import Winext.Lib.Ownership
import Winext.NamedPipe.ClientOutcome

/-! Any number of `connect` calls on one object. Its handles refine a ledger with one
owner, and a call leaks if and only if it leaves a handle that CreateFile has returned. -/
namespace Winext
open Lib Details

/-- One call, with what it is passed, what its variable `last_error` holds at first, and
how many turns of its loop there is time for. -/
structure ConnectCall where
  endpoint : String := ""
  ec : ErrorCode := {}
  timeoutMs : Int32 := 20000
  answers : ClientAnswers := {}
  lastError : Dword := noError
  turns : ℕ := 1

/-- The object, and the error code of the last call that has returned. -/
structure ClientPipe where
  world : ClientWorld := {}
  reported : Option ErrorCode := none

namespace ClientPipe

/-- A call that does not return in its time is no step. -/
def step (s : ClientPipe) (c : ConnectCall) : Option ClientPipe :=
  (s.world.connect c.answers c.turns c.lastError c.endpoint c.ec c.timeoutMs).bind fun r =>
    r.1.map fun out => { world := r.2.world, reported := some out.1 }

def machine : Machine ClientPipe ConnectCall := ⟨step⟩

end ClientPipe

/-- The condition on a call: if CreateFile succeeds in it, then SetNamedPipeHandleState does
too, and the error code passed in is clear. -/
def ConnectCall.Kept (c : ConnectCall) : Prop :=
  ∀ k, c.answers.EndsAt k → (c.answers.attempts k).create = none →
    c.answers.setState = none ∧ c.ec.failed = false

/-- What a call does with handles: CreateFile has returned none, or one that nobody owns, or
one that the object owns. -/
inductive ConnectCall.Does (c : ConnectCall) (w : ClientWorld) : ErrorCode → ClientWorld → Prop
  | nothing {ec : ErrorCode} {u : ClientWorld} (howner : u.owner = none)
    (hcreated : u.created = w.created) (hclosed : u.closed = w.shut.closed) (hk : c.Kept) :
    Does c w ec u
  | loses {ec : ErrorCode} {u : ClientWorld} (howner : u.owner = none)
    (hcreated : u.created = w.created + 1) (hclosed : u.closed = w.shut.closed) (hk : ¬c.Kept) :
    Does c w ec u
  | holds {ec : ErrorCode} {u : ClientWorld} (howner : u.owner = some (.pipe w.created))
    (hcreated : u.created = w.created + 1) (hclosed : u.closed = w.shut.closed) (hk : c.Kept)
    (hec : ec.failed = false) : Does c w ec u

namespace ClientPipe
open Connecting

lemma kept_iff {c : ConnectCall} {k : ℕ} (hend : c.answers.EndsAt k) :
    c.Kept ↔ ((c.answers.attempts k).create = none →
      c.answers.setState = none ∧ c.ec.failed = false) := by
  constructor
  · intro h
    exact h k hend
  · intro h j hj
    rw [hj.unique hend]
    exact h

theorem step_does {s t : ClientPipe} {c : ConnectCall} (h : step s c = some t) :
    ∃ ec, t.reported = some ec ∧ c.Does s.world ec t.world := by
  obtain ⟨r,hr,h⟩ := Option.bind_eq_some_iff.mp h
  obtain ⟨out,hout,rfl⟩ := Option.map_eq_some_iff.mp h
  refine ⟨out.1,rfl,?_⟩
  obtain hbusy | ⟨k,hk,hend⟩ := c.answers.endsAt_or_busy c.turns
  · rw [ClientWorld.connect_cut hbusy] at hr
    cases hr
    cases hout
  obtain ⟨left,u,hleft,hexec⟩ := ClientWorld.connect_returns hend hk s.world c.lastError
    c.endpoint c.ec c.timeoutMs
  rw [hexec] at hr
  cases hr
  cases hout
  have hkept := kept_iff hend
  have hshut : s.world.shut.owner = none := rfl
  cases hleft with
  | refused hc he =>
    rw [adopt_null]
    exact .nothing (by simp [failing,hshut]) (by simp [failing,ClientWorld.shut])
      (by simp [failing]) (hkept.mpr (by simp [hc]))
  | timedOut hc hw howner hclosed hcreated =>
    rw [adopt_null]
    exact .nothing (by simp [howner,hshut]) (by simp [hcreated,ClientWorld.shut])
      (by simp [hclosed]) (hkept.mpr (by simp [hc]))
  | unset hc hs =>
    rw [adopt_null]
    exact .loses (by simp [failing,opening,hshut]) (by simp [failing,opening,ClientWorld.shut])
      (by simp [failing,opening]) fun hk => by simp [hc,hs] at hkept; exact hkept hk
  | connected hc hs =>
    cases hf : c.ec.failed with
    | true =>
      simp only [adopt,hf,if_true]
      exact .loses (by simp [opening,hshut]) (by simp [opening,ClientWorld.shut])
        (by simp [opening]) fun hk => by simpa [hf] using (hkept.mp hk hc).2
    | false =>
      simp only [adopt,hf,Bool.false_eq_true,if_false]
      exact .holds (by simp [ClientWorld.shut]) (by simp [opening,ClientWorld.shut])
        (by simp [opening]) (hkept.mpr fun _ => ⟨hs,hf⟩) hf

end ClientPipe

namespace ClientWorld

/-- CreateFile has returned the handle, and it has not been closed. -/
def IsOpen (w : ClientWorld) (h : Handle) : Prop := (∃ n < w.created, h = .pipe n) ∧ h ∉ w.closed

/-- The object's handle is that of the ledger's only owner. -/
structure Represents (w : ClientWorld) (L : Ledger Unit Handle) : Prop where
  owner_eq : L.owner () = w.owner
  opened_iff : ∀ h, h ∈ L.opened ↔ w.IsOpen h
  closed_made : ∀ h ∈ w.closed, ∃ n < w.created, h = .pipe n

theorem Represents.accounted_iff {w : ClientWorld} {L : Ledger Unit Handle} (r : w.Represents L) :
    L.Accounted ↔ ∀ h, w.IsOpen h → w.owner = some h := by
  simp [Ledger.accounted_iff,r.opened_iff,r.owner_eq]

/-- An open object is closed first. -/
theorem Represents.shut {w : ClientWorld} {L : Ledger Unit Handle} (r : w.Represents L) :
    w.shut.Represents (L.discard ()) where
  owner_eq := by simp [Ledger.discard,ClientWorld.shut]
  opened_iff h := by
    simp only [Ledger.discard,ClientWorld.shut,IsOpen,Set.mem_ofPred_eq,r.opened_iff,
      r.owner_eq,List.mem_append,Option.mem_toList]
    tauto
  closed_made h hh := by
    simp only [ClientWorld.shut,List.mem_append,Option.mem_toList] at hh
    obtain hh | hh := hh
    · rw [← r.owner_eq] at hh
      exact ((r.opened_iff h).mp (L.owned_opened () h hh)).1
    · exact r.closed_made h hh

/-- A call refines closing what is owned, and then nothing, or taking a new handle, or
leaving one open without an owner. -/
theorem Represents.does {w u : ClientWorld} {L : Ledger Unit Handle} {c : ConnectCall}
    {ec : ErrorCode} (r : w.Represents L) (h : c.Does w ec u) :
    ∃ L', u.Represents L' ∧ (c.Kept → (L'.Accounted ↔ L.Accounted)) ∧
      (¬c.Kept → ¬L'.Accounted) := by
  have rs := r.shut
  have hnew : Handle.pipe w.created ∉ (L.discard ()).opened :=
    fun hin => Handle.next_not_made ((rs.opened_iff _).mp hin).1
  have hmade : ∀ h ∈ w.shut.closed, ∃ n < w.created + 1, h = .pipe n :=
    fun h hh => Handle.made_succ_iff.mpr (Or.inr (rs.closed_made h hh))
  have hopen := Handle.open_succ_iff rs.closed_made
  have hnone : (L.discard ()).owner () = none := rs.owner_eq
  cases h with
  | nothing howner hcreated hclosed hk =>
    refine ⟨L.discard (),⟨?_,fun h => ?_,?_⟩,fun _ => Ledger.accounted_discard,
      fun hne => absurd hk hne⟩
    · rw [howner,hnone]
    · rw [rs.opened_iff,IsOpen,IsOpen,hcreated,hclosed]
      rfl
    · rw [hcreated,hclosed]
      exact rs.closed_made
  | loses howner hcreated hclosed hk =>
    refine ⟨(L.discard ()).abandon (.pipe w.created),⟨?_,fun h => ?_,?_⟩,fun hl => absurd hl hk,
      fun _ => Ledger.not_accounted_abandon hnew⟩
    · rw [howner]
      exact hnone
    · rw [IsOpen,hcreated,hclosed]
      exact (or_congr_right (rs.opened_iff h)).trans (hopen h).symm
    · rw [hcreated,hclosed]
      exact hmade
  | holds howner hcreated hclosed hk hec =>
    refine ⟨(L.discard ()).acquire () (.pipe w.created) hnew,⟨?_,fun h => ?_,?_⟩,fun _ => ?_,
      fun hne => absurd hk hne⟩
    · rw [howner]
      simp [Ledger.acquire]
    · rw [IsOpen,hcreated,hclosed]
      exact (or_congr_right (rs.opened_iff h)).trans (hopen h).symm
    · rw [hcreated,hclosed]
      exact hmade
    · exact (Ledger.accounted_acquire hnone hnew).trans Ledger.accounted_discard

end ClientWorld

namespace ClientPipe

/-- A handle that is lost once is never closed. -/
theorem accounted_latch : machine.Latch (fun _ c => c.Kept)
    (fun s => ∃ L, s.world.Represents L ∧ L.Accounted)
    (fun s => ∃ L, s.world.Represents L ∧ ¬L.Accounted) where
  keep s c t hs hc h := by
    obtain ⟨L,r,ha⟩ := hs
    obtain ⟨ec,-,hdoes⟩ := step_does h
    obtain ⟨L',r',hkept,-⟩ := r.does hdoes
    exact ⟨L',r',(hkept hc).mpr ha⟩
  trip s c t hs hc h := by
    obtain ⟨L,r,ha⟩ := hs
    obtain ⟨ec,-,hdoes⟩ := step_does h
    obtain ⟨L',r',-,hlost⟩ := r.does hdoes
    exact ⟨L',r',hlost hc⟩
  stay s c t hs h := by
    obtain ⟨L,r,ha⟩ := hs
    obtain ⟨ec,-,hdoes⟩ := step_does h
    obtain ⟨L',r',hkept,hlost⟩ := r.does hdoes
    by_cases hc : c.Kept
    · exact ⟨L',r',fun ha' => ha ((hkept hc).mp ha')⟩
    · exact ⟨L',r',hlost hc⟩

/-- The object owns a handle only after a call that reported success. -/
def OwnsOnSuccess (s : ClientPipe) : Prop :=
  ∀ h, s.world.owner = some h → ∃ ec, s.reported = some ec ∧ ec.failed = false

theorem ownsOnSuccess_preserved : machine.Preserves OwnsOnSuccess := by
  intro s c t _ h x hx
  obtain ⟨ec,hec,hdoes⟩ := step_does h
  refine ⟨ec,hec,?_⟩
  cases hdoes with
  | nothing howner => simp [howner] at hx
  | loses howner => simp [howner] at hx
  | holds _ _ _ _ hf => exact hf

def emptyLedger : Ledger Unit Handle where
  opened := ∅
  owner _ := none
  owned_opened _ _ h := by cases h
  one_owner _ _ _ h := by cases h

theorem start_represents : ClientWorld.Represents {} emptyLedger where
  owner_eq := rfl
  opened_iff h := by simp [emptyLedger,ClientWorld.IsOpen]
  closed_made := by simp

/-- After any sequence of calls on one object, every handle CreateFile has returned is
closed or the object's own, which it has only from a call that reported success, if and
only if in every call that opened a handle all calls to the system succeeded and the error
code passed in was clear. -/
theorem connect_leaks_iff (cs : List ConnectCall) (s : ClientPipe)
    (hrun : machine.run {} cs = some s) :
    ((∀ h, s.world.IsOpen h → s.world.owner = some h) ∧
      ∀ h, s.world.owner = some h → ∃ ec, s.reported = some ec ∧ ec.failed = false) ↔
    ∀ c ∈ cs, c.Kept := by
  have hstart : ∃ L, ClientWorld.Represents {} L ∧ L.Accounted :=
    ⟨_,start_represents,by simp [Ledger.Accounted,emptyLedger]⟩
  have howns : s.OwnsOnSuccess := ownsOnSuccess_preserved.run hrun fun h hh => by cases hh
  rw [← Machine.along_label_iff hrun]
  obtain ⟨halong,L,r,ha⟩ | ⟨halong,L,r,ha⟩ := accounted_latch.run hrun hstart
  · exact iff_of_true ⟨r.accounted_iff.mp ha,howns⟩ halong
  · exact iff_of_false (fun h => ha (r.accounted_iff.mpr h.1)) halong

/-- A success, a reconnect while open that is refused, and a success after a busy turn. -/
theorem connect_leaks_iff_reconnect : ∃ s, machine.run {} [{},
    { answers := { attempts := fun _ => { create := some errorNoData } } },
    { turns := 2, answers := { attempts := fun i => { create := [errorPipeBusy][i]? } } }] = some s ∧
    (∀ h, s.world.IsOpen h → s.world.owner = some h) ∧
    ∀ h, s.world.owner = some h → ∃ ec, s.reported = some ec ∧ ec.failed = false := by
  obtain ⟨s,hs⟩ := Option.isSome_iff_exists.mp (show (machine.run {} [{},
    { answers := { attempts := fun _ => { create := some errorNoData } } },
    { turns := 2, answers := { attempts := fun i => { create := [errorPipeBusy][i]? } } }]).isSome
    by rfl)
  refine ⟨s,hs,(connect_leaks_iff _ s hs).mpr ?_⟩
  simp [ConnectCall.Kept,ErrorCode.failed]

/-- The error code of an earlier failure is passed in, and all calls to the system succeed:
the handle is open, and nobody owns it. -/
theorem connect_leaks_handle : ¬∀ (cs : List ConnectCall) (s : ClientPipe),
    machine.run {} cs = some s → (∀ h, s.world.IsOpen h → s.world.owner = some h) ∧
      ∀ h, s.world.owner = some h → ∃ ec, s.reported = some ec ∧ ec.failed = false := by
  intro h
  have hleak := (h [{ ec := ⟨errorPipeBusy⟩ }] _ rfl).1 (.pipe 0)
    ⟨⟨0,Nat.zero_lt_one,rfl⟩,List.not_mem_nil⟩
  cases hleak

end ClientPipe
end Winext
