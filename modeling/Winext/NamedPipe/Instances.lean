import Winext.Lib.Ownership
import Winext.NamedPipe.AcceptWorld

/-! Any number of accepts, of both overloads, on any pipe objects, with any answers of
the operating system. The handles a server process has open refine a ledger of single
owners, and the one step that leaks is an accept whose handle is dropped. -/
namespace Winext
open Lib Details

structure Accept where
  pipe : ℕ
  movesPipe : Bool
  made : Option Handle
  ov : Overlapped

def Accepting.started (t : Accepting) : Accept := ⟨t.pipe,t.movesPipe,t.made,t.ov⟩

structure Acceptors where
  world : World := {}
  accepts : List Accept := []

namespace Acceptors

inductive Act
  | construct
  | asyncAccept (o : Overload) (p : ℕ) (a : Answers)
  | clientConnects (h : Handle)
  | finish (i : ℕ) (status : Dword)
  | runHandler (i : ℕ)
  | moveOut (p : ℕ)
  | destroy (p : ℕ)

/-- An accept is started on a closed pipe only. A pending connect succeeds only with a
client. The handler of the moving overload gets the pipe in a new object. -/
def step (endpoint : String) (s : Acceptors) : Act → Option Acceptors
  | .construct => some { s with world := s.world.construct }
  | .asyncAccept o p a =>
    if p < s.world.objects ∧ s.world.owner p = none then
      (s.world.asyncAccept endpoint o p a).map fun r =>
        { world := r.2.world, accepts := s.accepts ++ [r.2.started] }
    else none
  | .clientConnects h => some { s with world := s.world.clientConnects h }
  | .finish i status =>
    s.accepts[i]?.bind fun x =>
      if status = noError ∧ ∀ h ∈ x.made, h ∉ s.world.connected then none
      else (x.ov.finish status 0 true).map fun u =>
        { s with accepts := s.accepts.set i { x with ov := u } }
  | .runHandler i =>
    s.accepts[i]?.bind fun x => x.ov.deliver.map fun d =>
      { world := if x.movesPipe then s.world.moveOut x.pipe else s.world
        accepts := s.accepts.set i { x with ov := d.2 } }
  | .moveOut p =>
    if p < s.world.objects then some { s with world := s.world.moveOut p } else none
  | .destroy p =>
    if p < s.world.objects then some { s with world := s.world.destroy p } else none

def machine (endpoint : String) : Machine Acceptors Act := ⟨step endpoint⟩

/-- The condition on a step: an accept keeps the handle it makes. -/
def Act.Kept : Act → Prop
  | .asyncAccept _ _ a => a.Kept
  | _ => True

end Acceptors

/-- The world's handles and owners are those of the ledger. -/
structure World.Represents (w : World) (L : Ledger ℕ Handle) : Prop where
  owner_eq : L.owner = w.owner
  opened_iff : ∀ h, h ∈ L.opened ↔ w.IsOpen h
  unused : ∀ p, w.objects ≤ p → w.owner p = none
  closed_made : ∀ h ∈ w.closed, ∃ n < w.created, h = .pipe n

/-- No open handle is without an owner, and none has two. -/
def World.Accounted (w : World) : Prop := ∀ h, w.IsOpen h → ∃! p, w.owner p = some h

namespace World.Represents
variable {w : World} {L : Ledger ℕ Handle}

theorem accounted_iff (r : w.Represents L) : L.Accounted ↔ w.Accounted := by
  simp only [Ledger.Accounted,World.Accounted,r.owner_eq,r.opened_iff]

theorem construct (r : w.Represents L) : w.construct.Represents L where
  owner_eq := r.owner_eq
  opened_iff := r.opened_iff
  unused p hp := r.unused p (Nat.le_of_succ_le hp)
  closed_made := r.closed_made

theorem clientConnects (r : w.Represents L) (h : Handle) :
    (w.clientConnects h).Represents L :=
  ⟨r.owner_eq,r.opened_iff,r.unused,r.closed_made⟩

/-- A move hands over what the old object owned, which is nothing if it is closed. -/
theorem moveOut (r : w.Represents L) (p : ℕ) :
    ∃ L', (w.moveOut p).Represents L' ∧ (L'.Accounted ↔ L.Accounted) := by
  have hnew : L.owner w.objects = none := by rw [r.owner_eq]; exact r.unused _ le_rfl
  by_cases hp : p < w.objects
  · refine ⟨L.transfer p w.objects,⟨?_,r.opened_iff,fun q hq => ?_,r.closed_made⟩,
      Ledger.accounted_transfer hnew (Nat.ne_of_lt hp)⟩
    · simp only [Ledger.transfer,World.moveOut,r.owner_eq]
    · have hq' : w.objects + 1 ≤ q := hq
      have hqp : q ≠ p := by omega
      have hqo : q ≠ w.objects := by omega
      simp only [World.moveOut,Function.update_of_ne hqp,Function.update_of_ne hqo]
      exact r.unused q (by omega)
  · have hclosed : w.owner p = none := r.unused p (by omega)
    have howner : (w.moveOut p).owner = w.owner := by
      rw [r.owner_eq] at hnew
      simp only [World.moveOut,hclosed]
      rw [← hnew,Function.update_eq_self,hnew,← hclosed,Function.update_eq_self]
    exact ⟨L,⟨r.owner_eq.trans howner.symm,r.opened_iff,
      fun q hq => howner ▸ r.unused q (Nat.le_of_succ_le hq),r.closed_made⟩,Iff.rfl⟩

theorem destroy (r : w.Represents L) (p : ℕ) : (w.destroy p).Represents (L.discard p) where
  owner_eq := by simp only [Ledger.discard,World.destroy,r.owner_eq]
  opened_iff h := by
    simp only [Ledger.discard,World.destroy,World.IsOpen,Set.mem_ofPred_eq,r.opened_iff,
      r.owner_eq,List.mem_append,Option.mem_toList]
    tauto
  unused q hq := by
    simp only [World.destroy,Function.update_apply]
    split_ifs
    · rfl
    · exact r.unused q hq
  closed_made h hh := by
    simp only [World.destroy,List.mem_append,Option.mem_toList] at hh
    rcases hh with hh | hh
    · rw [← r.owner_eq] at hh
      exact ((r.opened_iff h).mp (L.owned_opened p h hh)).1
    · exact r.closed_made h hh

lemma next_not_opened (r : w.Represents L) : Handle.pipe w.created ∉ L.opened :=
  fun h => Handle.next_not_made ((r.opened_iff _).mp h).1

lemma closed_made_create (r : w.Represents L) :
    ∀ h ∈ w.closed, ∃ n < w.created + 1, h = .pipe n :=
  fun h hh => Handle.made_succ_iff.mpr (Or.inr (r.closed_made h hh))

/-- An accept acquires a handle, abandons one, or makes none, as its answers say. -/
theorem asyncAccept (r : w.Represents L) {p : ℕ} (hobj : p < w.objects)
    (hp : w.owner p = none) {a : Answers} {m : Bool} {t : Accepting}
    (h : Accepting.Outcome w p a m t) :
    ∃ L', t.world.Represents L' ∧ (a.Kept → (L'.Accounted ↔ L.Accounted)) ∧
      (¬a.Kept → ¬L'.Accounted) := by
  have hLp : L.owner p = none := by rw [r.owner_eq]; exact hp
  have hnew := r.next_not_opened
  cases h with
  | refused hc =>
    have hk : a.Kept := Or.inl (by simp [hc])
    exact ⟨L,⟨r.owner_eq,r.opened_iff,r.unused,r.closed_made⟩,fun _ => Iff.rfl,
      fun hn => absurd hk hn⟩
  | held hc hk hov =>
    refine ⟨L.acquire p _ hnew,⟨?_,fun h => ?_,fun q hq => ?_,r.closed_made_create⟩,
      fun _ => Ledger.accounted_acquire hLp hnew,fun hn => absurd hk hn⟩
    · simp only [Ledger.acquire,Accepting.assigning,Accepting.connecting,r.owner_eq]
    · exact (or_congr_right (r.opened_iff h)).trans (Handle.open_succ_iff r.closed_made h).symm
    · have hq' : w.objects ≤ q := hq
      have hqp : q ≠ p := by omega
      simp only [Accepting.assigning,Accepting.connecting,Function.update_of_ne hqp]
      exact r.unused q hq'
  | dropped hc hk hec =>
    refine ⟨L.abandon _,⟨r.owner_eq,fun h => ?_,r.unused,r.closed_made_create⟩,
      fun h => absurd h hk,fun _ => Ledger.not_accounted_abandon hnew⟩
    exact (or_congr_right (r.opened_iff h)).trans (Handle.open_succ_iff r.closed_made h).symm

end World.Represents

namespace Acceptors

/-- Every step refines a step of the ledger that keeps its account, except an accept that
drops its handle, which breaks it. -/
theorem step_refines {endpoint : String} {s t : Acceptors} {l : Act}
    (h : step endpoint s l = some t) {L : Ledger ℕ Handle} (r : s.world.Represents L) :
    ∃ L', t.world.Represents L' ∧ (l.Kept → (L'.Accounted ↔ L.Accounted)) ∧
      (¬l.Kept → ¬L'.Accounted) := by
  cases l with
  | construct =>
    cases h
    exact ⟨L,r.construct,fun _ => Iff.rfl,fun hn => absurd trivial hn⟩
  | asyncAccept o p a =>
    simp only [step] at h
    split_ifs at h with hp
    obtain ⟨⟨out,u⟩,hu,rfl⟩ := Option.map_eq_some_iff.mp h
    exact r.asyncAccept hp.1 hp.2 (World.asyncAccept_cases hp.2 hu)
  | clientConnects c =>
    cases h
    exact ⟨L,r.clientConnects c,fun _ => Iff.rfl,fun hn => absurd trivial hn⟩
  | finish i status =>
    obtain ⟨x,hx,h⟩ := Option.bind_eq_some_iff.mp h
    split_ifs at h
    obtain ⟨u,hu,rfl⟩ := Option.map_eq_some_iff.mp h
    exact ⟨L,r,fun _ => Iff.rfl,fun hn => absurd trivial hn⟩
  | runHandler i =>
    obtain ⟨x,hx,h⟩ := Option.bind_eq_some_iff.mp h
    obtain ⟨d,hd,rfl⟩ := Option.map_eq_some_iff.mp h
    cases hm : x.movesPipe with
    | false => exact ⟨L,by simpa [hm] using r,fun _ => Iff.rfl,fun hn => absurd trivial hn⟩
    | true =>
      obtain ⟨L',hr,ha⟩ := r.moveOut x.pipe
      exact ⟨L',by simpa [hm] using hr,fun _ => ha,fun hn => absurd trivial hn⟩
  | moveOut p =>
    simp only [step] at h
    split_ifs at h with hp
    cases h
    obtain ⟨L',hr,ha⟩ := r.moveOut p
    exact ⟨L',hr,fun _ => ha,fun hn => absurd trivial hn⟩
  | destroy p =>
    simp only [step] at h
    split_ifs at h with hp
    cases h
    exact ⟨_,r.destroy p,fun _ => Ledger.accounted_discard,fun hn => absurd trivial hn⟩

/-- A leak, once made, is never repaired. -/
theorem accounted_latch (endpoint : String) : (machine endpoint).Latch (fun _ l => l.Kept)
    (fun s => ∃ L, s.world.Represents L ∧ L.Accounted)
    (fun s => ∃ L, s.world.Represents L ∧ ¬L.Accounted) where
  keep s l t hs hl h := by
    obtain ⟨L,r,ha⟩ := hs
    obtain ⟨L',r',hkept,-⟩ := step_refines h r
    exact ⟨L',r',(hkept hl).mpr ha⟩
  trip s l t hs hl h := by
    obtain ⟨L,r,ha⟩ := hs
    obtain ⟨L',r',-,hdropped⟩ := step_refines h r
    exact ⟨L',r',hdropped hl⟩
  stay s l t hs h := by
    obtain ⟨L,r,ha⟩ := hs
    obtain ⟨L',r',hkept,hdropped⟩ := step_refines h r
    by_cases hl : l.Kept
    · exact ⟨L',r',fun ha' => ha ((hkept hl).mp ha')⟩
    · exact ⟨L',r',hdropped hl⟩

def emptyLedger : Ledger ℕ Handle where
  opened := ∅
  owner _ := none
  owned_opened _ _ h := by cases h
  one_owner _ _ _ h := by cases h

theorem start_represents : World.Represents {} emptyLedger where
  owner_eq := rfl
  opened_iff h := by simp [emptyLedger,World.IsOpen]
  unused _ _ := rfl
  closed_made := by simp

/-- After any sequence of accepts and other steps, every handle CreateNamedPipe has
returned is closed or owned by exactly one pipe object, if and only if every accept kept
the handle it made. -/
theorem accept_leaks_iff (endpoint : String) (ls : List Act) (s : Acceptors)
    (hrun : (machine endpoint).run {} ls = some s) :
    (∀ h, s.world.IsOpen h → ∃! p, s.world.owner p = some h) ↔ ∀ l ∈ ls, l.Kept := by
  have hstart : ∃ L, World.Represents {} L ∧ L.Accounted :=
    ⟨_,start_represents,by simp [Ledger.Accounted,emptyLedger]⟩
  rw [← Machine.along_label_iff hrun]
  rcases (accounted_latch endpoint).run hrun hstart with ⟨halong,L,r,ha⟩ | ⟨halong,L,r,ha⟩
  · exact iff_of_true (r.accounted_iff.mp ha) halong
  · exact iff_of_false (fun h => ha (r.accounted_iff.mpr h)) halong

/-- A pending accept of each overload, one of them handed to its handler. -/
theorem accept_leaks_iff_pending : ∃ s, (machine "").run {}
    [.construct,.construct,.asyncAccept .intoPipe 0 {},.asyncAccept .byMove 1 {},
      .clientConnects (.pipe 1),.finish 1 noError,.runHandler 1] = some s ∧
    ∀ h, s.world.IsOpen h → ∃! p, s.world.owner p = some h := by
  obtain ⟨s,hs⟩ := Option.isSome_iff_exists.mp (show ((machine "").run {}
    [.construct,.construct,.asyncAccept .intoPipe 0 {},.asyncAccept .byMove 1 {},
      .clientConnects (.pipe 1),.finish 1 noError,.runHandler 1]).isSome by decide)
  refine ⟨s,hs,(accept_leaks_iff "" _ s hs).mpr ?_⟩
  simp [Act.Kept,Answers.Kept]

/-- A client connected and left before ConnectNamedPipe: its instance stays open, and is
owned by nobody. -/
theorem accept_leaks_instance : ¬∀ (endpoint : String) (ls : List Act) (s : Acceptors),
    (machine endpoint).run {} ls = some s →
    ∀ h, s.world.IsOpen h → ∃! p, s.world.owner p = some h := by
  intro h
  have hleak := h "" [.construct,.asyncAccept .intoPipe 0 { connectError := errorNoData },
    .runHandler 0] _ rfl (.pipe 0) ⟨⟨0,Nat.zero_lt_one,rfl⟩,List.not_mem_nil⟩
  obtain ⟨p,hp,-⟩ := hleak
  cases hp

end Acceptors
end Winext
