import Winext.NamedPipe.SessionPipes
import Winext.NamedPipe.Serving

/-! What a server lets slip, whatever program handles its accepts: clients that connect
between ConnectNamedPipe and `assign`, and instances that are left to nobody. -/
namespace Winext
open Lib Details

/-- Every open instance belongs to the server's pipe, or to a session that something holds. -/
def EchoWorld.Accounted (w : EchoWorld) : Prop :=
  ∀ i x, w.instances[i]? = some x → x.closed = false →
    w.pipe = some i ∨ ∃ r, x.session = some r ∧ r.held = true

namespace Watched

/-- That is so of all instances but those that were left to nobody. -/
lemma Books.accounted_iff {s : Watched} (h : s.Books s.world.pipe) :
    s.world.Accounted ↔ s.leaked = [] := by
  constructor
  · intro hall
    by_contra hne
    obtain ⟨i,hi⟩ := List.exists_mem_of_ne_nil s.leaked hne
    obtain ⟨hpipe,x,hx,hnone,-⟩ := h.leaked i hi
    have hopen := h.kept x (List.mem_of_getElem? hx)
    simp only [PipeInstance.Kept,hnone] at hopen
    obtain hp | ⟨r,hr,-⟩ := hall i x hx hopen
    · exact hpipe hp
    · rw [hnone] at hr
      cases hr
  · intro hnil i x hx hopen
    have hkept := h.kept x (List.mem_of_getElem? hx)
    cases hs : x.session with
    | none => exact Or.inl ((h.others i x hx hs).resolve_right (by simp [hnil]))
    | some r =>
      simp only [PipeInstance.Kept,hs,hopen] at hkept
      exact Or.inr ⟨r,rfl,by simpa using hkept.symm⟩

/-- Nothing is there yet. -/
lemma idle_start : Idle ⟨{},none,[]⟩ := by
  refine ⟨none,{},⟨⟨by simp,by simp,by simp⟩,fun i x hx => by simp at hx,rfl,rfl,rfl,rfl,rfl⟩,?_⟩
  intro i x hi
  cases hi

/-- An accept of which nothing was missed is told of its client, or waits for one that can
come. -/
lemma begun_cases {w : EchoWorld} {leaked : List ℕ} (h : Begun ⟨w,none,leaked⟩) :
    (∃ d, w.ov.deliver = some d) ∨ ∃ n x, w.pipe = some n ∧ w.connecting = some n ∧
      w.instances[n]? = some x ∧ x.client = .absent ∧ x.closed = false ∧
      w.ov = { io := .pending, handedOver := true } := by
  cases h with
  | asked n h =>
    cases h with
    | waits hs hn =>
      obtain ⟨x,hx,hnone,habsent⟩ := hn
      have hopen := hs.books.kept x (List.mem_of_getElem? hx)
      simp only [PipeInstance.Kept,hnone] at hopen
      exact Or.inr ⟨n,x,hs.pipe_eq,hs.connecting_eq,hx,habsent,hopen,hs.ov_eq⟩
    | comes _ hs =>
      have hov : w.ov = { io := .finished noError 0, packets := [⟨{},0⟩], handedOver := true } :=
        hs.ov_eq
      exact Or.inl (by simp [hov,Overlapped.deliver])
    | missed hs => cases hs.missed_eq
  | early n hs =>
    have hov : w.ov = Overlapped.complete (Place.came n).ov {} 0 := hs.ov_eq
    exact Or.inl (by simp [hov,Overlapped.deliver,Overlapped.complete,Place.came,Place.asked])
  | failed n hs =>
    have hov : w.ov = Overlapped.complete (Place.left n).ov ⟨errorNoData⟩ 0 := hs.ov_eq
    exact Or.inl (by simp [hov,Overlapped.deliver,Overlapped.complete,Place.left])

end Watched

namespace PipeServer
variable {α : Type} {threads : ℕ} {output : Dword → Dword} {o : Overload}
variable {handler : ErrorCode → LoopProgram α} {Ends : α → Watched → Prop}
variable {s t : PipeServer α} {l : Act} {missed : Option ℕ} {leaked : List ℕ}

/-- A client connects between ConnectNamedPipe and `assign`. -/
def Misses (s : PipeServer α) : Act → Prop
  | .pipe i k => s.world.Misses i k
  | _ => False

/-- The client that the loop misses in a step. -/
def missedBy (s : PipeServer α) : Act → Option ℕ
  | .pipe i k => if s.world.Misses i k then some i else none
  | .accept | .deliver => none

lemma missedBy_eq_none : s.missedBy l = none ↔ ¬s.Misses l := by
  cases l <;> simp [missedBy,Misses]

/-- ConnectNamedPipe finds that the client of the new instance has come and gone. -/
def Leaves (s : PipeServer α) : Act → Prop
  | .accept => ∃ i, s.nextCall = some (.server (.connectNamedPipe (.pipe i))) ∧
      s.world.instances[i]?.map PipeInstance.client = some .gone
  | _ => False

lemma leaves_eq_nil {w : EchoWorld} {c : LoopCall} {next : c.Answer → LoopProgram α} :
    w.leaves c = [] ↔ ¬Leaves ⟨w,.call c next⟩ .accept := by
  rw [← not_iff_not,not_not]
  constructor
  · intro h
    unfold EchoWorld.leaves at h
    split at h
    · split_ifs at h with hgone
      · exact ⟨_,rfl,hgone⟩
      · exact absurd rfl h
    · exact absurd rfl h
  · rintro ⟨i,hc,hgone⟩
    cases hc
    have hone : w.leaves (.server (.connectNamedPipe (.pipe i))) = [i] := if_pos hgone
    simp [hone]

/-- The handler goes on to one of its ends, with what the server has let slip so far. -/
def Watches (Ends : α → Watched → Prop) (output : Dword → Dword) (o : Overload)
    (s : PipeServer α) (missed : Option ℕ) (leaked : List ℕ) : Prop :=
  (Watched.environment output o).Guaranteed Ends s.program ⟨s.world,missed,leaked⟩

/-- A handler that is told of an accept in such an end comes to such an end again. -/
def Resumes (Ends : α → Watched → Prop) (output : Dword → Dword) (o : Overload)
    (handler : ErrorCode → LoopProgram α) : Prop :=
  ∀ a (s : Watched) (d : Packet × Overlapped), Ends a s → s.world.ov.deliver = some d →
    (Watched.environment output o).Guaranteed Ends (handler d.1.ec)
      { s with world := ({ s.world with ov := d.2 }).handPipe o }

lemma Watches.ends {a : α} (h : s.Watches Ends output o missed leaked)
    (hp : s.program = .done a) : Ends a ⟨s.world,missed,leaked⟩ := by
  rw [Watches,hp] at h
  exact h [] _ rfl

/-- One step of the server, and what it lets slip. -/
theorem step_watches (hresumes : Resumes Ends output o handler)
    (h : s.Watches Ends output o missed leaked)
    (hstep : (machine threads output o handler).step s l = some t) :
    ∃ leaked', t.Watches Ends output o (missed.or (s.missedBy l)) leaked' ∧
      (leaked' = [] ↔ leaked = [] ∧ ¬s.Leaves l) := by
  obtain ⟨w,p⟩ := s
  cases step_cases hstep with
  | @accept c next hp =>
    cases hp
    refine ⟨w.leaves c ++ leaked,?_,?_⟩
    · rw [missedBy,Option.or_none]
      exact h [] _ rfl _ rfl
    · rw [List.append_eq_nil_iff,leaves_eq_nil,and_comm]
  | @deliver a d hp hd =>
    cases hp
    refine ⟨leaked,?_,by simp [Leaves]⟩
    rw [missedBy,Option.or_none]
    exact hresumes a _ d (h.ends rfl) hd
  | @pipe i k xs _ hxs =>
    refine ⟨leaked,?_,by simp [Leaves]⟩
    refine Environment.Guaranteed.interfere (l := (i,k)) h ?_
    simp [Watched.environment,Watched.interfere,hxs,missedBy]

theorem latch_leaves (hresumes : Resumes Ends output o handler) :
    (machine threads output o handler).Latch (fun s l => ¬s.Leaves l)
      (fun s => ∃ g : Option ℕ × List ℕ, s.Watches Ends output o g.1 g.2 ∧ g.2 = [])
      fun s => ∃ g : Option ℕ × List ℕ, s.Watches Ends output o g.1 g.2 ∧ ¬g.2 = [] := by
  refine Machine.Latch.ofGhost fun s l t g hs hstep => ?_
  obtain ⟨leaked',ht,hleaked⟩ := step_watches hresumes hs hstep
  exact ⟨(_,leaked'),ht,hleaked⟩

/-- Where all ends of the handler leave the books in order: whenever it has returned, the
server has lost track of no open instance, if and only if no ConnectNamedPipe has found that
its client had come and gone. -/
theorem accounted_iff_along (hresumes : Resumes Ends output o handler)
    (hbooks : ∀ a (v : Watched), Ends a v → v.Books v.world.pipe)
    (hs : s.Watches Ends output o none []) {ls : List Act} {a : α}
    (h : (machine threads output o handler).run s ls = some t) (ha : t.program = .done a) :
    t.world.Accounted ↔ (machine threads output o handler).Along (fun s l => ¬s.Leaves l) s ls := by
  have hiff : ∀ g : Option ℕ × List ℕ, t.Watches Ends output o g.1 g.2 →
      (t.world.Accounted ↔ g.2 = []) := fun g hg => (hbooks a _ (hg.ends ha)).accounted_iff
  obtain ⟨halong,g,hg,hnil⟩ | ⟨halong,g,hg,hne⟩ := (latch_leaves hresumes).run h
    ⟨(none,[]),hs,rfl⟩
  · exact iff_of_true ((hiff g hg).mpr hnil) halong
  · exact iff_of_false (mt (hiff g hg).mp hne) halong

variable (threads output o handler) in
/-- An accept that waits for a client is told of the next one to connect. -/
lemma exists_connects {n : ℕ} {x : PipeInstance} (hpipe : s.world.pipe = some n)
    (hconnecting : s.world.connecting = some n) (hx : s.world.instances[n]? = some x)
    (habsent : x.client = .absent) (hopen : x.closed = false)
    (hov : s.world.ov = { io := .pending, handedOver := true }) :
    ∃ w d, (machine threads output o handler).step s (.pipe n .clientConnects) =
        some ⟨w,s.program⟩ ∧ w.ov.deliver = some d ∧ d.1.ec.failed = false := by
  have hstep : PipeInstance.step .clientConnects x = some { x with client := .connected } := by
    simp [PipeInstance.step,habsent,hopen]
  obtain ⟨xs,hxs⟩ : ∃ xs, stepAt s.world.instances n (PipeInstance.step .clientConnects) =
      some xs := ⟨_,stepAt_eq_some.mpr ⟨x,_,hx,hstep,rfl⟩⟩
  generalize hw : ({ s.world with instances := xs } : EchoWorld).afterStep n .clientConnects = w
  have hov : w.ov = { io := .finished noError 0, packets := [⟨{},0⟩], handedOver := true } := by
    simp [← hw,EchoWorld.afterStep,hconnecting,hpipe,hov,Overlapped.finish,noError]
  refine ⟨w,(⟨{},0⟩,{ w.ov with packets := [], delivered := [⟨{},0⟩] }),?_,?_,rfl⟩
  · simp [machine,step,hxs,hw]
  · rw [hov]
    rfl

end PipeServer
end Winext
