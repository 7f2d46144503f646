import Winext.NamedPipe.SessionPipes

/-! The endpoint does not vanish between two accepts, unless a session is let go for good
while the accept handler has not yet made the next instance. -/
namespace Winext
open Lib Details

namespace Session
variable {s t : Session}

/-- The read or the write has failed, and its handler has not run. -/
def failing (s : Session) : Bool :=
  match s.op with
  | .readEnded ec _ | .writeEnded ec => ec.failed
  | _ => false

/-- A handler lets its session go when it is told an error and holds the last reference. -/
lemma handler_held_iff (h : s.handler = some t) :
    t.held = false ↔ s.temporary = false ∧ s.failing = true := by
  cases hop : s.op with
  | readEnded ec length =>
    simp only [handler,hop,Option.some.injEq] at h
    subst h
    by_cases hec : ec.failed = true
    · simp [held,failing,hop,hec,SessionOp.holds]
    · by_cases hlen : length = 0 <;> simp [held,failing,hop,hec,hlen,doWrite,SessionOp.holds]
  | writeEnded ec =>
    simp only [handler,hop,Option.some.injEq] at h
    subst h
    by_cases hec : ec.failed = true <;> simp [held,failing,hop,hec,doRead,SessionOp.holds]
  | idle | reading | writing | stopped =>
    simp only [handler,hop] at h
    cases h

end Session

namespace PipeInstance
variable {x y : PipeInstance} {l : PipeStep}

/-- The handler that is to run holds the last reference to its session, and starts nothing. -/
def Ending (x : PipeInstance) : Prop :=
  ∃ s, x.session = some s ∧ s.temporary = false ∧ s.failing = true

/-- Only the last handler of a session closes an instance. -/
lemma closed_step (h : step l x = some y) :
    y.closed = true ↔ x.closed = true ∨ l = .runHandler ∧ x.Ending := by
  cases step_cases h with
  | client _ _ hl => simp [hl]
  | readEnds _ _ hy =>
    obtain ⟨r,-,rfl⟩ := Option.map_eq_some_iff.mp hy
    simp
  | writes | readFails | writeFails => simp [writes]
  | @runHandler s t hs ht =>
    simp only [keep,Bool.or_eq_true,Bool.not_eq_true',true_and,Ending,hs,Option.some.injEq,
      exists_eq_left']
    rw [Session.handler_held_iff ht]

/-- An instance whose session has let go of it when the accept handler does. -/
lemma closed_dropSession : x.dropSession.closed = true ↔
    x.closed = true ∨ ∃ s, x.session = some s ∧ s.op.holds = false := by
  cases hs : x.session with
  | none => simp [dropSession,hs]
  | some s => simp [dropSession,hs,keep,Session.held]

end PipeInstance

/-- A session is running, and may be let go, when these are called. -/
def LoopCall.BeforeCreate : LoopCall → Prop
  | .startSession | .dropSession | .server (.overlappedPtr _) => True
  | _ => False

def LoopCall.Creates : LoopCall → Prop
  | .server (.createNamedPipe _ _) => True
  | _ => False

/-- The call has nothing to do with sessions. -/
def LoopCall.Harmless : LoopCall → Prop
  | .makeSession | .startSession | .dropSession => False
  | _ => True

namespace LoopProgram

/-- The next instance is made before anything else happens to the pipes of the loop. -/
def Creating (p : LoopProgram (Except Thrown Unit)) : Prop :=
  p.Until LoopCall.BeforeCreate LoopCall.Creates (Program.All LoopCall.Harmless)

lemma ofServer_harmless {α : Type} (p : ServerProgram α) : (ofServer p).All LoopCall.Harmless := by
  induction p with
  | done a => exact trivial
  | call c next ih => exact ⟨trivial,ih⟩

end LoopProgram

lemma doAccept_creating (o : Overload) (endpoint : String) :
    (doAccept o endpoint).Creating := by
  rw [doAccept,o.asyncAccept_eq,acceptOperator,if_neg (by decide)]
  exact Or.inr ⟨trivial,fun _ => Or.inl ⟨trivial,fun _ => LoopProgram.ofServer_harmless _⟩⟩

/-- A handler starts the session of its client, if there is one, and makes the next instance. -/
lemma acceptHandler_cases (o : Overload) (endpoint : String) (ec : ErrorCode) :
    (acceptHandler o endpoint ec).Creating ∨ ∃ next : Unit → LoopProgram (Except Thrown Unit),
      acceptHandler o endpoint ec = .call .makeSession next ∧ ∀ r, (next r).Creating := by
  have hnext : LoopProgram.Creating (do
      let started ← doAccept o endpoint
      if o = .byMove then
        Program.ask LoopCall.dropSocket
      return started) := by
    refine (doAccept_creating o endpoint).bind fun q hq => hq.bind fun started => ?_
    cases o with
    | intoPipe => exact trivial
    | byMove => exact ⟨trivial,fun _ => trivial⟩
  cases hec : ec.failed with
  | true =>
    simp only [acceptHandler,hec]
    exact Or.inl hnext
  | false =>
    simp only [acceptHandler,hec]
    refine Or.inr ⟨_,rfl,fun _ => ?_⟩
    exact Or.inr ⟨trivial,fun _ => Or.inr ⟨trivial,fun _ => hnext⟩⟩

namespace EchoWorld
variable {w : EchoWorld} {i : ℕ}

def OpenAt (w : EchoWorld) (i : ℕ) : Prop := ∃ x, w.instances[i]? = some x ∧ x.closed = false

/-- An open instance that no session has taken. -/
def Spare (w : EchoWorld) (i : ℕ) : Prop :=
  ∃ x, w.instances[i]? = some x ∧ x.closed = false ∧ x.session = none

lemma Spare.openAt (h : w.Spare i) : w.OpenAt i := by
  obtain ⟨x,hx,hclosed,-⟩ := h
  exact ⟨x,hx,hclosed⟩

lemma openAt_modifyAt {j : Option ℕ} {f : PipeInstance → PipeInstance} (h : w.OpenAt i)
    (hf : ∀ x, j = some i → w.instances[i]? = some x → x.closed = false → (f x).closed = false) :
    (w.modifyAt j f).OpenAt i := by
  obtain ⟨x,hx,hclosed⟩ := h
  by_cases hji : j = some i
  · exact ⟨f x,by rw [getElem?_modifyAt,if_pos hji,hx]; rfl,hf x hji hx hclosed⟩
  · exact ⟨x,by rw [getElem?_modifyAt,if_neg hji,hx],hclosed⟩

lemma spare_modifyAt {j : Option ℕ} {f : PipeInstance → PipeInstance} (h : w.Spare i)
    (hf : ∀ x, j = some i → x.session = none → (f x).closed = x.closed ∧ (f x).session = none) :
    (w.modifyAt j f).Spare i := by
  obtain ⟨x,hx,hclosed,hs⟩ := h
  by_cases hji : j = some i
  · obtain ⟨hsame,hnone⟩ := hf x hji hs
    exact ⟨f x,by rw [getElem?_modifyAt,if_pos hji,hx]; rfl,hsame.trans hclosed,hnone⟩
  · exact ⟨x,by rw [getElem?_modifyAt,if_neg hji,hx],hclosed,hs⟩

/-- A new instance is spare, and so is every one that was. -/
lemma spare_performServer (h : w.Spare i) (c : ServerCall) (output : Dword → Dword) :
    (w.performServer output c).2.Spare i := by
  obtain ⟨x,hx,hclosed,hs⟩ := h
  cases c with
  | createNamedPipe endpoint settings =>
    exact ⟨x,(List.getElem?_append_left (List.getElem?_eq_some_iff.mp hx).1).trans hx,hclosed,hs⟩
  | assign hPipe =>
    simp only [performServer]
    split <;> exact ⟨x,hx,hclosed,hs⟩
  | connectNamedPipe | getLastError | print | overlappedPtr | complete | release | selfComplete =>
    exact ⟨x,hx,hclosed,hs⟩

/-- A spare instance stays so until it gets a session, or is closed with the handler's socket. -/
lemma spare_perform (h : w.Spare i) {c : LoopCall} (hmake : c ≠ .makeSession)
    (hsocket : c = .dropSocket → w.socket ≠ some i) (output : Dword → Dword) (o : Overload) :
    (w.perform output o c).2.Spare i := by
  cases c with
  | server c => exact spare_performServer h c output
  | makeSession => exact absurd rfl hmake
  | startSession => exact spare_modifyAt h fun x _ hs => by simp [PipeInstance.startSession,hs]
  | dropSession => exact spare_modifyAt h fun x _ hs => by simp [PipeInstance.dropSession,hs]
  | dropSocket => exact spare_modifyAt h fun x hji _ => absurd hji (hsocket rfl)

lemma spare_created (endpoint : String) (settings : PipeSettings) (output : Dword → Dword) :
    (w.performServer output (.createNamedPipe endpoint settings)).2.Spare w.instances.length :=
  ⟨_,List.getElem?_concat_length,rfl,rfl⟩

lemma openAt_makeSession (h : w.OpenAt i) (o : Overload) : (w.makeSession o).OpenAt i := by
  cases o <;> exact openAt_modifyAt h fun _ _ _ hclosed => hclosed

/-- Before the next instance is made, the handler closes one only by letting go of a session
that nothing else holds. -/
lemma openAt_beforeCreate (h : w.OpenAt i) {c : LoopCall} (hc : c.BeforeCreate)
    (hkept : c = .dropSession → w.starting = some i → ∀ x s, w.instances[i]? = some x →
      x.session = some s → s.op.holds = true) (output : Dword → Dword) (o : Overload) :
    (w.perform output o c).2.OpenAt i := by
  cases c with
  | server c =>
    cases c with
    | overlappedPtr => exact h
    | _ => exact hc.elim
  | makeSession | dropSocket => exact hc.elim
  | startSession => exact openAt_modifyAt h fun _ _ _ hclosed => hclosed
  | dropSession =>
    refine openAt_modifyAt h fun x hstarting hx hclosed => ?_
    rw [← Bool.not_eq_true,PipeInstance.closed_dropSession,hclosed]
    rintro (hc | ⟨s,hs,hheld⟩)
    · cases hc
    · rw [hkept rfl hstarting x s hx hs] at hheld
      cases hheld

/-- A client's CreateFile takes an instance without a client. Where there is none it tells
apart an endpoint that is busy and one that does not exist. -/
def createFile (w : EchoWorld) : Except Dword ℕ :=
  match w.instances.findIdx? fun x => x.client = .absent && !x.closed with
  | some i => .ok i
  | none => .error (if w.instances.any (!·.closed) then errorPipeBusy else errorFileNotFound)

lemma createFile_cases (w : EchoWorld) :
    (∃ i, w.createFile = .ok i ∧ w.OpenAt i) ∨
    (w.createFile = .error errorPipeBusy ∧ ∃ i, w.OpenAt i) ∨
    (w.createFile = .error errorFileNotFound ∧ ¬∃ i, w.OpenAt i) := by
  cases hfind : w.instances.findIdx? fun x => x.client = .absent && !x.closed with
  | some i =>
    obtain ⟨hi,hp,-⟩ := List.findIdx?_eq_some_iff_getElem.mp hfind
    simp only [Bool.and_eq_true,Bool.not_eq_true'] at hp
    exact Or.inl ⟨i,by simp only [createFile,hfind],_,List.getElem?_eq_getElem hi,hp.2⟩
  | none =>
    cases hany : w.instances.any (!·.closed) with
    | true =>
      obtain ⟨x,hx,hclosed⟩ := List.any_eq_true.mp hany
      obtain ⟨i,hi⟩ := List.mem_iff_getElem?.mp hx
      refine Or.inr (Or.inl ⟨by simp only [createFile,hfind,hany,if_true],i,x,hi,?_⟩)
      simpa using hclosed
    | false =>
      refine Or.inr (Or.inr ⟨by simp [createFile,hfind,hany],?_⟩)
      rintro ⟨i,x,hx,hclosed⟩
      have hnone := List.any_eq_false.mp hany x (List.mem_of_getElem? hx)
      simp [hclosed] at hnone

/-- An instance of the endpoint is there, and a client finds it, or finds it busy. -/
structure EndpointExists (w : EchoWorld) : Prop where
  isOpen : ∃ i, w.OpenAt i
  answers : ∀ e, w.createFile = .error e → e = errorPipeBusy

theorem endpointExists_iff : w.EndpointExists ↔ ∃ i, w.OpenAt i := by
  refine ⟨EndpointExists.isOpen,fun hopen => ⟨hopen,fun e he => ?_⟩⟩
  obtain ⟨i,hok,-⟩ | ⟨hbusy,-⟩ | ⟨-,hnone⟩ := w.createFile_cases
  · rw [hok] at he
    cases he
  · rw [hbusy] at he
    cases he
    rfl
  · exact absurd hopen hnone

end EchoWorld

namespace EchoServer
open PipeServer
variable {threads : ℕ} {output : Dword → Dword} {o : Overload} {endpoint : String}
variable {s t : EchoServer} {l : Act}

/-- The handler has made a session, and not yet the next instance. -/
def Between (s : EchoServer) : Prop := ∃ c ∈ s.nextCall, c.BeforeCreate ∨ c.Creates

/-- The step ends the last reference to the session of an instance: it runs the handler of
a failed read or write, or it ends `make_shared`'s temporary after that handler has run. -/
def LetsGo (s : EchoServer) (l : Act) (i : ℕ) : Prop :=
  ∃ x, s.world.instances[i]? = some x ∧
    (l = .pipe i .runHandler ∧ x.Ending ∨
      l = .accept ∧ .dropSession ∈ s.nextCall ∧ s.world.starting = some i ∧
        ∃ r, x.session = some r ∧ r.op.holds = false)

/-- The condition on a step: where the next instance is still to be made, a session is let
go for good only beside another open instance. -/
def Guarded (s : EchoServer) (l : Act) : Prop :=
  s.Between → ∀ i, s.LetsGo l i → ∃ j, j ≠ i ∧ s.world.OpenAt j

/-- From the first CreateNamedPipe on, the endpoint exists. -/
def EndpointKept (s : EchoServer) : Prop := s.world.instances ≠ [] → s.world.EndpointExists

/-- How far the loop is between the instance of one accept and that of the next. -/
inductive Phase (s : EchoServer) : Prop
  | first (hempty : s.world.instances = []) (hp : s.program.Creating)
  | covered (i : ℕ) (hspare : s.world.Spare i) (hsocket : s.world.socket ≠ some i)
    (hp : s.program.All LoopCall.Harmless)
  | retry (i : ℕ) (hspare : s.world.Spare i) (hp : s.program.Creating)
  | ready (i : ℕ) (hspare : s.world.Spare i) {next : Unit → LoopProgram (Except Thrown Unit)}
    (hprogram : s.program = .call .makeSession next) (hp : ∀ r, (next r).Creating)
  | between (i : ℕ) (hopen : s.world.OpenAt i) (hp : s.program.Creating)

theorem Phase.endpointKept (h : s.Phase) : s.EndpointKept := by
  intro hne
  refine EchoWorld.endpointExists_iff.mpr ?_
  cases h with
  | first hempty => exact absurd hempty hne
  | covered i hspare | retry i hspare | ready i hspare => exact ⟨i,hspare.openAt⟩
  | between i hopen => exact ⟨i,hopen⟩

/-- The steps at an instance leave a spare one alone. -/
lemma spare_pipe {i j : ℕ} {k : PipeStep} {xs : List PipeInstance} {w : EchoWorld} (h : w.Spare i)
    (hxs : stepAt w.instances j (PipeInstance.step k) = some xs) :
    EchoWorld.Spare { w with instances := xs } i := by
  obtain ⟨x,hx,hclosed,hs⟩ := h
  by_cases hji : j = i
  · subst hji
    obtain ⟨y,hy,hys⟩ := getElem?_stepAt_self hx hxs
    refine ⟨y,hys,?_,?_⟩
    · rw [← Bool.not_eq_true,PipeInstance.closed_step hy,hclosed]
      rintro (hc | ⟨-,r,hr,-⟩)
      · cases hc
      · rw [hs] at hr
        cases hr
    · have hop := PipeInstance.op_eq_of_step (Or.inl rfl) (by simp [hs]) hy
      exact Option.map_eq_none_iff.mp hop
  · exact ⟨x,(getElem?_stepAt_of_ne hji hxs).trans hx,hclosed,hs⟩

lemma creating_call {c : LoopCall} {next : c.Answer → LoopProgram (Except Thrown Unit)}
    (h : LoopProgram.Creating (.call c next)) :
    (∃ endpoint settings, c = .server (.createNamedPipe endpoint settings) ∧
      ∀ r, (next r).All LoopCall.Harmless) ∨
    c.BeforeCreate ∧ ∀ r, (next r).Creating := by
  obtain ⟨hc,hnext⟩ | h := h
  · cases c with
    | server c =>
      cases c with
      | createNamedPipe endpoint settings => exact Or.inl ⟨endpoint,settings,rfl,hnext⟩
      | _ => exact hc.elim
    | _ => exact hc.elim
  · exact Or.inr h

lemma between_of_creating {w : EchoWorld} {c : LoopCall}
    {next : c.Answer → LoopProgram (Except Thrown Unit)}
    (h : LoopProgram.Creating (.call c next)) : Between ⟨w,.call c next⟩ := by
  refine ⟨c,rfl,?_⟩
  obtain ⟨endpoint,settings,rfl,-⟩ | ⟨hc,-⟩ := creating_call h
  · exact Or.inr trivial
  · exact Or.inl hc

lemma perform_empty {w : EchoWorld} (hempty : w.instances = []) {c : LoopCall}
    (hc : c.BeforeCreate) : (w.perform output o c).2.instances = [] := by
  have hmodify : ∀ (j : Option ℕ) f, (w.modifyAt j f).instances = [] := by
    intro j f
    cases j <;> simp [EchoWorld.modifyAt,hempty]
  cases c with
  | server c =>
    cases c with
    | overlappedPtr => exact hempty
    | _ => exact hc.elim
  | makeSession | dropSocket => exact hc.elim
  | startSession | dropSession => exact hmodify _ _

lemma perform_socket {w : EchoWorld} {c : LoopCall} (hc : c.Harmless) {i : ℕ}
    (h : (w.perform output o c).2.socket = some i) : w.socket = some i := by
  cases c with
  | server c =>
    cases c with
    | assign hPipe =>
      simp only [EchoWorld.perform,EchoWorld.performServer] at h
      split at h <;> exact h
    | _ => exact h
  | makeSession | startSession | dropSession => exact hc.elim
  | dropSocket => cases h

/-- The instance that CreateNamedPipe makes covers the endpoint. -/
lemma phase_created {w : EchoWorld} {known : Known} (hown : w.Owned known) {endpoint : String}
    {settings : PipeSettings} {p : LoopProgram (Except Thrown Unit)}
    (hp : p.All LoopCall.Harmless) (output : Dword → Dword) :
    Phase ⟨(w.performServer output (.createNamedPipe endpoint settings)).2,p⟩ := by
  refine .covered w.instances.length (EchoWorld.spare_created endpoint settings output) ?_ hp
  intro hs
  exact Nat.lt_irrefl _ (hown.socket _ hs).1.lt

theorem Phase.accept {w : EchoWorld} {c : LoopCall}
    {next : c.Answer → LoopProgram (Except Thrown Unit)} (h : Phase ⟨w,.call c next⟩)
    {known : Known} (hown : w.Owned known) (hguard : Guarded ⟨w,.call c next⟩ .accept) :
    Phase ⟨(w.perform output o c).2,next (w.perform output o c).1⟩ := by
  cases h with
  | first hempty hp =>
    obtain ⟨endpoint,settings,rfl,hnext⟩ | ⟨hc,hnext⟩ := creating_call hp
    · exact phase_created hown (hnext _) output
    · exact .first (perform_empty hempty hc) (hnext _)
  | covered i hspare hsocket hp =>
    have hmake : c ≠ .makeSession := by
      rintro rfl
      exact hp.1
    exact .covered i (EchoWorld.spare_perform hspare hmake (fun _ => hsocket) output o)
      (fun hs => hsocket (perform_socket hp.1 hs)) (hp.2 _)
  | retry i hspare hp =>
    obtain ⟨endpoint,settings,rfl,hnext⟩ | ⟨hc,hnext⟩ := creating_call hp
    · exact phase_created hown (hnext _) output
    · refine .retry i (EchoWorld.spare_perform hspare ?_ ?_ output o) (hnext _)
      · rintro rfl
        exact hc
      · rintro rfl
        exact hc.elim
  | ready i hspare hprogram hp =>
    cases hprogram
    exact .between i (EchoWorld.openAt_makeSession hspare.openAt o) (hp _)
  | between i hopen hp =>
    have hbetween : Between ⟨w,.call c next⟩ := between_of_creating hp
    obtain ⟨endpoint,settings,rfl,hnext⟩ | ⟨hc,hnext⟩ := creating_call hp
    · exact phase_created hown (hnext _) output
    by_cases hlast : ∃ j, LetsGo ⟨w,.call c next⟩ .accept j
    · obtain ⟨j,hj⟩ := hlast
      obtain ⟨k,hkj,hk⟩ := hguard hbetween j hj
      obtain ⟨x,hx,⟨hrun,-⟩ | ⟨-,-,hstarting,-⟩⟩ := hj
      · cases hrun
      refine .between k (EchoWorld.openAt_beforeCreate hk hc (fun _ hstart => ?_) output o) (hnext _)
      exact absurd (Option.some.inj (hstart.symm.trans hstarting)) hkj
    · refine .between i (EchoWorld.openAt_beforeCreate hopen hc ?_ output o) (hnext _)
      rintro rfl hstarting x r hx hr
      by_contra hheld
      exact hlast ⟨i,x,hx,Or.inr ⟨rfl,rfl,hstarting,r,hr,Bool.eq_false_iff.mpr hheld⟩⟩

/-- The OVERLAPPED and the thread's last error play no part. -/
lemma Phase.congr {w u : EchoWorld} {p : LoopProgram (Except Thrown Unit)} (h : Phase ⟨w,p⟩)
    (hi : u.instances = w.instances) (hs : u.socket = w.socket) : Phase ⟨u,p⟩ := by
  have hspare : ∀ i, w.Spare i → u.Spare i := by
    intro i
    rw [EchoWorld.Spare,EchoWorld.Spare,hi]
    exact id
  cases h with
  | first hempty hp => exact .first (hi.trans hempty) hp
  | covered i hi hsocket hp => exact .covered i (hspare i hi) (hs ▸ hsocket) hp
  | retry i hi hp => exact .retry i (hspare i hi) hp
  | ready i hi hprogram hp => exact .ready i (hspare i hi) hprogram hp
  | between i hopen hp =>
    refine .between i ?_ hp
    rw [EchoWorld.OpenAt,hi]
    exact hopen

lemma openAt_pipe {w : EchoWorld} {xs : List PipeInstance} {i j : ℕ} {k : PipeStep}
    (h : w.OpenAt i) (hxs : stepAt w.instances j (PipeInstance.step k) = some xs)
    (hlast : j = i → k = .runHandler → ∀ x, w.instances[i]? = some x → ¬x.Ending) :
    EchoWorld.OpenAt { w with instances := xs } i := by
  obtain ⟨x,hx,hclosed⟩ := h
  by_cases hji : j = i
  · subst hji
    obtain ⟨y,hy,hys⟩ := getElem?_stepAt_self hx hxs
    refine ⟨y,hys,?_⟩
    rw [← Bool.not_eq_true,PipeInstance.closed_step hy,hclosed]
    rintro (hc | ⟨hk,hend⟩)
    · cases hc
    · exact hlast rfl hk x hx hend
  · exact ⟨x,(getElem?_stepAt_of_ne hji hxs).trans hx,hclosed⟩

theorem Phase.pipe {w : EchoWorld} {p : LoopProgram (Except Thrown Unit)} (h : Phase ⟨w,p⟩)
    {j : ℕ} {k : PipeStep} (hguard : Guarded ⟨w,p⟩ (.pipe j k)) {xs : List PipeInstance}
    (hxs : stepAt w.instances j (PipeInstance.step k) = some xs) :
    Phase ⟨{ w with instances := xs },p⟩ := by
  cases h with
  | first hempty hp =>
    obtain ⟨x,-,hx,-,-⟩ := stepAt_eq_some.mp hxs
    rw [show w.instances = [] from hempty] at hx
    cases hx
  | covered i hspare hsocket hp => exact .covered i (spare_pipe hspare hxs) hsocket hp
  | retry i hspare hp => exact .retry i (spare_pipe hspare hxs) hp
  | ready i hspare hprogram hp => exact .ready i (spare_pipe hspare hxs) hprogram hp
  | between i hopen hp =>
    cases p with
    | done a => exact hp.elim
    | call c next =>
      by_cases hlast : LetsGo ⟨w,.call c next⟩ (.pipe j k) j
      · obtain ⟨m,hmj,hm⟩ := hguard (between_of_creating hp) j hlast
        exact .between m (openAt_pipe hm hxs fun hjm => absurd hjm.symm hmj) hp
      · refine .between i (openAt_pipe hopen hxs ?_) hp
        rintro rfl rfl x hx hend
        exact hlast ⟨x,hx,Or.inl ⟨rfl,hend⟩⟩

/-- The instance of the accept that is delivered is spare until the handler makes its session. -/
theorem Phase.deliver {w u : EchoWorld} {a : Except Thrown Unit} (h : Phase ⟨w,.done a⟩)
    (hu : u.instances = w.instances) (o : Overload) (endpoint : String) (ec : ErrorCode) :
    Phase ⟨u,acceptHandler o endpoint ec⟩ := by
  cases h with
  | first _ hp | retry _ _ hp | between _ _ hp => exact hp.elim
  | ready _ _ hprogram => cases hprogram
  | covered i hspare =>
    have hspare : u.Spare i := by
      rw [EchoWorld.Spare,hu]
      exact hspare
    obtain hp | ⟨next,hprogram,hp⟩ := acceptHandler_cases o endpoint ec
    · exact .retry i hspare hp
    · exact .ready i hspare hprogram hp

structure Looping (s : EchoServer) : Prop where
  tidy : s.Tidy
  phase : s.Phase

theorem start_looping : (start o endpoint).Looping :=
  ⟨start_tidy,.first rfl (doAccept_creating o endpoint)⟩

theorem Looping.step (h : s.Looping) (hl : s.Guarded l)
    (hstep : (machine threads output o endpoint).step s l = some t) : t.Looping := by
  refine ⟨step_tidy s l t h.tidy hstep,?_⟩
  obtain ⟨w,p⟩ := s
  obtain ⟨known,hown,-⟩ := h.tidy
  cases step_cases hstep with
  | accept hp =>
    cases hp
    exact h.phase.accept hown hl
  | @deliver a d hp =>
    cases hp
    exact h.phase.deliver (EchoWorld.handPipe_instances { w with ov := d.2 } o) o endpoint d.1.ec
  | @pipe i k xs _ hxs =>
    exact (h.phase.pipe hl hxs).congr (EchoWorld.afterStep_instances _ i k) (EchoWorld.afterStep_socket _ i k)

lemma not_endpointKept_of_closed {i : ℕ} {y : PipeInstance} (hy : t.world.instances[i]? = some y)
    (hclosed : y.closed = true) (hothers : ∀ j, j ≠ i → ¬t.world.OpenAt j) : ¬t.EndpointKept := by
  intro hkept
  have hne : t.world.instances ≠ [] := fun hnil => by simp [hnil] at hy
  obtain ⟨j,hj⟩ := (hkept hne).isOpen
  by_cases hji : j = i
  · subst hji
    obtain ⟨x,hx,hopen⟩ := hj
    cases hx.symm.trans hy
    rw [hclosed] at hopen
    cases hopen
  · exact hothers j hji hj

/-- A session that is let go where no other instance is open takes the endpoint with it. -/
lemma not_endpointKept (hl : ¬s.Guarded l)
    (hstep : (machine threads output o endpoint).step s l = some t) : ¬t.EndpointKept := by
  simp only [Guarded,not_forall,not_exists,not_and] at hl
  obtain ⟨-,i,⟨x,hx,hgo⟩,hothers⟩ := hl
  obtain ⟨w,p⟩ := s
  obtain ⟨rfl,hend⟩ | ⟨rfl,hnext,hstarting,hfree⟩ := hgo
  · cases step_cases hstep with | pipe _ hxs
    obtain ⟨y,hy,hys⟩ := getElem?_stepAt_self hx hxs
    refine not_endpointKept_of_closed (i := i) (by rw [EchoWorld.afterStep_instances]; exact hys)
      ((PipeInstance.closed_step hy).mpr (Or.inr ⟨rfl,hend⟩)) fun j hji => ?_
    rintro ⟨z,hz,hopen⟩
    rw [EchoWorld.afterStep_instances] at hz
    exact hothers j hji ⟨z,(getElem?_stepAt_of_ne hji.symm hxs).symm.trans hz,hopen⟩
  · cases p with
    | done a => cases hnext
    | call c next =>
      obtain rfl : c = .dropSession := Option.some.inj hnext
      cases hstep
      have hinstances : ∀ j, (w.modifyAt w.starting .dropSession).instances[j]? =
          if i = j then w.instances[j]?.map .dropSession else w.instances[j]? := by
        intro j
        rw [EchoWorld.getElem?_modifyAt]
        simp only [show w.starting = some i from hstarting,Option.some.injEq]
      refine not_endpointKept_of_closed (i := i) (y := x.dropSession) ?_
        (PipeInstance.closed_dropSession.mpr (Or.inr hfree)) fun j hji => ?_
      · refine (hinstances i).trans ?_
        rw [if_pos rfl,show w.instances[i]? = some x from hx]
        rfl
      · rintro ⟨z,hz,hopen⟩
        refine hothers j hji ⟨z,?_,hopen⟩
        rw [← hz]
        exact ((hinstances j).trans (if_neg hji.symm)).symm

/-- The endpoint is there throughout a run if and only if no session is let go in it for
good, between the session of one accept and the instance of the next, when no other
instance is open. -/
theorem endpointKept_iff {ls : List Act}
    (h : (machine threads output o endpoint).run (start o endpoint) ls = some t) :
    (machine threads output o endpoint).Throughout EndpointKept (start o endpoint) ls ↔
      (machine threads output o endpoint).Along Guarded (start o endpoint) ls :=
  Machine.throughout_iff_along (fun _ hs => hs.phase.endpointKept)
    (fun _ _ _ hs hl hstep => hs.step hl hstep)
    (fun _ _ _ _ hl hstep => not_endpointKept hl hstep) h start_looping

/-- The operation of the session is with the system, or its handler has not run. -/
def HeldAt (w : EchoWorld) (i : ℕ) : Prop :=
  ∃ x, w.instances[i]? = some x ∧ ∃ r, x.session = some r ∧ r.op.holds = true

lemma heldAt_pipe {w : EchoWorld} {xs : List PipeInstance} {i j : ℕ} {k : PipeStep}
    (h : HeldAt w i) (hk : k ≠ .runHandler)
    (hxs : stepAt w.instances j (PipeInstance.step k) = some xs) :
    HeldAt { w with instances := xs } i := by
  obtain ⟨x,hx,r,hr,hheld⟩ := h
  by_cases hji : j = i
  · subst hji
    obtain ⟨y,hy,hys⟩ := getElem?_stepAt_self hx hxs
    refine ⟨y,hys,?_⟩
    cases PipeInstance.step_cases hy with
    | client => exact ⟨r,hr,hheld⟩
    | readEnds _ _ hy =>
      obtain ⟨b,-,rfl⟩ := Option.map_eq_some_iff.mp hy
      exact ⟨_,rfl,rfl⟩
    | writes =>
      refine ⟨_,rfl,?_⟩
      simp only
      split_ifs <;> rfl
    | readFails | writeFails => exact ⟨_,rfl,rfl⟩
    | runHandler => exact absurd rfl hk
  · exact ⟨x,(getElem?_stepAt_of_ne hji hxs).trans hx,r,hr,hheld⟩

/-- What the handler of an accept has started is held, when no other thread runs handlers. -/
def Solo (s : EchoServer) : Prop :=
  ∃ known, s.world.Owned known ∧ s.program.Careful known ∧
    (known.started = true → ∀ i, s.world.starting = some i → HeldAt s.world i)

lemma heldAt_perform {w : EchoWorld} {known : Known} (hown : w.Owned known) {c : LoopCall}
    (hc : c.May known) (h : known.started = true → ∀ i, w.starting = some i → HeldAt w i)
    (hstarted : (c.learn known (w.perform output o c).1).started = true) {i : ℕ}
    (hi : (w.perform output o c).2.starting = some i) : HeldAt (w.perform output o c).2 i := by
  cases c with
  | server c =>
    cases c with
    | createNamedPipe endpoint settings =>
      obtain ⟨x,hx,hr⟩ := h hstarted i hi
      exact ⟨x,(List.getElem?_append_left (List.getElem?_eq_some_iff.mp hx).1).trans hx,hr⟩
    | assign hPipe =>
      simp only [EchoWorld.perform,EchoWorld.performServer] at hi ⊢
      split at hi <;> exact h hstarted i hi
    | connectNamedPipe | getLastError | print | overlappedPtr | complete | release | selfComplete =>
      exact h hstarted i hi
  | makeSession | dropSession => cases hstarted
  | startSession =>
    have hstarting : w.starting = some i := (w.modifyAt_starting _ _).symm.trans hi
    obtain ⟨x,hx,hop⟩ := hown.made hc i hstarting
    obtain ⟨r,hr,-⟩ := Option.map_eq_some_iff.mp hop
    refine ⟨x.startSession,?_,r.start,by rw [PipeInstance.startSession,hr]; rfl,rfl⟩
    exact (EchoWorld.getElem?_modifyAt _ _ _ _).trans (by rw [if_pos hstarting,hx]; rfl)
  | dropSocket =>
    obtain ⟨x,hx,hr⟩ := h hstarted i ((w.modifyAt_starting _ _).symm.trans hi)
    by_cases hsocket : w.socket = some i
    · exact ⟨x.close,(w.getElem?_modifyAt _ _ _).trans (by rw [if_pos hsocket,hx]; rfl),hr⟩
    · exact ⟨x,(w.getElem?_modifyAt _ _ _).trans (by rw [if_neg hsocket,hx]),hr⟩

lemma busy_of_between (h : s.Between) : s.busy = 1 := by
  obtain ⟨c,hc,-⟩ := h
  obtain ⟨w,p⟩ := s
  cases p with
  | done a => cases hc
  | call c next => rfl

lemma Solo.guarded (h : s.Solo) (hthreads : threads ≤ 1)
    (hstep : (machine threads output o endpoint).step s l = some t) : s.Guarded l := by
  obtain ⟨w,p⟩ := s
  obtain ⟨known,hown,hcareful,hheld⟩ := h
  rintro hbetween i ⟨x,hx,⟨rfl,-⟩ | ⟨rfl,hnext,hstarting,r,hr,hfree⟩⟩
  · cases step_cases hstep with | pipe hthread
    have hlt := hthread rfl
    rw [busy_of_between hbetween] at hlt
    omega
  · cases p with
    | done a => cases hnext
    | call c next =>
      obtain rfl : c = .dropSession := Option.some.inj hnext
      obtain ⟨x',hx',r',hr',hholds⟩ := hheld hcareful.1 i hstarting
      cases hx.symm.trans hx'
      cases hr.symm.trans hr'
      rw [hholds] at hfree
      cases hfree

lemma Solo.step (h : s.Solo) (hthreads : threads ≤ 1)
    (hstep : (machine threads output o endpoint).step s l = some t) : t.Solo := by
  obtain ⟨w,p⟩ := s
  obtain ⟨known,hown,hcareful,hheld⟩ := h
  cases step_cases hstep with
  | accept hp =>
    cases hp
    refine ⟨_,hown.perform hcareful.1 output o,hcareful.2 _,fun hstarted i hi => ?_⟩
    exact heldAt_perform hown hcareful.1 hheld hstarted hi
  | deliver => exact ⟨{},hown.deliver _ o,acceptHandler_careful o endpoint _,by simp⟩
  | @pipe j k xs hthread hxs =>
    refine ⟨known,hown.pipe_step hxs,hcareful,fun hstarted i hi => ?_⟩
    rw [EchoWorld.afterStep_starting] at hi
    have hk : k ≠ .runHandler := by
      intro hk
      have hlt := hthread hk
      cases p with
      | done a =>
        rw [show known.started = false from hcareful] at hstarted
        cases hstarted
      | call c next =>
        simp only [busy] at hlt
        omega
    obtain ⟨x,hx,hr⟩ := heldAt_pipe (hheld hstarted i hi) hk hxs
    exact ⟨x,(congrArg (·[i]?) (EchoWorld.afterStep_instances _ j k)).trans hx,hr⟩

/-- With one thread, as the examples run it, the endpoint never vanishes. -/
theorem endpointKept_of_one_thread {ls : List Act} (hthreads : threads ≤ 1)
    (h : (machine threads output o endpoint).run (start o endpoint) ls = some t) :
    (machine threads output o endpoint).Throughout EndpointKept (start o endpoint) ls := by
  have hsolo : ∀ s l t, Solo s → True → (machine threads output o endpoint).step s l = some t →
      Solo t ∧ s.Guarded l :=
    fun s l t hs _ hstep => ⟨hs.step hthreads hstep,hs.guarded hthreads hstep⟩
  have hstart : Solo (start o endpoint) := by
    obtain ⟨known,hown,hcareful⟩ := (start_tidy : (start o endpoint).Tidy)
    exact ⟨known,hown,hcareful,by simp [start]⟩
  refine (endpointKept_iff h).mpr (Machine.along_of_run hsolo h hstart ?_)
  exact (Machine.along_label_iff h).mpr fun _ _ => trivial

/-- A client connects to the first instance, and the handler of its accept starts a session. -/
def firstClient (rest : List Act) : List Act :=
  List.replicate 6 .accept ++ [.pipe 0 .clientConnects,.deliver,.accept,.accept] ++ rest

/-- The handler goes on to the next instance, and the client leaves after that. -/
theorem endpointKept_next : ∃ t, (machine 2 id .byMove "").run (start .byMove "")
      (firstClient (List.replicate 3 .accept ++
        [.pipe 0 .clientDisconnects,.pipe 0 (.fails 109),.pipe 0 .runHandler])) = some t ∧
    ((machine 2 id .byMove "").Throughout EndpointKept (start .byMove "")
        (firstClient (List.replicate 3 .accept ++
          [.pipe 0 .clientDisconnects,.pipe 0 (.fails 109),.pipe 0 .runHandler])) ↔
      (machine 2 id .byMove "").Along Guarded (start .byMove "")
        (firstClient (List.replicate 3 .accept ++
          [.pipe 0 .clientDisconnects,.pipe 0 (.fails 109),.pipe 0 .runHandler]))) := by
  obtain ⟨t,ht⟩ := Option.isSome_iff_exists.mp (show ((machine 2 id .byMove "").run
    (start .byMove "") (firstClient (List.replicate 3 .accept ++ [.pipe 0 .clientDisconnects,
      .pipe 0 (.fails 109),.pipe 0 .runHandler]))).isSome by decide +kernel)
  exact ⟨t,ht,endpointKept_iff ht⟩

/-- The client leaves as soon as its session is started, and the other thread runs the
handler of the failed read before the accept handler makes the next instance. -/
theorem endpoint_vanishes : ¬∀ (threads : ℕ) (output : Dword → Dword) (o : Overload)
    (endpoint : String) (ls : List Act) (t : EchoServer),
    (machine threads output o endpoint).run (start o endpoint) ls = some t →
      (machine threads output o endpoint).Throughout EndpointKept (start o endpoint) ls := by
  intro h
  have hrun : ((machine 2 id .byMove "").run (start .byMove "")
      (firstClient [.pipe 0 .clientDisconnects,.pipe 0 (.fails 109),.accept,
        .pipe 0 .runHandler])).map (fun t => t.world.instances.map PipeInstance.closed) =
      some [true] := by decide +kernel
  obtain ⟨t,ht,hclosed⟩ := Option.map_eq_some_iff.mp hrun
  have hkept := h 2 id .byMove "" _ t ht _ t (List.prefix_refl _) ht
  have hne : t.world.instances ≠ [] := fun hnil => by simp [hnil] at hclosed
  obtain ⟨i,x,hx,hopen⟩ := (hkept hne).isOpen
  have hmem := List.mem_map_of_mem (f := PipeInstance.closed) (List.mem_of_getElem? hx)
  rw [hclosed,hopen,List.mem_singleton] at hmem
  cases hmem

end EchoServer
end Winext
