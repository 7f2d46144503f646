import Winext.NamedPipe.EchoServer

/-! No instance is given a second session, and no session is started twice: what the accept
loop holds is an instance without a session, because `assign` is only called with a handle
that was just made, and what it starts is the session that it has just made. -/
namespace Winext
open Lib Details

/-- `assign` is given a handle that CreateNamedPipe has returned, or the null handle. -/
def Details.ServerCall.May (known : List Handle) : ServerCall → Prop
  | .assign h => h = .null ∨ h ∈ known
  | _ => True

def Details.ServerCall.learn (known : List Handle) : (c : ServerCall) → c.Answer → List Handle
  | .createNamedPipe _ _, h => h::known
  | _, _ => known

theorem acceptDetail2_within (endpoint : String) (ec : ErrorCode) (known : List Handle) :
    (acceptDetail2 .null endpoint ec).Within ServerCall.May ServerCall.learn
      (fun known r => r.1 = .null ∨ r.1 ∈ known) known := by
  simp only [acceptDetail2,Program.ask_bind,Program.pure_eq]
  refine ⟨trivial,fun hPipe => ?_⟩
  have hknown : hPipe = .null ∨ hPipe ∈ hPipe::known := Or.inr List.mem_cons_self
  beta_reduce
  split_ifs
  · exact ⟨trivial,fun _ => ⟨trivial,fun _ => ⟨trivial,fun _ => Or.inl rfl⟩⟩⟩
  refine ⟨trivial,fun fConnected => ?_⟩
  beta_reduce
  split_ifs
  · exact ⟨trivial,fun _ => ⟨trivial,fun _ => ⟨trivial,fun _ => hknown⟩⟩⟩
  refine ⟨trivial,fun reason => ?_⟩
  beta_reduce
  split_ifs
  · exact hknown
  · exact ⟨trivial,fun _ => ⟨trivial,fun _ => hknown⟩⟩
  · exact ⟨trivial,fun _ => ⟨trivial,fun _ => ⟨trivial,fun _ => hknown⟩⟩⟩

theorem handOver_within {h : Handle} {known : List Handle} (hh : h = .null ∨ h ∈ known)
    (ec : ErrorCode) :
    (handOver h ec).Within ServerCall.May ServerCall.learn (fun _ _ => True) known := by
  simp only [handOver,Program.ask_bind,Program.pure_eq]
  split_ifs
  · refine ⟨hh,fun assigned => ?_⟩
    cases assigned with
    | error thrown => exact trivial
    | ok _ => exact ⟨trivial,fun _ => trivial⟩
  · exact ⟨trivial,fun _ => ⟨trivial,fun _ => trivial⟩⟩
  · refine ⟨hh,fun assigned => ?_⟩
    cases assigned with
    | error thrown => exact trivial
    | ok _ => exact ⟨trivial,fun _ => trivial⟩

theorem asyncAccept_within (o : Overload) (endpoint : String) (known : List Handle) :
    (o.asyncAccept endpoint).Within ServerCall.May ServerCall.learn (fun _ _ => True) known := by
  rw [o.asyncAccept_eq,acceptOperator,if_neg (by decide),Program.ask_bind]
  refine ⟨trivial,fun _ => Program.Within.bind ?_⟩
  exact (acceptDetail2_within endpoint {} known).mono fun _ r hr => handOver_within hr r.2

/-- What a handler has learnt: the handles made, and whether it holds a session that it has
made and not started, or has started. -/
structure Known where
  handles : List Handle := []
  made : Bool := false
  started : Bool := false

/-- A session is made before the handler knows any handle, and is started once. -/
def LoopCall.May (known : Known) : LoopCall → Prop
  | .server c => c.May known.handles
  | .makeSession => known.handles = []
  | .startSession => known.made = true
  | .dropSession => known.started = true
  | _ => True

def LoopCall.learn (known : Known) : (c : LoopCall) → c.Answer → Known
  | .server c, r => { known with handles := c.learn known.handles r }
  | .makeSession, _ => { known with made := true, started := false }
  | .startSession, _ => { known with made := false, started := true }
  | .dropSession, _ => { known with started := false }
  | .dropSocket, _ => known

/-- The program makes only the calls it may, and holds no session in the end. -/
def LoopProgram.Careful {α : Type} (known : Known) (p : LoopProgram α) : Prop :=
  p.Within LoopCall.May LoopCall.learn (fun known _ => known.started = false) known

theorem LoopProgram.ofServer_careful {α : Type} {p : ServerProgram α} {known : Known}
    (h : p.Within ServerCall.May ServerCall.learn (fun _ _ => True) known.handles)
    (hstarted : known.started = false) : Careful known (ofServer p) := by
  induction p generalizing known with
  | done a => exact hstarted
  | call c next ih => exact ⟨h.1,fun r => ih r (h.2 r) hstarted⟩

theorem doAccept_careful (o : Overload) (endpoint : String) :
    LoopProgram.Careful {} (doAccept o endpoint) :=
  LoopProgram.ofServer_careful (asyncAccept_within o endpoint []) rfl

theorem acceptHandler_careful (o : Overload) (endpoint : String) (ec : ErrorCode) :
    LoopProgram.Careful {} (acceptHandler o endpoint ec) := by
  have hnext : LoopProgram.Careful {} (do
      let started ← doAccept o endpoint
      if o = .byMove then
        Program.ask LoopCall.dropSocket
      return started) := by
    refine Program.Within.bind ((doAccept_careful o endpoint).mono fun known started hstarted => ?_)
    cases o with
    | intoPipe => exact hstarted
    | byMove => exact ⟨trivial,fun _ => hstarted⟩
  cases hec : ec.failed with
  | true =>
    simp only [acceptHandler,hec]
    exact hnext
  | false =>
    simp only [acceptHandler,hec]
    exact ⟨rfl,fun _ => ⟨rfl,fun _ => ⟨rfl,fun _ => hnext⟩⟩⟩

/-- The instance exists, and its session, if there is one, is at this operation. -/
def AtStage (op : Option SessionOp) (xs : List PipeInstance) (i : ℕ) : Prop :=
  ∃ x, xs[i]? = some x ∧ x.session.map Session.op = op

/-- A session that has not been started takes no step. -/
lemma PipeInstance.op_eq_of_step {x y : PipeInstance} {l : PipeStep} {op : Option SessionOp}
    (hquiet : op = none ∨ op = some .idle) (hx : x.session.map Session.op = op)
    (h : step l x = some y) : y.session.map Session.op = op := by
  have hop : ∀ s, x.session = some s → s.op = .idle := by
    intro s hs
    rw [hs,Option.map_some] at hx
    obtain rfl | rfl := hquiet
    · cases hx
    · exact Option.some.inj hx
  cases step_cases h with
  | client => exact hx
  | readEnds hs ho | writes hs ho | readFails hs ho | writeFails _ hs ho => cases (hop _ hs).symm.trans ho
  | runHandler hs ht => simp [Session.handler,hop _ hs] at ht

section Stage
variable {xs ys : List PipeInstance} {i : ℕ} {op : Option SessionOp}

lemma AtStage.append (h : AtStage op xs i) (ys : List PipeInstance) : AtStage op (xs ++ ys) i := by
  obtain ⟨x,hx,hs⟩ := h
  exact ⟨x,by rw [List.getElem?_append_left (List.getElem?_eq_some_iff.mp hx).1,hx],hs⟩

lemma AtStage.lt (h : AtStage op xs i) : i < xs.length := by
  obtain ⟨x,hx,-⟩ := h
  exact (List.getElem?_eq_some_iff.mp hx).1

lemma AtStage.op_eq {x : PipeInstance} (h : AtStage op xs i) (hx : xs[i]? = some x) :
    x.session.map Session.op = op := by
  obtain ⟨x',hx',hs⟩ := h
  cases hx.symm.trans hx'
  exact hs

lemma AtStage.stepAt {j : ℕ} {l : PipeStep} (h : AtStage op xs i)
    (hquiet : op = none ∨ op = some .idle)
    (hstep : Lib.stepAt xs j (PipeInstance.step l) = some ys) : AtStage op ys i := by
  obtain ⟨x,hx,hs⟩ := h
  by_cases hji : j = i
  · subst hji
    obtain ⟨y,hy,hys⟩ := getElem?_stepAt_self hx hstep
    exact ⟨y,hys,PipeInstance.op_eq_of_step hquiet hs hy⟩
  · exact ⟨x,(getElem?_stepAt_of_ne hji hstep).trans hx,hs⟩

end Stage

namespace EchoWorld
variable {w u : EchoWorld} {known : Known}

@[simp] lemma modifyAt_pipe (w : EchoWorld) (i : Option ℕ) (f : PipeInstance → PipeInstance) :
    (w.modifyAt i f).pipe = w.pipe := by cases i <;> rfl

@[simp] lemma modifyAt_socket (w : EchoWorld) (i : Option ℕ) (f : PipeInstance → PipeInstance) :
    (w.modifyAt i f).socket = w.socket := by cases i <;> rfl

@[simp] lemma modifyAt_starting (w : EchoWorld) (i : Option ℕ) (f : PipeInstance → PipeInstance) :
    (w.modifyAt i f).starting = w.starting := by cases i <;> rfl

lemma getElem?_modifyAt (w : EchoWorld) (j : Option ℕ) (f : PipeInstance → PipeInstance) (i : ℕ) :
    (w.modifyAt j f).instances[i]? =
      if j = some i then w.instances[i]?.map f else w.instances[i]? := by
  cases j with
  | none => rfl
  | some j =>
    by_cases hji : j = i
    · simp [modifyAt,hji]
    · simp [modifyAt,hji]

lemma atStage_modifyAt {i : ℕ} {j : Option ℕ} {op : Option SessionOp}
    {f : PipeInstance → PipeInstance} (h : AtStage op w.instances i)
    (hf : j = some i → ∀ x, x.session.map Session.op = op → (f x).session.map Session.op = op) :
    AtStage op (w.modifyAt j f).instances i := by
  obtain ⟨x,hx,hs⟩ := h
  by_cases hji : j = some i
  · exact ⟨f x,by rw [getElem?_modifyAt,if_pos hji,hx]; rfl,hf hji x hs⟩
  · exact ⟨x,by rw [getElem?_modifyAt,if_neg hji,hx],hs⟩

/-- What the loop holds, and the handles its handler knows, are different instances without
a session. A session that was made and not started is idle. -/
structure Owned (known : Known) (w : EchoWorld) : Prop where
  pipe : ∀ i, w.pipe = some i → AtStage none w.instances i
  socket : ∀ i, w.socket = some i → AtStage none w.instances i ∧ w.pipe ≠ some i
  handles : ∀ i, .pipe i ∈ known.handles → AtStage none w.instances i ∧ w.socket ≠ some i
  made : known.made = true → ∀ i, w.starting = some i → AtStage (some .idle) w.instances i

lemma owned_start : EchoWorld.Owned {} {} := ⟨by simp,by simp,by simp,by simp⟩

lemma Owned.mono (h : w.Owned known) (hpipe : u.pipe = w.pipe)
    (hsocket : ∀ i, u.socket = some i → w.socket = some i)
    (hstarting : ∀ i, u.starting = some i → w.starting = some i)
    (hstage : ∀ op i, op = none ∨ known.made = true ∧ op = some .idle →
      AtStage op w.instances i → AtStage op u.instances i) : u.Owned known := by
  have hnone : ∀ i, AtStage none w.instances i → AtStage none u.instances i :=
    fun i => hstage none i (Or.inl rfl)
  refine ⟨fun i hi => hnone i (h.pipe i (hpipe ▸ hi)),fun i hi => ?_,fun i hi => ?_,fun hk i hi => ?_⟩
  · obtain ⟨hstart,hne⟩ := h.socket i (hsocket i hi)
    exact ⟨hnone i hstart,hpipe ▸ hne⟩
  · obtain ⟨hstart,hne⟩ := h.handles i hi
    exact ⟨hnone i hstart,fun hs => hne (hsocket i hs)⟩
  · exact hstage _ i (Or.inr ⟨hk,rfl⟩) (h.made hk i (hstarting i hi))

/-- The instance of the handler's session gets it idle. -/
lemma atStage_makeSession {i : ℕ} (h : AtStage none w.instances i) :
    AtStage (some .idle) (w.modifyAt (some i) .makeSession).instances i := by
  obtain ⟨x,hx,-⟩ := h
  exact ⟨x.makeSession,by rw [getElem?_modifyAt,if_pos rfl,hx]; rfl,rfl⟩

lemma Owned.makeSession (h : w.Owned known) (hk : known.handles = []) (o : Overload) :
    (w.makeSession o).Owned { known with made := true, started := false } := by
  cases o with
  | intoPipe =>
    refine ⟨by simp [EchoWorld.makeSession],fun i hi => ?_,by simp [hk],fun _ i hi => ?_⟩
    · simp only [EchoWorld.makeSession,modifyAt_socket] at hi
      obtain ⟨hstart,hne⟩ := h.socket i hi
      exact ⟨atStage_modifyAt hstart fun hj => absurd hj hne,by simp [EchoWorld.makeSession]⟩
    · simp only [EchoWorld.makeSession] at hi ⊢
      exact hi ▸ atStage_makeSession (h.pipe i hi)
  | byMove =>
    refine ⟨fun i hi => ?_,by simp [EchoWorld.makeSession],by simp [hk],fun _ i hi => ?_⟩
    · simp only [EchoWorld.makeSession,modifyAt_pipe] at hi
      exact atStage_modifyAt (h.pipe i hi) fun hj => absurd hi (h.socket i hj).2
    · simp only [EchoWorld.makeSession] at hi ⊢
      exact hi ▸ atStage_makeSession (h.socket i hi).1

lemma Owned.performServer (h : w.Owned known) {c : ServerCall} (hc : c.May known.handles)
    (output : Dword → Dword) : (w.performServer output c).2.Owned
      { known with handles := c.learn known.handles (w.performServer output c).1 } := by
  cases c with
  | createNamedPipe endpoint settings =>
    refine ⟨fun i hi => (h.pipe i hi).append _,fun i hi => ?_,fun i hi => ?_,fun hk i hi => ?_⟩
    · exact ⟨(h.socket i hi).1.append _,(h.socket i hi).2⟩
    · obtain heq | hi := List.mem_cons.mp hi
      · cases heq
        refine ⟨⟨_,List.getElem?_concat_length,rfl⟩,fun hs => ?_⟩
        exact Nat.lt_irrefl _ (h.socket _ hs).1.lt
      · exact ⟨(h.handles i hi).1.append _,(h.handles i hi).2⟩
    · exact (h.made hk i hi).append _
  | assign hPipe =>
    cases hp : w.pipe with
    | some j =>
      simp only [EchoWorld.performServer,hp]
      exact h
    | none =>
      cases hPipe with
      | invalidHandleValue | null =>
        simp only [EchoWorld.performServer,hp]
        exact h
      | pipe i =>
        simp only [EchoWorld.performServer,hp]
        obtain hnull | hmem := hc
        · cases hnull
        obtain ⟨hstart,hne⟩ := h.handles i hmem
        refine ⟨fun j hj => ?_,fun j hj => ⟨(h.socket j hj).1,fun hij => ?_⟩,h.handles,h.made⟩
        · cases hj
          exact hstart
        · cases hij
          exact hne hj
  | connectNamedPipe | getLastError | print | overlappedPtr | complete | release | selfComplete =>
    exact h.mono rfl (fun _ => id) (fun _ => id) fun _ _ _ => id

/-- One call of a careful program. -/
theorem Owned.perform (h : w.Owned known) {c : LoopCall} (hc : c.May known)
    (output : Dword → Dword) (o : Overload) :
    (w.perform output o c).2.Owned (c.learn known (w.perform output o c).1) := by
  cases c with
  | server c => exact h.performServer hc output
  | makeSession => exact h.makeSession hc o
  | startSession =>
    have hstarted : w.Owned { known with made := false, started := true } :=
      ⟨h.pipe,h.socket,h.handles,by simp⟩
    refine hstarted.mono (w.modifyAt_pipe _ _) (by simp [EchoWorld.perform])
      (by simp [EchoWorld.perform]) fun op i hop hi => atStage_modifyAt hi fun _ x hx => ?_
    obtain rfl | ⟨hmade,-⟩ := hop
    · simpa [PipeInstance.startSession] using hx
    · cases hmade
  | dropSession =>
    have hdropped : w.Owned { known with started := false } := ⟨h.pipe,h.socket,h.handles,h.made⟩
    refine hdropped.mono (w.modifyAt_pipe _ _) (by simp [EchoWorld.perform]) (by simp [EchoWorld.perform])
      fun op i _ hi => atStage_modifyAt hi fun _ x hx => ?_
    rw [PipeInstance.dropSession_op,hx]
  | dropSocket =>
    exact h.mono (w.modifyAt_pipe _ _) (by simp [EchoWorld.perform]) (by simp [EchoWorld.perform])
      fun op i _ hi => atStage_modifyAt hi fun _ x hx => hx

lemma Owned.deliver (h : w.Owned known) (u : Overlapped) (o : Overload) :
    (({ w with ov := u } : EchoWorld).handPipe o).Owned {} := by
  cases o with
  | intoPipe => exact ⟨h.pipe,h.socket,by simp,by simp⟩
  | byMove =>
    refine ⟨by simp [EchoWorld.handPipe],fun i hi => ?_,by simp,by simp⟩
    exact ⟨h.pipe i hi,by simp [EchoWorld.handPipe]⟩

lemma Owned.pipe_step {i : ℕ} {k : PipeStep} {xs : List PipeInstance} (h : w.Owned known)
    (hxs : stepAt w.instances i (PipeInstance.step k) = some xs) :
    (({ w with instances := xs } : EchoWorld).afterStep i k).Owned known := by
  have hstep : EchoWorld.Owned known { w with instances := xs } :=
    h.mono rfl (fun _ => id) (fun _ => id) fun op j hop hj =>
      hj.stepAt (hop.imp_right And.right) hxs
  rw [EchoWorld.afterStep]
  split_ifs
  · exact hstep.mono rfl (fun _ => id) (fun _ => id) fun _ _ _ => id
  · exact hstep

end EchoWorld

/-- A predicate that what the loop does to an instance keeps, where it may do so. -/
structure LoopStable (P : PipeInstance → Prop) : Prop where
  created : ∀ mode, P { messageReadMode := mode }
  makeSession : ∀ x : PipeInstance, x.session.map Session.op = none → P x → P x.makeSession
  startSession : ∀ x : PipeInstance, x.session.map Session.op = some .idle → P x → P x.startSession
  dropSession : ∀ x : PipeInstance, P x → P x.dropSession
  close : ∀ x : PipeInstance, P x → P x.close

namespace EchoWorld
variable {w : EchoWorld} {P : PipeInstance → Prop}

lemma forall_modifyAt {i : Option ℕ} {f : PipeInstance → PipeInstance} (h : ∀ x ∈ w.instances, P x)
    (hf : ∀ j x, i = some j → w.instances[j]? = some x → P x → P (f x)) :
    ∀ x ∈ (w.modifyAt i f).instances, P x := by
  cases i with
  | none => exact h
  | some j => exact forall_modify h fun x => hf j x rfl

theorem loopStable_perform {known : Known} (hP : LoopStable P) (hown : w.Owned known)
    {c : LoopCall} (hc : c.May known) (output : Dword → Dword) (o : Overload)
    (h : ∀ x ∈ w.instances, P x) : ∀ x ∈ (w.perform output o c).2.instances, P x := by
  cases c with
  | server c =>
    cases c with
    | createNamedPipe endpoint settings =>
      intro x hx
      obtain hx | hx := List.mem_append.mp hx
      · exact h x hx
      · rw [List.mem_singleton.mp hx]
        exact hP.created _
    | assign hPipe =>
      simp only [EchoWorld.perform,EchoWorld.performServer]
      split <;> exact h
    | connectNamedPipe | getLastError | print | overlappedPtr | complete | release | selfComplete =>
      exact h
  | makeSession =>
    cases o with
    | intoPipe => exact forall_modifyAt h fun j x hj hx => hP.makeSession x ((hown.pipe j hj).op_eq hx)
    | byMove =>
      exact forall_modifyAt h fun j x hj hx => hP.makeSession x ((hown.socket j hj).1.op_eq hx)
  | startSession =>
    exact forall_modifyAt h fun j x hj hx => hP.startSession x ((hown.made hc j hj).op_eq hx)
  | dropSession => exact forall_modifyAt h fun _ x _ _ => hP.dropSession x
  | dropSocket => exact forall_modifyAt h fun _ x _ _ => hP.close x

end EchoWorld

/-- What the loop does to an instance leaves it in relation with what it was. -/
structure LoopFrame (R : PipeInstance → PipeInstance → Prop) : Prop where
  refl : ∀ x, R x x
  makeSession : ∀ x : PipeInstance, R x x.makeSession
  startSession : ∀ x : PipeInstance, R x x.startSession
  dropSession : ∀ x : PipeInstance, R x x.dropSession
  close : ∀ x : PipeInstance, R x x.close

namespace EchoWorld
variable {w : EchoWorld} {R : PipeInstance → PipeInstance → Prop} {i : ℕ} {x : PipeInstance}

lemma frame_modifyAt (hR : LoopFrame R) (hx : w.instances[i]? = some x)
    {f : PipeInstance → PipeInstance} (hf : R x (f x)) (j : Option ℕ) :
    ∃ y, (w.modifyAt j f).instances[i]? = some y ∧ R x y := by
  rw [EchoWorld.getElem?_modifyAt,hx]
  split_ifs
  · exact ⟨f x,rfl,hf⟩
  · exact ⟨x,rfl,hR.refl x⟩

theorem frame_perform (hR : LoopFrame R) (hx : w.instances[i]? = some x)
    (output : Dword → Dword) (o : Overload) (c : LoopCall) :
    ∃ y, (w.perform output o c).2.instances[i]? = some y ∧ R x y := by
  have hsame := hR.refl x
  cases c with
  | server c =>
    cases c with
    | createNamedPipe endpoint settings =>
      exact ⟨x,(List.getElem?_append_left (List.getElem?_eq_some_iff.mp hx).1).trans hx,hsame⟩
    | assign hPipe =>
      simp only [EchoWorld.perform,EchoWorld.performServer]
      split <;> exact ⟨x,hx,hsame⟩
    | connectNamedPipe | getLastError | print | overlappedPtr | complete | release | selfComplete =>
      exact ⟨x,hx,hsame⟩
  | makeSession => cases o <;> exact frame_modifyAt hR hx (hR.makeSession x) _
  | startSession => exact frame_modifyAt hR hx (hR.startSession x) _
  | dropSession => exact frame_modifyAt hR hx (hR.dropSession x) _
  | dropSocket => exact frame_modifyAt hR hx (hR.close x) _

end EchoWorld

lemma EchoWorld.handPipe_instances (w : EchoWorld) (o : Overload) :
    (w.handPipe o).instances = w.instances := by
  cases o <;> rfl

lemma EchoWorld.afterStep_instances (w : EchoWorld) (i : ℕ) (l : PipeStep) :
    (w.afterStep i l).instances = w.instances := by
  rw [EchoWorld.afterStep]
  split_ifs <;> rfl

lemma EchoWorld.afterStep_socket (w : EchoWorld) (i : ℕ) (l : PipeStep) :
    (w.afterStep i l).socket = w.socket := by
  rw [EchoWorld.afterStep]
  split_ifs <;> rfl

lemma EchoWorld.afterStep_starting (w : EchoWorld) (i : ℕ) (l : PipeStep) :
    (w.afterStep i l).starting = w.starting := by
  rw [EchoWorld.afterStep]
  split_ifs <;> rfl

namespace PipeServer
variable {α : Type} {threads : ℕ} {output : Dword → Dword} {o : Overload}
variable {handler : ErrorCode → LoopProgram α} {s t : PipeServer α} {l : Act}

/-- The handler goes on carefully from what it knows. -/
def Tidy (s : PipeServer α) : Prop := ∃ known, s.world.Owned known ∧ s.program.Careful known

theorem step_tidy (hcareful : ∀ ec, (handler ec).Careful {}) :
    (machine threads output o handler).Preserves Tidy := by
  rintro ⟨w,p⟩ l t ⟨known,hown,hgoes⟩ hstep
  cases step_cases hstep with
  | accept hp =>
    cases hp
    exact ⟨_,hown.perform hgoes.1 output o,hgoes.2 _⟩
  | deliver => exact ⟨{},hown.deliver _ o,hcareful _⟩
  | pipe _ hxs => exact ⟨known,hown.pipe_step hxs,hgoes⟩

/-- Of all instances holds what the loop keeps, and what the instances' own steps keep. -/
theorem loopStable_step {P : PipeInstance → Prop} (hP : LoopStable P) (hs : s.Tidy)
    (h : ∀ x ∈ s.world.instances, P x)
    (hpipe : ∀ i k x y, l = .pipe i k → s.world.instances[i]? = some x → P x →
      PipeInstance.step k x = some y → P y)
    (hstep : (machine threads output o handler).step s l = some t) :
    ∀ x ∈ t.world.instances, P x := by
  obtain ⟨w,p⟩ := s
  obtain ⟨known,hown,hcareful⟩ := hs
  cases step_cases hstep with
  | accept hp =>
    cases hp
    exact EchoWorld.loopStable_perform hP hown hcareful.1 output o h
  | deliver =>
    rw [EchoWorld.handPipe_instances]
    exact h
  | @pipe i k xs _ hxs =>
    rw [EchoWorld.afterStep_instances]
    exact forall_stepAt h (fun x y hx => hpipe i k x y rfl hx) hxs

/-- An instance stays in relation with what it was, or takes a step of its own. -/
theorem frame_step {R : PipeInstance → PipeInstance → Prop} (hR : LoopFrame R)
    (hstep : (machine threads output o handler).step s l = some t)
    {i : ℕ} {x : PipeInstance} (hx : s.world.instances[i]? = some x) :
    ∃ y, t.world.instances[i]? = some y ∧
      (R x y ∨ ∃ k, l = .pipe i k ∧ PipeInstance.step k x = some y) := by
  obtain ⟨w,p⟩ := s
  cases step_cases hstep with
  | @accept c next hp =>
    obtain ⟨y,hy,hxy⟩ := EchoWorld.frame_perform hR hx output o c
    exact ⟨y,hy,Or.inl hxy⟩
  | deliver => exact ⟨x,by rw [EchoWorld.handPipe_instances]; exact hx,Or.inl (hR.refl x)⟩
  | @pipe j k xs _ hxs =>
    rw [EchoWorld.afterStep_instances]
    by_cases hji : j = i
    · subst hji
      obtain ⟨y,hy,hys⟩ := getElem?_stepAt_self hx hxs
      exact ⟨y,hys,Or.inr ⟨k,rfl,hy⟩⟩
    · exact ⟨x,(getElem?_stepAt_of_ne hji hxs).trans hx,Or.inl (hR.refl x)⟩

end PipeServer

namespace EchoServer
open PipeServer
variable {threads : ℕ} {output : Dword → Dword} {o : Overload} {endpoint : String}

theorem start_tidy : (start o endpoint).Tidy :=
  ⟨{},EchoWorld.owned_start,doAccept_careful o endpoint⟩

theorem step_tidy : (machine threads output o endpoint).Preserves Tidy :=
  PipeServer.step_tidy (acceptHandler_careful o endpoint)

end EchoServer
end Winext
