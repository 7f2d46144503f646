import Mathlib.Data.List.Perm.Subperm
import Mathlib.Logic.Function.Basic
import Winext.NamedPipe.AnswerProgress

/-! The threads of an echo server and `~server_named_pipe`, which waits in FlushFileBuffers on
the thread it runs on until its client has read all that was written to the pipe, or has left. -/
namespace Winext
open Lib Details

lemma Session.holds_of_failing {s : Session} (h : s.failing = true) : s.op.holds = true := by
  cases hop : s.op <;> simp [failing,SessionOp.holds,hop] at h ⊢

namespace PipeInstance
variable {x y : PipeInstance} {k : PipeStep}

/-- Nothing is written to an instance before its session is started. -/
def Blank (x : PipeInstance) : Prop := ¬x.Started → x.written = []

lemma not_started_iff : ¬x.Started ↔ x.session.map Session.op = none ∨
    x.session.map Session.op = some .idle := by
  cases hs : x.session <;> simp [Started,hs]

lemma blank_loopStable : LoopStable Blank where
  created _ _ := rfl
  makeSession x hs h _ := h (not_started_iff.mpr (Or.inl hs))
  startSession x hs h _ := h (not_started_iff.mpr (Or.inr hs))
  dropSession x h hno := by
    rw [not_started_iff,dropSession_op,← not_started_iff] at hno
    rw [(bytes_loopFrame.dropSession x).2.2.2.1]
    exact h hno
  close _ h := h

lemma Blank.step (h : x.Blank) (hy : PipeInstance.step k x = some y) : y.Blank := by
  intro hno
  cases step_cases hy with
  | client peer messages => exact h hno
  | readEnds hs hop hy =>
    obtain ⟨r,-,rfl⟩ := Option.map_eq_some_iff.mp hy
    exact absurd ⟨_,rfl,by simp⟩ hno
  | writes hs hop =>
    refine absurd ⟨_,rfl,?_⟩ hno
    simp only
    split_ifs <;> simp
  | readFails | writeFails => exact absurd ⟨_,rfl,by simp⟩ hno
  | runHandler hs ht => exact h fun hstarted => hno (hstarted.step hy)

/-- A session whose handler is to end it takes no other step. -/
lemma Ending.step (h : x.Ending) (hk : k ≠ .runHandler) (hy : PipeInstance.step k x = some y) :
    y.Ending := by
  obtain ⟨s,hs,htemporary,hfailing⟩ := h
  have hop : ∀ r, x.session = some r → r.failing = true := fun r hr => by
    cases hs.symm.trans hr
    exact hfailing
  cases step_cases hy with
  | client peer messages => exact ⟨s,hs,htemporary,hfailing⟩
  | readEnds hs hread | writes hs hread | readFails hs hread | writeFails _ hs hread =>
    have hno := hop _ hs
    simp only [Session.failing,hread] at hno
    cases hno
  | runHandler => exact absurd rfl hk

/-- It ends because an operation has failed, or because a message does not fit. -/
lemma Account.ending (h : x.Account) (hending : x.Ending) :
    x.failed = true ∨ x.answerable ≠ x.sent := by
  obtain ⟨s,hs,-,hfailing⟩ := hending
  rw [Account,hs] at h
  cases hop : s.op with
  | readEnded ec length =>
    simp only [Session.failing,hop] at hfailing
    simp only [accountOf,hop,hfailing,if_true] at h
    exact h.imp And.left Cut.more
  | writeEnded ec =>
    simp only [Session.failing,hop] at hfailing
    simp only [accountOf,hop,hfailing,if_true] at h
    exact Or.inl h.1
  | idle | reading | writing | stopped =>
    simp only [Session.failing,hop] at hfailing
    cases hfailing

/-- A session that has ended takes no step, and neither does one that has not been started. -/
lemma holds_step {s : Session} (hs : x.session = some s) (hop : s.op.holds = false)
    (hy : PipeInstance.step k x = some y) : y.session = some s := by
  have hno : ∀ r, x.session = some r → r.op.holds = false := fun r hr => by
    cases hs.symm.trans hr
    exact hop
  cases step_cases hy with
  | client peer messages => exact hs
  | readEnds hr hread | writes hr hread | readFails hr hread | writeFails _ hr hread =>
    have hr := hno _ hr
    simp only [hread] at hr
    cases hr
  | @runHandler r t hr ht =>
    have hr := hno r hr
    cases hread : r.op <;> simp [Session.handler,hread,SessionOp.holds] at ht hr

/-- Only its client ends a connection, and what is written stays written. -/
lemma reads_step (hclient : x.client = .connected) (hk : k ≠ .clientDisconnects)
    (hy : PipeInstance.step k x = some y) :
    y.client = .connected ∧ x.written.length ≤ y.written.length := by
  cases hby : k.byClient with
  | false =>
    obtain ⟨-,hsame,bytes,hbytes⟩ := step_of_others hby hy
    rw [hclient] at hsame
    exact ⟨hsame.resolve_right (by decide),by simp [hbytes]⟩
  | true =>
    cases k with
    | clientWrites message =>
      simp only [PipeInstance.step] at hy
      split_ifs at hy
      cases hy
      exact ⟨hclient,le_rfl⟩
    | clientDisconnects => exact absurd rfl hk
    | clientConnects | readEnds | writes | fails | runHandler => cases hby

end PipeInstance

namespace EchoWorld
variable {w : EchoWorld} {known : Known} {c : LoopCall} {i : ℕ} {x y : PipeInstance}

/-- The calls of the loop leave a session that was started alone, until they let go of it. -/
lemma started_perform (hown : w.Owned known) (hc : c.May known) (hx : w.instances[i]? = some x)
    (hstarted : x.Started) (output : Dword → Dword) (o : Overload) :
    ∃ y, (w.perform output o c).2.instances[i]? = some y ∧
      (y = x ∨ c = .dropSession ∧ w.starting = some i ∧ y = x.dropSession) := by
  have hnot : ∀ {op : Option SessionOp}, AtStage op w.instances i → op = none ∨ op = some .idle →
      False := by
    rintro op hstage hop
    refine PipeInstance.not_started_iff.mpr ?_ hstarted
    rwa [hstage.op_eq hx]
  cases c with
  | server c =>
    cases c with
    | createNamedPipe endpoint settings =>
      exact ⟨x,(List.getElem?_append_left (List.getElem?_eq_some_iff.mp hx).1).trans hx,Or.inl rfl⟩
    | assign hPipe =>
      simp only [perform,performServer]
      split <;> exact ⟨x,hx,Or.inl rfl⟩
    | connectNamedPipe | getLastError | print | overlappedPtr | complete | release | selfComplete =>
      exact ⟨x,hx,Or.inl rfl⟩
  | makeSession =>
    cases o with
    | intoPipe =>
      refine ⟨x,(w.getElem?_modifyAt _ _ _).trans ?_,Or.inl rfl⟩
      rw [if_neg fun hi => hnot (hown.pipe i hi) (Or.inl rfl),hx]
    | byMove =>
      refine ⟨x,(w.getElem?_modifyAt _ _ _).trans ?_,Or.inl rfl⟩
      rw [if_neg fun hi => hnot (hown.socket i hi).1 (Or.inl rfl),hx]
  | startSession =>
    refine ⟨x,(w.getElem?_modifyAt _ _ _).trans ?_,Or.inl rfl⟩
    rw [if_neg fun hi => hnot (hown.made hc i hi) (Or.inr rfl),hx]
  | dropSession =>
    by_cases hi : w.starting = some i
    · refine ⟨_,(w.getElem?_modifyAt _ _ _).trans ?_,Or.inr ⟨rfl,hi,rfl⟩⟩
      rw [if_pos hi,hx]
      rfl
    · exact ⟨x,(w.getElem?_modifyAt _ _ _).trans (by rw [if_neg hi,hx]),Or.inl rfl⟩
  | dropSocket =>
    refine ⟨x,(w.getElem?_modifyAt _ _ _).trans ?_,Or.inl rfl⟩
    rw [if_neg fun hi => hnot (hown.socket i hi).1 (Or.inl rfl),hx]

end EchoWorld

/-- A handler lets go of its session right after it has started it. -/
def LoopProgram.Prompt (started : Bool) (p : LoopProgram (Except Thrown Unit)) : Prop :=
  p.Within (fun started c => c = .dropSession → started = true)
    (fun _ c _ => match c with | .startSession => true | _ => false) (fun _ _ => True) started

lemma LoopProgram.prompt_of_harmless {p : LoopProgram (Except Thrown Unit)}
    (h : p.All LoopCall.Harmless) (started : Bool) : p.Prompt started := by
  induction p generalizing started with
  | done a => exact trivial
  | call c next ih =>
    refine ⟨?_,fun r => ih r (h.2 r) _⟩
    rintro rfl
    exact h.1.elim

lemma doAccept_prompt (o : Overload) (endpoint : String) : (doAccept o endpoint).Prompt false :=
  LoopProgram.prompt_of_harmless (LoopProgram.ofServer_harmless _) false

lemma acceptHandler_prompt (o : Overload) (endpoint : String) (ec : ErrorCode) :
    (acceptHandler o endpoint ec).Prompt false := by
  have hnext : ∀ begun, LoopProgram.Prompt begun (do
      let started ← doAccept o endpoint
      if o = .byMove then
        Program.ask LoopCall.dropSocket
      return started) := by
    refine LoopProgram.prompt_of_harmless ?_
    refine Program.All.bind (LoopProgram.ofServer_harmless _) fun started => ?_
    cases o with
    | intoPipe => exact trivial
    | byMove => exact ⟨trivial,fun _ => trivial⟩
  cases hec : ec.failed with
  | true =>
    simp only [acceptHandler,hec]
    exact hnext false
  | false =>
    simp only [acceptHandler,hec]
    exact ⟨by simp,fun _ => ⟨by simp,fun _ => ⟨fun _ => rfl,fun _ => hnext _⟩⟩⟩

namespace EchoServer
open PipeServer
variable {threads : ℕ} {output : Dword → Dword} {o : Overload} {endpoint : String}
variable {s t : EchoServer} {l : Act} {i : ℕ} {x : PipeInstance}

/-- Between these states the pipe of an instance has been destroyed. -/
def closes (s t : EchoServer) (i : ℕ) : Bool :=
  s.world.instances[i]?.any (!·.closed) && t.world.instances[i]?.any (·.closed)

/-- What the loop and the sessions keep of the instances, whatever happens. -/
structure Steady (s : EchoServer) : Prop where
  answering : s.Answering
  sized : ∀ x ∈ s.world.instances, x.Sized
  blank : ∀ x ∈ s.world.instances, x.Blank
  prompt : ∃ started, s.program.Prompt started

theorem start_steady : (start o endpoint).Steady :=
  ⟨start_answering,by simp [start],by simp [start],false,doAccept_prompt o endpoint⟩

theorem step_steady : (machine threads output o endpoint).Preserves Steady := by
  intro s l t h hstep
  refine ⟨step_answering s l t h.answering hstep,?_,?_,?_⟩
  · exact loopStable_step PipeInstance.sized_loopStable h.answering.tidy h.sized
      (fun _ _ _ _ _ _ hx hy => hx.step hy) hstep
  · exact loopStable_step PipeInstance.blank_loopStable h.answering.tidy h.blank
      (fun _ _ _ _ _ _ hx hy => hx.step hy) hstep
  · obtain ⟨started,hprompt⟩ := h.prompt
    cases step_cases hstep with
    | accept hp =>
      rw [hp] at hprompt
      exact ⟨_,hprompt.2 _⟩
    | deliver => exact ⟨false,acceptHandler_prompt o endpoint _⟩
    | pipe => exact ⟨started,hprompt⟩

lemma Steady.started (h : s.Steady) (hx : s.world.instances[i]? = some x)
    (hwritten : x.written ≠ []) : x.Started := by
  by_contra hno
  exact hwritten (h.blank x (List.mem_of_getElem? hx) hno)

/-- A session that was started takes its own steps, and the accept handler lets go of it. -/
lemma Steady.frame (h : s.Steady) (hstep : (machine threads output o endpoint).step s l = some t)
    (hx : s.world.instances[i]? = some x) (hstarted : x.Started) :
    ∃ y, t.world.instances[i]? = some y ∧ (y = x ∨
      (∃ k, l = .pipe i k ∧ PipeInstance.step k x = some y) ∨
      l = .accept ∧ .dropSession ∈ s.nextCall ∧ s.world.starting = some i ∧ y = x.dropSession) := by
  obtain ⟨w,p⟩ := s
  obtain ⟨known,hown,hcareful⟩ := h.answering.tidy
  cases step_cases hstep with
  | @accept c next hp =>
    cases hp
    obtain ⟨y,hy,rfl | ⟨rfl,hstarting,rfl⟩⟩ :=
      EchoWorld.started_perform hown hcareful.1 hx hstarted output o
    · exact ⟨y,hy,Or.inl rfl⟩
    · exact ⟨_,hy,Or.inr (Or.inr ⟨rfl,rfl,hstarting,rfl⟩)⟩
  | deliver => exact ⟨x,by rw [EchoWorld.handPipe_instances]; exact hx,Or.inl rfl⟩
  | @pipe j k xs _ hxs =>
    rw [EchoWorld.afterStep_instances]
    by_cases hji : j = i
    · subst hji
      obtain ⟨y,hy,hys⟩ := getElem?_stepAt_self hx hxs
      exact ⟨y,hys,Or.inr (Or.inl ⟨k,rfl,hy⟩)⟩
    · exact ⟨x,(getElem?_stepAt_of_ne hji hxs).trans hx,Or.inl rfl⟩

/-- A pipe to which something was written is destroyed with its session. -/
lemma Steady.closes (h : s.Steady) (hstep : (machine threads output o endpoint).step s l = some t)
    (hx : s.world.instances[i]? = some x) (hwritten : x.written ≠ [])
    (hcloses : EchoServer.closes s t i = true) : s.LetsGo l i := by
  obtain ⟨y,hy,hcases⟩ := h.frame hstep hx (h.started hx hwritten)
  simp only [EchoServer.closes,hx,hy,Option.any_some,Bool.and_eq_true,Bool.not_eq_true'] at hcloses
  obtain ⟨hopen,hclosed⟩ := hcloses
  obtain rfl | ⟨k,rfl,hk⟩ | ⟨rfl,hcall,hstarting,rfl⟩ := hcases
  · rw [hopen] at hclosed
    cases hclosed
  · obtain hc | ⟨rfl,hending⟩ := (PipeInstance.closed_step hk).mp hclosed
    · rw [hopen] at hc
      cases hc
    · exact ⟨x,hx,Or.inl ⟨rfl,hending⟩⟩
  · obtain hc | hfree := PipeInstance.closed_dropSession.mp hclosed
    · rw [hopen] at hc
      cases hc
    · exact ⟨x,hx,Or.inr ⟨rfl,hcall,hstarting,hfree⟩⟩

end EchoServer

/-- `taken` counts the bytes that each client has read. The handlers of the instances in
`waiting` have let go of their sessions, whose destructors wait, each on a thread. -/
structure FlushServer where
  server : EchoServer
  taken : ℕ → ℕ := fun _ => 0
  waiting : List ℕ := []

namespace FlushServer

def start (o : Overload) (endpoint : String) : FlushServer :=
  { server := EchoServer.start o endpoint }

/-- The client is there, and has not read all that was written to it. -/
def unread (s : FlushServer) (i : ℕ) : Bool :=
  match s.server.world.instances[i]? with
  | some x => x.client == .connected && decide (s.taken i < x.written.length)
  | none => false

/-- A step to this state destroys a pipe whose client has not read all. -/
def flushes (s : FlushServer) (t : EchoServer) : Bool :=
  (List.range s.server.world.instances.length).any fun i => s.unread i && s.server.closes t i

inductive Act
  | server (l : PipeServer.Act)
  | waits (i : ℕ)
  | flushed (i : ℕ)
  | clientReads (i count : ℕ)
  deriving DecidableEq, Repr

section Step
variable (threads : ℕ) (output : Dword → Dword) (o : Overload) (endpoint : String)

/-- The threads on which no destructor waits. -/
def free (s : FlushServer) : ℕ := threads - s.waiting.length

/-- A handler runs where a thread is free. Where it would end with a destructor that has to
wait, it takes the thread up, and is done when the client has read. The accept handler waits
in the same way before its own call is done. -/
def step (s : FlushServer) : Act → Option FlushServer
  | .server l =>
    ((EchoServer.machine (s.free threads) output o endpoint).step s.server l).bind fun t =>
      if s.flushes t ∨ ∃ i ∈ s.waiting, l = .pipe i .runHandler then none
      else some { s with server := t }
  | .waits i =>
    ((EchoServer.machine (s.free threads) output o endpoint).step s.server
      (.pipe i .runHandler)).bind fun t =>
        if s.flushes t ∧ i ∉ s.waiting then some { s with waiting := i::s.waiting } else none
  | .flushed i =>
    if i ∈ s.waiting ∧ s.unread i = false then
      ((EchoServer.machine threads output o endpoint).step s.server (.pipe i .runHandler)).map
        fun t => { s with server := t, waiting := s.waiting.erase i }
    else none
  | .clientReads i count =>
    match s.server.world.instances[i]? with
    | some x =>
      if x.client = .connected ∧ 0 < count ∧ s.taken i + count ≤ x.written.length then
        some { s with taken := Function.update s.taken i (s.taken i + count) }
      else none
    | none => none

def machine : Machine FlushServer Act := ⟨step threads output o endpoint⟩

/-- All that one step can be. -/
inductive Moves (s : FlushServer) : Act → FlushServer → Prop
  | server {l : PipeServer.Act} {t : EchoServer}
    (hstep : (EchoServer.machine (s.free threads) output o endpoint).step s.server l = some t)
    (hflush : s.flushes t = false) (hl : ∀ i ∈ s.waiting, l ≠ .pipe i .runHandler) :
    Moves s (.server l) { s with server := t }
  | waits {i : ℕ} {t : EchoServer}
    (hstep : (EchoServer.machine (s.free threads) output o endpoint).step s.server
      (.pipe i .runHandler) = some t)
    (hflush : s.flushes t = true) (hnew : i ∉ s.waiting) :
    Moves s (.waits i) { s with waiting := i::s.waiting }
  | flushed {i : ℕ} {t : EchoServer} (hwaits : i ∈ s.waiting) (hread : s.unread i = false)
    (hstep : (EchoServer.machine threads output o endpoint).step s.server
      (.pipe i .runHandler) = some t) :
    Moves s (.flushed i) { s with server := t, waiting := s.waiting.erase i }
  | clientReads (i count : ℕ) : Moves s (.clientReads i count)
      { s with taken := Function.update s.taken i (s.taken i + count) }

variable {threads output o endpoint}

theorem step_cases {s t : FlushServer} {l : Act}
    (h : (machine threads output o endpoint).step s l = some t) :
    Moves threads output o endpoint s l t := by
  cases l with
  | server l =>
    obtain ⟨u,hu,h⟩ := Option.bind_eq_some_iff.mp h
    split_ifs at h with hno
    obtain ⟨hflush,hl⟩ := not_or.mp hno
    cases h
    exact .server hu (Bool.eq_false_iff.mpr hflush) fun i hi he => hl ⟨i,hi,he⟩
  | waits i =>
    obtain ⟨u,hu,h⟩ := Option.bind_eq_some_iff.mp h
    split_ifs at h with hwaits
    cases h
    exact .waits hu hwaits.1 hwaits.2
  | flushed i =>
    simp only [machine,step] at h
    split_ifs at h with hwaits
    obtain ⟨u,hu,rfl⟩ := Option.map_eq_some_iff.mp h
    exact .flushed hwaits.1 hwaits.2 hu
  | clientReads i count =>
    simp only [machine,step] at h
    split at h
    · split_ifs at h
      cases h
      exact .clientReads i count
    · cases h

end Step
end FlushServer

namespace EchoServer
open PipeServer
variable {threads : ℕ} {output : Dword → Dword} {o : Overload} {endpoint : String}
variable {s t : EchoServer} {l : Act} {i : ℕ} {x : PipeInstance}

lemma busy_le_one (s : EchoServer) : s.busy ≤ 1 := by
  unfold busy
  split <;> decide

lemma pos_of_deliver (hstep : (machine threads output o endpoint).step s .deliver = some t) :
    0 < threads := by
  simp only [PipeServer.machine,step] at hstep
  split_ifs at hstep with hfree
  exact hfree.2

lemma busy_step (hbusy : s.busy ≤ threads)
    (hstep : (machine threads output o endpoint).step s l = some t) : t.busy ≤ threads := by
  cases l with
  | accept =>
    cases step_cases hstep with
    | accept hp =>
      simp only [busy,hp] at hbusy
      exact (busy_le_one _).trans hbusy
  | deliver => exact (busy_le_one t).trans (pos_of_deliver hstep)
  | pipe i k =>
    cases step_cases hstep
    exact hbusy

/-- The pipe of a session that is about to end. -/
def EndsAt (s : EchoServer) (i : ℕ) : Prop :=
  ∃ x, s.world.instances[i]? = some x ∧ x.closed = false ∧ x.Ending

/-- Whatever else happens, such a session waits for its handler. -/
lemma Steady.endsAt (h : s.Steady) (hl : l ≠ .pipe i .runHandler)
    (hstep : (machine threads output o endpoint).step s l = some t) (hi : s.EndsAt i) :
    t.EndsAt i := by
  obtain ⟨x,hx,hopen,hending⟩ := hi
  obtain ⟨r,hr,htemporary,hfailing⟩ := hending
  have hstarted : x.Started := ⟨r,hr,fun hidle => by simp [Session.failing,hidle] at hfailing⟩
  obtain ⟨y,hy,rfl | ⟨k,rfl,hk⟩ | ⟨-,-,-,rfl⟩⟩ := h.frame hstep hx hstarted
  · exact ⟨y,hy,hopen,r,hr,htemporary,hfailing⟩
  · have hne : k ≠ .runHandler := fun hk => hl (congrArg (Act.pipe i) hk)
    refine ⟨y,hy,?_,PipeInstance.Ending.step ⟨r,hr,htemporary,hfailing⟩ hne hk⟩
    rw [← Bool.not_eq_true,PipeInstance.closed_step hk,hopen]
    simp [hne]
  · refine ⟨_,hy,?_,{ r with temporary := false },?_,rfl,hfailing⟩
    · rw [← Bool.not_eq_true,PipeInstance.closed_dropSession,hopen]
      rintro (hno | ⟨q,hq,hfree⟩)
      · cases hno
      · cases hr.symm.trans hq
        rw [Session.holds_of_failing hfailing] at hfree
        cases hfree
    · simp only [PipeInstance.dropSession,hr,PipeInstance.keep]

end EchoServer

namespace FlushServer
variable {threads : ℕ} {output : Dword → Dword} {o : Overload} {endpoint : String}
variable {s t u : FlushServer} {l : Act} {i : ℕ} {x : PipeInstance}

lemma unread_iff : s.unread i = true ↔ ∃ x, s.server.world.instances[i]? = some x ∧
    x.client = .connected ∧ s.taken i < x.written.length := by
  unfold unread
  cases hx : s.server.world.instances[i]? <;> simp

lemma flushes_iff {t : EchoServer} :
    s.flushes t = true ↔ ∃ i, s.unread i = true ∧ s.server.closes t i = true := by
  simp only [flushes,List.any_eq_true,List.mem_range,Bool.and_eq_true]
  constructor
  · rintro ⟨i,-,h⟩
    exact ⟨i,h⟩
  · rintro ⟨i,hunread,hcloses⟩
    obtain ⟨x,hx,-⟩ := unread_iff.mp hunread
    exact ⟨i,(List.getElem?_eq_some_iff.mp hx).1,hunread,hcloses⟩

/-- A step that would destroy a pipe whose client has not read all lets go of its session. -/
lemma letsGo_of_flushes {n : ℕ} {m : PipeServer.Act} {t : EchoServer} (h : s.server.Steady)
    (hstep : (EchoServer.machine n output o endpoint).step s.server m = some t)
    (hflush : s.flushes t = true) : ∃ i, s.unread i = true ∧ s.server.world.OpenAt i ∧
      s.server.LetsGo m i := by
  obtain ⟨i,hunread,hcloses⟩ := flushes_iff.mp hflush
  obtain ⟨x,hx,-,hmore⟩ := unread_iff.mp hunread
  have hwritten : x.written ≠ [] := fun hnil => by simp [hnil] at hmore
  have hletsGo := h.closes hstep hx hwritten hcloses
  simp only [EchoServer.closes,hx,Option.any_some,Bool.and_eq_true,Bool.not_eq_true'] at hcloses
  exact ⟨i,hunread,⟨x,hx,hcloses.1⟩,hletsGo⟩

/-- What holds of the server and its threads in every run: each destructor that waits has a
thread of its own, and it is that of a session of which nothing else is left. -/
structure Orderly (threads : ℕ) (s : FlushServer) : Prop where
  steady : s.server.Steady
  room : s.server.busy + s.waiting.length ≤ threads
  nodup : s.waiting.Nodup
  endsAt : ∀ i ∈ s.waiting, s.server.EndsAt i

theorem start_orderly (hthreads : 0 < threads) : (start o endpoint).Orderly threads where
  steady := EchoServer.start_steady
  room := (EchoServer.busy_le_one _).trans hthreads
  nodup := List.nodup_nil
  endsAt i hi := by cases hi

theorem step_orderly : (machine threads output o endpoint).Preserves (Orderly threads) := by
  intro s l t h hstep
  have hroom := h.room
  cases step_cases hstep with
  | @server m u hu hflush hm =>
    refine ⟨EchoServer.step_steady _ _ _ h.steady hu,?_,h.nodup,fun i hi => ?_⟩
    · have hbusy : u.busy ≤ s.free threads :=
        EchoServer.busy_step (by simp only [free]; omega) hu
      simp only [free] at hbusy
      simp only
      omega
    · exact h.steady.endsAt (hm i hi) hu (h.endsAt i hi)
  | @waits j u hu hflush hnew =>
    refine ⟨h.steady,?_,List.nodup_cons.mpr ⟨hnew,h.nodup⟩,fun i hi => ?_⟩
    · cases PipeServer.step_cases hu with | pipe hfree
      have hlt := hfree rfl
      simp only [free] at hlt
      simp only [List.length_cons]
      omega
    · obtain rfl | hi := List.mem_cons.mp hi
      · obtain ⟨j,-,⟨y,hy,hopen⟩,x,hx,⟨hj,hending⟩ | ⟨hno,-⟩⟩ :=
          letsGo_of_flushes h.steady hu hflush
        · cases hj
          cases hx.symm.trans hy
          exact ⟨_,hx,hopen,hending⟩
        · cases hno
      · exact h.endsAt i hi
  | @flushed j u hwaits hread hu =>
    refine ⟨EchoServer.step_steady _ _ _ h.steady hu,?_,h.nodup.erase j,fun i hi => ?_⟩
    · have hlength := List.length_erase_of_mem hwaits
      have hpos := List.length_pos_of_mem hwaits
      cases PipeServer.step_cases hu
      simp only [PipeServer.busy] at hroom ⊢
      omega
    · obtain ⟨hne,hi⟩ := (h.nodup.mem_erase_iff).mp hi
      refine h.steady.endsAt (fun he => hne ?_) hu (h.endsAt i hi)
      cases he
      rfl
  | clientReads j count => exact ⟨h.steady,h.room,h.nodup,h.endsAt⟩

/-- The client of this instance reads, or leaves. -/
def Act.lets (i : ℕ) : Act → Prop
  | .clientReads j _ => j = i
  | .server l => l = .pipe i .clientDisconnects
  | .waits _ | .flushed _ => False

/-- The accept handler is about to destroy the pipe of a session, and has to wait. -/
def HeldUp (s : FlushServer) (i : ℕ) : Prop :=
  s.unread i = true ∧ s.server.world.OpenAt i ∧ s.server.LetsGo .accept i

/-- A thread waits for the client of this instance. -/
def Awaited (s : FlushServer) (i : ℕ) : Prop := i ∈ s.waiting ∧ s.unread i = true ∨ s.HeldUp i

/-- The destructors that wait for a client. -/
def delayed (s : FlushServer) : ℕ := (s.waiting.filter s.unread).length

lemma unread_server {n : ℕ} {m : PipeServer.Act} {v : EchoServer}
    (hstep : (EchoServer.machine n output o endpoint).step s.server m = some v)
    (hm : m ≠ .pipe i .clientDisconnects) (h : s.unread i = true) (waiting : List ℕ) :
    unread ⟨v,s.taken,waiting⟩ i = true := by
  obtain ⟨x,hx,hclient,hmore⟩ := unread_iff.mp h
  refine unread_iff.mpr ?_
  obtain ⟨y,hy,⟨hsame,-,-,hwritten,-⟩ | ⟨k,rfl,hk⟩⟩ :=
    PipeServer.frame_step PipeInstance.bytes_loopFrame hstep hx
  · exact ⟨y,hy,hsame.trans hclient,by rw [hwritten]; exact hmore⟩
  · obtain ⟨hyclient,hle⟩ := PipeInstance.reads_step hclient (fun hk => hm (by rw [hk])) hk
    exact ⟨y,hy,hyclient,Nat.lt_of_lt_of_le hmore hle⟩

/-- What a client has not read it has still not read, until it reads or leaves. -/
lemma unread_step (h : s.unread i = true) (hl : ¬l.lets i)
    (hstep : (machine threads output o endpoint).step s l = some t) : t.unread i = true := by
  cases step_cases hstep with
  | server hu => exact unread_server hu hl h _
  | waits => exact h
  | flushed _ _ hu => exact unread_server hu (by simp) h _
  | clientReads j count =>
    obtain ⟨x,hx,hclient,hmore⟩ := unread_iff.mp h
    refine unread_iff.mpr ⟨x,hx,hclient,?_⟩
    simpa only [Function.update_of_ne (Ne.symm hl)] using hmore

lemma waiting_step (hi : i ∈ s.waiting) (h : s.unread i = true)
    (hstep : (machine threads output o endpoint).step s l = some t) : i ∈ t.waiting := by
  cases step_cases hstep with
  | server | clientReads => exact hi
  | waits => exact List.mem_cons_of_mem _ hi
  | flushed hwaits hread =>
    refine (List.mem_erase_of_ne ?_).mpr hi
    rintro rfl
    rw [h] at hread
    cases hread

lemma letsGo_step {n : ℕ} {m : PipeServer.Act} {v : EchoServer}
    (hstep : (EchoServer.machine n output o endpoint).step s.server m = some v)
    (hm : m ≠ .accept) (hopen : s.server.world.OpenAt i) (h : s.server.LetsGo .accept i) :
    v.world.OpenAt i ∧ v.LetsGo .accept i := by
  obtain ⟨x,hx,⟨hno,-⟩ | ⟨-,hcall,hstarting,r,hr,hfree⟩⟩ := h
  · cases hno
  obtain ⟨x',hx',hclosed⟩ := hopen
  cases hx.symm.trans hx'
  cases m with
  | accept => exact absurd rfl hm
  | deliver =>
    cases PipeServer.step_cases hstep with
    | deliver hp =>
      simp only [PipeServer.nextCall,hp] at hcall
      cases hcall
  | pipe j k =>
    cases PipeServer.step_cases hstep with | pipe _ hxs
    simp only [EchoWorld.OpenAt,EchoServer.LetsGo,EchoWorld.afterStep_instances,
      EchoWorld.afterStep_starting]
    by_cases hji : j = i
    · subst hji
      obtain ⟨y,hy,hys⟩ := getElem?_stepAt_self hx hxs
      have hsame := PipeInstance.holds_step hr hfree hy
      refine ⟨⟨y,hys,?_⟩,y,hys,Or.inr ⟨trivial,hcall,hstarting,r,hsame,hfree⟩⟩
      rw [← Bool.not_eq_true,PipeInstance.closed_step hy,hclosed]
      rintro (hc | ⟨-,q,hq,-,hfailing⟩)
      · cases hc
      · -- the handler of such a session has run
        cases hr.symm.trans hq
        rw [Session.holds_of_failing hfailing] at hfree
        cases hfree
    · have hsame := (getElem?_stepAt_of_ne hji hxs).trans hx
      exact ⟨⟨x,hsame,hclosed⟩,x,hsame,Or.inr ⟨trivial,hcall,hstarting,r,hr,hfree⟩⟩

/-- The accept handler that has to wait cannot go on. -/
lemma HeldUp.flushes {n : ℕ} {v : EchoServer} (h : s.HeldUp i)
    (hstep : (EchoServer.machine n output o endpoint).step s.server .accept = some v) :
    s.flushes v = true := by
  obtain ⟨hunread,⟨x,hx,hclosed⟩,x',hx',⟨hno,-⟩ | ⟨-,hcall,hstarting,hfree⟩⟩ := h
  · cases hno
  cases hx.symm.trans hx'
  cases PipeServer.step_cases hstep with
  | @accept c next hp =>
    simp only [PipeServer.nextCall,hp] at hcall
    cases hcall
    have hdropped : (s.server.world.modifyAt s.server.world.starting
        .dropSession).instances[i]? = some x.dropSession := by
      rw [EchoWorld.getElem?_modifyAt,if_pos hstarting,hx]
      rfl
    refine flushes_iff.mpr ⟨i,hunread,?_⟩
    simp only [EchoServer.closes,hx,EchoWorld.perform,hdropped,Option.any_some,hclosed,
      PipeInstance.closed_dropSession.mpr (Or.inr hfree)]
    rfl

lemma HeldUp.step (h : s.HeldUp i) (hl : ¬l.lets i)
    (hstep : (machine threads output o endpoint).step s l = some t) : t.HeldUp i := by
  refine ⟨unread_step h.1 hl hstep,?_⟩
  cases step_cases hstep with
  | @server m v hu hflush =>
    refine letsGo_step hu ?_ h.2.1 h.2.2
    rintro rfl
    rw [h.flushes hu] at hflush
    cases hflush
  | waits | clientReads => exact h.2
  | flushed _ _ hu => exact letsGo_step hu (by simp) h.2.1 h.2.2

/-- What waits for a client goes on to. -/
structure StillWaits (s t : FlushServer) : Prop where
  waiting : ∀ i ∈ s.waiting, s.unread i = true → i ∈ t.waiting ∧ t.unread i = true
  heldUp : ∀ i, s.HeldUp i → t.HeldUp i

lemma stillWaits_run {ms : List Act} (hms : ∀ l ∈ ms, ∀ i, s.Awaited i → ¬l.lets i)
    (h : (machine threads output o endpoint).run s ms = some t) : s.StillWaits t := by
  have hstep : ∀ t l u, s.StillWaits t → (∀ i, s.Awaited i → ¬l.lets i) →
      (machine threads output o endpoint).step t l = some u → s.StillWaits u := by
    intro t l u hwaits hl hstep
    refine ⟨fun i hi hunread => ?_,fun i hi => ?_⟩
    · obtain ⟨hit,ht⟩ := hwaits.waiting i hi hunread
      exact ⟨waiting_step hit ht hstep,unread_step ht (hl i (Or.inl ⟨hi,hunread⟩)) hstep⟩
    · exact (hwaits.heldUp i hi).step (hl i (Or.inr hi)) hstep
  exact Machine.run_along hstep h ⟨fun i hi hunread => ⟨hi,hunread⟩,fun i hi => hi⟩
    ((Machine.along_label_iff h).mpr hms)

lemma StillWaits.delayed_le (h : s.StillWaits t) (hnodup : s.waiting.Nodup) :
    s.delayed ≤ t.waiting.length := by
  refine (List.subperm_of_subset (hnodup.filter _) fun i hi => ?_).length_le
  obtain ⟨hi,hunread⟩ := List.mem_filter.mp hi
  exact (h.waiting i hi hunread).1

/-- The server can come to run another accept handler without the clients that a thread
waits for. -/
def AcceptsUnaided (threads : ℕ) (output : Dword → Dword) (o : Overload) (endpoint : String)
    (s : FlushServer) : Prop :=
  ∃ ms u v, (∀ l ∈ ms, ∀ i, s.Awaited i → ¬l.lets i) ∧
    (machine threads output o endpoint).run s ms = some u ∧
    (machine threads output o endpoint).step u (.server .deliver) = some v

/-- It needs a thread, and an accept handler that goes on. -/
lemma AcceptsUnaided.room (h : s.AcceptsUnaided threads output o endpoint)
    (hnodup : s.waiting.Nodup) : s.delayed < threads ∧ ∀ i, ¬s.HeldUp i := by
  obtain ⟨ms,u,v,hms,hu,hv⟩ := h
  have hwaits := stillWaits_run hms hu
  cases step_cases hv with
  | server hstep =>
    refine ⟨?_,fun i hi => ?_⟩
    · have hle := hwaits.delayed_le hnodup
      have hfree : 0 < u.free threads := EchoServer.pos_of_deliver hstep
      simp only [free] at hfree
      omega
    · obtain ⟨-,-,x,-,⟨hno,-⟩ | ⟨-,hcall,-⟩⟩ := hwaits.heldUp i hi
      · cases hno
      · cases PipeServer.step_cases hstep with
        | deliver hp =>
          simp only [PipeServer.nextCall,hp] at hcall
          cases hcall

end FlushServer
end Winext
