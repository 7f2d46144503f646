import Mathlib.Logic.Function.Basic
import Winext.NamedPipe.Acceptor

/-! The handles and the pipe objects of a server process, and one `async_accept` executed
against them with any answers of the operating system. -/
namespace Winext
open Lib Details

/-- CreateNamedPipe has returned the first `created` handles. Pipe objects are
numbered in the order of their construction, and a closed object owns nothing. -/
structure World where
  lastError : Dword := noError
  created : ℕ := 0
  connected : List Handle := []
  closed : List Handle := []
  objects : ℕ := 0
  owner : ℕ → Option Handle := fun _ => none

namespace World

/-- The handle has been returned by CreateNamedPipe and not been closed. -/
def IsOpen (w : World) (h : Handle) : Prop := (∃ n < w.created, h = .pipe n) ∧ h ∉ w.closed

/-- `server_named_pipe(context)`: a new closed object. -/
def construct (w : World) : World := { w with objects := w.objects + 1 }

/-- The move constructor: a new object takes the handle, and the old one is closed. -/
def moveOut (w : World) (p : ℕ) : World :=
  { w with
    objects := w.objects + 1
    owner := Function.update (Function.update w.owner w.objects (w.owner p)) p none }

/-- The destructor closes the handle of an open pipe. -/
def destroy (w : World) (p : ℕ) : World :=
  { w with
    closed := (w.owner p).toList ++ w.closed
    owner := Function.update w.owner p none }

def clientConnects (w : World) (h : Handle) : World := { w with connected := h::w.connected }

end World

/-- What the operating system answers during one accept. The output function is what
printing does to the thread's last error. -/
structure Answers where
  create : Option Dword := none
  connect : Bool := false
  connectError : Dword := errorIoPending
  output : Dword → Dword := id

/-- An accept being executed on one pipe object: what it made, its OVERLAPPED, and what
the pipe owned each time `assign` was called on it. -/
structure Accepting where
  world : World
  answers : Answers
  pipe : ℕ
  movesPipe : Bool := false
  made : Option Handle := none
  assigned : List (Option Handle) := []
  ov : Overlapped := {}

namespace Accepting

/-- ConnectNamedPipe succeeds, or says that the pipe is connected, only with a client. -/
def perform : (c : ServerCall) → Accepting → Option (c.Answer × Accepting)
  | .createNamedPipe _ _, s =>
    match s.answers.create with
    | some e => some (.invalidHandleValue,{ s with world := { s.world with lastError := e } })
    | none => some (.pipe s.world.created,{ s with
        world := { s.world with created := s.world.created + 1 }
        made := some (.pipe s.world.created) })
  | .connectNamedPipe hPipe, s =>
    let e := s.answers.connectError
    let pending := s.answers.connect = false ∧ e = errorIoPending
    let client := s.answers.connect = true ∨ e = errorPipeConnected
    some (s.answers.connect,{ s with
      world := { s.world with
        lastError := e
        connected := if client then hPipe::s.world.connected else s.world.connected }
      ov := if pending then s.ov.pend else s.ov.refuse e })
  | .getLastError, s => some (s.world.lastError,s)
  | .print _, s =>
    some ((),{ s with world := { s.world with lastError := s.answers.output s.world.lastError } })
  | .assign hPipe, s =>
    let t := { s with assigned := s.assigned ++ [s.world.owner s.pipe] }
    match s.world.owner s.pipe, hPipe with
    | some _, _ => some (.error .alreadyOpen,t)
    | none, .pipe _ => some (.ok (),{ t with
        world := { t.world with owner := Function.update t.world.owner t.pipe (some hPipe) } })
    | none, _ => some (.error .invalidHandle,t)
  | .overlappedPtr movesPipe, s => some ((),{ s with movesPipe := movesPipe, ov := {} })
  | .complete ec bytes, s => some ((),{ s with ov := s.ov.complete ec bytes })
  | .release, s => some ((),{ s with ov := s.ov.release })
  | .selfComplete ec movesPipe, s => some ((),{ s with
      movesPipe := movesPipe, ov := { s.ov with delivered := s.ov.delivered ++ [⟨ec,0⟩] } })

end Accepting

def World.asyncAccept (w : World) (endpoint : String) (o : Overload) (p : ℕ) (a : Answers) :
    Option (Except Thrown Unit × Accepting) :=
  (o.asyncAccept endpoint).exec Accepting.perform { world := w, answers := a, pipe := p }

/-- The accept leaves the handle it made with the pipe, or made none: CreateNamedPipe
failed, or the connect is pending, or the last error read after the diagnostic output
says that the client is connected or says nothing. -/
def Answers.Kept (a : Answers) : Prop :=
  a.create ≠ none ∨ (a.connect = false ∧ a.connectError = errorIoPending) ∨
    a.output a.connectError = errorPipeConnected ∨ a.output a.connectError = noError

namespace Accepting
open Details

/-- The state after CreateNamedPipe has made an instance and ConnectNamedPipe has answered. -/
def connecting (s : Accepting) (lastError : Dword) (ov : Overlapped) : Accepting :=
  { s with
    world := { s.world with
      lastError := lastError
      created := s.world.created + 1
      connected :=
        if s.answers.connect = true ∨ s.answers.connectError = errorPipeConnected then
          .pipe s.world.created::s.world.connected
        else s.world.connected }
    made := some (.pipe s.world.created)
    ov := ov }

theorem exec_acceptDetail2_refused (endpoint : String) (s : Accepting) {e : Dword}
    (hc : s.answers.create = some e) :
    (acceptDetail2 .null endpoint {}).exec perform s =
      some ((.null,⟨s.answers.output e⟩),
        { s with world := { s.world with lastError := s.answers.output e } }) := by
  simp [acceptDetail2,Program.exec_call,perform,hc]

theorem exec_acceptDetail2_pending (endpoint : String) (s : Accepting)
    (hc : s.answers.create = none) (hp : s.answers.connect = false)
    (he : s.answers.connectError = errorIoPending) :
    (acceptDetail2 .null endpoint {}).exec perform s =
      some ((.pipe s.world.created,{}),s.connecting errorIoPending s.ov.pend) := by
  simp [acceptDetail2,Program.exec_call,perform,hc,hp,he,connecting]

theorem exec_acceptDetail2_answered (endpoint : String) (s : Accepting)
    (hc : s.answers.create = none)
    (hp : ¬(s.answers.connect = false ∧ s.answers.connectError = errorIoPending)) :
    (acceptDetail2 .null endpoint {}).exec perform s =
      some ((.pipe s.world.created,⟨s.answers.output s.answers.connectError⟩),
        s.connecting (s.answers.output s.answers.connectError)
          (s.ov.refuse s.answers.connectError)) := by
  cases hb : s.answers.connect with
  | true =>
    simp [acceptDetail2,Program.exec_call,perform,hc,hb,connecting]
  | false =>
    have he : s.answers.connectError ≠ errorIoPending := fun he => hp ⟨hb,he⟩
    by_cases hconn : s.answers.connectError = errorPipeConnected
    · simp [acceptDetail2,Program.exec_call,perform,hc,hb,hconn,connecting]
    · simp [acceptDetail2,Program.exec_call,perform,hc,hb,he,hconn,connecting]

def assigning (s : Accepting) (h : Handle) : Accepting :=
  { s with
    assigned := s.assigned ++ [none]
    world := { s.world with owner := Function.update s.world.owner s.pipe (some h) } }

theorem perform_assign {s : Accepting} {n : ℕ} (hp : s.world.owner s.pipe = none) :
    perform (.assign (.pipe n)) s = some (.ok (),s.assigning (.pipe n)) := by
  simp [perform,assigning,hp]

/-- A clear error code: the pipe takes the handle and the OVERLAPPED is released. -/
theorem exec_handOver_clear {s : Accepting} {n : ℕ} (hp : s.world.owner s.pipe = none) :
    (handOver (.pipe n) {}).exec perform s =
      some (.ok (),{ s.assigning (.pipe n) with ov := s.ov.release }) := by
  simp only [handOver,Program.ask_bind,ErrorCode.failed_mk,bne_self_eq_false,Bool.false_eq_true,
    if_false,Program.exec_call]
  rw [perform_assign hp]
  rfl

/-- ERROR_PIPE_CONNECTED: the pipe takes the handle and success is posted. -/
theorem exec_handOver_connected {s : Accepting} {n : ℕ} (hp : s.world.owner s.pipe = none) :
    (handOver (.pipe n) ⟨errorPipeConnected⟩).exec perform s =
      some (.ok (),{ s.assigning (.pipe n) with ov := s.ov.complete {} 0 }) := by
  have hf : (ErrorCode.mk errorPipeConnected).failed = true := by decide
  simp only [handOver,Program.ask_bind,hf,if_true,Program.exec_call]
  rw [perform_assign hp]
  rfl

/-- Any other error: it is posted, and the handle is nobody's. -/
theorem exec_handOver_failed {s : Accepting} {h : Handle} {e : Dword} (h0 : e ≠ noError)
    (hc : e ≠ errorPipeConnected) :
    ∃ e', (handOver h ⟨e⟩).exec perform s =
      some (.ok (),{ s with
        world := { s.world with lastError := e' }, ov := s.ov.complete ⟨e⟩ 0 }) := by
  have hf : (ErrorCode.mk e).failed = true := by simpa [noError] using h0
  simp only [handOver,Program.ask_bind,hf,hc,if_true,if_false,Program.exec_call]
  exact ⟨_,rfl⟩

/-- With the null handle `assign` throws, unless an error is posted. -/
theorem exec_handOver_null {s : Accepting} {e : Dword} (hp : s.world.owner s.pipe = none) :
    (∃ out, (handOver .null ⟨e⟩).exec perform s =
      some (out,{ s with assigned := s.assigned ++ [none] })) ∨
    (e ≠ noError ∧ ∃ e', (handOver .null ⟨e⟩).exec perform s = some (.ok (),{ s with
      world := { s.world with lastError := e' }, ov := s.ov.complete ⟨e⟩ 0 })) := by
  have hassign : perform (.assign .null) s =
      some (.error .invalidHandle,{ s with assigned := s.assigned ++ [none] }) := by
    simp [perform,hp]
  by_cases h0 : e = noError
  · subst e
    have hf : (ErrorCode.mk noError).failed = false := rfl
    refine Or.inl ⟨.error .invalidHandle,?_⟩
    simp only [handOver,Program.ask_bind,hf,Bool.false_eq_true,if_false,Program.exec_call]
    rw [hassign]
    rfl
  by_cases hc : e = errorPipeConnected
  · subst e
    have hf : (ErrorCode.mk errorPipeConnected).failed = true := by decide
    refine Or.inl ⟨.error .invalidHandle,?_⟩
    simp only [handOver,Program.ask_bind,hf,if_true,Program.exec_call]
    rw [hassign]
    rfl
  · exact Or.inr ⟨h0,exec_handOver_failed h0 hc⟩

/-- The OVERLAPPED of an accept whose pipe took the handle. -/
inductive Held (a : Answers) : Overlapped → Prop
  | pending (hp : a.connect = false) (he : a.connectError = errorIoPending) :
    Held a { io := .pending, handedOver := true }
  | connected (hs : a.output a.connectError = errorPipeConnected) :
    Held a { io := .returned a.connectError 0, packets := [⟨{},0⟩], handedOver := true }
  | silent (hs : a.output a.connectError = noError) :
    Held a { io := .returned a.connectError 0, handedOver := true }

/-- All that one `async_accept` on a closed pipe can do. -/
inductive Outcome (w : World) (p : ℕ) (a : Answers) (movesPipe : Bool) : Accepting → Prop
  /-- CreateNamedPipe failed, and an error is posted or `assign` threw on the null handle. -/
  | refused {e e' : Dword} {assigned : List (Option Handle)} {ov : Overlapped}
    (hc : a.create = some e) (hassigned : ∀ x ∈ assigned, x = none)
    (hov : ov = {} ∨ ∃ ec : ErrorCode, ec.failed = true ∧
      ov = { packets := [⟨ec,0⟩], handedOver := true }) :
    Outcome w p a movesPipe
      ⟨{ w with lastError := e' },a,p,movesPipe,none,assigned,ov⟩
  /-- The pipe owns the new instance. -/
  | held {e : Dword} {ov : Overlapped} (hc : a.create = none) (hk : a.Kept) (hov : Held a ov) :
    Outcome w p a movesPipe
      { (connecting ⟨w,a,p,movesPipe,none,[],{}⟩ e {}).assigning (.pipe w.created) with ov := ov }
  /-- An error is posted, and the handle of the new instance was dropped. -/
  | dropped {e : Dword} {ec : ErrorCode} (hc : a.create = none) (hk : ¬a.Kept)
    (hec : ec.failed = true) :
    Outcome w p a movesPipe
      (connecting ⟨w,a,p,movesPipe,none,[],{}⟩ e
        { io := .returned a.connectError 0, packets := [⟨ec,0⟩], handedOver := true })

end Accepting

theorem World.asyncAccept_eq (w : World) (endpoint : String) (o : Overload) (p : ℕ)
    (a : Answers) : w.asyncAccept endpoint o p a =
      ((acceptDetail2 .null endpoint {}).exec Accepting.perform
        ⟨w,a,p,o = .byMove,none,[],{}⟩).bind fun r =>
          (handOver r.1.1 r.1.2).exec Accepting.perform r.2 := by
  rw [World.asyncAccept,o.asyncAccept_eq]
  rw [acceptOperator,if_neg (by decide)]
  simp only [Program.ask_bind,Program.exec_call,Accepting.perform,Option.bind_some]
  rw [Program.exec_bind]

theorem World.asyncAccept_cases {w : World} {endpoint : String} {o : Overload} {p : ℕ}
    {a : Answers} {out : Except Thrown Unit} {t : Accepting} (hp : w.owner p = none)
    (h : w.asyncAccept endpoint o p a = some (out,t)) :
    Accepting.Outcome w p a (o = .byMove) t := by
  rw [World.asyncAccept_eq] at h
  cases hc : a.create with
  | some e =>
    rw [Accepting.exec_acceptDetail2_refused endpoint _ hc] at h
    simp only [Option.bind_some] at h
    rcases Accepting.exec_handOver_null (e := a.output e) (s := ⟨{ w with lastError := a.output e },
      a,p,o = .byMove,none,[],{}⟩) hp with ⟨out',he⟩ | ⟨h0,e',he⟩
    · rw [he] at h
      cases h
      exact .refused hc (by simp) (Or.inl rfl)
    · rw [he] at h
      cases h
      exact .refused hc (by simp) (Or.inr ⟨_,by simpa [noError] using h0,rfl⟩)
  | none =>
    by_cases hpend : a.connect = false ∧ a.connectError = errorIoPending
    · rw [Accepting.exec_acceptDetail2_pending endpoint _ hc hpend.1 hpend.2] at h
      simp only [Option.bind_some] at h
      rw [Accepting.exec_handOver_clear (by exact hp)] at h
      cases h
      exact .held hc (Or.inr (Or.inl hpend)) (.pending hpend.1 hpend.2)
    rw [Accepting.exec_acceptDetail2_answered endpoint _ hc hpend] at h
    simp only [Option.bind_some] at h
    by_cases h0 : a.output a.connectError = noError
    · have hclear : ErrorCode.mk noError = {} := rfl
      rw [h0,hclear] at h
      rw [Accepting.exec_handOver_clear (by exact hp)] at h
      cases h
      exact .held hc (Or.inr (Or.inr (Or.inr h0))) (.silent h0)
    by_cases h1 : a.output a.connectError = errorPipeConnected
    · rw [h1] at h
      rw [Accepting.exec_handOver_connected (by exact hp)] at h
      cases h
      exact .held hc (Or.inr (Or.inr (Or.inl h1))) (.connected h1)
    · obtain ⟨e',he⟩ := Accepting.exec_handOver_failed
        (s := Accepting.connecting ⟨w,a,p,o = .byMove,none,[],{}⟩ (a.output a.connectError)
          (({} : Overlapped).refuse a.connectError)) (h := .pipe w.created) h0 h1
      rw [he] at h
      cases h
      refine .dropped hc ?_ (by simpa [noError] using h0)
      rintro (hk | hk | hk | hk)
      · exact hk hc
      · exact hpend hk
      · exact h1 hk
      · exact h0 hk

end Winext
