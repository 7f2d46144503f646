import Winext.Lib.Components
import Winext.NamedPipe.Acceptor
import Winext.NamedPipe.EchoSession

/-! Servers on an `io_context` with any number of threads, and of these `server` and
`server_movable`. The handler of an accept, a parameter of the machine, makes its calls one
at a time, and between any two of them clients, the system and the handlers of sessions on
other threads take their steps. -/
namespace Winext
open Lib Details

/-- What an accept handler does beside the calls of `async_accept`. The last two are the
ends of `make_shared`'s temporary and of the handler's parameter. -/
inductive LoopCall
  | server (c : ServerCall)
  | makeSession
  | startSession
  | dropSession
  | dropSocket

@[reducible] def LoopCall.Answer : LoopCall → Type
  | server c => c.Answer
  | makeSession | startSession | dropSession | dropSocket => Unit

abbrev LoopProgram := Program LoopCall LoopCall.Answer

def LoopProgram.ofServer {α : Type} : ServerProgram α → LoopProgram α
  | .done a => .done a
  | .call c next => .call (.server c) fun r => ofServer (next r)

section Loop
open Program (ask)
open LoopCall
variable (o : Overload) (endpoint : String)

/-- `do_accept`. -/
def doAccept : LoopProgram (Except Thrown Unit) := LoopProgram.ofServer (o.asyncAccept endpoint)

/-- The handler passed to `async_accept`. Only that of `server_movable` has a parameter
`socket`, and it ends whether or not `do_accept` throws. -/
def acceptHandler (ec : ErrorCode) : LoopProgram (Except Thrown Unit) := do
  if !ec.failed then
    ask makeSession
    ask startSession
    ask dropSession
  let started ← doAccept o endpoint
  if o = .byMove then
    ask dropSocket
  return started

end Loop

/-- The instances of the endpoint, which their handles number, and what the loop refers
to: its pipe, the handler's `socket`, the session being started, and its OVERLAPPED with
the instance that was connected with it. -/
structure EchoWorld where
  instances : List PipeInstance := []
  lastError : Dword := noError
  pipe : Option ℕ := none
  socket : Option ℕ := none
  starting : Option ℕ := none
  ov : Overlapped := {}
  connecting : Option ℕ := none
  deriving DecidableEq, Repr

namespace EchoWorld

/-- What `ConnectNamedPipe` sets the last error to. -/
def connectError (w : EchoWorld) : Handle → Dword
  | .pipe i =>
    match w.instances[i]?.map PipeInstance.client with
    | some .absent => errorIoPending
    | some .connected => errorPipeConnected
    | some .gone => errorNoData
    | none => errorInvalidHandle
  | _ => errorInvalidHandle

def connectNamedPipe (w : EchoWorld) (hPipe : Handle) : EchoWorld :=
  let e := w.connectError hPipe
  { w with
    lastError := e
    ov := if e = errorIoPending then w.ov.pend else w.ov.refuse e
    connecting := match hPipe with | .pipe i => some i | _ => none }

/-- The calls of an accept are taken not to fail: CreateNamedPipe makes an instance, and
ConnectNamedPipe reports its client, by ERROR_NO_DATA where it has come and gone. -/
def performServer (output : Dword → Dword) : (c : ServerCall) → EchoWorld → c.Answer × EchoWorld
  | .createNamedPipe _ settings, w =>
    (.pipe w.instances.length,
      { w with instances := w.instances ++ [{ messageReadMode := settings.messageReadMode }] })
  | .connectNamedPipe hPipe, w => (false,w.connectNamedPipe hPipe)
  | .getLastError, w => (w.lastError,w)
  | .print _, w => ((),{ w with lastError := output w.lastError })
  | .assign hPipe, w =>
    match w.pipe, hPipe with
    | some _, _ => (.error .alreadyOpen,w)
    | none, .pipe i => (.ok (),{ w with pipe := some i })
    | none, _ => (.error .invalidHandle,w)
  | .overlappedPtr _, w => ((),{ w with ov := {}, connecting := none })
  | .complete ec bytes, w => ((),{ w with ov := w.ov.complete ec bytes })
  | .release, w => ((),{ w with ov := w.ov.release })
  | .selfComplete ec _, w =>
    ((),{ w with ov := { w.ov with delivered := w.ov.delivered ++ [⟨ec,0⟩] } })

def modifyAt (w : EchoWorld) (i : Option ℕ) (f : PipeInstance → PipeInstance) : EchoWorld :=
  match i with
  | some i => { w with instances := w.instances.modify i f }
  | none => w

/-- `std::make_shared<session>(std::move(socket))`, or of `pipe_`. -/
def makeSession (w : EchoWorld) : Overload → EchoWorld
  | .intoPipe => { w.modifyAt w.pipe .makeSession with pipe := none, starting := w.pipe }
  | .byMove => { w.modifyAt w.socket .makeSession with socket := none, starting := w.socket }

def perform (output : Dword → Dword) (o : Overload) :
    (c : LoopCall) → EchoWorld → c.Answer × EchoWorld
  | .server c, w => w.performServer output c
  | .makeSession, w => ((),w.makeSession o)
  | .startSession, w => ((),w.modifyAt w.starting .startSession)
  | .dropSession, w => ((),{ w.modifyAt w.starting .dropSession with starting := none })
  | .dropSocket, w => ((),{ w.modifyAt w.socket .close with socket := none })

/-- The handler of a move is given the loop's pipe in its parameter. -/
def handPipe (w : EchoWorld) : Overload → EchoWorld
  | .intoPipe => w
  | .byMove => { w with socket := w.pipe, pipe := none }

/-- A client that connects ends the connect that is pending on its instance, which is taken
not to end otherwise. -/
def afterStep (w : EchoWorld) (i : ℕ) (l : PipeStep) : EchoWorld :=
  if l = .clientConnects ∧ w.connecting = some i then
    { w with ov := (w.ov.finish noError 0 (w.pipe = some i)).getD w.ov }
  else w

end EchoWorld

/-- A server, with what the handler of its accept has left to do. -/
structure PipeServer (α : Type) where
  world : EchoWorld
  program : LoopProgram α

namespace PipeServer
variable {α : Type}

/-- The threads that the accept handler takes up. -/
def busy (s : PipeServer α) : ℕ :=
  match s.program with
  | .done _ => 0
  | .call _ _ => 1

/-- The call that the accept handler makes next. -/
def nextCall (s : PipeServer α) : Option LoopCall :=
  match s.program with
  | .done _ => none
  | .call c _ => some c

inductive Act
  | accept
  | deliver
  | pipe (i : ℕ) (l : PipeStep)
  deriving DecidableEq, Repr

section Step
variable (threads : ℕ) (output : Dword → Dword) (o : Overload)
variable (handler : ErrorCode → LoopProgram α)

/-- The next call of the accept handler, the start of one, or a step at an instance. A
handler runs where a thread is free. -/
def step (s : PipeServer α) : Act → Option (PipeServer α)
  | .accept =>
    match s.program with
    | .done _ => none
    | .call c next =>
      let r := s.world.perform output o c
      some ⟨r.2,next r.1⟩
  | .deliver =>
    if s.busy = 0 ∧ 0 < threads then
      s.world.ov.deliver.map fun d =>
        ⟨({ s.world with ov := d.2 }).handPipe o,handler d.1.ec⟩
    else none
  | .pipe i l =>
    if l = .runHandler ∧ threads ≤ s.busy then none
    else (stepAt s.world.instances i (PipeInstance.step l)).map fun xs =>
      { s with world := ({ s.world with instances := xs }).afterStep i l }

def machine : Machine (PipeServer α) Act := ⟨step threads output o handler⟩

/-- All that one step of a server can be. -/
inductive Moves (s : PipeServer α) : Act → PipeServer α → Prop
  | accept {c : LoopCall} {next : c.Answer → LoopProgram α} (hp : s.program = .call c next) :
    Moves s .accept ⟨(s.world.perform output o c).2,next (s.world.perform output o c).1⟩
  | deliver {a : α} {d : Packet × Overlapped} (hp : s.program = .done a)
    (hd : s.world.ov.deliver = some d) : Moves s .deliver
      ⟨({ s.world with ov := d.2 }).handPipe o,handler d.1.ec⟩
  | pipe {i : ℕ} {k : PipeStep} {xs : List PipeInstance}
    (hfree : k = .runHandler → s.busy < threads)
    (hxs : stepAt s.world.instances i (PipeInstance.step k) = some xs) : Moves s (.pipe i k)
      ⟨({ s.world with instances := xs }).afterStep i k,s.program⟩

variable {threads output o handler} {s t : PipeServer α}

theorem step_cases {l : Act} (h : (machine threads output o handler).step s l = some t) :
    Moves threads output o handler s l t := by
  obtain ⟨w,p⟩ := s
  cases l with
  | accept =>
    cases p with
    | done a => cases h
    | call c next =>
      cases h
      exact .accept rfl
  | deliver =>
    cases p with
    | call c next => simp [machine,step,busy] at h
    | done a =>
      simp only [machine,step] at h
      split_ifs at h
      obtain ⟨d,hd,rfl⟩ := Option.map_eq_some_iff.mp h
      exact .deliver rfl hd
  | pipe i k =>
    simp only [machine,step] at h
    split_ifs at h with hbusy
    obtain ⟨xs,hxs,rfl⟩ := Option.map_eq_some_iff.mp h
    exact .pipe (fun hk => Nat.lt_of_not_le fun hle => hbusy ⟨hk,hle⟩) hxs

lemma deliver_of_done {a : α} {d : Packet × Overlapped} (hthreads : 0 < threads)
    (hp : s.program = .done a) (hd : s.world.ov.deliver = some d) :
    (machine threads output o handler).step s .deliver =
      some ⟨({ s.world with ov := d.2 }).handPipe o,handler d.1.ec⟩ := by
  obtain ⟨w,p⟩ := s
  cases hp
  simp only [machine,step,busy]
  rw [if_pos ⟨trivial,hthreads⟩,hd]
  rfl

end Step
end PipeServer

/-- `server` or `server_movable`. -/
abbrev EchoServer := PipeServer (Except Thrown Unit)

namespace EchoServer

/-- The constructor calls `do_accept`. -/
def start (o : Overload) (endpoint : String) : EchoServer := ⟨{},doAccept o endpoint⟩

abbrev machine (threads : ℕ) (output : Dword → Dword) (o : Overload) (endpoint : String) :
    Machine EchoServer PipeServer.Act :=
  PipeServer.machine threads output o (acceptHandler o endpoint)

end EchoServer
end Winext
