import Winext.Lib.Program
import Winext.Windows

/-! `accept_detail2` and the two accept operations built on it, as programs over the
calls they make. Each call is one constructor, so that an environment can put its own
steps between any two of them. -/
namespace Winext.Details
open Lib

structure PipeSettings where
  duplex : Bool
  overlapped : Bool
  messageType : Bool
  messageReadMode : Bool
  wait : Bool
  instances : ℕ
  outBufferSize : ℕ
  inBufferSize : ℕ
  timeout : ℕ
  deriving DecidableEq, Repr

def bufsize : ℕ := 512

/-- Message mode in both directions, overlapped, with an unlimited number of instances. -/
def serverPipeSettings : PipeSettings where
  duplex := true
  overlapped := true
  messageType := true
  messageReadMode := true
  wait := true
  instances := 255
  -- sizeof(TCHAR) is one, as the name is a string of CHAR
  outBufferSize := bufsize
  inBufferSize := bufsize
  timeout := 0

inductive Thrown
  | alreadyOpen
  | invalidHandle
  deriving DecidableEq, Repr

/-- The calls made by the accept operations. `overlappedPtr` is the construction of the
local `optr`; its flag says whether the captured handler moves the pipe out. -/
inductive ServerCall
  | createNamedPipe (endpoint : String) (settings : PipeSettings)
  | connectNamedPipe (hPipe : Handle)
  | getLastError
  | print (text : String)
  | assign (hPipe : Handle)
  | overlappedPtr (movesPipe : Bool)
  | complete (ec : ErrorCode) (bytes : ℕ)
  | release
  | selfComplete (ec : ErrorCode) (movesPipe : Bool)

@[reducible] def ServerCall.Answer : ServerCall → Type
  | createNamedPipe _ _ => Handle
  | connectNamedPipe _ => Bool
  | getLastError => Dword
  | assign _ => Except Thrown Unit
  | print _ | overlappedPtr _ | complete _ _ | release | selfComplete _ _ => Unit

abbrev ServerProgram := Program ServerCall ServerCall.Answer

open Program (ask)
open ServerCall

/-- The reference arguments `pipe_ret` and `ret` are passed in and returned. -/
def acceptDetail2 (pipeRet : Handle) (endpoint : String) (ret : ErrorCode) :
    ServerProgram (Handle × ErrorCode) := do
  let hPipe : Handle ← ask (createNamedPipe endpoint serverPipeSettings)
  if hPipe = .invalidHandleValue then
    let shown : Dword ← ask getLastError
    ask (print s!"CreateNamedPipe failed with {shown.toInt32}.\n")
    let lastError : Dword ← ask getLastError
    return (pipeRet,⟨lastError⟩)
  let fConnected : Bool ← ask (connectNamedPipe hPipe)
  if fConnected then
    -- an overlapped ConnectNamedPipe should return zero
    let shown : Dword ← ask getLastError
    ask (print s!"ConnectNamedPipe failed with {shown.toInt32}.\n")
    let lastError : Dword ← ask getLastError
    return (hPipe,⟨lastError⟩)
  let reason : Dword ← ask getLastError
  if reason = errorIoPending then
    return (hPipe,ret)
  else if reason = errorPipeConnected then
    ask (print "pipe already connected\n")
    let lastError : Dword ← ask getLastError
    return (hPipe,⟨lastError⟩)
  else
    let shown : Dword ← ask getLastError
    ask (print s!"Some named pipe op failed with {shown.toInt32}.\n")
    let lastError : Dword ← ask getLastError
    return (hPipe,⟨lastError⟩)

/-- The branches of both `operator()`s after `accept_detail2`. An exception thrown by
`assign` leaves the operator and destroys `optr`. -/
def handOver (hPipe : Handle) (ec : ErrorCode) : ServerProgram (Except Thrown Unit) := do
  if ec.failed then
    if ec.value = errorPipeConnected then
      let assigned : Except Thrown Unit ← ask (assign hPipe)
      match assigned with
      | .error thrown => return .error thrown
      | .ok () =>
        ask (complete {} 0)
        return .ok ()
    else
      ask (print s!"accept_detail2 failed:{ec.value}\n")
      ask (complete ec 0)
      return .ok ()
  else
    let assigned : Except Thrown Unit ← ask (assign hPipe)
    match assigned with
    | .error thrown => return .error thrown
    | .ok () =>
      ask release
      return .ok ()

/-- The text of both `operator()`s, which differ in whether the handler takes the pipe. -/
def acceptOperator (movesPipe : Bool) (endpoint : String) (ec : ErrorCode) :
    ServerProgram (Except Thrown Unit) := do
  if ec.failed then
    ask (selfComplete ec movesPipe)
    return .ok ()
  ask (overlappedPtr movesPipe)
  let out ← acceptDetail2 .null endpoint ec
  handOver out.1 out.2

/-- `async_move_accept_op::operator()`: the handler is given `std::move(*pipe_)`. -/
def asyncMoveAcceptOp (endpoint : String) (ec : ErrorCode) : ServerProgram (Except Thrown Unit) :=
  acceptOperator true endpoint ec

/-- `async_accept_op::operator()`: the handler is given the error code alone. -/
def asyncAcceptOp (endpoint : String) (ec : ErrorCode) : ServerProgram (Except Thrown Unit) :=
  acceptOperator false endpoint ec

end Winext.Details
