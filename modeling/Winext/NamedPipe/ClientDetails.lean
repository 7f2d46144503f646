import Winext.NamedPipe.ServerDetails

/-! `client_connect` and `client_named_pipe::connect`, as programs over the calls they make. -/
namespace Winext.Details
open Lib

/-- The arguments of `CreateFile` beside the name. -/
structure FileSettings where
  genericRead : Bool
  genericWrite : Bool
  shareMode : ℕ
  openExisting : Bool
  overlapped : Bool
  deriving DecidableEq, Repr

def clientFileSettings : FileSettings where
  genericRead := true
  genericWrite := true
  shareMode := 0
  openExisting := true
  overlapped := true

/-- The calls made by `connect`; the last three are to the object's base class. -/
inductive ClientCall
  | createFile (endpoint : String) (settings : FileSettings)
  | getLastError
  | waitNamedPipe (endpoint : String) (timeout : Dword)
  | print (text : String)
  | setNamedPipeHandleState (hPipe : Handle) (messageReadMode : Bool)
  | isOpen
  | close
  | assign (hPipe : Handle)

@[reducible] def ClientCall.Answer : ClientCall → Type
  | createFile _ _ => Handle
  | getLastError => Dword
  | waitNamedPipe _ _ | setNamedPipeHandleState _ _ | isOpen => Bool
  | print _ | close => Unit
  | assign _ => Except Thrown Unit

abbrev ClientProgram := Program ClientCall ClientCall.Answer

open Program (ask)
open ClientCall

/-- How the loop of `client_connect` is left: by `break`, with the two locals it has set,
or by `return`. -/
inductive LoopExit
  | broke (hPipe : Handle) (lastError : Dword)
  | returned (ec : ErrorCode)
  deriving DecidableEq, Repr

/-- One turn of the loop. What the next turn finds of this one is `last_error`. -/
def connectTurn (endpoint : String) (timeoutMs : Int32) (lastError : Dword) :
    ClientProgram (Dword ⊕ LoopExit) := do
  let hPipe : Handle ← ask (createFile endpoint clientFileSettings)
  if hPipe ≠ .invalidHandleValue then
    return .inr (.broke hPipe lastError)
  let lastError : Dword ← ask getLastError
  if lastError ≠ errorPipeBusy then
    return .inr (.returned ⟨lastError⟩)
  let waited : Bool ← ask (waitNamedPipe endpoint timeoutMs.toUInt32)
  if !waited then
    ask (print s!"Could not open pipe: {timeoutMs / 1000} second wait timed out.")
    let lastError : Dword ← ask getLastError
    return .inr (.returned ⟨lastError⟩)
  return .inl lastError

/-- The reference arguments `ec` and `pipe_ret` are passed in and returned, and the
variable `last_error`, which has no initialiser, is passed what it happens to hold. The
loop has no bound of its own; here it is cut after `turns` turns. -/
def clientConnect (turns : ℕ) (lastError : Dword) (ec : ErrorCode) (pipeRet : Handle)
    (endpoint : String) (timeoutMs : Int32) : ClientProgram (Option (ErrorCode × Handle)) := do
  let left ← Program.loop (connectTurn endpoint timeoutMs) turns lastError
  match left with
  | none => return none
  | some (.returned ec) => return some (ec,pipeRet)
  | some (.broke hPipe lastError) =>
    let fSuccess : Bool ← ask (setNamedPipeHandleState hPipe true)
    if !fSuccess then
      -- `last_error` is not read again after this call
      return some (⟨lastError⟩,pipeRet)
    return some (ec,hPipe)

/-- `client_named_pipe::connect`: the error code after the call, and what it threw. -/
def connect (turns : ℕ) (lastError : Dword) (endpoint : String) (ec : ErrorCode)
    (timeoutMs : Int32) : ClientProgram (Option (ErrorCode × Except Thrown Unit)) := do
  let opened : Bool ← ask isOpen
  if opened then
    ask close
  let out ← clientConnect turns lastError ec .null endpoint timeoutMs
  match out with
  | none => return none
  | some (ec,hPipe) =>
    if ec.failed then
      return some (ec,.ok ())
    let assigned : Except Thrown Unit ← ask (assign hPipe)
    return some (ec,assigned)

end Winext.Details
