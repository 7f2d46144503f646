import Winext.NamedPipe.ClientDetails

/-! The two clients of the echo servers, `make_client_call` of the tests and `main` of the
example, as programs over the calls that they, `net::write` and `net::read` make. -/
namespace Winext
open Lib Details

/-- Beside the calls of `connect`: WriteFile and ReadFile on the object's handle, and the
end of the object. -/
inductive TalkCall
  | connect (c : ClientCall)
  | writeSome (bytes : List UInt8)
  | readSome (size : ℕ)
  | destroy

@[reducible] def TalkCall.Answer : TalkCall → Type
  | connect c => c.Answer
  | writeSome _ => ErrorCode × ℕ
  | readSome _ => ErrorCode × List UInt8
  | destroy => Unit

abbrev TalkProgram := Program TalkCall TalkCall.Answer

def TalkProgram.ofClient {α : Type} : ClientProgram α → TalkProgram α :=
  Program.mapCalls .connect fun _ => id

namespace EchoClient
open Program (ask)
open TalkCall

def pipeName : String := "\\\\.\\pipe\\mynamedpipe"

/-- `max_length`, of both clients. -/
def maxLength : ℕ := 1024

/-- What `net::write` and `net::read` transfer at most in one call. -/
def maxTransfer : ℕ := 65536

/-- One turn of `net::write`, with the bytes that are left. -/
def writeTurn (left : List UInt8) : TalkProgram (List UInt8 ⊕ ErrorCode) := do
  if left = [] then
    return .inr {}
  let wrote : ErrorCode × ℕ ← ask (writeSome (left.take maxTransfer))
  if wrote.1.failed then
    return .inr wrote.1
  return .inl (left.drop wrote.2)

/-- One turn of `net::read`, with what it has read and how much is left to read. -/
def readTurn (progress : List UInt8 × ℕ) :
    TalkProgram (List UInt8 × ℕ ⊕ ErrorCode × List UInt8) := do
  if progress.2 = 0 then
    return .inr ({},progress.1)
  let got : ErrorCode × List UInt8 ← ask (readSome (min progress.2 maxTransfer))
  if got.1.failed then
    return .inr (got.1,progress.1 ++ got.2)
  return .inl (progress.1 ++ got.2,progress.2 - got.2.length)

/-- How a conversation ends: an error code that is returned or thrown, an exception of
`assign`, or a reply. A reply is indeterminate where bytes are used that were not read. -/
inductive Outcome
  | failed (ec : ErrorCode)
  | thrown (exception : Thrown)
  | replied (reply : List UInt8)
  | indeterminate
  deriving DecidableEq, Repr

/-- `std::string(reply,length)` of an array into which these bytes were read. -/
def stringOf (reply : List UInt8) (length : ℕ) : Outcome :=
  if length ≤ reply.length then .replied (reply.take length) else .indeterminate

/-- Connect, write the message and read as many bytes into an array of `max_length`. Both
clients go on from a call only when it has succeeded. The loops are cut after `turns`
turns; `connect` begins with a clear error code. -/
def converse (turns : ℕ) (lastError : Dword) (timeoutMs : Int32) (msg : List UInt8) :
    TalkProgram (Option (ErrorCode × List UInt8 ⊕ Thrown)) := do
  let connected ← TalkProgram.ofClient (connect turns lastError pipeName {} timeoutMs)
  match connected with
  | none => return none
  | some (_,.error exception) => return some (.inr exception)
  | some (ec,.ok ()) =>
    if ec.failed then
      return some (.inl (ec,[]))
    let written ← Program.loop writeTurn turns msg
    match written with
    | none => return none
    | some ec =>
      if ec.failed then
        return some (.inl (ec,[]))
      let read ← Program.loop readTurn turns ([],min msg.length maxLength)
      match read with
      | none => return none
      | some out => return some (.inl out)

/-- The object is destroyed however the conversation has ended. -/
def thenDestroy (take : List UInt8 → Outcome)
    (conversation : TalkProgram (Option (ErrorCode × List UInt8 ⊕ Thrown))) :
    TalkProgram (Option Outcome) := do
  let ended ← conversation
  ask destroy
  return ended.map fun
    | .inr exception => .thrown exception
    | .inl (ec,reply) => if ec.failed then .failed ec else take reply

/-- `make_client_call`: it waits for two seconds at most, and takes as many bytes from the
array as it has sent. -/
def makeClientCall (turns : ℕ) (lastError : Dword) (msg : List UInt8) :
    TalkProgram (Option Outcome) :=
  thenDestroy (fun reply => stringOf reply msg.length) (converse turns lastError 2000 msg)

/-- What `std::cin.getline` and `std::strlen` make of a line of input. -/
def requestOf (line : List UInt8) : List UInt8 := (line.take (maxLength - 1)).takeWhile (· ≠ 0)

/-- `main`: the overloads it calls throw the error code, and it writes out what was read. -/
def main (turns : ℕ) (lastError : Dword) (line : List UInt8) : TalkProgram (Option Outcome) :=
  thenDestroy .replied (converse turns lastError 20000 (requestOf line))

/-- Either client, with what it is given to send. -/
inductive Client
  | test (msg : List UInt8)
  | console (line : List UInt8)
  deriving DecidableEq, Repr

def Client.message : Client → List UInt8
  | test msg => msg
  | console line => requestOf line

def Client.program (turns : ℕ) (lastError : Dword) : Client → TalkProgram (Option Outcome)
  | test msg => makeClientCall turns lastError msg
  | console line => main turns lastError line

end EchoClient
end Winext
