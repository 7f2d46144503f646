import Winext.Lib.MessageQueue
import Winext.NamedPipe.ServerDetails

/-! `session` of the echo servers, and the instance of the pipe it owns between the client
and the completion port. -/
namespace Winext
open Lib Details

/-- `max_length`. -/
def maxLength : ℕ := 1024

/-- What a session has asked of the system. An operation that has ended waits for its
handler; a handler that starts nothing more leaves the session `stopped`. -/
inductive SessionOp
  | idle
  | reading
  | readEnded (ec : ErrorCode) (length : ℕ)
  | writing (length done : ℕ)
  | writeEnded (ec : ErrorCode)
  | stopped
  deriving DecidableEq, Repr

/-- The handler of an operation holds a reference to its session. -/
def SessionOp.holds : SessionOp → Bool
  | idle | stopped => false
  | reading | readEnded _ _ | writing _ _ | writeEnded _ => true

/-- `temporary` is the reference returned by `make_shared`, until the end of its expression.
`data_` has no initialiser, and only what a read has put there is ever written. -/
structure Session where
  data : List UInt8 := List.replicate maxLength 0
  op : SessionOp := .idle
  temporary : Bool := true
  deriving DecidableEq, Repr

namespace Session

def held (s : Session) : Bool := s.temporary || s.op.holds

def doRead (s : Session) : Session := { s with op := .reading }

/-- `async_write` of an empty buffer is a no-op that succeeds. -/
def doWrite (s : Session) (length : ℕ) : Session :=
  { s with op := if length = 0 then .writeEnded {} else .writing length 0 }

def start (s : Session) : Session := s.doRead

/-- The two handlers. -/
def handler (s : Session) : Option Session :=
  match s.op with
  | .readEnded ec length => some (if ec.failed then { s with op := .stopped } else s.doWrite length)
  | .writeEnded ec => some (if ec.failed then { s with op := .stopped } else s.doRead)
  | _ => none

/-- `net::buffer(data_, length)` without what is already written. -/
def unwritten (s : Session) (length done : ℕ) : List UInt8 := (s.data.take length).drop done

end Session

inductive Peer
  | absent
  | connected
  | gone
  deriving DecidableEq, Repr

/-- One instance of the pipe. `sent` and `written` are all that the client and the server
have written to it; `failed` records an operation that the system has failed. -/
structure PipeInstance where
  messageReadMode : Bool
  client : Peer := .absent
  sent : List (List UInt8) := []
  unread : List (List UInt8) := []
  written : List UInt8 := []
  failed : Bool := false
  session : Option Session := none
  closed : Bool := false
  deriving DecidableEq, Repr

/-- What happens to an instance beside the calls of the accept loop. -/
inductive PipeStep
  | clientConnects
  | clientWrites (message : List UInt8)
  | clientDisconnects
  | readEnds
  | writes (count : ℕ)
  | fails (error : Dword)
  | runHandler
  deriving DecidableEq, Repr

namespace PipeInstance

/-- A session that nothing refers to is destroyed, and closes its pipe. -/
def keep (x : PipeInstance) (s : Session) : PipeInstance :=
  { x with session := some s, closed := x.closed || !s.held }

/-- The constructor of `session` takes the pipe. -/
def makeSession (x : PipeInstance) : PipeInstance := { x with session := some {} }

def startSession (x : PipeInstance) : PipeInstance :=
  { x with session := x.session.map Session.start }

def dropSession (x : PipeInstance) : PipeInstance :=
  match x.session with
  | some s => x.keep { s with temporary := false }
  | none => x

def close (x : PipeInstance) : PipeInstance := { x with closed := true }

/-- A read that a message does not fit ends with as much of it as does, and an error. -/
def readEnds (x : PipeInstance) (s : Session) : Option PipeInstance :=
  (readQueue x.messageReadMode maxLength x.unread).map fun (bytes,more,rest) =>
    { x with
      unread := rest
      session := some { s with
        data := bytes ++ s.data.drop bytes.length
        op := .readEnded ⟨if more then errorMoreData else noError⟩ bytes.length } }

/-- `async_write` goes on until the whole buffer is written. The pipe has room for it: its
quota, for which `accept_detail2` gives 512 characters, is taken to be unlimited. -/
def writes (x : PipeInstance) (s : Session) (length done count : ℕ) : PipeInstance :=
  { x with
    written := x.written ++ (s.unwritten length done).take count
    session := some { s with
      op := if done + count = length then .writeEnded {} else .writing length (done + count) } }

/-- A write can end whether or not the client has read what was written before. -/
def step (l : PipeStep) (x : PipeInstance) : Option PipeInstance :=
  match l, x.session with
  | .clientConnects, _ =>
    if x.client = .absent ∧ !x.closed then some { x with client := .connected } else none
  | .clientWrites message, _ =>
    if x.client = .connected ∧ !x.closed ∧ message ≠ [] then
      some { x with sent := x.sent ++ [message], unread := x.unread ++ [message] }
    else none
  | .clientDisconnects, _ =>
    if x.client = .connected then some { x with client := .gone } else none
  | .readEnds, some s => if s.op = .reading then x.readEnds s else none
  | .writes count, some s =>
    match s.op with
    | .writing length done =>
      if 0 < count ∧ done + count ≤ length then some (x.writes s length done count) else none
    | _ => none
  | .fails error, some s =>
    if error = noError then none
    else match s.op with
    | .reading => some { x with failed := true, session := some { s with op := .readEnded ⟨error⟩ 0 } }
    | .writing _ _ => some { x with failed := true, session := some { s with op := .writeEnded ⟨error⟩ } }
    | _ => none
  | .runHandler, some s => s.handler.map x.keep
  | _, none => none

lemma dropSession_op (x : PipeInstance) :
    x.dropSession.session.map Session.op = x.session.map Session.op := by
  cases hs : x.session <;> simp [dropSession,keep,hs]

/-- The steps of an instance: its client's, and those of the session's operation. -/
inductive Steps (x : PipeInstance) : PipeStep → PipeInstance → Prop
  | client {l : PipeStep} (peer : Peer) (messages : List (List UInt8)) (hl : l ≠ .runHandler)
    (hpeer : x.client = .gone → peer = .gone) (hsent : ∀ m ∈ messages, l = .clientWrites m) :
    Steps x l { x with
      client := peer, sent := x.sent ++ messages, unread := x.unread ++ messages }
  | readEnds {s : Session} {y : PipeInstance} (hs : x.session = some s) (hop : s.op = .reading)
    (hy : x.readEnds s = some y) : Steps x .readEnds y
  | writes {s : Session} {length done count : ℕ} (hs : x.session = some s)
    (hop : s.op = .writing length done) : Steps x (.writes count) (x.writes s length done count)
  | readFails {s : Session} {error : Dword} (hs : x.session = some s) (hop : s.op = .reading) :
    Steps x (.fails error)
      { x with failed := true, session := some { s with op := .readEnded ⟨error⟩ 0 } }
  | writeFails {s : Session} {error : Dword} {length done : ℕ} (he : error ≠ noError)
    (hs : x.session = some s) (hop : s.op = .writing length done) : Steps x (.fails error)
      { x with failed := true, session := some { s with op := .writeEnded ⟨error⟩ } }
  | runHandler {s t : Session} (hs : x.session = some s) (ht : s.handler = some t) :
    Steps x .runHandler (x.keep t)

theorem step_cases {x y : PipeInstance} {l : PipeStep} (h : step l x = some y) : Steps x l y := by
  cases l with
  | clientConnects =>
    simp only [step] at h
    split_ifs at h with hc
    cases h
    simpa using Steps.client .connected [] (by simp) (by simp [hc.1]) (by simp)
  | clientWrites message =>
    simp only [step] at h
    split_ifs at h
    cases h
    exact Steps.client x.client [message] (by simp) id (by simp)
  | clientDisconnects =>
    simp only [step] at h
    split_ifs at h
    cases h
    simpa using Steps.client .gone [] (by simp) (fun _ => rfl) (by simp)
  | readEnds =>
    cases hs : x.session with
    | none => simp [step,hs] at h
    | some s =>
      simp only [step,hs] at h
      split_ifs at h with hop
      exact .readEnds hs hop h
  | writes count =>
    cases hs : x.session with
    | none => simp [step,hs] at h
    | some s =>
      cases hop : s.op with
      | writing length done =>
        simp only [step,hs,hop] at h
        split_ifs at h
        cases h
        exact .writes hs hop
      | idle | reading | readEnded | writeEnded | stopped => simp [step,hs,hop] at h
  | fails error =>
    cases hs : x.session with
    | none => simp [step,hs] at h
    | some s =>
      simp only [step,hs] at h
      split_ifs at h with he
      cases hop : s.op with
      | reading =>
        simp only [hop] at h
        cases h
        exact .readFails hs hop
      | writing length done =>
        simp only [hop] at h
        cases h
        exact .writeFails he hs hop
      | idle | readEnded | writeEnded | stopped => simp [hop] at h
  | runHandler =>
    cases hs : x.session with
    | none => simp [step,hs] at h
    | some s =>
      simp only [step,hs] at h
      obtain ⟨t,ht,rfl⟩ := Option.map_eq_some_iff.mp h
      exact .runHandler hs ht

/-- The session's read is with the system, and the client has left nothing for it. -/
def WaitsForMore (x : PipeInstance) : Prop :=
  x.session.map Session.op = some .reading ∧ x.unread = []

/-- The session has ended by itself. -/
def Ended (x : PipeInstance) : Prop :=
  x.session.map Session.op = some .stopped ∧ x.client ≠ .gone ∧ x.failed = false

/-- The bytes written to the pipe are the beginning of what its client wrote, and all of
it when the session waits for more or has ended by itself. -/
structure Echoes (x : PipeInstance) : Prop where
  begins : x.written <+: x.sent.flatten
  waiting : x.WaitsForMore → x.written = x.sent.flatten
  ended : x.Ended → x.written = x.sent.flatten

end PipeInstance
end Winext
