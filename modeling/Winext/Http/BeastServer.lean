import Winext.Lib.Components
import Winext.Lib.Machine
import Winext.Windows
import Winext.Http.Convert

/-! `http_connection` and `http_server` of `beast_server`: each client of the pipe is read one
request from and written one response, under a deadline. All handlers run on one thread. -/
namespace Winext.Beast
open Lib Http

/-- A request method: `get`, or another one by its name. -/
inductive Verb
  | get
  | other (methodString : Bytes)
  deriving DecidableEq, Repr

structure Request where
  version : ℕ := 11
  method : Verb := .get
  target : Bytes := []
  deriving DecidableEq, Repr

inductive Status
  | ok
  | badRequest
  | notFound
  deriving DecidableEq, Repr

structure Response where
  version : ℕ := 11
  keepAlive : Bool := true
  result : Status := .ok
  server : Option Bytes := none
  contentType : Option Bytes := none
  contentLength : Option ℕ := none
  body : Bytes := []
  deriving DecidableEq, Repr

def text (s : String) : Bytes := SimpleRequest.text s

/-- `beast::ostream(response_.body())`. -/
def Response.write (r : Response) (s : Bytes) : Response := { r with body := r.body ++ s }

/-- `request_count`, with its static `count`. -/
def requestCount (count : UInt64) : UInt64 := count + 1

def countPage (count : UInt64) : Bytes :=
  text "<html>\n" ++ text "<head><title>Request count</title></head>\n" ++ text "<body>\n" ++
    text "<h1>Request count</h1>\n" ++ text "<p>There have been " ++ text (toString count.toNat) ++
    text " requests so far.</p>\n" ++ text "</body>\n" ++ text "</html>\n"

def timePage (now : Int) : Bytes :=
  text "<html>\n" ++ text "<head><title>Current time</title></head>\n" ++ text "<body>\n" ++
    text "<h1>Current time</h1>\n" ++ text "<p>The current time is " ++ text (toString now) ++
    text " seconds since the epoch.</p>\n" ++ text "</body>\n" ++ text "</html>\n"

/-- `create_response`, with what `request_count` leaves. -/
def createResponse (request : Request) (response : Response) (now : Int) (count : UInt64) :
    Response × UInt64 :=
  if request.target = text "/count" then
    (({ response with contentType := some (text "text/html") }).write
      (countPage (requestCount count)),requestCount count)
  else if request.target = text "/time" then
    (({ response with contentType := some (text "text/html") }).write (timePage now),count)
  else
    (({ response with result := .notFound, contentType := some (text "text/plain") }).write
      (text "File not found\r\n"),count)

/-- `process_request`, as far as `write_response` sets the length. -/
def processRequest (request : Request) (response : Response) (now : Int) (count : UInt64) :
    Response × UInt64 :=
  let response := { response with version := request.version, keepAlive := false }
  let made :=
    match request.method with
    | .get =>
      createResponse request { response with result := .ok, server := some (text "Beast") } now count
    | .other methodString =>
      (({ response with result := .badRequest, contentType := some (text "text/plain") }).write
        (text "Invalid request-method '" ++ methodString ++ text "'"),count)
  ({ made.1 with contentLength := some made.1.body.length },made.2)

/-- An asynchronous operation; one that has `ended` waits for its handler. -/
inductive Op (α : Type)
  | idle
  | pending
  | ended (a : α)
  | handled (a : α)
  deriving DecidableEq, Repr

namespace Op
variable {α : Type}

/-- The handler, which has captured `self`, is still to run. -/
def waits : Op α → Bool
  | pending | ended _ => true
  | idle | handled _ => false

/-- `cancel` of the timer: a wait that has ended already is not cancelled. -/
def cancel : Op ErrorCode → Op ErrorCode
  | pending => ended ⟨errorOperationAborted⟩
  | o => o

end Op

/-- The pipe of a connection. The destructor waits in FlushFileBuffers until the client has
read what was written. -/
inductive Socket
  | opened
  | flushing
  | closed
  deriving DecidableEq, Repr

/-- `client` is whether the client still has its end, and `unread` how many bytes it has left
to read once the write has ended. -/
structure Connection where
  read : Op (ErrorCode × Request) := .idle
  write : Op ErrorCode := .idle
  deadline : Op ErrorCode := .idle
  response : Response := {}
  socket : Socket := .opened
  client : Bool := true
  unread : ℕ := 0
  deriving DecidableEq, Repr

namespace Connection

/-- `start()`. -/
def start : Connection := { read := .pending, deadline := .pending }

/-- Some handler holds a reference to the connection. -/
def held (x : Connection) : Bool := x.read.waits || x.write.waits || x.deadline.waits

/-- A handler has returned. If it held the last reference, the connection is destroyed, and an
open pipe is flushed and closed. -/
def release (x : Connection) : Connection :=
  if x.held || x.socket != .opened then x
  else { x with socket := if 0 < x.unread ∧ x.client = true then .flushing else .closed }

/-- The handler of `async_read`, with what it makes of `request_count`. -/
def onRead (x : Connection) (now : Int) (count : UInt64) : Option (Connection × UInt64) :=
  match x.read with
  | .ended (ec,request) =>
    let x := { x with read := .handled (ec,request) }
    if ec.failed then some (x.release,count)
    else
      let made := processRequest request x.response now count
      some ({ x with response := made.1, write := .pending }.release,made.2)
  | _ => none

/-- The handler of `async_write`. -/
def onWrite (x : Connection) : Option Connection :=
  match x.write with
  | .ended ec => some { x with write := .handled ec, deadline := x.deadline.cancel }.release
  | _ => none

/-- The handler of `deadline_.async_wait`. -/
def onDeadline (x : Connection) : Option Connection :=
  match x.deadline with
  | .ended ec =>
    some { x with
      deadline := .handled ec
      socket := if ec.failed then x.socket else .closed }.release
  | _ => none

/-- An operation on a pipe that was closed fails. -/
def readEnds (x : Connection) (ec : ErrorCode) (request : Request) : Option Connection :=
  if x.read = .pending ∧ (x.socket = .closed → ec.failed = true) then
    some { x with read := .ended (ec,request) }
  else none

/-- The response is written in several messages; `unread` is what the client has not read of
them when the last write has ended. -/
def writeEnds (x : Connection) (ec : ErrorCode) (unread : ℕ) : Option Connection :=
  if x.write = .pending ∧ (x.socket = .closed → ec.failed = true) then
    some { x with write := .ended ec, unread := unread }
  else none

def expires (x : Connection) : Option Connection :=
  if x.deadline = .pending then some { x with deadline := .ended {} } else none

/-- The flush ends when there is nothing left to read, or nobody to read it. -/
def flushed (x : Connection) : Connection :=
  if x.socket = .flushing ∧ (x.unread = 0 ∨ x.client = false) then { x with socket := .closed }
  else x

/-- The client reads `n` bytes, of one message or of a part of it. -/
def clientReads (x : Connection) (n : ℕ) : Option Connection :=
  if x.client = true ∧ 0 < n ∧ n ≤ x.unread then some { x with unread := x.unread - n }.flushed
  else none

def clientLeaves (x : Connection) : Option Connection :=
  if x.client then some { x with client := false }.flushed else none

end Connection

/-- `log` has the requests that were processed and the responses made for them, each with its
connection. -/
structure Server where
  conns : List Connection := []
  count : UInt64 := 0
  log : List (ℕ × Request × Response) := []
  deriving DecidableEq, Repr

/-- A step of the system, of a client, or of the thread. -/
inductive Act
  | readEnds (c : ℕ) (ec : ErrorCode) (request : Request)
  | writeEnds (c : ℕ) (ec : ErrorCode) (unread : ℕ)
  | expires (c : ℕ)
  | clientReads (c n : ℕ)
  | clientLeaves (c : ℕ)
  | onAccept (ec : ErrorCode)
  | onRead (c : ℕ) (now : Int)
  | onWrite (c : ℕ)
  | onDeadline (c : ℕ)
  deriving DecidableEq, Repr

/-- The steps that the thread takes. -/
def Act.handler : Act → Bool
  | onAccept _ | onRead _ _ | onWrite _ | onDeadline _ => true
  | readEnds _ _ _ | writeEnds _ _ _ | expires _ | clientReads _ _ | clientLeaves _ => false

namespace Server

/-- The thread is in the destructor of a connection. -/
def blocked (s : Server) : Bool := s.conns.any fun x => x.socket == .flushing

def update (s : Server) (c : ℕ) (f : Connection → Option Connection) : Option Server :=
  (stepAt s.conns c f).map fun xs => { s with conns := xs }

/-- What the request of a connection was answered with, once it was processed. -/
def logged (c : ℕ) (x : Connection) : List (ℕ × Request × Response) :=
  match x.read with
  | .handled (ec,request) => if ec.failed then [] else [(c,request,x.response)]
  | _ => []

/-- After an accept that has failed once it was pending the object is still open, and the next
one ends the program with `already_open`, where the server here goes on. -/
def step (s : Server) (l : Act) : Option Server :=
  if l.handler && s.blocked then none else
    match l with
    | .readEnds c ec request => s.update c fun x => x.readEnds ec request
    | .writeEnds c ec unread => s.update c fun x => x.writeEnds ec unread
    | .expires c => s.update c Connection.expires
    | .clientReads c n => s.update c fun x => x.clientReads n
    | .clientLeaves c => s.update c Connection.clientLeaves
    | .onAccept ec =>
      some (if ec.failed then s else { s with conns := s.conns ++ [.start] })
    | .onRead c now =>
      s.conns[c]?.bind fun x => (x.onRead now s.count).map fun r =>
        { conns := s.conns.set c r.1, count := r.2, log := s.log ++ logged c r.1 }
    | .onWrite c => s.update c Connection.onWrite
    | .onDeadline c => s.update c Connection.onDeadline

def machine : Machine Server Act := ⟨step⟩

end Server

/-- What a step does to a single connection, but for the two handlers that do more. -/
def Act.change : Act → Option (ℕ × (Connection → Option Connection))
  | readEnds c ec request => some (c,fun x => x.readEnds ec request)
  | writeEnds c ec unread => some (c,fun x => x.writeEnds ec unread)
  | expires c => some (c,Connection.expires)
  | clientReads c n => some (c,fun x => x.clientReads n)
  | clientLeaves c => some (c,Connection.clientLeaves)
  | onWrite c => some (c,Connection.onWrite)
  | onDeadline c => some (c,Connection.onDeadline)
  | onAccept _ | onRead _ _ => none

namespace Server

/-- All that one step can be. -/
inductive Moves (s : Server) : Act → Server → Prop
  | change {l : Act} {c : ℕ} {f : Connection → Option Connection} {x y : Connection}
    (hl : l.change = some (c,f)) (hx : s.conns[c]? = some x) (hy : f x = some y) :
    Moves s l { s with conns := s.conns.set c y }
  | refused {ec : ErrorCode} (hec : ec.failed = true) : Moves s (.onAccept ec) s
  | accepted {ec : ErrorCode} (hec : ec.failed = false) :
    Moves s (.onAccept ec) { s with conns := s.conns ++ [.start] }
  | read {c : ℕ} {now : Int} {x y : Connection} {count : UInt64} (hx : s.conns[c]? = some x)
    (hy : x.onRead now s.count = some (y,count)) : Moves s (.onRead c now)
      { conns := s.conns.set c y, count := count, log := s.log ++ logged c y }

theorem step_cases {s t : Server} {l : Act} (h : machine.step s l = some t) :
    (l.handler = true → s.blocked = false) ∧ Moves s l t := by
  simp only [machine,step] at h
  split_ifs at h with hbusy
  have hfree : l.handler = true → s.blocked = false := by
    intro hl
    simpa [hl] using hbusy
  have hchange : ∀ {c : ℕ} {f : Connection → Option Connection}, l.change = some (c,f) →
      s.update c f = some t → Moves s l t := by
    intro c f hl hu
    obtain ⟨xs,hxs,rfl⟩ := Option.map_eq_some_iff.mp hu
    obtain ⟨x,y,hx,hy,rfl⟩ := stepAt_eq_some.mp hxs
    exact .change hl hx hy
  refine ⟨hfree,?_⟩
  cases l with
  | readEnds | writeEnds | expires | clientReads | clientLeaves | onWrite | onDeadline =>
    exact hchange rfl h
  | onAccept ec =>
    cases h
    cases hec : ec.failed with
    | true => exact .refused hec
    | false => exact .accepted hec
  | onRead c now =>
    obtain ⟨x,hx,h⟩ := Option.bind_eq_some_iff.mp h
    obtain ⟨⟨y,count⟩,hy,rfl⟩ := Option.map_eq_some_iff.mp h
    exact .read hx hy

end Server
end Winext.Beast
