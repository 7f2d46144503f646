import Winext.Http.Completion

/-! `http_connection`, and the server that one `start()` grows into: every received request
starts another connection, and the operations of all of them end in any order. -/
namespace Winext.Http
open Lib

def httpSendResponseFlagDisconnect : Dword := 1

/-- How HTTP.sys ends an operation: its status and byte count, and what it has written into
a request buffer or into a body buffer. -/
structure OsResult where
  status : Dword
  bytes : ℕ := 0
  request : HttpRequest := {}
  data : Bytes := []
  deriving DecidableEq, Repr

inductive Callback
  | receiveRequest
  | receiveBody
  | sendResponse
  deriving DecidableEq, Repr

/-- What a connection has done and has been given: a call to HTTP.sys, the end of an
operation, or the invocation of `handler_` on its two arguments, of which it changes one. -/
inductive Event
  | called (c : HttpCall)
  | answered (callback : Callback) (path : Path) (result : OsResult)
  | invoked (request : SimpleRequest) (before after : SimpleResponse)

structure IssuedOp where
  callback : Callback
  ov : Overlapped
  deriving DecidableEq, Repr

structure HttpConnection where
  request : SimpleRequest := {}
  response : SimpleResponse := {}
  ops : List IssuedOp := []
  log : List Event := []

/-- An operation writes into the buffer it was given, and not past its end. -/
def SimpleRequest.written (r : SimpleRequest) (callback : Callback) (result : OsResult) :
    SimpleRequest :=
  match callback with
  | .receiveRequest => { r with request := result.request }
  | .receiveBody =>
    { r with bodyBuffer :=
        result.data.take r.bodyBuffer.length ++ r.bodyBuffer.drop result.data.length }
  | .sendResponse => r

namespace HttpConnection

def answered (x : HttpConnection) (callback : Callback) (path : Path) (result : OsResult) :
    HttpConnection :=
  { x with
    request := x.request.written callback result
    log := x.log ++ [.answered callback path result] }

/-- Start an operation. Unless the system leaves it pending, it ends inside the call. -/
def issue (x : HttpConnection) (callback : Callback) (op : Operation) (result : OsResult) :
    Option HttpConnection :=
  (op.program.exec HttpIo.perform { status := result.status, bytes := result.bytes }).map fun r =>
    let x := { x with
      ops := x.ops ++ [⟨callback,r.2.ov⟩]
      log := x.log ++ r.2.calls.map .called }
    if result.status = errorIoPending then x else x.answered callback .inside result

def receiveRequest (x : HttpConnection) (result : OsResult) : Option HttpConnection :=
  x.issue .receiveRequest (.recieveRequest x.request.request x.request.room) result

def start (result : OsResult) : Option HttpConnection :=
  receiveRequest {} result

def onReceiveRequest (x : HttpConnection) (result : OsResult) : Option HttpConnection :=
  x.issue .receiveBody (.recieveBody x.request.bodyBuffer.length x.request.getRequestId 0) result

/-- What is open when a completion handler runs: how the operation it starts is answered,
how that of a new connection is, and what `handler_` makes of the response. It is given the
request as a constant, and is taken not to write through the pointer of `get_request`. -/
structure Choices where
  next : OsResult
  fresh : OsResult
  handler : SimpleRequest → SimpleResponse → SimpleResponse

def onRecieveBody (x : HttpConnection) (len : ℕ) (a : Choices) : Option HttpConnection :=
  let request := x.request.setBodyLen len
  let response := a.handler request x.response
  let x := { x with
    request := request
    response := response.getResponse
    log := x.log ++ [Event.invoked request x.response response] }
  x.issue .sendResponse (.sendResponse response.getResponse.resp request.getRequestId
    httpSendResponseFlagDisconnect) a.next

/-- The completion handlers: the connection after it, and the one it has started. -/
def complete (x : HttpConnection) (callback : Callback) (ec : ErrorCode) (len : ℕ)
    (a : Choices) : Option (HttpConnection × Option HttpConnection) :=
  match callback with
  | .receiveRequest =>
    if ec.failed then some (x,none)
    else (x.onReceiveRequest a.next).bind fun x => (start a.fresh).map fun y => (x,some y)
  | .receiveBody =>
    if ec.failed then some (x,none)
    else (x.onRecieveBody len a).map fun x => (x,none)
  | .sendResponse => some (x,none)

/-- All that a completion handler can come to. -/
inductive Completes (x : HttpConnection) (a : Choices) :
    Callback → ErrorCode → ℕ → HttpConnection → Option HttpConnection → Prop
  | ends {callback : Callback} {ec : ErrorCode} {len : ℕ}
    (hend : ec.failed = true ∨ callback = .sendResponse) : Completes x a callback ec len x none
  | received {ec : ErrorCode} {len : ℕ} {y f : HttpConnection} (hok : ec.failed = false)
    (hy : x.onReceiveRequest a.next = some y) (hf : start a.fresh = some f) :
    Completes x a .receiveRequest ec len y (some f)
  | readBody {ec : ErrorCode} {len : ℕ} {y : HttpConnection} (hok : ec.failed = false)
    (hy : x.onRecieveBody len a = some y) : Completes x a .receiveBody ec len y none

theorem complete_cases {x y : HttpConnection} {callback : Callback} {ec : ErrorCode} {len : ℕ}
    {a : Choices} {spawned : Option HttpConnection}
    (h : x.complete callback ec len a = some (y,spawned)) :
    Completes x a callback ec len y spawned := by
  cases callback with
  | receiveRequest =>
    simp only [complete] at h
    split_ifs at h with hec
    · cases h
      exact .ends (Or.inl hec)
    · obtain ⟨x',hx',h⟩ := Option.bind_eq_some_iff.mp h
      obtain ⟨f,hf,h⟩ := Option.map_eq_some_iff.mp h
      cases h
      exact .received ((Bool.not_eq_true _).mp hec) hx' hf
  | receiveBody =>
    simp only [complete] at h
    split_ifs at h with hec
    · cases h
      exact .ends (Or.inl hec)
    · obtain ⟨x',hx',h⟩ := Option.map_eq_some_iff.mp h
      cases h
      exact .readBody ((Bool.not_eq_true _).mp hec) hx'
  | sendResponse =>
    cases h
    exact .ends (Or.inr rfl)

end HttpConnection

structure HttpServer where
  conns : List HttpConnection

namespace HttpServer

inductive Act
  | finish (c i : ℕ) (result : OsResult)
  | runHandler (c i : ℕ) (a : HttpConnection.Choices)

/-- The system ends a pending operation of connection `c`, or the library runs the handler
of one. -/
def step (s : HttpServer) : Act → Option HttpServer
  | .finish c i result =>
    s.conns[c]?.bind fun x => x.ops[i]?.bind fun op =>
      (op.ov.finish result.status result.bytes true).map fun u =>
        let x := { x with ops := x.ops.set i { op with ov := u } }
        { conns := s.conns.set c (x.answered op.callback .throughPort result) }
  | .runHandler c i a =>
    s.conns[c]?.bind fun x => x.ops[i]?.bind fun op => op.ov.deliver.bind fun d =>
      let x := { x with ops := x.ops.set i { op with ov := d.2 } }
      (x.complete op.callback d.1.ec d.1.bytes a).map fun r =>
        { conns := s.conns.set c r.1 ++ r.2.toList }

def machine : Machine HttpServer Act := ⟨step⟩

def start (result : OsResult) : Option HttpServer :=
  (HttpConnection.start result).map fun x => { conns := [x] }

/-- All that one step of the server can be. -/
inductive Moves (s : HttpServer) : Act → HttpServer → Prop
  | finish {c i : ℕ} {result : OsResult} {x : HttpConnection} {op : IssuedOp} {u : Overlapped}
    (hx : s.conns[c]? = some x) (hi : x.ops[i]? = some op)
    (hu : op.ov.finish result.status result.bytes true = some u) : Moves s (.finish c i result)
      { conns := s.conns.set c ({ x with ops := x.ops.set i { op with ov := u } }.answered
          op.callback .throughPort result) }
  | runHandler {c i : ℕ} {a : HttpConnection.Choices} {x y : HttpConnection} {op : IssuedOp}
    {p : Packet} {u : Overlapped} {spawned : Option HttpConnection}
    (hx : s.conns[c]? = some x) (hi : x.ops[i]? = some op) (hu : op.ov.deliver = some (p,u))
    (hc : { x with ops := x.ops.set i { op with ov := u } }.complete op.callback p.ec p.bytes a =
      some (y,spawned)) : Moves s (.runHandler c i a)
      { conns := s.conns.set c y ++ spawned.toList }

theorem step_cases {s t : HttpServer} {l : Act} (h : step s l = some t) : Moves s l t := by
  cases l with
  | finish c i result =>
    obtain ⟨x,hx,h⟩ := Option.bind_eq_some_iff.mp h
    obtain ⟨op,hi,h⟩ := Option.bind_eq_some_iff.mp h
    obtain ⟨u,hu,rfl⟩ := Option.map_eq_some_iff.mp h
    exact .finish hx hi hu
  | runHandler c i a =>
    obtain ⟨x,hx,h⟩ := Option.bind_eq_some_iff.mp h
    obtain ⟨op,hi,h⟩ := Option.bind_eq_some_iff.mp h
    obtain ⟨⟨p,u⟩,hu,h⟩ := Option.bind_eq_some_iff.mp h
    obtain ⟨⟨y,spawned⟩,hc,rfl⟩ := Option.map_eq_some_iff.mp h
    exact .runHandler hx hi hu hc

end HttpServer
end Winext.Http
