import Winext.Lib.Pointwise
import Winext.Http.Connection

/-! The life of a connection: it listens, reads a body, and sends a response, and it may
end at each of these stages. Every step of the server is a step in the life of one of its
connections, and may begin the life of another. -/
namespace Winext.Http
open Lib

/-- The end of an operation, inside its call or through the port. -/
structure Reply where
  path : Path
  result : OsResult

namespace Reply

def packet (receives : Bool) (y : Reply) : Packet where
  ec := y.path.told receives y.result.status
  bytes := if y.path = .inside ∧ y.result.status ≠ noError then 0 else y.result.bytes

def atOnce (result : OsResult) : Option Reply :=
  if result.status = errorIoPending then none else some ⟨.inside,result⟩

end Reply

/-- How far a connection has come, with the replies that brought it there. -/
inductive Stage
  | listening
  | reading (received : Reply)
  | sending (received body : Reply) (response : SimpleResponse)

namespace Stage

def callback : Stage → Callback
  | listening => .receiveRequest
  | reading _ => .receiveBody
  | sending _ _ _ => .sendResponse

def receives : Stage → Bool
  | sending _ _ _ => false
  | _ => true

def call : Stage → HttpCall
  | listening => .httpReceiveHttpRequest httpNullId 0 2048
  | reading y => .httpReceiveRequestEntityBody y.result.request.requestId 0 1024
  | sending y _ response =>
    .httpSendHttpResponse y.result.request.requestId httpSendResponseFlagDisconnect
      response.getResponse.resp

def received (y : Reply) : SimpleRequest := SimpleRequest.written {} .receiveRequest y.result

lemma length_received (y : Reply) : (received y).bodyBuffer.length = 1024 := List.length_replicate

/-- The request object as `handler_` gets it. -/
def complete (y z : Reply) : SimpleRequest :=
  ((received y).written .receiveBody z.result).setBodyLen (z.packet true).bytes

/-- The request object while the stage's operation has not ended. -/
def request : Stage → SimpleRequest
  | listening => {}
  | reading y => received y
  | sending y z _ => complete y z

/-- What has happened before the stage's operation ends. -/
def log : Stage → List Event
  | listening => [.called listening.call]
  | reading y => [.called listening.call,.answered .receiveRequest y.path y.result,
      .called (reading y).call]
  | sending y z response => [.called listening.call,
      .answered .receiveRequest y.path y.result,.called (reading y).call,
      .answered .receiveBody z.path z.result,.invoked (complete y z) {} response,
      .called (sending y z response).call]

def Fair : Stage → Prop
  | listening => True
  | reading y => (y.packet true).ec.failed = false
  | sending y z _ => (y.packet true).ec.failed = false ∧ (z.packet true).ec.failed = false

end Stage

/-- A stage, the reply to its operation, and whether its completion handler has run and
has led to no further stage. -/
structure Life where
  stage : Stage
  reply : Option Reply := none
  ended : Bool := false

namespace Life

def request (life : Life) : SimpleRequest :=
  life.reply.elim life.stage.request fun y => life.stage.request.written life.stage.callback y.result

def log (life : Life) : List Event :=
  life.stage.log ++
    life.reply.toList.map fun y => .answered life.stage.callback y.path y.result

/-- How the connection's operation of the given kind has ended, if it has. -/
def answer (life : Life) : Callback → Option Reply
  | .receiveRequest =>
    match life.stage with
    | .listening => life.reply
    | .reading y | .sending y _ _ => some y
  | .receiveBody =>
    match life.stage with
    | .listening => none
    | .reading _ => life.reply
    | .sending _ z _ => some z
  | .sendResponse =>
    match life.stage with
    | .listening | .reading _ => none
    | .sending _ _ _ => life.reply

/-- The log says how each operation has ended. -/
theorem answered_mem_log {life : Life} {callback : Callback} {path : Path} {result : OsResult} :
    .answered callback path result ∈ life.log ↔ life.answer callback = some ⟨path,result⟩ := by
  obtain ⟨stage,reply,ended⟩ := life
  have hreply : ∀ {y : Reply}, y = ⟨path,result⟩ ↔ path = y.path ∧ result = y.result := by
    intro y
    constructor
    · rintro rfl
      exact ⟨rfl,rfl⟩
    · rintro ⟨rfl,rfl⟩
      rfl
  cases stage <;> cases callback <;> cases reply <;>
    simp [log,answer,Stage.log,Stage.callback,hreply]

/-- The log has a response only of a connection that is sending one. -/
theorem sent_mem_log {life : Life} {id : RequestId} {flags : Dword} {resp : HttpResponse} :
    .called (.httpSendHttpResponse id flags resp) ∈ life.log ↔
      ∃ y z response, life.stage = .sending y z response ∧ id = y.result.request.requestId ∧
        flags = httpSendResponseFlagDisconnect ∧ resp = response.getResponse.resp := by
  obtain ⟨stage,reply,ended⟩ := life
  cases stage <;> cases reply <;> simp [log,Stage.log,Stage.call]

theorem sending_of_invoked {life : Life} {request : SimpleRequest}
    {before after : SimpleResponse} (h : .invoked request before after ∈ life.log) :
    ∃ y z, life.stage = .sending y z after ∧ request = Stage.complete y z := by
  obtain ⟨stage,reply,ended⟩ := life
  cases stage with
  | listening | reading => cases reply <;> simp [log,Stage.log] at h
  | sending y z response =>
    have hevent : request = Stage.complete y z ∧ before = {} ∧ after = response := by
      cases reply <;> simpa [log,Stage.log] using h
    exact ⟨y,z,by rw [hevent.2.2],hevent.1⟩

end Life

/-- The OVERLAPPED of an operation, by its reply and by whether its handler has run. -/
inductive Progress (receives : Bool) : Overlapped → Option Reply → Bool → Prop
  | waiting : Progress receives { io := .pending, handedOver := true } none false
  | posted {io : Io} {y : Reply} (hio : io ≠ .pending) : Progress receives
      { io := io, packets := [y.packet receives], handedOver := true } (some y) false
  | told {io : Io} {y : Reply} (hio : io ≠ .pending) : Progress receives
      { io := io, handedOver := true, delivered := [y.packet receives] } (some y) true

structure IssuedOp.Over (op : IssuedOp) : Prop where
  io : op.ov.io ≠ .pending
  packets : op.ov.packets = []
  delivered : op.ov.delivered ≠ []

/-- The connection is at this point of its life. -/
structure HttpConnection.Follows (x : HttpConnection) (life : Life) : Prop where
  log : x.log = life.log
  request : x.request = life.request
  response : life.stage.receives = true → x.response = {}
  ops : ∃ earlier o, x.ops = earlier ++ [⟨life.stage.callback,o⟩] ∧
    (∀ op ∈ earlier, op.Over) ∧ Progress life.stage.receives o life.reply life.ended
  fair : life.stage.Fair
  failed : life.ended = true → life.stage.receives = true →
    ∀ y ∈ life.reply, (y.packet true).ec.failed = true

namespace Progress
variable {receives : Bool} {o u : Overlapped} {reply : Option Reply} {ended : Bool}

theorem finish (h : Progress receives o reply ended) {result : OsResult}
    (hu : o.finish result.status result.bytes true = some u) :
    reply = none ∧ ended = false ∧ Progress receives u (some ⟨.throughPort,result⟩) false := by
  obtain ⟨hio,rfl⟩ := Overlapped.finish_eq_some.mp hu
  cases h with
  | waiting =>
    have hpacket : Reply.packet receives ⟨.throughPort,result⟩ =
        ⟨⟨result.status⟩,result.bytes⟩ := by simp [Reply.packet,Path.told]
    refine ⟨rfl,rfl,?_⟩
    simp only [if_true,List.nil_append,← hpacket]
    exact .posted (by simp)
  | posted hne => exact absurd hio hne
  | told hne => exact absurd hio hne

theorem deliver (h : Progress receives o reply ended) {p : Packet} (hd : o.deliver = some (p,u)) :
    ended = false ∧ ∃ y, reply = some y ∧ p = y.packet receives ∧
      Progress receives u (some y) true := by
  obtain ⟨-,ps,hps,rfl⟩ := Overlapped.deliver_eq_some.mp hd
  cases h with
  | waiting => cases hps
  | @posted _ y hio =>
    cases hps
    exact ⟨rfl,y,rfl,rfl,.told hio⟩
  | told => cases hps

theorem over_of_told {callback : Callback} (h : Progress receives o reply true) :
    (IssuedOp.mk callback o).Over := by
  cases h with
  | told hio => exact ⟨hio,rfl,by simp⟩

end Progress

namespace IssuedOp.Over
variable {op : IssuedOp} {u : Overlapped}

theorem finish_eq_none (h : op.Over) (status : Dword) (bytes : ℕ) :
    op.ov.finish status bytes true = none := by
  simp [Overlapped.finish,h.io]

theorem deliver_eq_none (h : op.Over) : op.ov.deliver = none := by
  rw [Option.eq_none_iff_forall_ne_some]
  rintro ⟨p,u⟩ hd
  obtain ⟨-,ps,hps,-⟩ := Overlapped.deliver_eq_some.mp hd
  simp [h.packets] at hps

end IssuedOp.Over

def settled (receives : Bool) (status : Dword) (bytes : ℕ) : Overlapped :=
  if status = errorIoPending then { io := .pending, handedOver := true }
  else if status = noError then
    { io := .returned status bytes, packets := [⟨⟨status⟩,bytes⟩], handedOver := true }
  else
    { io := .returned status 0, packets := [⟨Path.inside.told receives status,0⟩], handedOver := true }

theorem exec_settle (receives : Bool) (status : Dword) (bytes : ℕ) (calls : List HttpCall) :
    (settle receives status).exec HttpIo.perform
      ⟨status,bytes,calls,HttpIo.answer status bytes {}⟩ =
    some ((),⟨status,bytes,calls,settled receives status bytes⟩) := by
  by_cases hp : status = errorIoPending
  · subst hp
    rfl
  by_cases h0 : status = noError
  · subst h0
    rfl
  have hneither : ¬(status = noError ∨ status = errorIoPending) := not_or.mpr ⟨h0,hp⟩
  rw [settled,if_neg hp,if_neg h0,HttpIo.answer,if_neg hp,if_neg h0,settle,if_neg hneither]
  by_cases heof : receives = true ∧ status = errorHandleEof
  · rw [if_pos heof,Path.told,if_pos ⟨rfl,heof⟩]
    rfl
  · rw [if_neg heof,Path.told,if_neg fun h => heof h.2]
    rfl

/-- Executed in one piece, an operation makes its call and leaves its OVERLAPPED settled. -/
theorem exec_program (op : Operation) (status : Dword) (bytes : ℕ) :
    op.program.exec HttpIo.perform { status := status, bytes := bytes } =
      some ((),⟨status,bytes,[op.api],settled op.receives status bytes⟩) := by
  cases op with
  | recieveRequest pRequest room =>
    rw [Operation.program,asyncRecieveRequest_eq]
    exact exec_settle true status bytes _
  | recieveBody length requestId flags =>
    rw [Operation.program,asyncRecieveBody_eq]
    exact exec_settle true status bytes _
  | sendResponse resp requestId flags =>
    rw [Operation.program,asyncSendResponse_eq]
    exact exec_settle false status bytes _

theorem settled_progress (receives : Bool) (result : OsResult) :
    Progress receives (settled receives result.status result.bytes) (Reply.atOnce result) false := by
  unfold settled Reply.atOnce
  split_ifs with hp h0
  · exact .waiting
  · have hpacket : Reply.packet receives ⟨.inside,result⟩ = ⟨⟨result.status⟩,result.bytes⟩ := by
      simp [Reply.packet,Path.told,h0,eof_ne.1.symm]
    rw [← hpacket]
    exact .posted (by simp)
  · have hpacket : Reply.packet receives ⟨.inside,result⟩ =
        ⟨Path.inside.told receives result.status,0⟩ := by simp [Reply.packet,h0]
    rw [← hpacket]
    exact .posted (by simp)

namespace HttpConnection

/-- An operation that begins a stage: its reply is at once or it is waited for. -/
theorem issue_follows (stage : Stage) {x y : HttpConnection} {op : Operation} {result : OsResult}
    (hop : op.api = stage.call ∧ op.receives = stage.receives)
    (hlog : x.log ++ [.called stage.call] = stage.log) (hrequest : x.request = stage.request)
    (hresponse : stage.receives = true → x.response = {}) (hover : ∀ o ∈ x.ops, o.Over)
    (hfair : stage.Fair) (h : x.issue stage.callback op result = some y) :
    y.Follows ⟨stage,Reply.atOnce result,false⟩ := by
  rw [issue,exec_program] at h
  simp only [Option.map_some,Option.some.injEq,List.map_cons,List.map_nil,hop.1,hop.2] at h
  have hprogress := settled_progress stage.receives result
  have hops : ∃ earlier o, x.ops ++ [⟨stage.callback,settled stage.receives result.status
      result.bytes⟩] = earlier ++ [⟨stage.callback,o⟩] ∧ (∀ op ∈ earlier, op.Over) ∧
      Progress stage.receives o (Reply.atOnce result) false := ⟨x.ops,_,rfl,hover,hprogress⟩
  split_ifs at h with hp
  · subst h
    have hnone : Reply.atOnce result = none := if_pos hp
    refine ⟨?_,?_,hresponse,hops,hfair,fun h => nomatch h⟩
    · simp [Life.log,hnone,hlog]
    · simp [Life.request,hnone,hrequest]
  · subst h
    have hsome : Reply.atOnce result = some ⟨.inside,result⟩ := if_neg hp
    refine ⟨?_,?_,hresponse,hops,hfair,fun h => nomatch h⟩
    · simp [Life.log,hsome,← hlog,answered]
    · simp [Life.request,hsome,hrequest,answered]

theorem start_follows {result : OsResult} {x : HttpConnection} (h : start result = some x) :
    x.Follows ⟨.listening,Reply.atOnce result,false⟩ :=
  issue_follows .listening (x := {}) ⟨rfl,rfl⟩ rfl rfl (fun _ => rfl)
    (by simp) trivial h

end HttpConnection

/-- One step in the life of a connection. The flag says whether another one begins. -/
inductive Life.Next : Life → Life → Bool → Prop
  | answer {stage : Stage} {y : Reply} : Next ⟨stage,none,false⟩ ⟨stage,some y,false⟩ false
  | fail {stage : Stage} {y : Reply}
    (hy : stage.receives = true → (y.packet true).ec.failed = true) :
    Next ⟨stage,some y,false⟩ ⟨stage,some y,true⟩ false
  | read {y : Reply} {reply : Option Reply} (hy : (y.packet true).ec.failed = false) :
    Next ⟨.listening,some y,false⟩ ⟨.reading y,reply,false⟩ true
  | send {y z : Reply} {response : SimpleResponse} {reply : Option Reply}
    (hz : (z.packet true).ec.failed = false) :
    Next ⟨.reading y,some z,false⟩ ⟨.sending y z response,reply,false⟩ false

namespace HttpConnection

/-- An operation on which something happens is the last one. -/
lemma current_op {x : HttpConnection} {earlier : List IssuedOp} {last op : IssuedOp} {i : ℕ}
    (hops : x.ops = earlier ++ [last]) (hi : x.ops[i]? = some op) :
    op ∈ earlier ∨ (op = last ∧ ∀ op', x.ops.set i op' = earlier ++ [op']) := by
  rw [hops] at hi ⊢
  by_cases hlt : i < earlier.length
  · rw [List.getElem?_append_left hlt] at hi
    exact Or.inl (List.mem_of_getElem? hi)
  · have hge : earlier.length ≤ i := Nat.le_of_not_lt hlt
    rw [List.getElem?_append_right hge] at hi
    cases hsub : i - earlier.length with
    | zero =>
      rw [hsub] at hi
      cases hi
      refine Or.inr ⟨rfl,fun op' => ?_⟩
      rw [List.set_append_right i op' hge,hsub]
      rfl
    | succ n =>
      rw [hsub] at hi
      cases hi

theorem Follows.finish {x : HttpConnection} {life : Life} (hx : x.Follows life) {i : ℕ}
    {op : IssuedOp} (hi : x.ops[i]? = some op) {result : OsResult} {u : Overlapped}
    (hu : op.ov.finish result.status result.bytes true = some u) :
    ∃ life', life.Next life' false ∧ life'.stage = life.stage ∧ life'.ended = false ∧
      ({ x with ops := x.ops.set i { op with ov := u } }.answered op.callback .throughPort
        result).Follows life' := by
  obtain ⟨earlier,o,hops,hearlier,hprogress⟩ := hx.ops
  obtain hmem | ⟨rfl,hset⟩ := current_op hops hi
  · rw [(hearlier op hmem).finish_eq_none] at hu
    cases hu
  · obtain ⟨hreply,hover,hprogress'⟩ := hprogress.finish hu
    obtain ⟨stage,reply,ended⟩ := life
    cases hreply
    cases hover
    refine ⟨_,.answer,rfl,rfl,?_,?_,hx.response,⟨earlier,u,hset _,hearlier,hprogress'⟩,hx.fair,
      fun h => nomatch h⟩
    · simp [answered,Life.log,hx.log]
    · simp [answered,Life.request,hx.request]

/-- The connection when the handler of the stage's operation is told its reply. -/
structure Told (x : HttpConnection) (stage : Stage) (r : Reply) : Prop where
  log : x.log = stage.log ++ [.answered stage.callback r.path r.result]
  request : x.request = stage.request.written stage.callback r.result
  response : stage.receives = true → x.response = {}
  ops : ∃ earlier o, x.ops = earlier ++ [⟨stage.callback,o⟩] ∧
    (∀ op ∈ earlier, op.Over) ∧ Progress stage.receives o (some r) true
  fair : stage.Fair

/-- What the handler makes of the connection, and of the one it starts. -/
structure Handled (stage : Stage) (r : Reply) (y : HttpConnection)
    (spawned : Option HttpConnection) (life : Life) : Prop where
  next : Life.Next ⟨stage,some r,false⟩ life spawned.isSome
  follows : y.Follows life
  born : ∀ f ∈ spawned, ∃ reply, f.Follows ⟨.listening,reply,false⟩
  ended : life.ended = true ↔ (r.packet stage.receives).ec.failed = true ∨ stage.receives = false

theorem Follows.deliver {x : HttpConnection} {life : Life} (hx : x.Follows life) {i : ℕ}
    {op : IssuedOp} (hi : x.ops[i]? = some op) {p : Packet} {u : Overlapped}
    (hu : op.ov.deliver = some (p,u)) :
    ∃ r, life = ⟨life.stage,some r,false⟩ ∧ op.callback = life.stage.callback ∧
      p = r.packet life.stage.receives ∧
      Told { x with ops := x.ops.set i { op with ov := u } } life.stage r := by
  obtain ⟨earlier,o,hops,hearlier,hprogress⟩ := hx.ops
  obtain hmem | ⟨rfl,hset⟩ := current_op hops hi
  · rw [(hearlier op hmem).deliver_eq_none] at hu
    cases hu
  obtain ⟨hover,r,hreply,hp,hprogress'⟩ := hprogress.deliver hu
  obtain ⟨stage,reply,ended⟩ := life
  cases hreply
  cases hover
  exact ⟨r,rfl,rfl,hp,hx.log,hx.request,hx.response,⟨earlier,u,hset _,hearlier,hprogress'⟩,hx.fair⟩

section Handlers
variable {x y : HttpConnection} {stage : Stage} {r y₀ : Reply} {spawned : Option HttpConnection}
variable {a : Choices}

lemma Told.over (h : x.Told stage r) : ∀ o ∈ x.ops, o.Over := by
  obtain ⟨earlier,u,hops,hearlier,hprogress⟩ := h.ops
  intro o ho
  rw [hops] at ho
  obtain ho | ho := List.mem_append.mp ho
  · exact hearlier o ho
  · rw [List.mem_singleton.mp ho]
    exact hprogress.over_of_told

/-- A handler that starts nothing more ends the connection's life. -/
lemma Told.ends (h : x.Told stage r)
    (hf : (r.packet stage.receives).ec.failed = true ∨ stage.receives = false) :
    Handled stage r x none ⟨stage,some r,true⟩ := by
  have hfail : stage.receives = true → (r.packet true).ec.failed = true := by
    intro hreceives
    rw [hreceives] at hf
    exact hf.resolve_right (fun h => nomatch h)
  refine ⟨.fail hfail,⟨h.log,h.request,h.response,h.ops,h.fair,fun _ hreceives z hz => ?_⟩,
    by simp,iff_of_true rfl hf⟩
  cases hz
  exact hfail hreceives

lemma Told.received {f : HttpConnection} (hx : x.Told .listening r)
    (hok : (r.packet true).ec.failed = false) (hy : x.onReceiveRequest a.next = some y)
    (hf : start a.fresh = some f) :
    Handled .listening r y (some f) ⟨.reading r,Reply.atOnce a.next,false⟩ := by
  have hreceived : x.request = Stage.received r := hx.request
  refine ⟨.read hok,issue_follows (.reading r) ⟨?_,rfl⟩ ?_ hreceived ?_ hx.over hok hy,?_,?_⟩
  · rw [hreceived,Stage.length_received]
    rfl
  · rw [hx.log]
    rfl
  · exact fun _ => hx.response rfl
  · intro g hg
    cases hg
    exact ⟨_,start_follows hf⟩
  · simp [Stage.receives,hok]

lemma Told.readBody (hx : x.Told (.reading y₀) r) (hok : (r.packet true).ec.failed = false)
    (hy : x.onRecieveBody (r.packet true).bytes a = some y) :
    ∃ life, Handled (.reading y₀) r y none life := by
  have hresponse : x.response = {} := hx.response rfl
  have hrequest : x.request = (Stage.received y₀).written .receiveBody r.result := hx.request
  refine ⟨_,.send hok,issue_follows (.sending y₀ r (a.handler (x.request.setBodyLen
    (r.packet true).bytes) x.response)) ⟨?_,rfl⟩ ?_ ?_ ?_ ?_ ⟨hx.fair,hok⟩ hy,by simp,?_⟩
  · simp only [hrequest]
    rfl
  · simp only [hx.log,hresponse,hrequest]
    rfl
  · simp only [hrequest]
    rfl
  · exact fun h => nomatch h
  · exact hx.over
  · simp [Stage.receives,hok]

lemma Told.complete (hx : x.Told stage r) (h : x.complete stage.callback
    (r.packet stage.receives).ec (r.packet stage.receives).bytes a = some (y,spawned)) :
    ∃ life, Handled stage r y spawned life := by
  cases stage with
  | listening =>
    cases complete_cases h with
    | ends hend => exact ⟨_,hx.ends (hend.imp_right fun h => nomatch h)⟩
    | received hok hy hf => exact ⟨_,hx.received hok hy hf⟩
  | reading y₀ =>
    cases complete_cases h with
    | ends hend => exact ⟨_,hx.ends (hend.imp_right fun h => nomatch h)⟩
    | readBody hok hy => exact hx.readBody hok hy
  | sending y₀ z₀ response =>
    cases h
    exact ⟨_,hx.ends (Or.inr rfl)⟩

end Handlers

/-- The handler of the stage's operation ends the connection's life, or begins a stage. -/
theorem Follows.runHandler {x y : HttpConnection} {spawned : Option HttpConnection} {life : Life}
    (hx : x.Follows life) {i : ℕ} {op : IssuedOp} (hi : x.ops[i]? = some op) {p : Packet}
    {u : Overlapped} (hu : op.ov.deliver = some (p,u)) {a : Choices}
    (h : { x with ops := x.ops.set i { op with ov := u } }.complete op.callback p.ec p.bytes a =
      some (y,spawned)) :
    ∃ life', life.Next life' spawned.isSome ∧ y.Follows life' ∧
      (∀ f ∈ spawned, ∃ reply, f.Follows ⟨.listening,reply,false⟩) ∧
      op.callback = life.stage.callback ∧
      (life'.ended = true ↔ p.ec.failed = true ∨ life.stage.receives = false) := by
  obtain ⟨r,hlife,hcallback,rfl,htold⟩ := hx.deliver hi hu
  obtain ⟨stage,reply,ended⟩ := life
  obtain ⟨callback,o⟩ := op
  cases hlife
  cases hcallback
  obtain ⟨life',hlife'⟩ := htold.complete h
  exact ⟨life',hlife'.next,hlife'.follows,hlife'.born,rfl,hlife'.ended⟩

end HttpConnection

namespace HttpServer

def Represents (s : HttpServer) (lives : List Life) : Prop :=
  List.Forall₂ HttpConnection.Follows s.conns lives

/-- The step runs the handler of a receive that is told an error. -/
def FailsReceive (s : HttpServer) : Act → Prop
  | .finish _ _ _ => False
  | .runHandler c i _ => ∃ x op p u, s.conns[c]? = some x ∧ x.ops[i]? = some op ∧
      op.callback = .receiveRequest ∧ op.ov.deliver = some (p,u) ∧ p.ec.failed = true

lemma receives_of_receiveRequest {stage : Stage} (h : stage.callback = .receiveRequest) :
    stage.receives = true := by
  cases stage with
  | listening | reading => rfl
  | sending => cases h

/-- A step of the server is a step in one life, which may begin another. -/
theorem step_refines {s t : HttpServer} {l : Act} (h : step s l = some t) {lives : List Life}
    (hs : s.Represents lives) : ∃ (c : ℕ) (life life' : Life) (born : Option Life),
      lives[c]? = some life ∧
      life.Next life' born.isSome ∧ (∀ b ∈ born, ∃ reply, b = ⟨.listening,reply,false⟩) ∧
      t.Represents (lives.set c life' ++ born.toList) ∧
      (s.FailsReceive l ↔ life.stage.callback = .receiveRequest ∧ life'.ended = true) := by
  cases step_cases h with
  | @finish c i result x op u hx hi hu =>
    obtain ⟨life,hlife,hfollows⟩ := getElem?_of_forall₂ hs hx
    obtain ⟨life',hnext,-,hover,hfollows'⟩ := hfollows.finish hi hu
    refine ⟨c,life,life',none,hlife,hnext,by simp,?_,by simp [FailsReceive,hover]⟩
    rw [Option.toList_none,List.append_nil]
    exact forall₂_set hs hfollows' c
  | @runHandler c i a x y op p u spawned hx hi hu hc =>
    obtain ⟨life,hlife,hfollows⟩ := getElem?_of_forall₂ hs hx
    obtain ⟨life',hnext,hfollows',hborn,hcallback,hover⟩ := hfollows.runHandler hi hu hc
    have hfails : s.FailsReceive (.runHandler c i a) ↔
        life.stage.callback = .receiveRequest ∧ life'.ended = true := by
      constructor
      · rintro ⟨x',op',p',u',hx',hi',hcb,hu',hf⟩
        cases hx.symm.trans hx'
        cases hi.symm.trans hi'
        cases hu.symm.trans hu'
        exact ⟨hcallback ▸ hcb,hover.mpr (Or.inl hf)⟩
      · rintro ⟨hstage,hlife'⟩
        refine ⟨x,op,p,u,hx,hi,hcallback.trans hstage,hu,?_⟩
        obtain hf | hf := hover.mp hlife'
        · exact hf
        · simp [receives_of_receiveRequest hstage] at hf
    have hset := forall₂_set hs hfollows' c
    cases spawned with
    | none =>
      exact ⟨c,life,life',none,hlife,hnext,by simp,List.rel_append hset .nil,hfails⟩
    | some f =>
      obtain ⟨reply,hreply⟩ := hborn f rfl
      refine ⟨c,life,life',some ⟨.listening,reply,false⟩,hlife,hnext,by simp,?_,hfails⟩
      exact List.rel_append hset (.cons hreply .nil)

theorem represents_preserved : machine.Preserves fun s => ∃ lives, Represents s lives := by
  rintro s l t ⟨lives,hs⟩ h
  obtain ⟨_,_,_,_,-,-,-,ht,-⟩ := step_refines h hs
  exact ⟨_,ht⟩

theorem start_represents {first : OsResult} {s₀ : HttpServer} (hstart : start first = some s₀) :
    ∃ lives, s₀.Represents lives := by
  obtain ⟨x,hx,rfl⟩ := Option.map_eq_some_iff.mp hstart
  exact ⟨_,.cons (HttpConnection.start_follows hx) .nil⟩

theorem represents_run {first : OsResult} {ls : List Act} {s₀ s : HttpServer}
    (hstart : start first = some s₀) (hrun : machine.run s₀ ls = some s) :
    ∃ lives, s.Represents lives :=
  represents_preserved.run hrun (start_represents hstart)

theorem follows_of_run {first : OsResult} {ls : List Act} {s₀ s : HttpServer}
    (hstart : start first = some s₀) (hrun : machine.run s₀ ls = some s) {x : HttpConnection}
    (hx : x ∈ s.conns) : ∃ life, x.Follows life := by
  obtain ⟨lives,hs⟩ := represents_run hstart hrun
  obtain ⟨life,-,hlife⟩ := exists_of_mem_forall₂ hs hx
  exact ⟨life,hlife⟩

end HttpServer
end Winext.Http
