import Winext.Http.ConnectionLife
import Winext.Http.ObjectCalls

/-! The handler that is given to `http_connection`: the calls it makes, between those that
`on_recieve_body` makes on the same objects, and what comes of them in a run of the server. -/
namespace Winext.Http
open Lib

/-- A call of a handler on its arguments, of which the request is `const`. -/
inductive HandlerCall
  | request (c : SimpleRequest.Read)
  | response (op : SimpleResponse.Op)
  deriving DecidableEq, Repr

namespace HandlerCall

def onObjects : HandlerCall → ObjectCall
  | request c => .request (.read c)
  | response op => .response op

def apply (s : SimpleResponse) : HandlerCall → SimpleResponse
  | request _ => s
  | response op => op.apply s

end HandlerCall

/-- A handler, by the calls it makes for a request. -/
abbrev Handler := SimpleRequest → List HandlerCall

def Handler.run (handler : Handler) (request : SimpleRequest) (response : SimpleResponse) :
    SimpleResponse := (handler request).foldl HandlerCall.apply response

/-- The handler of a connection that is constructed without one. -/
def defaultHandler : Handler := fun _ =>
  [.response (.setStatusCode 503),.response (.setReason (SimpleRequest.text "Not Implemented"))]

/-- The calls of `on_recieve_body` on the objects of the connection, those of its handler
among them. -/
def bodyCalls (len : ℕ) (calls : List HandlerCall) : List ObjectCall :=
  .request (.setBodyLen len)::(calls.map HandlerCall.onObjects ++ [.response .getResponse])

lemma foldl_onObjects (o : Objects) (calls : List HandlerCall) :
    (calls.map HandlerCall.onObjects).foldl Objects.after o =
      { o with response := calls.foldl HandlerCall.apply o.response } := by
  induction calls generalizing o with
  | nil => rfl
  | cons c calls ih =>
    refine (ih _).trans ?_
    cases c <;> rfl

lemma foldl_bodyCalls (o : Objects) (len : ℕ) (calls : List HandlerCall) :
    (bodyCalls len calls).foldl Objects.after o =
      ⟨o.request.setBodyLen len,(calls.foldl HandlerCall.apply o.response).getResponse⟩ := by
  rw [bodyCalls,List.foldl_cons,List.foldl_append,foldl_onObjects]
  rfl

/-- `on_recieve_body` sends the response that the calls leave behind. -/
theorem onRecieveBody_eq (x : HttpConnection) (len : ℕ) (next fresh : OsResult)
    (handler : Handler) : x.onRecieveBody len ⟨next,fresh,handler.run⟩ =
      let request := x.request.setBodyLen len
      let o := (bodyCalls len (handler request)).foldl Objects.after ⟨x.request,x.response⟩
      HttpConnection.issue { x with
        request := o.request
        response := o.response
        log := x.log ++ [.invoked request x.response (handler.run request x.response)] }
        .sendResponse (.sendResponse o.response.resp o.request.getRequestId
          httpSendResponseFlagDisconnect) next := by
  simp only [foldl_bodyCalls]
  rfl

/-- The handler sets the status code, which it does before any `get_response` of its own,
and reads the body only if its length is within the buffer. -/
structure Handles (len : ℕ) (calls : List HandlerCall) : Prop where
  status : ∃ code, .response (.setStatusCode code) ∈ calls
  order : ∀ before after, calls = before ++ .response .getResponse::after →
    ∃ code, .response (.setStatusCode code) ∈ before
  body : ∀ c, .request c ∈ calls → c.readsBody = true → len ≤ 1024

section BodyCalls
variable {len : ℕ} {calls : List HandlerCall}

/-- The call that sets the length, the handler's, and the one that builds the response. -/
lemma bodyCalls_cases {before after : List ObjectCall} {c : ObjectCall}
    (h : bodyCalls len calls = before ++ c::after) :
    c = .request (.setBodyLen len) ∨
    (∃ pre d post, calls = pre ++ d::post ∧ c = d.onObjects ∧
      before = .request (.setBodyLen len)::pre.map HandlerCall.onObjects) ∨
    (c = .response .getResponse ∧
      before = .request (.setBodyLen len)::calls.map HandlerCall.onObjects) := by
  cases before with
  | nil =>
    cases h
    exact Or.inl rfl
  | cons b before =>
    rw [bodyCalls,List.cons_append] at h
    obtain ⟨rfl,htail⟩ := List.cons_eq_cons.mp h
    refine Or.inr ?_
    obtain rfl | ⟨after',e,rfl⟩ := List.eq_nil_or_concat after
    · obtain ⟨hcalls,hc⟩ := List.append_inj' htail rfl
      cases hc
      exact Or.inr ⟨rfl,congrArg _ hcalls.symm⟩
    · rw [List.concat_eq_append,← List.cons_append,← List.append_assoc] at htail
      obtain ⟨pre,rest,rfl,rfl,hrest⟩ := List.map_eq_append_iff.mp (List.append_inj' htail rfl).1
      obtain ⟨d,post,rfl,rfl,-⟩ := List.map_eq_cons_iff.mp hrest
      exact Or.inl ⟨pre,d,post,rfl,rfl,rfl⟩

/-- No call of a handler sets the length. -/
lemma last_bodyLen?_onObjects (len : ℕ) (calls : List HandlerCall) :
    last ObjectCall.bodyLen? (.request (.setBodyLen len)::calls.map HandlerCall.onObjects) =
      some len := by
  have hnone : last ObjectCall.bodyLen? (calls.map HandlerCall.onObjects) = none := by
    refine last_eq_none_iff.mpr fun c hc => ?_
    obtain ⟨d,-,rfl⟩ := List.mem_map.mp hc
    cases d <;> rfl
  rw [last_cons,hnone]
  rfl

lemma setStatusCode_mem_onObjects (len : ℕ) {code : UInt16} : .response (.setStatusCode code) ∈
      (.request (.setBodyLen len)::calls.map HandlerCall.onObjects : List ObjectCall) ↔
    .response (.setStatusCode code) ∈ calls := by
  rw [List.mem_cons,List.mem_map]
  constructor
  · rintro (h | ⟨c,hc,heq⟩)
    · cases h
    · cases c with
      | request c => cases heq
      | response op =>
        cases heq
        exact hc
  · exact fun hc => Or.inr ⟨_,hc,rfl⟩

/-- What a handler has to keep to is that all of these calls are in order. -/
theorem inOrder_bodyCalls_iff : InOrder (bodyCalls len calls) ↔ Handles len calls := by
  constructor
  · intro h
    have hafter : ∀ pre d post, calls = pre ++ d::post → d.onObjects.WrittenBy
        (.request (.setBodyLen len)::pre.map HandlerCall.onObjects) := by
      intro pre d post hcalls
      refine h _ _ (post.map HandlerCall.onObjects ++ [.response .getResponse]) ?_
      simp [bodyCalls,hcalls]
    refine ⟨?_,fun before after hcalls => ?_,fun c hc hreads => ?_⟩
    · obtain ⟨code,hcode⟩ := h (.request (.setBodyLen len)::calls.map HandlerCall.onObjects)
        (.response .getResponse) [] rfl
      exact ⟨code,(setStatusCode_mem_onObjects len).mp hcode⟩
    · obtain ⟨code,hcode⟩ := hafter before _ after hcalls
      exact ⟨code,(setStatusCode_mem_onObjects len).mp hcode⟩
    · obtain ⟨before,after,hcalls⟩ := List.append_of_mem hc
      obtain ⟨n,hn,hle⟩ := hafter before _ after hcalls hreads
      rw [last_bodyLen?_onObjects] at hn
      cases hn
      exact hle
  · intro h before c after hcalls
    obtain rfl | ⟨pre,d,post,hsplit,rfl,rfl⟩ | ⟨rfl,rfl⟩ := bodyCalls_cases hcalls
    · exact trivial
    · cases d with
      | request c =>
        have hc : .request c ∈ calls := by simp [hsplit]
        exact fun hreads => ⟨len,last_bodyLen?_onObjects len pre,h.body c hc hreads⟩
      | response op =>
        cases op with
        | getResponse =>
          obtain ⟨code,hcode⟩ := h.order pre post hsplit
          exact ⟨code,(setStatusCode_mem_onObjects len).mpr hcode⟩
        | setReason | setStatusCode | setContentType | setBody | addKnownHeader
          | addUnknownHeader | addTrailer => exact trivial
    · obtain ⟨code,hcode⟩ := h.status
      exact ⟨code,(setStatusCode_mem_onObjects len).mpr hcode⟩

end BodyCalls

/-- Every response that the connection has sent carries a status code that was set. -/
def HttpConnection.SentDetermined (x : HttpConnection) : Prop :=
  ∀ id flags resp, .called (.httpSendHttpResponse id flags resp) ∈ x.log → resp.statusCode ≠ none

namespace HttpConnection
variable {x y : HttpConnection} {callback : Callback} {op : Operation} {result : OsResult}

lemma SentDetermined.issue (h : x.SentDetermined)
    (hop : ∀ id flags resp, op.api = .httpSendHttpResponse id flags resp → resp.statusCode ≠ none)
    (hy : x.issue callback op result = some y) : y.SentDetermined := by
  rw [HttpConnection.issue,exec_program] at hy
  simp only [Option.map_some,Option.some.injEq] at hy
  intro id flags resp hmem
  have hcall : .called (.httpSendHttpResponse id flags resp) ∈ x.log ∨
      op.api = .httpSendHttpResponse id flags resp := by
    split_ifs at hy
    · subst hy
      simpa [eq_comm] using hmem
    · subst hy
      simpa [answered,eq_comm] using hmem
  obtain hlog | hapi := hcall
  · exact h id flags resp hlog
  · exact hop id flags resp hapi

lemma start_sentDetermined (h : start result = some x) : x.SentDetermined := by
  have hfresh : SentDetermined {} := by simp [SentDetermined]
  refine hfresh.issue (fun id flags resp hapi => ?_) h
  cases hapi

/-- A handler that does what it has to gives the response a status code. -/
lemma statusCode_of_handles {len : ℕ} {calls : List HandlerCall} (h : Handles len calls)
    (o : Objects) :
    ((bodyCalls len calls).foldl Objects.after o).response.resp.statusCode ≠ none := by
  obtain ⟨code,hcode⟩ := h.status
  obtain ⟨code,hlast⟩ := exists_statusCode_iff.mpr
    ⟨code,(setStatusCode_mem_onObjects len).mpr hcode⟩
  have hcalls : bodyCalls len calls = (.request (.setBodyLen len)::calls.map HandlerCall.onObjects) ++
      [.response .getResponse] := rfl
  rw [hcalls,List.foldl_append,List.foldl_cons,List.foldl_nil]
  refine (ObjectCall.statusCode_getResponse _).trans_ne ?_
  rw [Objects.statusCode_foldl,hlast]
  simp

lemma SentDetermined.complete {ec : ErrorCode} {len : ℕ} {next fresh : OsResult} {handler : Handler}
    {spawned : Option HttpConnection} (h : x.SentDetermined)
    (hhandles : callback = .receiveBody → ec.failed = false →
      Handles len (handler (x.request.setBodyLen len)))
    (hc : x.complete callback ec len ⟨next,fresh,handler.run⟩ = some (y,spawned)) :
    y.SentDetermined ∧ ∀ f ∈ spawned, f.SentDetermined := by
  cases complete_cases hc with
  | ends => exact ⟨h,by simp⟩
  | received hok hy hf =>
    refine ⟨h.issue (fun id flags resp hapi => ?_) hy,fun g hg => ?_⟩
    · cases hapi
    · cases hg
      exact start_sentDetermined hf
  | readBody hok hy =>
    refine ⟨?_,by simp⟩
    rw [onRecieveBody_eq] at hy
    refine SentDetermined.issue (fun id flags resp hmem => ?_) (fun id flags resp hapi => ?_) hy
    · simp only [List.mem_append,List.mem_singleton,reduceCtorEq,or_false] at hmem
      exact h id flags resp hmem
    · cases hapi
      exact statusCode_of_handles (hhandles rfl hok) _

lemma SentDetermined.answered (h : x.SentDetermined) (path : Path) :
    (x.answered callback path result).SentDetermined := by
  intro id flags resp hmem
  simp only [HttpConnection.answered,List.mem_append,List.mem_singleton,reduceCtorEq,or_false] at hmem
  exact h id flags resp hmem

end HttpConnection

namespace HttpServer

/-- A step of the server, where the handler of the user is given by its calls. -/
inductive HandlerAct
  | finish (c i : ℕ) (result : OsResult)
  | runHandler (c i : ℕ) (next fresh : OsResult) (handler : Handler)

def HandlerAct.act : HandlerAct → Act
  | finish c i result => .finish c i result
  | runHandler c i next fresh handler => .runHandler c i ⟨next,fresh,handler.run⟩

def handlerMachine : Machine HttpServer HandlerAct := ⟨fun s l => step s l.act⟩

/-- The step invokes `handler_` for the connection, which makes the calls; the length is
that of the body. -/
inductive Invokes (s : HttpServer) : HandlerAct → HttpConnection → ℕ → List HandlerCall → Prop
  | mk {c i : ℕ} {next fresh : OsResult} {handler : Handler} {x : HttpConnection}
    {op : IssuedOp} {p : Packet} {u : Overlapped} (hx : s.conns[c]? = some x)
    (hop : x.ops[i]? = some op) (hcallback : op.callback = .receiveBody)
    (hd : op.ov.deliver = some (p,u)) (hok : p.ec.failed = false) :
    Invokes s (.runHandler c i next fresh handler) x p.bytes
      (handler (x.request.setBodyLen p.bytes))

/-- All calls of an invocation are safe. -/
def InvokesSafely (s : HttpServer) (l : HandlerAct) : Prop :=
  ∀ x len calls, s.Invokes l x len calls → Safe ⟨x.request,x.response⟩ (bodyCalls len calls)

/-- Whenever a handler is invoked, it does what it has to. -/
def InvokesHandling (s : HttpServer) (l : HandlerAct) : Prop :=
  ∀ x len calls, s.Invokes l x len calls → Handles len calls

/-- Every response sent carries a status code that was set. -/
def SentDetermined (s : HttpServer) : Prop := ∀ x ∈ s.conns, x.SentDetermined

lemma invokesSafely_iff {s : HttpServer} (hs : ∃ lives, s.Represents lives) (l : HandlerAct) :
    s.InvokesSafely l ↔ s.InvokesHandling l := by
  refine forall_congr' fun x => forall_congr' fun len => forall_congr' fun calls =>
    forall_congr' fun h => ?_
  obtain ⟨lives,hs⟩ := hs
  cases h with | @mk c i next fresh handler _ op p u hx hop hcallback hd hok
  obtain ⟨life,-,hfollows⟩ := getElem?_of_forall₂ hs hx
  obtain ⟨r,-,hstage,-,htold⟩ := hfollows.deliver hop hd
  obtain ⟨y,hreading⟩ : ∃ y, life.stage = .reading y := by
    rw [hcallback] at hstage
    cases hlife : life.stage with
    | reading y => exact ⟨y,rfl⟩
    | listening | sending => simp [hlife,Stage.callback] at hstage
  rw [hreading] at htold
  have hrequest : x.request = (Stage.received y).written .receiveBody r.result := htold.request
  have hresponse : x.response = {} := htold.response rfl
  rw [← inOrder_bodyCalls_iff]
  refine safe_iff_inOrder ?_ ?_ ?_ _
  · rw [hrequest]
    rfl
  · simp only [hrequest,SimpleRequest.written,List.length_append,List.length_take,List.length_drop,
      Stage.length_received]
    omega
  · rw [hresponse]

lemma sentDetermined_step {s t : HttpServer} {l : HandlerAct} (h : s.SentDetermined)
    (hl : s.InvokesHandling l) (hstep : handlerMachine.step s l = some t) : t.SentDetermined := by
  have hmoves : s.Moves l.act t := step_cases hstep
  cases l with
  | finish c i result =>
    cases hmoves with | @finish _ _ _ x op u hx hi hu
    intro y hy
    obtain hy | rfl := List.mem_or_eq_of_mem_set hy
    · exact h y hy
    · exact HttpConnection.SentDetermined.answered (h x (List.mem_of_getElem? hx)) .throughPort
  | runHandler c i next fresh handler =>
    cases hmoves with | @runHandler _ _ _ x y op p u spawned hx hi hu hc
    have hset : HttpConnection.SentDetermined { x with ops := x.ops.set i { op with ov := u } } :=
      h x (List.mem_of_getElem? hx)
    have hhandles : op.callback = .receiveBody → p.ec.failed = false →
        Handles p.bytes (handler (x.request.setBodyLen p.bytes)) :=
      fun hcallback hok => hl x _ _ (.mk hx hi hcallback hu hok)
    obtain ⟨hy,hspawned⟩ := hset.complete hhandles hc
    intro z hz
    obtain hz | hz := List.mem_append.mp hz
    · obtain hz | rfl := List.mem_or_eq_of_mem_set hz
      · exact h z hz
      · exact hy
    · exact hspawned z (Option.mem_toList.mp hz)

lemma start_sentDetermined {first : OsResult} {s₀ : HttpServer} (hstart : start first = some s₀) :
    s₀.SentDetermined := by
  obtain ⟨x,hx,rfl⟩ := Option.map_eq_some_iff.mp hstart
  simpa [SentDetermined] using HttpConnection.start_sentDetermined hx

/-- In a run all calls of the handlers are safe if and only if each of them does what it has
to, and then every response sent carries a status code that was set. -/
theorem run_determined_iff {first : OsResult} {ls : List HandlerAct} {s₀ s : HttpServer}
    (hstart : start first = some s₀) (hrun : handlerMachine.run s₀ ls = some s) :
    handlerMachine.Along InvokesSafely s₀ ls ∧ handlerMachine.Throughout SentDetermined s₀ ls ↔
      handlerMachine.Along InvokesHandling s₀ ls := by
  have hrepresents := start_represents hstart
  have hkeep : ∀ s l t, (∃ lives, Represents s lives) → handlerMachine.step s l = some t →
      ∃ lives, Represents t lives :=
    fun s l t => represents_preserved s l.act t
  constructor
  · rintro ⟨hsafe,-⟩
    exact Machine.along_of_run (fun s l t hs hl hstep =>
      ⟨hkeep s l t hs hstep,(invokesSafely_iff hs l).mp hl⟩) hrun hrepresents hsafe
  · intro hhandling
    refine ⟨?_,Machine.throughout_of_along (fun _ _ _ => sentDetermined_step)
      (start_sentDetermined hstart) hhandling⟩
    exact Machine.along_of_run (fun s l t hs hl hstep =>
      ⟨hkeep s l t hs hstep,(invokesSafely_iff hs l).mpr hl⟩) hrun hrepresents hhandling

lemma handles_defaultHandler (len : ℕ) (request : SimpleRequest) :
    Handles len (defaultHandler request) where
  status := ⟨503,List.mem_cons_self⟩
  order before after h := by
    have hmem : .response .getResponse ∈ defaultHandler request := by simp [h]
    simp [defaultHandler] at hmem
  body c h := by simp [defaultHandler] at h

def HandlerAct.UsesDefault : HandlerAct → Prop
  | finish _ _ _ => True
  | runHandler _ _ _ _ handler => handler = defaultHandler

/-- A server without a handler of the user's sends no status code that was not set. -/
theorem determined_of_defaultHandler {first : OsResult} {ls : List HandlerAct} {s₀ s : HttpServer}
    (hstart : start first = some s₀) (hrun : handlerMachine.run s₀ ls = some s)
    (hdefault : ∀ l ∈ ls, l.UsesDefault) : handlerMachine.Along InvokesSafely s₀ ls ∧
      handlerMachine.Throughout SentDetermined s₀ ls := by
  refine (run_determined_iff hstart hrun).mpr ?_
  refine Machine.along_of_run (I := fun _ => True) (fun s l t _ hl _ => ⟨trivial,?_⟩) hrun trivial
    ((Machine.along_label_iff hrun).mpr hdefault)
  rintro x len calls ⟨hx,hop,hcallback,hd,hok⟩
  obtain rfl : _ = defaultHandler := hl
  exact handles_defaultHandler _ _

def requestReceived : OsResult := { status := noError, request := { requestId := 1 } }

/-- One request, whose body of two bytes comes later and is handled. -/
def oneRequest (handler : Handler) : List HandlerAct :=
  [.runHandler 0 0 { status := errorIoPending } { status := errorIoPending } handler,
    .finish 0 1 { status := noError, bytes := 2, data := [97,98] },
    .runHandler 0 1 { status := noError } { status := noError } handler]

end HttpServer
end Winext.Http
