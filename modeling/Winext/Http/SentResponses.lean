import Winext.Http.Handlers

/-! What a server sends whose connections hand on one handler: for every request that comes to
be answered, the response that the handler made of a new one. The object that the response
points into stays as it was when the response was sent. -/
namespace Winext.Http
open Lib

namespace HandlerCall

def op? : HandlerCall → Option SimpleResponse.Op
  | request _ => none
  | response op => some op

end HandlerCall

/-- What a handler does to the response. -/
def responseOps (calls : List HandlerCall) : List SimpleResponse.Op :=
  calls.filterMap HandlerCall.op?

lemma foldl_responseOps (s : SimpleResponse) (calls : List HandlerCall) :
    calls.foldl HandlerCall.apply s = (responseOps calls).foldl SimpleResponse.Op.apply s := by
  induction calls generalizing s with
  | nil => rfl
  | cons c calls ih => cases c <;> exact ih _

/-- On a new response, a handler leaves what its operations leave. -/
theorem Handler.run_eq_after (handler : Handler) (request : SimpleRequest) :
    handler.run request {} = SimpleResponse.after (responseOps (handler request)) :=
  foldl_responseOps {} (handler request)

namespace HttpConnection
variable {x y : HttpConnection} {callback : Callback} {op : Operation} {result : OsResult}
variable {handler : Handler}

/-- Whatever `handler_` was invoked on, it was this handler on a new response, of which the
connection still holds what `get_response` then made. -/
def Serves (handler : Handler) (x : HttpConnection) : Prop :=
  ∀ request before after, .invoked request before after ∈ x.log →
    before = {} ∧ after = handler.run request {} ∧ x.response = after.getResponse

lemma Serves.answered (h : x.Serves handler) (path : Path) :
    (x.answered callback path result).Serves handler := by
  intro request before after hmem
  simp only [HttpConnection.answered,List.mem_append,List.mem_singleton,reduceCtorEq,or_false] at hmem
  exact h request before after hmem

lemma Serves.issue (h : x.Serves handler) (hy : x.issue callback op result = some y) :
    y.Serves handler := by
  rw [HttpConnection.issue,exec_program] at hy
  simp only [Option.map_some,Option.some.injEq] at hy
  have hcalled : Serves handler { x with
      ops := x.ops ++ [⟨callback,settled op.receives result.status result.bytes⟩]
      log := x.log ++ [op.api].map .called } := by
    intro request before after hmem
    simp only [List.map_cons,List.map_nil,List.mem_append,List.mem_singleton,reduceCtorEq,
      or_false] at hmem
    exact h request before after hmem
  split_ifs at hy
  · exact hy ▸ hcalled
  · exact hy ▸ hcalled.answered .inside

lemma start_serves (h : start result = some x) : x.Serves handler := by
  have hfresh : Serves handler {} := fun _ _ _ hmem => absurd hmem (by simp)
  exact hfresh.issue h

/-- A connection that has not sent anything has not invoked `handler_`. -/
lemma Told.not_invoked {stage : Stage} {r : Reply} (h : x.Told stage r)
    (hstage : stage.receives = true) (request : SimpleRequest) (before after : SimpleResponse) :
    .invoked request before after ∉ x.log := by
  rw [h.log]
  cases stage with
  | listening | reading => simp [Stage.log]
  | sending => cases hstage

lemma Serves.complete {ec : ErrorCode} {len : ℕ} {next fresh : OsResult} {stage : Stage} {r : Reply}
    {spawned : Option HttpConnection} (h : x.Serves handler) (htold : x.Told stage r)
    (hcallback : callback = stage.callback)
    (hc : x.complete callback ec len ⟨next,fresh,handler.run⟩ = some (y,spawned)) :
    y.Serves handler ∧ ∀ f ∈ spawned, f.Serves handler := by
  cases complete_cases hc with
  | ends => exact ⟨h,by simp⟩
  | received hok hy hf =>
    refine ⟨h.issue hy,fun g hg => ?_⟩
    cases hg
    exact start_serves hf
  | readBody hok hy =>
    refine ⟨?_,by simp⟩
    have hreceives : stage.receives = true := by
      cases stage with
      | listening | reading => rfl
      | sending => cases hcallback
    -- the only invocation in the log is the one that is added
    have hserves : Serves handler { x with
        request := x.request.setBodyLen len
        response := (handler.run (x.request.setBodyLen len) x.response).getResponse
        log := x.log ++ [.invoked (x.request.setBodyLen len) x.response
          (handler.run (x.request.setBodyLen len) x.response)] } := by
      intro request before after hmem
      obtain hmem | hmem := List.mem_append.mp hmem
      · exact absurd hmem (htold.not_invoked hreceives request before after)
      · rw [List.mem_singleton] at hmem
        cases hmem
        rw [htold.response hreceives]
        exact ⟨rfl,rfl,rfl⟩
    exact hserves.issue hy

end HttpConnection

namespace HttpServer

/-- Connections hand their handler on to the next. -/
def HandlerAct.Uses (handler : Handler) : HandlerAct → Prop
  | finish _ _ _ => True
  | runHandler _ _ _ _ h => h = handler

def Serves (handler : Handler) (s : HttpServer) : Prop := ∀ x ∈ s.conns, x.Serves handler

lemma start_serves {first : OsResult} {s₀ : HttpServer} (hstart : start first = some s₀)
    (handler : Handler) : s₀.Serves handler := by
  obtain ⟨x,hx,rfl⟩ := Option.map_eq_some_iff.mp hstart
  intro y hy
  rw [List.mem_singleton.mp hy]
  exact HttpConnection.start_serves hx

theorem step_serves {s t : HttpServer} {l : HandlerAct} {handler : Handler}
    (hs : ∃ lives, s.Represents lives) (h : s.Serves handler) (hl : l.Uses handler)
    (hstep : handlerMachine.step s l = some t) : t.Serves handler := by
  have hmoves : s.Moves l.act t := step_cases hstep
  cases l with
  | finish c i result =>
    cases hmoves with | @finish _ _ _ x op u hx hi hu
    intro y hy
    obtain hy | rfl := List.mem_or_eq_of_mem_set hy
    · exact h y hy
    · exact HttpConnection.Serves.answered (h x (List.mem_of_getElem? hx)) .throughPort
  | runHandler c i next fresh handler' =>
    cases hl
    cases hmoves with | @runHandler _ _ _ x y op p u spawned hx hi hu hc
    obtain ⟨lives,hlives⟩ := hs
    obtain ⟨life,-,hfollows⟩ := getElem?_of_forall₂ hlives hx
    obtain ⟨r,-,hcallback,-,htold⟩ := hfollows.deliver hi hu
    have hset : HttpConnection.Serves handler { x with ops := x.ops.set i { op with ov := u } } :=
      h x (List.mem_of_getElem? hx)
    obtain ⟨hy,hspawned⟩ := hset.complete htold hcallback hc
    intro z hz
    obtain hz | hz := List.mem_append.mp hz
    · obtain hz | rfl := List.mem_or_eq_of_mem_set hz
      · exact h z hz
      · exact hy
    · exact hspawned z (Option.mem_toList.mp hz)

/-- In every state of a run, a connection that has sent a response has sent it for its own
request, built from what the handler did to a new one; and what the response points to is
still as it was then, so that HTTP.sys reads the same whenever it reads it. -/
theorem sent_response_stays {first : OsResult} {ls : List HandlerAct} {s₀ s : HttpServer}
    {handler : Handler} (hstart : start first = some s₀)
    (hrun : handlerMachine.run s₀ ls = some s) (huses : ∀ l ∈ ls, l.Uses handler) :
    ∀ x ∈ s.conns, ∀ id flags resp, .called (.httpSendHttpResponse id flags resp) ∈ x.log →
      ∃ request, .invoked request {} (handler.run request {}) ∈ x.log ∧
        id = request.getRequestId ∧ resp = x.response.resp ∧
        x.response = (SimpleResponse.after (responseOps (handler request))).getResponse := by
  have hkept : (∃ lives, s.Represents lives) ∧ s.Serves handler := by
    refine Machine.run_along (C := fun _ l => l.Uses handler)
      (I := fun s => (∃ lives, Represents s lives) ∧ s.Serves handler) ?_ hrun
      ⟨start_represents hstart,start_serves hstart handler⟩ ((Machine.along_label_iff hrun).mpr huses)
    rintro s l t ⟨hlives,hserves⟩ hl hstep
    exact ⟨represents_preserved s l.act t hlives hstep,step_serves hlives hserves hl hstep⟩
  obtain ⟨⟨lives,hlives⟩,hserves⟩ := hkept
  intro x hx id flags resp hsent
  obtain ⟨n,hn⟩ := List.mem_iff_getElem?.mp hx
  obtain ⟨life,-,hfollows⟩ := getElem?_of_forall₂ hlives hn
  rw [hfollows.log] at hsent
  obtain ⟨y,z,response,hstage,rfl,-,rfl⟩ := Life.sent_mem_log.mp hsent
  have hinvoked : .invoked (Stage.complete y z) {} response ∈ x.log := by
    rw [hfollows.log]
    simp [Life.log,hstage,Stage.log]
  obtain ⟨-,rfl,hresponse⟩ := hserves x hx _ _ _ hinvoked
  refine ⟨Stage.complete y z,hinvoked,rfl,by rw [hresponse],?_⟩
  rw [hresponse,Handler.run_eq_after]

theorem sent_response_stays_default : ∃ s₀ s, start requestReceived = some s₀ ∧
    handlerMachine.run s₀ (oneRequest defaultHandler) = some s ∧
    ∃ x ∈ s.conns, ∃ request, x.response =
      (SimpleResponse.after (responseOps (defaultHandler request))).getResponse := by
  have hkept : ∀ s₀ s, start requestReceived = some s₀ →
      handlerMachine.run s₀ (oneRequest defaultHandler) = some s →
      ∀ x ∈ s.conns, ∀ id flags resp, .called (.httpSendHttpResponse id flags resp) ∈ x.log →
      ∃ request, x.response =
        (SimpleResponse.after (responseOps (defaultHandler request))).getResponse := by
    intro s₀ s hstart hrun x hx id flags resp hsent
    have huses : ∀ l ∈ oneRequest defaultHandler, l.Uses defaultHandler := by
      simp [oneRequest,HandlerAct.Uses]
    obtain ⟨request,-,-,-,hresponse⟩ := sent_response_stays hstart hrun huses x hx id flags resp hsent
    exact ⟨request,hresponse⟩
  refine ⟨_,_,rfl,rfl,_,List.mem_cons_self,hkept _ _ rfl rfl _ List.mem_cons_self _ _ _
    (List.mem_of_getElem? (i := 5) rfl)⟩

end HttpServer
end Winext.Http
