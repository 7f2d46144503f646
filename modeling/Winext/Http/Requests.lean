import Mathlib.Data.List.Flatten
import Winext.Http.ConnectionLife

/-! What becomes of a received request: whether its handler sees the whole body, whether it
is answered at all, and that no answer goes to another request. -/
namespace Winext.Http
open Lib

namespace Reply

/-- A receiving operation is told of a success for NO_ERROR, and for the end of data inside
its call. -/
theorem packet_succeeds_iff (y : Reply) : (y.packet true).ec.failed = false ↔
    y.result.status = noError ∨ (y.path = .inside ∧ y.result.status = errorHandleEof) := by
  simp only [packet,Path.told,true_and]
  split_ifs with h
  · simp [h]
  · simp only [ErrorCode.failed_mk,bne_eq_false_iff_eq,h,or_false]
    rfl

end Reply

/-- The bytes of the body, when the reply is a success that keeps to its buffer. -/
theorem getBodyString_complete {y z : Reply} (hz : (z.packet true).ec.failed = false)
    (hfills : z.result.status = noError →
      z.result.bytes = z.result.data.length ∧ z.result.data.length ≤ 1024) :
    (Stage.complete y z).getBodyString =
      some (if z.result.status = noError then z.result.data else []) := by
  have hlen := Stage.length_received y
  by_cases h0 : z.result.status = noError
  · obtain ⟨hbytes,hle⟩ := hfills h0
    have hcount : (z.packet true).bytes = z.result.data.length := by
      simp [Reply.packet,h0,hbytes]
    simp only [Stage.complete,SimpleRequest.getBodyString,SimpleRequest.setBodyLen,
      SimpleRequest.written,Option.bind_some,hcount,hlen,h0,if_true]
    rw [List.take_of_length_le hle,List.take_left',if_pos]
    · simp only [List.length_append]
      omega
    · rfl
  · obtain h | ⟨hinside,heof⟩ := z.packet_succeeds_iff.mp hz
    · exact absurd h h0
    have hcount : (z.packet true).bytes = 0 := by simp [Reply.packet,h0,hinside]
    simp [Stage.complete,SimpleRequest.getBodyString,SimpleRequest.setBodyLen,hcount,h0]

namespace HttpConnection

/-- The results of the calls for the body, in their order. -/
def bodyResults (x : HttpConnection) : List (Dword × ℕ × Bytes) :=
  x.log.filterMap fun
    | .answered .receiveBody _ r => some (r.status,r.bytes,r.data)
    | _ => none

/-- The body is handed out in these parts, followed by the end of data. -/
def HandsOut (x : HttpConnection) (parts : List Bytes) : Prop :=
  x.bodyResults <+: parts.map (fun p => (noError,p.length,p)) ++ [(errorHandleEof,0,[])]

def sentIds (x : HttpConnection) : List RequestId :=
  x.log.filterMap fun
    | .called (.httpSendHttpResponse requestId _ _) => some requestId
    | _ => none

lemma mem_sentIds {x : HttpConnection} {id : RequestId} {flags : Dword} {resp : HttpResponse}
    (h : .called (.httpSendHttpResponse id flags resp) ∈ x.log) : id ∈ x.sentIds :=
  List.mem_filterMap.mpr ⟨_,h,rfl⟩

def receivedIds (x : HttpConnection) : List RequestId :=
  x.log.filterMap fun
    | .answered .receiveRequest _ r =>
      if r.status = noError then some r.request.requestId else none
    | _ => none

/-- When no operation is outstanding, the last handler has run. -/
theorem Follows.over_of_done {x : HttpConnection} {life : Life} (hx : x.Follows life)
    (hdone : ∀ op ∈ x.ops, op.ov.outstanding = false) : life.ended = true := by
  obtain ⟨earlier,o,hops,-,hprogress⟩ := hx.ops
  have hlast : o.outstanding = false := hdone ⟨life.stage.callback,o⟩ (by simp [hops])
  generalize life.reply = reply,life.ended = ended at hprogress ⊢
  cases hprogress with
  | waiting => cases hlast
  | posted => simp [Overlapped.outstanding] at hlast
  | told => rfl

/-- The results for a body whose handler has been invoked: there is only one. -/
lemma bodyResults_of_sending {x : HttpConnection} {life : Life} (hx : x.Follows life)
    {y z : Reply} {response : SimpleResponse} (hstage : life.stage = .sending y z response) :
    x.bodyResults = [(z.result.status,z.result.bytes,z.result.data)] := by
  obtain ⟨stage,reply,ended⟩ := life
  cases hstage
  rw [bodyResults,hx.log]
  cases reply <;> rfl

end HttpConnection

namespace HttpServer

/-- In every run, a handler is invoked with the whole of a body that HTTP.sys hands out in
non-empty parts, if and only if it is handed out in at most one part. -/
theorem handler_sees_body_iff (first : OsResult) (ls : List Act) (s₀ s : HttpServer)
    (hstart : start first = some s₀) (hrun : machine.run s₀ ls = some s)
    (x : HttpConnection) (hx : x ∈ s.conns) (parts : List Bytes)
    (hparts : ∀ p ∈ parts, p ≠ [] ∧ p.length ≤ 1024) (hout : x.HandsOut parts)
    (request : SimpleRequest) (before after : SimpleResponse)
    (hinvoked : .invoked request before after ∈ x.log) :
    request.getBodyString = some parts.flatten ↔ parts.length ≤ 1 := by
  obtain ⟨life,hlife⟩ := follows_of_run hstart hrun hx
  rw [hlife.log] at hinvoked
  obtain ⟨y,z,hstage,rfl⟩ := Life.sending_of_invoked hinvoked
  have hfair := hlife.fair
  rw [hstage] at hfair
  rw [HttpConnection.HandsOut,HttpConnection.bodyResults_of_sending hlife hstage] at hout
  cases parts with
  | nil =>
    obtain ⟨hresult,-⟩ := List.cons_prefix_cons.mp hout
    have hstatus : z.result.status = errorHandleEof := congrArg Prod.fst hresult
    have hne : z.result.status ≠ noError := by
      rw [hstatus]
      exact eof_ne.1
    rw [getBodyString_complete hfair.2 fun h => absurd h hne,if_neg hne]
    simp
  | cons p rest =>
    obtain ⟨hresult,-⟩ := List.cons_prefix_cons.mp hout
    simp only [Prod.mk.injEq] at hresult
    obtain ⟨hstatus,hbytes,hdata⟩ := hresult
    have hlen := (hparts p List.mem_cons_self).2
    rw [getBodyString_complete hfair.2 fun _ => ⟨hbytes.trans (by rw [hdata]),hdata ▸ hlen⟩,
      if_pos hstatus,hdata,Option.some_inj,List.flatten_cons]
    constructor
    · intro h
      have hnil : rest.flatten = [] := by simpa using h
      cases rest with
      | nil => simp
      | cons q qs =>
        have hq := (hparts q (by simp)).1
        simp only [List.flatten_cons,List.append_eq_nil_iff] at hnil
        exact absurd hnil.1 hq
    · intro h
      have hrest : rest = [] := by simpa using h
      simp [hrest]

/-- A request, a body that comes later and ends as given, and whatever handlers may run. -/
def bodyRun (body : OsResult) : List Act :=
  [.runHandler 0 0 ⟨{ status := errorIoPending },{ status := errorIoPending },fun _ r => r⟩,
    .finish 0 1 body,
    .runHandler 0 1 ⟨{ status := noError },{ status := noError },fun _ r => r.setStatusCode 200⟩]

def firstRequest : OsResult := { status := noError, request := { requestId := 1 } }

theorem handler_sees_body_iff_onePart : ∃ s₀ s x request before after,
    start firstRequest = some s₀ ∧
    machine.run s₀ (bodyRun { status := noError, bytes := 2, data := [97,98] }) = some s ∧
    x ∈ s.conns ∧ .invoked request before after ∈ x.log ∧
    request.getBodyString = some [[97,98]].flatten := by
  refine ⟨_,_,_,_,_,_,rfl,rfl,List.mem_cons_self,List.mem_of_getElem? (i := 4) rfl,?_⟩
  exact (handler_sees_body_iff firstRequest
    (bodyRun { status := noError, bytes := 2, data := [97,98] }) _ _ rfl rfl _ List.mem_cons_self
    [[97,98]] (by simp) ⟨[(errorHandleEof,0,[])],rfl⟩ _ _ _
    (List.mem_of_getElem? (i := 4) rfl)).mpr (by decide)

/-- A body of two bytes that HTTP.sys hands out one by one: the handler sees the first. -/
theorem handler_misses_part : ¬∀ (first : OsResult) (ls : List Act) (s₀ s : HttpServer),
    start first = some s₀ → machine.run s₀ ls = some s → ∀ x ∈ s.conns, ∀ parts : List Bytes,
    (∀ p ∈ parts, p ≠ [] ∧ p.length ≤ 1024) → x.HandsOut parts →
    ∀ request before after, .invoked request before after ∈ x.log →
    request.getBodyString = some parts.flatten := by
  intro h
  have hall := h firstRequest (bodyRun { status := noError, bytes := 1, data := [97] }) _ _ rfl rfl _
    List.mem_cons_self [[97],[98]] (by simp) ⟨[(noError,1,[98]),(errorHandleEof,0,[])],rfl⟩ _ _ _
    (List.mem_of_getElem? (i := 4) rfl)
  have hseen := getBodyString_complete (y := ⟨.inside,firstRequest⟩)
    (z := ⟨.throughPort,{ status := noError, bytes := 1, data := [97] }⟩) (by decide)
    fun _ => ⟨rfl,by decide⟩
  exact absurd (hseen.symm.trans hall) (by decide)

/-- In every run, a received request with no operation left is answered, if and only if the
receive of its body ended with NO_ERROR, or with the end of data inside the call. -/
theorem received_answered_iff (first : OsResult) (ls : List Act) (s₀ s : HttpServer)
    (hstart : start first = some s₀) (hrun : machine.run s₀ ls = some s)
    (x : HttpConnection) (hx : x ∈ s.conns) (path : Path) (r : OsResult)
    (hreceived : .answered .receiveRequest path r ∈ x.log) (hok : r.status = noError)
    (hdone : ∀ op ∈ x.ops, op.ov.outstanding = false) :
    (∃ flags resp, .called (.httpSendHttpResponse r.request.requestId flags resp) ∈ x.log) ↔
      ∃ path' b, .answered .receiveBody path' b ∈ x.log ∧
        (b.status = noError ∨ (path' = .inside ∧ b.status = errorHandleEof)) := by
  obtain ⟨life,hlife⟩ := follows_of_run hstart hrun hx
  have hover := hlife.over_of_done hdone
  have hfailed := hlife.failed hover
  have hfair := hlife.fair
  simp only [hlife.log,Life.answered_mem_log,Life.sent_mem_log] at hreceived ⊢
  obtain ⟨stage,reply,ended⟩ := life
  cases hover
  cases stage with
  | listening =>
    -- the receive succeeded, so its handler would have begun the next stage
    have hsucceeds := (Reply.mk path r).packet_succeeds_iff.mpr (Or.inl hok)
    simp [hfailed rfl _ hreceived] at hsucceeds
  | reading y =>
    refine iff_of_false ?_ ?_
    · rintro ⟨flags,resp,y',z,response,hstage,-⟩
      cases hstage
    · rintro ⟨path',b,h,hb⟩
      have hsucceeds := (Reply.mk path' b).packet_succeeds_iff.mpr hb
      simp [hfailed rfl _ h] at hsucceeds
  | sending y z response =>
    cases hreceived
    exact iff_of_true ⟨_,_,_,z,response,rfl,rfl,rfl,rfl⟩
      ⟨z.path,z.result,rfl,z.packet_succeeds_iff.mp hfair.2⟩

theorem received_answered_iff_later : ∃ s₀ s x, start firstRequest = some s₀ ∧
    machine.run s₀ (bodyRun { status := noError, bytes := 2, data := [97,98] } ++
      [.runHandler 0 2 ⟨{ status := noError },{ status := noError },fun _ r => r⟩]) = some s ∧
    x ∈ s.conns ∧ ∃ flags resp, .called (.httpSendHttpResponse 1 flags resp) ∈ x.log := by
  refine ⟨_,_,_,rfl,rfl,List.mem_cons_self,?_⟩
  exact (received_answered_iff firstRequest
    (bodyRun { status := noError, bytes := 2, data := [97,98] } ++
      [.runHandler 0 2 ⟨{ status := noError },{ status := noError },fun _ r => r⟩]) _ _ rfl rfl _
    List.mem_cons_self .inside firstRequest (List.mem_of_getElem? (i := 1) rfl) rfl
    (by decide)).mpr ⟨.throughPort,{ status := noError, bytes := 2, data := [97,98] },
      List.mem_of_getElem? (i := 3) rfl,Or.inl rfl⟩

/-- The end of the data of a body comes through the port: its request is not answered. -/
theorem received_abandoned : ¬∀ (first : OsResult) (ls : List Act) (s₀ s : HttpServer),
    start first = some s₀ → machine.run s₀ ls = some s → ∀ x ∈ s.conns, ∀ path r,
    .answered .receiveRequest path r ∈ x.log → r.status = noError →
    (∀ op ∈ x.ops, op.ov.outstanding = false) →
    ∃ flags resp, .called (.httpSendHttpResponse r.request.requestId flags resp) ∈ x.log := by
  intro h
  obtain ⟨flags,resp,hsent⟩ := h firstRequest (bodyRun { status := errorHandleEof }) _ _ rfl rfl _
    List.mem_cons_self .inside firstRequest (List.mem_of_getElem? (i := 1) rfl) rfl (by decide)
  exact absurd (HttpConnection.mem_sentIds hsent) (by decide)

/-- What HTTP.sys is relied on for. -/
structure HttpSys (s : HttpServer) : Prop where
  /-- Distinct requests have distinct ids. -/
  distinct : (s.conns.flatMap HttpConnection.receivedIds).Nodup
  /-- A receive with the null id never reports the end of data. -/
  nullId : ∀ x ∈ s.conns, ∀ flags room path r,
    .called (.httpReceiveHttpRequest httpNullId flags room) ∈ x.log →
    .answered .receiveRequest path r ∈ x.log → r.status ≠ errorHandleEof
  /-- A call for the body fills only the buffer it was given. -/
  fills : ∀ x ∈ s.conns, ∀ requestId flags length path r,
    .called (.httpReceiveRequestEntityBody requestId flags length) ∈ x.log →
    .answered .receiveBody path r ∈ x.log → r.status = noError →
    r.bytes = r.data.length ∧ r.data.length ≤ length

lemma received_noError {s : HttpServer} (hsys : s.HttpSys) {x : HttpConnection} (hx : x ∈ s.conns)
    {life : Life} (hlife : x.Follows life) {y z : Reply} {response : SimpleResponse}
    (hstage : life.stage = .sending y z response) : y.result.status = noError := by
  obtain ⟨stage,reply,ended⟩ := life
  cases hstage
  obtain h | ⟨-,heof⟩ := y.packet_succeeds_iff.mp hlife.fair.1
  · exact h
  · refine absurd heof (hsys.nullId x hx 0 2048 y.path y.result ?_ ?_)
    · simp [hlife.log,Life.log,Stage.log,Stage.call]
    · rw [hlife.log]
      exact Life.answered_mem_log.mpr rfl

lemma sentIds_sublist {s : HttpServer} (hsys : s.HttpSys) {x : HttpConnection} (hx : x ∈ s.conns)
    {life : Life} (hlife : x.Follows life) :
    List.Sublist x.sentIds x.receivedIds := by
  obtain ⟨stage,reply,ended⟩ := life
  cases hstage : stage with
  | listening | reading =>
    subst hstage
    have hnone : x.sentIds = [] := by
      rw [HttpConnection.sentIds,hlife.log]
      cases reply <;> rfl
    rw [hnone]
    exact List.nil_sublist _
  | sending y z response =>
    have h0 := received_noError hsys hx hlife hstage
    subst hstage
    have hsent : x.sentIds = [y.result.request.requestId] := by
      rw [HttpConnection.sentIds,hlife.log]
      cases reply <;> rfl
    have hreceived : x.receivedIds = [y.result.request.requestId] := by
      rw [HttpConnection.receivedIds,hlife.log]
      cases reply <;> simp [Life.log,Stage.log,Stage.callback,h0]
    rw [hsent,hreceived]

/-- In every run, a response is sent for the request that the same connection has received,
after one invocation of `handler_` on the connection's own objects, with that request's
headers and the bytes of its body, and no request is answered twice. -/
theorem responses_not_mixed (first : OsResult) (ls : List Act) (s₀ s : HttpServer)
    (hstart : start first = some s₀) (hrun : machine.run s₀ ls = some s) (hsys : s.HttpSys) :
    (∀ x ∈ s.conns, ∀ id flags resp, .called (.httpSendHttpResponse id flags resp) ∈ x.log →
      ∃ path r path' b request response later,
        x.log = [.called (.httpReceiveHttpRequest httpNullId 0 2048),
          .answered .receiveRequest path r,
          .called (.httpReceiveRequestEntityBody id 0 1024),.answered .receiveBody path' b,
          .invoked request {} response,.called (.httpSendHttpResponse id flags resp)] ++ later ∧
        (∀ e ∈ later, ∃ path r, e = .answered .sendResponse path r) ∧
        r.status = noError ∧ id = r.request.requestId ∧ request.request = r.request ∧
        request.getBodyString = some (if b.status = noError then b.data else []) ∧
        resp = response.getResponse.resp) ∧
    (s.conns.flatMap HttpConnection.sentIds).Nodup := by
  refine ⟨fun x hx id flags resp hsent => ?_,?_⟩
  · obtain ⟨life,hlife⟩ := follows_of_run hstart hrun hx
    rw [hlife.log] at hsent
    obtain ⟨y,z,response,hstage,rfl,rfl,rfl⟩ := Life.sent_mem_log.mp hsent
    have h0 := received_noError hsys hx hlife hstage
    obtain ⟨stage,reply,ended⟩ := life
    cases hstage
    have hfills : z.result.status = noError →
        z.result.bytes = z.result.data.length ∧ z.result.data.length ≤ 1024 := by
      refine hsys.fills x hx y.result.request.requestId 0 1024 z.path z.result ?_ ?_
      · simp [hlife.log,Life.log,Stage.log,Stage.call]
      · rw [hlife.log]
        exact Life.answered_mem_log.mpr rfl
    refine ⟨y.path,y.result,z.path,z.result,Stage.complete y z,response,_,hlife.log,?_,h0,rfl,
      rfl,getBodyString_complete hlife.fair.2 hfills,rfl⟩
    intro e he
    obtain ⟨w,-,rfl⟩ := List.mem_map.mp he
    exact ⟨w.path,w.result,rfl⟩
  · refine hsys.distinct.sublist (List.Sublist.flatMap_right _ fun x hx => ?_)
    obtain ⟨life,hlife⟩ := follows_of_run hstart hrun hx
    exact sentIds_sublist hsys hx hlife

/-- A check on single events by which HTTP.sys can be seen to keep to its buffers. -/
def keepsTo (room : ℕ) : Event → Bool
  | .answered _ _ r =>
    r.status != errorHandleEof && r.bytes == r.data.length && decide (r.data.length ≤ room)
  | .called (.httpReceiveRequestEntityBody _ _ length) => decide (room ≤ length)
  | _ => true

lemma httpSys_of_keepsTo {s : HttpServer} (room : ℕ)
    (hdistinct : (s.conns.flatMap HttpConnection.receivedIds).Nodup)
    (hlogs : ∀ x ∈ s.conns, ∀ e ∈ x.log, keepsTo room e = true) : s.HttpSys where
  distinct := hdistinct
  nullId x hx _ _ _ r _ hr := by
    have h := hlogs x hx _ hr
    simp only [keepsTo,Bool.and_eq_true,bne_iff_ne] at h
    exact h.1.1
  fills x hx _ _ _ _ r hc hr _ := by
    have h := hlogs x hx _ hr
    have hlength := hlogs x hx _ hc
    simp only [keepsTo,Bool.and_eq_true,beq_iff_eq,decide_eq_true_eq] at h hlength
    exact ⟨h.1.2,Nat.le_trans h.2 hlength⟩

/-- Two connections. The second one receives a request while the first one waits for its body,
and answers it first. -/
def twoAnswers : List Act :=
  [.runHandler 0 0 ⟨{ status := errorIoPending },{ status := errorIoPending },fun _ r => r⟩,
    .finish 1 0 { status := noError, request := { requestId := 2 } },
    .runHandler 1 0 ⟨{ status := errorIoPending },{ status := errorIoPending },fun _ r => r⟩,
    .finish 1 1 { status := noError, bytes := 1, data := [99] },
    .finish 0 1 { status := noError, bytes := 2, data := [97,98] },
    .runHandler 1 1 ⟨{ status := noError },{ status := noError },fun _ r => r.setStatusCode 404⟩,
    .runHandler 0 1 ⟨{ status := noError },{ status := noError },fun _ r => r.setStatusCode 200⟩]

theorem responses_not_mixed_two : ∃ s₀ s x flags resp, start firstRequest = some s₀ ∧
    machine.run s₀ twoAnswers = some s ∧ s.conns[1]? = some x ∧
    .called (.httpSendHttpResponse 2 flags resp) ∈ x.log ∧
    (∃ path r path' b request response later,
      x.log = [.called (.httpReceiveHttpRequest httpNullId 0 2048),
        .answered .receiveRequest path r,
        .called (.httpReceiveRequestEntityBody 2 0 1024),.answered .receiveBody path' b,
        .invoked request {} response,.called (.httpSendHttpResponse 2 flags resp)] ++ later ∧
      (∀ e ∈ later, ∃ path r, e = .answered .sendResponse path r) ∧
      r.status = noError ∧ 2 = r.request.requestId ∧ request.request = r.request ∧
      request.getBodyString = some (if b.status = noError then b.data else []) ∧
      resp = response.getResponse.resp) ∧
    s.conns.flatMap HttpConnection.sentIds = [1,2] ∧
    (s.conns.flatMap HttpConnection.sentIds).Nodup := by
  have hanswers := responses_not_mixed firstRequest twoAnswers _ _ rfl rfl
    (httpSys_of_keepsTo 2 (by decide) (by decide +kernel))
  exact ⟨_,_,_,_,_,rfl,rfl,rfl,List.mem_of_getElem? (i := 5) rfl,
    hanswers.1 _ (List.mem_of_getElem? (i := 1) rfl) 2 _ _ (List.mem_of_getElem? (i := 5) rfl),
    by decide,hanswers.2⟩

end HttpServer
end Winext.Http
