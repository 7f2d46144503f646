import Winext.Http.BeastConnections

/-! The responses of `beast_server`: one for every request that was read, made from that request
alone, and numbered without a gap where it tells the number of requests. -/
namespace Winext.Beast
open Lib Http

/-- The request asks for the number of requests. -/
def Request.asksCount (r : Request) : Bool := r.method == .get && r.target == text "/count"

/-- The text that a request is due. -/
def Request.page (r : Request) (now : Int) (count : UInt64) : Bytes :=
  match r.method with
  | .get =>
    if r.target = text "/count" then countPage count
    else if r.target = text "/time" then timePage now
    else text "File not found\r\n"
  | .other methodString => text "Invalid request-method '" ++ methodString ++ text "'"

/-- The response that a request is due, when `requestCount` is due to answer `count`. -/
def Request.answer (r : Request) (now : Int) (count : UInt64) : Response where
  version := r.version
  keepAlive := false
  result :=
    match r.method with
    | .get => if r.target = text "/count" ∨ r.target = text "/time" then .ok else .notFound
    | .other _ => .badRequest
  server :=
    match r.method with
    | .get => some (text "Beast")
    | .other _ => none
  contentType :=
    match r.method with
    | .get =>
      if r.target = text "/count" ∨ r.target = text "/time" then some (text "text/html")
      else some (text "text/plain")
    | .other _ => some (text "text/plain")
  contentLength := some (r.page now count).length
  body := r.page now count

theorem processRequest_eq (r : Request) (now : Int) (count : UInt64) :
    processRequest r {} now count =
      (r.answer now (count + 1),if r.asksCount then count + 1 else count) := by
  obtain ⟨version,method,target⟩ := r
  cases method with
  | other methodString =>
    simp [processRequest,Request.answer,Request.page,Request.asksCount,Response.write]
  | get =>
    by_cases hcount : target = text "/count"
    · simp [processRequest,createResponse,Request.answer,Request.page,Request.asksCount,
        Response.write,requestCount,hcount]
    · by_cases htime : target = text "/time"
      · have hne : text "/time" ≠ text "/count" := htime ▸ hcount
        simp [processRequest,createResponse,Request.answer,Request.page,Request.asksCount,
          Response.write,htime,hne]
      · simp [processRequest,createResponse,Request.answer,Request.page,Request.asksCount,
          Response.write,hcount,htime]

namespace Connection
variable {x y : Connection}

/-- No response has been made yet, or one was made from an empty one. -/
def Fresh (x : Connection) : Prop := x.write = .idle → x.response = {}

lemma release_fields (x : Connection) : x.release.read = x.read ∧ x.release.write = x.write ∧
    x.release.response = x.response := by
  unfold release
  split_ifs <;> exact ⟨rfl,rfl,rfl⟩

/-- The connection has read the request and made the response for it. -/
def Answered (x : Connection) (request : Request) (response : Response) : Prop :=
  ∃ ec, x.read = .handled (ec,request) ∧ ec.failed = false ∧ x.response = response

/-- No step but the read's handler touches the request and the response. -/
lemma change_response {l : Act} {c : ℕ} {f : Connection → Option Connection}
    (hl : l.change = some (c,f)) (hy : f x = some y) : y.response = x.response ∧
      (y.write = .idle → x.write = .idle) ∧
      ∀ a, y.read = .handled a ↔ x.read = .handled a := by
  have hflushed : ∀ x : Connection, x.flushed.response = x.response ∧
      x.flushed.write = x.write ∧ x.flushed.read = x.read := by
    intro x
    unfold flushed
    split_ifs <;> exact ⟨rfl,rfl,rfl⟩
  cases l with
  | onAccept | onRead => cases hl
  | readEnds | writeEnds | expires =>
    cases hl
    simp only [readEnds,writeEnds,expires,Option.ite_none_right_eq_some] at hy
    obtain ⟨hpending,hy⟩ := hy
    cases hy
    simp [hpending]
  | clientReads | clientLeaves =>
    cases hl
    simp only [clientReads,clientLeaves,Option.ite_none_right_eq_some] at hy
    obtain ⟨-,hy⟩ := hy
    cases hy
    simp [hflushed]
  | onWrite =>
    cases hl
    cases hw : x.write with
    | idle | pending | handled => simp [onWrite,hw] at hy
    | ended ec =>
      simp only [onWrite,hw,Option.some.injEq] at hy
      subst hy
      simp [release_fields]
  | onDeadline =>
    cases hl
    cases hd : x.deadline with
    | idle | pending | handled => simp [onDeadline,hd] at hy
    | ended ec =>
      simp only [onDeadline,hd,Option.some.injEq] at hy
      subst hy
      simp [release_fields]

/-- What the read's handler leaves: nothing is written, or the answer is. -/
inductive Reads (x : Connection) (now : Int) (count : UInt64) : Connection → UInt64 → Prop
  | fails {y : Connection} {ec : ErrorCode} {request : Request} (hec : ec.failed = true)
    (hread : y.read = .handled (ec,request)) (hwrite : y.write = x.write)
    (hresponse : y.response = x.response) : Reads x now count y count
  | answers {y : Connection} {ec : ErrorCode} {request : Request} (hec : ec.failed = false)
    (hread : y.read = .handled (ec,request)) (hwrite : y.write = .pending)
    (hresponse : y.response = request.answer now (count + 1)) :
    Reads x now count y (if request.asksCount then count + 1 else count)

theorem onRead_cases {now : Int} {count count' : UInt64} (h : x.Sound) (hfresh : x.Fresh)
    (hy : x.onRead now count = some (y,count')) :
    (∀ a, x.read ≠ .handled a) ∧ Reads x now count y count' := by
  cases hr : x.read with
  | idle | pending | handled => simp [onRead,hr] at hy
  | ended a =>
    obtain ⟨ec,request⟩ := a
    refine ⟨by simp,?_⟩
    have hempty : x.response = {} := hfresh (h.not_writing (by simp [hr]))
    simp only [onRead,hr,hempty,processRequest_eq] at hy
    by_cases hec : ec.failed = true
    · rw [if_pos hec] at hy
      cases hy
      obtain ⟨hread,hwrite,hresponse⟩ := release_fields { x with
        read := .handled (ec,request)
        response := {} }
      exact .fails hec hread hwrite (hresponse.trans hempty.symm)
    · rw [if_neg hec] at hy
      cases hy
      obtain ⟨hread,hwrite,hresponse⟩ := release_fields { x with
        read := .handled (ec,request)
        response := request.answer now (count + 1)
        write := .pending }
      exact .answers ((Bool.not_eq_true _).mp hec) hread hwrite hresponse

end Connection

namespace Server

/-- The requests that ask for the number of requests, in the order in which they were
processed, are told 1, 2, 3 and so on. -/
def Counts (s : Server) : Prop :=
  ∃ n, s.count = UInt64.ofNat n ∧ (s.log.filter fun e => e.2.1.asksCount).map (fun e => e.2.2.body) =
    (List.range n).map fun k => countPage (UInt64.ofNat (k + 1))

/-- The log has one entry for each connection whose request was read, with that request and
the response that the connection has made. -/
structure Books (s : Server) : Prop where
  sound : ∀ x ∈ s.conns, x.Sound ∧ x.Fresh
  once : (s.log.map Prod.fst).Nodup
  mem : ∀ c request response, (c,request,response) ∈ s.log ↔
    ∃ x, s.conns[c]? = some x ∧ x.Answered request response
  answers : ∀ e ∈ s.log, ∃ now count, e.2.2 = e.2.1.answer now count
  counts : s.Counts

lemma books_start : Books {} where
  sound := by simp
  once := List.nodup_nil
  mem := by simp
  answers := by simp
  counts := ⟨0,rfl,rfl⟩

/-- A connection whose request has not been read is not in the log. -/
lemma Books.not_logged {s : Server} (h : s.Books) {c : ℕ} {x : Connection}
    (hx : s.conns[c]? = some x) (hread : ∀ a, x.read ≠ .handled a) : c ∉ s.log.map Prod.fst := by
  intro hmem
  obtain ⟨⟨d,request,response⟩,he,rfl⟩ := List.mem_map.mp hmem
  obtain ⟨z,hz,ec,hhandled,-⟩ := (h.mem d request response).mp he
  cases hx.symm.trans hz
  exact hread _ hhandled

lemma Books.set {s : Server} (h : s.Books) {c : ℕ} {y : Connection}
    (hy : y.Sound ∧ y.Fresh) : ∀ z ∈ s.conns.set c y, z.Sound ∧ z.Fresh := by
  intro z hz
  obtain hz | rfl := List.mem_or_eq_of_mem_set hz
  · exact h.sound z hz
  · exact hy

/-- A request that asks for the number is told the next one, and any other leaves it. -/
lemma Counts.answer {s t : Server} (h : s.Counts) {c : ℕ} {request : Request} (now : Int)
    (hcount : t.count = if request.asksCount then s.count + 1 else s.count)
    (hlog : t.log = s.log ++ [(c,request,request.answer now (s.count + 1))]) : t.Counts := by
  obtain ⟨n,hn,hpages⟩ := h
  have hfilter : t.log.filter (fun e => e.2.1.asksCount) = s.log.filter (fun e => e.2.1.asksCount) ++
      if request.asksCount then [(c,request,request.answer now (s.count + 1))] else [] := by
    rw [hlog,List.filter_append,List.filter_cons,List.filter_nil]
  cases hasks : request.asksCount with
  | false => exact ⟨n,by simpa [hasks,hn] using hcount,by simp [hfilter,hasks,hpages]⟩
  | true =>
    have hnext : s.count + 1 = UInt64.ofNat (n + 1) := by rw [hn]; simp
    have hpage : request.page now (s.count + 1) = countPage (UInt64.ofNat (n + 1)) := by
      rw [← hnext]
      simp only [Request.asksCount,Bool.and_eq_true,beq_iff_eq] at hasks
      simp [Request.page,hasks]
    refine ⟨n + 1,by simpa [hasks,hnext] using hcount,?_⟩
    rw [hfilter,hasks,if_pos rfl,List.map_append,hpages,List.range_succ,List.map_append,
      List.map_singleton,List.map_singleton]
    exact congrArg _ (congrArg (fun p => [p]) hpage)

section Kept
variable {s : Server} {c : ℕ} {x y : Connection}

/-- A client that has just come has not been answered. -/
lemma Books.accepted (h : s.Books) : Books { s with conns := s.conns ++ [.start] } := by
  refine ⟨fun z hz => ?_,h.once,fun c request response => ?_,h.answers,h.counts⟩
  · obtain hz | hz := List.mem_append.mp hz
    · exact h.sound z hz
    · rw [List.mem_singleton.mp hz]
      exact ⟨Connection.start_sound,fun _ => rfl⟩
  · rw [h.mem,exists_getElem?_concat]
    simp [Connection.Answered,Connection.start]

/-- A connection that has answered what it had before is entered under nothing new. -/
lemma Books.unanswered (h : s.Books) (hx : s.conns[c]? = some x) (hy : y.Sound ∧ y.Fresh)
    (hsame : ∀ request response, y.Answered request response ↔ x.Answered request response) :
    Books { s with conns := s.conns.set c y } := by
  refine ⟨h.set hy,h.once,fun d request response => ?_,h.answers,h.counts⟩
  rw [h.mem,exists_getElem?_set hx,hsame]
  split_ifs with hcd
  · simp [← hcd,hx]
  · rfl

/-- A request that has been read is entered with the answer to it. -/
lemma Books.answered (h : s.Books) (hx : s.conns[c]? = some x) (hread : ∀ a, x.read ≠ .handled a)
    (hy : y.Sound ∧ y.Fresh) {now : Int} {request : Request}
    (hanswered : ∀ r response, y.Answered r response ↔
      r = request ∧ response = request.answer now (s.count + 1)) :
    Books {
      conns := s.conns.set c y
      count := if request.asksCount then s.count + 1 else s.count
      log := s.log ++ [(c,request,request.answer now (s.count + 1))] } := by
  have hnot := h.not_logged hx hread
  have hnone : ∀ r response, ¬x.Answered r response := by
    rintro r response ⟨ec,hhandled,-⟩
    exact hread _ hhandled
  refine ⟨h.set hy,?_,fun d r response => ?_,fun e he => ?_,h.counts.answer now rfl rfl⟩
  · rw [List.map_append,List.map_singleton,List.nodup_append]
    refine ⟨h.once,by simp,fun a ha b hb hab => hnot ?_⟩
    have hac : a = c := hab.trans (List.mem_singleton.mp hb)
    exact hac ▸ ha
  · rw [List.mem_append,h.mem,List.mem_singleton,exists_getElem?_set hx]
    split_ifs with hcd
    · simp [← hcd,hx,hnone,hanswered]
    · simp [Ne.symm hcd]
  · obtain he | he := List.mem_append.mp he
    · exact h.answers e he
    · rw [List.mem_singleton.mp he]
      exact ⟨now,s.count + 1,rfl⟩

/-- The handler of a read enters the request that was read, unless the read has failed. -/
lemma Books.read (h : s.Books) (hx : s.conns[c]? = some x) {now : Int} {count : UInt64}
    (hy : x.onRead now s.count = some (y,count)) :
    Books { conns := s.conns.set c y, count := count, log := s.log ++ logged c y } := by
  obtain ⟨hsound,hfresh⟩ := h.sound x (List.mem_of_getElem? hx)
  obtain ⟨hunread,hreads⟩ := Connection.onRead_cases hsound hfresh hy
  have hsound' : y.Sound := hsound.onRead hy
  cases hreads with
  | @fails ec request hec hread hwrite hresponse =>
    have hlogged : logged c y = [] := by simp [logged,hread,hec]
    have hnone : ∀ r response, ¬x.Answered r response := by
      rintro r response ⟨ec',hread',-⟩
      exact hunread _ hread'
    have hnone' : ∀ r response, ¬y.Answered r response := by
      rintro r response ⟨ec',hread',hok,-⟩
      rw [hread] at hread'
      cases hread'
      exact absurd (hec.symm.trans hok) Bool.true_eq_false.mp
    rw [hlogged,List.append_nil]
    exact h.unanswered hx ⟨hsound',fun hidle => hresponse.trans (hfresh (hwrite ▸ hidle))⟩
      fun r response => iff_of_false (hnone' r response) (hnone r response)
  | @answers ec request hec hread hwrite hresponse =>
    have hlogged : logged c y = [(c,request,request.answer now (s.count + 1))] := by
      simp [logged,hread,hec,hresponse]
    have hfresh' : y.Fresh := fun hidle => by
      rw [hwrite] at hidle
      cases hidle
    rw [hlogged]
    refine h.answered hx hunread ⟨hsound',hfresh'⟩ fun r response => ?_
    constructor
    · rintro ⟨ec',hread',-,rfl⟩
      rw [hread] at hread'
      cases hread'
      exact ⟨rfl,hresponse⟩
    · rintro ⟨rfl,rfl⟩
      exact ⟨ec,hread,hec,hresponse⟩

end Kept

theorem books_preserved : machine.Preserves Books := by
  intro s l t h hstep
  obtain ⟨-,hmoves⟩ := step_cases hstep
  cases hmoves with
  | refused => exact h
  | accepted hec => exact h.accepted
  | @change _ c f x y hl hx hy =>
    obtain ⟨hresponse,hwrite,hread⟩ := Connection.change_response hl hy
    obtain ⟨hsound,hfresh⟩ := h.sound x (List.mem_of_getElem? hx)
    refine h.unanswered hx ⟨hsound.change hl hy,fun hidle => hresponse.trans (hfresh (hwrite hidle))⟩
      fun request response => ?_
    simp only [Connection.Answered,hread,hresponse]
  | read hx hy => exact h.read hx hy

/-- In every run, the requests for the number of requests, in the order in which they are
processed, are told 1, 2, 3 and so on, whatever else is asked in between. -/
theorem told_in_order (ls : List Act) {s : Server} (h : machine.run {} ls = some s) :
    ∃ n, s.count = UInt64.ofNat n ∧
      (s.log.filter fun e => e.2.1.asksCount).map (fun e => e.2.2.body) =
        (List.range n).map fun k => countPage (UInt64.ofNat (k + 1)) :=
  (books_preserved.run h books_start).counts

/-- In every run, a connection writes a response if and only if its request was read and
processed, which happens once; and what it writes is the answer to that request, with the
length of its own text. -/
theorem answered_once (ls : List Act) {s : Server} (h : machine.run {} ls = some s) :
    (s.log.map Prod.fst).Nodup ∧
    (∀ e ∈ s.log, ∃ now count, e.2.2 = e.2.1.answer now count ∧
      e.2.2.contentLength = some e.2.2.body.length) ∧
    ∀ c x, s.conns[c]? = some x → (x.write ≠ .idle ↔ c ∈ s.log.map Prod.fst) ∧
      ∀ request response, (c,request,response) ∈ s.log ↔ x.Answered request response := by
  have hbooks := books_preserved.run h books_start
  refine ⟨hbooks.once,fun e he => ?_,fun c x hx => ?_⟩
  · obtain ⟨now,count,hanswer⟩ := hbooks.answers e he
    refine ⟨now,count,hanswer,?_⟩
    rw [hanswer]
    rfl
  · have hmem : ∀ request response, (c,request,response) ∈ s.log ↔ x.Answered request response := by
      intro request response
      rw [hbooks.mem]
      simp [hx]
    refine ⟨?_,hmem⟩
    rw [(hbooks.sound x (List.mem_of_getElem? hx)).1.answers]
    constructor
    · rintro ⟨ec,request,hread,hok⟩
      exact List.mem_map.mpr ⟨(c,request,x.response),(hmem _ _).mpr ⟨ec,hread,hok,rfl⟩,rfl⟩
    · intro hc
      obtain ⟨⟨d,request,response⟩,he,rfl⟩ := List.mem_map.mp hc
      obtain ⟨ec,hread,hok,-⟩ := (hmem _ _).mp he
      exact ⟨ec,request,hread,hok⟩

/-- Two clients. The first one asks for the number of requests, and the other one for
something else. -/
def twoRequests : List Act :=
  [.onAccept {},.onAccept {},.readEnds 1 {} { method := .other [72] },.onRead 1 0,
    .readEnds 0 {} { target := text "/count" },.onRead 0 0,.writeEnds 1 {} 60]

theorem told_in_order_twoRequests : ∃ s, machine.run {} twoRequests = some s ∧
    ∃ n, s.count = UInt64.ofNat n ∧
      (s.log.filter fun e => e.2.1.asksCount).map (fun e => e.2.2.body) =
        (List.range n).map fun k => countPage (UInt64.ofNat (k + 1)) :=
  ⟨_,rfl,told_in_order twoRequests rfl⟩

theorem answered_once_twoRequests : ∃ s, machine.run {} twoRequests = some s ∧
    (s.log.map Prod.fst).Nodup :=
  ⟨_,rfl,(answered_once twoRequests rfl).1⟩

end Server
end Winext.Beast
