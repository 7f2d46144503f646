import Winext.Http.Connection
import Winext.Http.FirstResponse

/-! The public calls on a `simple_request` and a `simple_response`. The constructors leave
`body_len_` and `status_code_` without a value, and only optional calls give them one. -/
namespace Winext.Http
open Lib

/-- The calls that a request which is `const` allows. -/
inductive SimpleRequest.Read
  | getBodyBuffer
  | getRequest
  | getBodyString
  | getKnownHeaders
  | getUnknownHeaders
  | print
  deriving DecidableEq, Repr

def SimpleRequest.Read.readsBody : Read → Bool
  | getBodyString | print => true
  | getBodyBuffer | getRequest | getKnownHeaders | getUnknownHeaders => false

/-- The public calls on a request. What is written through the reference or the pointer
that one hands out is part of it. -/
inductive SimpleRequest.Op
  | getRequestBuffer (request : HttpRequest) (room : ℕ)
  | getRequest (request : HttpRequest)
  | getRequestId
  | getBodyBuffer (data : Bytes)
  | setBodyLen (len : ℕ)
  | read (c : Read)
  deriving DecidableEq, Repr

def SimpleRequest.Op.apply (r : SimpleRequest) : Op → SimpleRequest
  | getRequestBuffer request room => { r with request := request, room := room }
  | getRequest request => { r with request := request }
  | getBodyBuffer data => r.written .receiveBody { status := noError, data := data }
  | setBodyLen len => r.setBodyLen len
  | getRequestId | read _ => r

/-- A request and the response to it, as they are constructed. -/
structure Objects where
  request : SimpleRequest := {}
  response : SimpleResponse := {}

inductive ObjectCall
  | request (op : SimpleRequest.Op)
  | response (op : SimpleResponse.Op)
  deriving DecidableEq, Repr

def Objects.after (o : Objects) : ObjectCall → Objects
  | .request op => { o with request := op.apply o.request }
  | .response op => { o with response := op.apply o.response }

def Objects.machine : Machine Objects ObjectCall := ⟨fun o c => some (o.after c)⟩

namespace ObjectCall

/-- The members that the call reads have been written, and the length of the body is
within its buffer. -/
def ReadsWritten (o : Objects) : ObjectCall → Prop
  | request (.read c) => c.readsBody = true →
      ∃ len, o.request.bodyLen = some len ∧ len ≤ o.request.bodyBuffer.length
  | response .getResponse => ∃ code, o.response.statusCode = some code
  | _ => True

/-- What the call returns, prints or stores is not indeterminate. -/
def Determined (o : Objects) : ObjectCall → Prop
  | request (.read .getBodyString) => o.request.getBodyString ≠ none
  | request (.read .print) => o.request.print ≠ none
  | response .getResponse => o.response.getResponse.resp.statusCode ≠ none
  | _ => True

lemma getBodyString_ne_none_iff {r : SimpleRequest} : r.getBodyString ≠ none ↔
    ∃ len, r.bodyLen = some len ∧ len ≤ r.bodyBuffer.length := by
  rw [SimpleRequest.getBodyString]
  cases r.bodyLen with
  | none => simp
  | some len => by_cases h : len ≤ r.bodyBuffer.length <;> simp [h]

lemma statusCode_getResponse (s : SimpleResponse) :
    s.getResponse.resp.statusCode = s.statusCode := by
  rw [SimpleResponse.getResponse_resp]
  unfold SimpleResponse.setEntityChunks SimpleResponse.setUnknownHeaders
  split_ifs <;> exact (SimpleResponse.storeKnownHeaders_sameHead _ _).statusCode

/-- The results are determined where the reads are of written members. -/
theorem determined_iff {o : Objects} {c : ObjectCall} : c.Determined o ↔ c.ReadsWritten o := by
  cases c with
  | request op =>
    cases op with
    | read c =>
      cases c with
      | getBodyString =>
        simp [Determined,ReadsWritten,SimpleRequest.Read.readsBody,getBodyString_ne_none_iff]
      | print =>
        simp only [Determined,ReadsWritten,SimpleRequest.Read.readsBody,SimpleRequest.print,ne_eq,
          Option.map_eq_none_iff,true_imp_iff]
        exact getBodyString_ne_none_iff
      | getBodyBuffer | getRequest | getKnownHeaders | getUnknownHeaders =>
        simp [Determined,ReadsWritten,SimpleRequest.Read.readsBody]
    | getRequestBuffer | getRequest | getRequestId | getBodyBuffer | setBodyLen => exact Iff.rfl
  | response op =>
    cases op with
    | getResponse =>
      rw [Determined,ReadsWritten,statusCode_getResponse]
      exact Option.ne_none_iff_exists'
    | setReason | setStatusCode | setContentType | setBody | addKnownHeader | addUnknownHeader
      | addTrailer => exact Iff.rfl

def bodyLen? : ObjectCall → Option ℕ
  | request (.setBodyLen len) => some len
  | _ => none

def statusCode? : ObjectCall → Option UInt16
  | response op => op.statusCode?
  | _ => none

lemma statusCode?_eq_some {c : ObjectCall} {code : UInt16} :
    c.statusCode? = some code ↔ c = response (.setStatusCode code) := by
  cases c with
  | request op => simp [statusCode?]
  | response op => cases op <;> simp [statusCode?,SimpleResponse.Op.statusCode?]

end ObjectCall

namespace Objects
variable (o : Objects) (calls : List ObjectCall)

theorem run_eq : machine.run o calls = some (calls.foldl after o) := by
  induction calls generalizing o with
  | nil => rfl
  | cons c calls ih => exact ih (o.after c)

/-- The members after the calls: what was written last, or what they held before. -/
theorem bodyLen_foldl : (calls.foldl after o).request.bodyLen =
    (last ObjectCall.bodyLen? calls).or o.request.bodyLen := by
  refine foldl_last (fun o : Objects => o.request.bodyLen) (fun o c => ?_) calls o
  cases c with
  | request op => cases op <;> rfl
  | response op => rfl

theorem statusCode_foldl : (calls.foldl after o).response.statusCode =
    (last ObjectCall.statusCode? calls).or o.response.statusCode := by
  refine foldl_last (fun o : Objects => o.response.statusCode) (fun o c => ?_) calls o
  cases c with
  | request op => rfl
  | response op => cases op <;> rfl

/-- No call resizes the body buffer. -/
theorem length_bodyBuffer_foldl :
    (calls.foldl after o).request.bodyBuffer.length = o.request.bodyBuffer.length := by
  induction calls generalizing o with
  | nil => rfl
  | cons c calls ih =>
    refine (ih _).trans ?_
    cases c with
    | response op => rfl
    | request op =>
      cases op with
      | getBodyBuffer data =>
        simp only [after,SimpleRequest.Op.apply,SimpleRequest.written,List.length_append,
          List.length_take,List.length_drop]
        omega
      | getRequestBuffer | getRequest | getRequestId | setBodyLen | read => rfl

end Objects

/-- What the call reads was written by the calls before it: the body's length by a
`set_body_len`, of which the last gave one that fits, and the status by a `set_status_code`. -/
def ObjectCall.WrittenBy (before : List ObjectCall) : ObjectCall → Prop
  | .request (.read c) => c.readsBody = true →
      ∃ len, last ObjectCall.bodyLen? before = some len ∧ len ≤ 1024
  | .response .getResponse => ∃ code, .response (.setStatusCode code) ∈ before
  | _ => True

/-- Every call comes after those it needs. -/
def InOrder (calls : List ObjectCall) : Prop :=
  ∀ before c after, calls = before ++ c::after → c.WrittenBy before

/-- Each call of a sequence reads written members only, and has determined results. -/
def Safe (o : Objects) (calls : List ObjectCall) : Prop :=
  Objects.machine.Along (fun o c => c.ReadsWritten o ∧ c.Determined o) o calls

lemma exists_statusCode_iff {before : List ObjectCall} :
    (∃ code, last ObjectCall.statusCode? before = some code) ↔
      ∃ code, .response (.setStatusCode code) ∈ before := by
  constructor
  · rintro ⟨code,hlast⟩
    obtain ⟨c,hc,hcode⟩ := exists_of_last hlast
    exact ⟨code,ObjectCall.statusCode?_eq_some.mp hcode ▸ hc⟩
  · rintro ⟨code,hc⟩
    refine Option.ne_none_iff_exists'.mp fun hnone => ?_
    cases last_eq_none_iff.mp hnone _ hc

/-- On a request and a response whose members have no value yet, the calls are safe if and
only if they are in order. -/
theorem safe_iff_inOrder {o : Objects} (hlen : o.request.bodyLen = none)
    (hbuffer : o.request.bodyBuffer.length = 1024) (hcode : o.response.statusCode = none)
    (calls : List ObjectCall) : Safe o calls ↔ InOrder calls := by
  have hcall : ∀ (before : List ObjectCall) (c : ObjectCall),
      (c.ReadsWritten (before.foldl Objects.after o) ∧
        c.Determined (before.foldl Objects.after o)) ↔ c.WrittenBy before := by
    intro before c
    rw [ObjectCall.determined_iff,and_self_iff]
    cases c with
    | request op =>
      cases op with
      | read c =>
        rw [ObjectCall.ReadsWritten,Objects.bodyLen_foldl,Objects.length_bodyBuffer_foldl,hlen,
          hbuffer,Option.or_none]
        exact Iff.rfl
      | getRequestBuffer | getRequest | getRequestId | getBodyBuffer | setBodyLen => exact Iff.rfl
    | response op =>
      cases op with
      | getResponse =>
        rw [ObjectCall.ReadsWritten,Objects.statusCode_foldl,hcode,Option.or_none]
        exact exists_statusCode_iff
      | setReason | setStatusCode | setContentType | setBody | addKnownHeader | addUnknownHeader
        | addTrailer => exact Iff.rfl
  rw [Safe,Machine.along_iff_split]
  constructor
  · intro h before c after hcalls
    exact (hcall before c).mp (h before c after _ hcalls (Objects.run_eq o before))
  · intro h before c after t hcalls ht
    rw [Objects.run_eq] at ht
    cases ht
    exact (hcall before c).mpr (h before c after hcalls)

end Winext.Http
