import Winext.Http.FirstResponse

/-! What the known headers of a response touch beside their table: the chunk count and
pointer follow it, and nothing keeps an id from going past its end. -/
namespace Winext.Http
open Lib

namespace SimpleResponse

def Op.isKnownHeader : Op → Bool
  | .addKnownHeader _ _ => true
  | _ => false

/-- Storing the headers writes entries of the table only, whatever the structure holds. -/
def TableOnly (headers : Std.TreeMap ℕ Bytes) : Prop :=
  ∀ resp, ∃ table, storeKnownHeaders resp headers = { resp with knownHeaders := table }

/-- The members around the table are the same. -/
structure SameAround (r t : HttpResponse) : Prop extends SameHead r t where
  entityChunkCount : r.entityChunkCount = t.entityChunkCount
  pEntityChunks : r.pEntityChunks = t.pEntityChunks

section Past
variable {headers : Std.TreeMap ℕ Bytes} {id : ℕ}

/-- A member past the table, which the writes of some ids set, is not left as it was. -/
lemma not_tableOnly {γ : Type} (get : HttpResponse → γ) {W : ℕ → Prop} [DecidablePred W]
    (value : HttpKnownHeader → γ) (hid : id ∈ headers) (hW : W id)
    (htable : ∀ (resp : HttpResponse) table, get { resp with knownHeaders := table } = get resp)
    (hset : ∀ (resp : HttpResponse) i header,
      get (resp.setKnownHeader i header) = if W i then value header else get resp)
    {r t : HttpResponse} (hne : get r ≠ get t) : ¬TableOnly headers := by
  intro h
  obtain ⟨_,hr⟩ := h r
  obtain ⟨_,ht⟩ := h t
  obtain ⟨p,hp,rfl⟩ := List.mem_map.mp (mem_map_fst_iff.mpr hid)
  have hkeep : ∀ (r t : HttpResponse) (p : ℕ × Bytes), get r = get t →
      get (r.setKnownHeader p.1 (knownHeader p.2)) = get (t.setKnownHeader p.1 (knownHeader p.2)) := by
    intro r t p h
    rw [hset,hset,h]
  have hwrite : ∀ (r t : HttpResponse) (p : ℕ × Bytes), W p.1 →
      get (r.setKnownHeader p.1 (knownHeader p.2)) = get (t.setKnownHeader p.1 (knownHeader p.2)) := by
    intro r t p hp
    rw [hset,hset,if_pos hp,if_pos hp]
  have hsame := foldl_forgets get hkeep hwrite ⟨p,hp,hW⟩ r t
  rw [storeKnownHeaders,Std.TreeMap.foldl_eq_foldl_toList] at hr ht
  rw [hr,ht] at hsame
  exact hne ((htable r _).symm.trans (hsame.trans (htable t _)))

lemma pEntityChunks_setKnownHeader (resp : HttpResponse) (i : ℕ) (header : HttpKnownHeader) :
    (resp.setKnownHeader i header).pEntityChunks =
      if i = httpHeaderResponseMaximum then .text header.pRawValue else resp.pEntityChunks := by
  unfold HttpResponse.setKnownHeader
  split_ifs <;> first | rfl | omega

lemma pResponseInfo_setKnownHeader (resp : HttpResponse) (i : ℕ) (header : HttpKnownHeader) :
    (resp.setKnownHeader i header).pResponseInfo =
      if i = httpHeaderResponseMaximum + 1 then header.pRawValue else resp.pResponseInfo := by
  unfold HttpResponse.setKnownHeader
  split_ifs <;> first | rfl | omega

lemma overrun_setKnownHeader (resp : HttpResponse) (i : ℕ) (header : HttpKnownHeader) :
    (resp.setKnownHeader i header).overrun =
      if httpHeaderResponseMaximum + 1 < i then true else resp.overrun := by
  unfold HttpResponse.setKnownHeader
  split_ifs <;> first | rfl | omega

/-- An id that the table has no entry for is written past the table. -/
theorem tableOnly_iff : TableOnly headers ↔ ∀ id ∈ headers, id < httpHeaderResponseMaximum := by
  constructor
  · intro h id hid
    by_contra hge
    obtain heq | heq | hgt : id = httpHeaderResponseMaximum ∨ id = httpHeaderResponseMaximum + 1 ∨
        httpHeaderResponseMaximum + 1 < id := by omega
    · have hne : ({} : HttpResponse).pEntityChunks ≠ .chunks [] := by decide
      exact not_tableOnly _ _ hid heq (fun _ _ => rfl) pEntityChunks_setKnownHeader
        (t := { pEntityChunks := .chunks [] }) hne h
    · have hne : ({} : HttpResponse).pResponseInfo ≠ [0] := by decide
      exact not_tableOnly _ _ hid heq (fun _ _ => rfl) pResponseInfo_setKnownHeader
        (t := { pResponseInfo := [0] }) hne h
    · have hne : ({} : HttpResponse).overrun ≠ true := by decide
      exact not_tableOnly _ (fun _ => true) hid hgt (fun _ _ => rfl) overrun_setKnownHeader
        (t := { overrun := true }) hne h
  · intro h resp
    exact ⟨_,storeKnownHeaders_eq resp h⟩

end Past

/-- The two objects have been given the same settings but for their known headers, and the
same chunks. -/
structure SameButKnown (s t : SimpleResponse) : Prop where
  reason : s.reason = t.reason
  statusCode : s.statusCode = t.statusCode
  body : s.body = t.body
  bodyVersion : s.bodyVersion = t.bodyVersion
  unknownHeaders : s.unknownHeaders = t.unknownHeaders
  trailers : s.trailers = t.trailers
  trailersVersion : s.trailersVersion = t.trailersVersion
  dataChunks : s.dataChunks = t.dataChunks

theorem SameButKnown.newChunks {s t : SimpleResponse} (h : SameButKnown s t) :
    s.newChunks = t.newChunks := by
  simp only [SimpleResponse.newChunks,h.body,h.bodyVersion,h.trailers,h.trailersVersion]

theorem SameButKnown.apply {s t : SimpleResponse} (h : SameButKnown s t) (op : Op) :
    SameButKnown (op.apply s) (op.apply t) := by
  cases op with
  | setReason reason => exact { h with reason := rfl }
  | setStatusCode statusCode => exact { h with statusCode := rfl }
  | setBody body => exact { h with body := rfl, bodyVersion := congrArg (· + 1) h.bodyVersion }
  | setContentType | addKnownHeader => exact { h with }
  | addUnknownHeader name val =>
    exact { h with unknownHeaders := by simp only [Op.apply,addUnknownHeader,h.unknownHeaders] }
  | addTrailer name val =>
    exact { h with trailers := by simp only [Op.apply,addTrailer,h.trailers] }
  | getResponse =>
    exact { h with
      trailersVersion := congrArg (· + 1) h.trailersVersion
      dataChunks := by
        simp only [Op.apply,dataChunks_getResponse,h.dataChunks,h.newChunks] }

theorem sameButKnown_filter {s t : SimpleResponse} (h : SameButKnown s t) (ops : List Op) :
    SameButKnown (ops.foldl Op.apply s)
      ((ops.filter fun op => !op.isKnownHeader).foldl Op.apply t) := by
  induction ops generalizing s t with
  | nil => exact h
  | cons op ops ih =>
    cases op with
    | addKnownHeader id data => exact ih { h with }
    | _ => exact ih (h.apply _)

/-- The ids of the map are those that were added. -/
theorem forall_mem_knownHeaders_after_iff (ops : List Op) :
    (∀ id ∈ (after ops).knownHeaders, id < httpHeaderResponseMaximum) ↔ ∀ op ∈ ops, op.Fits := by
  have hmem : ∀ id, id ∈ (after ops).knownHeaders ↔ last (Op.knownHeader? id) ops ≠ none := by
    intro id
    rw [Std.TreeMap.mem_iff_isSome_getElem?,knownHeaders_after,Option.isSome_iff_ne_none]
  constructor
  · intro h op hop
    cases op with
    | addKnownHeader id data =>
      refine h id ((hmem id).mpr fun hnone => ?_)
      simpa [Op.knownHeader?] using last_eq_none_iff.mp hnone _ hop
    | _ => trivial
  · intro h id hid
    obtain ⟨data,hdata⟩ := Option.ne_none_iff_exists'.mp ((hmem id).mp hid)
    obtain ⟨op,hop,hval⟩ := exists_of_last hdata
    obtain ⟨rfl,-⟩ | rfl := Op.knownHeader?_eq_some.mp hval
    · decide
    · exact h _ hop

/-- With any operations before it, a call of `get_response` stores known headers into their
table only, and returns the other members as they are without the calls of
`add_known_header`, if and only if the table has an entry for every id that was added. -/
theorem knownHeaders_table_iff (ops : List Op) :
    (TableOnly (after ops).knownHeaders ∧ SameAround (after ops).getResponse.resp
      (after (ops.filter fun op => !op.isKnownHeader)).getResponse.resp) ↔
    ∀ op ∈ ops, op.Fits := by
  rw [tableOnly_iff,forall_mem_knownHeaders_after_iff]
  refine ⟨And.left,fun hfits => ⟨hfits,?_⟩⟩
  have hfitrest : ∀ op ∈ ops.filter fun op => !op.isKnownHeader, op.Fits :=
    fun op hop => hfits op (List.mem_filter.mp hop).1
  have hs := tidy_after hfits
  have ht := tidy_after hfitrest
  have hsame : SameButKnown (after ops) (after (ops.filter fun op => !op.isKnownHeader)) :=
    sameButKnown_filter ⟨rfl,rfl,rfl,rfl,rfl,rfl,rfl,rfl⟩ ops
  have hchunks : (after ops).getResponse.dataChunks =
      (after (ops.filter fun op => !op.isKnownHeader)).getResponse.dataChunks := by
    rw [dataChunks_getResponse,dataChunks_getResponse,hsame.dataChunks,hsame.newChunks]
  rw [resp_getResponse hs,resp_getResponse ht,hchunks,hsame.reason,hsame.statusCode,
    hsame.unknownHeaders]
  exact ⟨⟨rfl,rfl,rfl,rfl,rfl⟩,rfl,rfl⟩

/-- The value of an id that only requests have is taken for the entity chunks. -/
theorem knownHeaders_overlay : ¬∀ ops : List Op, TableOnly (after ops).knownHeaders ∧
    SameAround (after ops).getResponse.resp
      (after (ops.filter fun op => !op.isKnownHeader)).getResponse.resp := by
  intro h
  have hchunks := (h [.setStatusCode 200,.addKnownHeader 30 [97]]).2.pEntityChunks
  cases hchunks

end SimpleResponse
end Winext.Http
