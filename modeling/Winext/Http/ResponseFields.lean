import Winext.Lib.History
import Winext.Http.ResponseHistory

/-! The length and count fields that `get_response` stores, each of them a cast of a true
size, on any object. -/
namespace Winext.Http
open Lib

theorem toNat_ofNat16_iff (n : ℕ) : (UInt16.ofNat n).toNat = n ↔ n < 65536 := by
  rw [UInt16.toNat_ofNat']
  omega

def HttpKnownHeader.Exact (h : HttpKnownHeader) : Prop :=
  h.rawValueLength.toNat = h.pRawValue.length

/-- The lengths of the name and the value are those of the strings. -/
def HttpUnknownHeader.Exact (h : HttpUnknownHeader) : Prop :=
  h.nameLength.toNat = h.pName.length ∧ h.rawValueLength.toNat = h.pRawValue.length

namespace SimpleResponse

/-- Every name and every value of the map has a length of sixteen bits. -/
def Short (headers : Std.TreeMap Bytes Bytes) : Prop :=
  ∀ name val : Bytes, headers[name]? = some val → name.length < 65536 ∧ val.length < 65536

theorem length_buffOf (headers : Std.TreeMap Bytes Bytes) :
    (buffOf headers).length = headers.size := by
  rw [buffOf_eq,List.length_map,Std.TreeMap.length_toList]

/-- The members before the table are the same. -/
structure SameHead (r t : HttpResponse) : Prop where
  statusCode : r.statusCode = t.statusCode
  reasonLength : r.reasonLength = t.reasonLength
  pReason : r.pReason = t.pReason
  unknownHeaderCount : r.unknownHeaderCount = t.unknownHeaderCount
  pUnknownHeaders : r.pUnknownHeaders = t.pUnknownHeaders

theorem SameHead.refl (r : HttpResponse) : SameHead r r := ⟨rfl,rfl,rfl,rfl,rfl⟩

theorem SameHead.trans {r t u : HttpResponse} (h : SameHead r t) (h' : SameHead t u) :
    SameHead r u :=
  ⟨h.1.trans h'.1,h.2.trans h'.2,h.3.trans h'.3,h.4.trans h'.4,h.5.trans h'.5⟩

theorem setKnownHeader_sameHead (resp : HttpResponse) (id : ℕ) (header : HttpKnownHeader) :
    SameHead (resp.setKnownHeader id header) resp := by
  unfold HttpResponse.setKnownHeader
  split_ifs <;> exact ⟨rfl,rfl,rfl,rfl,rfl⟩

theorem storeKnownHeaders_sameHead (resp : HttpResponse) (headers : Std.TreeMap ℕ Bytes) :
    SameHead (storeKnownHeaders resp headers) resp := by
  rw [storeKnownHeaders,Std.TreeMap.foldl_eq_foldl_toList]
  induction headers.toList generalizing resp with
  | nil => exact .refl resp
  | cons p l ih => exact (ih _).trans (setKnownHeader_sameHead resp p.1 (knownHeader p.2))

lemma nodup_keys (headers : Std.TreeMap ℕ Bytes) : (headers.toList.map Prod.fst).Nodup := by
  rw [Std.TreeMap.map_fst_toList_eq_keys]
  exact Std.TreeMap.nodup_keys

/-- The length or count in a chunk is that of what it points to. -/
def ChunkExact (t : SimpleResponse) : HttpDataChunk → Prop
  | .fromMemory _ bufferLength => bufferLength.toNat = t.body.length
  | .trailers trailerCount _ => trailerCount.toNat = t.trailersBuff.length

/-- What the call stores to `KnownHeaders`, under ids of the table and under others. -/
def storedKnownHeaders (s : SimpleResponse) : List (ℕ × HttpKnownHeader) :=
  s.knownHeaders.toList.map fun p => (p.1,knownHeader p.2)

/-- These are the stores of the loop over `known_headers_`. -/
theorem storeKnownHeaders_eq_foldl (s : SimpleResponse) (resp : HttpResponse) :
    storeKnownHeaders resp s.knownHeaders =
      s.storedKnownHeaders.foldl (fun resp p => resp.setKnownHeader p.1 p.2) resp := by
  rw [storeKnownHeaders,Std.TreeMap.foldl_eq_foldl_toList,storedKnownHeaders,List.foldl_map]

/-- Every length that the call stores, and every length and count in the structure that it
returns, is a true size. -/
structure Uncut (s : SimpleResponse) : Prop where
  reason : s.getResponse.resp.reasonLength.toNat = s.reason.length
  stored : ∀ p ∈ s.storedKnownHeaders, p.2.Exact
  known : ∀ (id : ℕ) (hid : id < httpHeaderResponseMaximum) (data : Bytes),
    s.knownHeaders[id]? = some data →
      s.getResponse.resp.knownHeaders[id].rawValueLength.toNat = data.length
  unknown : ∀ h ∈ s.getResponse.unknownHeadersBuff, h.Exact
  unknownCount :
    s.getResponse.resp.unknownHeaderCount.toNat = s.getResponse.unknownHeadersBuff.length
  trailers : ∀ h ∈ s.getResponse.trailersBuff, h.Exact
  chunks : ∀ new, s.getResponse.dataChunks = s.dataChunks ++ new →
    ∀ c ∈ new, s.getResponse.ChunkExact c
  chunkCount : s.getResponse.resp.entityChunkCount.toNat = s.getResponse.dataChunks.length

end SimpleResponse
end Winext.Http
