import Winext.Http.FirstResponse
import Winext.Http.RequestHeaders

/-! The two ends of an array of unknown headers: what `get_response` puts into it, and what
`get_unknown_headers` makes of an array with these elements. -/
namespace Winext.Http
open Lib

/-- The request with the unknown headers of a response. -/
def SimpleRequest.withHeadersOf (r : SimpleRequest) (resp : HttpResponse) : SimpleRequest :=
  { r with request := { r.request with
      unknownHeaderCount := resp.unknownHeaderCount
      pUnknownHeaders := resp.pUnknownHeaders } }

namespace SimpleResponse
variable {headers : Std.TreeMap Bytes Bytes} {name val : Bytes}

/-- What an element of the array says is at most the beginning of what is in the map. -/
lemma exists_of_value? {h : HttpUnknownHeader} (hmem : h ∈ buffOf headers)
    (hval : h.value? name = some val) : ∃ n v : Bytes, headers[n]? = some v ∧
      name = n.take (n.length % 65536) ∧ val = v.take (v.length % 65536) := by
  rw [buffOf_eq] at hmem
  obtain ⟨⟨n,v⟩,hp,rfl⟩ := List.mem_map.mp hmem
  refine ⟨n,v,Std.TreeMap.mem_toList_iff_getElem?_eq_some.mp hp,?_⟩
  rw [HttpUnknownHeader.value?] at hval
  split_ifs at hval with hname
  cases hval
  refine ⟨hname.symm.trans ?_,?_⟩
  · simp only [HttpUnknownHeader.name,unknownHeader,UInt16.toNat_ofNat']
  · simp only [HttpUnknownHeader.value,unknownHeader,UInt16.toNat_ofNat']

lemma value?_unknownHeader (hname : name.length < 65536) (hval : val.length < 65536) :
    (unknownHeader name val).value? name = some val := by
  simp only [HttpUnknownHeader.value?,HttpUnknownHeader.name,HttpUnknownHeader.value,unknownHeader,
    (toNat_ofNat16_iff _).mpr hname,(toNat_ofNat16_iff _).mpr hval,List.take_length,if_pos]

/-- An array whose strings are short says what is in the map. -/
theorem last_value?_buffOf (hshort : Short headers) (name : Bytes) :
    last (HttpUnknownHeader.value? name) (buffOf headers) = headers[name]? := by
  have hsound : ∀ {val}, last (HttpUnknownHeader.value? name) (buffOf headers) = some val →
      headers[name]? = some val := by
    intro val hlast
    obtain ⟨h,hmem,hval⟩ := exists_of_last hlast
    obtain ⟨n,v,hv,hn,hw⟩ := exists_of_value? hmem hval
    obtain ⟨hnlt,hvlt⟩ := hshort n v hv
    rw [Nat.mod_eq_of_lt hnlt,List.take_length] at hn
    rw [Nat.mod_eq_of_lt hvlt,List.take_length] at hw
    rw [hn,hw]
    exact hv
  cases hlast : last (HttpUnknownHeader.value? name) (buffOf headers) with
  | some val => exact (hsound hlast).symm
  | none =>
    cases hval : headers[name]? with
    | none => rfl
    | some val =>
      obtain ⟨hn,hv⟩ := hshort name val hval
      have hmem : unknownHeader name val ∈ buffOf headers := by
        rw [buffOf_eq]
        exact List.mem_map.mpr
          ⟨(name,val),Std.TreeMap.mem_toList_iff_getElem?_eq_some.mpr hval,rfl⟩
      have hnone := last_eq_none_iff.mp hlast _ hmem
      rw [value?_unknownHeader hn hv] at hnone
      cases hnone

/-- An array that says what is in the map has an element for each of its keys. -/
lemma size_le_of_last {elements : List HttpUnknownHeader}
    (h : ∀ name, last (HttpUnknownHeader.value? name) elements = headers[name]?) :
    headers.size ≤ elements.length := by
  have hnames : ∀ name val, headers[name]? = some val →
      name ∈ elements.map HttpUnknownHeader.name := by
    intro name val hval
    obtain ⟨e,hmem,he⟩ := exists_of_last ((h name).trans hval)
    rw [HttpUnknownHeader.value?] at he
    split_ifs at he with hname
    exact List.mem_map.mpr ⟨e,hmem,hname⟩
  calc headers.size ≤ (elements.map HttpUnknownHeader.name).dedup.length := size_le_dedup hnames
    _ ≤ (elements.map HttpUnknownHeader.name).length := (List.dedup_sublist _).length_le
    _ = elements.length := List.length_map _

/-- Of the array as many elements are read as its length leaves modulo two to the sixteenth. -/
lemma unknownHeaders_withHeadersOf {s : SimpleResponse} (hs : s.Tidy) (r : SimpleRequest) :
    (r.withHeadersOf s.getResponse.resp).unknownHeaders =
      (buffOf s.unknownHeaders).take (s.unknownHeaders.size % 65536) := by
  simp only [SimpleRequest.unknownHeaders,SimpleRequest.withHeadersOf,resp_getResponse hs,
    UInt16.toNat_ofNat',length_buffOf]

/-- The different names that were given are the keys of the map. -/
theorem size_unknownHeaders_after (ops : List Op) :
    (after ops).unknownHeaders.size = (ops.filterMap Op.unknownName?).dedup.length := by
  rw [← Std.TreeMap.length_keys]
  refine ((List.perm_ext_iff_of_nodup Std.TreeMap.nodup_keys (List.nodup_dedup _)).mpr
    fun name => ?_).length_eq
  rw [List.mem_dedup,List.mem_filterMap,Std.TreeMap.mem_keys]
  constructor
  · intro hname
    obtain ⟨val,hval⟩ := Option.isSome_iff_exists.mp (Std.TreeMap.isSome_getElem?_iff_mem.mpr hname)
    exact ⟨_,addUnknownHeader_mem hval,rfl⟩
  · rintro ⟨op,hop,hname⟩
    cases op with
    | addUnknownHeader n val =>
      cases hname
      by_contra hnot
      have hnone := unknownHeaders_after ops name
      rw [Std.TreeMap.getElem?_eq_none hnot,eq_comm,last_eq_none_iff] at hnone
      simpa [Op.unknownHeader?] using hnone _ hop
    | _ => cases hname

/-- After any calls, what `get_unknown_headers` reads of the headers that `get_response` has
written is for each name what was added last, if and only if these names and values, and the
number of names, fit the sixteen bits of their fields. -/
theorem unknownHeaders_round_trip_iff (ops : List Op) (hfits : ∀ op ∈ ops, op.Fits)
    (r : SimpleRequest) :
    (∀ name, (r.withHeadersOf (after ops).getResponse.resp).getUnknownHeaders[name]? =
      last (Op.unknownHeader? name) ops) ↔
    (∀ name val, last (Op.unknownHeader? name) ops = some val →
      name.length < 65536 ∧ val.length < 65536) ∧
    (ops.filterMap Op.unknownName?).dedup.length < 65536 := by
  have hread := unknownHeaders_withHeadersOf (tidy_after hfits) r
  simp only [← unknownHeaders_after,← size_unknownHeaders_after,
    SimpleRequest.getElem?_getUnknownHeaders,hread]
  constructor
  · intro hall
    refine ⟨fun name val hval => ?_,?_⟩
    · obtain ⟨h,hmem,hh⟩ := exists_of_last ((hall name).trans hval)
      obtain ⟨n,v,-,rfl,rfl⟩ := exists_of_value? (List.mem_of_mem_take hmem) hh
      simp only [List.length_take]
      omega
    · have hle := size_le_of_last hall
      rw [List.length_take] at hle
      omega
  · rintro ⟨hshort,hsize⟩ name
    rw [Nat.mod_eq_of_lt hsize,← length_buffOf,List.take_length]
    exact last_value?_buffOf hshort name

/-- A name that is added again after a call, and a value that is empty. -/
def twoHeaders : List Op :=
  [.addUnknownHeader [88] [49],.addUnknownHeader [89] [],.getResponse,.addUnknownHeader [88] [50]]

theorem unknownHeaders_round_trip_iff_twoHeaders :
    (SimpleRequest.withHeadersOf {} (after twoHeaders).getResponse.resp).getUnknownHeaders[
      ([88] : Bytes)]? = some [50] := by
  have hfits : ∀ op ∈ twoHeaders, op.Fits := by simp [twoHeaders,Op.Fits]
  refine ((unknownHeaders_round_trip_iff twoHeaders hfits {}).mpr ⟨fun name val hval => ?_,?_⟩
    [88]).trans (by decide)
  · obtain ⟨op,hop,hwrites⟩ := exists_of_last hval
    rw [Op.unknownHeader?_eq_some] at hwrites
    subst hwrites
    simp only [twoHeaders,List.mem_cons,Op.addUnknownHeader.injEq,reduceCtorEq,List.not_mem_nil,
      or_false,false_or] at hop
    obtain ⟨rfl,rfl⟩ | ⟨rfl,rfl⟩ | ⟨rfl,rfl⟩ := hop <;> decide
  · decide

end SimpleResponse
end Winext.Http
