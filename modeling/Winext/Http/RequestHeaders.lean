import Mathlib.Data.List.Nodup
import Winext.Lib.History
import Winext.Http.Convert

/-! The headers of a request as `get_known_headers` and `get_unknown_headers` hand them out.
Both store one header after the other into a map; only unknown headers can have the same key. -/
namespace Winext.Http
open Lib

/-- What the header writes to the place of a name. -/
def HttpUnknownHeader.value? (name : Bytes) (h : HttpUnknownHeader) : Option Bytes :=
  if h.name = name then some h.value else none

section Values
variable {values : List Bytes} {entry : Bytes}

/-- The values in some order, with the same bytes between any two of them. -/
def MadeOf (values : List Bytes) (entry : Bytes) : Prop :=
  ∃ sep l, l.Perm values ∧ entry = List.intercalate sep l

/-- One value stands for all of them, or only the last says anything. -/
def LastTells (values : List Bytes) : Prop :=
  (∀ value ∈ values, ∀ other ∈ values, value = other) ∨ ∀ value ∈ values.dropLast, value = []

lemma length_flatten_le_intercalate (sep : Bytes) (l : List Bytes) :
    l.flatten.length ≤ (List.intercalate sep l).length := by
  induction l with
  | nil => exact Nat.le_refl 0
  | cons value l ih =>
    cases l with
    | nil => simp
    | cons other l =>
      rw [List.intercalate_cons_cons,List.flatten_cons,List.length_append,List.length_append,
        List.length_append]
      omega

/-- The last value has no room for another that is not empty. -/
lemma MadeOf.eq_nil (h : MadeOf (values ++ [entry]) entry) : ∀ value ∈ values, value = [] := by
  obtain ⟨sep,l,hperm,hentry⟩ := h
  have hle := length_flatten_le_intercalate sep l
  rw [← hentry,hperm.flatten.length_eq,List.flatten_append,List.length_append,
    List.flatten_singleton] at hle
  have hzero : values.flatten.length = 0 := by omega
  exact List.flatten_eq_nil_iff.mp (List.length_eq_zero_iff.mp hzero)

lemma madeOf_of_eq_nil (h : ∀ value ∈ values, value = []) : MadeOf (values ++ [entry]) entry := by
  refine ⟨[],values ++ [entry],.refl _,?_⟩
  induction values with
  | nil => exact List.intercalate_singleton.symm
  | cons value values ih =>
    rw [h value List.mem_cons_self,List.cons_append,List.intercalate_cons_of_ne_nil (by simp)]
    exact ih fun v hv => h v (List.mem_cons_of_mem _ hv)

/-- When the last value is all that is left of them. -/
theorem lastTells_iff (hlast : values.getLast? = some entry) :
    LastTells values ↔ ∀ value ∈ values, entry = value ∨ MadeOf values entry := by
  obtain ⟨before,rfl⟩ := List.getLast?_eq_some_iff.mp hlast
  rw [LastTells,List.dropLast_concat]
  constructor
  · rintro (hsame | hnil) value hvalue
    · exact Or.inl (hsame entry (by simp) value hvalue)
    · exact Or.inr (madeOf_of_eq_nil hnil)
  · intro h
    by_cases hmade : MadeOf (before ++ [entry]) entry
    · exact Or.inr hmade.eq_nil
    · refine Or.inl fun value hvalue other hother => ?_
      rw [← (h value hvalue).resolve_right hmade,← (h other hother).resolve_right hmade]

end Values

namespace SimpleRequest
variable (r : SimpleRequest)

/-- A known header that was sent. -/
def knownHeader? (id : ℕ) : Option Bytes :=
  if h : id < httpHeaderRequestMaximum then
    if r.request.knownHeaders[id].rawValueLength = 0 then none
    else some r.request.knownHeaders[id].value
  else none

/-- The elements that `UnknownHeaderCount` counts. -/
def unknownHeaders : List HttpUnknownHeader :=
  r.request.pUnknownHeaders.take r.request.unknownHeaderCount.toNat

/-- No known header is lost. -/
theorem getElem?_getKnownHeaders (id : ℕ) : r.getKnownHeaders[id]? = r.knownHeader? id := by
  have hstep : ∀ (headersMap : Std.TreeMap ℕ Bytes) (i : Fin httpHeaderRequestMaximum),
      (let header := r.request.knownHeaders.get i
        if header.rawValueLength = 0 then headersMap
        else headersMap.insert i header.value)[id]? =
      (if i = id then r.knownHeader? id else none).or headersMap[id]? := by
    intro headersMap i
    have hget : r.request.knownHeaders.get i = r.request.knownHeaders[(i : ℕ)] := rfl
    by_cases hi : i = id
    · subst hi
      rw [if_pos rfl,knownHeader?,dif_pos i.isLt]
      simp only [hget]
      split_ifs
      · rfl
      · rw [Std.TreeMap.getElem?_insert_self]
        rfl
    · rw [if_neg hi]
      simp only
      split_ifs
      · rfl
      · rw [getElem?_insert_or,if_neg hi]
  rw [getKnownHeaders,foldl_last (·[id]?) hstep,Std.TreeMap.getElem?_emptyc,Option.or_none]
  cases hlast : last (fun i : Fin httpHeaderRequestMaximum =>
      if (i : ℕ) = id then r.knownHeader? id else none) (List.finRange _) with
  | some value =>
    obtain ⟨i,-,hvalue⟩ := exists_of_last hlast
    split_ifs at hvalue
    exact hvalue.symm
  | none =>
    by_cases hid : id < httpHeaderRequestMaximum
    · have hnone := last_eq_none_iff.mp hlast ⟨id,hid⟩ (List.mem_finRange _)
      rw [if_pos rfl] at hnone
      exact hnone.symm
    · rw [knownHeader?,dif_neg hid]

/-- The values of the headers of a name, in their order. -/
def valuesOf (name : Bytes) : List Bytes :=
  r.unknownHeaders.filterMap (HttpUnknownHeader.value? name)

/-- The map has for each name the value of the last header of that name. -/
theorem getElem?_getUnknownHeaders (name : Bytes) :
    r.getUnknownHeaders[name]? = last (HttpUnknownHeader.value? name) r.unknownHeaders := by
  have hstep : ∀ (headersMap : Std.TreeMap Bytes Bytes) (h : HttpUnknownHeader),
      (headersMap.insert h.name h.value)[name]? = (h.value? name).or headersMap[name]? :=
    fun headersMap h => getElem?_insert_or headersMap h.name name h.value
  rw [getUnknownHeaders,foldl_last (·[name]?) hstep,Std.TreeMap.getElem?_emptyc,Option.or_none]
  rfl

/-- Every header counted has an entry under its name, which is its value or is made of all
values of the name, and there is no other entry. -/
structure KeepsUnknownHeaders : Prop where
  kept : ∀ i h, i < r.request.unknownHeaderCount.toNat → r.request.pUnknownHeaders[i]? = some h →
    ∃ entry, r.getUnknownHeaders[h.name]? = some entry ∧
      (entry = h.value ∨ MadeOf (r.valuesOf h.name) entry)
  only : ∀ name ∈ r.getUnknownHeaders, ∃ i h, i < r.request.unknownHeaderCount.toNat ∧
    r.request.pUnknownHeaders[i]? = some h ∧ h.name = name

lemma mem_unknownHeaders_iff {h : HttpUnknownHeader} : h ∈ r.unknownHeaders ↔
    ∃ i, i < r.request.unknownHeaderCount.toNat ∧ r.request.pUnknownHeaders[i]? = some h := by
  rw [unknownHeaders,List.mem_iff_getElem?]
  refine exists_congr fun i => ?_
  rw [List.getElem?_take]
  split_ifs with hi <;> simp [hi]

lemma mem_valuesOf_iff {name value : Bytes} : value ∈ r.valuesOf name ↔
    ∃ h ∈ r.unknownHeaders, h.name = name ∧ h.value = value := by
  simp [valuesOf,HttpUnknownHeader.value?]

/-- The entry of a name is the last of its values. -/
lemma exists_getLast? {h : HttpUnknownHeader} (hh : h ∈ r.unknownHeaders) :
    ∃ entry, (r.valuesOf h.name).getLast? = some entry := by
  refine ⟨_,List.getLast?_eq_some_getLast fun hnil => ?_⟩
  have hmem := r.mem_valuesOf_iff.mpr ⟨h,hh,rfl,rfl⟩
  rw [hnil] at hmem
  cases hmem

/-- No entry comes from nowhere. -/
lemma exists_of_mem_getUnknownHeaders {name : Bytes} (hname : name ∈ r.getUnknownHeaders) :
    ∃ i h, i < r.request.unknownHeaderCount.toNat ∧ r.request.pUnknownHeaders[i]? = some h ∧
      h.name = name := by
  rw [Std.TreeMap.mem_iff_isSome_getElem?,Option.isSome_iff_exists] at hname
  obtain ⟨entry,hentry⟩ := hname
  rw [getElem?_getUnknownHeaders] at hentry
  obtain ⟨h,hh,hname,-⟩ := r.mem_valuesOf_iff.mp (List.mem_of_getLast? hentry)
  obtain ⟨i,hi,hget⟩ := r.mem_unknownHeaders_iff.mp hh
  exact ⟨i,h,hi,hget,hname⟩

lemma keepsUnknownHeaders_of_lastTells (htells : ∀ name, LastTells (r.valuesOf name)) :
    r.KeepsUnknownHeaders := by
  refine ⟨fun i h hi hget => ?_,fun name => r.exists_of_mem_getUnknownHeaders⟩
  have hh : h ∈ r.unknownHeaders := r.mem_unknownHeaders_iff.mpr ⟨i,hi,hget⟩
  obtain ⟨entry,hentry⟩ := r.exists_getLast? hh
  have hvalue := r.mem_valuesOf_iff.mpr ⟨h,hh,rfl,rfl⟩
  exact ⟨entry,(r.getElem?_getUnknownHeaders _).trans hentry,
    (lastTells_iff hentry).mp (htells h.name) h.value hvalue⟩

/-- In particular headers of different names are kept. -/
theorem keepsUnknownHeaders_of_nodup
    (hnames : (r.unknownHeaders.map HttpUnknownHeader.name).Nodup) : r.KeepsUnknownHeaders := by
  refine r.keepsUnknownHeaders_of_lastTells fun name => Or.inl fun value hvalue other hother => ?_
  obtain ⟨h,hh,rfl,rfl⟩ := r.mem_valuesOf_iff.mp hvalue
  obtain ⟨k,hk,hname,rfl⟩ := r.mem_valuesOf_iff.mp hother
  rw [List.inj_on_of_nodup_map hnames hk hh hname]

lemma KeepsUnknownHeaders.lastTells {r : SimpleRequest} (hkeeps : r.KeepsUnknownHeaders)
    (name : Bytes) : LastTells (r.valuesOf name) := by
  cases hentry : (r.valuesOf name).getLast? with
  | none =>
    rw [List.getLast?_eq_none_iff.mp hentry]
    exact Or.inr fun value hvalue => by cases hvalue
  | some entry =>
    refine (lastTells_iff hentry).mpr fun value hvalue => ?_
    obtain ⟨h,hh,rfl,rfl⟩ := r.mem_valuesOf_iff.mp hvalue
    obtain ⟨i,hi,hget⟩ := r.mem_unknownHeaders_iff.mp hh
    obtain ⟨kept,hkept,hmade⟩ := hkeeps.kept i h hi hget
    rw [getElem?_getUnknownHeaders] at hkept
    cases Option.some.inj (hentry.symm.trans hkept)
    exact hmade

/-- Unknown headers are kept if and only if those of one name have all the same value, or
only the last of them has a value that is not empty. -/
theorem getUnknownHeaders_keeps_iff :
    r.KeepsUnknownHeaders ↔ ∀ name, LastTells (r.valuesOf name) :=
  ⟨KeepsUnknownHeaders.lastTells,r.keepsUnknownHeaders_of_lastTells⟩

/-- Of a header that is sent twice only the second value is left. -/
theorem getUnknownHeaders_drops : ¬∀ r : SimpleRequest, r.KeepsUnknownHeaders := by
  intro h
  have htells := (h { request := {
    unknownHeaderCount := 2
    pUnknownHeaders := [⟨1,1,[88],[49]⟩,⟨1,1,[88],[50]⟩] } }).lastTells [88]
  obtain hsame | hnil := htells
  · exact absurd (hsame [49] (by decide) [50] (by decide)) (by decide)
  · exact absurd (hnil [49] (by decide)) (by decide)

end SimpleRequest
end Winext.Http
