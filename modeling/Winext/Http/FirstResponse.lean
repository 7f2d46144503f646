import Mathlib.Data.List.Dedup
import Mathlib.Data.List.Perm.Subperm
import Winext.Lib.History
import Winext.Http.ResponseFields

/-! The response that the first `get_response` builds, against the history of the setters:
what each of them set last. -/
namespace Winext.Http
open Lib

namespace SimpleResponse

namespace Op

def statusCode? : Op → Option UInt16
  | setStatusCode statusCode => some statusCode
  | _ => none

/-- Both setters of a known header, of which one has a fixed id. -/
def knownHeader? (id : ℕ) : Op → Option Bytes
  | setContentType contentType => if httpHeaderContentType = id then some contentType else none
  | addKnownHeader i data => if i = id then some data else none
  | _ => none

def unknownHeader? (name : Bytes) : Op → Option Bytes
  | addUnknownHeader n val => if n = name then some val else none
  | _ => none

def unknownName? : Op → Option Bytes
  | addUnknownHeader name _ => some name
  | _ => none

/-- The strings that are set have the lengths an HTTP_RESPONSE can hold. -/
def Short : Op → Prop
  | setReason reason => reason.length < 65536
  | setContentType contentType => contentType.length < 65536
  | setBody body => body.length < 4294967296
  | addKnownHeader _ data => data.length < 65536
  | addUnknownHeader name val => name.length < 65536 ∧ val.length < 65536
  | addTrailer name val => name.length < 65536 ∧ val.length < 65536
  | setStatusCode _ | getResponse => True

section Writes
variable {op : Op} {name val : Bytes}

lemma knownHeader?_eq_some {id : ℕ} : op.knownHeader? id = some val ↔
    (id = httpHeaderContentType ∧ op = setContentType val) ∨ op = addKnownHeader id val := by
  cases op <;> simp [knownHeader?,eq_comm]

lemma unknownHeader?_eq_some : op.unknownHeader? name = some val ↔
    op = addUnknownHeader name val := by
  cases op <;> simp [unknownHeader?]

end Writes
end Op

section After
variable (ops : List Op)

/-- What is set holds what was set last, and each header what its setters set last. -/
theorem knownHeaders_after (id : ℕ) :
    (after ops).knownHeaders[id]? = last (Op.knownHeader? id) ops := by
  have hstep : ∀ (s : SimpleResponse) (op : Op),
      (op.apply s).knownHeaders[id]? = (op.knownHeader? id).or s.knownHeaders[id]? := by
    intro s op
    cases op with
    | setContentType | addKnownHeader => exact getElem?_insert_or _ _ _ _
    | _ => rfl
  exact (foldl_last (fun s : SimpleResponse => s.knownHeaders[id]?) hstep ops {}).trans (Option.or_none)

theorem unknownHeaders_after (name : Bytes) :
    (after ops).unknownHeaders[name]? = last (Op.unknownHeader? name) ops := by
  have hstep : ∀ (s : SimpleResponse) (op : Op),
      (op.apply s).unknownHeaders[name]? = (op.unknownHeader? name).or s.unknownHeaders[name]? := by
    intro s op
    cases op with
    | addUnknownHeader => exact getElem?_insert_or _ _ _ _
    | _ => rfl
  exact (foldl_last (fun s : SimpleResponse => s.unknownHeaders[name]?) hstep ops {}).trans (Option.or_none)

end After

/-- A map has no more keys than there are different names. -/
lemma size_le_dedup {headers : Std.TreeMap Bytes Bytes} {names : List Bytes}
    (h : ∀ name val, headers[name]? = some val → name ∈ names) :
    headers.size ≤ names.dedup.length := by
  rw [← Std.TreeMap.length_keys]
  refine (List.subperm_of_subset Std.TreeMap.nodup_keys fun name hname => ?_).length_le
  obtain ⟨⟨n,val⟩,hp,rfl⟩ := List.mem_map.mp (Std.TreeMap.map_fst_toList_eq_keys ▸ hname)
  exact List.mem_dedup.mpr (h n val (Std.TreeMap.mem_toList_iff_getElem?_eq_some.mp hp))

section Sizes
variable {ops : List Op}

lemma addUnknownHeader_mem {name val : Bytes} (h : (after ops).unknownHeaders[name]? = some val) :
    .addUnknownHeader name val ∈ ops := by
  rw [unknownHeaders_after] at h
  obtain ⟨op,hop,hval⟩ := exists_of_last h
  rwa [← Op.unknownHeader?_eq_some.mp hval]

end Sizes

section First
variable {s : SimpleResponse}

end First

end SimpleResponse
end Winext.Http
