import Mathlib.Tactic.Common
import Std.Data.TreeMap

/-! What a sequence of operations leaves behind, when each of them writes some of the
places of a state: the last write to a place, read off the operations alone. -/
namespace Winext.Lib
variable {σ ω α γ : Type*}

/-- The last value that an operation of the list writes. -/
def last (f : ω → Option α) (ops : List ω) : Option α := (ops.filterMap f).getLast?

@[simp] theorem last_nil (f : ω → Option α) : last f [] = none := rfl

theorem last_cons (f : ω → Option α) (op : ω) (ops : List ω) :
    last f (op::ops) = (last f ops).or (f op) := by
  unfold last
  cases h : f op with
  | none => rw [List.filterMap_cons_none h,Option.or_none]
  | some a =>
    rw [List.filterMap_cons_some h,List.getLast?_cons]
    cases (ops.filterMap f).getLast? <;> rfl

theorem exists_of_last {f : ω → Option α} {ops : List ω} {a : α} (h : last f ops = some a) :
    ∃ op ∈ ops, f op = some a :=
  List.mem_filterMap.mp (List.mem_of_getLast? h)

theorem last_eq_none_iff {f : ω → Option α} {ops : List ω} :
    last f ops = none ↔ ∀ op ∈ ops, f op = none := by
  rw [last,List.getLast?_eq_none_iff,List.filterMap_eq_nil_iff]

section Fold
variable {apply : σ → ω → σ} {f : ω → Option α}

/-- A place that may be empty holds the last write, or what it held before. -/
theorem foldl_last (get : σ → Option α) (h : ∀ s op, get (apply s op) = (f op).or (get s))
    (ops : List ω) (s : σ) : get (ops.foldl apply s) = (last f ops).or (get s) := by
  induction ops generalizing s with
  | nil => rfl
  | cons op ops ih => rw [List.foldl_cons,ih,h,last_cons,Option.or_assoc]

/-- A place that some operation writes, whatever it held, ends up the same from any two
states, when the other operations keep two states equal there. -/
theorem foldl_forgets (get : σ → γ) {W : ω → Prop}
    (hkeep : ∀ s t op, get s = get t → get (apply s op) = get (apply t op))
    (hwrite : ∀ s t op, W op → get (apply s op) = get (apply t op)) {ops : List ω}
    (h : ∃ op ∈ ops, W op) (s t : σ) : get (ops.foldl apply s) = get (ops.foldl apply t) := by
  have hsame : ∀ (ops : List ω) (s t : σ), get s = get t →
      get (ops.foldl apply s) = get (ops.foldl apply t) := by
    intro ops
    induction ops with
    | nil => exact fun s t h => h
    | cons op ops ih => exact fun s t h => ih _ _ (hkeep s t op h)
  induction ops generalizing s t with
  | nil => simp at h
  | cons op ops ih =>
    by_cases hop : W op
    · exact hsame ops _ _ (hwrite s t op hop)
    · obtain ⟨o,ho,hw⟩ := h
      obtain rfl | ho := List.mem_cons.mp ho
      · exact absurd hw hop
      · exact ih ⟨o,ho,hw⟩ _ _

end Fold

section Map
variable {κ ν : Type*} [Ord κ] [Std.TransOrd κ] [Std.LawfulEqOrd κ] [DecidableEq κ]

/-- Inserting is a write to the place of its key. -/
theorem getElem?_insert_or (m : Std.TreeMap κ ν) (k i : κ) (v : ν) :
    (m.insert k v)[i]? = (if k = i then some v else none).or m[i]? := by
  rw [Std.TreeMap.getElem?_insert]
  by_cases h : k = i
  · simp [h]
  · simp [h]

end Map
end Winext.Lib
