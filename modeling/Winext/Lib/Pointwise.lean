import Mathlib.Algebra.GroupWithZero.Nat
import Mathlib.Data.List.Forall2

/-! Two lists of components, each one of the first in relation with its counterpart in the
second, when single components change and new ones are added. -/
namespace Winext.Lib
open List
variable {α β : Type*} {R : α → β → Prop} {xs : List α} {ys : List β}

theorem getElem?_of_forall₂ (h : Forall₂ R xs ys) {i : ℕ} {a : α} (ha : xs[i]? = some a) :
    ∃ b, ys[i]? = some b ∧ R a b := by
  induction h generalizing i with
  | nil => simp at ha
  | cons hab hrest ih =>
    cases i with
    | zero =>
      cases ha
      exact ⟨_,rfl,hab⟩
    | succ i => exact ih ha

theorem exists_of_mem_forall₂ (h : Forall₂ R xs ys) {a : α} (ha : a ∈ xs) : ∃ b ∈ ys, R a b := by
  obtain ⟨i,hi⟩ := mem_iff_getElem?.mp ha
  obtain ⟨b,hb,hab⟩ := getElem?_of_forall₂ h hi
  exact ⟨b,mem_of_getElem? hb,hab⟩

theorem forall₂_set (h : Forall₂ R xs ys) {a : α} {b : β} (hab : R a b) (i : ℕ) :
    Forall₂ R (xs.set i a) (ys.set i b) := by
  induction h generalizing i with
  | nil => exact .nil
  | cons hxy hrest ih =>
    cases i with
    | zero => exact .cons hab hrest
    | succ i => exact .cons hxy (ih i)

/-- A function that tells the components of two lists apart tells the lists apart. -/
theorem eq_of_map_eq {γ : Type*} {f : α → γ} {xs ys : List α}
    (hf : ∀ x ∈ xs, ∀ y ∈ ys, f x = f y → x = y) (h : xs.map f = ys.map f) : xs = ys := by
  induction xs generalizing ys with
  | nil => exact (map_eq_nil_iff.mp h.symm).symm
  | cons x xs ih =>
    cases ys with
    | nil => cases h
    | cons y ys =>
      obtain ⟨hxy,hrest⟩ := cons.inj h
      rw [hf x mem_cons_self y mem_cons_self hxy,
        ih (fun a ha b hb => hf a (mem_cons_of_mem x ha) b (mem_cons_of_mem y hb)) hrest]

/-- Related components that are counted alike give the same count. -/
theorem countP_of_forall₂ {p : α → Bool} {q : β → Bool} (h : Forall₂ R xs ys)
    (hpq : ∀ a b, R a b → p a = q b) : xs.countP p = ys.countP q := by
  induction h with
  | nil => rfl
  | cons hab hrest ih => simp only [countP_cons,ih,hpq _ _ hab]

/-- A component that changes moves the count by what it counts for. -/
theorem countP_set_add (q : β → Bool) {i : ℕ} {b : β} (hb : ys[i]? = some b) (b' : β) :
    (ys.set i b').countP q + (if q b then 1 else 0) = ys.countP q + (if q b' then 1 else 0) := by
  obtain ⟨hi,rfl⟩ := List.getElem?_eq_some_iff.mp hb
  have hle : (if q ys[i] then 1 else 0) ≤ ys.countP q := by
    split_ifs with h
    · exact countP_pos_iff.mpr ⟨_,getElem_mem hi,h⟩
    · exact Nat.zero_le _
  rw [countP_set hi]
  omega

/-- A component that changes moves the sum by what it adds to it. -/
theorem sum_map_set_add (f : β → ℕ) {i : ℕ} {b : β} (hb : ys[i]? = some b) (b' : β) :
    ((ys.set i b').map f).sum + f b = (ys.map f).sum + f b' := by
  induction ys generalizing i with
  | nil => cases hb
  | cons y ys ih =>
    cases i with
    | zero =>
      cases hb
      simp only [set_cons_zero,map_cons,sum_cons]
      omega
    | succ i =>
      have hset := ih hb
      simp only [set_cons_succ,map_cons,sum_cons]
      omega

end Winext.Lib
