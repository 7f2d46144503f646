import Mathlib.Tactic.Common

/-! A list of components that take their steps one at a time. -/
namespace Winext.Lib
variable {α : Type*} {xs ys : List α} {i j : ℕ} {f : α → Option α}

/-- The component with this index takes its step, and the others stay as they are. -/
def stepAt (xs : List α) (i : ℕ) (f : α → Option α) : Option (List α) :=
  (xs[i]?.bind f).map (xs.set i)

theorem stepAt_eq_some :
    stepAt xs i f = some ys ↔ ∃ x y, xs[i]? = some x ∧ f x = some y ∧ ys = xs.set i y := by
  simp only [stepAt,Option.map_eq_some_iff,Option.bind_eq_some_iff]
  constructor
  · rintro ⟨y,⟨x,hx,hy⟩,rfl⟩
    exact ⟨x,y,hx,hy,rfl⟩
  · rintro ⟨x,y,hx,hy,rfl⟩
    exact ⟨y,⟨x,hx,hy⟩,rfl⟩

theorem getElem?_stepAt_of_ne (hij : i ≠ j) (h : stepAt xs i f = some ys) : ys[j]? = xs[j]? := by
  obtain ⟨x,y,-,-,rfl⟩ := stepAt_eq_some.mp h
  exact List.getElem?_set_ne hij

theorem getElem?_stepAt_self {x : α} (hx : xs[i]? = some x) (h : stepAt xs i f = some ys) :
    ∃ y, f x = some y ∧ ys[i]? = some y := by
  obtain ⟨x',y,hx',hy,rfl⟩ := stepAt_eq_some.mp h
  cases hx.symm.trans hx'
  exact ⟨y,hy,List.getElem?_set_self (List.getElem?_eq_some_iff.mp hx).1⟩

/-- What the step keeps of its own component is kept of all. -/
theorem forall_stepAt {P : α → Prop} (hxs : ∀ x ∈ xs, P x)
    (hf : ∀ x y, xs[i]? = some x → P x → f x = some y → P y) (h : stepAt xs i f = some ys) :
    ∀ x ∈ ys, P x := by
  obtain ⟨x,y,hx,hy,rfl⟩ := stepAt_eq_some.mp h
  intro z hz
  obtain hz | rfl := List.mem_or_eq_of_mem_set hz
  · exact hxs z hz
  · exact hf x z hx (hxs x (List.mem_of_getElem? hx)) hy

theorem forall_modify {P : α → Prop} {g : α → α} (hxs : ∀ x ∈ xs, P x)
    (hg : ∀ x, xs[i]? = some x → P x → P (g x)) : ∀ x ∈ xs.modify i g, P x := by
  intro z hz
  obtain ⟨j,hj⟩ := List.mem_iff_getElem?.mp hz
  by_cases hij : i = j
  · subst hij
    rw [List.getElem?_modify_eq] at hj
    obtain ⟨x,hx,rfl⟩ := Option.map_eq_some_iff.mp hj
    exact hg x hx (hxs x (List.mem_of_getElem? hx))
  · rw [List.getElem?_modify_ne _ _ hij] at hj
    exact hxs z (List.mem_of_getElem? hj)

/-- What is there at an index, when the component with one index is replaced. -/
theorem exists_getElem?_set {P : α → Prop} {x y : α} (hx : xs[i]? = some x) :
    (∃ z, (xs.set i y)[j]? = some z ∧ P z) ↔ if i = j then P y else ∃ z, xs[j]? = some z ∧ P z := by
  by_cases hij : i = j
  · subst hij
    rw [List.getElem?_set_self (List.getElem?_eq_some_iff.mp hx).1,if_pos rfl]
    simp
  · rw [List.getElem?_set_ne hij,if_neg hij]

theorem exists_getElem?_concat {P : α → Prop} {y : α} :
    (∃ z, (xs ++ [y])[j]? = some z ∧ P z) ↔ (∃ z, xs[j]? = some z ∧ P z) ∨ j = xs.length ∧ P y := by
  obtain hlt | rfl | hgt := Nat.lt_trichotomy j xs.length
  · rw [List.getElem?_append_left hlt]
    simp [Nat.ne_of_lt hlt]
  · simp
  · have hnone : (xs ++ [y])[j]? = none := by
      rw [List.getElem?_eq_none_iff,List.length_append,List.length_singleton]
      omega
    rw [hnone,List.getElem?_eq_none_iff.mpr (Nat.le_of_lt hgt)]
    simp [Nat.ne_of_gt hgt]

end Winext.Lib
