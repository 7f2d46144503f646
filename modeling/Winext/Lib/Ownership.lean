import Mathlib.Data.Set.Insert
import Mathlib.Logic.Function.Basic
import Mathlib.Tactic.Common

/-! Resources with single owners. A ledger cannot express a resource with two owners or
an owner of something that is not open; what it can express is an open resource that
nobody owns, and such a leak is for ever. -/
namespace Winext.Lib

@[ext] structure Ledger (ι κ : Type*) where
  opened : Set κ
  owner : ι → Option κ
  owned_opened : ∀ i k, owner i = some k → k ∈ opened
  one_owner : ∀ i j k, owner i = some k → owner j = some k → i = j

namespace Ledger
variable {ι κ : Type*} [DecidableEq ι]

/-- Every open resource has exactly one owner. -/
def Accounted (L : Ledger ι κ) : Prop := ∀ k ∈ L.opened, ∃! i, L.owner i = some k

omit [DecidableEq ι] in
theorem accounted_iff {L : Ledger ι κ} :
    L.Accounted ↔ ∀ k ∈ L.opened, ∃ i, L.owner i = some k := by
  constructor
  · intro h k hk
    exact (h k hk).exists
  · intro h k hk
    obtain ⟨i,hi⟩ := h k hk
    exact ⟨i,hi,fun j hj => L.one_owner j i k hj hi⟩

/-- A new resource is taken by an owner that has none. -/
def acquire (L : Ledger ι κ) (i : ι) (k : κ) (hk : k ∉ L.opened) : Ledger ι κ where
  opened := insert k L.opened
  owner := Function.update L.owner i (some k)
  owned_opened j m h := by
    by_cases hj : j = i
    · subst j
      simp only [Function.update_self,Option.some.injEq] at h
      exact Or.inl h.symm
    · rw [Function.update_of_ne hj] at h
      exact Or.inr (L.owned_opened j m h)
  one_owner j l m hj hl := by
    simp only [Function.update_apply] at hj hl
    split_ifs at hj hl with h1 h2 h2
    · rw [h1,h2]
    · cases hj
      exact absurd (L.owned_opened _ _ hl) hk
    · cases hl
      exact absurd (L.owned_opened _ _ hj) hk
    · exact L.one_owner j l m hj hl

def abandon (L : Ledger ι κ) (k : κ) : Ledger ι κ where
  opened := insert k L.opened
  owner := L.owner
  owned_opened i m h := Or.inr (L.owned_opened i m h)
  one_owner := L.one_owner

/-- What the first owner has goes to the second, and the first is left with nothing. -/
def transfer (L : Ledger ι κ) (i j : ι) : Ledger ι κ where
  opened := L.opened
  owner := Function.update (Function.update L.owner j (L.owner i)) i none
  owned_opened l m h := by
    simp only [Function.update_apply] at h
    split_ifs at h
    · exact L.owned_opened i m h
    · exact L.owned_opened l m h
  one_owner l n m hl hn := by
    simp only [Function.update_apply] at hl hn
    split_ifs at hl hn with h1 h2 h3 h4 h5
    · rw [h2,h4]
    · exact absurd (L.one_owner n i m hn hl) h3
    · exact absurd (L.one_owner l i m hl hn) h1
    · exact L.one_owner l n m hl hn

/-- An owner closes what it has. -/
def discard (L : Ledger ι κ) (i : ι) : Ledger ι κ where
  opened := {k ∈ L.opened | L.owner i ≠ some k}
  owner := Function.update L.owner i none
  owned_opened j m h := by
    simp only [Function.update_apply] at h
    split_ifs at h with hj
    exact ⟨L.owned_opened j m h,fun hi => hj (L.one_owner j i m h hi)⟩
  one_owner j l m hj hl := by
    simp only [Function.update_apply] at hj hl
    split_ifs at hj hl
    exact L.one_owner j l m hj hl

/-- An owner without a resource takes a new one: nothing else is disturbed. -/
theorem accounted_acquire {L : Ledger ι κ} {i : ι} {k : κ} (hi : L.owner i = none)
    (hk : k ∉ L.opened) : (L.acquire i k hk).Accounted ↔ L.Accounted := by
  simp only [accounted_iff,acquire,Set.mem_insert_iff]
  constructor
  · intro h m hm
    obtain ⟨j,hj⟩ := h m (Or.inr hm)
    by_cases hji : j = i
    · subst j
      simp only [Function.update_self,Option.some.injEq] at hj
      exact absurd (hj ▸ hm) hk
    · exact ⟨j,by rwa [Function.update_of_ne hji] at hj⟩
  · rintro h m (rfl | hm)
    · exact ⟨i,by simp⟩
    · obtain ⟨j,hj⟩ := h m hm
      have hji : j ≠ i := fun he => by simp [he,hi] at hj
      exact ⟨j,by rwa [Function.update_of_ne hji]⟩

omit [DecidableEq ι] in
theorem not_accounted_abandon {L : Ledger ι κ} {k : κ} (hk : k ∉ L.opened) :
    ¬(L.abandon k).Accounted := by
  intro h
  obtain ⟨i,hi⟩ := (h k (Set.mem_insert k _)).exists
  exact hk (L.owned_opened i k hi)

theorem accounted_transfer {L : Ledger ι κ} {i j : ι} (hj : L.owner j = none) (hij : i ≠ j) :
    (L.transfer i j).Accounted ↔ L.Accounted := by
  simp only [accounted_iff,transfer]
  refine forall₂_congr fun m _ => ?_
  constructor
  · rintro ⟨l,hl⟩
    simp only [Function.update_apply] at hl
    split_ifs at hl
    · exact ⟨i,hl⟩
    · exact ⟨l,hl⟩
  · rintro ⟨l,hl⟩
    by_cases hli : l = i
    · subst l
      exact ⟨j,by simp [hij.symm,hl]⟩
    · have hlj : l ≠ j := fun he => by simp [he,hj] at hl
      exact ⟨l,by simp [hli,hlj,hl]⟩

theorem accounted_discard {L : Ledger ι κ} {i : ι} :
    (L.discard i).Accounted ↔ L.Accounted := by
  simp only [accounted_iff,discard,Set.mem_ofPred_eq]
  constructor
  · intro h m hm
    by_cases hi : L.owner i = some m
    · exact ⟨i,hi⟩
    · obtain ⟨j,hj⟩ := h m ⟨hm,hi⟩
      simp only [Function.update_apply] at hj
      split_ifs at hj
      exact ⟨j,hj⟩
  · rintro h m ⟨hm,hi⟩
    obtain ⟨j,hj⟩ := h m hm
    have hji : j ≠ i := fun he => hi (he ▸ hj)
    exact ⟨j,by rwa [Function.update_of_ne hji]⟩

end Ledger
end Winext.Lib
