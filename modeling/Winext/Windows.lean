import Winext.Lib.CompletionPort

/-! The Windows names the sources use. -/
namespace Winext
open Lib

/-- The two reserved values, and the handles of pipe instances. -/
inductive Handle
  | invalidHandleValue
  | null
  | pipe (n : ℕ)
  deriving DecidableEq, Repr

/-- Handles are numbered as they are made: making one adds it to those already made. -/
theorem Handle.made_succ_iff {created : ℕ} {h : Handle} :
    (∃ n < created + 1, h = .pipe n) ↔ h = .pipe created ∨ ∃ n < created, h = .pipe n := by
  constructor
  · rintro ⟨n,hn,rfl⟩
    obtain hn | rfl := Nat.lt_succ_iff_lt_or_eq.mp hn
    · exact Or.inr ⟨n,hn,rfl⟩
    · exact Or.inl rfl
  · rintro (rfl | ⟨n,hn,rfl⟩)
    · exact ⟨created,Nat.lt_succ_self created,rfl⟩
    · exact ⟨n,Nat.lt_succ_of_lt hn,rfl⟩

theorem Handle.next_not_made {created : ℕ} : ¬∃ n < created, Handle.pipe created = .pipe n := by
  rintro ⟨n,hn,he⟩
  cases he
  exact Nat.lt_irrefl created hn

/-- When only handles that were made are closed, the next one made is open. -/
theorem Handle.open_succ_iff {created : ℕ} {closed : List Handle}
    (hclosed : ∀ h ∈ closed, ∃ n < created, h = .pipe n) (h : Handle) :
    ((∃ n < created + 1, h = .pipe n) ∧ h ∉ closed) ↔
      h = .pipe created ∨ ((∃ n < created, h = .pipe n) ∧ h ∉ closed) := by
  rw [made_succ_iff,or_and_right]
  refine or_congr_left (and_iff_left_of_imp ?_)
  rintro rfl hc
  exact next_not_made (hclosed _ hc)

def noError : Dword := 0
def errorFileNotFound : Dword := 2
def errorInvalidHandle : Dword := 6
def errorHandleEof : Dword := 38
def errorPipeBusy : Dword := 231
def errorNoData : Dword := 232
def errorMoreData : Dword := 234
def errorPipeConnected : Dword := 535
def errorOperationAborted : Dword := 995
def errorIoPending : Dword := 997

@[simp] theorem errorPipeConnected_ne_errorIoPending : errorPipeConnected ≠ errorIoPending := by
  decide

@[simp] theorem errorPipeConnected_ne_noError : errorPipeConnected ≠ noError := by decide

end Winext
