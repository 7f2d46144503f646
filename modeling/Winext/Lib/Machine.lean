import Mathlib.Algebra.GroupWithZero.Nat
import Mathlib.Tactic.Common

/-! Executable labelled machines and the induction rules of their finite runs.
Every choice the environment has in a step is part of the step's label, so a run
is a function of its labels and can be evaluated. -/
namespace Winext.Lib

/-- A machine takes a labelled step or refuses the label. -/
structure Machine (σ ℓ : Type*) where
  step : σ → ℓ → Option σ

namespace Machine
variable {σ ℓ : Type*} (M : Machine σ ℓ)

def run (s : σ) : List ℓ → Option σ
  | [] => some s
  | l::ls => (M.step s l).bind fun t => run t ls

@[simp] theorem run_nil (s : σ) : M.run s [] = some s := rfl

theorem run_cons_iff {s u : σ} {l : ℓ} {ls : List ℓ} :
    M.run s (l::ls) = some u ↔ ∃ t, M.step s l = some t ∧ M.run t ls = some u := by
  simp [run, Option.bind_eq_some_iff]

theorem run_append {s t u : σ} {ls ms : List ℓ} (h : M.run s ls = some t)
    (hu : M.run t ms = some u) : M.run s (ls ++ ms) = some u := by
  induction ls generalizing s with
  | nil => cases h; exact hu
  | cons l ls ih =>
    obtain ⟨v,hv,ht⟩ := M.run_cons_iff.mp h
    exact M.run_cons_iff.mpr ⟨v,hv,ih ht⟩

theorem run_concat_iff {s u : σ} {l : ℓ} {ls : List ℓ} :
    M.run s (ls ++ [l]) = some u ↔ ∃ t, M.run s ls = some t ∧ M.step t l = some u := by
  induction ls generalizing s with
  | nil => simp [run]
  | cons m ls ih =>
    rw [List.cons_append,run_cons_iff]
    simp only [ih,run_cons_iff]
    constructor
    · rintro ⟨v,hv,t,ht,hu⟩
      exact ⟨t,⟨v,hv,ht⟩,hu⟩
    · rintro ⟨t,⟨v,hv,ht⟩,hu⟩
      exact ⟨v,hv,t,ht,hu⟩

/-- A predicate that no step can leave. -/
def Preserves (I : σ → Prop) : Prop := ∀ s l t, I s → M.step s l = some t → I t

/-- The condition holds at every step of the run, on the state before it and its label. -/
def Along (C : σ → ℓ → Prop) (s : σ) : List ℓ → Prop
  | [] => True
  | l::ls => C s l ∧ ∀ t, M.step s l = some t → Along C t ls

def Stuck (s : σ) : Prop := ∀ l, M.step s l = none

variable {M}

theorem along_cons {C : σ → ℓ → Prop} {s t : σ} {l : ℓ} {ls : List ℓ}
    (h : M.step s l = some t) : M.Along C s (l::ls) ↔ C s l ∧ M.Along C t ls := by
  simp [Along,h]

theorem along_append {C : σ → ℓ → Prop} {s t : σ} {ls ms : List ℓ} (h : M.run s ls = some t) :
    M.Along C s (ls ++ ms) ↔ M.Along C s ls ∧ M.Along C t ms := by
  induction ls generalizing s with
  | nil =>
    cases h
    simp [Along]
  | cons l ls ih =>
    obtain ⟨u,hu,ht⟩ := M.run_cons_iff.mp h
    rw [List.cons_append,along_cons hu,along_cons hu,ih ht,and_assoc]

theorem Preserves.run {I : σ → Prop} (hI : M.Preserves I) {s t : σ} {ls : List ℓ}
    (h : M.run s ls = some t) (hs : I s) : I t := by
  induction ls generalizing s with
  | nil => cases h; exact hs
  | cons l ls ih =>
    obtain ⟨u,hu,ht⟩ := M.run_cons_iff.mp h
    exact ih ht (hI s l u hs hu)

theorem Preserves.and {I J : σ → Prop} (hI : M.Preserves I) (hJ : M.Preserves J) :
    M.Preserves (fun s => I s ∧ J s) :=
  fun s l t hs h => ⟨hI s l t hs.1 h,hJ s l t hs.2 h⟩

/-- A machine whose runs are bounded in length has a run that ends stuck. -/
theorem exists_stuck_run {s : σ} {bound : ℕ}
    (h : ∀ ls t, M.run s ls = some t → ls.length ≤ bound) :
    ∃ ls t, M.run s ls = some t ∧ M.Stuck t := by
  induction bound generalizing s with
  | zero =>
    refine ⟨[],s,rfl,fun l => ?_⟩
    by_contra hne
    obtain ⟨t,ht⟩ := Option.ne_none_iff_exists'.mp hne
    exact Nat.not_succ_le_zero 0 (h [l] t (M.run_cons_iff.mpr ⟨t,ht,rfl⟩))
  | succ bound ih =>
    by_cases hs : M.Stuck s
    · exact ⟨[],s,rfl,hs⟩
    · obtain ⟨l,hl⟩ := not_forall.mp hs
      obtain ⟨t,ht⟩ := Option.ne_none_iff_exists'.mp hl
      obtain ⟨ls,u,hu,hstuck⟩ := ih (s := t) fun ls u hu =>
        Nat.le_of_succ_le_succ (h (l::ls) u (M.run_cons_iff.mpr ⟨t,ht,hu⟩))
      exact ⟨l::ls,u,M.run_cons_iff.mpr ⟨t,ht,hu⟩,hstuck⟩

/-- When a step to a state of the same kind is always there, so is a run of any length. -/
theorem exists_run_length {I : σ → Prop} (hI : ∀ s, I s → ∃ l t, M.step s l = some t ∧ I t)
    {s : σ} (hs : I s) (n : ℕ) : ∃ ls t, M.run s ls = some t ∧ ls.length = n := by
  induction n generalizing s with
  | zero => exact ⟨[],s,rfl,rfl⟩
  | succ n ih =>
    obtain ⟨l,t,ht,hIt⟩ := hI s hs
    obtain ⟨ls,u,hu,hn⟩ := ih hIt
    exact ⟨l::ls,u,M.run_cons_iff.mpr ⟨t,ht,hu⟩,congrArg Nat.succ hn⟩

/-- A predicate kept by the steps that meet the condition holds at the end of a run
all of whose steps meet it. -/
theorem run_along {I : σ → Prop} {C : σ → ℓ → Prop}
    (hI : ∀ s l t, I s → C s l → M.step s l = some t → I t) {s t : σ} {ls : List ℓ}
    (h : M.run s ls = some t) (hs : I s) (hC : M.Along C s ls) : I t := by
  induction ls generalizing s with
  | nil => cases h; exact hs
  | cons l ls ih =>
    obtain ⟨u,hu,ht⟩ := M.run_cons_iff.mp h
    exact ih ht (hI s l u hs hC.1 hu) (hC.2 u hu)

/-- What holds of a state and the labels that have led to it, as every step keeps it. -/
theorem run_history {I : List ℓ → σ → Prop}
    (hI : ∀ ls s l t, I ls s → M.step s l = some t → I (ls ++ [l]) t) {s t : σ} {ls ms : List ℓ}
    (h : M.run s ms = some t) (hs : I ls s) : I (ls ++ ms) t := by
  induction ms generalizing s ls with
  | nil =>
    cases h
    rwa [List.append_nil]
  | cons m ms ih =>
    obtain ⟨u,hu,ht⟩ := M.run_cons_iff.mp h
    have hmove := ih ht (hI ls s m u hs hu)
    rwa [List.append_assoc] at hmove

/-- When every step that meets the condition leads to a bound that is smaller, but for what
the step itself adds, the runs of such steps are as short as the bound and these gains say. -/
theorem length_le_of_gains {I : ℕ → σ → Prop} {C : σ → ℓ → Prop} {gain : ℓ → ℕ}
    (hI : ∀ n s l t, I n s → C s l → M.step s l = some t → ∃ m < n + gain l, I m t) {n : ℕ}
    {s t : σ} {ls : List ℓ} (h : M.run s ls = some t) (hs : I n s) (hC : M.Along C s ls) :
    ls.length ≤ n + (ls.map gain).sum := by
  induction ls generalizing n s with
  | nil => exact Nat.zero_le n
  | cons l ls ih =>
    obtain ⟨u,hu,ht⟩ := M.run_cons_iff.mp h
    obtain ⟨m,hm,hIu⟩ := hI n s l u hs hC.1 hu
    have hle := ih ht hIu (hC.2 u hu)
    rw [List.length_cons,List.map_cons,List.sum_cons]
    omega

/-- In particular when no step adds anything. -/
theorem length_le_of_descends {I : ℕ → σ → Prop} {C : σ → ℓ → Prop}
    (hI : ∀ n s l t, I n s → C s l → M.step s l = some t → ∃ m < n, I m t) {n : ℕ} {s t : σ}
    {ls : List ℓ} (h : M.run s ls = some t) (hs : I n s) (hC : M.Along C s ls) : ls.length ≤ n := by
  have hle : ls.length ≤ n + (ls.map fun _ => 0).sum := length_le_of_gains hI h hs hC
  rwa [List.map_const',List.sum_replicate_nat,Nat.mul_zero,Nat.add_zero] at hle

/-- What an invariant allows, that the steps meeting one condition keep, can be added to
that condition along a run. -/
theorem along_of_run {I : σ → Prop} {C D : σ → ℓ → Prop}
    (hI : ∀ s l t, I s → C s l → M.step s l = some t → I t ∧ D s l) {s t : σ} {ls : List ℓ}
    (h : M.run s ls = some t) (hs : I s) (hC : M.Along C s ls) : M.Along D s ls := by
  induction ls generalizing s with
  | nil => exact trivial
  | cons l ls ih =>
    obtain ⟨u,hu,ht⟩ := M.run_cons_iff.mp h
    obtain ⟨hIu,hD⟩ := hI s l u hs hC.1 hu
    exact (along_cons hu).mpr ⟨hD,ih ht hIu (hC.2 u hu)⟩

/-- A condition on labels alone holds along a run if it holds of each label. -/
theorem along_label_iff {C : ℓ → Prop} {s t : σ} {ls : List ℓ} (h : M.run s ls = some t) :
    M.Along (fun _ l => C l) s ls ↔ ∀ l ∈ ls, C l := by
  induction ls generalizing s with
  | nil => simp [Along]
  | cons l ls ih =>
    obtain ⟨u,hu,ht⟩ := M.run_cons_iff.mp h
    rw [along_cons hu,ih ht,List.forall_mem_cons]

/-- A condition along a run is one on each of its steps, in the state that the labels
before it lead to. -/
theorem along_iff_split {C : σ → ℓ → Prop} {s : σ} {ls : List ℓ} : M.Along C s ls ↔
    ∀ before l after t, ls = before ++ l::after → M.run s before = some t → C t l := by
  induction ls generalizing s with
  | nil => simp [Along]
  | cons m ls ih =>
    constructor
    · rintro ⟨hm,hrest⟩ before l after t hls ht
      cases before with
      | nil =>
        cases ht
        cases hls
        exact hm
      | cons b before =>
        obtain ⟨rfl,rfl⟩ := List.cons_eq_cons.mp hls
        obtain ⟨u,hu,hut⟩ := M.run_cons_iff.mp ht
        exact ih.mp (hrest u hu) before l after t rfl hut
    · intro h
      refine ⟨h [] m ls s rfl rfl,fun u hu => ih.mpr fun before l after t hls ht => ?_⟩
      exact h (m::before) l after t (congrArg (m::·) hls) (M.run_cons_iff.mpr ⟨u,hu,ht⟩)

/-- A latch: the steps that meet the condition keep `Good`, the first one that does
not leads to `Bad`, and no step leaves `Bad`. -/
structure Latch (M : Machine σ ℓ) (C : σ → ℓ → Prop) (Good Bad : σ → Prop) : Prop where
  keep : ∀ s l t, Good s → C s l → M.step s l = some t → Good t
  trip : ∀ s l t, Good s → ¬C s l → M.step s l = some t → Bad t
  stay : M.Preserves Bad

theorem Latch.run {C : σ → ℓ → Prop} {Good Bad : σ → Prop} (L : M.Latch C Good Bad)
    {s t : σ} {ls : List ℓ} (h : M.run s ls = some t) (hs : Good s) :
    (M.Along C s ls ∧ Good t) ∨ (¬M.Along C s ls ∧ Bad t) := by
  induction ls generalizing s with
  | nil => cases h; exact Or.inl ⟨trivial,hs⟩
  | cons l ls ih =>
    obtain ⟨u,hu,ht⟩ := M.run_cons_iff.mp h
    rw [along_cons hu]
    by_cases hC : C s l
    · obtain ⟨ha,hg⟩ | ⟨ha,hb⟩ := ih ht (L.keep s l u hs hC hu)
      · exact Or.inl ⟨⟨hC,ha⟩,hg⟩
      · exact Or.inr ⟨fun hl => ha hl.2,hb⟩
    · exact Or.inr ⟨fun hl => hC hl.1,L.stay.run ht (L.trip s l u hs hC hu)⟩

/-- When the two sides of a latch exclude each other, the run's condition can be read
off its last state. -/
theorem Latch.iff {C : σ → ℓ → Prop} {Good Bad : σ → Prop} (L : M.Latch C Good Bad)
    (hne : ∀ s, Good s → ¬Bad s) {s t : σ} {ls : List ℓ} (h : M.run s ls = some t)
    (hs : Good s) : Good t ↔ M.Along C s ls := by
  obtain ⟨ha,hg⟩ | ⟨ha,hb⟩ := L.run h hs
  · exact iff_of_true hg ha
  · exact iff_of_false (fun hg => hne t hg hb) ha

/-- A value beside the state that a step leaves good if it was good and the condition holds,
and otherwise does not. -/
theorem Latch.ofGhost {γ : Type*} {C : σ → ℓ → Prop} {W : σ → γ → Prop} {good : γ → Prop}
    (h : ∀ s l t g, W s g → M.step s l = some t → ∃ g', W t g' ∧ (good g' ↔ good g ∧ C s l)) :
    M.Latch C (fun s => ∃ g, W s g ∧ good g) fun s => ∃ g, W s g ∧ ¬good g where
  keep := by
    rintro s l t ⟨g,hg,hgood⟩ hC hstep
    obtain ⟨g',ht,hiff⟩ := h s l t g hg hstep
    exact ⟨g',ht,hiff.mpr ⟨hgood,hC⟩⟩
  trip := by
    rintro s l t ⟨g,hg,-⟩ hC hstep
    obtain ⟨g',ht,hiff⟩ := h s l t g hg hstep
    exact ⟨g',ht,fun hgood => hC (hiff.mp hgood).2⟩
  stay := by
    rintro s l t ⟨g,hg,hbad⟩ hstep
    obtain ⟨g',ht,hiff⟩ := h s l t g hg hstep
    exact ⟨g',ht,fun hgood => hbad (hiff.mp hgood).1⟩

/-- The predicate holds of every state the run passes through. -/
def Throughout (M : Machine σ ℓ) (P : σ → Prop) (s : σ) (ls : List ℓ) : Prop :=
  ∀ ms t, ms <+: ls → M.run s ms = some t → P t

theorem throughout_cons {P : σ → Prop} {s t : σ} {l : ℓ} {ls : List ℓ}
    (h : M.step s l = some t) :
    M.Throughout P s (l::ls) ↔ P s ∧ M.Throughout P t ls := by
  constructor
  · intro hall
    refine ⟨hall [] s List.nil_prefix rfl,fun ms u hms hu => ?_⟩
    exact hall (l::ms) u (List.cons_prefix_cons.mpr ⟨rfl,hms⟩) (M.run_cons_iff.mpr ⟨t,h,hu⟩)
  · rintro ⟨hs,hall⟩ ms u hms hu
    cases ms with
    | nil =>
      cases hu
      exact hs
    | cons m ms =>
      obtain ⟨rfl,hrest⟩ := List.cons_prefix_cons.mp hms
      obtain ⟨v,hv,hvu⟩ := M.run_cons_iff.mp hu
      cases h.symm.trans hv
      exact hall ms u hrest hvu

theorem along_initial {C : σ → ℓ → Prop} {s : σ} {ls ms : List ℓ} (h : M.Along C s ls)
    (hms : ms <+: ls) : M.Along C s ms := by
  obtain ⟨rest,rfl⟩ := hms
  refine along_iff_split.mpr fun before l after t hsplit ht => ?_
  exact along_iff_split.mp h before l (after ++ rest) t (by simp [hsplit]) ht

/-- An invariant of the steps that meet the condition holds throughout a run of them. -/
theorem throughout_of_along {I : σ → Prop} {C : σ → ℓ → Prop}
    (hI : ∀ s l t, I s → C s l → M.step s l = some t → I t) {s : σ} {ls : List ℓ}
    (hs : I s) (hC : M.Along C s ls) : M.Throughout I s ls :=
  fun _ _ hms ht => run_along hI ht hs (along_initial hC hms)

/-- When the steps that meet the condition keep an invariant, and every other step leads
to a state without the property, the property holds throughout a run if and only if all
of its steps meet the condition. -/
theorem throughout_iff_along {I P : σ → Prop} {C : σ → ℓ → Prop} (hP : ∀ s, I s → P s)
    (keep : ∀ s l t, I s → C s l → M.step s l = some t → I t)
    (trip : ∀ s l t, I s → ¬C s l → M.step s l = some t → ¬P t) {s t : σ} {ls : List ℓ}
    (h : M.run s ls = some t) (hs : I s) : M.Throughout P s ls ↔ M.Along C s ls := by
  induction ls generalizing s with
  | nil =>
    refine iff_of_true (fun ms u hms hu => ?_) trivial
    rw [List.prefix_nil.mp hms] at hu
    cases hu
    exact hP s hs
  | cons l ls ih =>
    obtain ⟨u,hu,ht⟩ := M.run_cons_iff.mp h
    rw [throughout_cons hu,along_cons hu]
    by_cases hC : C s l
    · rw [ih ht (keep s l u hs hC hu)]
      exact and_congr_left fun _ => iff_of_true (hP s hs) hC
    · refine iff_of_false (fun hall => ?_) fun hall => hC hall.1
      exact trip s l u hs hC hu (hall.2 [] u List.nil_prefix rfl)

end Machine
end Winext.Lib
