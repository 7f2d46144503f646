import Winext.Lib.Machine

/-! Programs as trees of calls to their environment, with two readings: executed in one
piece against a state, and interleaved with the environment's own steps. -/
namespace Winext.Lib

/-- A program is done, or makes a call and continues with whatever answer it gets. -/
inductive Program (Call : Type) (Answer : Call → Type) (α : Type) where
  | done (value : α)
  | call (c : Call) (next : Answer c → Program Call Answer α)

namespace Program
variable {Call : Type} {Answer : Call → Type} {α β σ ℓ : Type}

def bind : Program Call Answer α → (α → Program Call Answer β) → Program Call Answer β
  | done a, f => f a
  | call c next, f => call c fun r => (next r).bind f

instance : Monad (Program Call Answer) where
  pure := done
  bind := bind

def ask (c : Call) : Program Call Answer (Answer c) := call c done

@[simp] theorem pure_eq (a : α) : (pure a : Program Call Answer α) = done a := rfl

@[simp] theorem done_bind (a : α) (f : α → Program Call Answer β) : (done a >>= f) = f a := rfl

@[simp] theorem call_bind (c : Call) (next : Answer c → Program Call Answer α)
    (f : α → Program Call Answer β) : (call c next >>= f) = call c fun r => next r >>= f := rfl

@[simp] theorem ask_bind (c : Call) (f : Answer c → Program Call Answer β) :
    (ask c >>= f) = call c f := rfl

/-- Execution in one piece. A call the environment refuses stops the whole program. -/
def exec (perform : (c : Call) → σ → Option (Answer c × σ)) :
    Program Call Answer α → σ → Option (α × σ)
  | done a, s => some (a,s)
  | call c next, s => (perform c s).bind fun r => (next r.1).exec perform r.2

@[simp] theorem exec_done (perform : (c : Call) → σ → Option (Answer c × σ)) (a : α) (s : σ) :
    (done a : Program Call Answer α).exec perform s = some (a,s) := rfl

theorem exec_call (perform : (c : Call) → σ → Option (Answer c × σ)) (c : Call)
    (next : Answer c → Program Call Answer α) (s : σ) :
    (call c next).exec perform s = (perform c s).bind fun r => (next r.1).exec perform r.2 := rfl

theorem exec_bind (perform : (c : Call) → σ → Option (Answer c × σ))
    (p : Program Call Answer α) (f : α → Program Call Answer β) (s : σ) :
    (p >>= f).exec perform s = (p.exec perform s).bind fun r => (f r.1).exec perform r.2 := by
  induction p generalizing s with
  | done a => rfl
  | call c next ih =>
    change (perform c s).bind (fun r => (next r.1 >>= f).exec perform r.2) = _
    simp [exec_call,ih,Option.bind_assoc]

/-- The result of a program that is done. -/
def result? : Program Call Answer α → Option α
  | done a => some a
  | call _ _ => none

theorem result?_eq_some {p : Program Call Answer α} {a : α} :
    p.result? = some a ↔ p = done a := by
  cases p <;> simp [result?]

/-- The same program, whose calls are calls of another kind. -/
def mapCalls {Call' : Type} {Answer' : Call' → Type} (f : Call → Call')
    (g : (c : Call) → Answer' (f c) → Answer c) :
    Program Call Answer α → Program Call' Answer' α
  | done a => done a
  | call c next => call (f c) fun r => (next (g c r)).mapCalls f g

/-- The program makes at most `n` calls, whatever the answers. -/
def AtMost : ℕ → Program Call Answer α → Prop
  | _, done _ => True
  | 0, call _ _ => False
  | n + 1, call _ next => ∀ r, AtMost n (next r)

/-- Every call the program can make satisfies the predicate. -/
def All (φ : Call → Prop) : Program Call Answer α → Prop
  | done _ => True
  | call c next => φ c ∧ ∀ r, All φ (next r)

theorem All.bind {φ : Call → Prop} {p : Program Call Answer α} {f : α → Program Call Answer β}
    (hp : p.All φ) (hf : ∀ a, (f a).All φ) : (p >>= f).All φ := by
  induction p with
  | done a => exact hf a
  | call c next ih => exact ⟨hp.1,fun r => ih r (hp.2 r)⟩

/-- The program makes calls of one kind until it makes one of another kind, and what is left
of it then satisfies the predicate. -/
def Until (φ ψ : Call → Prop) (R : Program Call Answer α → Prop) : Program Call Answer α → Prop
  | done _ => False
  | call c next => (ψ c ∧ ∀ r, R (next r)) ∨ φ c ∧ ∀ r, Until φ ψ R (next r)

theorem Until.bind {φ ψ : Call → Prop} {R : Program Call Answer α → Prop}
    {R' : Program Call Answer β → Prop} {p : Program Call Answer α}
    {f : α → Program Call Answer β} (h : p.Until φ ψ R) (hR : ∀ q, R q → R' (q >>= f)) :
    (p >>= f).Until φ ψ R' := by
  induction p with
  | done a => exact h.elim
  | call c next ih =>
    obtain ⟨hc,hnext⟩ | ⟨hc,hnext⟩ := h
    · exact Or.inl ⟨hc,fun r => hR _ (hnext r)⟩
    · exact Or.inr ⟨hc,fun r => ih r (hnext r)⟩

/-- Every call the program can make is allowed by what it knows, to which each answer adds,
and its result is right for what it knows in the end. -/
def Within {κ : Type} (allowed : κ → Call → Prop) (learn : κ → (c : Call) → Answer c → κ)
    (Q : κ → α → Prop) : κ → Program Call Answer α → Prop
  | k, done a => Q k a
  | k, call c next => allowed k c ∧ ∀ r, Within allowed learn Q (learn k c r) (next r)

theorem Within.bind {κ : Type} {allowed : κ → Call → Prop}
    {learn : κ → (c : Call) → Answer c → κ} {Q : κ → β → Prop} {k : κ}
    {p : Program Call Answer α} {f : α → Program Call Answer β}
    (h : p.Within allowed learn (fun k a => (f a).Within allowed learn Q k) k) :
    (p >>= f).Within allowed learn Q k := by
  induction p generalizing k with
  | done a => exact h
  | call c next ih => exact ⟨h.1,fun r => ih r (h.2 r)⟩

theorem Within.mono {κ : Type} {allowed : κ → Call → Prop}
    {learn : κ → (c : Call) → Answer c → κ} {Q R : κ → α → Prop} {k : κ}
    {p : Program Call Answer α} (hQR : ∀ k a, Q k a → R k a) (h : p.Within allowed learn Q k) :
    p.Within allowed learn R k := by
  induction p generalizing k with
  | done a => exact hQR k a h
  | call c next ih => exact ⟨h.1,fun r => ih r (h.2 r)⟩

/-- Repeat the body on what it hands on, until it leaves with a result, at most `n` times. -/
def loop {ρ : Type} (body : ρ → Program Call Answer (ρ ⊕ α)) :
    ℕ → ρ → Program Call Answer (Option α)
  | 0, _ => done none
  | n + 1, x => body x >>= fun
    | .inl y => loop body n y
    | .inr a => done (some a)

section Loop
variable {ρ : Type} {body : ρ → Program Call Answer (ρ ⊕ α)}
variable {perform : (c : Call) → σ → Option (Answer c × σ)} {x y : ρ} {s t u : σ}

theorem exec_loop_again (h : (body x).exec perform s = some (.inl y,t)) (n : ℕ) :
    (loop body (n + 1) x).exec perform s = (loop body n y).exec perform t := by
  rw [loop,exec_bind,h]
  rfl

theorem exec_loop_leave {a : α} (h : (body x).exec perform s = some (.inr a,t)) (n : ℕ) :
    (loop body (n + 1) x).exec perform s = some (some a,t) := by
  rw [loop,exec_bind,h]
  rfl

/-- This many rounds of the body, all of which go on, lead from one value and state to
the other. -/
inductive Rounds (body : ρ → Program Call Answer (ρ ⊕ α))
    (perform : (c : Call) → σ → Option (Answer c × σ)) : ℕ → ρ → σ → ρ → σ → Prop
  | none (x : ρ) (s : σ) : Rounds body perform 0 x s x s
  | again {n : ℕ} {x y z : ρ} {s t u : σ} (h : (body x).exec perform s = some (.inl y,t))
    (hrest : Rounds body perform n y t z u) : Rounds body perform (n + 1) x s z u

/-- Rounds that go on use up as much of the bound, and do nothing else. -/
theorem exec_loop_rounds {k : ℕ} (h : Rounds body perform k x s y t) (n : ℕ) :
    (loop body (k + n) x).exec perform s = (loop body n y).exec perform t := by
  induction h with
  | none x s => rw [Nat.zero_add]
  | again hbody hrest ih => rw [Nat.add_right_comm,exec_loop_again hbody,ih]

theorem Rounds.snoc {k : ℕ} {z : ρ} (h : Rounds body perform k x s y t)
    (hbody : (body y).exec perform t = some (.inl z,u)) :
    Rounds body perform (k + 1) x s z u := by
  induction h with
  | none x s => exact .again hbody (.none _ _)
  | again hfirst hrest ih => exact .again hfirst (ih hbody)

end Loop

end Program

/-- An environment answers the calls of a program and takes steps of its own. -/
structure Environment (Call : Type) (Answer : Call → Type) (σ ℓ : Type) where
  perform : (c : Call) → σ → Option (Answer c × σ)
  interfere : σ → ℓ → Option σ

namespace Environment
variable {Call : Type} {Answer : Call → Type} {α σ ℓ : Type}
variable (E : Environment Call Answer σ ℓ)

def alone : Machine σ ℓ := ⟨E.interfere⟩

/-- The program beside its environment: label `none` is the program's next call, label
`some l` is a step of the environment. -/
def beside (α : Type) : Machine (Program Call Answer α × σ) (Option ℓ) where
  step
    | (.done _,_), none => none
    | (.call c next,s), none => (E.perform c s).map fun r => (next r.1,r.2)
    | (p,s), some l => (E.interfere s l).map fun t => (p,t)

/-- Whatever the environment does before each call and after the last one, the program
can only return in a state that satisfies the postcondition. -/
def Guaranteed (Q : α → σ → Prop) : Program Call Answer α → σ → Prop
  | .done a, s => ∀ ls t, E.alone.run s ls = some t → Q a t
  | .call c next, s => ∀ ls t, E.alone.run s ls = some t →
      ∀ r, E.perform c t = some r → Guaranteed Q (next r.1) r.2

variable {E}

theorem Guaranteed.interfere {Q : α → σ → Prop} {p : Program Call Answer α} {s t : σ} {l : ℓ}
    (h : E.Guaranteed Q p s) (ht : E.interfere s l = some t) : E.Guaranteed Q p t := by
  have hs : E.alone.run s [l] = some t := by simp [Machine.run,alone,ht]
  cases p with
  | done a => exact fun ls u hu => h _ u (E.alone.run_append hs hu)
  | call c next => exact fun ls u hu => h _ u (E.alone.run_append hs hu)

theorem Guaranteed.step {Q : α → σ → Prop} :
    (E.beside α).Preserves fun cfg => E.Guaranteed Q cfg.1 cfg.2 := by
  rintro ⟨p,s⟩ l ⟨q,t⟩ h hstep
  cases l with
  | some l =>
    simp only [beside,Option.map_eq_some_iff,Prod.mk.injEq] at hstep
    obtain ⟨u,hu,rfl,rfl⟩ := hstep
    exact h.interfere hu
  | none =>
    cases p with
    | done a => simp [beside] at hstep
    | call c next =>
      simp only [beside,Option.map_eq_some_iff,Prod.mk.injEq] at hstep
      obtain ⟨r,hr,rfl,rfl⟩ := hstep
      exact h [] s rfl r hr

/-- Every interleaved run that returns satisfies the guaranteed postcondition. -/
theorem Guaranteed.sound {Q : α → σ → Prop} {p : Program Call Answer α} {s t : σ} {a : α}
    {ls : List (Option ℓ)} (h : E.Guaranteed Q p s)
    (hrun : (E.beside α).run (p,s) ls = some (.done a,t)) : Q a t :=
  Guaranteed.step.run hrun h [] t rfl

/-- To guarantee a call, find an assertion that holds now, that the environment keeps,
and from which every answer leads to a guaranteed rest. -/
theorem Guaranteed.ofCall {Q : α → σ → Prop} {c : Call} {next : Answer c → Program Call Answer α}
    {s : σ} (P : σ → Prop) (hstable : E.alone.Preserves P) (hs : P s)
    (hnext : ∀ t a u, P t → E.perform c t = some (a,u) → E.Guaranteed Q (next a) u) :
    E.Guaranteed Q (.call c next) s :=
  fun _ t ht r hr => hnext t r.1 r.2 (hstable.run ht hs) hr

theorem Guaranteed.mono {Q R : α → σ → Prop} {p : Program Call Answer α} {s : σ}
    (hQR : ∀ a t, Q a t → R a t) (h : E.Guaranteed Q p s) : E.Guaranteed R p s := by
  induction p generalizing s with
  | done a => exact fun ls t ht => hQR a t (h ls t ht)
  | call c next ih => exact fun ls t ht r hr => ih r.1 (h ls t ht r hr)

/-- A sequence is guaranteed through what its first part guarantees to the rest. -/
theorem Guaranteed.bind {β : Type} {Q : β → σ → Prop} {p : Program Call Answer α}
    {f : α → Program Call Answer β} {s : σ}
    (h : E.Guaranteed (fun a t => E.Guaranteed Q (f a) t) p s) : E.Guaranteed Q (p >>= f) s := by
  induction p generalizing s with
  | done a => exact h [] s rfl
  | call c next ih => exact fun ls t ht r hr => ih r.1 (h ls t ht r hr)

theorem Guaranteed.ofDone {Q : α → σ → Prop} {a : α} {s : σ} (P : σ → Prop)
    (hstable : E.alone.Preserves P) (hs : P s) (hQ : ∀ t, P t → Q a t) :
    E.Guaranteed Q (.done a) s :=
  fun _ t ht => hQ t (hstable.run ht hs)

theorem Guaranteed.and {Q R : α → σ → Prop} {p : Program Call Answer α} {s : σ}
    (hQ : E.Guaranteed Q p s) (hR : E.Guaranteed R p s) :
    E.Guaranteed (fun a t => Q a t ∧ R a t) p s := by
  induction p generalizing s with
  | done a => exact fun ls t ht => ⟨hQ ls t ht,hR ls t ht⟩
  | call c next ih => exact fun ls t ht r hr => ih r.1 (hQ ls t ht r hr) (hR ls t ht r hr)

/-- An assertion that every call of the program keeps holds when it returns. -/
theorem Guaranteed.ofAll {φ : Call → Prop} {I : σ → Prop} (hstable : E.alone.Preserves I)
    (hcall : ∀ c s r, φ c → I s → E.perform c s = some r → I r.2) {p : Program Call Answer α}
    (hp : p.All φ) {s : σ} (hs : I s) : E.Guaranteed (fun _ => I) p s := by
  induction p generalizing s with
  | done a => exact ofDone I hstable hs fun _ => id
  | call c next ih =>
    refine ofCall I hstable hs fun t a u ht hr => ?_
    exact ih a (hp.2 a) (hcall c t (a,u) hp.1 ht hr)

/-- Steps of the environment alone are steps beside any program. -/
theorem run_beside {s t : σ} {ls : List ℓ} (p : Program Call Answer α)
    (h : E.alone.run s ls = some t) : (E.beside α).run (p,s) (ls.map some) = some (p,t) := by
  induction ls generalizing s with
  | nil =>
    cases h
    rfl
  | cons l ls ih =>
    obtain ⟨u,hu,hrest⟩ := E.alone.run_cons_iff.mp h
    have hstep : (E.beside α).step (p,s) (some l) = some (p,u) := by
      have hu : E.interfere s l = some u := hu
      cases p <;> simp [beside,hu]
    exact (E.beside α).run_cons_iff.mpr ⟨_,hstep,ih hrest⟩

/-- As `Guaranteed`, with an assertion that holds whenever a call is about to be made. -/
def Outlined (E : Environment Call Answer σ ℓ) (A : Call → σ → Prop) (Q : α → σ → Prop) :
    Program Call Answer α → σ → Prop
  | .done a, s => ∀ ls t, E.alone.run s ls = some t → Q a t
  | .call c next, s => ∀ ls t, E.alone.run s ls = some t →
      A c t ∧ ∀ r, E.perform c t = some r → Outlined E A Q (next r.1) r.2

section Outlined
variable {A : Call → σ → Prop} {Q : α → σ → Prop} {p : Program Call Answer α} {s t : σ}

theorem Outlined.guaranteed (h : E.Outlined A Q p s) : E.Guaranteed Q p s := by
  induction p generalizing s with
  | done a => exact h
  | call c next ih => exact fun ls t ht r hr => ih r.1 ((h ls t ht).2 r hr)

theorem Outlined.asserted {c : Call} {next : Answer c → Program Call Answer α}
    (h : E.Outlined A Q (.call c next) s) : A c s := (h [] s rfl).1

theorem Outlined.next {c : Call} {next : Answer c → Program Call Answer α}
    (h : E.Outlined A Q (.call c next) s) {r : Answer c × σ} (hr : E.perform c s = some r) :
    E.Outlined A Q (next r.1) r.2 := (h [] s rfl).2 r hr

theorem Outlined.run {ls : List ℓ} (h : E.Outlined A Q p s) (ht : E.alone.run s ls = some t) :
    E.Outlined A Q p t := by
  cases p with
  | done a => exact fun ms u hu => h _ u (E.alone.run_append ht hu)
  | call c next => exact fun ms u hu => h _ u (E.alone.run_append ht hu)

/-- The outline goes with the program through every interleaving. -/
theorem Outlined.step :
    (E.beside α).Preserves fun cfg => E.Outlined A Q cfg.1 cfg.2 := by
  rintro ⟨p,s⟩ l ⟨q,t⟩ h hstep
  cases l with
  | some l =>
    simp only [beside,Option.map_eq_some_iff,Prod.mk.injEq] at hstep
    obtain ⟨u,hu,rfl,rfl⟩ := hstep
    have hs : E.alone.run s [l] = some u := by simp [Machine.run,alone,hu]
    exact Outlined.run h hs
  | none =>
    cases p with
    | done a => simp [beside] at hstep
    | call c next =>
      simp only [beside,Option.map_eq_some_iff,Prod.mk.injEq] at hstep
      obtain ⟨r,hr,rfl,rfl⟩ := hstep
      exact Outlined.next h hr

theorem Outlined.ofDone {a : α} (P : σ → Prop) (hstable : E.alone.Preserves P) (hs : P s)
    (hQ : ∀ t, P t → Q a t) : E.Outlined A Q (.done a) s :=
  fun _ t ht => hQ t (hstable.run ht hs)

theorem Outlined.ofCall {c : Call} {next : Answer c → Program Call Answer α} (P : σ → Prop)
    (hstable : E.alone.Preserves P) (hs : P s) (hA : ∀ t, P t → A c t)
    (hnext : ∀ t a u, P t → E.perform c t = some (a,u) → E.Outlined A Q (next a) u) :
    E.Outlined A Q (.call c next) s :=
  fun _ t ht =>
    have hP := hstable.run ht hs
    ⟨hA t hP,fun r hr => hnext t r.1 r.2 hP hr⟩

theorem Outlined.mono {R : α → σ → Prop} (hQR : ∀ a t, Q a t → R a t)
    (h : E.Outlined A Q p s) : E.Outlined A R p s := by
  induction p generalizing s with
  | done a => exact fun ls t ht => hQR a t (h ls t ht)
  | call c next ih =>
    exact fun ls t ht => ⟨(h ls t ht).1,fun r hr => ih r.1 ((h ls t ht).2 r hr)⟩

theorem Outlined.bind {β : Type} {R : β → σ → Prop} {f : α → Program Call Answer β}
    (h : E.Outlined A (fun a t => E.Outlined A R (f a) t) p s) : E.Outlined A R (p >>= f) s := by
  induction p generalizing s with
  | done a => exact h [] s rfl
  | call c next ih =>
    exact fun ls t ht => ⟨(h ls t ht).1,fun r hr => ih r.1 ((h ls t ht).2 r hr)⟩

/-- A loop is outlined by an invariant, which may speak of the turns that are left: each turn
hands it on, or leaves. -/
theorem Outlined.loop {ρ : Type} {R : Option α → σ → Prop}
    {body : ρ → Program Call Answer (ρ ⊕ α)} (I : ℕ → ρ → σ → Prop)
    (hcut : ∀ x s, I 0 x s → E.Outlined A R (.done none) s)
    (hbody : ∀ n x s, I (n + 1) x s → E.Outlined A (fun r t => match r with
      | .inl y => I n y t
      | .inr a => E.Outlined A R (.done (some a)) t) (body x) s)
    (n : ℕ) {x : ρ} (hs : I n x s) : E.Outlined A R (Program.loop body n x) s := by
  induction n generalizing x s with
  | zero => exact hcut x s hs
  | succ n ih =>
    refine Outlined.bind ((hbody n x s hs).mono fun r t h => ?_)
    cases r with
    | inl y => exact ih h
    | inr a => exact h

/-- A program whose calls are answered in the same way by another environment. -/
theorem Outlined.mapCalls {Call' : Type} {Answer' : Call' → Type}
    {E' : Environment Call' Answer' σ ℓ} {A' : Call' → σ → Prop} {f : Call → Call'}
    {g : (c : Call) → Answer' (f c) → Answer c} (hown : E'.interfere = E.interfere)
    (hcalls : ∀ c s r, E'.perform (f c) s = some r → E.perform c s = some (g c r.1,r.2))
    (hA : ∀ c s, A c s → A' (f c) s) (h : E.Outlined A Q p s) :
    E'.Outlined A' Q (p.mapCalls f g) s := by
  have halone : E'.alone = E.alone := congrArg Machine.mk hown
  induction p generalizing s with
  | done a =>
    intro ls t ht
    rw [halone] at ht
    exact h ls t ht
  | call c next ih =>
    intro ls t ht
    rw [halone] at ht
    obtain ⟨hc,hnext⟩ := h ls t ht
    exact ⟨hA c t hc,fun r hr => ih (g c r.1) (hnext _ (hcalls c t r hr))⟩

/-- Where every call comes to be answered after steps of the environment that keep an
invariant, and the answer keeps it, the program can still return. -/
theorem Outlined.returns {I : σ → Prop}
    (hcall : ∀ c s, A c s → I s → ∃ ls t r, E.alone.run s ls = some t ∧
      E.perform c t = some r ∧ I r.2) (h : E.Outlined A Q p s) (hs : I s) :
    ∃ ls a t, (E.beside α).run (p,s) ls = some (.done a,t) ∧ I t ∧ Q a t := by
  induction p generalizing s with
  | done a => exact ⟨[],a,s,rfl,hs,h [] s rfl⟩
  | call c next ih =>
    obtain ⟨ls,t,r,ht,hr,hI⟩ := hcall c s h.asserted hs
    obtain ⟨ms,a,u,hu,hIu,hQ⟩ := ih r.1 (Outlined.next (h.run ht) hr) hI
    refine ⟨ls.map some ++ none::ms,a,u,(E.beside α).run_append (run_beside _ ht) ?_,hIu,hQ⟩
    exact (E.beside α).run_cons_iff.mpr ⟨(next r.1,r.2),by simp [beside,hr],hu⟩

end Outlined

/-- Where every call is answered, the program can return from any state, and what it
was guaranteed to reach is related to that state by whatever the calls keep. -/
theorem Guaranteed.returns {Q : α → σ → Prop} {R : σ → σ → Prop} (hrefl : ∀ s, R s s)
    (htrans : ∀ s t u, R s t → R t u → R s u)
    (hcall : ∀ c s, ∃ r, E.perform c s = some r ∧ R s r.2)
    {p : Program Call Answer α} {s : σ} (h : E.Guaranteed Q p s) : ∃ a t, R s t ∧ Q a t := by
  induction p generalizing s with
  | done a => exact ⟨a,s,hrefl s,h [] s rfl⟩
  | call c next ih =>
    obtain ⟨r,hr,hsr⟩ := hcall c s
    obtain ⟨a,t,hrt,hQ⟩ := ih r.1 (h [] s rfl r hr)
    exact ⟨a,t,htrans s r.2 t hsr hrt,hQ⟩

/-- Where every call is answered, only a program that has returned is stuck. -/
theorem stuck_done (hcall : ∀ c s, ∃ r, E.perform c s = some r) {p : Program Call Answer α}
    {s : σ} (h : (E.beside α).Stuck (p,s)) : (∃ a, p = .done a) ∧ E.alone.Stuck s := by
  refine ⟨?_,fun l => ?_⟩
  · cases p with
    | done a => exact ⟨a,rfl⟩
    | call c next =>
      obtain ⟨r,hr⟩ := hcall c s
      have hstep := h none
      simp [beside,hr] at hstep
  · have hstep := h (some l)
    simpa [beside,alone] using hstep

/-- A program that makes at most `n` calls, beside an environment whose steps use up a
potential that each call raises by at most `k`, has no run longer than this. -/
theorem length_run_le (φ : σ → ℕ) (k : ℕ)
    (hcall : ∀ c s r, E.perform c s = some r → φ r.2 ≤ φ s + k)
    (hown : ∀ s l t, E.interfere s l = some t → φ t < φ s) {n : ℕ}
    {p : Program Call Answer α} {s : σ} {ls : List (Option ℓ)} {cfg : Program Call Answer α × σ}
    (hp : p.AtMost n) (hrun : (E.beside α).run (p,s) ls = some cfg) :
    ls.length ≤ φ s + (k + 1) * n := by
  induction ls generalizing n p s with
  | nil => exact Nat.zero_le _
  | cons l ls ih =>
    obtain ⟨⟨q,t⟩,hstep,hrest⟩ := (E.beside α).run_cons_iff.mp hrun
    cases l with
    | some l =>
      simp only [beside,Option.map_eq_some_iff,Prod.mk.injEq] at hstep
      obtain ⟨u,hu,rfl,rfl⟩ := hstep
      have hle := ih hp hrest
      have hlt := hown s l u hu
      rw [List.length_cons]
      omega
    | none =>
      cases p with
      | done a => simp [beside] at hstep
      | call c next =>
        cases n with
        | zero => exact hp.elim
        | succ n =>
          simp only [beside,Option.map_eq_some_iff,Prod.mk.injEq] at hstep
          obtain ⟨r,hr,rfl,rfl⟩ := hstep
          have hle := ih (hp r.1) hrest
          have hraise := hcall c s r hr
          rw [List.length_cons,Nat.mul_succ]
          omega

end Environment
end Winext.Lib
