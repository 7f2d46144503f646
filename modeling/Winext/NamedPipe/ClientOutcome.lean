import Winext.NamedPipe.ClientWorld

/-! What a `connect` reports: whether it ends, whether its report is what happened, and
whether it depends on the error code passed in. -/
namespace Winext
open Lib Details

namespace ClientAnswers
variable {a : ClientAnswers}

theorem endsAt_or_busy (a : ClientAnswers) (turns : ℕ) :
    (∀ i < turns, (a.attempts i).Busy) ∨ ∃ k < turns, a.EndsAt k := by
  induction turns with
  | zero => exact Or.inl fun i hi => absurd hi (Nat.not_lt_zero i)
  | succ n ih =>
    obtain hbusy | ⟨k,hk,hend⟩ := ih
    · by_cases hn : (a.attempts n).Busy
      · refine Or.inl fun i hi => ?_
        obtain hi | rfl := Nat.lt_succ_iff_lt_or_eq.mp hi
        · exact hbusy i hi
        · exact hn
      · exact Or.inr ⟨n,Nat.lt_succ_self n,hbusy,hn⟩
    · exact Or.inr ⟨k,Nat.lt_succ_of_lt hk,hend⟩

theorem EndsAt.unique {j k : ℕ} (hj : a.EndsAt j) (hk : a.EndsAt k) : j = k := by
  obtain h | h | h := Nat.lt_trichotomy j k
  · exact absurd (hk.1 j h) hj.2
  · exact h
  · exact absurd (hj.1 k h) hk.2

end ClientAnswers

namespace ClientEvent

def created : ClientEvent → Option (Except Dword Handle)
  | createFile result => some result
  | waitNamedPipe _ | setNamedPipeHandleState _ _ => none

end ClientEvent

namespace ClientWorld
open Connecting

/-- The loop is left after some number of turns if and only if some answer does not send
it round again. The timeout has no part in this. -/
theorem connect_returns_iff (w : ClientWorld) (a : ClientAnswers) (lastError : Dword)
    (endpoint : String) (ec : ErrorCode) (timeoutMs : Int32) :
    (∃ turns out t, w.connect a turns lastError endpoint ec timeoutMs = some (some out,t)) ↔
      ∃ i, ¬(a.attempts i).Busy := by
  constructor
  · rintro ⟨turns,out,t,h⟩
    by_contra hall
    have hbusy : ∀ i < turns, (a.attempts i).Busy := fun i _ => not_not.mp fun hi => hall ⟨i,hi⟩
    rw [connect_cut hbusy] at h
    cases h
  · rintro ⟨i,hi⟩
    obtain hbusy | ⟨k,hk,hend⟩ := a.endsAt_or_busy (i + 1)
    · exact absurd (hbusy i (Nat.lt_succ_self i)) hi
    · obtain ⟨out,t,-,hexec⟩ := connect_returns hend hk w lastError endpoint ec timeoutMs
      exact ⟨i + 1,_,_,hexec⟩

/-- As long as the pipe is busy and waits succeed, time passes and the loop goes on. -/
theorem connect_goes_on {a : ClientAnswers} (hbusy : ∀ i, (a.attempts i).Busy)
    (hspent : ∀ i, 1 ≤ (a.attempts i).spent) (w : ClientWorld) (lastError : Dword)
    (endpoint : String) (ec : ErrorCode) (timeoutMs : Int32) (turns : ℕ) :
    ∃ t, w.connect a turns lastError endpoint ec timeoutMs = some (none,t) ∧
      w.clock + turns ≤ t.world.clock := by
  refine ⟨_,connect_cut (fun i _ => hbusy i) w lastError endpoint ec timeoutMs,?_⟩
  induction turns with
  | zero => exact Nat.le_refl w.clock
  | succ n ih =>
    have hn := hspent n
    simp only [rounds,waiting,failing,rounds_answers,rounds_turn,Nat.zero_add] at ih ⊢
    omega

/-- A pipe that stays busy: each wait takes a millisecond, another client is faster, and
the loop goes on for longer than any timeout. -/
theorem connect_outlasts_timeout : ¬∀ (w : ClientWorld) (a : ClientAnswers) (lastError : Dword)
    (endpoint : String) (ec : ErrorCode) (timeoutMs : Int32), 0 < timeoutMs →
    (∀ i, (a.attempts i).wait = none → 1 ≤ (a.attempts i).spent) →
    ∃ turns out t, w.connect a turns lastError endpoint ec timeoutMs = some (some out,t) := by
  intro h
  obtain ⟨turns,out,t,hexec⟩ := h {} { attempts := fun _ => { create := some errorPipeBusy } } 0
    "" {} 2000 (by decide) fun _ _ => Nat.le_refl 1
  obtain ⟨u,hu,-⟩ := connect_goes_on (a := { attempts := fun _ => { create := some errorPipeBusy } })
    (fun _ => ⟨rfl,rfl⟩) (fun _ => Nat.le_refl 1) {} 0 "" {} 2000 turns
  rw [hu] at hexec
  cases hexec

end ClientWorld

namespace Connecting

/-- The object owns the handle that the last CreateFile has returned, in message-read mode. -/
def Opened (t : Connecting) : Prop :=
  ∃ h, t.world.owner = some h ∧ (t.events.filterMap ClientEvent.created).getLast? = some (.ok h) ∧
    .setNamedPipeHandleState h none ∈ t.events

/-- The report is what happened: a success if the object is open, and otherwise the last
error of the call that ended the attempt. -/
structure Told (ec : ErrorCode) (t : Connecting) : Prop where
  success : ec.failed = false ↔ t.Opened
  failure : ¬t.Opened → t.world.owner = none ∧
    t.events.getLast?.bind ClientEvent.error = some ec.value

section Null
variable {ec : ErrorCode} {t : Connecting}

lemma not_opened (h : t.world.owner = none) : ¬t.Opened := by
  rintro ⟨_,hsome,-⟩
  rw [h] at hsome
  cases hsome

/-- An exit that leaves the handle null reports the last error, unless that is no error. -/
lemma told_null_iff (h : t.world.owner = none) :
    ((adopt (ec,.null) t).1.2 = .ok () ∧
      Told (adopt (ec,.null) t).1.1 (adopt (ec,.null) t).2) ↔
    ec.value ≠ noError ∧ t.events.getLast?.bind ClientEvent.error = some ec.value := by
  have hclosed := not_opened h
  cases hf : ec.failed with
  | true =>
    have h0 : ec.value ≠ noError := by simpa [ErrorCode.failed,noError] using hf
    simp only [adopt,hf,if_true,true_and]
    constructor
    · intro htold
      exact ⟨h0,(htold.failure hclosed).2⟩
    · rintro ⟨-,hlast⟩
      exact ⟨by simp [hf,hclosed],fun _ => ⟨h,hlast⟩⟩
  | false =>
    have h0 : ec.value = noError := by simpa [ErrorCode.failed,noError] using hf
    simp [adopt,hf,h0]

end Null

/-- What was reported, exit by exit. -/
lemma Left.told_iff {a : ClientAnswers} {k : ℕ} {lastError : Dword} {s t : Connecting}
    {out : ErrorCode × Handle} (h : Left a k lastError {} s out t) (hs : s.world.owner = none) :
    ((adopt out t).1.2 = .ok () ∧ Told (adopt out t).1.1 (adopt out t).2) ↔
      (∀ e, (a.attempts k).create = some e → e ≠ errorPipeBusy → e ≠ noError) ∧
      ((a.attempts k).create = some errorPipeBusy → ∀ e, (a.attempts k).wait = some e →
        e ≠ noError ∧ a.output e = e) ∧
      ((a.attempts k).create = none → ∀ e, a.setState = some e →
        e ≠ noError ∧ e = leftOver lastError k) := by
  have ht := h.owner_eq.trans hs
  cases h with
  | refused hc he =>
    rw [told_null_iff ht]
    simp [hc,he,failing,ClientEvent.error]
  | timedOut hc hw _ _ _ hevents =>
    rw [told_null_iff ht]
    simp [hc,hw,hevents,ClientEvent.error]
    grind
  | unset hc hset =>
    rw [told_null_iff ht]
    simp [hc,hset,failing,ClientEvent.error]
    grind
  | connected hc hset =>
    refine iff_of_true ⟨rfl,?_⟩ (by simp [hc,hset])
    have hopened : Opened (adopt ({},.pipe s.world.created) { s.opening with
        events := s.opening.events ++
          [.setNamedPipeHandleState (.pipe s.world.created) none] }).2 :=
      ⟨_,rfl,by simp [adopt,ErrorCode.failed,opening,List.filterMap_cons,ClientEvent.created],
        by simp [adopt,ErrorCode.failed]⟩
    exact ⟨iff_of_true rfl hopened,fun hne => absurd hopened hne⟩

end Connecting

/-- The condition on the turn that ends the attempt. -/
structure ClientAnswers.Telling (a : ClientAnswers) (k : ℕ) : Prop where
  refused : ∀ e, (a.attempts k).create = some e → e ≠ errorPipeBusy → e ≠ noError
  timedOut : (a.attempts k).create = some errorPipeBusy → ∀ e, (a.attempts k).wait = some e →
    e ≠ noError ∧ a.output e = e
  unset : (a.attempts k).create = none → ∀ e, a.setState = some e → 0 < k ∧ e = errorPipeBusy

namespace ClientWorld
open Connecting

/-- A `connect` that starts from a clear error code tells what happened, whatever its
variable `last_error` holds at first, if and only if the turn that ends it meets the
condition: a call that fails sets an error, the output after a wait that fails leaves this
error alone, and SetNamedPipeHandleState does not fail, or fails with ERROR_PIPE_BUSY after
a busy turn. -/
theorem connect_tells_iff {a : ClientAnswers} {k turns : ℕ} (h : a.EndsAt k) (hk : k < turns)
    (w : ClientWorld) (endpoint : String) (timeoutMs : Int32) :
    (∀ lastError, ∃ ec t, w.connect a turns lastError endpoint {} timeoutMs =
      some (some (ec,.ok ()),t) ∧ Told ec t) ↔ a.Telling k := by
  have htold : ∀ lastError, ((∃ ec t, w.connect a turns lastError endpoint {} timeoutMs =
      some (some (ec,.ok ()),t) ∧ Told ec t) ↔
      (∀ e, (a.attempts k).create = some e → e ≠ errorPipeBusy → e ≠ noError) ∧
      ((a.attempts k).create = some errorPipeBusy → ∀ e, (a.attempts k).wait = some e →
        e ≠ noError ∧ a.output e = e) ∧
      ((a.attempts k).create = none → ∀ e, a.setState = some e →
        e ≠ noError ∧ e = leftOver lastError k)) := by
    intro lastError
    obtain ⟨out,t,hleft,hexec⟩ := connect_returns h hk w lastError endpoint {} timeoutMs
    rw [← hleft.told_iff (by rw [rounds_owner]; rfl),hexec]
    constructor
    · rintro ⟨ec,u,heq,htold⟩
      simp only [Option.some.injEq,Prod.mk.injEq] at heq
      obtain ⟨heq,rfl⟩ := heq
      rw [heq]
      exact ⟨rfl,htold⟩
    · rintro ⟨hok,htold⟩
      refine ⟨_,_,?_,htold⟩
      rw [← hok]
  simp only [htold]
  constructor
  · intro hall
    refine ⟨(hall 0).1,(hall 0).2.1,fun hc e he => ?_⟩
    -- were it the first turn, `last_error` could hold no error
    obtain ⟨h0,hleft⟩ := (hall noError).2.2 hc e he
    cases k with
    | zero => exact absurd hleft h0
    | succ k => exact ⟨Nat.succ_pos k,by simpa [leftOver] using hleft⟩
  · intro hk lastError
    refine ⟨hk.refused,hk.timedOut,fun hc e he => ?_⟩
    obtain ⟨hpos,rfl⟩ := hk.unset hc e he
    exact ⟨by decide,by simp [leftOver,Nat.ne_of_gt hpos]⟩

/-- Two busy turns, and then success. -/
theorem connect_tells_iff_third : ∃ ec t, ({} : ClientWorld).connect
    { attempts := fun i => { create := if i < 2 then some errorPipeBusy else none } } 3
      errorOperationAborted "" {} 2000 = some (some (ec,.ok ()),t) ∧ Told ec t := by
  refine (connect_tells_iff (k := 2) ⟨fun i hi => ?_,fun hbusy => ?_⟩ (Nat.lt_succ_self 2) {} ""
    2000).mpr ⟨by simp,by simp,by simp⟩ errorOperationAborted
  · simp [Attempt.Busy,hi]
  · simp [Attempt.Busy] at hbusy

/-- SetNamedPipeHandleState fails in the first turn, and what is reported is whatever
`last_error` happened to hold. -/
theorem connect_tells_leftover : ¬∀ (w : ClientWorld) (a : ClientAnswers) (k turns : ℕ)
    (lastError : Dword) (endpoint : String) (timeoutMs : Int32), a.EndsAt k → k < turns →
    ∃ ec t, w.connect a turns lastError endpoint {} timeoutMs = some (some (ec,.ok ()),t) ∧
      Told ec t := by
  intro h
  obtain ⟨ec,t,heq,htold⟩ := h {} { setState := some errorNoData } 0 1 errorOperationAborted ""
    2000 ⟨by simp,by simp [Attempt.Busy]⟩ Nat.zero_lt_one
  cases heq
  obtain ⟨-,hlast⟩ := htold.failure (not_opened rfl)
  cases hlast

end ClientWorld

namespace Connecting
variable {a : ClientAnswers} {k : ℕ} {last last₁ last₂ : Dword} {ec ec₁ ec₂ : ErrorCode}
variable {s t t₁ t₂ : Connecting} {out out₁ out₂ : ErrorCode × Handle}

lemma adopt_fst (out : ErrorCode × Handle) (t : Connecting) : (adopt out t).1.1 = out.1 := by
  obtain ⟨ec,hPipe⟩ := out
  unfold adopt
  split_ifs
  · rfl
  · cases hPipe <;> rfl

/-- Only the exit after all calls have succeeded passes on the error code it was given. -/
lemma Left.ec_of_connected (h : Left a k last ec s out t) (hc : (a.attempts k).create = none)
    (hs : a.setState = none) : out.1 = ec := by
  cases h <;> simp_all

/-- SetNamedPipeHandleState that fails in the first turn leaves what `last_error` held. -/
lemma Left.ec_of_unset (h : Left a 0 last ec s out t) (hc : (a.attempts 0).create = none)
    (hs : a.setState ≠ none) : out.1 = ⟨last⟩ := by
  cases h <;> simp_all [leftOver]

/-- On the other exits neither has a part in the result. -/
lemma Left.eq_of_failed (h₁ : Left a k last₁ ec₁ s out₁ t₁) (h₂ : Left a k last₂ ec₂ s out₂ t₂)
    (hfail : (a.attempts k).create = none → a.setState ≠ none ∧ 0 < k) :
    out₁ = out₂ ∧ out₁.2 = .null := by
  cases h₁ with
  | refused hc he => cases h₂ <;> simp_all
  | timedOut hc hw => cases h₂ <;> simp_all
  | unset hc hs =>
    have hpos := Nat.ne_of_gt (hfail hc).2
    cases h₂ <;> simp_all [leftOver]
  | connected hc hs => exact absurd hs (hfail hc).1

end Connecting

namespace ClientWorld
open Connecting

/-- What the caller sees of a call: its error code, what was thrown, and the object. -/
def outcome (r : Option (ErrorCode × Except Thrown Unit) × Connecting) :
    Option (ErrorCode × Except Thrown Unit) × Option Handle := (r.1,r.2.world.owner)

/-- What is asked of the turn that ends two calls: once CreateFile succeeds the two error
codes passed in are reported, or the two values of `last_error`, unless a busy turn has
overwritten these. -/
def SameEnd (a : ClientAnswers) (ec₁ ec₂ : ErrorCode) (k : ℕ) : Prop :=
  (a.attempts k).create = none → a.setState = none ∧ ec₁ = ec₂ ∨ a.setState ≠ none ∧ 0 < k

section Same
variable {w : ClientWorld} {a : ClientAnswers} {endpoint : String} {ec₁ ec₂ : ErrorCode}
variable {timeoutMs : Int32} {k : ℕ}

/-- The loop ends in the same turn on both sides, and two equal outcomes have the same
error code. -/
lemma ec_eq_of_outcome_eq {last₁ last₂ : Dword} (hend : a.EndsAt k)
    (hsame : (w.connect a (k + 1) last₁ endpoint ec₁ timeoutMs).map outcome =
      (w.connect a (k + 1) last₂ endpoint ec₂ timeoutMs).map outcome) :
    ∃ out₁ out₂ t₁ t₂, Left a k last₁ ec₁ (rounds ⟨w.shut,a,0,[]⟩ k) out₁ t₁ ∧
      Left a k last₂ ec₂ (rounds ⟨w.shut,a,0,[]⟩ k) out₂ t₂ ∧ out₁.1 = out₂.1 := by
  obtain ⟨out₁,t₁,h₁,hexec₁⟩ := connect_returns hend (Nat.lt_succ_self k) w last₁ endpoint ec₁
    timeoutMs
  obtain ⟨out₂,t₂,h₂,hexec₂⟩ := connect_returns hend (Nat.lt_succ_self k) w last₂ endpoint ec₂
    timeoutMs
  refine ⟨out₁,out₂,t₁,t₂,h₁,h₂,?_⟩
  rw [hexec₁,hexec₂] at hsame
  simp only [Option.map_some,Option.some.injEq,outcome,Prod.mk.injEq] at hsame
  rw [← adopt_fst out₁ t₁,← adopt_fst out₂ t₂,hsame.1]

lemma sameEnd_of_outcome_eq (hend : a.EndsAt k)
    (hsame : ∀ last₁ last₂ turns, (w.connect a turns last₁ endpoint ec₁ timeoutMs).map outcome =
      (w.connect a turns last₂ endpoint ec₂ timeoutMs).map outcome) : SameEnd a ec₁ ec₂ k := by
  intro hc
  by_cases hs : a.setState = none
  · obtain ⟨out₁,out₂,t₁,t₂,h₁,h₂,heq⟩ := ec_eq_of_outcome_eq hend (hsame 0 0 (k + 1))
    rw [h₁.ec_of_connected hc hs,h₂.ec_of_connected hc hs] at heq
    exact Or.inl ⟨hs,heq⟩
  · refine Or.inr ⟨hs,Nat.pos_of_ne_zero ?_⟩
    rintro rfl
    obtain ⟨out₁,out₂,t₁,t₂,h₁,h₂,heq⟩ := ec_eq_of_outcome_eq hend (hsame 0 1 1)
    rw [h₁.ec_of_unset hc hs,h₂.ec_of_unset hc hs] at heq
    cases heq

lemma outcome_eq_of_sameEnd {turns : ℕ} (hend : a.EndsAt k) (hk : k < turns)
    (hsame : SameEnd a ec₁ ec₂ k) (last₁ last₂ : Dword) :
    (w.connect a turns last₁ endpoint ec₁ timeoutMs).map outcome =
      (w.connect a turns last₂ endpoint ec₂ timeoutMs).map outcome := by
  obtain ⟨out₁,t₁,h₁,hexec₁⟩ := connect_returns hend hk w last₁ endpoint ec₁ timeoutMs
  obtain ⟨out₂,t₂,h₂,hexec₂⟩ := connect_returns hend hk w last₂ endpoint ec₂ timeoutMs
  rw [hexec₁,hexec₂]
  by_cases hall : (a.attempts k).create = none ∧ a.setState = none
  · obtain ⟨hc,hs⟩ := hall
    obtain ⟨-,rfl⟩ | ⟨hne,-⟩ := hsame hc
    · cases h₁ <;> cases h₂ <;> simp_all
    · exact absurd hs hne
  · have hfail : (a.attempts k).create = none → a.setState ≠ none ∧ 0 < k := fun hc =>
      (hsame hc).resolve_left fun h => hall ⟨hc,h.1⟩
    obtain ⟨rfl,hnull⟩ := h₁.eq_of_failed h₂ hfail
    obtain ⟨ec,hPipe⟩ := out₁
    cases hnull
    have howner : t₁.world.owner = t₂.world.owner := h₁.owner_eq.trans h₂.owner_eq.symm
    simp only [Option.map_some,outcome,adopt]
    split_ifs <;> simp [howner]

end Same

/-- Two calls that differ in the error code passed in have the same outcome, whatever the
variable `last_error` of each holds at first, if and only if the turn that ends them, if
there is one, meets the condition. -/
theorem connect_same_iff (w : ClientWorld) (a : ClientAnswers) (endpoint : String)
    (ec₁ ec₂ : ErrorCode) (timeoutMs : Int32) :
    (∀ last₁ last₂ turns, (w.connect a turns last₁ endpoint ec₁ timeoutMs).map outcome =
      (w.connect a turns last₂ endpoint ec₂ timeoutMs).map outcome) ↔
    ∀ k, a.EndsAt k → SameEnd a ec₁ ec₂ k := by
  constructor
  · intro hsame k hend
    exact sameEnd_of_outcome_eq hend hsame
  · intro hsame last₁ last₂ turns
    obtain hbusy | ⟨k,hk,hend⟩ := a.endsAt_or_busy turns
    · rw [connect_cut hbusy,connect_cut hbusy]
    · exact outcome_eq_of_sameEnd hend hk (hsame k hend) last₁ last₂

/-- A retry with the error code of an earlier failure: all calls succeed, and the object
stays closed. -/
theorem connect_differs : ¬∀ (w : ClientWorld) (a : ClientAnswers) (turns : ℕ)
    (lastError : Dword) (endpoint : String) (ec₁ ec₂ : ErrorCode) (timeoutMs : Int32),
    (w.connect a turns lastError endpoint ec₁ timeoutMs).map outcome =
      (w.connect a turns lastError endpoint ec₂ timeoutMs).map outcome := by
  intro h
  have hsame := h {} {} 1 0 "" {} ⟨errorPipeBusy⟩ 2000
  have howner := congrArg (fun r => r.bind fun r => r.2) hsame
  cases howner

end ClientWorld
end Winext
