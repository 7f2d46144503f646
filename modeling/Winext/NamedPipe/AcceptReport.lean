import Winext.NamedPipe.AcceptWorld

/-! What `accept_detail2` reports of the calls it has made, and what the accept operations
do with the OVERLAPPED on the strength of that report. -/
namespace Winext
open Lib Details

/-- The connect was left pending by the system. -/
def Answers.Pending (a : Answers) : Prop := a.connect = false ∧ a.connectError = errorIoPending

/-- The last error of the call that `accept_detail2` stopped at. -/
def Answers.lastError (a : Answers) : Dword := a.create.getD a.connectError

/-- The report says which of three things has happened. -/
structure Accepting.Truthful (t : Accepting) (ret : ErrorCode) : Prop where
  pending : ret.failed = false ↔ t.ov.io = .pending
  connected : ret.value = errorPipeConnected ↔
    t.answers.create = none ∧ t.answers.connectError = errorPipeConnected
  failed : ret.failed = true → ret.value ≠ errorPipeConnected → ret.value = t.answers.lastError

/-- The OVERLAPPED was left to the system, and nothing was posted for it. -/
def Accepting.Released (t : Accepting) : Prop := t.ov.handedOver = true ∧ t.ov.packets = []

/-- Unless the connect is pending, the last error is still there after the diagnostic
output, and is one; and CreateNamedPipe does not fail with ERROR_PIPE_CONNECTED. -/
structure Answers.Reported (a : Answers) : Prop where
  create : ∀ e, a.create = some e → a.output e = e ∧ e ≠ noError ∧ e ≠ errorPipeConnected
  connect : a.create = none → ¬a.Pending →
    a.output a.connectError = a.connectError ∧ a.connectError ≠ noError

namespace Accepting
variable {s t : Accepting} {ret : ErrorCode}

lemma refused_truthful_iff (hov : s.ov = {}) {e : Dword} (hc : s.answers.create = some e)
    (w : World) : Truthful { s with world := w } ⟨s.answers.output e⟩ ↔
      s.answers.output e = e ∧ e ≠ noError ∧ e ≠ errorPipeConnected := by
  have hio : ¬s.ov.io = .pending := by simp [hov]
  constructor
  · intro h
    have hne : s.answers.output e ≠ noError := fun h0 =>
      hio (h.pending.mp (by simp [h0,noError]))
    have hconn : s.answers.output e ≠ errorPipeConnected := by
      intro he
      have hnone := (h.connected.mp he).1
      simp [hc] at hnone
    have heq := h.failed (by simpa [noError] using hne) hconn
    simp only [Answers.lastError,hc,Option.getD_some] at heq
    exact ⟨heq,heq ▸ hne,heq ▸ hconn⟩
  · rintro ⟨heq,hne,hconn⟩
    rw [heq]
    refine ⟨iff_of_false ?_ hio,iff_of_false hconn ?_,fun _ _ => ?_⟩
    · simpa [noError] using hne
    · simp [hc]
    · simp [Answers.lastError,hc]

lemma answered_truthful_iff (hc : s.answers.create = none) :
    Truthful (s.connecting (s.answers.output s.answers.connectError)
      (s.ov.refuse s.answers.connectError)) ⟨s.answers.output s.answers.connectError⟩ ↔
      s.answers.output s.answers.connectError = s.answers.connectError ∧
        s.answers.connectError ≠ noError := by
  have hio : ¬(s.ov.refuse s.answers.connectError).io = .pending := by simp [Overlapped.refuse]
  constructor
  · intro h
    have hne : s.answers.output s.answers.connectError ≠ noError := fun h0 =>
      hio (h.pending.mp (by simp [h0,noError]))
    by_cases hconn : s.answers.output s.answers.connectError = errorPipeConnected
    · have heq : s.answers.connectError = errorPipeConnected := (h.connected.mp hconn).2
      exact ⟨hconn.trans heq.symm,by simp [heq]⟩
    · have heq := h.failed (by simpa [noError] using hne) hconn
      simp only [Answers.lastError,connecting,hc,Option.getD_none] at heq
      exact ⟨heq,heq ▸ hne⟩
  · rintro ⟨heq,hne⟩
    rw [heq]
    refine ⟨iff_of_false ?_ hio,?_,fun _ _ => ?_⟩
    · simpa [noError] using hne
    · simp [connecting,hc]
    · simp [Answers.lastError,connecting,hc]

lemma pending_truthful (hc : s.answers.create = none) (he : s.answers.connectError = errorIoPending) :
    Truthful (s.connecting errorIoPending s.ov.pend) {} := by
  refine ⟨iff_of_true rfl rfl,iff_of_false (by decide) ?_,fun hf => by cases hf⟩
  simp [connecting,hc,he]
  decide

/-- The report is truthful on exactly the answers that are reported. -/
theorem acceptDetail2_truthful_iff (endpoint : String) (s : Accepting) (hov : s.ov = {}) :
    (∃ hPipe ret t, (acceptDetail2 .null endpoint {}).exec perform s = some ((hPipe,ret),t) ∧
      Truthful t ret) ↔ s.answers.Reported := by
  have hexec : ∀ {hPipe ret t}, (acceptDetail2 .null endpoint {}).exec perform s =
      some ((hPipe,ret),t) → ((∃ hPipe ret t, (acceptDetail2 .null endpoint {}).exec perform s =
        some ((hPipe,ret),t) ∧ Truthful t ret) ↔ Truthful t ret) := by
    intro hPipe ret t h
    rw [h]
    constructor
    · rintro ⟨_,_,_,heq,htrue⟩
      cases heq
      exact htrue
    · intro htrue
      exact ⟨_,_,_,rfl,htrue⟩
  cases hc : s.answers.create with
  | some e =>
    rw [hexec (exec_acceptDetail2_refused endpoint s hc),refused_truthful_iff hov hc]
    exact ⟨fun h => ⟨by simpa [hc] using h,by simp [hc]⟩,fun h => h.create e hc⟩
  | none =>
    by_cases hp : s.answers.Pending
    · rw [hexec (exec_acceptDetail2_pending endpoint s hc hp.1 hp.2)]
      exact iff_of_true (pending_truthful hc hp.2) ⟨by simp [hc],fun _ hne => absurd hp hne⟩
    · rw [hexec (exec_acceptDetail2_answered endpoint s hc hp),answered_truthful_iff hc]
      exact ⟨fun h => ⟨by simp [hc],fun _ _ => h⟩,fun h => h.connect hc hp⟩

lemma perform_assign_ov (h : Handle) (s : Accepting) :
    ∃ r u, perform (.assign h) s = some (r,u) ∧ u.ov = s.ov := by
  cases hp : s.world.owner s.pipe with
  | some k => simp [perform,hp]
  | none => cases h <;> simp [perform,hp]

lemma exec_acceptDetail2_handedOver {endpoint : String} {r : Handle × ErrorCode}
    (hov : s.ov.handedOver = false)
    (h : (acceptDetail2 .null endpoint {}).exec perform s = some (r,t)) :
    t.ov.handedOver = false := by
  cases hc : s.answers.create with
  | some e =>
    rw [exec_acceptDetail2_refused endpoint s hc] at h
    cases h
    exact hov
  | none =>
    by_cases hp : s.answers.Pending
    · rw [exec_acceptDetail2_pending endpoint s hc hp.1 hp.2] at h
      cases h
      exact hov
    · rw [exec_acceptDetail2_answered endpoint s hc hp] at h
      cases h
      exact hov

/-- The operations release only when the report is clear. -/
theorem exec_handOver_released {h : Handle} {ec : ErrorCode} {s t : Accepting}
    {out : Except Thrown Unit} (hs : s.ov.handedOver = false)
    (hexec : (handOver h ec).exec perform s = some (out,t)) (hrel : t.Released) :
    ec.failed = false ∧ t.ov.io = s.ov.io := by
  obtain ⟨r,u,hassign,hov⟩ := perform_assign_ov h s
  have hthrown : ¬u.Released := fun hu => by simp [Released,hov,hs] at hu
  cases hf : ec.failed with
  | false =>
    simp only [handOver,Program.ask_bind,hf,Bool.false_eq_true,if_false,Program.exec_call,hassign,
      Option.bind_some] at hexec
    cases r with
    | error thrown =>
      cases hexec
      exact absurd hrel hthrown
    | ok _ =>
      cases hexec
      exact ⟨rfl,by rw [← hov]; rfl⟩
  | true =>
    by_cases hc : ec.value = errorPipeConnected
    · simp only [handOver,Program.ask_bind,hf,hc,if_true,Program.exec_call,hassign,
        Option.bind_some] at hexec
      cases r with
      | error thrown =>
        cases hexec
        exact absurd hrel hthrown
      | ok _ =>
        cases hexec
        simp [Released,Overlapped.complete] at hrel
    · simp only [handOver,Program.ask_bind,hf,hc,if_true,if_false,Program.exec_call] at hexec
      cases hexec
      simp [Released,Overlapped.complete] at hrel

end Accepting

/-- Truthful reports, and what the operations make of them: an OVERLAPPED is released only
with a connect that is pending in the system. -/
theorem accept_reports_iff (a : Answers) (endpoint : String) :
    ((∀ s : Accepting, s.answers = a → s.ov = {} → ∃ hPipe ret t,
        (acceptDetail2 .null endpoint {}).exec Accepting.perform s = some ((hPipe,ret),t) ∧
          t.Truthful ret) ∧
      ∀ (w : World) (o : Overload) (p : ℕ) (out : Except Thrown Unit) (t : Accepting),
        w.asyncAccept endpoint o p a = some (out,t) → t.Released → t.ov.io = .pending) ↔
    a.Reported := by
  constructor
  · rintro ⟨htrue,-⟩
    exact (Accepting.acceptDetail2_truthful_iff endpoint ⟨{},a,0,false,none,[],{}⟩ rfl).mp
      (htrue _ rfl rfl)
  · intro ha
    refine ⟨fun s hs hov => ?_,fun w o p out t hexec hrel => ?_⟩
    · exact (Accepting.acceptDetail2_truthful_iff endpoint s hov).mpr (hs ▸ ha)
    obtain ⟨hPipe,ret,u,hu,htrue⟩ := (Accepting.acceptDetail2_truthful_iff endpoint
      ⟨w,a,p,o = .byMove,none,[],{}⟩ rfl).mpr ha
    rw [World.asyncAccept_eq,hu] at hexec
    have hs : u.ov.handedOver = false := Accepting.exec_acceptDetail2_handedOver (by rfl) hu
    obtain ⟨hclear,hio⟩ := Accepting.exec_handOver_released hs hexec hrel
    rw [hio]
    exact htrue.pending.mp hclear

/-- The client is already connected, and printing this clears the last error: the report is
clear, and the OVERLAPPED is released with no connect pending. -/
theorem accept_reports_nothing : ¬∀ (a : Answers) (endpoint : String),
    (∀ s : Accepting, s.answers = a → s.ov = {} → ∃ hPipe ret t,
      (acceptDetail2 .null endpoint {}).exec Accepting.perform s = some ((hPipe,ret),t) ∧
        t.Truthful ret) ∧
    ∀ (w : World) (o : Overload) (p : ℕ) (out : Except Thrown Unit) (t : Accepting),
      w.asyncAccept endpoint o p a = some (out,t) → t.Released → t.ov.io = .pending := by
  intro h
  have hpending := (h { connectError := errorPipeConnected, output := fun _ => noError } "").2 {}
    .intoPipe 0 _ _ rfl ⟨rfl,rfl⟩
  cases hpending

end Winext
