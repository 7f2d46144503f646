import Winext.Http.BeastServer

/-! What holds of every connection of `beast_server`, in every run: when its pipe is closed, and
what its client is sent. -/
namespace Winext.Beast
open Lib Http

namespace Connection
variable {x y : Connection}

/-- What a connection is like when one of its handlers returns. -/
structure Told (x : Connection) : Prop where
  reading : x.read ≠ .idle
  waiting : x.deadline ≠ .idle
  /-- A response is written once the request has been read. -/
  answers : x.write ≠ .idle ↔ ∃ ec request, x.read = .handled (ec,request) ∧ ec.failed = false
  /-- The deadline is cancelled when the response has been written. -/
  written : ∀ e, x.write = .handled e → x.deadline ≠ .pending
  cancelled : ∀ ec, x.deadline = .ended ec ∨ x.deadline = .handled ec → ec.failed = true →
    ∃ e, x.write = .handled e
  expired : ∀ ec, x.deadline = .handled ec → ec.failed = false → x.socket ≠ .opened
  shut : x.socket ≠ .opened → ∃ ec, x.deadline = .handled ec
  flushing : x.socket = .flushing → 0 < x.unread ∧ x.client = true ∧ x.held = false

structure Sound (x : Connection) : Prop extends Told x where
  opened : x.socket = .opened → x.held = true

theorem start_sound : start.Sound := by
  refine ⟨⟨?_,?_,?_,?_,?_,?_,?_,?_⟩,?_⟩ <;> simp [start,held,Op.waits]

/-- A connection that nothing refers to any more gives up its pipe. -/
lemma Told.destroy (h : x.Told) (hheld : x.held = false) (hopen : x.socket = .opened) {σ : Socket}
    (hσ : σ ≠ .opened) (hflush : σ = .flushing → 0 < x.unread ∧ x.client = true) :
    Sound { x with socket := σ } := by
  have hover : ∃ ec, x.deadline = .handled ec := by
    cases hd : x.deadline with
    | idle => exact absurd hd h.waiting
    | handled ec => exact ⟨ec,rfl⟩
    | pending | ended => simp [held,hd,Op.waits] at hheld
  refine ⟨⟨h.reading,h.waiting,h.answers,h.written,h.cancelled,fun ec hec hok => ?_,
    fun _ => hover,fun hf => ?_⟩,fun hopened => absurd hopened hσ⟩
  · exact absurd hopen (h.expired ec hec hok)
  · exact ⟨(hflush hf).1,(hflush hf).2,hheld⟩

theorem Told.release (h : x.Told) : x.release.Sound := by
  unfold Connection.release
  split_ifs with hkept hunread
  · refine ⟨h,fun hopen => ?_⟩
    simpa [hopen] using hkept
  · simp only [Bool.or_eq_true,bne_iff_ne,not_or,Bool.not_eq_true,not_not] at hkept
    exact h.destroy hkept.1 hkept.2 (by simp) fun _ => hunread
  · simp only [Bool.or_eq_true,bne_iff_ne,not_or,Bool.not_eq_true,not_not] at hkept
    exact h.destroy hkept.1 hkept.2 (by simp) fun hf => by cases hf

lemma Told.not_flushing (h : x.Told) (hheld : x.held = true) : x.socket ≠ .flushing :=
  fun hf => absurd (hheld.symm.trans (h.flushing hf).2.2) Bool.true_eq_false.mp

/-- As long as the request has not been read, nothing is written. -/
lemma Told.not_writing (h : x.Told) (hread : ∀ a, x.read ≠ .handled a) : x.write = .idle := by
  by_contra hne
  obtain ⟨ec,request,hr,-⟩ := h.answers.mp hne
  exact hread _ hr

theorem Sound.onRead (h : x.Sound) {now : Int} {count count' : UInt64}
    (hy : x.onRead now count = some (y,count')) : y.Sound := by
  cases hr : x.read with
  | idle | pending | handled => simp [Connection.onRead,hr] at hy
  | ended a =>
    obtain ⟨ec,request⟩ := a
    have hidle : x.write = .idle := h.not_writing (by simp [hr])
    have hflush : x.socket ≠ .flushing := h.not_flushing (by simp [held,hr,Op.waits])
    simp only [Connection.onRead,hr] at hy
    split_ifs at hy with hec
    · cases hy
      refine Told.release ⟨by simp,h.waiting,?_,h.written,h.cancelled,h.expired,h.shut,fun hf => ?_⟩
      · simp [hidle,hec]
      · exact absurd hf hflush
    · cases hy
      refine Told.release ⟨by simp,h.waiting,?_,by simp,?_,h.expired,h.shut,fun hf => ?_⟩
      · simpa using hec
      · intro ec' hd hf
        obtain ⟨e,he⟩ := h.cancelled ec' hd hf
        rw [hidle] at he
        cases he
      · exact absurd hf hflush

theorem Sound.onWrite (h : x.Sound) (hy : x.onWrite = some y) : y.Sound := by
  cases hw : x.write with
  | idle | pending | handled => simp [Connection.onWrite,hw] at hy
  | ended ec =>
    simp only [Connection.onWrite,hw,Option.some.injEq] at hy
    subst hy
    have hcancel : ∀ ec, x.deadline.cancel = .handled ec ↔ x.deadline = .handled ec := by
      intro ec
      cases x.deadline <;> simp [Op.cancel]
    have hflush : x.socket ≠ .flushing := h.not_flushing (by simp [held,hw,Op.waits])
    refine Told.release ⟨h.reading,?_,?_,?_,fun _ _ _ => ⟨ec,rfl⟩,fun ec' hd hok => ?_,
      fun hs => ?_,fun hf => absurd hf hflush⟩
    · have hwaiting := h.waiting
      cases hd : x.deadline <;> simp_all [Op.cancel]
    · rw [← h.answers,hw]
      simp
    · intro e _
      cases x.deadline <;> simp [Op.cancel]
    · exact h.expired ec' ((hcancel ec').mp hd) hok
    · obtain ⟨ec',hd⟩ := h.shut hs
      exact ⟨ec',(hcancel ec').mpr hd⟩

theorem Sound.onDeadline (h : x.Sound) (hy : x.onDeadline = some y) : y.Sound := by
  cases hd : x.deadline with
  | idle | pending | handled => simp [Connection.onDeadline,hd] at hy
  | ended ec =>
    simp only [Connection.onDeadline,hd,Option.some.injEq] at hy
    subst hy
    have hflush : x.socket ≠ .flushing := h.not_flushing (by simp [held,hd,Op.waits])
    refine Told.release ⟨h.reading,by simp,h.answers,by simp,fun ec' he hf => ?_,fun ec' he hok => ?_,
      fun _ => ⟨ec,rfl⟩,fun hf => ?_⟩
    · have hec : ec = ec' := by simpa using he
      exact h.cancelled ec (Or.inl hd) (hec ▸ hf)
    · cases he
      simp [hok]
    · split_ifs at hf
      exact absurd hf hflush

theorem Sound.readEnds (h : x.Sound) {ec : ErrorCode} {request : Request}
    (hy : x.readEnds ec request = some y) : y.Sound := by
  rw [Connection.readEnds,Option.ite_none_right_eq_some] at hy
  obtain ⟨⟨hr,-⟩,hy⟩ := hy
  cases hy
  have hidle : x.write = .idle := h.not_writing (by simp [hr])
  have hflush : x.socket ≠ .flushing := h.not_flushing (by simp [held,hr,Op.waits])
  refine ⟨⟨by simp,h.waiting,by simp [hidle],h.written,h.cancelled,h.expired,h.shut,fun hf => ?_⟩,
    fun _ => by simp [held,Op.waits]⟩
  exact absurd hf hflush

theorem Sound.writeEnds (h : x.Sound) {ec : ErrorCode} {unread : ℕ}
    (hy : x.writeEnds ec unread = some y) : y.Sound := by
  rw [Connection.writeEnds,Option.ite_none_right_eq_some] at hy
  obtain ⟨⟨hw,-⟩,hy⟩ := hy
  cases hy
  have hflush : x.socket ≠ .flushing := h.not_flushing (by simp [held,hw,Op.waits])
  refine ⟨⟨h.reading,h.waiting,?_,by simp,fun ec' hd hf => ?_,h.expired,h.shut,fun hf => ?_⟩,
    fun _ => by simp [held,Op.waits]⟩
  · rw [← h.answers,hw]
    simp
  · obtain ⟨e,he⟩ := h.cancelled ec' hd hf
    rw [hw] at he
    cases he
  · exact absurd hf hflush

theorem Sound.expires (h : x.Sound) (hy : x.expires = some y) : y.Sound := by
  rw [Connection.expires,Option.ite_none_right_eq_some] at hy
  obtain ⟨hd,hy⟩ := hy
  cases hy
  have hflush : x.socket ≠ .flushing := h.not_flushing (by simp [held,hd,Op.waits])
  have hopen : x.socket = .opened := by
    by_contra hs
    obtain ⟨ec,hhandled⟩ := h.shut hs
    rw [hd] at hhandled
    cases hhandled
  refine ⟨⟨h.reading,by simp,h.answers,by simp,fun ec he hf => ?_,by simp,fun hs => absurd hopen hs,
    fun hf => absurd hf hflush⟩,fun _ => by simp [held,Op.waits]⟩
  have hec : (⟨0⟩ : ErrorCode) = ec := by simpa using he
  subst hec
  cases hf

/-- What a client does can only end a flush. -/
lemma Sound.flushed (h : x.Sound) {client : Bool} {unread : ℕ} :
    Sound { x with client := client, unread := unread }.flushed := by
  rw [Connection.flushed]
  split_ifs with hf
  · refine ⟨⟨h.reading,h.waiting,h.answers,h.written,h.cancelled,by simp,fun _ => ?_,by simp⟩,by simp⟩
    exact h.shut (by rw [show x.socket = .flushing from hf.1]; simp)
  · refine ⟨⟨h.reading,h.waiting,h.answers,h.written,h.cancelled,h.expired,h.shut,
      fun hflush => ?_⟩,h.opened⟩
    obtain ⟨hunread,hclient⟩ := not_or.mp fun hends => hf ⟨hflush,hends⟩
    exact ⟨Nat.pos_of_ne_zero hunread,(Bool.not_eq_false _).mp hclient,(h.flushing hflush).2.2⟩

/-- Each step of a connection leaves it as a connection should be. -/
theorem Sound.change {l : Act} {c : ℕ} {f : Connection → Option Connection} (h : x.Sound)
    (hl : l.change = some (c,f)) (hy : f x = some y) : y.Sound := by
  cases l with
  | onAccept | onRead => cases hl
  | readEnds =>
    cases hl
    exact h.readEnds hy
  | writeEnds =>
    cases hl
    exact h.writeEnds hy
  | expires =>
    cases hl
    exact h.expires hy
  | onWrite =>
    cases hl
    exact h.onWrite hy
  | onDeadline =>
    cases hl
    exact h.onDeadline hy
  | clientReads =>
    cases hl
    simp only [Connection.clientReads,Option.ite_none_right_eq_some] at hy
    obtain ⟨-,hy⟩ := hy
    cases hy
    exact h.flushed
  | clientLeaves =>
    cases hl
    rw [Connection.clientLeaves,Option.ite_none_right_eq_some] at hy
    obtain ⟨-,hy⟩ := hy
    cases hy
    exact h.flushed

end Connection
end Winext.Beast
