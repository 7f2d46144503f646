import Winext.Lib.Pointwise
import Winext.Http.BeastConnections

/-! When the connections of `beast_server` end: by their deadline or after their response, and
not before their client has read it, which holds up all the others. -/
namespace Winext.Beast
open Lib Http

namespace Connection
variable {x y : Connection} {l : Act} {c : ℕ} {f : Connection → Option Connection}

/-- No reference is left to a connection whose deadline handler was the last. -/
def DeadlineOver (x : Connection) : Prop := ∃ ec, x.deadline = .handled ec

lemma release_deadline (x : Connection) : x.release.deadline = x.deadline := by
  unfold release
  split_ifs <;> rfl

lemma Sound.opened_iff (h : x.Sound) : x.socket = .opened ↔ ¬x.DeadlineOver := by
  constructor
  · rintro hopen ⟨ec,hd⟩
    have hheld := h.opened hopen
    cases hec : ec.failed with
    | false => exact h.expired ec hd hec hopen
    | true =>
      -- the deadline was cancelled, so all three handlers have run
      obtain ⟨e,hw⟩ := h.cancelled ec (Or.inr hd) hec
      obtain ⟨ec',request,hr,-⟩ := h.answers.mp (by simp [hw])
      simp [held,hd,hw,hr,Op.waits] at hheld
  · intro hover
    by_contra hs
    exact hover (h.shut hs)

/-- What a step of the connection does to its deadline. -/
lemma change_deadline (hl : l.change = some (c,f)) (hy : f x = some y) :
    (y.DeadlineOver ↔ x.DeadlineOver ∨ l = .onDeadline c) ∧
      (y.deadline ≠ .pending → x.deadline ≠ .pending ∨ l = .expires c ∨ l = .onWrite c) := by
  have hflushed : ∀ x : Connection, x.flushed.deadline = x.deadline := by
    intro x
    unfold flushed
    split_ifs <;> rfl
  cases l with
  | onAccept | onRead => cases hl
  | readEnds | writeEnds =>
    cases hl
    simp only [readEnds,writeEnds,Option.ite_none_right_eq_some] at hy
    obtain ⟨-,hy⟩ := hy
    cases hy
    simp [DeadlineOver]
  | expires =>
    cases hl
    simp only [expires,Option.ite_none_right_eq_some] at hy
    obtain ⟨hd,hy⟩ := hy
    cases hy
    simp [DeadlineOver,hd]
  | clientReads | clientLeaves =>
    cases hl
    simp only [clientReads,clientLeaves,Option.ite_none_right_eq_some] at hy
    obtain ⟨-,hy⟩ := hy
    cases hy
    simp [DeadlineOver,hflushed]
  | onWrite =>
    cases hl
    cases hw : x.write with
    | idle | pending | handled => simp [onWrite,hw] at hy
    | ended ec =>
      simp only [onWrite,hw,Option.some.injEq] at hy
      subst hy
      cases hd : x.deadline <;> simp [DeadlineOver,release_deadline,hd,Op.cancel]
  | onDeadline =>
    cases hl
    cases hd : x.deadline with
    | idle | pending | handled => simp [onDeadline,hd] at hy
    | ended ec =>
      simp only [onDeadline,hd,Option.some.injEq] at hy
      subst hy
      simp [DeadlineOver,release_deadline]

lemma onRead_deadline {now : Int} {count count' : UInt64} (hy : x.onRead now count = some (y,count')) :
    y.deadline = x.deadline := by
  cases hr : x.read with
  | idle | pending | handled => simp [onRead,hr] at hy
  | ended a =>
    obtain ⟨ec,request⟩ := a
    simp only [onRead,hr] at hy
    split_ifs at hy <;> cases hy <;> exact release_deadline _

end Connection

namespace Server

lemma sound_preserved : machine.Preserves fun s => ∀ x ∈ s.conns, x.Sound := by
  intro s l t h hstep
  obtain ⟨-,hmoves⟩ := step_cases hstep
  have hset : ∀ {c : ℕ} {y : Connection}, y.Sound → ∀ z ∈ s.conns.set c y, z.Sound := by
    intro c y hy z hz
    obtain hz | rfl := List.mem_or_eq_of_mem_set hz
    · exact h z hz
    · exact hy
  cases hmoves with
  | refused => exact h
  | accepted hec =>
    intro z hz
    obtain hz | hz := List.mem_append.mp hz
    · exact h z hz
    · rw [List.mem_singleton.mp hz]
      exact Connection.start_sound
  | @change _ c f x y hl hx hy => exact hset ((h x (List.mem_of_getElem? hx)).change hl hy)
  | @read c now x y count hx hy => exact hset ((h x (List.mem_of_getElem? hx)).onRead hy)

/-- The steps that have been taken say whose deadline handler has run, and after what. -/
def Recorded (ls : List Act) (s : Server) : Prop :=
  (∀ c x, s.conns[c]? = some x → (x.DeadlineOver ↔ .onDeadline c ∈ ls) ∧
    (x.deadline ≠ .pending → .expires c ∈ ls ∨ .onWrite c ∈ ls)) ∧
  ∀ c, s.conns.length ≤ c → .onDeadline c ∉ ls

lemma onDeadline_change {l : Act} {c d : ℕ} {f : Connection → Option Connection}
    (hl : l.change = some (c,f)) (h : l = .onDeadline d) : d = c := by
  subst h
  cases hl
  rfl

/-- A step that changes at most one connection, in the way that the label says. -/
lemma Recorded.set {ls : List Act} {s : Server} {l : Act} {c : ℕ} {x y : Connection}
    (h : s.Recorded ls) (hx : s.conns[c]? = some x)
    (hover : y.DeadlineOver ↔ x.DeadlineOver ∨ l = .onDeadline c)
    (hended : y.deadline ≠ .pending → x.deadline ≠ .pending ∨ l = .expires c ∨ l = .onWrite c)
    (hl : ∀ d, l = .onDeadline d → d = c) {t : Server} (ht : t.conns = s.conns.set c y) :
    t.Recorded (ls ++ [l]) := by
  obtain ⟨hthere,hlater⟩ := h
  have hlt := (List.getElem?_eq_some_iff.mp hx).1
  refine ⟨fun d z hz => ?_,fun d hd => ?_⟩
  · rw [ht] at hz
    by_cases hcd : c = d
    · subst hcd
      rw [List.getElem?_set_self hlt] at hz
      cases hz
      obtain ⟨hx₁,hx₂⟩ := hthere c x hx
      simp only [List.mem_append,List.mem_singleton]
      refine ⟨by rw [hover,hx₁,eq_comm (a := l)],fun hne => ?_⟩
      obtain hold | rfl | rfl := hended hne
      · exact (hx₂ hold).imp Or.inl Or.inl
      · exact Or.inl (Or.inr rfl)
      · exact Or.inr (Or.inr rfl)
    · rw [List.getElem?_set_ne hcd] at hz
      obtain ⟨hz₁,hz₂⟩ := hthere d z hz
      have hnot : .onDeadline d ≠ l := fun he => hcd (hl d he.symm).symm
      simp only [List.mem_append,List.mem_singleton,hnot,or_false]
      exact ⟨hz₁,fun hne => (hz₂ hne).imp Or.inl Or.inl⟩
  · rw [ht,List.length_set] at hd
    have hnot : .onDeadline d ≠ l := fun he => Nat.not_le_of_lt hlt ((hl d he.symm) ▸ hd)
    simpa [hnot] using hlater d hd

lemma recorded_step (ls : List Act) (s : Server) (l : Act) (t : Server) (h : s.Recorded ls)
    (hstep : machine.step s l = some t) : t.Recorded (ls ++ [l]) := by
  obtain ⟨-,hmoves⟩ := step_cases hstep
  cases hmoves with
  | refused hec =>
    obtain ⟨hthere,hlater⟩ := h
    exact ⟨fun c x hx => by simpa using hthere c x hx,fun c hc => by simpa using hlater c hc⟩
  | accepted hec =>
    obtain ⟨hthere,hlater⟩ := h
    refine ⟨fun c x hx => ?_,fun c hc => ?_⟩
    · obtain hx | ⟨rfl,rfl⟩ : s.conns[c]? = some x ∨ c = s.conns.length ∧ .start = x := by
        simpa using (exists_getElem?_concat (P := (· = x))).mp ⟨x,hx,rfl⟩
      · simpa using hthere c x hx
      · simpa [Connection.DeadlineOver,Connection.start] using hlater _ (Nat.le_refl _)
    · rw [List.length_append,List.length_singleton] at hc
      simpa using hlater c (Nat.le_of_succ_le hc)
  | @change _ c f x y hl hx hy =>
    obtain ⟨hover,hended⟩ := Connection.change_deadline hl hy
    exact h.set hx hover hended (fun d hd => onDeadline_change hl hd) rfl
  | @read c now x y count hx hy =>
    have hsame := Connection.onRead_deadline hy
    refine h.set hx ?_ (fun hne => Or.inl (hsame ▸ hne)) (fun d hd => by cases hd) rfl
    simp [Connection.DeadlineOver,hsame]

/-- In every run, the pipe of a connection is given up by its deadline handler and by nothing
else, and that handler runs only after the deadline or after the handler of its response. -/
theorem given_up_iff (ls : List Act) {s : Server} (h : machine.run {} ls = some s) {c : ℕ}
    {x : Connection} (hx : s.conns[c]? = some x) :
    (x.socket ≠ .opened ↔ .onDeadline c ∈ ls) ∧
      (.onDeadline c ∈ ls → .expires c ∈ ls ∨ .onWrite c ∈ ls) := by
  have hrecorded : s.Recorded ls := by
    have hempty : Recorded [] {} := ⟨by simp,by simp⟩
    exact Machine.run_history recorded_step h hempty
  have hsound := sound_preserved.run h (by simp) x (List.mem_of_getElem? hx)
  obtain ⟨hover,hended⟩ := hrecorded.1 c x hx
  refine ⟨by rw [ne_eq,hsound.opened_iff,not_not,hover],fun hmem => hended ?_⟩
  obtain ⟨ec,hd⟩ := hover.mpr hmem
  simp [hd]

/-- A client that sends nothing is there until its deadline. -/
def silentClient : List Act := [.onAccept {},.expires 0,.onDeadline 0]

theorem given_up_iff_silentClient : ∃ s x, machine.run {} silentClient = some s ∧
    s.conns[0]? = some x ∧ (x.socket ≠ .opened ↔ .onDeadline 0 ∈ silentClient) :=
  ⟨_,_,rfl,rfl,(given_up_iff silentClient rfl rfl).1⟩

end Server

namespace Act

/-- What the client of a connection reads in a step. -/
def taken (c : ℕ) : Act → ℕ
  | clientReads d n => if d = c then n else 0
  | _ => 0

/-- What a write leaves its client to read. -/
def unread : Act → ℕ
  | writeEnds _ _ unread => unread
  | _ => 0

end Act

/-- What the client of a connection reads in all of the steps. -/
def taken (c : ℕ) (ls : List Act) : ℕ := (ls.map (Act.taken c)).sum

namespace Connection
variable {x y : Connection} {l : Act} {c : ℕ} {f : Connection → Option Connection}

lemma flushed_unread (x : Connection) : x.flushed.unread = x.unread := by
  unfold flushed
  split_ifs <;> rfl

lemma flushed_flushing (x : Connection) : x.flushed.socket = .flushing ↔
    x.socket = .flushing ∧ 0 < x.unread ∧ x.client = true := by
  unfold flushed
  split_ifs with h
  · obtain ⟨-,hunread | hclient⟩ := h
    · simp [hunread]
    · simp [hclient]
  · refine ⟨fun hf => ⟨hf,?_⟩,And.left⟩
    obtain ⟨hunread,hclient⟩ := not_or.mp fun hends => h ⟨hf,hends⟩
    exact ⟨Nat.pos_of_ne_zero hunread,(Bool.not_eq_false _).mp hclient⟩

/-- Only handlers make a destructor wait. -/
lemma flushing_of_change (hl : l.change = some (c,f)) (hy : f x = some y)
    (hhandler : l.handler = false) (hf : y.socket = .flushing) : x.socket = .flushing := by
  cases l with
  | onAccept | onRead | onWrite | onDeadline => cases hhandler
  | readEnds | writeEnds | expires =>
    cases hl
    simp only [readEnds,writeEnds,expires,Option.ite_none_right_eq_some] at hy
    obtain ⟨-,hy⟩ := hy
    cases hy
    exact hf
  | clientReads | clientLeaves =>
    cases hl
    simp only [clientReads,clientLeaves,Option.ite_none_right_eq_some] at hy
    obtain ⟨-,hy⟩ := hy
    cases hy
    exact ((flushed_flushing _).mp hf).1

/-- A destructor waits for nobody but its client, and as long as this has not left and has
something to read. -/
lemma Sound.change_flushing (h : x.Sound) (hl : l.change = some (c,f)) (hy : f x = some y)
    (hhandler : l.handler = false) (hf : x.socket = .flushing) :
    y.unread + l.taken c = x.unread ∧
      (y.socket = .flushing ↔ l ≠ .clientLeaves c ∧ l.taken c < x.unread) := by
  obtain ⟨hunread,hclient,hheld⟩ := h.flushing hf
  simp only [held,Bool.or_eq_false_iff] at hheld
  obtain ⟨⟨hread,hwrite⟩,hdeadline⟩ := hheld
  cases l with
  | onAccept | onRead | onWrite | onDeadline => cases hhandler
  | readEnds | writeEnds | expires =>
    -- nothing of the connection is pending any more
    cases hl
    simp only [Connection.readEnds,Connection.writeEnds,Connection.expires,
      Option.ite_none_right_eq_some] at hy
    simp_all [Op.waits]
  | clientReads d n =>
    cases hl
    simp only [Connection.clientReads,Option.ite_none_right_eq_some] at hy
    obtain ⟨⟨-,-,hle⟩,hy⟩ := hy
    cases hy
    rw [flushed_unread,flushed_flushing]
    simp only [hf,hclient,Act.taken,if_pos]
    refine ⟨Nat.sub_add_cancel hle,?_⟩
    simp only [true_and,and_true,ne_eq,reduceCtorEq,not_false_eq_true]
    exact Nat.sub_pos_iff_lt
  | clientLeaves d =>
    cases hl
    simp only [Connection.clientLeaves,Option.ite_none_right_eq_some] at hy
    obtain ⟨-,hy⟩ := hy
    cases hy
    rw [flushed_unread,flushed_flushing]
    simp [Act.taken]

end Connection

namespace Server

/-- The destructor of connection `c` waits for its client, which has `n` bytes left to read. -/
def Flushes (c n : ℕ) (s : Server) : Prop :=
  ∃ x : Connection, s.conns[c]? = some x ∧ x.socket = .flushing ∧ x.unread = n

/-- The thread is in at most one destructor. -/
def OneFlush (s : Server) : Prop := ∀ c d n m, s.Flushes c n → s.Flushes d m → c = d

lemma blocked_iff {s : Server} : s.blocked = true ↔ ∃ c n, s.Flushes c n := by
  simp only [blocked,List.any_eq_true,beq_iff_eq]
  constructor
  · rintro ⟨x,hx,hf⟩
    obtain ⟨c,hc⟩ := List.mem_iff_getElem?.mp hx
    exact ⟨c,x.unread,x,hc,hf,rfl⟩
  · rintro ⟨c,n,x,hx,hf,-⟩
    exact ⟨x,List.mem_of_getElem? hx,hf⟩

lemma not_flushes {s : Server} (h : s.blocked = false) (c n : ℕ) : ¬s.Flushes c n :=
  fun hc => absurd (blocked_iff.mpr ⟨c,n,hc⟩) (by simp [h])

/-- What flushes after a step did so before it, or it is the connection that has changed. -/
lemma flushes_set {s t : Server} {c d n : ℕ} {y : Connection} (ht : t.conns = s.conns.set c y)
    (h : t.Flushes d n) (hdc : d ≠ c) : s.Flushes d n := by
  obtain ⟨z,hz,hf⟩ := h
  rw [ht,List.getElem?_set_ne hdc.symm] at hz
  exact ⟨z,hz,hf⟩

lemma oneFlush_set {s t : Server} {c : ℕ} {y : Connection} (h : s.blocked = false)
    (ht : t.conns = s.conns.set c y) : t.OneFlush := by
  have hsame : ∀ d n, t.Flushes d n → d = c := by
    intro d n hd
    by_contra hdc
    exact not_flushes h d n (flushes_set ht hd hdc)
  exact fun d e n m hd he => (hsame d n hd).trans (hsame e m he).symm

/-- Only a handler makes a destructor wait. -/
lemma flushes_before {s t : Server} {l : Act} {d m : ℕ} (hmoves : Moves s l t)
    (hhandler : l.handler = false) (h : t.Flushes d m) : ∃ n, s.Flushes d n := by
  cases hmoves with
  | refused | accepted | read => cases hhandler
  | @change _ c f x y hl hx hy =>
    by_cases hdc : d = c
    · subst hdc
      obtain ⟨z,hz,hf,-⟩ := h
      rw [List.getElem?_set_self (List.getElem?_eq_some_iff.mp hx).1] at hz
      cases hz
      exact ⟨x.unread,x,hx,Connection.flushing_of_change hl hy hhandler hf,rfl⟩
    · exact ⟨m,flushes_set rfl h hdc⟩

lemma oneFlush_preserved : machine.Preserves OneFlush := by
  intro s l t h hstep
  obtain ⟨hfree,hmoves⟩ := step_cases hstep
  cases hhandler : l.handler with
  | false =>
    intro d e n m hd he
    obtain ⟨n',hd⟩ := flushes_before hmoves hhandler hd
    obtain ⟨m',he⟩ := flushes_before hmoves hhandler he
    exact h d e n' m' hd he
  | true =>
    cases hmoves with
    | refused => exact h
    | accepted hec =>
      rintro c d n m ⟨x,hx,hf,hn⟩
      obtain hx | ⟨-,rfl⟩ : s.conns[c]? = some x ∨ c = s.conns.length ∧ .start = x := by
        simpa using (exists_getElem?_concat (P := (· = x))).mp ⟨x,hx,rfl⟩
      · exact absurd ⟨x,hx,hf,hn⟩ (not_flushes (hfree hhandler) c n)
      · cases hf
    | read | change => exact oneFlush_set (hfree hhandler) rfl

section Flushing
variable {s t : Server} {l : Act} {c n : ℕ}

/-- No handler runs while a destructor waits. -/
lemma Flushes.handler (h : s.Flushes c n) (hstep : machine.step s l = some t) :
    l.handler = false := by
  by_contra hne
  exact not_flushes ((step_cases hstep).1 ((Bool.not_eq_false _).mp hne)) c n h

/-- What a step does to the connection that is waited for. -/
lemma Flushes.step (hsound : ∀ x ∈ s.conns, x.Sound) (h : s.Flushes c n)
    (hstep : machine.step s l = some t) : ∃ y, t.conns[c]? = some y ∧ y.unread + l.taken c = n ∧
      (y.socket = .flushing ↔ l ≠ .clientLeaves c ∧ l.taken c < n) := by
  have hhandler := h.handler hstep
  obtain ⟨x,hx,hf,rfl⟩ := h
  obtain ⟨-,hmoves⟩ := step_cases hstep
  cases hmoves with
  | refused | accepted | read => cases hhandler
  | @change _ d f z y hl hz hy =>
    by_cases hdc : d = c
    · subst hdc
      cases hx.symm.trans hz
      obtain ⟨hunread,hflushing⟩ :=
        (hsound x (List.mem_of_getElem? hx)).change_flushing hl hy hhandler hf
      exact ⟨y,List.getElem?_set_self (List.getElem?_eq_some_iff.mp hx).1,hunread,hflushing⟩
    · -- another connection changes
      have hnot : l ≠ .clientLeaves c ∧ l.taken c = 0 := by
        refine ⟨fun he => ?_,?_⟩
        · subst he
          cases hl
          exact hdc rfl
        · cases l <;> cases hl <;> simp [Act.taken,hdc]
      have hpos := ((hsound x (List.mem_of_getElem? hx)).flushing hf).1
      refine ⟨x,(List.getElem?_set_ne hdc).trans hx,by rw [hnot.2,Nat.add_zero],?_⟩
      exact iff_of_true hf ⟨hnot.1,by rwa [hnot.2]⟩

/-- A destructor waits on, with less to be read. -/
lemma Flushes.stays (hsound : ∀ x ∈ s.conns, x.Sound) (h : s.Flushes c n)
    (hstep : machine.step s l = some t) (hstay : l ≠ .clientLeaves c) (hleft : l.taken c < n) :
    t.Flushes c (n - l.taken c) := by
  obtain ⟨y,hy,hunread,hflushing⟩ := h.step hsound hstep
  exact ⟨y,hy,hflushing.mpr ⟨hstay,hleft⟩,by omega⟩

/-- The thread is free when the client has left or has read all. -/
lemma Flushes.ends (hsound : ∀ x ∈ s.conns, x.Sound) (hone : s.OneFlush) (h : s.Flushes c n)
    (hstep : machine.step s l = some t) (hends : l = .clientLeaves c ∨ l.taken c = n) :
    t.blocked = false := by
  by_contra hne
  obtain ⟨d,m,hd⟩ := blocked_iff.mp ((Bool.not_eq_false _).mp hne)
  obtain ⟨n',hbefore⟩ := flushes_before (step_cases hstep).2 (h.handler hstep) hd
  obtain rfl := hone d c n' n hbefore h
  obtain ⟨y,hy,-,hflushing⟩ := h.step hsound hstep
  obtain ⟨z,hz,hf,-⟩ := hd
  cases hy.symm.trans hz
  obtain ⟨hstay,hleft⟩ := hflushing.mp hf
  exact hends.elim hstay (Nat.ne_of_lt hleft)

/-- As long as the client has neither left nor read all, nothing is handled. -/
lemma Flushes.run (hsound : ∀ x ∈ s.conns, x.Sound) (h : s.Flushes c n) {ms : List Act}
    (ht : machine.run s ms = some t) (hstay : .clientLeaves c ∉ ms) (hleft : taken c ms < n) :
    (∀ l ∈ ms, l.handler = false) ∧ t.Flushes c (n - taken c ms) := by
  induction ms generalizing s n with
  | nil =>
    cases ht
    exact ⟨fun l hl => by simp at hl,h⟩
  | cons m ms ih =>
    obtain ⟨u,hu,hut⟩ := machine.run_cons_iff.mp ht
    rw [List.mem_cons,not_or] at hstay
    have hsum : taken c (m::ms) = m.taken c + taken c ms := rfl
    rw [hsum] at hleft ⊢
    have hnext := h.stays hsound hu (Ne.symm hstay.1) (by omega)
    obtain ⟨hhandlers,hflush⟩ := ih (sound_preserved s m u hsound hu) hnext hut hstay.2 (by omega)
    rw [← Nat.sub_sub]
    exact ⟨List.forall_mem_cons.mpr ⟨h.handler hu,hhandlers⟩,hflush⟩

/-- The client can always read some of what is left. -/
lemma Flushes.clientReads (hsound : ∀ x ∈ s.conns, x.Sound) (h : s.Flushes c n) {k : ℕ}
    (hpos : 0 < k) (hle : k ≤ n) : ∃ t, machine.step s (.clientReads c k) = some t := by
  obtain ⟨x,hx,hf,rfl⟩ := h
  obtain ⟨-,hclient,-⟩ := (hsound x (List.mem_of_getElem? hx)).flushing hf
  simp [machine,Server.step,update,stepAt,hx,Act.handler,Connection.clientReads,hclient,hpos,hle]

end Flushing

/-- While the destructor of a connection waits for its client, no handler of any connection
runs, however long. The handlers go on when that client leaves, or when it has read the last
of its response, of which it can read any part at any time. -/
theorem flush_blocks (ls : List Act) {s : Server} (h : machine.run {} ls = some s) {c n : ℕ}
    (hflush : s.Flushes c n) :
    (∀ ms t, machine.run s ms = some t → .clientLeaves c ∉ ms → taken c ms < n →
      (∀ l ∈ ms, l.handler = false) ∧ t.Flushes c (n - taken c ms)) ∧
    (∀ ms l t, machine.run s (ms ++ [l]) = some t → .clientLeaves c ∉ ms → taken c ms < n →
      l = .clientLeaves c ∨ taken c (ms ++ [l]) = n → t.blocked = false) ∧
    ∀ k, 0 < k → k ≤ n → ∃ t, machine.step s (.clientReads c k) = some t := by
  have hsound := sound_preserved.run h (by simp)
  have hone : s.OneFlush := oneFlush_preserved.run h (by rintro c d n m ⟨x,hx,-⟩; simp at hx)
  refine ⟨fun ms t ht => hflush.run hsound ht,fun ms l t ht hstay hleft hends => ?_,
    fun k => hflush.clientReads hsound⟩
  obtain ⟨u,hu,hstep⟩ := machine.run_concat_iff.mp ht
  obtain ⟨-,hnext⟩ := hflush.run hsound hu hstay hleft
  refine hnext.ends (sound_preserved.run hu hsound) (oneFlush_preserved.run hu hone) hstep ?_
  refine hends.imp_right fun htaken => ?_
  have hsum : taken c (ms ++ [l]) = taken c ms + l.taken c := by simp [taken]
  omega

/-- A client that is answered and does not read, and one that has been waiting since. -/
def unreadResponse : List Act :=
  [.onAccept {},.onAccept {},.readEnds 0 {} {},.onRead 0 0,.writeEnds 0 {} 90,.onWrite 0,
    .onDeadline 0,.readEnds 1 {} {}]

theorem flush_blocks_unreadResponse : ∃ s, machine.run {} unreadResponse = some s ∧
    ∀ ms t, machine.run s ms = some t → .clientLeaves 0 ∉ ms → taken 0 ms < 90 →
      (∀ l ∈ ms, l.handler = false) ∧ t.Flushes 0 (90 - taken 0 ms) :=
  ⟨_,rfl,(flush_blocks (c := 0) (n := 90) unreadResponse rfl ⟨_,rfl,rfl,rfl⟩).1⟩

end Server

namespace Op
variable {α : Type}

def left : Op α → ℕ
  | pending => 2
  | ended _ => 1
  | idle | handled _ => 0

@[simp] lemma left_idle : (idle : Op α).left = 0 := rfl

@[simp] lemma left_pending : (pending : Op α).left = 2 := rfl

@[simp] lemma left_ended (a : α) : (ended a).left = 1 := rfl

@[simp] lemma left_handled (a : α) : (handled a).left = 0 := rfl

lemma left_cancel (o : Op ErrorCode) : o.cancel.left ≤ o.left := by
  cases o <;> simp [cancel]

end Op

namespace Connection
variable {x y : Connection} {l : Act} {c : ℕ} {f : Connection → Option Connection}

/-- The steps that are left to the response: to be written, and handled. -/
def responseLeft (x : Connection) : ℕ :=
  match x.write with
  | .idle => if x.read.waits then 2 else 0
  | o => o.left

/-- The steps that are left to a connection, and a step for each byte that its client has left
to read. -/
def left (x : Connection) : ℕ :=
  x.read.left + x.responseLeft + x.deadline.left + x.client.toNat + x.unread

lemma left_release (x : Connection) : x.release.left = x.left := by
  unfold release
  split_ifs <;> rfl

lemma left_flushed (x : Connection) : x.flushed.left = x.left := by
  unfold flushed
  split_ifs <;> rfl

/-- Each step is one of those that were left, and a write adds what it leaves to be read. -/
theorem change_left (hl : l.change = some (c,f)) (hy : f x = some y) :
    y.left < x.left + l.unread := by
  cases l with
  | onAccept | onRead => cases hl
  | readEnds =>
    cases hl
    simp only [readEnds,Option.ite_none_right_eq_some] at hy
    obtain ⟨⟨hr,-⟩,hy⟩ := hy
    cases hy
    simp only [left,responseLeft,hr,Op.waits,Op.left_pending,Op.left_ended]
    omega
  | writeEnds c ec unread =>
    cases hl
    simp only [writeEnds,Option.ite_none_right_eq_some] at hy
    obtain ⟨⟨hw,-⟩,hy⟩ := hy
    cases hy
    simp only [left,responseLeft,hw,Op.left_pending,Op.left_ended,Act.unread]
    omega
  | expires =>
    cases hl
    simp only [expires,Option.ite_none_right_eq_some] at hy
    obtain ⟨hd,hy⟩ := hy
    cases hy
    simp only [left,responseLeft,hd,Op.left_pending,Op.left_ended]
    omega
  | clientReads =>
    cases hl
    simp only [clientReads,Option.ite_none_right_eq_some] at hy
    obtain ⟨⟨-,hpos,hle⟩,hy⟩ := hy
    cases hy
    rw [left_flushed]
    simp only [left,responseLeft]
    omega
  | clientLeaves =>
    cases hl
    simp only [clientLeaves,Option.ite_none_right_eq_some] at hy
    obtain ⟨hclient,hy⟩ := hy
    cases hy
    rw [left_flushed]
    simp only [left,responseLeft,hclient,Bool.toNat_true,Bool.toNat_false]
    omega
  | onWrite =>
    cases hl
    cases hw : x.write with
    | idle | pending | handled => simp [onWrite,hw] at hy
    | ended ec =>
      simp only [onWrite,hw,Option.some.injEq] at hy
      subst hy
      have hle := x.deadline.left_cancel
      rw [left_release]
      simp only [left,responseLeft,hw,Op.left_ended,Op.left_handled]
      omega
  | onDeadline =>
    cases hl
    cases hd : x.deadline with
    | idle | pending | handled => simp [onDeadline,hd] at hy
    | ended ec =>
      simp only [onDeadline,hd,Option.some.injEq] at hy
      subst hy
      rw [left_release]
      simp only [left,responseLeft,hd,Op.left_ended,Op.left_handled]
      omega

theorem onRead_left (h : x.Sound) {now : Int} {count count' : UInt64}
    (hy : x.onRead now count = some (y,count')) : y.left < x.left := by
  cases hr : x.read with
  | idle | pending | handled => simp [onRead,hr] at hy
  | ended a =>
    obtain ⟨ec,request⟩ := a
    have hidle := h.not_writing (by simp [hr])
    simp only [onRead,hr] at hy
    split_ifs at hy <;> cases hy <;> rw [left_release] <;>
      simp [left,responseLeft,hr,hidle,Op.waits]

lemma left_le (x : Connection) : x.left ≤ 7 + x.unread := by
  have hop : ∀ {α : Type} (o : Op α), o.left ≤ 2 := by
    intro α o
    cases o <;> simp
  have hread := hop x.read
  have hdeadline := hop x.deadline
  have hresponse : x.responseLeft ≤ 2 := by
    unfold responseLeft
    split
    · split_ifs <;> omega
    · exact hop _
  have hclient := x.client.toNat_le
  unfold left
  omega

lemma sum_left_le (xs : List Connection) :
    (xs.map left).sum ≤ 7 * xs.length + (xs.map unread).sum := by
  induction xs with
  | nil => exact Nat.le_refl 0
  | cons x xs ih =>
    have hle := x.left_le
    rw [List.map_cons,List.map_cons,List.sum_cons,List.sum_cons,List.length_cons]
    omega

end Connection

/-- The step is the handler of an accept. -/
def Act.accepts : Act → Bool
  | onAccept _ => true
  | _ => false

namespace Server

/-- So many steps are left to all connections. -/
def Left (n : ℕ) (s : Server) : Prop :=
  (∀ x ∈ s.conns, x.Sound) ∧ (s.conns.map Connection.left).sum = n

lemma left_step (n : ℕ) (s : Server) (l : Act) (t : Server) (hs : s.Left n)
    (hl : l.accepts = false) (h : machine.step s l = some t) : ∃ m < n + l.unread, t.Left m := by
  obtain ⟨hsound,rfl⟩ := hs
  have hsound' := sound_preserved s l t hsound h
  refine ⟨_,?_,hsound',rfl⟩
  obtain ⟨-,hmoves⟩ := step_cases h
  cases hmoves with
  | refused | accepted => cases hl
  | @change _ c f x y hlc hx hy =>
    have hlt := Connection.change_left hlc hy
    have hsum := sum_map_set_add Connection.left hx y
    simp only
    omega
  | @read c now x y count hx hy =>
    have hlt := Connection.onRead_left (hsound x (List.mem_of_getElem? hx)) hy
    have hsum := sum_map_set_add Connection.left hx y
    simp only
    omega

/-- A step of a connection is one of the server, unless it is a handler and the thread is in a
destructor. -/
lemma exists_step {s : Server} {l : Act} {c : ℕ} {f : Connection → Option Connection}
    {x y : Connection} (hl : l.change = some (c,f)) (hx : s.conns[c]? = some x) (hy : f x = some y)
    (hfree : l.handler = true → s.blocked = false) : ∃ t, machine.step s l = some t := by
  have hguard : (l.handler && s.blocked) = false := by
    cases hh : l.handler with
    | false => rfl
    | true => simp [hfree hh]
  cases l with
  | onAccept | onRead => cases hl
  | readEnds | writeEnds | expires | clientReads | clientLeaves | onWrite | onDeadline =>
    cases hl
    simp [machine,step,hguard,update,stepAt,hx,hy]

/-- A connection to which a reference is left has a step to go. -/
lemma held_step {s : Server} (hfree : s.blocked = false) {c : ℕ} {x : Connection}
    (hx : s.conns[c]? = some x) (hheld : x.held = true) :
    ∃ l t, l.accepts = false ∧ machine.step s l = some t := by
  have hfailed : (⟨errorOperationAborted⟩ : ErrorCode).failed = true := by decide
  have hchange : ∀ {l : Act} {f : Connection → Option Connection} {y : Connection},
      l.change = some (c,f) → f x = some y → l.accepts = false →
      ∃ l t, l.accepts = false ∧ machine.step s l = some t := by
    intro l f y hl hy haccepts
    obtain ⟨t,ht⟩ := exists_step hl hx hy fun _ => hfree
    exact ⟨l,t,haccepts,ht⟩
  simp only [Connection.held,Bool.or_eq_true] at hheld
  obtain (hread | hwrite) | hdeadline := hheld
  · cases hr : x.read with
    | idle | handled => simp [hr,Op.waits] at hread
    | pending =>
      have hy : x.readEnds ⟨errorOperationAborted⟩ {} = some _ := if_pos ⟨hr,fun _ => hfailed⟩
      exact hchange (l := .readEnds c ⟨errorOperationAborted⟩ {}) rfl hy rfl
    | ended a =>
      obtain ⟨r,hy⟩ : ∃ r, x.onRead 0 s.count = some r := by
        obtain ⟨ec,request⟩ := a
        simp only [Connection.onRead,hr]
        split_ifs <;> exact ⟨_,rfl⟩
      exact ⟨.onRead c 0,_,rfl,by simp [machine,step,hfree,hx,hy]; rfl⟩
  · cases hw : x.write with
    | idle | handled => simp [hw,Op.waits] at hwrite
    | pending =>
      have hy : x.writeEnds ⟨errorOperationAborted⟩ 0 = some _ := if_pos ⟨hw,fun _ => hfailed⟩
      exact hchange (l := .writeEnds c ⟨errorOperationAborted⟩ 0) rfl hy rfl
    | ended ec =>
      have hy : ∃ y, x.onWrite = some y := by simp [Connection.onWrite,hw]
      obtain ⟨y,hy⟩ := hy
      exact hchange (l := .onWrite c) rfl hy rfl
  · cases hd : x.deadline with
    | idle | handled => simp [hd,Op.waits] at hdeadline
    | pending =>
      have hy : x.expires = some _ := if_pos hd
      exact hchange (l := .expires c) rfl hy rfl
    | ended ec =>
      have hy : ∃ y, x.onDeadline = some y := by simp [Connection.onDeadline,hd]
      obtain ⟨y,hy⟩ := hy
      exact hchange (l := .onDeadline c) rfl hy rfl

/-- Unless further accepts are handled, at most seven steps are left for each connection
beside its client's reads, of which each takes a byte at least; and when no step is left,
every connection has ended and its pipe is closed. -/
theorem comes_to_rest (ls : List Act) {s : Server} (h : machine.run {} ls = some s) :
    (∀ ms t, machine.run s ms = some t → (∀ l ∈ ms, l.accepts = false) →
      ms.length ≤ 7 * s.conns.length + (s.conns.map Connection.unread).sum +
        (ms.map Act.unread).sum) ∧
    ((∀ l, l.accepts = false → machine.step s l = none) →
      ∀ x ∈ s.conns, x.held = false ∧ x.socket = .closed) := by
  have hsound := sound_preserved.run h (by simp)
  refine ⟨fun ms t ht hms => ?_,fun hstuck x hx => ?_⟩
  · have hle := Connection.sum_left_le s.conns
    have hlength := Machine.length_le_of_gains left_step ht ⟨hsound,rfl⟩
      ((Machine.along_label_iff ht).mpr hms)
    omega
  · have hfree : s.blocked = false := by
      by_contra hne
      obtain ⟨c,n,hc⟩ := blocked_iff.mp ((Bool.not_eq_false _).mp hne)
      obtain ⟨y,hy,hf,rfl⟩ := hc
      obtain ⟨hpos,-⟩ := (hsound y (List.mem_of_getElem? hy)).flushing hf
      obtain ⟨t,ht⟩ := Flushes.clientReads hsound ⟨y,hy,hf,rfl⟩ hpos (Nat.le_refl _)
      exact absurd ((hstuck (.clientReads c y.unread) rfl).symm.trans ht) (by simp)
    obtain ⟨c,hc⟩ := List.mem_iff_getElem?.mp hx
    have hheld : x.held = false := by
      by_contra hne
      obtain ⟨l,t,hl,ht⟩ := held_step hfree hc ((Bool.not_eq_false _).mp hne)
      exact absurd ((hstuck l hl).symm.trans ht) (by simp)
    refine ⟨hheld,?_⟩
    cases hs : x.socket with
    | closed => rfl
    | opened => exact absurd (((hsound x hx).opened hs).symm.trans hheld) Bool.true_eq_false.mp
    | flushing => exact absurd ⟨x,hc,hs,rfl⟩ (not_flushes hfree c x.unread)

theorem comes_to_rest_unreadResponse : ∃ s, machine.run {} unreadResponse = some s ∧
    ∀ ms t, machine.run s ms = some t → (∀ l ∈ ms, l.accepts = false) →
      ms.length ≤ 7 * 2 + 90 + (ms.map Act.unread).sum :=
  ⟨_,rfl,(comes_to_rest unreadResponse rfl).1⟩

end Server
end Winext.Beast
