import Winext.NamedPipe.SessionPipes

/-! The accept loop of an echo server, watched: a client whose connect falls between
ConnectNamedPipe and `assign` is missed, and an instance whose client has left before
ConnectNamedPipe is left to nobody. What the loop does next depends on nothing else. -/
namespace Winext
open Lib Details

namespace PipeInstance
variable {x y : PipeInstance} {k : PipeStep}

/-- An instance is open until nothing refers to its session. -/
def Kept (x : PipeInstance) : Prop :=
  match x.session with
  | none => x.closed = false
  | some s => x.closed = !s.held

lemma step_session (h : step k x = some y) : y.session = none ↔ x.session = none := by
  cases step_cases h with
  | client => exact Iff.rfl
  | readEnds hs _ hy =>
    obtain ⟨r,-,rfl⟩ := Option.map_eq_some_iff.mp hy
    simp [hs]
  | writes hs | readFails hs | writeFails _ hs | runHandler hs => simp [writes,keep,hs]

/-- `make_shared`'s temporary is ended by the accept handler alone. -/
lemma step_temporary (h : step k x = some y) :
    y.session.map Session.temporary = x.session.map Session.temporary := by
  cases step_cases h with
  | client => rfl
  | readEnds hs _ hy =>
    obtain ⟨r,-,rfl⟩ := Option.map_eq_some_iff.mp hy
    simp [hs]
  | writes hs | readFails hs | writeFails _ hs => simp [writes,hs]
  | @runHandler s t hs ht =>
    have hsame : t.temporary = s.temporary := by
      cases hop : s.op with
      | readEnded ec length =>
        simp only [Session.handler,hop,Option.some.injEq] at ht
        subst ht
        split_ifs <;> rfl
      | writeEnded ec =>
        simp only [Session.handler,hop,Option.some.injEq] at ht
        subst ht
        split_ifs <;> rfl
      | idle | reading | writing | stopped =>
        simp only [Session.handler,hop] at ht
        cases ht
    simp [keep,hs,hsame]

/-- No step brings a session back to where it was made. -/
lemma step_idle (h : step k x = some y) (hy : y.session.map Session.op = some .idle) :
    x.session.map Session.op = some .idle := by
  cases step_cases h with
  | client => exact hy
  | readEnds hs _ hr =>
    obtain ⟨r,-,rfl⟩ := Option.map_eq_some_iff.mp hr
    simp at hy
  | writes =>
    simp only [writes,Option.map_some,Option.some.injEq] at hy
    split_ifs at hy
  | readFails | writeFails => simp at hy
  | @runHandler s t hs ht =>
    simp only [keep,Option.map_some,Option.some.injEq] at hy
    cases hop : s.op with
    | readEnded ec length =>
      simp only [Session.handler,hop,Option.some.injEq] at ht
      subst ht
      by_cases hec : ec.failed = true
      · simp [hec] at hy
      · by_cases hlen : length = 0 <;> simp [hec,hlen,Session.doWrite] at hy
    | writeEnded ec =>
      simp only [Session.handler,hop,Option.some.injEq] at ht
      subst ht
      by_cases hec : ec.failed = true <;> simp [hec,Session.doRead] at hy
    | idle | reading | writing | stopped =>
      simp only [Session.handler,hop] at ht
      cases ht

/-- Operations that the system ends leave their session with what it holds. -/
lemma step_kept (h : step k x = some y) (hx : x.Kept) : y.Kept := by
  cases step_cases h with
  | client =>
    simp only [Kept] at hx ⊢
    exact hx
  | readEnds hs hop hy =>
    obtain ⟨r,-,rfl⟩ := Option.map_eq_some_iff.mp hy
    simpa [Kept,hs,Session.held,hop,SessionOp.holds] using hx
  | @writes s length done count hs hop =>
    simp only [Kept,hs,Session.held,hop,SessionOp.holds] at hx
    simp only [Kept,writes,Session.held,hx]
    split_ifs <;> rfl
  | readFails hs hop | writeFails _ hs hop =>
    simpa [Kept,hs,Session.held,hop,SessionOp.holds] using hx
  | @runHandler s t hs ht =>
    have hheld : s.held = true := by
      cases hop : s.op with
      | readEnded | writeEnded => simp [Session.held,hop,SessionOp.holds]
      | idle | reading | writing | stopped =>
        simp only [Session.handler,hop] at ht
        cases ht
    simp only [Kept,hs,hheld] at hx
    simp [Kept,keep,hx]

/-- The operations of a session leave its client where it is. -/
lemma operation_client {s : Session} (hs : x.session = some s) (h : step k x = some y)
    (hk : k = .readEnds ∨ (∃ n, k = .writes n) ∨ (∃ e, k = .fails e) ∨ k = .runHandler) :
    y.client = x.client := by
  obtain rfl | ⟨n,rfl⟩ | ⟨e,rfl⟩ | rfl := hk
  · simp only [step,hs] at h
    split_ifs at h
    obtain ⟨r,-,rfl⟩ := Option.map_eq_some_iff.mp h
    rfl
  · cases hop : s.op with
    | writing length done =>
      simp only [step,hs,hop] at h
      split_ifs at h
      cases h
      rfl
    | idle | reading | readEnded | writeEnded | stopped => simp [step,hs,hop] at h
  · cases hop : s.op with
    | reading | writing =>
      simp only [step,hs,hop] at h
      split_ifs at h
      cases h
      rfl
    | idle | readEnded | writeEnded | stopped => simp [step,hs,hop] at h
  · simp only [step,hs] at h
    obtain ⟨t,-,rfl⟩ := Option.map_eq_some_iff.mp h
    rfl

/-- The client of an instance comes once, and by connecting. -/
lemma step_client (h : step k x = some y) :
    (x.client ≠ .absent → y.client ≠ .absent) ∧ (x.client = .gone → y.client = .gone) ∧
      (k ≠ .clientConnects → x.client = .absent → y.client = .absent) := by
  cases k with
  | clientConnects | clientWrites | clientDisconnects =>
    simp only [step] at h
    split_ifs at h with hc
    cases h
    simp_all
  | readEnds | writes | fails | runHandler =>
    cases hs : x.session with
    | none => simp [step,hs] at h
    | some s =>
      rw [operation_client hs h (by simp)]
      exact ⟨id,id,fun _ => id⟩

end PipeInstance

namespace EchoWorld

/-- The client connects between ConnectNamedPipe and `assign`. -/
def Misses (w : EchoWorld) (i : ℕ) (k : PipeStep) : Prop :=
  k = .clientConnects ∧ w.connecting = some i ∧ w.pipe ≠ some i

instance (w : EchoWorld) (i : ℕ) (k : PipeStep) : Decidable (w.Misses i k) :=
  inferInstanceAs (Decidable (_ ∧ _ ∧ _))

/-- The instance whose client has left before ConnectNamedPipe. -/
def leaves (w : EchoWorld) : LoopCall → List ℕ
  | .server (.connectNamedPipe (.pipe i)) =>
    if w.instances[i]?.map PipeInstance.client = some .gone then [i] else []
  | _ => []

end EchoWorld

/-- The loop's world, the first client that it has missed and the instances left to nobody. -/
structure Watched where
  world : EchoWorld
  missed : Option ℕ := none
  leaked : List ℕ := []

namespace Watched

def interfere (s : Watched) (l : ℕ × PipeStep) : Option Watched :=
  (stepAt s.world.instances l.1 (PipeInstance.step l.2)).map fun xs =>
    { s with
      world := ({ s.world with instances := xs }).afterStep l.1 l.2
      missed := s.missed.or (if s.world.Misses l.1 l.2 then some l.1 else none) }

def others : Machine Watched (ℕ × PipeStep) := ⟨interfere⟩

def after (s : Watched) (output : Dword → Dword) (o : Overload) (c : LoopCall) : Watched :=
  { s with world := (s.world.perform output o c).2, leaked := s.world.leaves c ++ s.leaked }

def environment (output : Dword → Dword) (o : Overload) :
    Environment LoopCall LoopCall.Answer Watched (ℕ × PipeStep) where
  perform c s := some ((s.world.perform output o c).1,s.after output o c)
  interfere := interfere

def served (s : Watched) (output : Dword → Dword) (c : ServerCall) : Watched :=
  { s with
    world := (s.world.performServer output c).2
    leaked := s.world.leaves (.server c) ++ s.leaked }

def serverEnvironment (output : Dword → Dword) :
    Environment ServerCall ServerCall.Answer Watched (ℕ × PipeStep) where
  perform c s := some ((s.world.performServer output c).1,s.served output c)
  interfere := interfere

/-- An instance without a session whose client is like this. -/
def At (s : Watched) (i : ℕ) (φ : Peer → Prop) : Prop :=
  ∃ x, s.world.instances[i]? = some x ∧ x.session = none ∧ φ x.client

/-- Every instance has a session, but the current one and those that are left to nobody. -/
structure Books (s : Watched) (cur : Option ℕ) : Prop where
  kept : ∀ x ∈ s.world.instances, x.Kept
  others : ∀ i x, s.world.instances[i]? = some x → x.session = none → cur = some i ∨ i ∈ s.leaked
  leaked : ∀ i ∈ s.leaked, cur ≠ some i ∧ s.At i (· = .gone)

/-- A connect is not waited for, or its client has come. -/
def Settled (s : Watched) : Prop :=
  ∀ i x, s.world.connecting = some i → s.world.instances[i]? = some x → x.client ≠ .absent

/-- Every session has been started, but that of this instance. -/
def Running (s : Watched) (fresh : Option ℕ) : Prop :=
  ∀ i x, s.world.instances[i]? = some x → x.session.map Session.op = some .idle → fresh = some i

/-- What the loop holds between two of its calls. -/
structure Place where
  cur : Option ℕ := none
  fresh : Option ℕ := none
  pipe : Option ℕ := none
  socket : Option ℕ := none
  connecting : Option ℕ := none
  ov : Overlapped := {}
  missed : Option ℕ := none

/-- A connect has been issued on instance `n`, and this has become of it. -/
def Place.asked (n : ℕ) (pipe : Option ℕ) (ov : Overlapped) (missed : Option ℕ) : Place where
  cur := some n
  pipe := pipe
  connecting := some n
  ov := ov
  missed := missed

/-- The client of instance `n` has come before ConnectNamedPipe. -/
def Place.came (n : ℕ) : Place := asked n none { io := .returned errorPipeConnected 0 } none

/-- It has come and gone, and the instance is left to nobody. -/
def Place.left (n : ℕ) : Place where
  connecting := some n
  ov := { io := .returned errorNoData 0 }

structure Stands (p : Place) (s : Watched) : Prop where
  books : s.Books p.cur
  running : s.Running p.fresh
  pipe_eq : s.world.pipe = p.pipe
  socket_eq : s.world.socket = p.socket
  connecting_eq : s.world.connecting = p.connecting
  ov_eq : s.world.ov = p.ov
  missed_eq : s.missed = p.missed

/-- Everything that happens beside the loop's calls: the client that a pending connect waits
for connects, or an instance takes another step. -/
inductive Interferes (s : Watched) : Watched → Prop
  | connects {i : ℕ} {x y : PipeInstance} (hx : s.world.instances[i]? = some x)
    (habsent : x.client = .absent) (hi : s.world.connecting = some i)
    (hy : PipeInstance.step .clientConnects x = some y) : Interferes s { s with
      world := { s.world with
        instances := s.world.instances.set i y
        ov := (s.world.ov.finish noError 0 (s.world.pipe = some i)).getD s.world.ov }
      missed := s.missed.or (if s.world.pipe = some i then none else some i) }
  | other {i : ℕ} {k : PipeStep} {x y : PipeInstance} (hx : s.world.instances[i]? = some x)
    (hy : PipeInstance.step k x = some y)
    (hne : k = .clientConnects → s.world.connecting ≠ some i) : Interferes s { s with
      world := { s.world with instances := s.world.instances.set i y } }

theorem interfere_cases {s t : Watched} {l : ℕ × PipeStep} (h : s.interfere l = some t) :
    Interferes s t := by
  obtain ⟨i,k⟩ := l
  obtain ⟨xs,hxs,rfl⟩ := Option.map_eq_some_iff.mp h
  obtain ⟨x,y,hx,hy,rfl⟩ := stepAt_eq_some.mp hxs
  by_cases hc : k = .clientConnects ∧ s.world.connecting = some i
  · obtain ⟨rfl,hi⟩ := hc
    have habsent : x.client = .absent := by
      simp only [PipeInstance.step] at hy
      split_ifs at hy with ha
      exact ha.1
    have hmiss : (if s.world.Misses i .clientConnects then some i else none) =
        if s.world.pipe = some i then none else some i := by
      by_cases hp : s.world.pipe = some i <;> simp [EchoWorld.Misses,hi,hp]
    simp only [EchoWorld.afterStep,true_and,if_pos hi,hmiss]
    exact .connects hx habsent hi hy
  · have hmiss : ¬s.world.Misses i k := fun hm => hc ⟨hm.1,hm.2.1⟩
    simp only [EchoWorld.afterStep,if_neg hc,if_neg hmiss,Option.or_none]
    exact .other hx hy fun hk hi => hc ⟨hk,hi⟩

section Stable
variable {s t : Watched} {i n : ℕ} {k : PipeStep} {x y : PipeInstance} {φ : Peer → Prop}
variable {cur pipe connecting missed : Option ℕ} {ov : Overlapped}

lemma At.set (h : s.At n φ) (hx : s.world.instances[i]? = some x)
    (hy : PipeInstance.step k x = some y) (hφ : i = n → φ x.client → φ y.client)
    (ht : t.world.instances = s.world.instances.set i y) : t.At n φ := by
  obtain ⟨z,hz,hs,hzφ⟩ := h
  by_cases hin : i = n
  · subst hin
    cases hx.symm.trans hz
    refine ⟨y,?_,(PipeInstance.step_session hy).mpr hs,hφ rfl hzφ⟩
    rw [ht,List.getElem?_set_self (List.getElem?_eq_some_iff.mp hx).1]
  · exact ⟨z,by rw [ht,List.getElem?_set_ne hin,hz],hs,hzφ⟩

lemma Books.set (h : s.Books cur) (hx : s.world.instances[i]? = some x)
    (hy : PipeInstance.step k x = some y) (ht : t.world.instances = s.world.instances.set i y)
    (hleaked : t.leaked = s.leaked) : t.Books cur := by
  refine ⟨fun z hz => ?_,fun j z hz hs => ?_,fun j hj => ?_⟩
  · rw [ht] at hz
    obtain hz | rfl := List.mem_or_eq_of_mem_set hz
    · exact h.kept z hz
    · exact PipeInstance.step_kept hy (h.kept x (List.mem_of_getElem? hx))
  · rw [ht] at hz
    rw [hleaked]
    by_cases hij : i = j
    · subst hij
      rw [List.getElem?_set_self (List.getElem?_eq_some_iff.mp hx).1] at hz
      cases hz
      exact h.others i x hx ((PipeInstance.step_session hy).mp hs)
    · rw [List.getElem?_set_ne hij] at hz
      exact h.others j z hz hs
  · rw [hleaked] at hj
    obtain ⟨hne,hgone⟩ := h.leaked j hj
    exact ⟨hne,hgone.set hx hy (fun _ => (PipeInstance.step_client hy).2.1) ht⟩

lemma Running.set {fresh : Option ℕ} (h : s.Running fresh) (hx : s.world.instances[i]? = some x)
    (hy : PipeInstance.step k x = some y) (ht : t.world.instances = s.world.instances.set i y) :
    t.Running fresh := by
  intro j z hz hidle
  rw [ht] at hz
  by_cases hij : i = j
  · subst hij
    rw [List.getElem?_set_self (List.getElem?_eq_some_iff.mp hx).1] at hz
    cases hz
    exact h i x hx (PipeInstance.step_idle hy hidle)
  · rw [List.getElem?_set_ne hij] at hz
    exact h j z hz hidle

lemma Stands.set {p : Place} (h : s.Stands p) (hx : s.world.instances[i]? = some x)
    (hy : PipeInstance.step k x = some y) : Stands p { s with
      world := { s.world with instances := s.world.instances.set i y } } :=
  ⟨h.books.set hx hy rfl rfl,h.running.set hx hy rfl,h.pipe_eq,h.socket_eq,h.connecting_eq,h.ov_eq,
    h.missed_eq⟩

lemma Settled.set (h : s.Settled) (hx : s.world.instances[i]? = some x)
    (hy : PipeInstance.step k x = some y) : Settled { s with
      world := { s.world with instances := s.world.instances.set i y } } := by
  intro j z hj hz
  by_cases hij : i = j
  · subst hij
    rw [List.getElem?_set_self (List.getElem?_eq_some_iff.mp hx).1] at hz
    cases hz
    exact (PipeInstance.step_client hy).1 (h i x hj hx)
  · rw [List.getElem?_set_ne hij] at hz
    exact h j z hj hz

lemma At.settled (h : s.At n (· ≠ .absent)) (hn : s.world.connecting = some n) : s.Settled := by
  intro i x hi hx
  cases hn.symm.trans hi
  obtain ⟨z,hz,-,hne⟩ := h
  cases hx.symm.trans hz
  exact hne

/-- Where no connect is waited for, others leave the loop as it is. -/
theorem settled_stable {p : Place} :
    others.Preserves fun s => s.Stands p ∧ s.Settled := by
  rintro s l t ⟨hs,hset⟩ h
  cases interfere_cases h with
  | connects hx habsent hi => exact absurd habsent (hset _ _ hi hx)
  | other hx hy => exact ⟨hs.set hx hy,hset.set hx hy⟩

/-- What steps of an instance cannot undo stays true of its client. -/
theorem at_stable (hφ : ∀ k x y, PipeInstance.step k x = some y → φ x.client → φ y.client) :
    others.Preserves fun s => s.At n φ := by
  intro s l t hs h
  cases interfere_cases h with
  | connects hx _ _ hy | other hx hy => exact hs.set hx hy (fun _ => hφ _ _ _ hy) rfl

/-- A connect whose client has come, as an OVERLAPPED tells it, stays so. -/
theorem came_stable {p : Place} (hp : p.connecting = some n) :
    others.Preserves fun s => s.Stands p ∧ s.At n (· ≠ .absent) := by
  rintro s l t ⟨hs,hn⟩ h
  have hsettled := settled_stable s l t ⟨hs,hn.settled (hs.connecting_eq.trans hp)⟩ h
  exact ⟨hsettled.1,at_stable (fun _ _ _ hy => (PipeInstance.step_client hy).1) s l t hn h⟩

/-- What has become of a connect that was left pending on instance `n`. -/
inductive Asked (n : ℕ) (pipe : Option ℕ) (handed : Bool) (s : Watched) : Prop
  | waits (hs : s.Stands (.asked n pipe { io := .pending, handedOver := handed } none))
    (hn : s.At n (· = .absent))
  | comes (hpipe : pipe = some n) (hs : s.Stands (.asked n pipe
      { io := .finished noError 0, packets := [⟨{},0⟩], handedOver := handed } none))
    (hn : s.At n (· ≠ .absent))
  | missed (hs : s.Stands (.asked n pipe
      { io := .finished noError 0, handedOver := handed } (some n)))
    (hn : s.At n (· ≠ .absent))

theorem asked_stable {pipe : Option ℕ} {handed : Bool} :
    others.Preserves (Asked n pipe handed) := by
  intro s l t hs h
  cases hs with
  | comes hpipe hs hn =>
    obtain ⟨ht,hn⟩ := came_stable rfl s l t ⟨hs,hn⟩ h
    exact .comes hpipe ht hn
  | missed hs hn =>
    obtain ⟨ht,hn⟩ := came_stable rfl s l t ⟨hs,hn⟩ h
    exact .missed ht hn
  | waits hs hn =>
    cases interfere_cases h with
    | other hx hy hne =>
      refine .waits (hs.set hx hy) (hn.set hx hy (fun hin => ?_) rfl)
      exact (PipeInstance.step_client hy).2.2 fun hk => hne hk (hin ▸ hs.connecting_eq)
    | @connects i x y hx habsent hi hy =>
      rw [hs.connecting_eq] at hi
      cases hi
      have hcame : y.client ≠ .absent := by
        simp only [PipeInstance.step] at hy
        split_ifs at hy
        cases hy
        simp
      have hat : ∀ {u : Watched}, u.world.instances = s.world.instances.set n y →
          u.At n (· ≠ .absent) := by
        intro u hu
        obtain ⟨z,hz,hnone,-⟩ := hn
        cases hx.symm.trans hz
        refine ⟨y,?_,(PipeInstance.step_session hy).mpr hnone,hcame⟩
        rw [hu,List.getElem?_set_self (List.getElem?_eq_some_iff.mp hx).1]
      have hbooks : ∀ {u : Watched}, u.world.instances = s.world.instances.set n y →
          u.leaked = s.leaked → u.Books (some n) := hs.books.set hx hy
      have hov : s.world.ov = { io := .pending, handedOver := handed } := hs.ov_eq
      have hpipe : s.world.pipe = pipe := hs.pipe_eq
      have hmissed : s.missed = none := hs.missed_eq
      by_cases hp : pipe = some n
      · refine .comes hp ⟨hbooks rfl rfl,hs.running.set hx hy rfl,hs.pipe_eq,hs.socket_eq,
          hs.connecting_eq,?_,?_⟩ (hat rfl)
        · simp [hov,hpipe,hp,Overlapped.finish,Place.asked,noError]
        · simp [hpipe,hp,hmissed,Place.asked]
      · refine .missed ⟨hbooks rfl rfl,hs.running.set hx hy rfl,hs.pipe_eq,hs.socket_eq,
          hs.connecting_eq,?_,?_⟩ (hat rfl)
        · simp [hov,hpipe,hp,Overlapped.finish,Place.asked]
        · simp [hpipe,hp,hmissed,Place.asked]

theorem lastError_stable (e : Dword) :
    others.Preserves fun s => s.world.lastError = e := by
  intro s l t hs h
  cases interfere_cases h with
  | connects | other => exact hs

end Stable

section Calls
variable {output : Dword → Dword} {s : Watched} {P : Watched → Prop}

theorem guaranteed_served {α : Type} {Q : α → Watched → Prop} {c : ServerCall}
    {next : c.Answer → ServerProgram α} (hstable : others.Preserves P) (hs : P s)
    (hnext : ∀ t, P t → (serverEnvironment output).Guaranteed Q
      (next (t.world.performServer output c).1) (t.served output c)) :
    (serverEnvironment output).Guaranteed Q (.call c next) s := by
  have hown : (serverEnvironment output).alone.Preserves P := hstable
  refine Environment.Guaranteed.ofCall P hown hs fun t a u ht hr => ?_
  cases hr
  exact hnext t ht

theorem guaranteed_read {α : Type} {Q : α → Watched → Prop} {e : Dword}
    {next : Dword → ServerProgram α} (hstable : others.Preserves P)
    (hs : P s ∧ s.world.lastError = e)
    (hnext : ∀ t, P t ∧ t.world.lastError = e → (serverEnvironment output).Guaranteed Q (next e) t) :
    (serverEnvironment output).Guaranteed Q (.call .getLastError next) s := by
  refine guaranteed_served (hstable.and (lastError_stable e)) hs fun t ht => ?_
  rw [show (t.world.performServer output .getLastError).1 = t.world.lastError from rfl,ht.2]
  exact hnext t ht

/-- Diagnostic output that leaves this last error alone. -/
theorem guaranteed_shown {α : Type} {Q : α → Watched → Prop} {e : Dword} {text : String}
    {next : Unit → ServerProgram α} (hstable : others.Preserves P) (he : output e = e)
    (hprint : ∀ t, P t → P (t.served output (.print text))) (hs : P s ∧ s.world.lastError = e)
    (hnext : ∀ t, P t ∧ t.world.lastError = e →
      (serverEnvironment output).Guaranteed Q (next ()) t) :
    (serverEnvironment output).Guaranteed Q (.call (.print text) next) s := by
  refine guaranteed_served (hstable.and (lastError_stable e)) hs fun t ht => hnext _ ?_
  exact ⟨hprint t ht.1,(congrArg output ht.2).trans he⟩

lemma Stands.print {p : Place} {text : String} (h : s.Stands p) :
    (s.served output (.print text)).Stands p :=
  ⟨⟨h.books.kept,h.books.others,h.books.leaked⟩,h.running,h.pipe_eq,h.socket_eq,h.connecting_eq,
    h.ov_eq,h.missed_eq⟩

lemma Books.created {endpoint : String} {settings : PipeSettings} (h : s.Books none) :
    (s.served output (.createNamedPipe endpoint settings)).Books
      (some s.world.instances.length) := by
  refine ⟨fun x hx => ?_,fun i x hx hnone => ?_,fun i hi => ?_⟩
  · obtain hx | hx := List.mem_append.mp hx
    · exact h.kept x hx
    · rw [List.mem_singleton.mp hx]
      rfl
  · by_cases hlt : i < s.world.instances.length
    · obtain hc | hi := h.others i x ((List.getElem?_append_left hlt).symm.trans hx) hnone
      · cases hc
      · exact Or.inr hi
    · obtain ⟨hi,-⟩ := List.getElem?_eq_some_iff.mp hx
      rw [show (s.served output (.createNamedPipe endpoint settings)).world.instances =
        s.world.instances ++ _ from rfl,List.length_append,List.length_singleton] at hi
      exact Or.inl (congrArg some (by omega))
  · obtain ⟨-,x,hx,hleft⟩ := h.leaked i hi
    have hlt := (List.getElem?_eq_some_iff.mp hx).1
    refine ⟨fun he => Nat.ne_of_lt hlt (Option.some.inj he).symm,x,?_,hleft⟩
    exact (List.getElem?_append_left hlt).trans hx

lemma Running.created {endpoint : String} {settings : PipeSettings} (h : s.Running none) :
    (s.served output (.createNamedPipe endpoint settings)).Running none := by
  intro i x hx hidle
  by_cases hlt : i < s.world.instances.length
  · exact h i x ((List.getElem?_append_left hlt).symm.trans hx) hidle
  · have hge := Nat.le_of_not_lt hlt
    obtain hx | hx := List.mem_append.mp (List.mem_of_getElem? hx)
    · obtain ⟨j,hj⟩ := List.mem_iff_getElem?.mp hx
      cases h j x hj hidle
    · rw [List.mem_singleton.mp hx] at hidle
      cases hidle

/-- What ConnectNamedPipe makes of an instance that was just created. -/
inductive Connects (output : Dword → Dword) (n : ℕ) (s t : Watched) : Prop
  | pends (hs : t.Stands (.asked n none { io := .pending } none)) (hn : t.At n (· = .absent))
    (he : t.world.lastError = errorIoPending)
  | came (hs : t.Stands (.came n)) (hn : t.At n (· ≠ .absent))
      (he : t.world.lastError = errorPipeConnected)
  | left (hs : t.Stands (.left n)) (hset : t.Settled) (he : t.world.lastError = errorNoData)

theorem connects_cases {n : ℕ} (hs : s.Stands { cur := some n }) (hn : s.At n fun _ => True) :
    Connects output n s (s.served output (.connectNamedPipe (.pipe n))) := by
  obtain ⟨x,hx,hnone,-⟩ := hn
  have hov : s.world.ov = {} := hs.ov_eq
  have hsame : ∀ {e : Dword} {ov : Overlapped}, x.client ≠ .gone →
      s.world.connectError (.pipe n) = e →
      (if e = errorIoPending then s.world.ov.pend else s.world.ov.refuse e) = ov →
      (s.served output (.connectNamedPipe (.pipe n))).Stands (.asked n none ov none) := by
    rintro e ov hclient rfl rfl
    have hleaves : s.world.leaves (.server (.connectNamedPipe (.pipe n))) = [] := by
      simp [EchoWorld.leaves,hx,hclient]
    refine ⟨⟨hs.books.kept,?_,?_⟩,hs.running,hs.pipe_eq,hs.socket_eq,rfl,rfl,hs.missed_eq⟩
    · simp only [served,hleaves,List.nil_append]
      exact hs.books.others
    · simp only [served,hleaves,List.nil_append]
      exact hs.books.leaked
  have hat : ∀ {φ : Peer → Prop}, φ x.client →
      (s.served output (.connectNamedPipe (.pipe n))).At n φ := fun hφ => ⟨x,hx,hnone,hφ⟩
  cases hclient : x.client with
  | absent =>
    have he : s.world.connectError (.pipe n) = errorIoPending := by
      simp [EchoWorld.connectError,hx,hclient]
    refine .pends (hsame (by simp [hclient]) he ?_) (hat hclient) he
    simp [hov,Overlapped.pend]
  | connected =>
    have he : s.world.connectError (.pipe n) = errorPipeConnected := by
      simp [EchoWorld.connectError,hx,hclient]
    refine .came (hsame (by simp [hclient]) he ?_) (hat (by simp [hclient])) he
    simp [hov,Overlapped.refuse]
  | gone =>
    have he : s.world.connectError (.pipe n) = errorNoData := by
      simp [EchoWorld.connectError,hx,hclient]
    have hleaves : s.world.leaves (.server (.connectNamedPipe (.pipe n))) = [n] := by
      simp [EchoWorld.leaves,hx,hclient]
    refine .left ⟨⟨hs.books.kept,fun i z hz hznone => ?_,fun i hi => ?_⟩,hs.running,hs.pipe_eq,
      hs.socket_eq,rfl,?_,hs.missed_eq⟩ ?_ he
    · simp only [served,hleaves,List.singleton_append,List.mem_cons]
      obtain hi | hi := hs.books.others i z hz hznone
      · exact Or.inr (Or.inl (Option.some.inj hi).symm)
      · exact Or.inr (Or.inr hi)
    · simp only [served,hleaves,List.singleton_append,List.mem_cons] at hi
      obtain rfl | hi := hi
      · exact ⟨by simp [Place.left],hat hclient⟩
      · obtain ⟨-,hgone⟩ := hs.books.leaked i hi
        exact ⟨by simp [Place.left],hgone⟩
    · have hne : errorNoData ≠ errorIoPending := by decide
      simp [served,EchoWorld.performServer,EchoWorld.connectNamedPipe,he,hne,hov,
        Overlapped.refuse,Place.left]
    · intro i z hi hz
      cases hi
      cases hx.symm.trans hz
      simp [hclient]

end Calls
end Watched
end Winext
