import Winext.NamedPipe.AcceptWatch

/-! What a watched accept comes to: it waits for its client or has it, it has failed, or it
has missed it and will never end. -/
namespace Winext
open Lib Details

namespace Watched
variable {output : Dword → Dword} {s t : Watched} {n : ℕ}

lemma Stands.settled {p : Place} (h : s.Stands p) (hp : p.connecting = none) : s.Settled := by
  intro i x hi
  rw [h.connecting_eq,hp] at hi
  cases hi

/-- What `accept_detail2` hands on. -/
inductive Detailed (out : Handle × ErrorCode) (t : Watched) : Prop
  | asked (n : ℕ) (hout : out = (.pipe n,{})) (h : t.Asked n none false)
  | came (n : ℕ) (hout : out = (.pipe n,⟨errorPipeConnected⟩))
    (hs : t.Stands (.came n)) (hn : t.At n (· ≠ .absent))
  | left (n : ℕ) (hout : out = (.pipe n,⟨errorNoData⟩)) (hs : t.Stands (.left n))
    (hset : t.Settled)

section Accept
variable (hconnected : output errorPipeConnected = errorPipeConnected)
variable (hnoData : output errorNoData = errorNoData)

include hconnected hnoData in
theorem acceptDetail2_watched (endpoint : String) (hs : s.Stands {}) :
    (serverEnvironment output).Guaranteed Detailed (acceptDetail2 .null endpoint {}) s := by
  simp only [acceptDetail2,Program.ask_bind]
  refine guaranteed_served settled_stable ⟨hs,hs.settled rfl⟩ fun t ht => ?_
  obtain ⟨ht,-⟩ := ht
  generalize hn : t.world.instances.length = n
  have hcreated : (t.served output (.createNamedPipe endpoint serverPipeSettings)).Stands
      { cur := some n } := by
    subst hn
    exact ⟨ht.books.created,ht.running.created,ht.pipe_eq,ht.socket_eq,ht.connecting_eq,ht.ov_eq,
      ht.missed_eq⟩
  have hat : (t.served output (.createNamedPipe endpoint serverPipeSettings)).At n
      fun _ => True := by
    subst hn
    exact ⟨_,List.getElem?_concat_length,rfl,trivial⟩
  have hanswer : (t.world.performServer output (.createNamedPipe endpoint serverPipeSettings)).1 =
      .pipe n := congrArg Handle.pipe hn
  rw [hanswer,if_neg (by simp)]
  have hstable : others.Preserves fun s => (s.Stands { cur := some n } ∧ s.Settled) ∧
      s.At n fun _ => True := settled_stable.and (at_stable fun _ _ _ _ => id)
  refine guaranteed_served hstable ⟨⟨hcreated,hcreated.settled rfl⟩,hat⟩ fun t ht => ?_
  have hcases : Connects output n t (t.served output (.connectNamedPipe (.pipe n))) :=
    connects_cases ht.1.1 ht.2
  generalize t.served output (.connectNamedPipe (.pipe n)) = u at hcases
  rw [show (t.world.performServer output (.connectNamedPipe (.pipe n))).1 = false from rfl,
    if_neg (by decide)]
  cases hcases with
  | pends hs hn he =>
    refine guaranteed_read asked_stable ⟨.waits hs hn,he⟩ fun t ht => ?_
    rw [if_pos rfl]
    exact Environment.Guaranteed.ofDone _ asked_stable ht.1 fun u hu => .asked n rfl hu
  | came hs hn he =>
    have hstable := came_stable (p := .came n) rfl
    refine guaranteed_read hstable ⟨⟨hs,hn⟩,he⟩ fun t ht => ?_
    rw [if_neg (by decide),if_pos rfl]
    refine guaranteed_shown hstable hconnected (fun t ht => ⟨ht.1.print,ht.2⟩) ht fun t ht => ?_
    refine guaranteed_read hstable ht fun t ht => ?_
    exact Environment.Guaranteed.ofDone _ hstable ht.1 fun u hu => .came n rfl hu.1 hu.2
  | left hs hset he =>
    have hstable := settled_stable (p := .left n)
    refine guaranteed_read hstable ⟨⟨hs,hset⟩,he⟩ fun t ht => ?_
    rw [if_neg (by decide),if_neg (by decide)]
    refine guaranteed_read hstable ht fun t ht => ?_
    refine guaranteed_shown hstable hnoData (fun t ht => ⟨ht.1.print,ht.2⟩) ht fun t ht => ?_
    refine guaranteed_read hstable ht fun t ht => ?_
    exact Environment.Guaranteed.ofDone _ hstable ht.1 fun u hu => .left n rfl hu.1 hu.2

end Accept

/-- An accept that has been begun: it waits for its client, has it or has missed it; or its
client came first; or it has failed. -/
inductive Begun (t : Watched) : Prop
  | asked (n : ℕ) (h : t.Asked n (some n) true)
  | early (n : ℕ) (hs : t.Stands { Place.came n with
      pipe := some n
      ov := ((Place.came n).ov).complete {} 0 }) (hn : t.At n (· ≠ .absent))
  | failed (n : ℕ) (hs : t.Stands { Place.left n with
      ov := ((Place.left n).ov).complete ⟨errorNoData⟩ 0 }) (hset : t.Settled)

/-- Every session has been started, and every other instance is the pipe's or left to nobody. -/
lemma Begun.books (h : t.Begun) : t.Books t.world.pipe ∧ t.Running none := by
  cases h with
  | asked n h =>
    cases h with
    | waits hs | comes _ hs | missed hs => exact ⟨hs.pipe_eq ▸ hs.books,hs.running⟩
  | early n hs | failed n hs => exact ⟨hs.pipe_eq ▸ hs.books,hs.running⟩

lemma assigned_eq (output : Dword → Dword) (n : ℕ) (h : t.world.pipe = none) :
    t.world.performServer output (.assign (.pipe n)) =
      (.ok (),{ t.world with pipe := some n }) := by
  simp only [EchoWorld.performServer,h]

lemma Stands.assign {p : Place} (h : s.Stands p) (hp : p.pipe = none) (n : ℕ) :
    (s.served output (.assign (.pipe n))).Stands { p with pipe := some n } := by
  rw [served,assigned_eq output n (h.pipe_eq.trans hp)]
  exact ⟨⟨h.books.kept,h.books.others,h.books.leaked⟩,h.running,rfl,h.socket_eq,h.connecting_eq,
    h.ov_eq,h.missed_eq⟩

lemma At.assign {φ : Peer → Prop} {m : ℕ} (h : s.At m φ) (hp : s.world.pipe = none) :
    (s.served output (.assign (.pipe n))).At m φ := by
  rw [served,assigned_eq output n hp]
  exact h

lemma Asked.assign (h : s.Asked n none false) :
    (s.served output (.assign (.pipe n))).Asked n (some n) false := by
  cases h with
  | waits hs hn => exact .waits (hs.assign rfl n) (hn.assign hs.pipe_eq)
  | comes hpipe => cases hpipe
  | missed hs hn => exact .missed (hs.assign rfl n) (hn.assign hs.pipe_eq)

/-- What completing or releasing does to the OVERLAPPED is all that it does. -/
lemma Stands.hand {p : Place} (h : s.Stands p) {c : ServerCall} {f : Overlapped → Overlapped}
    (hc : s.served output c = { s with world := { s.world with ov := f s.world.ov } }) :
    (s.served output c).Stands { p with ov := f p.ov } := by
  rw [hc]
  exact ⟨⟨h.books.kept,h.books.others,h.books.leaked⟩,h.running,h.pipe_eq,h.socket_eq,
    h.connecting_eq,congrArg f h.ov_eq,h.missed_eq⟩

lemma Asked.release (h : s.Asked n (some n) false) :
    (s.served output .release).Asked n (some n) true := by
  cases h with
  | waits hs hn => exact .waits (hs.hand (f := Overlapped.release) rfl) hn
  | comes hpipe hs hn => exact .comes hpipe (hs.hand (f := Overlapped.release) rfl) hn
  | missed hs hn => exact .missed (hs.hand (f := Overlapped.release) rfl) hn

/-- The accept is begun, and nothing was thrown. -/
def Accepts (a : Except Thrown Unit) (t : Watched) : Prop := a = .ok () ∧ t.Begun

theorem handOver_watched {out : Handle × ErrorCode} (h : s.Detailed out) :
    (serverEnvironment output).Guaranteed Accepts (handOver out.1 out.2) s := by
  simp only [handOver,Program.ask_bind]
  cases h with
  | asked n hout h =>
    subst hout
    rw [if_neg (show ¬(ErrorCode.failed {} = true) by decide)]
    refine guaranteed_served asked_stable h fun t ht => ?_
    have hpipe : t.world.pipe = none := by
      cases ht with
      | waits hs | comes _ hs | missed hs => exact hs.pipe_eq
    rw [assigned_eq output n hpipe]
    refine guaranteed_served asked_stable ht.assign fun t ht => ?_
    exact Environment.Guaranteed.ofDone _ asked_stable ht.release fun u hu => ⟨rfl,.asked n hu⟩
  | came n hout hs hn =>
    subst hout
    rw [if_pos (show ErrorCode.failed ⟨errorPipeConnected⟩ = true by decide),if_pos rfl]
    have hstable : others.Preserves fun s => s.Stands (.came n) ∧ s.At n (· ≠ .absent) :=
      came_stable rfl
    refine guaranteed_served hstable ⟨hs,hn⟩ fun t ht => ?_
    rw [assigned_eq output n ht.1.pipe_eq]
    refine guaranteed_served (came_stable rfl) ⟨ht.1.assign rfl n,ht.2.assign ht.1.pipe_eq⟩
      fun t ht => ?_
    refine Environment.Guaranteed.ofDone _ (came_stable rfl)
      ⟨ht.1.hand (f := fun o => o.complete {} 0) rfl,ht.2⟩ fun u hu => ⟨rfl,.early n hu.1 hu.2⟩
  | left n hout hs hset =>
    subst hout
    rw [if_pos (show ErrorCode.failed ⟨errorNoData⟩ = true by decide),
      if_neg (show ¬errorNoData = errorPipeConnected by decide)]
    have hstable : others.Preserves fun s => s.Stands (.left n) ∧ s.Settled := settled_stable
    refine guaranteed_served hstable ⟨hs,hset⟩ fun t ht => ?_
    refine guaranteed_served hstable ⟨ht.1.print,ht.2⟩ fun t ht => ?_
    refine Environment.Guaranteed.ofDone _ settled_stable
      ⟨ht.1.hand (f := fun o => o.complete ⟨errorNoData⟩ 0) rfl,ht.2⟩
      fun u hu => ⟨rfl,.failed n hu.1 hu.2⟩

/-- The accept's own calls are calls of the loop. -/
theorem guaranteed_ofServer (o : Overload) {Q : Except Thrown Unit → Watched → Prop}
    {p : ServerProgram (Except Thrown Unit)} (h : (serverEnvironment output).Guaranteed Q p s) :
    (environment output o).Guaranteed Q (LoopProgram.ofServer p) s := by
  induction p generalizing s with
  | done a => exact h
  | call c next ih =>
    intro ls t ht r hr
    cases hr
    exact ih _ (h ls t ht _ rfl)

/-- The loop holds no pipe, and waits for no client. -/
def Idle (s : Watched) : Prop :=
  ∃ connecting ov, s.Stands { connecting := connecting, ov := ov } ∧ s.Settled

lemma idle_stable : others.Preserves Idle := by
  rintro s l t ⟨c,ov,h⟩ hstep
  exact ⟨c,ov,settled_stable s l t h hstep⟩

section Accept
variable (hconnected : output errorPipeConnected = errorPipeConnected)
variable (hnoData : output errorNoData = errorNoData)
include hconnected hnoData

theorem asyncAccept_watched (o : Overload) (endpoint : String) (hs : s.Idle) :
    (serverEnvironment output).Guaranteed Accepts (o.asyncAccept endpoint) s := by
  rw [o.asyncAccept_eq,acceptOperator,if_neg (by decide),Program.ask_bind]
  refine guaranteed_served idle_stable hs fun t ht => Environment.Guaranteed.bind ?_
  obtain ⟨c,ov,ht,-⟩ := ht
  have hstart : (t.served output (.overlappedPtr (o = .byMove))).Stands {} :=
    ⟨⟨ht.books.kept,ht.books.others,ht.books.leaked⟩,ht.running,ht.pipe_eq,ht.socket_eq,rfl,rfl,
      ht.missed_eq⟩
  exact (acceptDetail2_watched hconnected hnoData endpoint hstart).mono
    fun out u hu => handOver_watched hu

theorem doAccept_watched (o : Overload) (endpoint : String) (hs : s.Idle) :
    (environment output o).Guaranteed Accepts (doAccept o endpoint) s :=
  guaranteed_ofServer o (asyncAccept_watched hconnected hnoData o endpoint hs)

end Accept

section Handler
variable {o : Overload} {P : Watched → Prop} {f : PipeInstance → PipeInstance}
variable {cur : Option ℕ} {x : PipeInstance}

theorem guaranteed_after {α : Type} {Q : α → Watched → Prop} {c : LoopCall}
    {next : c.Answer → LoopProgram α} (hstable : others.Preserves P) (hs : P s)
    (hnext : ∀ t, P t → (environment output o).Guaranteed Q
      (next (t.world.perform output o c).1) (t.after output o c)) :
    (environment output o).Guaranteed Q (.call c next) s := by
  have hown : (environment output o).alone.Preserves P := hstable
  refine Environment.Guaranteed.ofCall P hown hs fun t a u ht hr => ?_
  cases hr
  exact hnext t ht

/-- The handler holds the pipe of its client, in the loop's pipe or in its parameter. -/
def Given (o : Overload) (s : Watched) : Prop :=
  ∃ n ov, s.Stands {
      cur := some n
      pipe := if o = .intoPipe then some n else none
      socket := if o = .byMove then some n else none
      connecting := some n
      ov := ov } ∧ s.At n (· ≠ .absent)

/-- The session that is being started is held by `make_shared`'s temporary. -/
def Fresh (n : ℕ) (s : Watched) : Prop :=
  s.world.starting = some n ∧ ∃ x, s.world.instances[n]? = some x ∧
    x.session.map Session.temporary = some true

/-- The handler has made a session, and not started it. -/
def Made (s : Watched) : Prop :=
  ∃ n connecting ov, (s.Stands { fresh := some n, connecting := connecting, ov := ov } ∧
    s.Settled) ∧ s.Fresh n

/-- It has started the session. -/
def Started (s : Watched) : Prop := s.Idle ∧ ∃ n, s.Fresh n

lemma given_stable : others.Preserves (Given o) := by
  rintro s l t ⟨n,ov,h⟩ hstep
  exact ⟨n,ov,came_stable rfl s l t h hstep⟩

lemma fresh_stable : others.Preserves (Fresh n) := by
  rintro s l t ⟨hstarting,x,hx,htemp⟩ hstep
  have hset : ∀ {i : ℕ} {k : PipeStep} {z y : PipeInstance}, s.world.instances[i]? = some z →
      PipeInstance.step k z = some y → ∃ x, (s.world.instances.set i y)[n]? = some x ∧
        x.session.map Session.temporary = some true := by
    intro i k z y hz hy
    by_cases hin : i = n
    · subst hin
      cases hx.symm.trans hz
      refine ⟨y,List.getElem?_set_self (List.getElem?_eq_some_iff.mp hx).1,?_⟩
      rw [PipeInstance.step_temporary hy,htemp]
    · exact ⟨x,by rw [List.getElem?_set_ne hin,hx],htemp⟩
  cases interfere_cases hstep with
  | connects hz _ _ hy | other hz hy => exact ⟨hstarting,hset hz hy⟩

lemma made_stable : others.Preserves Made := by
  rintro s l t ⟨n,c,ov,h⟩ hstep
  exact ⟨n,c,ov,settled_stable.and fresh_stable s l t h hstep⟩

lemma started_stable : others.Preserves Started := by
  rintro s l t ⟨hidle,n,hfresh⟩ hstep
  exact ⟨idle_stable s l t hidle hstep,n,fresh_stable s l t hfresh hstep⟩

/-- What the handler does to the instance of its session, which has one after it. -/
lemma Books.modify (h : s.Books cur) (hcur : cur = none ∨ cur = some n) (hn : n ∉ s.leaked)
    (hf : ∀ x, s.world.instances[n]? = some x → (f x).Kept ∧ (f x).session ≠ none)
    (ht : t.world.instances = (s.world.modifyAt (some n) f).instances)
    (hleaked : t.leaked = s.leaked) : t.Books none := by
  have hget : ∀ i, t.world.instances[i]? =
      if some n = some i then s.world.instances[i]?.map f else s.world.instances[i]? := by
    intro i
    rw [ht,EchoWorld.getElem?_modifyAt]
  refine ⟨fun z hz => ?_,fun i z hz hs => ?_,fun i hi => ?_⟩
  · obtain ⟨i,hi⟩ := List.mem_iff_getElem?.mp hz
    rw [hget] at hi
    split_ifs at hi with hin
    · cases hin
      obtain ⟨x,hx,rfl⟩ := Option.map_eq_some_iff.mp hi
      exact (hf x hx).1
    · exact h.kept z (List.mem_of_getElem? hi)
  · rw [hget] at hz
    split_ifs at hz with hin
    · cases hin
      obtain ⟨x,hx,rfl⟩ := Option.map_eq_some_iff.mp hz
      exact absurd hs (hf x hx).2
    · obtain hi | hi := h.others i z hz hs
      · obtain rfl | rfl := hcur
        · cases hi
        · exact absurd hi hin
      · exact Or.inr (hleaked ▸ hi)
  · rw [hleaked] at hi
    obtain ⟨-,z,hz,hgone⟩ := h.leaked i hi
    have hne : ¬some n = some i := fun hin => hn (Option.some.inj hin ▸ hi)
    exact ⟨by simp,z,by rw [hget,if_neg hne,hz],hgone⟩

lemma Running.modify {fresh fresh' : Option ℕ} (h : s.Running fresh)
    (hf : ∀ x, s.world.instances[n]? = some x → (f x).session.map Session.op = some .idle →
      fresh' = some n) (hother : ∀ i, i ≠ n → fresh = some i → fresh' = some i)
    (ht : t.world.instances = (s.world.modifyAt (some n) f).instances) : t.Running fresh' := by
  intro i z hz hidle
  rw [ht,EchoWorld.getElem?_modifyAt] at hz
  split_ifs at hz with hin
  · cases hin
    obtain ⟨x,hx,rfl⟩ := Option.map_eq_some_iff.mp hz
    exact hf x hx hidle
  · exact hother i (fun he => hin (congrArg some he.symm)) (h i z hz hidle)

lemma Settled.modify (h : s.Settled) (hf : ∀ x, (f x).client = x.client)
    (ht : t.world.instances = (s.world.modifyAt (some n) f).instances)
    (hconnecting : t.world.connecting = s.world.connecting) : t.Settled := by
  intro i z hi hz
  rw [hconnecting] at hi
  rw [ht,EchoWorld.getElem?_modifyAt] at hz
  split_ifs at hz with hin
  · obtain ⟨x,hx,rfl⟩ := Option.map_eq_some_iff.mp hz
    rw [hf x]
    exact h i x hi hx
  · exact h i z hi hz

lemma Books.not_leaked (hs : s.Books cur) (hx : s.world.instances[n]? = some x)
    (hsession : x.session ≠ none) : n ∉ s.leaked := by
  intro hn
  obtain ⟨-,z,hz,hnone,-⟩ := hs.leaked n hn
  cases hx.symm.trans hz
  exact hsession hnone

lemma makeSession_eq (hpipe : s.world.pipe = if o = .intoPipe then some n else none)
    (hsocket : s.world.socket = if o = .byMove then some n else none) :
    s.world.makeSession o = { s.world.modifyAt (some n) .makeSession with
      pipe := none, socket := none, starting := some n } := by
  cases o with
  | intoPipe =>
    simp only [if_true,reduceCtorEq,if_false] at hpipe hsocket
    simp [EchoWorld.makeSession,hpipe,EchoWorld.modifyAt,hsocket]
  | byMove =>
    simp only [if_true,reduceCtorEq,if_false] at hpipe hsocket
    simp [EchoWorld.makeSession,hpipe,EchoWorld.modifyAt,hsocket]

/-- The handler's pipe goes to the session that it makes. -/
theorem Given.makeSession (h : s.Given o) : (s.after output o .makeSession).Made := by
  obtain ⟨n,ov,hs,hn⟩ := h
  have hset := hn.settled hs.connecting_eq
  obtain ⟨x,hx,hnone,-⟩ := hn
  have hkept : ∀ x, s.world.instances[n]? = some x → x.makeSession.Kept ∧
      x.makeSession.session ≠ none := by
    intro z hz
    cases hx.symm.trans hz
    have hopen := hs.books.kept x (List.mem_of_getElem? hx)
    simp only [PipeInstance.Kept,hnone] at hopen
    exact ⟨hopen,by simp [PipeInstance.makeSession]⟩
  have hleak : n ∉ s.leaked := fun hmem => (hs.books.leaked n hmem).1 rfl
  have hafter : s.after output o .makeSession = { s with
      world := { s.world.modifyAt (some n) .makeSession with
        pipe := none, socket := none, starting := some n } } := by
    rw [after,EchoWorld.perform,makeSession_eq hs.pipe_eq hs.socket_eq]
    rfl
  rw [hafter]
  refine ⟨n,some n,ov,⟨⟨hs.books.modify (Or.inr rfl) hleak hkept rfl rfl,?_,rfl,rfl,
    hs.connecting_eq,hs.ov_eq,hs.missed_eq⟩,hset.modify (f := .makeSession) (fun _ => rfl) rfl rfl⟩,
    rfl,x.makeSession,?_,rfl⟩
  · refine hs.running.modify (fun _ _ _ => rfl) (fun i _ hi => ?_) rfl
    cases hi
  · simp only [EchoWorld.getElem?_modifyAt,if_true,hx]
    rfl

/-- The temporary keeps the session while it is started. -/
theorem Made.startSession (h : s.Made) : (s.after output o .startSession).Started := by
  obtain ⟨n,c,ov,⟨hs,hset⟩,hstarting,x,hx,htemp⟩ := h
  obtain ⟨r,hr,hheld⟩ := Option.map_eq_some_iff.mp htemp
  have hkept : ∀ x, s.world.instances[n]? = some x → x.startSession.Kept ∧
      x.startSession.session ≠ none := by
    intro z hz
    cases hx.symm.trans hz
    have hopen := hs.books.kept x (List.mem_of_getElem? hx)
    simp only [PipeInstance.Kept,hr,Session.held,hheld,Bool.true_or,Bool.not_true] at hopen
    simp [PipeInstance.Kept,PipeInstance.startSession,hr,Session.start,Session.doRead,Session.held,
      hheld,hopen]
  have hrunning : ∀ x, s.world.instances[n]? = some x →
      x.startSession.session.map Session.op = some .idle → (none : Option ℕ) = some n := by
    intro z hz hidle
    cases hx.symm.trans hz
    simp [PipeInstance.startSession,hr,Session.start,Session.doRead] at hidle
  have hleak := hs.books.not_leaked hx (by simp [hr])
  have hafter : s.after output o .startSession = { s with
      world := s.world.modifyAt (some n) .startSession } := by
    rw [after,EchoWorld.perform,hstarting]
    rfl
  rw [hafter]
  refine ⟨⟨c,ov,⟨hs.books.modify (Or.inl rfl) hleak hkept rfl rfl,
    hs.running.modify hrunning (fun i hi he => absurd (Option.some.inj he).symm hi) rfl,hs.pipe_eq,
    hs.socket_eq,hs.connecting_eq,hs.ov_eq,hs.missed_eq⟩,
    hset.modify (f := .startSession) (fun _ => rfl) rfl rfl⟩,n,hstarting,x.startSession,?_,?_⟩
  · simp only [EchoWorld.getElem?_modifyAt,if_true,hx]
    rfl
  · simp [PipeInstance.startSession,hr,Session.start,Session.doRead,hheld]

/-- A session that has ended by then ends with the temporary. -/
theorem Started.dropSession (h : s.Started) : (s.after output o .dropSession).Idle := by
  obtain ⟨⟨c,ov,hs,hset⟩,n,hstarting,x,hx,htemp⟩ := h
  obtain ⟨r,hr,hheld⟩ := Option.map_eq_some_iff.mp htemp
  have hkept : ∀ x, s.world.instances[n]? = some x → x.dropSession.Kept ∧
      x.dropSession.session ≠ none := by
    intro z hz
    cases hx.symm.trans hz
    have hopen := hs.books.kept x (List.mem_of_getElem? hx)
    simp only [PipeInstance.Kept,hr,Session.held,hheld,Bool.true_or,Bool.not_true] at hopen
    simp [PipeInstance.Kept,PipeInstance.dropSession,hr,PipeInstance.keep,hopen]
  have hrunning : ∀ x, s.world.instances[n]? = some x →
      x.dropSession.session.map Session.op = some .idle → (none : Option ℕ) = some n := by
    intro z hz hidle
    rw [PipeInstance.dropSession_op] at hidle
    exact hs.running n z hz hidle
  have hleak := hs.books.not_leaked hx (by simp [hr])
  have hclient : ∀ x : PipeInstance, x.dropSession.client = x.client := by
    intro z
    cases hz : z.session <;> simp [PipeInstance.dropSession,hz,PipeInstance.keep]
  have hafter : s.after output o .dropSession = { s with
      world := { s.world.modifyAt (some n) .dropSession with starting := none } } := by
    rw [after,EchoWorld.perform,hstarting]
    rfl
  rw [hafter]
  exact ⟨c,ov,⟨hs.books.modify (Or.inl rfl) hleak hkept rfl rfl,
    hs.running.modify hrunning (fun _ _ => id) rfl,hs.pipe_eq,hs.socket_eq,hs.connecting_eq,
    hs.ov_eq,hs.missed_eq⟩,hset.modify hclient rfl rfl⟩

lemma begun_stable : others.Preserves Begun := by
  intro s l t hs h
  cases hs with
  | asked n hs => exact .asked n (asked_stable s l t hs h)
  | early n hs hn =>
    obtain ⟨ht,hn⟩ := came_stable rfl s l t ⟨hs,hn⟩ h
    exact .early n ht hn
  | failed n hs hset =>
    obtain ⟨ht,hset⟩ := settled_stable s l t ⟨hs,hset⟩ h
    exact .failed n ht hset

lemma Begun.socket (h : s.Begun) : s.world.socket = none := by
  cases h with
  | asked n h =>
    cases h with
    | waits hs | comes _ hs | missed hs => exact hs.socket_eq
  | early n hs | failed n hs => exact hs.socket_eq

/-- Once the accept is begun, the handler's parameter has nothing to close. -/
lemma Begun.dropSocket (h : s.Begun) : (s.after output o .dropSocket).Begun := by
  have hsame : s.after output o .dropSocket = s := by
    have hsocket := h.socket
    obtain ⟨⟨instances,lastError,pipe,socket,starting,ov,connecting⟩,missed,leaked⟩ := s
    cases hsocket
    rfl
  rw [hsame]
  exact h

/-- What a packet of the accept tells its handler, and what the handler finds. -/
theorem Begun.deliver (h : s.Begun) {d : Packet × Overlapped} (hd : s.world.ov.deliver = some d)
    (o : Overload) : ∃ t : Watched, t = { s with
      world := ({ s.world with ov := d.2 }).handPipe o } ∧ s.missed = none ∧
      (d.1.ec.failed = false ∧ t.Given o ∨ d.1.ec.failed = true ∧ t.Idle) := by
  refine ⟨_,rfl,?_⟩
  have hgiven : ∀ {n : ℕ} {ov : Overlapped}, s.Stands (.asked n (some n) ov none) →
      s.At n (· ≠ .absent) → Given o { s with
        world := ({ s.world with ov := d.2 }).handPipe o } := by
    intro n ov hs hn
    refine ⟨n,d.2,?_⟩
    cases o with
    | intoPipe =>
      exact ⟨⟨⟨hs.books.kept,hs.books.others,hs.books.leaked⟩,hs.running,hs.pipe_eq,hs.socket_eq,
        hs.connecting_eq,rfl,hs.missed_eq⟩,hn⟩
    | byMove =>
      exact ⟨⟨⟨hs.books.kept,hs.books.others,hs.books.leaked⟩,hs.running,rfl,hs.pipe_eq,
        hs.connecting_eq,rfl,hs.missed_eq⟩,hn⟩
  obtain ⟨-,ps,hpackets,-⟩ := Overlapped.deliver_eq_some.mp hd
  cases h with
  | asked n h =>
    cases h with
    | waits hs | missed hs =>
      rw [hs.ov_eq] at hpackets
      cases hpackets
    | comes _ hs hn =>
      rw [hs.ov_eq] at hpackets
      obtain ⟨hp,-⟩ := List.cons_eq_cons.mp hpackets
      exact ⟨hs.missed_eq,Or.inl ⟨by rw [← hp]; rfl,hgiven hs hn⟩⟩
  | early n hs hn =>
    rw [hs.ov_eq] at hpackets
    obtain ⟨hp,-⟩ := List.cons_eq_cons.mp hpackets
    exact ⟨hs.missed_eq,Or.inl ⟨by rw [← hp]; rfl,hgiven hs hn⟩⟩
  | failed n hs hset =>
    rw [hs.ov_eq] at hpackets
    obtain ⟨hp,-⟩ := List.cons_eq_cons.mp hpackets
    refine ⟨hs.missed_eq,Or.inr ⟨by rw [← hp]; decide,some n,d.2,?_⟩⟩
    cases o with
    | intoPipe =>
      exact ⟨⟨⟨hs.books.kept,hs.books.others,hs.books.leaked⟩,hs.running,hs.pipe_eq,hs.socket_eq,
        hs.connecting_eq,rfl,hs.missed_eq⟩,hset⟩
    | byMove =>
      exact ⟨⟨⟨hs.books.kept,hs.books.others,hs.books.leaked⟩,hs.running,rfl,hs.pipe_eq,
        hs.connecting_eq,rfl,hs.missed_eq⟩,hset⟩

variable (hconnected : output errorPipeConnected = errorPipeConnected)
variable (hnoData : output errorNoData = errorNoData)
include hconnected hnoData

/-- The handler of an accept begins the next one, whatever it was told. -/
theorem acceptHandler_watched (endpoint : String) {ec : ErrorCode}
    (h : ec.failed = false ∧ s.Given o ∨ ec.failed = true ∧ s.Idle) :
    (environment output o).Guaranteed Accepts (acceptHandler o endpoint ec) s := by
  have hnext : ∀ {s : Watched}, s.Idle → (environment output o).Guaranteed Accepts (do
      let started ← doAccept o endpoint
      if o = .byMove then
        Program.ask LoopCall.dropSocket
      return started) s := by
    intro s hs
    refine Environment.Guaranteed.bind ?_
    refine (doAccept_watched hconnected hnoData o endpoint hs).mono fun started t ht => ?_
    obtain ⟨hstarted,hbegun⟩ := ht
    cases o with
    | intoPipe =>
      exact Environment.Guaranteed.ofDone Begun begun_stable hbegun fun u hu => ⟨hstarted,hu⟩
    | byMove =>
      refine guaranteed_after begun_stable hbegun fun t ht => ?_
      exact Environment.Guaranteed.ofDone Begun begun_stable ht.dropSocket fun u hu => ⟨hstarted,hu⟩
  obtain ⟨hec,hgiven⟩ | ⟨hec,hidle⟩ := h
  · simp only [acceptHandler,hec]
    refine guaranteed_after given_stable hgiven fun t ht => ?_
    refine guaranteed_after made_stable ht.makeSession fun t ht => ?_
    refine guaranteed_after started_stable ht.startSession fun t ht => ?_
    exact hnext ht.dropSession
  · simp only [acceptHandler,hec]
    exact hnext hidle

end Handler

end Watched
end Winext
