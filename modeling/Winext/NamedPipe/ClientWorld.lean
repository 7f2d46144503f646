import Winext.NamedPipe.ClientDetails

/-! One `connect` executed against any answers of the operating system. -/
namespace Winext
open Lib Details

/-- What is answered in one turn of the loop: `CreateFile` and `WaitNamedPipe` succeed, or
fail with a last error. A wait takes some milliseconds. -/
structure Attempt where
  create : Option Dword := none
  wait : Option Dword := none
  spent : ℕ := 1
  deriving DecidableEq, Repr

/-- The loop goes round again: the pipe is busy, and the wait succeeds. -/
def Attempt.Busy (x : Attempt) : Prop := x.create = some errorPipeBusy ∧ x.wait = none

/-- All that the operating system answers during one `connect`, and what `printf` does to
the thread's last error. -/
structure ClientAnswers where
  attempts : ℕ → Attempt := fun _ => {}
  setState : Option Dword := none
  output : Dword → Dword := id

/-- The first turn that does not go round again. -/
def ClientAnswers.EndsAt (a : ClientAnswers) (k : ℕ) : Prop :=
  (∀ i < k, (a.attempts i).Busy) ∧ ¬(a.attempts k).Busy

/-- A call to the system, with its result or the last error it has set. -/
inductive ClientEvent
  | createFile (result : Except Dword Handle)
  | waitNamedPipe (failure : Option Dword)
  | setNamedPipeHandleState (hPipe : Handle) (failure : Option Dword)

def ClientEvent.error : ClientEvent → Option Dword
  | createFile (.error e) => some e
  | createFile (.ok _) => none
  | waitNamedPipe failure => failure
  | setNamedPipeHandleState _ failure => failure

/-- CreateFile has returned the first `created` handles, and the object may own one. -/
structure ClientWorld where
  lastError : Dword := noError
  created : ℕ := 0
  closed : List Handle := []
  owner : Option Handle := none
  clock : ℕ := 0
  deriving DecidableEq, Repr

/-- What `connect` does first: an open object is closed. -/
def ClientWorld.shut (w : ClientWorld) : ClientWorld :=
  { w with closed := w.owner.toList ++ w.closed, owner := none }

/-- A `connect` being executed. -/
structure Connecting where
  world : ClientWorld
  answers : ClientAnswers
  turn : ℕ := 0
  events : List ClientEvent := []

namespace Connecting

def failing (s : Connecting) (e : Dword) (ev : ClientEvent) : Connecting :=
  { s with world := { s.world with lastError := e }, events := s.events ++ [ev] }

def opening (s : Connecting) : Connecting :=
  { s with
    world := { s.world with created := s.world.created + 1 }
    events := s.events ++ [.createFile (.ok (.pipe s.world.created))] }

/-- A wait that succeeds ends the turn. -/
def waiting (s : Connecting) : Connecting :=
  { s with
    world := { s.world with clock := s.world.clock + (s.answers.attempts s.turn).spent }
    turn := s.turn + 1
    events := s.events ++ [.waitNamedPipe none] }

def perform : (c : ClientCall) → Connecting → Option (c.Answer × Connecting)
  | .createFile _ _, s =>
    match (s.answers.attempts s.turn).create with
    | some e => some (.invalidHandleValue,s.failing e (.createFile (.error e)))
    | none => some (.pipe s.world.created,s.opening)
  | .getLastError, s => some (s.world.lastError,s)
  | .waitNamedPipe _ _, s =>
    match (s.answers.attempts s.turn).wait with
    | some e => some (false,s.failing e (.waitNamedPipe (some e)))
    | none => some (true,s.waiting)
  | .print _, s =>
    some ((),{ s with world := { s.world with lastError := s.answers.output s.world.lastError } })
  | .setNamedPipeHandleState hPipe _, s =>
    match s.answers.setState with
    | some e => some (false,s.failing e (.setNamedPipeHandleState hPipe (some e)))
    | none => some (true,{ s with events := s.events ++ [.setNamedPipeHandleState hPipe none] })
  | .isOpen, s => some (s.world.owner.isSome,s)
  | .close, s => some ((),{ s with world := s.world.shut })
  | .assign hPipe, s =>
    match s.world.owner, hPipe with
    | some _, _ => some (.error .alreadyOpen,s)
    | none, .pipe _ => some (.ok (),{ s with world := { s.world with owner := some hPipe } })
    | none, _ => some (.error .invalidHandle,s)

end Connecting

/-- `connect` on the object, cut after `turns` turns of its loop. -/
def ClientWorld.connect (w : ClientWorld) (a : ClientAnswers) (turns : ℕ) (lastError : Dword)
    (endpoint : String) (ec : ErrorCode) (timeoutMs : Int32) :
    Option (Option (ErrorCode × Except Thrown Unit) × Connecting) :=
  (Details.connect turns lastError endpoint ec timeoutMs).exec Connecting.perform
    { world := w, answers := a }

namespace Connecting

/-- The state after this many turns that go round again. -/
def rounds (s : Connecting) : ℕ → Connecting
  | 0 => s
  | n + 1 => ((s.rounds n).failing errorPipeBusy (.createFile (.error errorPipeBusy))).waiting

section Rounds
variable (s : Connecting) (n : ℕ)

@[simp] lemma rounds_answers : (s.rounds n).answers = s.answers := by
  induction n with
  | zero => rfl
  | succ n ih => exact ih

@[simp] lemma rounds_turn : (s.rounds n).turn = s.turn + n := by
  induction n with
  | zero => rfl
  | succ n ih => exact congrArg (· + 1) ih

@[simp] lemma rounds_owner : (s.rounds n).world.owner = s.world.owner := by
  induction n with
  | zero => rfl
  | succ n ih => exact ih

@[simp] lemma rounds_closed : (s.rounds n).world.closed = s.world.closed := by
  induction n with
  | zero => rfl
  | succ n ih => exact ih

@[simp] lemma rounds_created : (s.rounds n).world.created = s.world.created := by
  induction n with
  | zero => rfl
  | succ n ih => exact ih

end Rounds

/-- What `last_error` holds after this many turns. -/
def leftOver (lastError : Dword) (n : ℕ) : Dword := if n = 0 then lastError else errorPipeBusy

theorem exec_connectTurn_busy (endpoint : String) (timeoutMs : Int32) (lastError : Dword)
    {s : Connecting} (h : (s.answers.attempts s.turn).Busy) :
    (connectTurn endpoint timeoutMs lastError).exec perform s = some (.inl errorPipeBusy,
      (s.failing errorPipeBusy (.createFile (.error errorPipeBusy))).waiting) := by
  simp [connectTurn,Program.exec_call,perform,failing,h.1,h.2]

theorem rounds_busy (endpoint : String) (timeoutMs : Int32) (lastError : Dword)
    {s : Connecting} {n : ℕ} (h : ∀ i < n, (s.answers.attempts (s.turn + i)).Busy) :
    Program.Rounds (connectTurn endpoint timeoutMs) perform n lastError s
      (leftOver lastError n) (s.rounds n) := by
  induction n with
  | zero => exact .none _ _
  | succ n ih =>
    refine (ih fun i hi => h i (Nat.lt_succ_of_lt hi)).snoc ?_
    have hbusy := h n (Nat.lt_succ_self n)
    rw [← rounds_turn,← s.rounds_answers n] at hbusy
    exact exec_connectTurn_busy endpoint timeoutMs _ hbusy

/-- How the loop and what follows it can end, seen from the state `s` before the last turn:
the values of `ec` and `pipe_ret`, and the state after it. -/
inductive Left (a : ClientAnswers) (k : ℕ) (lastError : Dword) (ec : ErrorCode)
    (s : Connecting) : ErrorCode × Handle → Connecting → Prop
  | refused {e : Dword} (hc : (a.attempts k).create = some e) (he : e ≠ errorPipeBusy) :
    Left a k lastError ec s (⟨e⟩,.null) (s.failing e (.createFile (.error e)))
  | timedOut {e : Dword} {t : Connecting} (hc : (a.attempts k).create = some errorPipeBusy)
    (hw : (a.attempts k).wait = some e) (howner : t.world.owner = s.world.owner)
    (hclosed : t.world.closed = s.world.closed) (hcreated : t.world.created = s.world.created)
    (hevents : t.events = s.events ++
      [.createFile (.error errorPipeBusy),.waitNamedPipe (some e)]) :
    Left a k lastError ec s (⟨a.output e⟩,.null) t
  | unset {e : Dword} (hc : (a.attempts k).create = none) (hs : a.setState = some e) :
    Left a k lastError ec s (⟨leftOver lastError k⟩,.null)
      (s.opening.failing e (.setNamedPipeHandleState (.pipe s.world.created) (some e)))
  | connected (hc : (a.attempts k).create = none) (hs : a.setState = none) :
    Left a k lastError ec s (ec,.pipe s.world.created) { s.opening with
      events := s.opening.events ++ [.setNamedPipeHandleState (.pipe s.world.created) none] }

theorem clientConnect_left {a : ClientAnswers} {k turns : ℕ} (h : a.EndsAt k) (hk : k < turns)
    (lastError : Dword) (ec : ErrorCode) (endpoint : String) (timeoutMs : Int32)
    (w : ClientWorld) : ∃ out t, Left a k lastError ec (rounds ⟨w,a,0,[]⟩ k) out t ∧
      (clientConnect turns lastError ec .null endpoint timeoutMs).exec perform ⟨w,a,0,[]⟩ =
        some (some out,t) := by
  obtain ⟨n,rfl⟩ : ∃ n, turns = k + (n + 1) := ⟨turns - k - 1,by omega⟩
  have hrounds := rounds_busy endpoint timeoutMs lastError (s := ⟨w,a,0,[]⟩) (n := k)
    fun i hi => by simpa using h.1 i hi
  have hloop := Program.exec_loop_rounds hrounds (n + 1)
  generalize hs : rounds ⟨w,a,0,[]⟩ k = s at hloop ⊢
  have hanswers : s.answers = a := by rw [← hs]; simp
  have hturn : s.turn = k := by rw [← hs]; simp
  rw [clientConnect,Program.exec_bind,hloop]
  cases hc : (a.attempts k).create with
  | none =>
    have hbody : (connectTurn endpoint timeoutMs (leftOver lastError k)).exec perform s =
        some (.inr (.broke (.pipe s.world.created) (leftOver lastError k)),s.opening) := by
      simp [connectTurn,Program.exec_call,perform,hanswers,hturn,hc]
    rw [Program.exec_loop_leave hbody]
    cases hset : a.setState with
    | none =>
      refine ⟨_,_,.connected hc hset,?_⟩
      simp [Program.exec_call,perform,opening,hanswers,hset]
    | some e =>
      refine ⟨_,_,.unset hc hset,?_⟩
      simp [Program.exec_call,perform,opening,hanswers,hset]
  | some e =>
    by_cases he : e = errorPipeBusy
    · subst he
      cases hw : (a.attempts k).wait with
      | none => exact absurd ⟨hc,hw⟩ h.2
      | some e =>
        have hbody : ∃ t, (connectTurn endpoint timeoutMs (leftOver lastError k)).exec perform s =
            some (.inr (.returned ⟨a.output e⟩),t) ∧ t.world.owner = s.world.owner ∧
            t.world.closed = s.world.closed ∧ t.world.created = s.world.created ∧
            t.events = s.events ++
              [.createFile (.error errorPipeBusy),.waitNamedPipe (some e)] := by
          simp [connectTurn,Program.exec_call,perform,failing,hanswers,hturn,hc,hw]
        obtain ⟨t,hbody,howner,hclosed,hcreated,hevents⟩ := hbody
        rw [Program.exec_loop_leave hbody]
        exact ⟨_,_,.timedOut hc hw howner hclosed hcreated hevents,rfl⟩
    · have hbody : (connectTurn endpoint timeoutMs (leftOver lastError k)).exec perform s =
          some (.inr (.returned ⟨e⟩),s.failing e (.createFile (.error e))) := by
        simp [connectTurn,Program.exec_call,perform,failing,hanswers,hturn,hc,he]
      rw [Program.exec_loop_leave hbody]
      exact ⟨_,_,.refused hc he,rfl⟩

/-- The loop is cut while it would still go round. -/
theorem clientConnect_cut {a : ClientAnswers} {turns : ℕ} (h : ∀ i < turns, (a.attempts i).Busy)
    (lastError : Dword) (ec : ErrorCode) (endpoint : String) (timeoutMs : Int32)
    (w : ClientWorld) : (clientConnect turns lastError ec .null endpoint timeoutMs).exec perform
      ⟨w,a,0,[]⟩ = some (none,rounds ⟨w,a,0,[]⟩ turns) := by
  have hrounds := rounds_busy endpoint timeoutMs lastError (s := ⟨w,a,0,[]⟩) (n := turns)
    fun i hi => by simpa using h i hi
  have hloop := Program.exec_loop_rounds hrounds 0
  rw [Nat.add_zero] at hloop
  rw [clientConnect,Program.exec_bind,hloop]
  rfl

/-- What `connect` makes of the error code and the handle. -/
def adopt (out : ErrorCode × Handle) (t : Connecting) :
    (ErrorCode × Except Thrown Unit) × Connecting :=
  if out.1.failed then ((out.1,.ok ()),t)
  else match out.2 with
    | .pipe n => ((out.1,.ok ()),{ t with world := { t.world with owner := some (.pipe n) } })
    | _ => ((out.1,.error .invalidHandle),t)

lemma adopt_null (ec : ErrorCode) (t : Connecting) : (adopt (ec,.null) t).2 = t := by
  unfold adopt
  split_ifs <;> rfl

lemma Left.owner_eq {a : ClientAnswers} {k : ℕ} {lastError : Dword} {ec : ErrorCode}
    {s t : Connecting} {out : ErrorCode × Handle} (h : Left a k lastError ec s out t) :
    t.world.owner = s.world.owner := by
  cases h with
  | timedOut hc hw howner => exact howner
  | _ => rfl

end Connecting

namespace ClientWorld
open Connecting

/-- `connect` is `client_connect` on the closed object, and what is made of its result. -/
theorem connect_eq (w : ClientWorld) (a : ClientAnswers) (turns : ℕ) (lastError : Dword)
    (endpoint : String) (ec : ErrorCode) (timeoutMs : Int32) :
    w.connect a turns lastError endpoint ec timeoutMs =
      ((clientConnect turns lastError ec .null endpoint timeoutMs).exec perform
        ⟨w.shut,a,0,[]⟩).bind fun r => match r.1 with
          | none => some (none,r.2)
          | some (ec,hPipe) =>
            if ec.failed then some (some (ec,.ok ()),r.2)
            else (perform (.assign hPipe) r.2).map fun q => (some (ec,q.1),q.2) := by
  have hshut : (Details.connect turns lastError endpoint ec timeoutMs).exec perform ⟨w,a,0,[]⟩ =
      ((clientConnect turns lastError ec .null endpoint timeoutMs) >>= fun
        | none => .done none
        | some (ec,hPipe) =>
          if ec.failed then .done (some (ec,.ok ()))
          else .call (.assign hPipe) fun assigned => .done (some (ec,assigned))).exec perform
        ⟨w.shut,a,0,[]⟩ := by
    cases w with
    | mk lastError created closed owner clock =>
      cases owner <;> rfl
  rw [ClientWorld.connect,hshut,Program.exec_bind]
  congr 1
  funext r
  obtain ⟨out,t⟩ := r
  cases out with
  | none => rfl
  | some out =>
    cases hf : out.1.failed with
    | false =>
      simp only [hf,Bool.false_eq_true,if_false,Program.exec_call]
      cases perform (.assign out.2) t <;> rfl
    | true =>
      simp only [hf,if_true]
      rfl

/-- A loop that ends is followed by what `connect` makes of its result. -/
theorem connect_returns {a : ClientAnswers} {k turns : ℕ} (h : a.EndsAt k) (hk : k < turns)
    (w : ClientWorld) (lastError : Dword) (endpoint : String) (ec : ErrorCode)
    (timeoutMs : Int32) : ∃ out t, Left a k lastError ec (rounds ⟨w.shut,a,0,[]⟩ k) out t ∧
      w.connect a turns lastError endpoint ec timeoutMs =
        some (some (adopt out t).1,(adopt out t).2) := by
  obtain ⟨out,t,hleft,hexec⟩ := clientConnect_left h hk lastError ec endpoint timeoutMs w.shut
  refine ⟨out,t,hleft,?_⟩
  have howner : t.world.owner = none := by
    rw [hleft.owner_eq,rounds_owner]
    rfl
  rw [connect_eq,hexec]
  cases hf : out.1.failed with
  | true => simp [adopt,hf]
  | false =>
    cases hp : out.2 <;> simp [adopt,hf,hp,perform,howner]

theorem connect_cut {a : ClientAnswers} {turns : ℕ} (h : ∀ i < turns, (a.attempts i).Busy)
    (w : ClientWorld) (lastError : Dword) (endpoint : String) (ec : ErrorCode)
    (timeoutMs : Int32) : w.connect a turns lastError endpoint ec timeoutMs =
      some (none,rounds ⟨w.shut,a,0,[]⟩ turns) := by
  rw [connect_eq,clientConnect_cut h]
  rfl

end ClientWorld
end Winext
