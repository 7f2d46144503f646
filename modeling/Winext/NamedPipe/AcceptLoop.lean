import Mathlib.Data.List.Nodup
import Winext.NamedPipe.Instances

/-! The accept loops of the examples. `server::do_accept` and `http_server` fill one pipe
again and again, and `server_movable::do_accept` leaves the pipe to the acceptor. Every
handler starts the next accept, whatever error code it was given. -/
namespace Winext
open Lib Details

/-- What happens to the loop's pipe, which is object 0. A handler is told its error code
and finds a pipe, here beside the instance its own accept made and whether the pipe it
finds has a client. -/
inductive LoopEvent
  | starts (pipe : Option Handle)
  | assigns (pipe : Option Handle)
  | handler (ec : ErrorCode) (pipe made : Option Handle) (connected : Bool)
  deriving DecidableEq, Repr

structure AcceptLoop where
  world : World
  accept : Accept
  trace : List LoopEvent

namespace AcceptLoop

/-- `do_accept`. An exception ends the loop: the OVERLAPPED has not been handed over. -/
def doAccept (endpoint : String) (o : Overload) (w : World) (trace : List LoopEvent)
    (a : Answers) : Option AcceptLoop :=
  (w.asyncAccept endpoint o 0 a).map fun r =>
    { world := r.2.world
      accept := r.2.started
      trace := trace ++ .starts (w.owner 0)::r.2.assigned.map .assigns }

def start (endpoint : String) (o : Overload) (a : Answers) : Option AcceptLoop :=
  doAccept endpoint o ({} : World).construct [] a

def handlerEvent (s : AcceptLoop) (ec : ErrorCode) (pipe : Option Handle) : LoopEvent :=
  .handler ec pipe s.accept.made (pipe.any fun h => h ∈ s.world.connected)

/-- The handler of `server` and of `http_server` moves their pipe into a session. -/
def pipeHandler (endpoint : String) (s : AcceptLoop) (ec : ErrorCode) (a : Answers) :
    Option AcceptLoop :=
  let w := if ec.failed then s.world else s.world.moveOut 0
  doAccept endpoint .intoPipe w (s.trace ++ [s.handlerEvent ec (s.world.owner 0)]) a

/-- The handler of `server_movable` owns the parameter `socket` until it returns. -/
def socketHandler (endpoint : String) (s : AcceptLoop) (ec : ErrorCode) (a : Answers) :
    Option AcceptLoop :=
  let socket := s.world.objects
  let moved := s.world.moveOut 0
  let w := if ec.failed then moved else moved.moveOut socket
  (doAccept endpoint .byMove w (s.trace ++ [s.handlerEvent ec (moved.owner socket)]) a).map
    fun t => { t with world := t.world.destroy socket }

def handler (endpoint : String) (o : Overload) (s : AcceptLoop) (ec : ErrorCode) (a : Answers) :
    Option AcceptLoop :=
  match o with
  | .intoPipe => pipeHandler endpoint s ec a
  | .byMove => socketHandler endpoint s ec a

inductive Act
  | clientConnects (n : ℕ)
  | finish (status : Dword)
  | runHandler (a : Answers)
  | sessionEnds (q : ℕ)

/-- A pending connect succeeds only with a client. -/
def step (endpoint : String) (o : Overload) (s : AcceptLoop) : Act → Option AcceptLoop
  | .clientConnects n =>
    if n < s.world.created then some { s with world := s.world.clientConnects (.pipe n) } else none
  | .finish status =>
    if status = noError ∧ ∀ h ∈ s.accept.made, h ∉ s.world.connected then none
    else (s.accept.ov.finish status 0 true).map fun u => { s with accept := { s.accept with ov := u } }
  | .runHandler a =>
    s.accept.ov.deliver.bind fun d => handler endpoint o s d.1.ec a
  | .sessionEnds q => if q = 0 then none else some { s with world := s.world.destroy q }

def machine (endpoint : String) (o : Overload) : Machine AcceptLoop Act := ⟨step endpoint o⟩

end AcceptLoop

namespace World

@[simp] lemma owner_moveOut_zero (w : World) : (w.moveOut 0).owner 0 = none := by
  simp [moveOut]

lemma owner_moveOut_of_ne {w : World} {q : ℕ} (ho : 0 < w.objects) (hq : q ≠ 0) :
    (w.moveOut q).owner 0 = w.owner 0 := by
  have hobj : 0 ≠ w.objects := by omega
  simp only [moveOut,Function.update_of_ne hq.symm,Function.update_of_ne hobj]

lemma owner_moveOut_new {w : World} {q : ℕ} (hq : q < w.objects) :
    (w.moveOut q).owner w.objects = w.owner q := by
  have hne : w.objects ≠ q := by omega
  simp [moveOut,hne]

lemma owner_destroy_of_ne {w : World} {q : ℕ} (hq : q ≠ 0) :
    (w.destroy q).owner 0 = w.owner 0 := by
  simp only [destroy,Function.update_of_ne hq.symm]

end World

namespace AcceptLoop

/-- The accept in flight, by the handle its pipe has, the handle it made, and its
OVERLAPPED. Where diagnostic output is quiet, what is reported as connected has a client. -/
inductive Flight (quiet : Prop) (clients : List Handle) :
    Option Handle → Option Handle → Overlapped → Prop
  | thrown : Flight quiet clients none none {}
  | failed {made : Option Handle} {io : Io} {ec : ErrorCode} (hp : io ≠ .pending)
    (hio : ∀ status n, io ≠ .finished status n) (hec : ec.failed = true) :
    Flight quiet clients none made { io := io, packets := [⟨ec,0⟩], handedOver := true }
  | pending {h : Handle} :
    Flight quiet clients (some h) (some h) { io := .pending, handedOver := true }
  | finished {h : Handle} {status : Dword} {n : ℕ} (hc : status = noError → h ∈ clients) :
    Flight quiet clients (some h) (some h)
      { io := .finished status n, packets := [⟨⟨status⟩,n⟩], handedOver := true }
  | connected {h : Handle} {status : Dword} (hc : quiet → h ∈ clients) :
    Flight quiet clients (some h) (some h)
      { io := .returned status 0, packets := [⟨{},0⟩], handedOver := true }
  | silent {h : Handle} {status : Dword} :
    Flight quiet clients (some h) (some h) { io := .returned status 0, handedOver := true }

namespace Flight
variable {quiet : Prop} {clients : List Handle} {pipe made : Option Handle} {ov u : Overlapped}

theorem clientConnects (h : Handle) (f : Flight quiet clients pipe made ov) :
    Flight quiet (h::clients) pipe made ov := by
  cases f with
  | thrown => exact .thrown
  | failed hp hio hec => exact .failed hp hio hec
  | pending => exact .pending
  | finished hc => exact .finished fun hs => List.mem_cons_of_mem _ (hc hs)
  | connected hc => exact .connected fun hq => List.mem_cons_of_mem _ (hc hq)
  | silent => exact .silent

theorem finish {status : Dword} (f : Flight quiet clients pipe made ov)
    (hc : ¬(status = noError ∧ ∀ h ∈ made, h ∉ clients))
    (h : ov.finish status 0 true = some u) : Flight quiet clients pipe made u := by
  obtain ⟨hio,rfl⟩ := Overlapped.finish_eq_some.mp h
  cases f with
  | thrown => cases hio
  | failed hp => exact absurd hio hp
  | pending =>
    refine .finished fun hs => ?_
    by_contra hne
    exact hc ⟨hs,by simpa using hne⟩
  | finished => cases hio
  | connected => cases hio
  | silent => cases hio

/-- The handler of a success finds the instance of its own accept. The handler of an
error finds a closed pipe, unless the error is that of a pending connect. -/
theorem deliver {p : Packet} (f : Flight quiet clients pipe made ov)
    (h : ov.deliver = some (p,u)) :
    (p.ec.failed = false ∧ (∀ status n, ov.io = .finished status n → status = noError) ∧
      ∃ h, pipe = some h ∧ made = some h ∧ (quiet → h ∈ clients)) ∨
    (p.ec.failed = true ∧ pipe = none ∧ ∀ status n, ov.io ≠ .finished status n) ∨
    (p.ec.failed = true ∧ pipe ≠ none ∧
      ∃ status n, ov.io = .finished status n ∧ status ≠ noError) := by
  obtain ⟨hov,ps,hp,-⟩ := Overlapped.deliver_eq_some.mp h
  cases f with
  | thrown => cases hp
  | failed _ hio hec => cases hp; exact Or.inr (Or.inl ⟨hec,rfl,hio⟩)
  | pending => cases hp
  | @finished _ status n hc =>
    cases hp
    by_cases hs : status = noError
    · exact Or.inl ⟨by simp [hs,noError],by simp [hs],_,rfl,rfl,fun _ => hc hs⟩
    · exact Or.inr (Or.inr ⟨by simpa [noError] using hs,by simp,status,n,rfl,hs⟩)
  | connected hc => cases hp; exact Or.inl ⟨rfl,by simp,_,rfl,rfl,hc⟩
  | silent => cases hp

end Flight

end AcceptLoop

/-- Printing leaves the thread's last error alone. -/
def Answers.Quiet (a : Answers) : Prop := ∀ e, a.output e = e

namespace AcceptLoop
variable {endpoint : String} {o : Overload} {quiet : Prop}

/-- An accept that was started on the closed pipe: it assigned to the pipe while that was
closed, and what the pipe has since is the next handle. -/
structure TakesOff (quiet : Prop) (w : World) (trace : List LoopEvent) (t : AcceptLoop) :
    Prop where
  events : ∃ es, t.trace = trace ++ .starts none::es ∧ ∀ e ∈ es, e = .assigns none
  flight : Flight quiet t.world.connected (t.world.owner 0) t.accept.made t.accept.ov
  next : ∀ h, t.world.owner 0 = some h → h = .pipe w.created ∧ w.created < t.world.created
  created_le : w.created ≤ t.world.created
  objects : 0 < w.objects → 0 < t.world.objects

theorem doAccept_takesOff {w : World} {trace : List LoopEvent} {a : Answers} {t : AcceptLoop}
    (hp : w.owner 0 = none) (hquiet : quiet → a.Quiet)
    (h : doAccept endpoint o w trace a = some t) : TakesOff quiet w trace t := by
  obtain ⟨⟨out,r⟩,hr,rfl⟩ := Option.map_eq_some_iff.mp h
  have hevents : ∀ {assigned : List (Option Handle)}, (∀ x ∈ assigned, x = none) →
      ∃ es, trace ++ .starts (w.owner 0)::assigned.map .assigns = trace ++ .starts none::es ∧
        ∀ e ∈ es, e = LoopEvent.assigns none := by
    intro assigned hassigned
    refine ⟨_,by rw [hp],fun e he => ?_⟩
    obtain ⟨x,hx,rfl⟩ := List.mem_map.mp he
    rw [hassigned x hx]
  have hout := World.asyncAccept_cases hp hr
  cases hout with
  | refused hcreate hassigned hov =>
    refine ⟨hevents hassigned,?_,by simp [hp],le_rfl,id⟩
    simp only [Accepting.started,hp]
    obtain rfl | ⟨ec,hec,rfl⟩ := hov
    · exact .thrown
    · exact .failed (by simp) (by simp) hec
  | held hcreate _ hov =>
    refine ⟨hevents (by simp [Accepting.assigning,Accepting.connecting]),?_,?_,Nat.le_succ _,id⟩
    · simp only [Accepting.started,Accepting.assigning,Accepting.connecting,Function.update_self]
      cases hov with
      | pending => exact .pending
      | connected hs =>
        refine .connected fun hq => ?_
        have he : a.connectError = errorPipeConnected := (hquiet hq _).symm.trans hs
        simp [he]
      | silent => exact .silent
    · intro h hh
      simp only [Accepting.assigning,Accepting.connecting,Function.update_self] at hh ⊢
      exact ⟨(Option.some.inj hh).symm,Nat.lt_succ_self _⟩
  | dropped hcreate _ hec =>
    refine ⟨hevents (by simp [Accepting.connecting]),?_,by simp [Accepting.connecting,hp],
      Nat.le_succ _,id⟩
    simp only [Accepting.started,Accepting.connecting,hp]
    exact .failed (by simp) (by simp) hec

/-- A handler records one event and starts the next accept on the loop's pipe, which is
closed by then unless the pipe is the caller's and came with an error. -/
theorem handler_takesOff {s t : AcceptLoop} {ec : ErrorCode} {a : Answers}
    (ho : 0 < s.world.objects)
    (hp : o = .intoPipe → ec.failed = true → s.world.owner 0 = none) (hquiet : quiet → a.Quiet)
    (h : handler endpoint o s ec a = some t) :
    TakesOff quiet s.world (s.trace ++ [s.handlerEvent ec (s.world.owner 0)]) t := by
  cases o with
  | intoPipe =>
    simp only [handler,pipeHandler] at h
    cases hf : ec.failed with
    | true =>
      simp only [hf,if_true] at h
      exact doAccept_takesOff (hp rfl hf) hquiet h
    | false =>
      simp only [hf,Bool.false_eq_true,if_false] at h
      have ht := doAccept_takesOff s.world.owner_moveOut_zero hquiet h
      exact ⟨ht.events,ht.flight,ht.next,ht.created_le,fun _ => ht.objects (Nat.succ_pos _)⟩
  | byMove =>
    obtain ⟨u,hu,rfl⟩ := Option.map_eq_some_iff.mp h
    have hsocket : s.world.objects ≠ 0 := by omega
    have hclosed : (if ec.failed = true then s.world.moveOut 0
        else (s.world.moveOut 0).moveOut s.world.objects).owner 0 = none := by
      split_ifs
      · exact s.world.owner_moveOut_zero
      · rw [World.owner_moveOut_of_ne (Nat.succ_pos _) hsocket]
        exact s.world.owner_moveOut_zero
    have hcreated : (if ec.failed = true then s.world.moveOut 0
        else (s.world.moveOut 0).moveOut s.world.objects).created = s.world.created := by
      split_ifs <;> rfl
    have ht := doAccept_takesOff hclosed hquiet hu
    rw [World.owner_moveOut_new ho] at ht
    have howner := World.owner_destroy_of_ne (w := u.world) hsocket
    refine ⟨ht.events,?_,?_,?_,fun _ => ht.objects ?_⟩
    · exact howner ▸ ht.flight
    · intro h hh
      rw [← hcreated]
      exact ht.next h (howner ▸ hh)
    · rw [← hcreated]
      exact ht.created_le
    · split_ifs <;> exact Nat.succ_pos _

def InFlight (quiet : Prop) (s : AcceptLoop) : Prop :=
  0 < s.world.objects ∧
    Flight quiet s.world.connected (s.world.owner 0) s.accept.made s.accept.ov

theorem TakesOff.inFlight {w : World} {trace : List LoopEvent} {t : AcceptLoop}
    (h : TakesOff quiet w trace t) (ho : 0 < w.objects) : InFlight quiet t :=
  ⟨h.objects ho,h.flight⟩

/-- A step runs the handler of a delivered packet, or the accept stays in flight and
neither the trace nor the loop's pipe changes. -/
theorem step_cases {s t : AcceptLoop} {l : Act} (hs : InFlight quiet s)
    (h : step endpoint o s l = some t) :
    (∃ a p u, l = .runHandler a ∧ s.accept.ov.deliver = some (p,u) ∧
      handler endpoint o s p.ec a = some t) ∨
    ((∀ a, l ≠ .runHandler a) ∧ InFlight quiet t ∧ t.trace = s.trace ∧
      t.world.owner 0 = s.world.owner 0 ∧ t.world.created = s.world.created) := by
  cases l with
  | clientConnects n =>
    simp only [step] at h
    split_ifs at h
    cases h
    exact Or.inr ⟨by simp,⟨hs.1,hs.2.clientConnects _⟩,rfl,rfl,rfl⟩
  | finish status =>
    simp only [step] at h
    split_ifs at h with hc
    obtain ⟨u,hu,rfl⟩ := Option.map_eq_some_iff.mp h
    exact Or.inr ⟨by simp,⟨hs.1,hs.2.finish hc hu⟩,rfl,rfl,rfl⟩
  | runHandler a =>
    obtain ⟨⟨p,u⟩,hd,ht⟩ := Option.bind_eq_some_iff.mp h
    exact Or.inl ⟨a,p,u,rfl,hd,ht⟩
  | sessionEnds q =>
    simp only [step] at h
    split_ifs at h with hq
    cases h
    have howner := World.owner_destroy_of_ne (w := s.world) hq
    exact Or.inr ⟨by simp,⟨hs.1,howner ▸ hs.2⟩,rfl,howner,rfl⟩

/-- A predicate of events that allows starting on a closed pipe and assigning to it. -/
lemma TakesOff.forall_events {P : LoopEvent → Prop} {w : World} {trace : List LoopEvent}
    {t : AcceptLoop} (h : TakesOff quiet w trace t) (htrace : ∀ e ∈ trace, P e)
    (hstarts : P (.starts none)) (hassigns : P (.assigns none)) : ∀ e ∈ t.trace, P e := by
  obtain ⟨es,het,hes⟩ := h.events
  rw [het]
  intro e he
  obtain he | he := List.mem_append.mp he
  · exact htrace e he
  · obtain rfl | he := List.mem_cons.mp he
    · exact hstarts
    · rw [hes e he]
      exact hassigns

end AcceptLoop

/-- A handler that is told an error finds its pipe closed, and `assign` is called on a
closed pipe. -/
def LoopEvent.Fine : LoopEvent → Prop
  | .starts _ => True
  | .assigns pipe => pipe = none
  | .handler ec pipe _ _ => ec.failed = true → pipe = none

namespace AcceptLoop

/-- The condition on a step: it does not run the handler of a pending connect that the
system has ended with an error. -/
def NoPendingError (s : AcceptLoop) : Act → Prop
  | .runHandler _ => ∀ status n, s.accept.ov.io = .finished status n → status = noError
  | _ => True

theorem trace_subset {s t : AcceptLoop} {l : Act} (h : step endpoint o s l = some t) :
    ∀ e ∈ s.trace, e ∈ t.trace := by
  cases l with
  | clientConnects n =>
    simp only [step] at h
    split_ifs at h
    cases h
    exact fun e he => he
  | finish status =>
    simp only [step] at h
    split_ifs at h
    obtain ⟨u,-,rfl⟩ := Option.map_eq_some_iff.mp h
    exact fun e he => he
  | runHandler a =>
    obtain ⟨⟨p,u⟩,-,ht⟩ := Option.bind_eq_some_iff.mp h
    intro e he
    cases o with
    | intoPipe =>
      obtain ⟨r,-,rfl⟩ := Option.map_eq_some_iff.mp ht
      simp [he]
    | byMove =>
      obtain ⟨v,hv,rfl⟩ := Option.map_eq_some_iff.mp ht
      obtain ⟨r,-,rfl⟩ := Option.map_eq_some_iff.mp hv
      simp [he]
  | sessionEnds q =>
    simp only [step] at h
    split_ifs at h
    cases h
    exact fun e he => he

theorem handler_records {s t : AcceptLoop} {ec : ErrorCode} {a : Answers}
    (h : handler endpoint .intoPipe s ec a = some t) :
    s.handlerEvent ec (s.world.owner 0) ∈ t.trace := by
  obtain ⟨r,-,rfl⟩ := Option.map_eq_some_iff.mp h
  simp

theorem fine_latch (endpoint : String) : (machine endpoint .intoPipe).Latch NoPendingError
    (fun s => InFlight False s ∧ ∀ e ∈ s.trace, e.Fine) (fun s => ∃ e ∈ s.trace, ¬e.Fine) where
  keep s l t hs hl h := by
    obtain ⟨hfly,hfine⟩ := hs
    obtain ⟨a,p,u,rfl,hd,ht⟩ | ⟨-,hfly',htrace,-⟩ := step_cases hfly h
    · have hclosed : p.ec.failed = true → s.world.owner 0 = none := by
        intro hf
        obtain ⟨hok,-⟩ | ⟨-,hp,-⟩ | ⟨-,-,status,n,hio,hne⟩ := hfly.2.deliver hd
        · simp [hok] at hf
        · exact hp
        · exact absurd (hl status n hio) hne
      have hoff := handler_takesOff hfly.1 (fun _ => hclosed) False.elim ht
      refine ⟨hoff.inFlight hfly.1,hoff.forall_events ?_ trivial rfl⟩
      intro e he
      obtain he | he := List.mem_append.mp he
      · exact hfine e he
      · rw [List.mem_singleton.mp he]
        exact hclosed
    · exact ⟨hfly',htrace ▸ hfine⟩
  trip s l t hs hl h := by
    obtain ⟨a,p,u,rfl,hd,ht⟩ | ⟨hrun,-⟩ := step_cases hs.1 h
    · obtain ⟨-,hok,-⟩ | ⟨-,-,hio⟩ | ⟨hf,hp,-⟩ := hs.1.2.deliver hd
      · exact absurd hok hl
      · exact absurd (fun status n h => absurd h (hio status n)) hl
      · exact ⟨_,handler_records ht,fun hfine => hp (hfine hf)⟩
    · cases l with
      | runHandler a => exact absurd rfl (hrun a)
      | clientConnects | finish | sessionEnds => exact absurd trivial hl
  stay s l t hs h := by
    obtain ⟨e,he,hne⟩ := hs
    exact ⟨e,trace_subset h e he,hne⟩

/-- In a run of the loop that fills one pipe, every handler that is told an error finds the
pipe closed and no accept assigns to an open pipe, if and only if no handler is run for
a pending connect that ended with an error. -/
theorem failed_accept_closed_iff (endpoint : String) (a₀ : Answers) (ls : List Act)
    (s₀ s : AcceptLoop) (hstart : start endpoint .intoPipe a₀ = some s₀)
    (hrun : (machine endpoint .intoPipe).run s₀ ls = some s) :
    (∀ e ∈ s.trace, e.Fine) ↔ (machine endpoint .intoPipe).Along NoPendingError s₀ ls := by
  have hoff : TakesOff False _ _ s₀ := doAccept_takesOff (by rfl) False.elim hstart
  have hs₀ : InFlight False s₀ ∧ ∀ e ∈ s₀.trace, e.Fine :=
    ⟨hoff.inFlight Nat.zero_lt_one,hoff.forall_events (by simp) trivial rfl⟩
  obtain ⟨halong,hgood⟩ | ⟨halong,e,he,hne⟩ := (fine_latch endpoint).run hrun hs₀
  · exact iff_of_true hgood.2 halong
  · exact iff_of_false (fun h => hne (h e he)) halong

/-- A client that comes, then an accept refused by CreateNamedPipe, then a pending one. -/
theorem failed_accept_closed_iff_mixed : ∃ s₀ s, start "" .intoPipe {} = some s₀ ∧
    (machine "" .intoPipe).run s₀ [.clientConnects 0,.finish noError,
      .runHandler { create := some errorNoData },.runHandler {}] = some s ∧
    ∀ e ∈ s.trace, e.Fine := by
  refine ⟨_,_,rfl,rfl,(failed_accept_closed_iff "" {} [.clientConnects 0,.finish noError,
    .runHandler { create := some errorNoData },.runHandler {}] _ _ rfl rfl).mpr ?_⟩
  refine ⟨trivial,fun t ht => ⟨trivial,fun u hu => ?_⟩⟩
  cases ht
  cases hu
  refine ⟨?_,fun v hv => ?_⟩
  · intro status n hio
    cases hio
    rfl
  · cases hv
    refine ⟨?_,fun _ _ => trivial⟩
    intro status n hio
    cases hio

/-- A pending connect is aborted: its handler finds the pipe open, and the accept it
starts assigns to the open pipe. -/
theorem failed_accept_leaves_pipe_open : ¬∀ (endpoint : String) (a₀ : Answers) (ls : List Act)
    (s₀ s : AcceptLoop), start endpoint .intoPipe a₀ = some s₀ →
    (machine endpoint .intoPipe).run s₀ ls = some s → ∀ e ∈ s.trace, e.Fine := by
  intro h
  have hopen := h "" {} [.finish errorOperationAborted,.runHandler {}] _ _ rfl rfl
    (.assigns (some (.pipe 0))) (by decide)
  cases hopen

/-- The handles that handlers have found. -/
def handed (trace : List LoopEvent) : List Handle :=
  trace.filterMap fun
    | .handler _ pipe _ _ => pipe
    | _ => none

end AcceptLoop

/-- An accept starts on and assigns to a closed pipe, and a handler that is told of a
success finds the instance of its own accept, with a client. -/
def LoopEvent.Own : LoopEvent → Prop
  | .starts pipe => pipe = none
  | .assigns pipe => pipe = none
  | .handler ec pipe made connected =>
    ec.failed = false → pipe.isSome = true ∧ pipe = made ∧ connected = true

namespace AcceptLoop

def Act.Quiet : Act → Prop
  | .runHandler a => a.Quiet
  | _ => True

/-- The accept in flight has a handle no handler has found. -/
structure Handing (s : AcceptLoop) : Prop where
  inFlight : InFlight True s
  own : ∀ e ∈ s.trace, e.Own
  nodup : (handed s.trace).Nodup
  made : ∀ h ∈ handed s.trace, ∃ n < s.world.created, h = .pipe n
  next : ∀ h, s.world.owner 0 = some h →
    h ∉ handed s.trace ∧ ∃ n < s.world.created, h = .pipe n

lemma TakesOff.handed_eq {w : World} {trace : List LoopEvent} {t : AcceptLoop}
    (h : TakesOff quiet w trace t) : handed t.trace = handed trace := by
  obtain ⟨es,het,hes⟩ := h.events
  have hnone : handed (.starts none::es) = [] := by
    refine List.filterMap_eq_nil_iff.mpr fun e he => ?_
    obtain rfl | he := List.mem_cons.mp he
    · rfl
    · rw [hes e he]
  rw [het,handed,List.filterMap_append]
  exact (congrArg (handed trace ++ ·) hnone).trans (List.append_nil _)

theorem TakesOff.handing {w : World} {trace : List LoopEvent} {t : AcceptLoop}
    (h : TakesOff True w trace t) (ho : 0 < w.objects) (hown : ∀ e ∈ trace, e.Own)
    (hnodup : (handed trace).Nodup)
    (hmade : ∀ h ∈ handed trace, ∃ n < w.created, h = .pipe n) : Handing t where
  inFlight := h.inFlight ho
  own := h.forall_events hown rfl rfl
  nodup := h.handed_eq ▸ hnodup
  made x hx := by
    rw [h.handed_eq] at hx
    obtain ⟨n,hn,he⟩ := hmade x hx
    exact ⟨n,lt_of_lt_of_le hn h.created_le,he⟩
  next x hx := by
    obtain ⟨rfl,hlt⟩ := h.next x hx
    refine ⟨fun hx => ?_,_,hlt,rfl⟩
    rw [h.handed_eq] at hx
    obtain ⟨n,hn,he⟩ := hmade _ hx
    cases he
    exact Nat.lt_irrefl _ hn

/-- Whatever a handler is told, the next accept is in flight as the last one was. -/
theorem handing_step {s t : AcceptLoop} {l : Act} (hs : Handing s) (hl : l.Quiet)
    (h : step endpoint .byMove s l = some t) : Handing t := by
  obtain ⟨a,p,u,rfl,hd,ht⟩ | ⟨-,hfly,htrace,howner,hcreated⟩ := step_cases hs.inFlight h
  · have hoff : TakesOff True s.world _ t :=
      handler_takesOff hs.inFlight.1 (by simp) (fun _ => hl) ht
    have hfound : handed (s.trace ++ [s.handlerEvent p.ec (s.world.owner 0)]) =
        handed s.trace ++ (s.world.owner 0).toList := by
      cases hp : s.world.owner 0 <;> simp [handed,handlerEvent]
    refine hoff.handing hs.inFlight.1 ?_ ?_ ?_
    · intro e he
      obtain he | he := List.mem_append.mp he
      · exact hs.own e he
      rw [List.mem_singleton.mp he]
      intro hok
      obtain ⟨-,-,h,hp,hm,hc⟩ | ⟨hf,-⟩ | ⟨hf,-⟩ := hs.inFlight.2.deliver hd
      · rw [hp,hm]
        exact ⟨rfl,rfl,by simpa using hc trivial⟩
      · simp [hok] at hf
      · simp [hok] at hf
    · rw [hfound]
      refine List.nodup_append'.mpr ⟨hs.nodup,?_,fun h hh hp => ?_⟩
      · cases s.world.owner 0 <;> simp
      · exact (hs.next h (Option.mem_toList.mp hp)).1 hh
    · rw [hfound]
      intro h hh
      obtain hh | hh := List.mem_append.mp hh
      · exact hs.made h hh
      · exact (hs.next h (Option.mem_toList.mp hh)).2
  · refine ⟨hfly,htrace ▸ hs.own,htrace ▸ hs.nodup,?_,?_⟩
    · rw [htrace,hcreated]
      exact hs.made
    · rw [htrace,hcreated,howner]
      exact hs.next

/-- In every run of the loop that leaves the pipe to the acceptor: an accept starts on, and
assigns to, a closed pipe; a handler without an error finds the instance of its own
accept, which is connected; and no handle is found by two handlers. -/
theorem moved_pipe_delivered_once (endpoint : String) (a₀ : Answers) (ls : List Act)
    (s₀ s : AcceptLoop) (hstart : start endpoint .byMove a₀ = some s₀) (hquiet₀ : a₀.Quiet)
    (hquiet : ∀ l ∈ ls, l.Quiet) (hrun : (machine endpoint .byMove).run s₀ ls = some s) :
    (∀ pipe, .starts pipe ∈ s.trace → pipe = none) ∧
    (∀ pipe, .assigns pipe ∈ s.trace → pipe = none) ∧
    (∀ ec pipe made connected, .handler ec pipe made connected ∈ s.trace → ec.failed = false →
      pipe.isSome = true ∧ pipe = made ∧ connected = true) ∧
    (handed s.trace).Nodup := by
  have hoff : TakesOff True _ _ s₀ := doAccept_takesOff (by rfl) (fun _ => hquiet₀) hstart
  have hs₀ : Handing s₀ := hoff.handing Nat.zero_lt_one (by simp) (by simp [handed])
    (by simp [handed])
  have hkeep : ∀ s l t, Handing s → l.Quiet → (machine endpoint .byMove).step s l = some t →
      Handing t := fun s l t hs hl h => handing_step hs hl h
  have hs := Machine.run_along hkeep hrun hs₀ ((Machine.along_label_iff hrun).mpr hquiet)
  exact ⟨fun _ he => hs.own _ he,fun _ he => hs.own _ he,fun _ _ _ _ he => hs.own _ he,hs.nodup⟩

/-- Pending with success, CreateNamedPipe refused, already connected, pending with an error. -/
theorem moved_pipe_delivered_once_mixed : ∃ s₀ s, start "" .byMove {} = some s₀ ∧
    (machine "" .byMove).run s₀ [.clientConnects 0,.finish noError,
      .runHandler { create := some errorNoData },
      .runHandler { connectError := errorPipeConnected },.runHandler {},
      .finish errorOperationAborted,.runHandler {}] = some s ∧
    (∀ pipe, .starts pipe ∈ s.trace → pipe = none) ∧
    (∀ pipe, .assigns pipe ∈ s.trace → pipe = none) ∧
    (∀ ec pipe made connected, .handler ec pipe made connected ∈ s.trace → ec.failed = false →
      pipe.isSome = true ∧ pipe = made ∧ connected = true) ∧
    (handed s.trace).Nodup := by
  refine ⟨_,_,rfl,rfl,moved_pipe_delivered_once "" {} [.clientConnects 0,.finish noError,
    .runHandler { create := some errorNoData },
    .runHandler { connectError := errorPipeConnected },.runHandler {},
    .finish errorOperationAborted,.runHandler {}] _ _ rfl (fun _ => rfl) ?_ rfl⟩
  simp [Act.Quiet,Answers.Quiet]

end AcceptLoop
end Winext
