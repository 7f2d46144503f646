import Winext.NamedPipe.ServerProgress

/-! `listener` and `echo` of `echoserver_coro`. A coroutine accepts the clients, and the
first accept that fails ends it. -/
namespace Winext
open Lib Details

/-- What ends `listener`: an accept that has failed, or a call that throws. -/
inductive ListenerError
  | failed (ec : ErrorCode)
  | thrown (e : Thrown)
  deriving DecidableEq, Repr

section Listener
open Program (ask)
open LoopCall

/-- The next `async_accept` of `listener`. -/
def listenerAccept (endpoint : String) : LoopProgram (Except ListenerError Unit) := do
  let started ← doAccept .byMove endpoint
  return started.mapError .thrown

/-- `listener` when its `co_await` is resumed. `co_spawn` runs `echo` to its first read, with
the pipe in its frame; the handler's parameter ends with the body of the loop, and also when
`co_await` throws. -/
def listener (endpoint : String) (ec : ErrorCode) : LoopProgram (Except ListenerError Unit) := do
  if ec.failed then
    ask dropSocket
    return .error (.failed ec)
  else
    ask makeSession
    ask startSession
    ask dropSession
    ask dropSocket
    listenerAccept endpoint

end Listener

/-- The program of the server is what `listener` has left to do before it is suspended. -/
abbrev EchoCoro := PipeServer (Except ListenerError Unit)

namespace EchoCoro
open PipeServer

def start (endpoint : String) : EchoCoro := ⟨{},listenerAccept endpoint⟩

/-- `listener` and the handlers of `echo` run on the one thread of the `io_context`. -/
abbrev machine (output : Dword → Dword) (endpoint : String) : Machine EchoCoro Act :=
  PipeServer.machine 1 output .byMove (listener endpoint)

/-- An accept of `listener`, the one it awaits or a later one, can still end with a pipe. -/
def StillAccepts (output : Dword → Dword) (endpoint : String) (s : EchoCoro) : Prop :=
  ∃ ls u d v, (machine output endpoint).run s ls = some u ∧ u.world.ov.deliver = some d ∧
    d.1.ec.failed = false ∧ (machine output endpoint).step u .deliver = some v

end EchoCoro

/-- A call that does not begin or end the call to which the OVERLAPPED is given. -/
def Details.ServerCall.Plain : ServerCall → Prop
  | .connectNamedPipe _ | .overlappedPtr _ => False
  | _ => True

namespace Watched
variable {output : Dword → Dword} {s : Watched}

/-- ConnectNamedPipe has refused the OVERLAPPED, since its client had come and gone. -/
def Refused (s : Watched) : Prop := s.world.ov.io = .returned errorNoData 0

/-- The OVERLAPPED tells whether an instance was left to nobody. -/
def Tells (s : Watched) : Prop := s.leaked = [] ↔ ¬s.Refused

lemma tells_stable : others.Preserves Tells := by
  intro s l t hs h
  cases interfere_cases h with
  | other => exact hs
  | connects =>
    by_cases hio : s.world.ov.io = .pending
    · have hnot : ¬s.Refused := by simp [Refused,hio]
      refine iff_of_true (hs.mpr hnot) ?_
      simp [Refused,Overlapped.finish,hio]
    · simp only [Tells,Refused,Overlapped.finish,if_neg hio,Option.getD_none]
      exact hs

lemma tells_served {c : ServerCall} (hc : c.Plain) (hs : s.Tells) : (s.served output c).Tells := by
  cases c with
  | connectNamedPipe | overlappedPtr => exact hc.elim
  | createNamedPipe | getLastError | print | complete | release | selfComplete => exact hs
  | assign hPipe =>
    simp only [Tells,Refused,served,EchoWorld.performServer] at hs ⊢
    split <;> exact hs

lemma guaranteed_plain {α : Type} {p : ServerProgram α} (hp : p.All ServerCall.Plain)
    (hs : s.Tells) : (serverEnvironment output).Guaranteed (fun _ => Tells) p s := by
  have hown : (serverEnvironment output).alone.Preserves Tells := tells_stable
  refine Environment.Guaranteed.ofAll hown (fun c t r hc ht hr => ?_) hp hs
  cases hr
  exact tells_served hc ht

/-- The OVERLAPPED is new, and no instance has been left to nobody. -/
def Unasked (s : Watched) : Prop := s.leaked = [] ∧ s.world.ov.io = .unused

lemma unleaked_stable : others.Preserves fun s => s.leaked = [] := by
  intro s l t hs h
  cases interfere_cases h with
  | connects | other => exact hs

lemma unasked_stable : others.Preserves Unasked := by
  rintro s l t ⟨hs,hio⟩ h
  refine ⟨unleaked_stable s l t hs h,?_⟩
  cases interfere_cases h with
  | other => exact hio
  | connects => simp [Overlapped.finish,hio]

lemma tells_connects (hs : s.Unasked) (hPipe : Handle) :
    (s.served output (.connectNamedPipe hPipe)).Tells := by
  obtain ⟨hleaked,-⟩ := hs
  have hgone : s.world.leaves (.server (.connectNamedPipe hPipe)) = [] ↔
      s.world.connectError hPipe ≠ errorNoData := by
    cases hPipe with
    | pipe i =>
      cases hx : s.world.instances[i]? with
      | none => simp [EchoWorld.leaves,EchoWorld.connectError,hx]; decide
      | some x =>
        cases hclient : x.client <;> simp [EchoWorld.leaves,EchoWorld.connectError,hx,hclient] <;>
          decide
    | null | invalidHandleValue => simp [EchoWorld.leaves,EchoWorld.connectError]; decide
  have hrefused : (s.served output (.connectNamedPipe hPipe)).Refused ↔
      s.world.connectError hPipe = errorNoData := by
    have hpending : errorIoPending ≠ errorNoData := by decide
    by_cases he : s.world.connectError hPipe = errorIoPending
    · simp [Refused,served,EchoWorld.performServer,EchoWorld.connectNamedPipe,he,Overlapped.pend,
        hpending]
    · simp [Refused,served,EchoWorld.performServer,EchoWorld.connectNamedPipe,he,Overlapped.refuse]
  rw [Tells,hrefused]
  simp only [served,hleaked,List.append_nil]
  exact hgone

/-- After the connect, `accept_detail2` only reads and shows the last error, and the pipe is
assigned and the OVERLAPPED handed over. -/
lemma handOver_plain (hPipe : Handle) (ec : ErrorCode) :
    (handOver hPipe ec).All ServerCall.Plain := by
  simp only [handOver,Program.ask_bind,Program.pure_eq]
  split_ifs
  · refine ⟨trivial,fun assigned => ?_⟩
    cases assigned with
    | error thrown => exact trivial
    | ok _ => exact ⟨trivial,fun _ => trivial⟩
  · exact ⟨trivial,fun _ => ⟨trivial,fun _ => trivial⟩⟩
  · refine ⟨trivial,fun assigned => ?_⟩
    cases assigned with
    | error thrown => exact trivial
    | ok _ => exact ⟨trivial,fun _ => trivial⟩

theorem acceptDetail2_tells (endpoint : String) (hs : s.Unasked) :
    (serverEnvironment output).Guaranteed (fun _ => Tells) (acceptDetail2 .null endpoint {}) s := by
  simp only [acceptDetail2,Program.ask_bind,Program.pure_eq]
  refine guaranteed_served unasked_stable hs fun t ht => ?_
  rw [show (t.world.performServer output (.createNamedPipe endpoint serverPipeSettings)).1 =
    .pipe t.world.instances.length from rfl,if_neg (by simp)]
  refine guaranteed_served unasked_stable ht fun t ht => ?_
  rw [show (t.world.performServer output (.connectNamedPipe _)).1 = false from rfl,
    if_neg (by decide)]
  refine guaranteed_plain ⟨trivial,fun reason => ?_⟩ (tells_connects ht _)
  beta_reduce
  split_ifs
  · exact trivial
  · exact ⟨trivial,fun _ => ⟨trivial,fun _ => trivial⟩⟩
  · exact ⟨trivial,fun _ => ⟨trivial,fun _ => ⟨trivial,fun _ => trivial⟩⟩⟩

theorem asyncAccept_tells (o : Overload) (endpoint : String) (hs : s.leaked = []) :
    (serverEnvironment output).Guaranteed (fun _ => Tells) (o.asyncAccept endpoint) s := by
  rw [o.asyncAccept_eq,acceptOperator,if_neg (by decide),Program.ask_bind]
  refine guaranteed_served unleaked_stable hs fun t ht => Environment.Guaranteed.bind ?_
  have hnew : (t.served output (.overlappedPtr (o = .byMove))).Unasked := ⟨ht,rfl⟩
  exact (acceptDetail2_tells endpoint hnew).mono
    fun out u hu => guaranteed_plain (handOver_plain out.1 out.2) hu

/-- There is nothing more to come of the OVERLAPPED. -/
def Spent (s : Watched) : Prop := s.world.ov.packets = [] ∧ s.world.ov.io ≠ .pending

/-- The accept has failed, and the instance of its client is left to nobody. -/
structure Lost (s : Watched) : Prop where
  idle : s.Idle
  left : s.leaked ≠ []
  spent : s.Spent

/-- What `listener` comes to: it awaits its accept, or was told that the accept has failed
and has ended. -/
inductive Listens (a : Except ListenerError Unit) (t : Watched) : Prop
  | awaits (ha : a = .ok ()) (hbegun : t.Begun) (htells : t.Tells)
  | ended (ec : ErrorCode) (ha : a = .error (.failed ec)) (hlost : t.Lost)

/-- Every other instance than the pipe's has a session or is left to nobody. -/
lemma Listens.books {a : Except ListenerError Unit} (h : s.Listens a) : s.Books s.world.pipe := by
  cases h with
  | awaits _ hbegun => exact hbegun.books.1
  | ended _ _ hlost =>
    obtain ⟨c,ov,hs,-⟩ := hlost.idle
    exact hs.pipe_eq ▸ hs.books

lemma Begun.told (h : s.Begun) {d : Packet × Overlapped} (hd : s.world.ov.deliver = some d) :
    (d.1.ec.failed = true ↔ s.Refused) ∧ d.2.packets = [] ∧ d.2.io ≠ .pending := by
  have hov : ∀ {o : Overlapped} {p : Packet} {io : Io},
      o = { io := io, packets := [p], handedOver := true } →
      s.world.ov = o → d.1 = p ∧ d.2 = { o with packets := [], delivered := [p] } := by
    rintro o p io rfl ho
    rw [ho] at hd
    cases hd
    exact ⟨rfl,rfl⟩
  cases h with
  | asked n h =>
    cases h with
    | waits hs | missed hs =>
      rw [hs.ov_eq] at hd
      cases hd
    | comes _ hs =>
      obtain ⟨hp,ho⟩ := hov rfl hs.ov_eq
      rw [hp,ho,Refused,hs.ov_eq]
      simp [Place.asked]
  | early n hs =>
    obtain ⟨hp,ho⟩ := hov rfl hs.ov_eq
    rw [hp,ho,Refused,hs.ov_eq]
    simp [Place.asked,Place.came,Overlapped.complete]
    decide
  | failed n hs =>
    obtain ⟨hp,ho⟩ := hov rfl hs.ov_eq
    rw [hp,ho,Refused,hs.ov_eq]
    simp [Place.left,Overlapped.complete]
    decide

lemma spent_stable : others.Preserves Spent := by
  rintro s l t ⟨hpackets,hio⟩ h
  cases interfere_cases h with
  | other => exact ⟨hpackets,hio⟩
  | connects => simp [Spent,Overlapped.finish,hio,hpackets]

lemma leaked_stable : others.Preserves fun s => s.leaked ≠ [] := by
  intro s l t hs h
  cases interfere_cases h with
  | connects | other => exact hs

lemma lost_stable : others.Preserves Lost := fun s l t hs h =>
  ⟨idle_stable s l t hs.idle h,leaked_stable s l t hs.left h,spent_stable s l t hs.spent h⟩

lemma Idle.dropSocket {o : Overload} (h : s.Idle) : s.after output o .dropSocket = s := by
  obtain ⟨c,ov,hs,-⟩ := h
  have hsocket : s.world.socket = none := hs.socket_eq
  obtain ⟨⟨instances,lastError,pipe,socket,starting,ov,connecting⟩,missed,leaked⟩ := s
  cases hsocket
  rfl

variable (hconnected : output errorPipeConnected = errorPipeConnected)
variable (hnoData : output errorNoData = errorNoData)
include hconnected hnoData

theorem listenerAccept_watched (endpoint : String) (hs : s.Idle) (hleaked : s.leaked = []) :
    (environment output .byMove).Guaranteed Listens (listenerAccept endpoint) s := by
  have hbegins : (serverEnvironment output).Guaranteed (fun a t => Accepts a t ∧ t.Tells)
      (Overload.asyncAccept .byMove endpoint) s :=
    (asyncAccept_watched hconnected hnoData .byMove endpoint hs).and
      (asyncAccept_tells .byMove endpoint hleaked)
  refine Environment.Guaranteed.bind ((guaranteed_ofServer .byMove hbegins).mono fun a t ht => ?_)
  obtain ⟨⟨rfl,hbegun⟩,htells⟩ := ht
  have hown : (environment output .byMove).alone.Preserves fun s => s.Begun ∧ s.Tells :=
    begun_stable.and tells_stable
  exact Environment.Guaranteed.ofDone _ hown ⟨hbegun,htells⟩ fun u hu => .awaits rfl hu.1 hu.2

/-- `listener` goes on to the next accept when it is given a pipe, and ends when its accept
has failed. -/
theorem listener_watched (endpoint : String) {ec : ErrorCode}
    (h : ec.failed = false ∧ s.Given .byMove ∧ s.leaked = [] ∨
      ec.failed = true ∧ s.Lost) :
    (environment output .byMove).Guaranteed Listens (listener endpoint ec) s := by
  obtain ⟨hec,hgiven,hleaked⟩ | ⟨hec,hlost⟩ := h
  · have hstable : ∀ {P : Watched → Prop}, others.Preserves P →
        others.Preserves fun s => P s ∧ s.leaked = [] := fun hP => hP.and unleaked_stable
    simp only [listener,hec]
    refine guaranteed_after (hstable given_stable) ⟨hgiven,hleaked⟩ fun t ht => ?_
    refine guaranteed_after (hstable made_stable) ⟨ht.1.makeSession,ht.2⟩ fun t ht => ?_
    refine guaranteed_after (hstable started_stable) ⟨ht.1.startSession,ht.2⟩ fun t ht => ?_
    refine guaranteed_after (hstable idle_stable) ⟨ht.1.dropSession,ht.2⟩ fun t ht => ?_
    rw [ht.1.dropSocket]
    exact listenerAccept_watched hconnected hnoData endpoint ht.1 ht.2
  · simp only [listener,hec]
    refine guaranteed_after lost_stable hlost fun t ht => ?_
    rw [ht.idle.dropSocket]
    have hown : (environment output .byMove).alone.Preserves Lost := lost_stable
    exact Environment.Guaranteed.ofDone _ hown ht fun u hu => .ended ec rfl hu

end Watched

namespace EchoCoro
open PipeServer
variable {output : Dword → Dword} {endpoint : String} {s t : EchoCoro} {l : Act}
variable {missed : Option ℕ} {leaked : List ℕ}

/-- `listener` goes on to await an accept or to end, with what has slipped so far. -/
abbrev Watches (output : Dword → Dword) (s : EchoCoro) (missed : Option ℕ) (leaked : List ℕ) :
    Prop :=
  PipeServer.Watches Watched.Listens output .byMove s missed leaked

section Output
variable (hconnected : output errorPipeConnected = errorPipeConnected)
variable (hnoData : output errorNoData = errorNoData)
include hconnected hnoData

theorem start_watches : (start endpoint).Watches output none [] :=
  Watched.listenerAccept_watched hconnected hnoData endpoint Watched.idle_start rfl

lemma listener_resumes : Resumes Watched.Listens output .byMove (listener endpoint) := by
  intro a s d h hd
  cases h with
  | ended ec ha hlost =>
    obtain ⟨-,ps,hps,-⟩ := Overlapped.deliver_eq_some.mp hd
    cases hlost.spent.1.symm.trans hps
  | awaits ha hbegun htells =>
    obtain ⟨hrefused,hpackets,hio⟩ := hbegun.told hd
    obtain ⟨v,hv,-,⟨hec,hgiven⟩ | ⟨hec,hidle⟩⟩ := hbegun.deliver hd .byMove
    · subst hv
      have hkept : s.leaked = [] := htells.mpr fun hr => by simp [hrefused.mpr hr] at hec
      exact Watched.listener_watched hconnected hnoData endpoint (Or.inl ⟨hec,hgiven,hkept⟩)
    · have hleft : s.leaked ≠ [] := fun hnil => htells.mp hnil (hrefused.mp hec)
      subst hv
      exact Watched.listener_watched hconnected hnoData endpoint
        (Or.inr ⟨hec,hidle,hleft,hpackets,hio⟩)

/-- The loop has let nothing slip, or it has. -/
theorem latch_slips : (machine output endpoint).Latch (fun s l => ¬s.Misses l ∧ ¬s.Leaves l)
    (fun s => ∃ g : Option ℕ × List ℕ, s.Watches output g.1 g.2 ∧ g.1 = none ∧ g.2 = [])
    fun s => ∃ g : Option ℕ × List ℕ, s.Watches output g.1 g.2 ∧ ¬(g.1 = none ∧ g.2 = []) := by
  refine Machine.Latch.ofGhost fun s l t g hs hstep => ?_
  obtain ⟨leaked',ht,hleaked⟩ := step_watches (listener_resumes hconnected hnoData) hs hstep
  refine ⟨(g.1.or (s.missedBy l),leaked'),ht,?_⟩
  rw [Option.or_eq_none_iff,missedBy_eq_none,hleaked]
  tauto

end Output

/-- An accept that has not failed is told of its client, or of the next one to connect. -/
lemma stillAccepts_of_begun {a : Except ListenerError Unit} (hp : s.program = .done a)
    (hbegun : Watched.Begun ⟨s.world,none,[]⟩) (htells : Watched.Tells ⟨s.world,none,[]⟩) :
    s.StillAccepts output endpoint := by
  obtain ⟨d,hd⟩ | ⟨n,x,hpipe,hconnecting,hx,habsent,hopen,hov⟩ := Watched.begun_cases hbegun
  · have hec : d.1.ec.failed = false := by
      rw [← Bool.not_eq_true,(hbegun.told hd).1]
      exact htells.mp rfl
    exact ⟨[],s,d,_,rfl,hd,hec,deliver_of_done Nat.zero_lt_one hp hd⟩
  · obtain ⟨w,d,hconnect,hd,hec⟩ := exists_connects 1 output .byMove (listener endpoint) hpipe
      hconnecting hx habsent hopen hov
    exact ⟨[.pipe n .clientConnects],⟨w,s.program⟩,d,_,(Machine.run_cons_iff _).mpr ⟨_,hconnect,rfl⟩,
      hd,hec,deliver_of_done Nat.zero_lt_one hp hd⟩

section Output
variable (hconnected : output errorPipeConnected = errorPipeConnected)
variable (hnoData : output errorNoData = errorNoData)
include hconnected hnoData

/-- Once something has slipped, no accept ends with a pipe. -/
lemma not_stillAccepts (h : s.Watches output missed leaked)
    (hslip : ¬(missed = none ∧ leaked = [])) : ¬s.StillAccepts output endpoint := by
  rintro ⟨ls,u,d,v,hu,hd,hec,hv⟩
  obtain ⟨g,hwatch,hslip⟩ := (latch_slips hconnected hnoData).stay.run hu ⟨(missed,leaked),h,hslip⟩
  cases step_cases hv with
  | @deliver a _ hp _ =>
    cases hwatch.ends hp with
    | ended ec ha hlost =>
      obtain ⟨-,ps,hps,-⟩ := Overlapped.deliver_eq_some.mp hd
      cases hlost.spent.1.symm.trans hps
    | awaits ha hbegun htells =>
      obtain ⟨-,-,hmissed,-⟩ := hbegun.deliver hd .byMove
      have hleft : g.2 ≠ [] := fun hnil => hslip ⟨hmissed,hnil⟩
      have hrefused := (hbegun.told hd).1.mpr (not_not.mp (mt htells.mpr hleft))
      exact absurd (hrefused.symm.trans hec) Bool.true_eq_false.mp

/-- Whenever `listener` is suspended or has ended, it can accept a further client if and only
if no client has connected between ConnectNamedPipe and `assign`, or come and gone before
ConnectNamedPipe. -/
theorem stillAccepts_iff {ls : List Act} {a : Except ListenerError Unit}
    (h : (machine output endpoint).run (start endpoint) ls = some t) (ha : t.program = .done a) :
    t.StillAccepts output endpoint ↔ (machine output endpoint).Along
      (fun s l => ¬s.Misses l ∧ ¬s.Leaves l) (start endpoint) ls := by
  obtain ⟨halong,⟨missed,leaked⟩,hwatch,hkept⟩ | ⟨halong,g,hwatch,hslip⟩ :=
    (latch_slips hconnected hnoData).run h ⟨(none,[]),start_watches hconnected hnoData,rfl,rfl⟩
  · refine iff_of_true ?_ halong
    obtain ⟨rfl,rfl⟩ := hkept
    cases hwatch.ends ha with
    | awaits _ hbegun htells => exact stillAccepts_of_begun ha hbegun htells
    | ended ec _ hlost => exact absurd rfl hlost.left
  · exact iff_of_false (not_stillAccepts hconnected hnoData hwatch hslip) halong

end Output

/-- The second client has gone again before ConnectNamedPipe is called for its instance. -/
def goneClient : List Act :=
  List.replicate 6 .accept ++ [.pipe 0 .clientConnects,.deliver] ++ List.replicate 6 .accept ++
    [.pipe 1 .clientConnects,.pipe 1 .clientDisconnects] ++ List.replicate 7 .accept

theorem stillAccepts_iff_goneClient : ∃ t a,
    (machine id "").run (start "") goneClient = some t ∧ t.program = .done a ∧
    (t.StillAccepts id "" ↔ (machine id "").Along (fun s l => ¬s.Misses l ∧ ¬s.Leaves l)
      (start "") goneClient) :=
  ⟨_,_,rfl,rfl,stillAccepts_iff rfl rfl rfl rfl⟩

end EchoCoro
end Winext
