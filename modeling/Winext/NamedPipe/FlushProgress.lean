import Winext.NamedPipe.FlushServer

/-! What an echo server can still do while destructors wait in FlushFileBuffers: it accepts and
answers as long as one thread is left, and its accept handler does not wait itself. -/
namespace Winext
open Lib Details

namespace EchoServer
open PipeServer
variable {threads : ℕ} {output : Dword → Dword} {o : Overload} {endpoint : String}
variable {s t : EchoServer} {l : Act} {i : ℕ}

/-- A handler has a session let go of by others only when these have had time to end it. -/
lemma Steady.not_letsGo (h : s.Steady) (hl : s.Calm l)
    (hstep : (machine threads output o endpoint).step s l = some t) : ¬t.LetsGo .accept i := by
  rintro ⟨y,hy,⟨hno,-⟩ | ⟨-,hcall,hstarting,r,hr,hfree⟩⟩
  · cases hno
  obtain ⟨w,p⟩ := s
  obtain ⟨known,hown,hcareful⟩ := h.answering.tidy
  obtain ⟨started,hprompt⟩ := h.prompt
  have hjust : ∀ {q : LoopProgram (Except Thrown Unit)} {v : EchoWorld} {begun : Bool},
      q.Prompt begun → .dropSession ∈ nextCall ⟨v,q⟩ → begun = true := by
    intro q v begun hq hcall
    cases q with
    | done a => cases hcall
    | call c next => exact hq.1 (Option.some.inj hcall)
  cases step_cases hstep with
  | @accept c next hp =>
    cases hp
    have hstart := hjust (hprompt.2 _) hcall
    cases c with
    | startSession =>
      -- its read has just been started
      have hstarting : w.starting = some i := (w.modifyAt_starting _ _).symm.trans hstarting
      obtain ⟨x,hx,hop⟩ := hown.made hcareful.1 i hstarting
      obtain ⟨q,hq,-⟩ := Option.map_eq_some_iff.mp hop
      have hyx : (w.modifyAt w.starting .startSession).instances[i]? = some x.startSession := by
        rw [EchoWorld.getElem?_modifyAt,if_pos hstarting,hx]
        rfl
      cases hyx.symm.trans hy
      simp only [PipeInstance.startSession,hq,Option.map_some,Option.some.injEq] at hr
      subst hr
      cases hfree
    | server | makeSession | dropSession | dropSocket => cases hstart
  | deliver => cases hjust (acceptHandler_prompt o endpoint _) hcall
  | pipe =>
    have hnone : nextCall ⟨w,p⟩ = none := hl.1
    cases p with
    | done a => cases hcall
    | call c next => cases hnone

end EchoServer

namespace FlushServer
variable {threads : ℕ} {output : Dword → Dword} {o : Overload} {endpoint : String}
variable {s t : FlushServer} {l : Act}

/-- A client connects between ConnectNamedPipe and `assign`. -/
def Misses (s : FlushServer) : Act → Prop
  | .server l => s.server.Misses l
  | .waits _ | .flushed _ | .clientReads _ _ => False

/-- A calm step of the server is one beside its waiting destructors. -/
lemma lift_step {m : PipeServer.Act} {v : EchoServer} (h : s.Orderly threads)
    (hno : ∀ i, ¬s.HeldUp i) (hm : s.server.Calm m)
    (hstep : (EchoServer.machine (s.free threads) output o endpoint).step s.server m = some v) :
    (machine threads output o endpoint).step s (.server m) = some { s with server := v } := by
  have hflush : s.flushes v = false := by
    by_contra hyes
    obtain ⟨i,hunread,hopen,hgo⟩ :=
      letsGo_of_flushes h.steady hstep (Bool.not_eq_false _ ▸ hyes)
    obtain ⟨x,hx,⟨rfl,hending⟩ | ⟨rfl,hrest⟩⟩ := hgo
    · exact hm.2 rfl x hx hending
    · exact hno i ⟨hunread,hopen,x,hx,Or.inr ⟨rfl,hrest⟩⟩
  have hother : ¬∃ i ∈ s.waiting, m = .pipe i .runHandler := by
    rintro ⟨i,hi,rfl⟩
    obtain ⟨x,hx,-,hending⟩ := h.endsAt i hi
    exact hm.2 rfl x hx hending
  simp only [machine,step,hstep,Option.bind_some,hflush,hother]
  rfl

lemma lift_run {ms : List PipeServer.Act} {v : EchoServer} (h : s.Orderly threads)
    (hno : ∀ i, ¬s.HeldUp i)
    (hcalm : (EchoServer.machine (s.free threads) output o endpoint).Along EchoServer.Calm
      s.server ms)
    (hrun : (EchoServer.machine (s.free threads) output o endpoint).run s.server ms = some v) :
    (machine threads output o endpoint).run s (ms.map .server) = some { s with server := v } ∧
      ∀ i, ¬HeldUp { s with server := v } i := by
  induction ms generalizing s with
  | nil =>
    cases hrun
    exact ⟨rfl,hno⟩
  | cons m ms ih =>
    obtain ⟨u,hu,hrest⟩ := Machine.run_cons_iff _ |>.mp hrun
    obtain ⟨hm,hcalm⟩ := (Machine.along_cons hu).mp hcalm
    have hstep := lift_step h hno hm hu
    obtain ⟨hlift,hheld⟩ := ih (s := { s with server := u }) (step_orderly _ _ _ h hstep)
      (fun i hi => h.steady.not_letsGo hm hu hi.2.2) hcalm hrest
    exact ⟨(Machine.run_cons_iff _).mpr ⟨_,hstep,hlift⟩,hheld⟩

/-- A destructor whose client has read all is done, and gives its thread back. -/
lemma flushed_step {i : ℕ} (h : s.Orderly threads) (hi : i ∈ s.waiting)
    (hread : s.unread i = false) : ∃ v,
      (EchoServer.machine threads output o endpoint).step s.server (.pipe i .runHandler) =
        some v ∧
      (machine threads output o endpoint).step s (.flushed i) =
        some { s with server := v, waiting := s.waiting.erase i } := by
  obtain ⟨x,hx,-,r,hr,-,hfailing⟩ := h.endsAt i hi
  obtain ⟨q,hq⟩ : ∃ q, r.handler = some q := by
    cases hop : r.op <;> simp [Session.failing,Session.handler,hop] at hfailing ⊢
  have hy : PipeInstance.step .runHandler x = some (x.keep q) := by
    simp only [PipeInstance.step,hr,hq,Option.map_some]
  have hbusy : s.server.busy < threads := by
    have hpos := List.length_pos_of_mem hi
    have hroom := h.room
    omega
  obtain ⟨v,hv⟩ : ∃ v, (EchoServer.machine threads output o endpoint).step s.server
      (.pipe i .runHandler) = some v := ⟨_,EchoServer.step_pipe hbusy rfl hx hy⟩
  refine ⟨v,hv,?_⟩
  simp only [machine,step,if_pos (And.intro hi hread),hv]
  rfl

/-- The accept handler does not come to wait by it. -/
lemma heldUp_flushed {n i j : ℕ} {v : EchoServer} {waiting : List ℕ}
    (hends : s.server.EndsAt i)
    (hstep : (EchoServer.machine n output o endpoint).step s.server (.pipe i .runHandler) = some v)
    (h : HeldUp { s with server := v, waiting := waiting } j) : s.HeldUp j := by
  obtain ⟨hunread,⟨y,hy,hopen⟩,z,hz,⟨hno,-⟩ | ⟨-,hcall,hstarting,hfree⟩⟩ := h
  · cases hno
  cases hy.symm.trans hz
  cases PipeServer.step_cases hstep with | pipe _ hxs
  simp only [EchoWorld.afterStep_instances,EchoWorld.afterStep_starting] at hy hstarting
  simp only [unread,EchoWorld.afterStep_instances,hy] at hunread
  by_cases hij : i = j
  · subst hij
    obtain ⟨x,hx,-,hending⟩ := hends
    obtain ⟨y',hxy,hy'⟩ := getElem?_stepAt_self hx hxs
    cases hy.symm.trans hy'
    rw [(PipeInstance.closed_step hxy).mpr (Or.inr ⟨rfl,hending⟩)] at hopen
    cases hopen
  · have hsame := (getElem?_stepAt_of_ne hij hxs).symm.trans hy
    refine ⟨?_,⟨y,hsame,hopen⟩,y,hsame,Or.inr ⟨rfl,hcall,hstarting,hfree⟩⟩
    rw [unread,hsame]
    exact hunread

/-- What the server does by itself, and the system for it. -/
def Act.byServer : Act → Bool
  | .server l => l.byServer
  | .waits _ | .flushed _ => true
  | .clientReads _ _ => false

lemma AcceptsUnaided.threads_pos (h : s.AcceptsUnaided threads output o endpoint) :
    0 < threads := by
  obtain ⟨ms,u,v,-,-,hv⟩ := h
  cases step_cases hv with
  | server hstep => exact Nat.lt_of_lt_of_le (EchoServer.pos_of_deliver hstep) (Nat.sub_le _ _)

lemma run_orderly {ls : List Act} (hthreads : 0 < threads)
    (h : (machine threads output o endpoint).run (start o endpoint) ls = some s) :
    s.Orderly threads := step_orderly.run h (start_orderly hthreads)

/-- Every destructor that waits has a thread of its own. Its session has ended because an
operation has failed or because it has met a message that does not fit, its pipe is still
open, and it is done as soon as the client has read all or has left, and not before. -/
theorem waits_for (hthreads : 0 < threads) {ls : List Act}
    (h : (machine threads output o endpoint).run (start o endpoint) ls = some s) :
    s.server.busy + s.waiting.length ≤ threads ∧ s.waiting.Nodup ∧
      ∀ i ∈ s.waiting, ∃ x, s.server.world.instances[i]? = some x ∧ x.closed = false ∧
        (x.failed = true ∨ x.answerable ≠ x.sent) ∧
        (((machine threads output o endpoint).step s (.flushed i)).isSome ↔ s.unread i = false) := by
  have horderly := run_orderly hthreads h
  refine ⟨horderly.room,horderly.nodup,fun i hi => ?_⟩
  obtain ⟨x,hx,hopen,hending⟩ := horderly.endsAt i hi
  refine ⟨x,hx,hopen,?_,fun hdone => ?_,fun hread => ?_⟩
  · have hmem := List.mem_of_getElem? hx
    have hanswering := horderly.steady.answering
    exact (hanswering.account x hmem (hanswering.mode x hmem)).ending hending
  · obtain ⟨t,ht⟩ := Option.isSome_iff_exists.mp hdone
    cases step_cases ht with
    | flushed _ hread => exact hread
  · obtain ⟨v,-,hstep⟩ := flushed_step horderly hi hread
    rw [hstep]
    rfl

/-- The echo is not read, the message after it does not fit, and the session ends: its
destructor takes a thread up. -/
def unreadEcho : List Act :=
  (EchoServer.oneMessage [104,105] [.pipe 0 (.writes 2),.pipe 0 .runHandler,
    .pipe 0 (.clientWrites (List.replicate 1025 0)),.pipe 0 .readEnds]).map .server ++ [.waits 0]

theorem waits_for_unreadEcho : ∃ s x,
    (machine 1 id .intoPipe "").run (start .intoPipe "") unreadEcho = some s ∧
    s.server.world.instances[0]? = some x ∧ x.closed = false ∧
    (x.failed = true ∨ x.answerable ≠ x.sent) := by
  have hrun : ((machine 1 id .intoPipe "").run (start .intoPipe "") unreadEcho).map waiting =
      some [0] := by decide +kernel
  obtain ⟨s,hs,hwaiting⟩ := Option.map_eq_some_iff.mp hrun
  obtain ⟨-,-,hall⟩ := waits_for Nat.one_pos hs
  obtain ⟨x,hx,hopen,hcut,-⟩ := hall 0 (by simp [hwaiting])
  exact ⟨s,x,hs,hx,hopen,hcut⟩

/-- Where a thread does not wait for a client there is one, once a destructor that is done
has given it back. -/
lemma exists_room (h : s.Orderly threads) (hno : ∀ i, ¬s.HeldUp i)
    (hdelayed : s.delayed < threads) (output : Dword → Dword) (o : Overload) (endpoint : String) :
    ∃ ms t, (∀ l ∈ ms, ∃ i, l = .flushed i) ∧
      (machine threads output o endpoint).run s ms = some t ∧ t.waiting.length < threads ∧
      (∀ i, ¬t.HeldUp i) ∧ ∀ (i : ℕ) x, s.server.world.instances[i]? = some x →
        ∃ y, t.server.world.instances[i]? = some y ∧ x.Onward y := by
  by_cases hroom : s.waiting.length < threads
  · exact ⟨[],s,by simp,rfl,hroom,hno,fun i x hx => ⟨x,hx,.refl x⟩⟩
  · have hread : ∃ i ∈ s.waiting, s.unread i = false := by
      by_contra hall
      simp only [not_exists,not_and,Bool.not_eq_false] at hall
      rw [delayed,List.filter_eq_self.mpr hall] at hdelayed
      exact hroom hdelayed
    obtain ⟨i,hi,hread⟩ := hread
    obtain ⟨v,hv,hstep⟩ := flushed_step h hi hread
    have hrun : (machine threads output o endpoint).run s [.flushed i] = some _ :=
      (Machine.run_cons_iff _).mpr ⟨_,hstep,rfl⟩
    refine ⟨[.flushed i],_,by simp,hrun,?_,
      fun j hj => hno j (heldUp_flushed (h.endsAt i hi) hv hj),fun j x hx => ?_⟩
    · have hlength := List.length_erase_of_mem hi
      have hpos := List.length_pos_of_mem hi
      have hle := h.room
      simp only
      omega
    · exact EchoServer.step_onward (l := .pipe i .runHandler) rfl hv hx

lemma along_flushed {ms : List Act} (hms : ∀ l ∈ ms, ∃ i, l = .flushed i) :
    (machine threads output o endpoint).Along (fun s l => ¬s.Misses l) s ms := by
  refine Machine.along_iff_split.mpr fun before l after t hsplit ht hmiss => ?_
  obtain ⟨i,rfl⟩ := hms l (by simp [hsplit])
  exact hmiss

section Output
variable (hconnected : output errorPipeConnected = errorPipeConnected)
variable (hnoData : output errorNoData = errorNoData)
include hconnected hnoData

theorem latch_misses : (machine threads output o endpoint).Latch (fun s l => ¬s.Misses l)
    (fun s => s.server.Awake output o) fun s => s.server.Asleep output o := by
  have hlatch : ∀ n, (EchoServer.machine n output o endpoint).Latch (fun s l => ¬s.Misses l)
      (EchoServer.Awake output o) (EchoServer.Asleep output o) :=
    fun n => EchoServer.latch_misses hconnected hnoData
  constructor
  · intro s l t hs hl hstep
    cases step_cases hstep with
    | server hu => exact (hlatch _).keep _ _ _ hs hl hu
    | waits | clientReads => exact hs
    | flushed _ _ hu =>
      refine (hlatch _).keep _ _ _ hs ?_ hu
      rintro ⟨hk,-⟩
      cases hk
  · intro s l t hs hl hstep
    cases step_cases hstep with
    | server hu => exact (hlatch _).trip _ _ _ hs hl hu
    | waits | clientReads | flushed => exact absurd not_false hl
  · intro s l t hs hstep
    cases step_cases hstep with
    | server hu => exact (hlatch _).stay _ _ _ hs hu
    | waits | clientReads => exact hs
    | flushed _ _ hu => exact (hlatch _).stay _ _ _ hs hu

/-- A server whose accept handler goes on, and that has a thread left, accepts. -/
lemma acceptsUnaided_of_awake (h : s.Orderly threads) (hawake : s.server.Awake output o)
    (hdelayed : s.delayed < threads) (hno : ∀ i, ¬s.HeldUp i) :
    s.AcceptsUnaided threads output o endpoint := by
  obtain ⟨ms,t,hms,ht,hroom,hno,-⟩ := exists_room h hno hdelayed output o endpoint
  have htawake : t.server.Awake output o :=
    Machine.run_along (latch_misses hconnected hnoData).keep ht hawake (along_flushed hms)
  have horderly : t.Orderly threads := step_orderly.run ht h
  have hfree : 0 < t.free threads := Nat.sub_pos_of_lt hroom
  obtain ⟨ls,u,v,hcalm,hls,hu,hv⟩ := htawake.delivers hconnected hnoData hfree endpoint
  obtain ⟨hlift,hheld⟩ := lift_run horderly hno hcalm hu
  refine ⟨ms ++ ls.map .server,_,_,fun l hl i hi => ?_,Machine.run_append _ ht hlift,
    lift_step (step_orderly.run hlift horderly) hheld trivial hv⟩
  obtain hl | hl := List.mem_append.mp hl
  · obtain ⟨j,rfl⟩ := hms l hl
    exact id
  · obtain ⟨m,hm,rfl⟩ := List.mem_map.mp hl
    obtain rfl | ⟨n,rfl⟩ := hls m hm <;> simp [Act.lets]

/-- A server that has missed a client does not accept, with whatever threads. -/
lemma AcceptsUnaided.not_asleep (h : s.AcceptsUnaided threads output o endpoint) :
    ¬s.server.Asleep output o := by
  intro hasleep
  obtain ⟨ms,u,v,-,hu,hv⟩ := h
  have hu := (latch_misses hconnected hnoData).stay.run hu hasleep
  cases step_cases hv with
  | server hstep => exact hu.not_canAccept hconnected hnoData ⟨[],_,_,rfl,hstep⟩

lemma run_latch {ls : List Act}
    (h : (machine threads output o endpoint).run (start o endpoint) ls = some s) :
    (machine threads output o endpoint).Along (fun s l => ¬s.Misses l) (start o endpoint) ls ∧
        s.server.Awake output o ∨
      ¬(machine threads output o endpoint).Along (fun s l => ¬s.Misses l) (start o endpoint) ls ∧
        s.server.Asleep output o :=
  (latch_misses hconnected hnoData).run h ⟨[],EchoServer.start_watches hconnected hnoData⟩

/-- At every moment the server can come to run another accept handler, without a read or a
departure of the clients that a thread waits for, if and only if it has missed no client, a
thread is left, and its accept handler does not wait itself. -/
theorem accepts_iff {ls : List Act}
    (h : (machine threads output o endpoint).run (start o endpoint) ls = some s) :
    s.AcceptsUnaided threads output o endpoint ↔
      (machine threads output o endpoint).Along (fun s l => ¬s.Misses l) (start o endpoint) ls ∧
        s.delayed < threads ∧ ∀ i, ¬s.HeldUp i := by
  constructor
  · intro haccepts
    have hasleep := haccepts.not_asleep hconnected hnoData
    obtain ⟨halong,-⟩ | ⟨-,hno⟩ := run_latch hconnected hnoData h
    · exact ⟨halong,haccepts.room (run_orderly haccepts.threads_pos h).nodup⟩
    · exact absurd hno hasleep
  · rintro ⟨halong,hdelayed,hno⟩
    obtain ⟨-,hawake⟩ | ⟨hslip,-⟩ := run_latch hconnected hnoData h
    · exact acceptsUnaided_of_awake hconnected hnoData
        (run_orderly (Nat.zero_lt_of_lt hdelayed) h) hawake hdelayed hno
    · exact absurd halong hslip

end Output

theorem accepts_iff_unreadEcho : ∃ s,
    (machine 1 id .intoPipe "").run (start .intoPipe "") unreadEcho = some s ∧
    ¬s.AcceptsUnaided 1 id .intoPipe "" := by
  have hrun : ((machine 1 id .intoPipe "").run (start .intoPipe "") unreadEcho).map delayed =
      some 1 := by decide +kernel
  obtain ⟨s,hs,hdelayed⟩ := Option.map_eq_some_iff.mp hrun
  refine ⟨s,hs,fun haccepts => ?_⟩
  obtain ⟨-,hlt,-⟩ := (accepts_iff rfl rfl hs).mp haccepts
  rw [hdelayed] at hlt
  exact Nat.lt_irrefl 1 hlt

section Output
variable (hconnected : output errorPipeConnected = errorPipeConnected)
variable (hnoData : output errorNoData = errorNoData)
include hconnected hnoData

/-- Such a server can also, without anything that its clients would have to do, come to write
back all that is to be written to those whose sessions have not failed, at once: the quota of
a pipe is taken to be unlimited, so that no write waits for its client to read. -/
theorem all_answered {ls : List Act}
    (h : (machine threads output o endpoint).run (start o endpoint) ls = some s)
    (haccepts : s.AcceptsUnaided threads output o endpoint) :
    ∃ ms t, (∀ l ∈ ms, l.byServer = true) ∧
      (machine threads output o endpoint).run s ms = some t ∧
      ∀ (i : ℕ) x, s.server.world.instances[i]? = some x → x.client = .connected →
        x.failed = false →
        ∃ y, t.server.world.instances[i]? = some y ∧ y.written = x.answerable.flatten := by
  have horderly := run_orderly haccepts.threads_pos h
  obtain ⟨hdelayed,hno⟩ := haccepts.room horderly.nodup
  have hawake : s.server.Awake output o := by
    obtain ⟨-,hawake⟩ | ⟨-,hasleep⟩ := run_latch hconnected hnoData h
    · exact hawake
    · exact absurd hasleep (haccepts.not_asleep hconnected hnoData)
  obtain ⟨ms,t,hms,ht,hroom,hno,honward⟩ := exists_room horderly hno hdelayed output o endpoint
  have htorderly : t.Orderly threads := step_orderly.run ht horderly
  have hready : t.server.Ready output o := by
    refine ⟨htorderly.steady.answering,htorderly.steady.sized,?_⟩
    exact Machine.run_along (latch_misses hconnected hnoData).keep ht hawake (along_flushed hms)
  have hfree : 0 < t.free threads := Nat.sub_pos_of_lt hroom
  obtain ⟨ls,v,hgentle,hv,hall⟩ := hready.answers hconnected hnoData hfree endpoint
  have hserver := EchoServer.byServer_of_gentle hv hgentle
  obtain ⟨hlift,-⟩ := lift_run htorderly hno (EchoServer.calm_of_gentle hv hgentle) hv
  refine ⟨ms ++ ls.map .server,_,fun l hl => ?_,Machine.run_append _ ht hlift,
    fun i x hx hclient hfailed => ?_⟩
  · obtain hl | hl := List.mem_append.mp hl
    · obtain ⟨j,rfl⟩ := hms l hl
      rfl
    · obtain ⟨m,hm,rfl⟩ := List.mem_map.mp hl
      exact hserver m hm
  · obtain ⟨y,hy,hxy⟩ := honward i x hx
    obtain ⟨z,hz,hwritten⟩ := hall i y hy (hxy.client.trans hclient) (hxy.failed.trans hfailed)
    exact ⟨z,hz,hwritten.trans (congrArg List.flatten hxy.answerable)⟩

end Output

/-- Beside the thread that waits, the next client comes and writes. -/
def nextClient : List Act :=
  unreadEcho ++ [.server (.pipe 1 .clientConnects),.server (.pipe 1 (.clientWrites [104,105]))]

theorem all_answered_nextClient : ∃ s ms t,
    (machine 2 id .intoPipe "").run (start .intoPipe "") nextClient = some s ∧
    s.waiting = [0] ∧ (∀ l ∈ ms, l.byServer = true) ∧
    (machine 2 id .intoPipe "").run s ms = some t ∧ t.server.writtenAt 1 = some [104,105] := by
  have hstate : ((machine 2 id .intoPipe "").run (start .intoPipe "") nextClient).bind (fun s =>
      s.server.world.instances[1]?.map fun x => (s.waiting,x.client,x.failed,x.answerable)) =
      some ([0],.connected,false,[[104,105]]) := by decide +kernel
  have hnext : (((machine 2 id .intoPipe "").run (start .intoPipe "") nextClient).bind fun s =>
      (machine 2 id .intoPipe "").step s (.server .deliver)).isSome := by decide +kernel
  obtain ⟨s,hs,hstate⟩ := Option.bind_eq_some_iff.mp hstate
  obtain ⟨x,hx,hvalues⟩ := Option.map_eq_some_iff.mp hstate
  simp only [Prod.mk.injEq] at hvalues
  obtain ⟨hwaiting,hclient,hfailed,hanswerable⟩ := hvalues
  rw [hs,Option.bind_some] at hnext
  obtain ⟨v,hv⟩ := Option.isSome_iff_exists.mp hnext
  obtain ⟨ms,t,hms,ht,hall⟩ := all_answered rfl rfl hs ⟨[],s,v,by simp,rfl,hv⟩
  obtain ⟨y,hy,hwritten⟩ := hall 1 x hx hclient hfailed
  refine ⟨s,ms,t,hs,hwaiting,hms,ht,?_⟩
  rw [EchoServer.writtenAt,hy,Option.map_some,hwritten,hanswerable]
  rfl

end FlushServer
end Winext
