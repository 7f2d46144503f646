import Winext.NamedPipe.Endpoint
import Winext.NamedPipe.ServerWatch

/-! What an echo server can still do: it accepts a further client, and gives those that are
there their session, unless a client's connect has fallen between ConnectNamedPipe and
`assign`. -/
namespace Winext
open Lib Details

namespace EchoServer
open PipeServer
variable {threads : ℕ} {output : Dword → Dword} {o : Overload} {endpoint : String}
variable {s t u : EchoServer} {l : Act} {missed : Option ℕ} {leaked : List ℕ}

/-- The server goes on to begin an accept, with what its loop has let slip so far. -/
abbrev Watches (output : Dword → Dword) (o : Overload) (s : EchoServer) (missed : Option ℕ)
    (leaked : List ℕ) : Prop :=
  PipeServer.Watches Watched.Accepts output o s missed leaked

lemma Watches.begun {a : Except Thrown Unit} (h : s.Watches output o missed leaked)
    (hp : s.program = .done a) : a = .ok () ∧ Watched.Begun ⟨s.world,missed,leaked⟩ :=
  h.ends hp

section Output
variable (hconnected : output errorPipeConnected = errorPipeConnected)
variable (hnoData : output errorNoData = errorNoData)
include hconnected hnoData

theorem start_watches : (start o endpoint).Watches output o none [] :=
  Watched.doAccept_watched hconnected hnoData o endpoint Watched.idle_start

lemma acceptHandler_resumes : Resumes Watched.Accepts output o (acceptHandler o endpoint) := by
  rintro a s d ⟨-,hbegun⟩ hd
  obtain ⟨v,hv,-,hcases⟩ := hbegun.deliver hd o
  subst hv
  exact Watched.acceptHandler_watched hconnected hnoData endpoint hcases

/-- One step of the server, and what it lets slip. -/
theorem step_watches (h : s.Watches output o missed leaked)
    (hstep : (machine threads output o endpoint).step s l = some t) :
    ∃ leaked', t.Watches output o (missed.or (s.missedBy l)) leaked' ∧
      (leaked' = [] ↔ leaked = [] ∧ ¬s.Leaves l) :=
  PipeServer.step_watches (acceptHandler_resumes hconnected hnoData) h hstep

theorem run_watches {ls : List Act} (h : s.Watches output o missed leaked)
    (hrun : (machine threads output o endpoint).run s ls = some t) :
    ∃ missed' leaked', t.Watches output o missed' leaked' ∧ (missed ≠ none → missed' = missed) := by
  induction ls generalizing s missed leaked with
  | nil =>
    cases hrun
    exact ⟨missed,leaked,h,fun _ => rfl⟩
  | cons l ls ih =>
    obtain ⟨u,hu,hrest⟩ := Machine.run_cons_iff _ |>.mp hrun
    obtain ⟨leaked',hu,-⟩ := step_watches hconnected hnoData h hu
    obtain ⟨missed',leaked',ht,hsame⟩ := ih hu hrest
    refine ⟨missed',leaked',ht,fun hne => ?_⟩
    obtain ⟨n,rfl⟩ := Option.ne_none_iff_exists'.mp hne
    exact hsame (by simp)

end Output

/-- Neither the loop nor a session lets go of what a client may still read: while no accept
handler runs, sessions take their steps, and none of them ends. -/
def Calm (s : EchoServer) : Act → Prop
  | .accept | .deliver => True
  | .pipe i k => s.nextCall = none ∧
      (k = .runHandler → ∀ x, s.world.instances[i]? = some x → ¬x.Ending)

lemma along_calm {ls : List Act} (hls : ∀ l ∈ ls, l = .accept ∨ l = .deliver) :
    (machine threads output o endpoint).Along Calm s ls := by
  refine Machine.along_iff_split.mpr fun before l after t hsplit ht => ?_
  obtain rfl | rfl := hls l (by simp [hsplit]) <;> trivial

/-- The instance exists, its client is still where it was, and its session, if any, is kept. -/
def Continues (x : PipeInstance) (w : EchoWorld) (i : ℕ) : Prop :=
  ∃ y, w.instances[i]? = some y ∧ y.client = x.client ∧ (x.session ≠ none → y.session ≠ none)

/-- No call of the loop moves a client or takes a session away. -/
lemma continues_loopFrame : LoopFrame fun x y =>
    y.client = x.client ∧ (x.session ≠ none → y.session ≠ none) where
  refl x := ⟨rfl,id⟩
  makeSession x := ⟨rfl,fun _ => by simp [PipeInstance.makeSession]⟩
  startSession x := ⟨rfl,by simp [PipeInstance.startSession]⟩
  dropSession x := by
    unfold PipeInstance.dropSession
    split
    · exact ⟨rfl,fun _ => by simp [PipeInstance.keep]⟩
    · exact ⟨rfl,id⟩
  close x := ⟨rfl,id⟩

/-- The accept handler comes to its end, if nothing else happens. -/
theorem finishes (threads : ℕ) (output : Dword → Dword) (o : Overload) (endpoint : String)
    (s : EchoServer) : ∃ ls u a, (∀ l ∈ ls, l = .accept) ∧
      (machine threads output o endpoint).run s ls = some u ∧ u.program = .done a ∧
      ∀ i x, s.world.instances[i]? = some x → Continues x u.world i := by
  obtain ⟨w,p⟩ := s
  induction p generalizing w with
  | done a => exact ⟨[],_,a,by simp,rfl,rfl,fun i x hx => ⟨x,hx,rfl,id⟩⟩
  | call c next ih =>
    obtain ⟨ls,u,a,hls,hu,ha,hsame⟩ := ih (w.perform output o c).1 (w.perform output o c).2
    refine ⟨.accept::ls,u,a,by simpa using hls,?_,ha,fun i x hx => ?_⟩
    · exact (Machine.run_cons_iff _).mpr ⟨_,rfl,hu⟩
    · obtain ⟨y,hy,hclient,hsession⟩ := EchoWorld.frame_perform continues_loopFrame hx output o c
      obtain ⟨z,hz,hclient',hsession'⟩ := hsame i y hy
      exact ⟨z,hz,hclient'.trans hclient,fun hne => hsession' (hsession hne)⟩

/-- The instance has been given a session. -/
def Attended (i : ℕ) (s : EchoServer) : Prop :=
  ∃ x, s.world.instances[i]? = some x ∧ x.session ≠ none

theorem attended_preserved (i : ℕ) : (machine threads output o endpoint).Preserves (Attended i) := by
  rintro s l t ⟨x,hx,hs⟩ hstep
  obtain ⟨y,hy,⟨-,hsession⟩ | ⟨k,-,hxy⟩⟩ := frame_step continues_loopFrame hstep hx
  · exact ⟨y,hy,hsession hs⟩
  · exact ⟨y,hy,fun hnone => hs ((PipeInstance.step_session hxy).mp hnone)⟩

/-- An instance whose client is there and that has no session is the current one. -/
lemma books_current {v : Watched} {cur : Option ℕ} {i : ℕ} {x : PipeInstance} (h : v.Books cur)
    (hx : v.world.instances[i]? = some x) (hnone : x.session = none)
    (hclient : x.client = .connected) :
    cur = some i := by
  obtain hcur | hi := h.others i x hx hnone
  · exact hcur
  · obtain ⟨-,y,hy,-,hgone⟩ := h.leaked i hi
    cases hx.symm.trans hy
    rw [hclient] at hgone
    cases hgone

/-- The handler of its accept is to be told that such a client is there. -/
lemma begun_told {w : EchoWorld} (h : Watched.Begun ⟨w,none,leaked⟩) {i : ℕ} {x : PipeInstance}
    (hx : w.instances[i]? = some x) (hnone : x.session = none) (hclient : x.client = .connected) :
    ∃ d, w.ov.deliver = some d ∧ d.1.ec.failed = false := by
  cases h with
  | asked n h =>
    cases h with
    | waits hs hn =>
      cases books_current hs.books hx hnone hclient
      obtain ⟨y,hy,-,habsent⟩ := hn
      cases hx.symm.trans hy
      rw [hclient] at habsent
      cases habsent
    | comes _ hs =>
      have hov : w.ov = { io := .finished noError 0, packets := [⟨{},0⟩], handedOver := true } :=
        hs.ov_eq
      refine ⟨_,by rw [hov]; rfl,rfl⟩
    | missed hs => cases hs.missed_eq
  | early n hs =>
    have hov : w.ov = Overlapped.complete (Watched.Place.came n).ov {} 0 := hs.ov_eq
    exact ⟨_,by rw [hov]; rfl,rfl⟩
  | failed n hs =>
    cases books_current hs.books hx hnone hclient

/-- The server goes on to begin an accept, and has missed no client. -/
def Awake (output : Dword → Dword) (o : Overload) (s : EchoServer) : Prop :=
  ∃ leaked, s.Watches output o none leaked

/-- It has missed one, whose instance will not get a session. -/
def Asleep (output : Dword → Dword) (o : Overload) (s : EchoServer) : Prop :=
  ∃ n leaked, s.Watches output o (some n) leaked

section Output
variable (hconnected : output errorPipeConnected = errorPipeConnected)
variable (hnoData : output errorNoData = errorNoData)
include hconnected hnoData

theorem latch_misses : (machine threads output o endpoint).Latch (fun s l => ¬s.Misses l)
    (Awake output o) (Asleep output o) where
  keep := by
    rintro s l t ⟨leaked,hs⟩ hl hstep
    obtain ⟨leaked',ht,-⟩ := step_watches hconnected hnoData hs hstep
    rw [missedBy_eq_none.mpr hl] at ht
    exact ⟨leaked',ht⟩
  trip := by
    rintro s l t ⟨leaked,hs⟩ hl hstep
    obtain ⟨leaked',ht,-⟩ := step_watches hconnected hnoData hs hstep
    obtain ⟨n,hn⟩ := Option.ne_none_iff_exists'.mp (mt missedBy_eq_none.mp hl)
    rw [hn] at ht
    exact ⟨n,leaked',ht⟩
  stay := by
    rintro s l t ⟨n,leaked,hs⟩ hstep
    obtain ⟨leaked',ht,-⟩ := step_watches hconnected hnoData hs hstep
    exact ⟨n,leaked',ht⟩

/-- A server that is awake comes to the end of its handler awake. -/
lemma Awake.finishes (h : s.Awake output o) (threads : ℕ) (endpoint : String) :
    ∃ ls u a leaked, (∀ l ∈ ls, l = .accept) ∧
      (machine threads output o endpoint).run s ls = some u ∧
      u.program = .done a ∧ u.Watches output o none leaked ∧
      ∀ i x, s.world.instances[i]? = some x → Continues x u.world i := by
  obtain ⟨ls,u,a,hls,hu,ha,hsame⟩ := EchoServer.finishes threads output o endpoint s
  have hquiet : (machine threads output o endpoint).Along (fun s l => ¬s.Misses l) s ls := by
    refine Machine.along_iff_split.mpr fun before l after t hsplit ht hmiss => ?_
    rw [hls l (by simp [hsplit])] at hmiss
    exact hmiss
  obtain ⟨leaked,hwatch⟩ := Machine.run_along (latch_misses hconnected hnoData).keep hu h hquiet
  exact ⟨ls,u,a,leaked,hls,hu,ha,hwatch,hsame⟩

/-- The accept handler comes to its end and, when the next client is there, is run again. -/
lemma Awake.delivers (hthreads : 0 < threads) (h : s.Awake output o) (endpoint : String) :
    ∃ ls u v, (machine threads output o endpoint).Along Calm s ls ∧
      (∀ l ∈ ls, l = .accept ∨ ∃ n, l = .pipe n .clientConnects) ∧
      (machine threads output o endpoint).run s ls = some u ∧
      (machine threads output o endpoint).step u .deliver = some v := by
  obtain ⟨ls,u,a,leaked,hls,hu,ha,hwatch,-⟩ := h.finishes hconnected hnoData threads endpoint
  have hcalm : (machine threads output o endpoint).Along Calm s ls :=
    along_calm fun l hl => Or.inl (hls l hl)
  obtain ⟨d,hd⟩ | ⟨n,x,hpipe,hconnecting,hx,habsent,hopen,hov⟩ := Watched.begun_cases (hwatch.begun ha).2
  · exact ⟨ls,u,_,hcalm,fun l hl => Or.inl (hls l hl),hu,deliver_of_done hthreads ha hd⟩
  · -- the accept waits for a client, and the next one to connect ends it
    obtain ⟨w,d,hconnect,hd,-⟩ := exists_connects threads output o (acceptHandler o endpoint) hpipe
      hconnecting hx habsent hopen hov
    refine ⟨ls ++ [.pipe n .clientConnects],_,_,?_,fun l hl => ?_,Machine.run_append _ hu ?_,
      deliver_of_done (s := ⟨w,u.program⟩) hthreads ha hd⟩
    · refine (Machine.along_append hu).mpr ⟨hcalm,(Machine.along_cons hconnect).mpr ⟨?_,trivial⟩⟩
      exact ⟨by rw [nextCall,ha],by simp⟩
    · obtain hl | hl := List.mem_append.mp hl
      · exact Or.inl (hls l hl)
      · exact Or.inr ⟨n,List.mem_singleton.mp hl⟩
    · exact (Machine.run_cons_iff _).mpr ⟨_,hconnect,rfl⟩

/-- An accept handler can still be run. -/
def CanAccept (threads : ℕ) (output : Dword → Dword) (o : Overload) (endpoint : String)
    (s : EchoServer) : Prop :=
  ∃ ls u v, (machine threads output o endpoint).run s ls = some u ∧
    (machine threads output o endpoint).step u .deliver = some v

theorem Awake.canAccept (hthreads : 0 < threads) (h : s.Awake output o) :
    s.CanAccept threads output o endpoint := by
  obtain ⟨ls,u,v,-,-,hu,hv⟩ := h.delivers hconnected hnoData hthreads endpoint
  exact ⟨ls,u,v,hu,hv⟩

/-- A server that has missed a client runs no accept handler any more. -/
theorem Asleep.not_canAccept (h : s.Asleep output o) : ¬s.CanAccept threads output o endpoint := by
  rintro ⟨ls,u,v,hu,hv⟩
  obtain ⟨n,leaked,hwatch⟩ := (latch_misses hconnected hnoData).stay.run hu h
  cases step_cases hv with
  | @deliver a d hp hd =>
    obtain ⟨-,-,hmissed,-⟩ := (hwatch.begun hp).2.deliver hd o
    cases hmissed

/-- The server can accept a further client if and only if no client has connected between
ConnectNamedPipe and `assign`. -/
theorem canAccept_iff (hthreads : 0 < threads) {ls : List Act}
    (h : (machine threads output o endpoint).run (start o endpoint) ls = some t) :
    t.CanAccept threads output o endpoint ↔
      (machine threads output o endpoint).Along (fun s l => ¬s.Misses l) (start o endpoint) ls := by
  obtain ⟨halong,hgood⟩ | ⟨halong,hbad⟩ := (latch_misses hconnected hnoData).run h
    ⟨[],start_watches hconnected hnoData⟩
  · exact iff_of_true (hgood.canAccept hconnected hnoData hthreads) halong
  · exact iff_of_false (hbad.not_canAccept hconnected hnoData) halong

end Output

/-- Two clients, one after the other; the second comes before its instance is waited for. -/
def twoClients : List Act :=
  List.replicate 6 .accept ++ [.pipe 0 .clientConnects,.deliver] ++ List.replicate 5 .accept ++
    [.pipe 1 .clientConnects] ++ List.replicate 7 .accept

theorem canAccept_iff_twoClients : ∃ t,
    (machine 1 id .byMove "").run (start .byMove "") twoClients = some t ∧
    (t.CanAccept 1 id .byMove "" ↔
      (machine 1 id .byMove "").Along (fun s l => ¬s.Misses l) (start .byMove "") twoClients) :=
  ⟨_,rfl,canAccept_iff rfl rfl (by decide) rfl⟩

/-- The client of an instance can still get its session. -/
def Attendable (threads : ℕ) (output : Dword → Dword) (o : Overload) (endpoint : String) (i : ℕ)
    (s : EchoServer) : Prop :=
  ∃ ls u, (machine threads output o endpoint).run s ls = some u ∧ u.Attended i

def ClientsAttended (threads : ℕ) (output : Dword → Dword) (o : Overload) (endpoint : String)
    (s : EchoServer) : Prop :=
  ∀ i x, s.world.instances[i]? = some x → x.client = .connected →
    s.Attendable threads output o endpoint i

section Output
variable (hconnected : output errorPipeConnected = errorPipeConnected)
variable (hnoData : output errorNoData = errorNoData)
include hconnected hnoData

/-- The handlers of accepts give the client of an instance its session. -/
theorem Awake.attends (h : s.Awake output o) (hthreads : 0 < threads) (endpoint : String)
    {i : ℕ} {x : PipeInstance} (hx : s.world.instances[i]? = some x)
    (hclient : x.client = .connected) :
    ∃ ls u, (∀ l ∈ ls, l = .accept ∨ l = .deliver) ∧
      (machine threads output o endpoint).run s ls = some u ∧ u.Attended i := by
  obtain ⟨ls,u,a,leaked,hls,hu,ha,hwatch,hsame⟩ := h.finishes hconnected hnoData threads endpoint
  obtain ⟨y,hy,hyclient,-⟩ := hsame i x hx
  rw [hclient] at hyclient
  by_cases hnone : y.session = none
  · have hbegun := (hwatch.begun ha).2
    obtain ⟨d,hd,hec⟩ := begun_told hbegun hy hnone hyclient
    -- its handler is run, and makes the session
    obtain ⟨next,hnext⟩ : ∃ next, acceptHandler o endpoint d.1.ec = .call .makeSession next := by
      simp only [acceptHandler,hec]
      exact ⟨_,rfl⟩
    have hdeliver : (machine threads output o endpoint).step u .deliver =
        some ⟨({ u.world with ov := d.2 }).handPipe o,.call .makeSession next⟩ :=
      hnext ▸ deliver_of_done hthreads ha hd
    obtain ⟨v,hv,-,⟨-,hgiven⟩ | ⟨hfail,-⟩⟩ := hbegun.deliver hd o
    · have hmade : (v.after output o .makeSession).Made := hgiven.makeSession
      obtain ⟨_,_,_,⟨hs,-⟩,-⟩ := hmade
      have hyhere : v.world.instances[i]? = some y := by
        rw [hv]
        simpa only [EchoWorld.handPipe_instances] using hy
      obtain ⟨z,hz,hzclient,-⟩ :=
        EchoWorld.frame_perform continues_loopFrame hyhere output o .makeSession
      refine ⟨ls ++ [.deliver,.accept],_,fun l hl => ?_,Machine.run_append _ hu
        ((Machine.run_cons_iff _).mpr ⟨_,hdeliver,(Machine.run_cons_iff _).mpr ⟨_,rfl,rfl⟩⟩),
        z,?_,fun hznone => ?_⟩
      · obtain hl | hl := List.mem_append.mp hl
        · exact Or.inl (hls l hl)
        · simpa [or_comm] using hl
      · rw [hv] at hz
        exact hz
      · cases books_current hs.books hz hznone (hzclient.trans hyclient)
    · rw [hec] at hfail
      cases hfail
  · exact ⟨ls,u,fun l hl => Or.inl (hls l hl),hu,y,hy,hnone⟩

theorem Awake.clientsAttended (hthreads : 0 < threads) (h : s.Awake output o) :
    s.ClientsAttended threads output o endpoint := by
  intro i x hx hclient
  obtain ⟨ls,u,-,hu,hattended⟩ := h.attends hconnected hnoData hthreads endpoint hx hclient
  exact ⟨ls,u,hu,hattended⟩

/-- The instance of a client that was missed gets no session. -/
lemma not_attendable {i : ℕ} (h : s.Watches output o (some i) leaked) :
    ¬s.Attendable threads output o endpoint i := by
  rintro ⟨ls,u,hu,hattended⟩
  obtain ⟨missed,leaked,hwatch,hsame⟩ := run_watches hconnected hnoData h hu
  cases hsame (by simp)
  obtain ⟨ms,v,a,-,hv,ha,-⟩ := finishes threads output o endpoint u
  obtain ⟨missed,leaked,hwatch,hsame⟩ := run_watches hconnected hnoData hwatch hv
  cases hsame (by simp)
  obtain ⟨x,hx,hsession⟩ := (attended_preserved i).run hv hattended
  have hfound : ∀ {n : ℕ} {φ : Peer → Prop}, some i = some n →
      Watched.At ⟨v.world,some i,leaked⟩ n φ → False := by
    rintro n φ hin ⟨y,hy,hnone,-⟩
    cases hin
    cases hx.symm.trans hy
    exact hsession hnone
  cases (hwatch.begun ha).2 with
  | asked n h =>
    cases h with
    | waits hs | comes _ hs => cases hs.missed_eq
    | missed hs hn => exact hfound hs.missed_eq hn
  | early n hs | failed n hs => cases hs.missed_eq

/-- In every state of a run every client that is there can still get its session, if and only
if none has connected between ConnectNamedPipe and `assign`. -/
theorem clientsAttended_iff (hthreads : 0 < threads) {ls : List Act}
    (h : (machine threads output o endpoint).run (start o endpoint) ls = some t) :
    (machine threads output o endpoint).Throughout (ClientsAttended threads output o endpoint)
        (start o endpoint) ls ↔
      (machine threads output o endpoint).Along (fun s l => ¬s.Misses l) (start o endpoint) ls := by
  have hlatch : (machine threads output o endpoint).Latch (fun s l => ¬s.Misses l)
    (Awake output o) (Asleep output o) := latch_misses hconnected hnoData
  refine Machine.throughout_iff_along (I := Awake output o)
    (fun s hs => hs.clientsAttended hconnected hnoData hthreads) hlatch.keep
    (fun s l t hs hl hstep hall => ?_) h ⟨[],start_watches hconnected hnoData⟩
  obtain ⟨leaked,hs⟩ := hs
  obtain ⟨leaked',ht,-⟩ := step_watches hconnected hnoData hs hstep
  cases step_cases hstep with
  | accept | deliver => exact hl id
  | @pipe i k xs _ hxs =>
    obtain ⟨hk,hmiss⟩ := not_not.mp hl
    subst hk
    obtain ⟨x,y,hx,hy,rfl⟩ := stepAt_eq_some.mp hxs
    have hconnects : y.client = .connected := by
      simp only [PipeInstance.step] at hy
      split_ifs at hy
      cases hy
      rfl
    rw [missedBy,if_pos ⟨rfl,hmiss⟩] at ht
    refine not_attendable hconnected hnoData ht (hall i y ?_ hconnects)
    rw [EchoWorld.afterStep_instances,List.getElem?_set_self (List.getElem?_eq_some_iff.mp hx).1]

end Output

theorem clientsAttended_iff_twoClients : ∃ t,
    (machine 1 id .byMove "").run (start .byMove "") twoClients = some t ∧
    ((machine 1 id .byMove "").Throughout (ClientsAttended 1 id .byMove "")
        (start .byMove "") twoClients ↔
      (machine 1 id .byMove "").Along (fun s l => ¬s.Misses l) (start .byMove "") twoClients) :=
  ⟨_,rfl,clientsAttended_iff rfl rfl (by decide) rfl⟩

section Output
variable (hconnected : output errorPipeConnected = errorPipeConnected)
variable (hnoData : output errorNoData = errorNoData)
include hconnected hnoData

/-- When its handler has returned, the server has lost track of no open instance, if and only
if no ConnectNamedPipe has found that its client had come and gone. -/
theorem accounted_iff_not_leaves {ls : List Act} {a : Except Thrown Unit}
    (h : (machine threads output o endpoint).run (start o endpoint) ls = some t)
    (ha : t.program = .done a) : t.world.Accounted ↔
      (machine threads output o endpoint).Along (fun s l => ¬s.Leaves l) (start o endpoint) ls :=
  accounted_iff_along (acceptHandler_resumes hconnected hnoData)
    (fun _ _ hbegun => hbegun.2.books.1) (start_watches hconnected hnoData) h ha

end Output

theorem accounted_iff_not_leaves_twoClients : ∃ t,
    (machine 1 id .byMove "").run (start .byMove "") twoClients = some t ∧
    (t.world.Accounted ↔ (machine 1 id .byMove "").Along (fun s l => ¬s.Leaves l)
      (start .byMove "") twoClients) :=
  ⟨_,rfl,accounted_iff_not_leaves rfl rfl rfl rfl⟩

end EchoServer
end Winext
