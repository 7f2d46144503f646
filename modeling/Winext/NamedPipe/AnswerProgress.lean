import Winext.NamedPipe.Answers
import Winext.NamedPipe.ServerProgress

/-! What an echo server can still write: while it can accept, it can by steps of its own give
every client that is there all that it is to get. -/
namespace Winext
open Lib Details

/-- Writing and leaving, which only the client of an instance does. -/
def PipeStep.byClient : PipeStep → Bool
  | clientWrites _ | clientDisconnects => true
  | clientConnects | readEnds | writes _ | fails _ | runHandler => false

/-- The steps of a session whose operations succeed. -/
def PipeStep.ofSession : PipeStep → Bool
  | readEnds | writes _ | runHandler => true
  | clientConnects | clientWrites _ | clientDisconnects | fails _ => false

namespace Session

/-- What is to be handled or written is in the buffer, and a write has something left. -/
def Sized (s : Session) : Prop :=
  match s.op with
  | .readEnded _ length => length ≤ s.data.length
  | .writing length done => done < length ∧ length ≤ s.data.length
  | .idle | .reading | .writeEnded _ | .stopped => True

lemma Sized.handler {s t : Session} (h : s.Sized) (ht : s.handler = some t) : t.Sized := by
  cases hop : s.op with
  | readEnded ec length =>
    simp only [Sized,hop] at h
    simp only [Session.handler,hop,Option.some.injEq] at ht
    subst ht
    by_cases hec : ec.failed = true
    · simp [Sized,hec]
    · by_cases hlen : length = 0
      · simp [Sized,hec,doWrite,hlen]
      · simp only [Sized,hec,doWrite,if_neg hlen]
        exact ⟨Nat.pos_of_ne_zero hlen,h⟩
  | writeEnded ec =>
    simp only [Session.handler,hop,Option.some.injEq] at ht
    subst ht
    by_cases hec : ec.failed = true <;> simp [Sized,hec,doRead]
  | idle | reading | writing | stopped =>
    simp only [Session.handler,hop] at ht
    cases ht

end Session

namespace PipeInstance
variable {x y : PipeInstance} {k : PipeStep} {s : Session}

/-- A step of the session only writes more. -/
lemma step_ofSession (hk : k.ofSession = true) (hy : step k x = some y) :
    y.client = x.client ∧ y.sent = x.sent ∧ y.failed = x.failed ∧
      ∃ bytes, y.written = x.written ++ bytes := by
  cases hs : x.session with
  | none => cases k <;> simp_all [step,PipeStep.ofSession]
  | some s =>
    cases k with
    | readEnds =>
      simp only [step,hs] at hy
      split_ifs at hy
      obtain ⟨r,-,rfl⟩ := Option.map_eq_some_iff.mp hy
      exact ⟨rfl,rfl,rfl,[],(List.append_nil _).symm⟩
    | writes count =>
      cases hop : s.op with
      | writing length done =>
        simp only [step,hs,hop] at hy
        split_ifs at hy
        cases hy
        exact ⟨rfl,rfl,rfl,_,rfl⟩
      | idle | reading | readEnded | writeEnded | stopped => simp [step,hs,hop] at hy
    | runHandler =>
      simp only [step,hs] at hy
      obtain ⟨r,-,rfl⟩ := Option.map_eq_some_iff.mp hy
      exact ⟨rfl,rfl,rfl,[],(List.append_nil _).symm⟩
    | clientConnects | clientWrites | clientDisconnects | fails => cases hk

/-- A step that is not the client's own leaves its messages alone, and writes at most more. -/
lemma step_of_others (hk : k.byClient = false) (hy : step k x = some y) : y.sent = x.sent ∧
    (y.client = x.client ∨ x.client = .absent) ∧ ∃ bytes, y.written = x.written ++ bytes := by
  cases k with
  | clientWrites | clientDisconnects => cases hk
  | readEnds | writes | runHandler =>
    obtain ⟨hclient,hsent,-,hwritten⟩ := step_ofSession rfl hy
    exact ⟨hsent,Or.inl hclient,hwritten⟩
  | clientConnects =>
    simp only [step] at hy
    split_ifs at hy with hc
    cases hy
    exact ⟨rfl,Or.inr hc.1,[],(List.append_nil _).symm⟩
  | fails error =>
    cases hs : x.session with
    | none => simp [step,hs] at hy
    | some s =>
      simp only [step,hs] at hy
      split_ifs at hy
      cases hop : s.op with
      | reading | writing =>
        simp only [hop] at hy
        cases hy
        exact ⟨rfl,Or.inl rfl,[],(List.append_nil _).symm⟩
      | idle | readEnded | writeEnded | stopped => simp [hop] at hy

def Sized (x : PipeInstance) : Prop := ∀ s, x.session = some s → s.Sized

lemma sized_loopStable : LoopStable Sized where
  created mode s hs := by cases hs
  makeSession x _ _ s hs := by
    cases hs
    exact trivial
  startSession x _ h s hs := by
    obtain ⟨r,-,rfl⟩ := Option.map_eq_some_iff.mp hs
    exact trivial
  dropSession x h s hs := by
    unfold dropSession at hs
    cases hx : x.session with
    | none =>
      simp only [hx] at hs
      cases hs
    | some r =>
      simp only [hx] at hs
      cases hs
      exact h r hx
  close x h := h

theorem Sized.step (h : x.Sized) (hy : PipeInstance.step k x = some y) : y.Sized := by
  intro t ht
  cases step_cases hy with
  | client => exact h t ht
  | readEnds hs hop hr =>
    obtain ⟨⟨bytes,more,rest⟩,-,rfl⟩ := Option.map_eq_some_iff.mp hr
    cases ht
    simp [Session.Sized]
  | @writes s length done count hs hop =>
    simp only [PipeInstance.step,hs,hop] at hy
    split_ifs at hy with hcount
    have hsized := h s hs
    simp only [Session.Sized,hop] at hsized
    cases ht
    by_cases hall : done + count = length
    · simp [Session.Sized,hall]
    · simp only [Session.Sized,if_neg hall]
      exact ⟨by omega,hsized.2⟩
  | readFails | writeFails =>
    cases ht
    simp [Session.Sized]
  | runHandler hs hr =>
    cases ht
    exact (h _ hs).handler hr

/-- How far the session is from its next write. -/
def ahead (x : PipeInstance) : ℕ :=
  4 * x.unread.length + match x.session.map Session.op with
    | some (.readEnded _ _) => 2
    | some (.writing _ _) | some (.writeEnded _) => 1
    | _ => 0

/-- The session has a step, which writes or brings it closer to its next write. -/
def Advances (x : PipeInstance) : Prop :=
  ∃ k y, k.ofSession = true ∧ (k = .runHandler → ¬x.Ending) ∧ PipeInstance.step k x = some y ∧
    (x.written.length < y.written.length ∨ y.written = x.written ∧ y.ahead < x.ahead)

lemma advances_readEnds {message : List UInt8} {messages : List (List UInt8)}
    (hmode : x.messageReadMode = true) (hs : x.session = some s) (hop : s.op = .reading)
    (hunread : x.unread = message::messages) (hle : message.length ≤ maxLength) : x.Advances := by
  have hread : readQueue x.messageReadMode maxLength x.unread = some (message,false,messages) := by
    rw [hmode,hunread]
    simp [readQueue,readMessage,hle]
  have hstep : PipeInstance.step .readEnds x = some { x with
      unread := messages
      session := some { s with
        data := message ++ s.data.drop message.length
        op := .readEnded {} message.length } } := by
    simp only [PipeInstance.step,hs,if_pos hop,PipeInstance.readEnds,hread]
    rfl
  refine ⟨.readEnds,_,rfl,by simp,hstep,Or.inr ⟨rfl,?_⟩⟩
  simp only [ahead,hs,hop,hunread,Option.map_some,List.length_cons]
  omega

/-- The handler of an operation that has not failed. -/
lemma advances_runHandler {t : Session} (hs : x.session = some s) (ht : s.handler = some t)
    (hgoes : s.failing = false) (hahead : (x.keep t).ahead < x.ahead) : x.Advances := by
  have hstep : PipeInstance.step .runHandler x = some (x.keep t) := by
    simp only [PipeInstance.step,hs,ht,Option.map_some]
  refine ⟨.runHandler,_,rfl,fun _ => ?_,hstep,Or.inr ⟨rfl,hahead⟩⟩
  rintro ⟨r,hr,-,hfailing⟩
  cases hs.symm.trans hr
  rw [hgoes] at hfailing
  cases hfailing

/-- What is left of a write is written at once. -/
lemma advances_writes {length done : ℕ} (hs : x.session = some s)
    (hop : s.op = .writing length done) (hsized : s.Sized) : x.Advances := by
  simp only [Session.Sized,hop] at hsized
  have hstep : PipeInstance.step (.writes (length - done)) x =
      some (x.writes s length done (length - done)) := by
    simp only [PipeInstance.step,hs,hop]
    exact if_pos (by omega)
  refine ⟨.writes (length - done),_,rfl,by simp,hstep,Or.inl ?_⟩
  simp only [PipeInstance.writes,Session.unwritten,List.length_append,List.length_take,
    List.length_drop]
  omega

/-- A session that reads has read all there is and written it, or can read a message. -/
lemma Account.exists_unread (h : x.Account) (hs : x.session = some s) (hop : s.op = .reading)
    (hcut : ¬x.Cut) (hless : x.written ≠ x.answerable.flatten) :
    ∃ message messages, x.unread = message::messages ∧ message.length ≤ maxLength := by
  rw [Account,hs] at h
  simp only [accountOf,hop] at h
  obtain ⟨read,h⟩ := h
  have hbytes := h.bytes
  rw [List.append_nil] at hbytes
  cases hunread : x.unread with
  | nil =>
    have hsent := h.sent
    rw [hunread,List.append_nil] at hsent
    refine absurd ?_ hless
    rw [← hbytes,answerable,hsent,List.takeWhile_eq_self_iff.mpr h.fit]
  | cons message messages =>
    refine ⟨message,messages,rfl,?_⟩
    by_contra hlong
    exact hcut (h.cut hunread (Nat.lt_of_not_le hlong))

/-- Where it has not written all that it can, a session advances. -/
theorem Account.advances (h : x.Account) (hmode : x.messageReadMode = true) (hsized : x.Sized)
    (hfailed : x.failed = false) (hs : x.session = some s) (hidle : s.op ≠ .idle)
    (hless : x.written ≠ x.answerable.flatten) : x.Advances := by
  have hbreaks : ¬x.Breaks := by
    rintro ⟨hf,-⟩
    rw [hfailed] at hf
    cases hf
  have hcut : ¬x.Cut := fun hcut => hless hcut.written
  cases hop : s.op with
  | idle => exact absurd hop hidle
  | reading =>
    obtain ⟨message,messages,hunread,hle⟩ := h.exists_unread hs hop hcut hless
    exact advances_readEnds hmode hs hop hunread hle
  | writing length done => exact advances_writes hs hop (hsized s hs)
  | readEnded ec length =>
    rw [Account,hs] at h
    simp only [accountOf,hop] at h
    split_ifs at h with hec
    · exact absurd h (not_or.mpr ⟨hbreaks,hcut⟩)
    · refine advances_runHandler hs (t := s.doWrite length)
        (by simp only [Session.handler,hop,if_neg hec]) (by simpa [Session.failing,hop] using hec) ?_
      by_cases hlen : length = 0 <;> simp [ahead,keep,hs,hop,Session.doWrite,hlen]
  | writeEnded ec =>
    rw [Account,hs] at h
    simp only [accountOf,hop] at h
    split_ifs at h with hec
    · exact absurd h hbreaks
    · refine advances_runHandler hs (t := s.doRead)
        (by simp only [Session.handler,hop,if_neg hec]) (by simpa [Session.failing,hop] using hec) ?_
      simp [ahead,keep,hs,hop,Session.doRead]
  | stopped =>
    rw [Account,hs] at h
    simp only [accountOf,hop] at h
    exact absurd h (not_or.mpr ⟨hbreaks,hcut⟩)

/-- What the steps of the server make of an instance: more may be written to it. -/
structure Onward (x y : PipeInstance) : Prop where
  client : y.client = x.client
  sent : y.sent = x.sent
  failed : y.failed = x.failed
  written : ∃ bytes, y.written = x.written ++ bytes
  closed : x.closed = true → y.closed = true

lemma Onward.refl (x : PipeInstance) : x.Onward x := ⟨rfl,rfl,rfl,⟨[],(List.append_nil _).symm⟩,id⟩

lemma Onward.trans {z : PipeInstance} (h : x.Onward y) (h' : y.Onward z) : x.Onward z := by
  obtain ⟨bytes,hbytes⟩ := h.written
  obtain ⟨more,hmore⟩ := h'.written
  refine ⟨h'.client.trans h.client,h'.sent.trans h.sent,h'.failed.trans h.failed,
    ⟨bytes ++ more,?_⟩,fun hclosed => h'.closed (h.closed hclosed)⟩
  rw [hmore,hbytes,List.append_assoc]

lemma Onward.answerable (h : x.Onward y) : y.answerable = x.answerable :=
  congrArg (List.takeWhile fits) h.sent

/-- What the loop does to an instance neither moves a byte nor opens it again. -/
lemma bytes_loopFrame : LoopFrame fun x y => y.client = x.client ∧ y.sent = x.sent ∧
    y.failed = x.failed ∧ y.written = x.written ∧ (x.closed = true → y.closed = true) where
  refl _ := ⟨rfl,rfl,rfl,rfl,id⟩
  makeSession _ := ⟨rfl,rfl,rfl,rfl,id⟩
  startSession _ := ⟨rfl,rfl,rfl,rfl,id⟩
  dropSession x := by
    unfold dropSession
    split
    · exact ⟨rfl,rfl,rfl,rfl,fun h => by simp [keep,h]⟩
    · exact ⟨rfl,rfl,rfl,rfl,id⟩
  close _ := ⟨rfl,rfl,rfl,rfl,fun _ => rfl⟩

/-- The session has been started. -/
def Started (x : PipeInstance) : Prop := ∃ s, x.session = some s ∧ s.op ≠ .idle

lemma Started.step (h : x.Started) (hy : PipeInstance.step k x = some y) : y.Started := by
  obtain ⟨s,hs,hop⟩ := h
  cases hnone : y.session with
  | none =>
    rw [(step_session hy).mp hnone] at hs
    cases hs
  | some t =>
    refine ⟨t,hnone,fun hidle => hop ?_⟩
    have hx := step_idle hy (by rw [hnone,Option.map_some,hidle])
    rw [hs,Option.map_some] at hx
    exact Option.some.inj hx

end PipeInstance

/-- The calls of the accept handler, and the steps of sessions whose operations succeed. -/
def PipeServer.Act.byServer : Act → Bool
  | accept | deliver => true
  | pipe _ k => k.ofSession

namespace EchoServer
open PipeServer
variable {threads : ℕ} {output : Dword → Dword} {o : Overload} {endpoint : String}
variable {s t u : EchoServer} {l : Act} {i : ℕ} {x y : PipeInstance}

def writtenAt (s : EchoServer) (i : ℕ) : Option (List UInt8) :=
  s.world.instances[i]?.map PipeInstance.written

/-- A calm step of the server alone. -/
def Gentle (s : EchoServer) (l : Act) : Prop := l.byServer = true ∧ s.Calm l

lemma gentle_accept (s : EchoServer) (hl : l = .accept ∨ l = .deliver) : s.Gentle l := by
  obtain rfl | rfl := hl <;> exact ⟨rfl,trivial⟩

/-- A gentle step that writes nothing to the instance. -/
def Quiet (threads : ℕ) (output : Dword → Dword) (o : Overload) (endpoint : String) (i : ℕ)
    (s : EchoServer) (l : Act) : Prop :=
  s.Gentle l ∧
    ∀ t, (machine threads output o endpoint).step s l = some t → t.writtenAt i = s.writtenAt i

lemma not_misses (hl : l.byServer = true) : ¬s.Misses l := by
  cases l with
  | accept | deliver => exact id
  | pipe i k =>
    rintro ⟨rfl,-⟩
    cases hl

lemma step_onward (hl : l.byServer = true)
    (hstep : (machine threads output o endpoint).step s l = some t)
    (hx : s.world.instances[i]? = some x) :
    ∃ y, t.world.instances[i]? = some y ∧ x.Onward y := by
  obtain ⟨y,hy,⟨hclient,hsent,hfailed,hwritten,hclosed⟩ | ⟨k,rfl,hxy⟩⟩ :=
    frame_step PipeInstance.bytes_loopFrame hstep hx
  · exact ⟨y,hy,hclient,hsent,hfailed,⟨[],by rw [hwritten,List.append_nil]⟩,hclosed⟩
  · obtain ⟨hclient,hsent,hfailed,hwritten⟩ := PipeInstance.step_ofSession hl hxy
    exact ⟨y,hy,hclient,hsent,hfailed,hwritten,fun h => (PipeInstance.closed_step hxy).mpr (Or.inl h)⟩

lemma run_onward {ls : List Act} (hls : ∀ l ∈ ls, l.byServer = true)
    (hrun : (machine threads output o endpoint).run s ls = some t)
    (hx : s.world.instances[i]? = some x) :
    ∃ y, t.world.instances[i]? = some y ∧ x.Onward y := by
  induction ls generalizing s x with
  | nil =>
    cases hrun
    exact ⟨x,hx,.refl x⟩
  | cons l ls ih =>
    obtain ⟨u,hu,hrest⟩ := Machine.run_cons_iff _ |>.mp hrun
    obtain ⟨y,hy,hxy⟩ := step_onward (hls l List.mem_cons_self) hu hx
    obtain ⟨z,hz,hyz⟩ := ih (fun l hl => hls l (List.mem_cons_of_mem _ hl)) hrest hy
    exact ⟨z,hz,hxy.trans hyz⟩

/-- The accept handler writes nothing. -/
lemma quiet_accept (hl : l = .accept ∨ l = .deliver) (hx : s.world.instances[i]? = some x) :
    Quiet threads output o endpoint i s l := by
  refine ⟨gentle_accept s hl,fun t hstep => ?_⟩
  obtain ⟨y,hy,⟨-,-,-,hwritten,-⟩ | ⟨k,rfl,-⟩⟩ :=
    frame_step PipeInstance.bytes_loopFrame hstep hx
  · rw [writtenAt,writtenAt,hx,hy,Option.map_some,Option.map_some,hwritten]
  · obtain hl | hl := hl <;> cases hl

lemma along_quiet {ls : List Act} (hls : ∀ l ∈ ls, l = .accept ∨ l = .deliver)
    (hrun : (machine threads output o endpoint).run s ls = some t)
    (hx : s.world.instances[i]? = some x) :
    (machine threads output o endpoint).Along (Quiet threads output o endpoint i) s ls := by
  induction ls generalizing s x with
  | nil => exact trivial
  | cons l ls ih =>
    obtain ⟨u,hu,hrest⟩ := Machine.run_cons_iff _ |>.mp hrun
    have hquiet : Quiet threads output o endpoint i s l := quiet_accept (hls l List.mem_cons_self) hx
    obtain ⟨y,hy,-⟩ := step_onward hquiet.1.1 hu hx
    exact (Machine.along_cons hu).mpr
      ⟨hquiet,ih (fun l hl => hls l (List.mem_cons_of_mem _ hl)) hrest hy⟩

lemma gentle_of_quiet {ls : List Act}
    (hrun : (machine threads output o endpoint).run s ls = some t)
    (h : (machine threads output o endpoint).Along (Quiet threads output o endpoint i) s ls) :
    (machine threads output o endpoint).Along Gentle s ls :=
  Machine.along_of_run (I := fun _ => True) (fun _ _ _ _ hq _ => ⟨trivial,hq.1⟩) hrun trivial h

lemma byServer_of_gentle {ls : List Act}
    (hrun : (machine threads output o endpoint).run s ls = some t)
    (h : (machine threads output o endpoint).Along Gentle s ls) : ∀ l ∈ ls, l.byServer = true :=
  (Machine.along_label_iff hrun).mp <|
    Machine.along_of_run (I := fun _ => True) (fun _ _ _ _ hg _ => ⟨trivial,hg.1⟩) hrun trivial h

lemma calm_of_gentle {ls : List Act}
    (hrun : (machine threads output o endpoint).run s ls = some t)
    (h : (machine threads output o endpoint).Along Gentle s ls) :
    (machine threads output o endpoint).Along Calm s ls :=
  Machine.along_of_run (I := fun _ => True) (fun _ _ _ _ hg _ => ⟨trivial,hg.2⟩) hrun trivial h

/-- The server has answered as far as its sessions have come, and accepts. -/
structure Ready (output : Dword → Dword) (o : Overload) (s : EchoServer) : Prop where
  answering : s.Answering
  sized : ∀ x ∈ s.world.instances, x.Sized
  awake : s.Awake output o

lemma Ready.account (h : s.Ready output o) (hx : s.world.instances[i]? = some x) : x.Account :=
  h.answering.account x (List.mem_of_getElem? hx) (h.answering.mode x (List.mem_of_getElem? hx))

/-- A step of a session is one of the server, when a thread is free. -/
lemma step_pipe {k : PipeStep} (hbusy : s.busy < threads) (hk : k.ofSession = true)
    (hx : s.world.instances[i]? = some x) (hy : PipeInstance.step k x = some y) :
    (machine threads output o endpoint).step s (.pipe i k) =
      some { s with world := { s.world with instances := s.world.instances.set i y } } := by
  have hxs : stepAt s.world.instances i (PipeInstance.step k) =
      some (s.world.instances.set i y) := stepAt_eq_some.mpr ⟨x,y,hx,hy,rfl⟩
  have hfree : ¬(k = .runHandler ∧ threads ≤ s.busy) := fun h => Nat.not_le_of_lt hbusy h.2
  have hconnects : ¬(k = .clientConnects ∧ s.world.connecting = some i) := by
    rintro ⟨rfl,-⟩
    cases hk
  simp only [PipeServer.machine,step,if_neg hfree,hxs,Option.map_some,EchoWorld.afterStep,
    if_neg hconnects]

section Output
variable (hconnected : output errorPipeConnected = errorPipeConnected)
variable (hnoData : output errorNoData = errorNoData)
include hconnected hnoData

theorem Ready.step (h : s.Ready output o) (hl : ¬s.Misses l)
    (hstep : (machine threads output o endpoint).step s l = some t) : t.Ready output o where
  answering := step_answering s l t h.answering hstep
  sized := loopStable_step PipeInstance.sized_loopStable h.answering.tidy h.sized
    (fun _ _ _ _ _ _ hx hy => hx.step hy) hstep
  awake := (latch_misses hconnected hnoData).keep s l t h.awake hl hstep

theorem Ready.run {ls : List Act} (h : s.Ready output o) (hls : ∀ l ∈ ls, l.byServer = true)
    (hrun : (machine threads output o endpoint).run s ls = some t) : t.Ready output o :=
  Machine.run_along (C := fun _ l => l.byServer = true)
    (fun _ _ _ hs hl hstep => hs.step hconnected hnoData (not_misses hl) hstep) hrun h
    ((Machine.along_label_iff hrun).mpr hls)

/-- The accept handler gives a client its session, starts it and comes to its end. -/
lemma Ready.opens (h : s.Ready output o) (hthreads : 0 < threads)
    (hx : s.world.instances[i]? = some x) (hclient : x.client = .connected) :
    ∃ ls u a y, (∀ l ∈ ls, l = .accept ∨ l = .deliver) ∧
      (machine threads output o endpoint).run s ls = some u ∧ u.program = .done a ∧
      u.world.instances[i]? = some y ∧ y.Started := by
  obtain ⟨ls,u,hls,hu,z,hz,hsession⟩ := h.awake.attends hconnected hnoData hthreads endpoint hx hclient
  have hserver : ∀ l ∈ ls, l.byServer = true := fun l hl => by
    obtain rfl | rfl := hls l hl <;> rfl
  have hready := h.run hconnected hnoData hserver hu
  obtain ⟨ms,v,a,leaked,hms,hv,ha,hwatch,-⟩ :=
    hready.awake.finishes hconnected hnoData threads endpoint
  obtain ⟨y,hy,hattended⟩ := (attended_preserved i).run hv ⟨z,hz,hsession⟩
  refine ⟨ls ++ ms,v,a,y,fun l hl => ?_,Machine.run_append _ hu hv,ha,hy,?_⟩
  · exact (List.mem_append.mp hl).elim (hls l) fun hl => Or.inl (hms l hl)
  · have hrunning := (hwatch.begun ha).2.books.2
    obtain ⟨r,hr⟩ := Option.ne_none_iff_exists'.mp hattended
    refine ⟨r,hr,fun hidle => ?_⟩
    cases hrunning i y hy (by rw [hr,Option.map_some,hidle])

end Output

section Output
variable (hconnected : output errorPipeConnected = errorPipeConnected)
variable (hnoData : output errorNoData = errorNoData)
include hconnected hnoData

/-- An instance is closed because an operation of its session has failed, or because it has met
a message that does not fit. -/
theorem Ready.closed (h : s.Ready output o) (hx : s.world.instances[i]? = some x)
    (hclosed : x.closed = true) : x.failed = true ∨ x.answerable ≠ x.sent := by
  obtain ⟨ls,u,a,leaked,hls,hu,ha,hwatch,-⟩ := h.awake.finishes hconnected hnoData 1 ""
  have hserver : ∀ l ∈ ls, l.byServer = true := fun l hl => by rw [hls l hl]; rfl
  obtain ⟨y,hy,honward⟩ := run_onward hserver hu hx
  obtain ⟨hbooks,hrunning⟩ := (hwatch.begun ha).2.books
  have hkept := hbooks.kept y (List.mem_of_getElem? hy)
  have haccount := (h.run hconnected hnoData hserver hu).account hy
  cases hs : y.session with
  | none =>
    simp only [PipeInstance.Kept,hs,honward.closed hclosed] at hkept
    cases hkept
  | some r =>
    simp only [PipeInstance.Kept,hs,honward.closed hclosed] at hkept
    rw [PipeInstance.Account,hs] at haccount
    cases hop : r.op with
    | stopped =>
      simp only [PipeInstance.accountOf,hop] at haccount
      obtain ⟨hfailed,-⟩ | hcut := haccount
      · exact Or.inl (honward.failed ▸ hfailed)
      · have hmore := hcut.more
        rw [honward.answerable,honward.sent] at hmore
        exact Or.inr hmore
    | idle => cases hrunning i y hy (by rw [hs,Option.map_some,hop])
    | reading | readEnded | writing | writeEnded =>
      simp [Session.held,hop,SessionOp.holds] at hkept

end Output

/-- The server comes by quiet steps to one that writes to the instance. -/
def Writes (threads : ℕ) (output : Dword → Dword) (o : Overload) (endpoint : String) (i : ℕ)
    (s : EchoServer) : Prop :=
  ∃ ls u l v, (machine threads output o endpoint).run s ls = some u ∧
    (machine threads output o endpoint).Along (Quiet threads output o endpoint i) s ls ∧
    u.Gentle l ∧ (machine threads output o endpoint).step u l = some v ∧
    ∃ written bytes, s.writtenAt i = some written ∧ bytes ≠ [] ∧
      v.writtenAt i = some (written ++ bytes)

lemma Writes.after {ls : List Act} (h : t.Writes threads output o endpoint i)
    (hrun : (machine threads output o endpoint).run s ls = some t)
    (hquiet : (machine threads output o endpoint).Along (Quiet threads output o endpoint i) s ls)
    (hsame : t.writtenAt i = s.writtenAt i) : s.Writes threads output o endpoint i := by
  obtain ⟨ms,u,l,v,hu,hms,hl,hv,written,bytes,hwritten,hbytes⟩ := h
  exact ⟨ls ++ ms,u,l,v,Machine.run_append _ hrun hu,(Machine.along_append hrun).mpr ⟨hquiet,hms⟩,
    hl,hv,written,bytes,hsame ▸ hwritten,hbytes⟩

lemma writtenAt_of_quiet {ls : List Act}
    (hrun : (machine threads output o endpoint).run s ls = some t)
    (h : (machine threads output o endpoint).Along (Quiet threads output o endpoint i) s ls) :
    t.writtenAt i = s.writtenAt i :=
  Machine.run_along (I := fun u => u.writtenAt i = s.writtenAt i)
    (fun _ _ _ hu hl hstep => (hl.2 _ hstep).trans hu) hrun rfl h

section Output
variable (hconnected : output errorPipeConnected = errorPipeConnected)
variable (hnoData : output errorNoData = errorNoData)
include hconnected hnoData

/-- So it does from the end of its handler, where a client has not had all its answer. -/
lemma Ready.writes_of_started {a : Except Thrown Unit} (h : s.Ready output o)
    (hthreads : 0 < threads) (hdone : s.program = .done a)
    (hx : s.world.instances[i]? = some x) (hstarted : x.Started) (hfailed : x.failed = false)
    (hless : x.written ≠ x.answerable.flatten) : s.Writes threads output o endpoint i := by
  induction hn : x.ahead using Nat.strong_induction_on generalizing s x with
  | _ n ih =>
    obtain ⟨r,hr,hidle⟩ := hstarted
    have hmem := List.mem_of_getElem? hx
    obtain ⟨k,y,hk,hgoes,hy,hcases⟩ := (h.account hx).advances (h.answering.mode x hmem)
      (h.sized x hmem) hfailed hr hidle hless
    have hgentle : s.Gentle (.pipe i k) := by
      refine ⟨hk,by rw [nextCall,hdone],fun hrun z hz => ?_⟩
      cases hx.symm.trans hz
      exact hgoes hrun
    have hstep : (machine threads output o endpoint).step s (.pipe i k) =
        some { s with world := { s.world with instances := s.world.instances.set i y } } :=
      step_pipe (by rwa [busy,hdone]) hk hx hy
    have hyhere : (s.world.instances.set i y)[i]? = some y :=
      List.getElem?_set_self (List.getElem?_eq_some_iff.mp hx).1
    have hwritten : s.writtenAt i = some x.written := by rw [writtenAt,hx,Option.map_some]
    obtain ⟨-,hsent,hsame,bytes,hbytes⟩ := PipeInstance.step_ofSession hk hy
    obtain hmore | ⟨heq,hahead⟩ := hcases
    · refine ⟨[],s,.pipe i k,_,rfl,trivial,hgentle,hstep,x.written,bytes,hwritten,?_,?_⟩
      · rintro rfl
        rw [hbytes,List.append_nil] at hmore
        exact Nat.lt_irrefl _ hmore
      · simp only [writtenAt,hyhere,Option.map_some,hbytes]
    · have hquiet : Quiet threads output o endpoint i s (.pipe i k) := by
        refine ⟨hgentle,fun t ht => ?_⟩
        cases hstep.symm.trans ht
        simp only [writtenAt,hyhere,hx,Option.map_some,heq]
      have hready := h.step hconnected hnoData (not_misses (l := .pipe i k) hk) hstep
      have hnext := ih y.ahead (hn ▸ hahead) hready hdone hyhere
        (PipeInstance.Started.step ⟨r,hr,hidle⟩ hy) (hsame.trans hfailed)
        (by rw [heq,PipeInstance.answerable,hsent]; exact hless) rfl
      have hrun : (machine threads output o endpoint).run s [.pipe i k] = some _ :=
        (Machine.run_cons_iff _).mpr ⟨_,hstep,rfl⟩
      refine hnext.after hrun ((Machine.along_cons hstep).mpr ⟨hquiet,trivial⟩) ?_
      simp only [writtenAt,hyhere,hx,Option.map_some,heq]

theorem Ready.writes (h : s.Ready output o) (hthreads : 0 < threads)
    (hx : s.world.instances[i]? = some x) (hclient : x.client = .connected)
    (hfailed : x.failed = false) (hless : x.written ≠ x.answerable.flatten) :
    s.Writes threads output o endpoint i := by
  obtain ⟨ls,u,a,y,hls,hu,ha,hy,hstarted⟩ := h.opens hconnected hnoData hthreads hx hclient
  have hquiet := along_quiet hls hu hx
  have hgentle : (machine threads output o endpoint).Along Gentle s ls := gentle_of_quiet hu hquiet
  have hserver := byServer_of_gentle hu hgentle
  have hsame := writtenAt_of_quiet hu hquiet
  obtain ⟨z,hz,honward⟩ := run_onward hserver hu hx
  cases hy.symm.trans hz
  rw [writtenAt,writtenAt,hx,hy,Option.map_some,Option.map_some,Option.some.injEq] at hsame
  refine ((h.run hconnected hnoData hserver hu).writes_of_started hconnected hnoData hthreads ha hy
    hstarted (honward.failed.trans hfailed) ?_).after hu hquiet (writtenAt_of_quiet hu hquiet)
  rw [hsame,honward.answerable]
  exact hless

/-- All of the client's answer is written. -/
def Complete (s : EchoServer) (i : ℕ) : Prop :=
  ∃ x, s.world.instances[i]? = some x ∧ x.written = x.answerable.flatten

omit hconnected hnoData in
/-- What is complete stays so until the client writes again. -/
lemma Complete.run {ls : List Act} (h : s.Complete i) (hls : ∀ l ∈ ls, l.byServer = true)
    (hrun : (machine threads output o endpoint).run s ls = some t) (ht : t.Answering) :
    t.Complete i := by
  obtain ⟨x,hx,hcomplete⟩ := h
  obtain ⟨y,hy,honward⟩ := run_onward hls hrun hx
  refine ⟨y,hy,?_⟩
  have hmem := List.mem_of_getElem? hy
  have hbegins : y.Begins := (ht.account y hmem (ht.mode y hmem)).begins
  obtain ⟨bytes,hbytes⟩ := honward.written
  have hle := hbegins.length_le
  rw [honward.answerable,← hcomplete,hbytes,List.length_append] at hle
  have hnil : bytes = [] := List.eq_nil_of_length_eq_zero (by omega)
  rw [hbytes,hnil,List.append_nil,honward.answerable,hcomplete]

/-- The server completes one client's answer. -/
theorem Ready.completes (h : s.Ready output o) (hthreads : 0 < threads)
    (hx : s.world.instances[i]? = some x) (hclient : x.client = .connected)
    (hfailed : x.failed = false) : ∃ ls t, (machine threads output o endpoint).Along Gentle s ls ∧
      (machine threads output o endpoint).run s ls = some t ∧ t.Complete i := by
  induction hn : x.answerable.flatten.length - x.written.length using Nat.strong_induction_on
    generalizing s x with
  | _ n ih =>
    by_cases hless : x.written = x.answerable.flatten
    · exact ⟨[],s,trivial,rfl,x,hx,hless⟩
    · obtain ⟨ls,u,l,v,hu,hquiet,hl,hv,written,bytes,hwritten,hbytes,hmore⟩ :=
        h.writes hconnected hnoData hthreads hx hclient hfailed hless
      have hgentle : (machine threads output o endpoint).Along Gentle s (ls ++ [l]) :=
        (Machine.along_append hu).mpr
          ⟨gentle_of_quiet hu hquiet,(Machine.along_cons hv).mpr ⟨hl,trivial⟩⟩
      have hrun : (machine threads output o endpoint).run s (ls ++ [l]) = some v :=
        Machine.run_append _ hu (by simp [Machine.run,hv])
      have hall := byServer_of_gentle hrun hgentle
      have hready := h.run hconnected hnoData hall hrun
      obtain ⟨y,hy,honward⟩ := run_onward hall hrun hx
      -- what has been written is still a beginning of the answer, and longer
      have hbegins : y.Begins := (hready.account hy).begins
      have hle := hbegins.length_le
      rw [writtenAt,hx] at hwritten
      cases hwritten
      rw [writtenAt,hy,Option.map_some,Option.some.injEq] at hmore
      have hpos := List.length_pos_iff.mpr hbytes
      rw [honward.answerable,hmore,List.length_append] at hle
      obtain ⟨ms,t,hms,ht,hcomplete⟩ := ih _ (by
        rw [← hn,honward.answerable,hmore,List.length_append]
        omega) hready hy (honward.client.trans hclient) (honward.failed.trans hfailed) rfl
      exact ⟨(ls ++ [l]) ++ ms,t,(Machine.along_append hrun).mpr ⟨hgentle,hms⟩,
        Machine.run_append _ hrun ht,hcomplete⟩

/-- The server completes the answers of as many clients. -/
lemma Ready.completes_below (h : s.Ready output o) (hthreads : 0 < threads) (n : ℕ) :
    ∃ ls t, (machine threads output o endpoint).Along Gentle s ls ∧
      (machine threads output o endpoint).run s ls = some t ∧
      ∀ i < n, ∀ x, s.world.instances[i]? = some x → x.client = .connected → x.failed = false →
        t.Complete i := by
  induction n with
  | zero => exact ⟨[],s,trivial,rfl,fun i hi => absurd hi (Nat.not_lt_zero i)⟩
  | succ n ih =>
    obtain ⟨ls,t,hls,ht,hall⟩ := ih
    by_cases hnext : ∃ x, s.world.instances[n]? = some x ∧ x.client = .connected ∧ x.failed = false
    · obtain ⟨x,hx,hclient,hfailed⟩ := hnext
      have hserver := byServer_of_gentle ht hls
      have hready := h.run hconnected hnoData hserver ht
      obtain ⟨y,hy,honward⟩ := run_onward hserver ht hx
      obtain ⟨ms,u,hms,hu,hcomplete⟩ := hready.completes hconnected hnoData hthreads hy
        (honward.client.trans hclient) (honward.failed.trans hfailed)
      refine ⟨ls ++ ms,u,(Machine.along_append ht).mpr ⟨hls,hms⟩,Machine.run_append _ ht hu,
        fun i hi z hz hzclient hzfailed => ?_⟩
      obtain hi | rfl := Nat.lt_succ_iff_lt_or_eq.mp hi
      · have hmore := byServer_of_gentle hu hms
        exact (hall i hi z hz hzclient hzfailed).run hmore hu
          (hready.run hconnected hnoData hmore hu).answering
      · exact hcomplete
    · refine ⟨ls,t,hls,ht,fun i hi z hz hzclient hzfailed => ?_⟩
      obtain hi | rfl := Nat.lt_succ_iff_lt_or_eq.mp hi
      · exact hall i hi z hz hzclient hzfailed
      · exact absurd ⟨z,hz,hzclient,hzfailed⟩ hnext

/-- A server that accepts can, by calm steps of its own, come to write back all that is to be
written to those clients whose sessions have not failed, at once. -/
theorem Ready.answers (h : s.Ready output o) (hthreads : 0 < threads) (endpoint : String) :
    ∃ ls t, (machine threads output o endpoint).Along Gentle s ls ∧
      (machine threads output o endpoint).run s ls = some t ∧
      ∀ (i : ℕ) x, s.world.instances[i]? = some x → x.client = .connected → x.failed = false →
        ∃ y, t.world.instances[i]? = some y ∧ y.written = x.answerable.flatten := by
  obtain ⟨ls,t,hls,ht,hall⟩ :=
    h.completes_below hconnected hnoData hthreads s.world.instances.length
  refine ⟨ls,t,hls,ht,fun i x hx hclient hfailed => ?_⟩
  obtain ⟨y,hy,hcomplete⟩ :=
    hall i (List.getElem?_eq_some_iff.mp hx).1 x hx hclient hfailed
  obtain ⟨z,hz,honward⟩ := run_onward (byServer_of_gentle ht hls) ht hx
  cases hy.symm.trans hz
  exact ⟨y,hy,honward.answerable ▸ hcomplete⟩

/-- Of a server that either accepts or has missed a client. -/
structure Sound (output : Dword → Dword) (o : Overload) (s : EchoServer) : Prop where
  answering : s.Answering
  sized : ∀ x ∈ s.world.instances, x.Sized
  accepts : s.Awake output o ∨ s.Asleep output o

theorem start_sound : (start o endpoint).Sound output o :=
  ⟨start_answering,by simp [start],Or.inl ⟨[],start_watches hconnected hnoData⟩⟩

theorem step_sound : (machine threads output o endpoint).Preserves (Sound output o) := by
  intro s l t h hstep
  refine ⟨step_answering s l t h.answering hstep,
    loopStable_step PipeInstance.sized_loopStable h.answering.tidy h.sized
      (fun _ _ _ _ _ _ hx hy => hx.step hy) hstep,?_⟩
  have hlatch : (machine threads output o endpoint).Latch (fun s l => ¬s.Misses l)
    (Awake output o) (Asleep output o) := latch_misses hconnected hnoData
  obtain hawake | hasleep := h.accepts
  · by_cases hl : s.Misses l
    · exact Or.inr (hlatch.trip s l t hawake (not_not.mpr hl) hstep)
    · exact Or.inl (hlatch.keep s l t hawake hl hstep)
  · exact Or.inr (hlatch.stay s l t hasleep hstep)

lemma Sound.ready (h : s.Sound output o) (hcan : s.CanAccept threads output o endpoint) :
    s.Ready output o :=
  ⟨h.answering,h.sized,
    h.accepts.resolve_right fun hasleep => hasleep.not_canAccept hconnected hnoData hcan⟩

end Output
end EchoServer
end Winext
