import Winext.NamedPipe.SessionPipes

/-! Every client of the echo server gets back what it sent, unless a message of its is
longer than the buffer of a session. -/
namespace Winext
open Lib Details

namespace Session
variable {s : Session}

/-- What each stage of a session says of the bytes it relays, with what it holds of them
in its buffer. An error that has ended an operation is the system's, or that of a read
which was cut short. -/
def Flow (s : Session) (relays : List UInt8 → Prop) (begins failed gone : Prop) : Prop :=
  match s.op with
  | .idle | .reading => relays []
  | .readEnded ec length => relays (s.data.take length) ∧
      (ec.failed = true → failed ∨ ec = ⟨errorMoreData⟩ ∧ s.data.take length ≠ [])
  | .writing length done => relays (s.unwritten length done)
  | .writeEnded ec => begins ∧ if ec.failed then failed else relays []
  | .stopped => begins ∧ (failed ∨ gone)

lemma Flow.mono {relays relays' : List UInt8 → Prop} {begins begins' failed failed' gone gone' : Prop}
    (h : s.Flow relays begins failed gone) (hrelays : ∀ bytes, relays bytes → relays' bytes)
    (hbegins : begins → begins') (hfailed : failed → failed') (hgone : gone → gone') :
    s.Flow relays' begins' failed' gone' := by
  cases hop : s.op with
  | idle | reading | writing =>
    simp only [Flow,hop] at h ⊢
    exact hrelays _ h
  | readEnded ec length =>
    simp only [Flow,hop] at h ⊢
    exact ⟨hrelays _ h.1,fun hec => (h.2 hec).imp_left hfailed⟩
  | writeEnded ec =>
    simp only [Flow,hop] at h ⊢
    refine ⟨hbegins h.1,?_⟩
    split_ifs at h ⊢
    · exact hfailed h.2
    · exact hrelays _ h.2
  | stopped =>
    simp only [Flow,hop] at h ⊢
    exact ⟨hbegins h.1,h.2.imp hfailed hgone⟩

lemma unwritten_eq (s : Session) (length done count : ℕ) : s.unwritten length done =
    (s.unwritten length done).take count ++ s.unwritten length (done + count) := by
  rw [unwritten,unwritten,← List.drop_drop,List.take_append_drop]

lemma unwritten_all (s : Session) (length : ℕ) : s.unwritten length length = [] :=
  List.drop_eq_nil_of_le (List.length_take_le length s.data)

/-- A handler starts a read or a write, or nothing. -/
lemma handler_op_ne {t : Session} (h : s.handler = some t) (ec : ErrorCode) (length : ℕ) :
    t.op ≠ .readEnded ec length := by
  cases hop : s.op with
  | readEnded ec' length' =>
    simp only [handler,hop,Option.some.injEq] at h
    subst h
    by_cases hec : ec'.failed = true
    · simp [hec]
    · by_cases hlen : length' = 0 <;> simp [hec,hlen,doWrite]
  | writeEnded ec' =>
    simp only [handler,hop,Option.some.injEq] at h
    subst h
    by_cases hec : ec'.failed = true <;> simp [hec,doRead]
  | idle | reading | writing | stopped =>
    simp only [handler,hop] at h
    cases h

end Session

namespace PipeInstance
variable {x y : PipeInstance} {s : Session}

def Relays (x : PipeInstance) (inHand : List UInt8) : Prop :=
  Relayed x.sent x.written inHand x.unread

def Flow (x : PipeInstance) : Prop :=
  match x.session with
  | none => x.Relays []
  | some s => s.Flow x.Relays (x.written <+: x.sent.flatten) (x.failed = true) (x.client = .gone)

lemma Flow.begins (h : x.Flow) : x.written <+: x.sent.flatten := by
  cases hs : x.session with
  | none =>
    simp only [Flow,hs] at h
    exact h.begins
  | some s =>
    simp only [Flow,hs] at h
    cases hop : s.op with
    | idle | reading | writing =>
      simp only [Session.Flow,hop] at h
      exact h.begins
    | readEnded ec length =>
      simp only [Session.Flow,hop] at h
      exact h.1.begins
    | writeEnded | stopped =>
      simp only [Session.Flow,hop] at h
      exact h.1

lemma op_eq_some {op : SessionOp} :
    x.session.map Session.op = some op ↔ ∃ s, x.session = some s ∧ s.op = op :=
  Option.map_eq_some_iff

theorem Flow.echoes (h : x.Flow) : x.Echoes := by
  refine ⟨h.begins,?_,?_⟩
  · rintro ⟨hwait,hempty⟩
    obtain ⟨s,hs,hop⟩ := op_eq_some.mp hwait
    simp only [Flow,hs,Session.Flow,hop,Relays,hempty] at h
    exact h.written_eq
  · rintro ⟨hend,hclient,hfailed⟩
    obtain ⟨s,hs,hop⟩ := op_eq_some.mp hend
    simp only [Flow,hs,Session.Flow,hop,hfailed] at h
    obtain hf | hg := h.2
    · cases hf
    · exact absurd hg hclient

/-- A step of the client leaves the session alone. -/
lemma Flow.client (h : x.Flow) (peer : Peer) (messages : List (List UInt8))
    (hpeer : x.client = .gone → peer = .gone) :
    Flow { x with client := peer, sent := x.sent ++ messages, unread := x.unread ++ messages } := by
  have hrelays : ∀ bytes, x.Relays bytes →
      Relayed (x.sent ++ messages) x.written bytes (x.unread ++ messages) :=
    fun _ hbytes => hbytes.send messages
  have hbegins : x.written <+: x.sent.flatten → x.written <+: (x.sent ++ messages).flatten := by
    rw [List.flatten_append]
    exact fun hb => hb.trans (List.prefix_append _ _)
  cases hs : x.session with
  | none =>
    simp only [Flow,hs] at h ⊢
    exact hrelays _ h
  | some s =>
    simp only [Flow,hs] at h ⊢
    exact h.mono hrelays hbegins id hpeer

lemma Flow.readEnds (h : x.Flow) (hs : x.session = some s) (hop : s.op = .reading)
    (hy : x.readEnds s = some y) : y.Flow := by
  obtain ⟨⟨bytes,more,rest⟩,hread,rfl⟩ := Option.map_eq_some_iff.mp hy
  simp only [Flow,hs,Session.Flow,hop] at h
  simp only [Flow,Session.Flow,List.take_left]
  refine ⟨h.fetch hread,fun hec => Or.inr ?_⟩
  cases more with
  | false => cases hec
  | true =>
    refine ⟨rfl,fun hnil => ?_⟩
    have hlen := (readQueue_more hread).2.1
    rw [hnil] at hlen
    cases hlen

lemma Flow.writes {length done count : ℕ} (h : x.Flow) (hs : x.session = some s)
    (hop : s.op = .writing length done) : (x.writes s length done count).Flow := by
  simp only [Flow,hs,Session.Flow,hop] at h
  have hnext : Relayed x.sent (x.written ++ (s.unwritten length done).take count)
      (s.unwritten length (done + count)) x.unread := by
    rw [Relays,s.unwritten_eq length done count] at h
    exact h.forward
  by_cases hall : done + count = length
  · rw [hall,s.unwritten_all] at hnext
    simp only [Flow,PipeInstance.writes,hall,if_true,Session.Flow]
    exact ⟨hnext.begins,hnext⟩
  · simp only [Flow,PipeInstance.writes,hall,if_false,Session.Flow]
    exact hnext

/-- The session is to handle the read of a message that was cut short, on a pipe that
works and whose client is there. -/
def CutShort (x : PipeInstance) : Prop :=
  (∃ length, x.session.map Session.op = some (.readEnded ⟨errorMoreData⟩ length)) ∧
    x.client ≠ .gone ∧ x.failed = false

/-- Handlers keep the flow, except that of a read which was cut short: it drops what it
was given, and ends the session. -/
lemma Flow.runHandler (h : x.Flow) (hcut : ¬x.CutShort) (hs : x.session = some s)
    {t : Session} (ht : s.handler = some t) : (x.keep t).Flow := by
  cases hop : s.op with
  | idle | reading | writing | stopped =>
    simp only [Session.handler,hop] at ht
    cases ht
  | readEnded ec length =>
    simp only [Flow,hs,Session.Flow,hop] at h
    simp only [Session.handler,hop,Option.some.injEq] at ht
    cases hec : ec.failed with
    | true =>
      simp only [hec,if_true] at ht
      cases ht
      refine ⟨h.1.begins,?_⟩
      obtain hf | ⟨rfl,-⟩ := h.2 hec
      · exact Or.inl hf
      · by_contra hne
        rw [not_or] at hne
        exact hcut ⟨⟨length,op_eq_some.mpr ⟨s,hs,hop⟩⟩,hne.2,Bool.eq_false_iff.mpr hne.1⟩
    | false =>
      simp only [hec,Bool.false_eq_true,if_false] at ht
      cases ht
      by_cases hlen : length = 0
      · simp only [hlen,List.take_zero] at h
        simp only [Flow,keep,Session.doWrite,hlen,if_true,Session.Flow]
        exact ⟨h.1.begins,h.1⟩
      · simp only [Flow,keep,Session.doWrite,hlen,if_false,Session.Flow]
        exact h.1
  | writeEnded ec =>
    simp only [Flow,hs,Session.Flow,hop] at h
    simp only [Session.handler,hop,Option.some.injEq] at ht
    cases hec : ec.failed with
    | true =>
      simp only [hec,if_true] at h ht
      cases ht
      exact ⟨h.1,Or.inl h.2⟩
    | false =>
      simp only [hec,Bool.false_eq_true,if_false] at h ht
      cases ht
      exact h.2

theorem Flow.step {l : PipeStep} (h : x.Flow) (hcut : l = .runHandler → ¬x.CutShort)
    (hy : PipeInstance.step l x = some y) : y.Flow := by
  cases step_cases hy with
  | client peer messages hl hpeer => exact h.client peer messages hpeer
  | readEnds hs hop hy => exact h.readEnds hs hop hy
  | writes hs hop => exact h.writes hs hop
  | readFails hs hop =>
    simp only [Flow,hs,Session.Flow,hop] at h
    exact ⟨h,fun _ => Or.inl rfl⟩
  | @writeFails s error length done he hs hop =>
    simp only [Flow,hs,Session.Flow,hop] at h
    have hfailed : (ErrorCode.mk error).failed = true := by simpa [noError] using he
    refine ⟨h.begins,?_⟩
    rw [if_pos hfailed]
  | runHandler hs ht => exact h.runHandler (hcut rfl) hs ht

lemma Flow.makeSession (h : x.Flow) (hs : x.session.map Session.op = none) :
    x.makeSession.Flow := by
  simp only [Flow,Option.map_eq_none_iff.mp hs] at h
  exact h

lemma Flow.startSession (h : x.Flow) (hs : x.session.map Session.op = some .idle) :
    x.startSession.Flow := by
  obtain ⟨s,hs,hop⟩ := op_eq_some.mp hs
  simp only [Flow,hs,Session.Flow,hop] at h
  simp only [Flow,PipeInstance.startSession,hs]
  exact h

lemma Flow.dropSession (h : x.Flow) : x.dropSession.Flow := by
  cases hs : x.session with
  | none =>
    simp only [PipeInstance.dropSession,hs]
    exact h
  | some s =>
    simp only [Flow,hs] at h
    simp only [Flow,PipeInstance.dropSession,hs]
    exact h

lemma flow_loopStable : LoopStable Flow where
  created _ := rfl
  makeSession _ hs h := h.makeSession hs
  startSession _ hs h := h.startSession hs
  dropSession _ h := h.dropSession
  close _ h := h

/-- No message that waits is longer than the buffer, and none was cut short. -/
structure Short (x : PipeInstance) : Prop where
  unread : x.messageReadMode = true → ∀ m ∈ x.unread, m.length ≤ maxLength
  uncut : ∀ length, x.session.map Session.op = some (.readEnded ⟨errorMoreData⟩ length) →
    x.failed = true

lemma Short.not_cutShort (h : x.Short) : ¬x.CutShort := by
  rintro ⟨⟨length,hop⟩,-,hfailed⟩
  rw [h.uncut length hop] at hfailed
  cases hfailed

lemma Short.readEnds (h : x.Short) (hy : x.readEnds s = some y) : y.Short := by
  obtain ⟨⟨bytes,more,rest⟩,hread,rfl⟩ := Option.map_eq_some_iff.mp hy
  refine ⟨fun hmode => ?_,fun length hop => ?_⟩
  · rw [hmode] at hread
    exact readMessage_short (h.unread hmode) hread
  · cases more with
    | false => cases hop
    | true =>
      obtain ⟨hmode,-,message,hmem,hlt⟩ := readQueue_more hread
      have hle := h.unread hmode message (List.mem_of_mem_head? hmem)
      exact absurd hle (Nat.not_le_of_lt hlt)

theorem Short.step {l : PipeStep} (h : x.Short)
    (hl : ∀ message, l = .clientWrites message → message.length ≤ maxLength)
    (hy : PipeInstance.step l x = some y) : y.Short := by
  cases step_cases hy with
  | client peer messages _ _ hsent =>
    refine ⟨fun hmode m hm => ?_,h.uncut⟩
    obtain hm | hm := List.mem_append.mp hm
    · exact h.unread hmode m hm
    · exact hl m (hsent m hm)
  | readEnds hs hop hy => exact h.readEnds hy
  | @writes s length done count hs hop =>
    refine ⟨h.unread,fun length hop => ?_⟩
    simp only [PipeInstance.writes,Option.map_some] at hop
    split_ifs at hop <;> cases hop
  | readFails | writeFails => exact ⟨h.unread,fun _ _ => rfl⟩
  | runHandler hs ht =>
    refine ⟨h.unread,fun length hop => ?_⟩
    exact absurd (Option.some.inj hop) (Session.handler_op_ne ht _ _)

lemma short_loopStable : LoopStable Short where
  created _ := ⟨by simp,by simp⟩
  makeSession _ _ h := ⟨h.unread,by simp [PipeInstance.makeSession]⟩
  startSession x hs h := by
    obtain ⟨s,hs,-⟩ := op_eq_some.mp hs
    exact ⟨h.unread,by simp [PipeInstance.startSession,hs,Session.start,Session.doRead]⟩
  dropSession x h := by
    refine ⟨?_,fun length hop => ?_⟩
    · rw [PipeInstance.dropSession]
      split <;> exact h.unread
    · rw [PipeInstance.dropSession_op] at hop
      rw [PipeInstance.dropSession]
      split <;> exact h.uncut length hop
  close _ h := ⟨h.unread,h.uncut⟩

end PipeInstance

namespace EchoServer
open PipeServer
variable {threads : ℕ} {output : Dword → Dword} {o : Overload} {endpoint : String}
variable {s t : EchoServer} {l : Act}

/-- Every client has back what it sent, as far as its session has come. -/
def Echoing (s : EchoServer) : Prop := ∀ x ∈ s.world.instances, x.Echoes

/-- The condition on a step: it does not run the handler of a read that was cut short. -/
def Uncut (s : EchoServer) : Act → Prop
  | .pipe i .runHandler => ∀ x, s.world.instances[i]? = some x → ¬x.CutShort
  | _ => True

structure Relaying (s : EchoServer) : Prop where
  tidy : s.Tidy
  flow : ∀ x ∈ s.world.instances, x.Flow

theorem Relaying.step (h : s.Relaying) (hl : s.Uncut l)
    (hstep : (machine threads output o endpoint).step s l = some t) : t.Relaying := by
  refine ⟨step_tidy s l t h.tidy hstep,?_⟩
  refine loopStable_step PipeInstance.flow_loopStable h.tidy h.flow (fun i k x y hk hx hflow hy => ?_) hstep
  subst hk
  refine hflow.step (fun hrun => ?_) hy
  subst hrun
  exact hl x hx

/-- The handler of a read that was cut short ends its session. -/
lemma not_echoes_of_cutShort {x y : PipeInstance} (h : x.Flow) (hcut : x.CutShort)
    (hy : PipeInstance.step .runHandler x = some y) : ¬y.Echoes := by
  obtain ⟨⟨length,hop⟩,hclient,hfailed⟩ := hcut
  obtain ⟨s,hs,hop⟩ := PipeInstance.op_eq_some.mp hop
  simp only [PipeInstance.Flow,hs,Session.Flow,hop,hfailed] at h
  obtain hf | ⟨-,hne⟩ := h.2 rfl
  · cases hf
  simp only [PipeInstance.step,hs,Session.handler,hop,Option.map_some,Option.some.injEq] at hy
  cases hy
  exact fun he => h.1.written_ne hne (he.ended ⟨rfl,hclient,hfailed⟩)

lemma not_echoing_of_cut (h : s.Relaying) (hl : ¬s.Uncut l)
    (hstep : (machine threads output o endpoint).step s l = some t) : ¬t.Echoing := by
  cases step_cases hstep with
  | accept | deliver => exact absurd trivial hl
  | @pipe i k xs _ hxs =>
    cases k with
    | clientConnects | clientWrites | clientDisconnects | readEnds | writes | fails =>
      exact absurd trivial hl
    | runHandler =>
      simp only [Uncut,not_forall,not_not] at hl
      obtain ⟨x,hx,hcut⟩ := hl
      obtain ⟨y,hy,hys⟩ := getElem?_stepAt_self hx hxs
      intro hall
      rw [Echoing,EchoWorld.afterStep_instances] at hall
      exact not_echoes_of_cutShort (h.flow x (List.mem_of_getElem? hx)) hcut hy
        (hall y (List.mem_of_getElem? hys))

theorem start_relaying : (start o endpoint).Relaying := ⟨start_tidy,by simp [start]⟩

/-- All clients of the server have back what they sent, in every state of a run, if and
only if no handler of the run is told of a read that was cut short. -/
theorem echoing_iff {ls : List Act}
    (h : (machine threads output o endpoint).run (start o endpoint) ls = some t) :
    (machine threads output o endpoint).Throughout Echoing (start o endpoint) ls ↔
      (machine threads output o endpoint).Along Uncut (start o endpoint) ls :=
  Machine.throughout_iff_along (fun _ hs x hx => (hs.flow x hx).echoes)
    (fun _ _ _ hs hl hstep => hs.step hl hstep)
    (fun _ _ _ hs hl hstep => not_echoing_of_cut hs hl hstep) h start_relaying

/-- One client connects and writes a message, which its session reads and handles. -/
def oneMessage (message : List UInt8) (rest : List Act) : List Act :=
  List.replicate 6 .accept ++ [.pipe 0 .clientConnects,.pipe 0 (.clientWrites message),.deliver] ++
    List.replicate 9 .accept ++ [.pipe 0 .readEnds,.pipe 0 .runHandler] ++ rest

/-- A message of two bytes is written back. -/
theorem echoing_two_bytes : ∃ t, (machine 1 id .intoPipe "").run (start .intoPipe "")
      (oneMessage [104,105] [.pipe 0 (.writes 2),.pipe 0 .runHandler]) = some t ∧
    ((machine 1 id .intoPipe "").Throughout Echoing (start .intoPipe "")
        (oneMessage [104,105] [.pipe 0 (.writes 2),.pipe 0 .runHandler]) ↔
      (machine 1 id .intoPipe "").Along Uncut (start .intoPipe "")
        (oneMessage [104,105] [.pipe 0 (.writes 2),.pipe 0 .runHandler])) := by
  obtain ⟨t,ht⟩ := Option.isSome_iff_exists.mp (show ((machine 1 id .intoPipe "").run
    (start .intoPipe "") (oneMessage [104,105]
      [.pipe 0 (.writes 2),.pipe 0 .runHandler])).isSome by decide +kernel)
  exact ⟨t,ht,echoing_iff ht⟩

/-- A message of 1025 bytes ends its session, and nothing of it is written back. -/
theorem long_message_lost : ¬∀ (threads : ℕ) (output : Dword → Dword) (o : Overload)
    (endpoint : String) (ls : List Act) (t : EchoServer),
    (machine threads output o endpoint).run (start o endpoint) ls = some t →
      (machine threads output o endpoint).Throughout Echoing (start o endpoint) ls := by
  intro h
  have hrun : ((machine 1 id .intoPipe "").run (start .intoPipe "")
      (oneMessage (List.replicate 1025 0) [])).bind (fun t => t.world.instances[0]?.map fun x =>
        (x.session.map Session.op,x.client,x.failed,x.written,x.sent.flatten.length)) =
      some (some .stopped,.connected,false,[],1025) := by decide +kernel
  obtain ⟨t,ht,hx⟩ := Option.bind_eq_some_iff.mp hrun
  obtain ⟨x,hx,hvalues⟩ := Option.map_eq_some_iff.mp hx
  simp only [Prod.mk.injEq] at hvalues
  obtain ⟨hop,hclient,hfailed,hwritten,hsent⟩ := hvalues
  have hechoes := h 1 id .intoPipe "" _ t ht _ t (List.prefix_refl _) ht x (List.mem_of_getElem? hx)
  have hall := hechoes.ended ⟨hop,by simp [hclient],hfailed⟩
  rw [← hall,hwritten] at hsent
  cases hsent

/-- No client has written more than a session reads at once. -/
structure Brief (s : EchoServer) : Prop where
  tidy : s.Tidy
  short : ∀ x ∈ s.world.instances, x.Short

/-- No message is written that is longer than the buffer. -/
def WritesShort : Act → Prop
  | .pipe _ (.clientWrites message) => message.length ≤ maxLength
  | _ => True

theorem Brief.step (h : s.Brief) (hl : WritesShort l)
    (hstep : (machine threads output o endpoint).step s l = some t) : t.Brief := by
  refine ⟨step_tidy s l t h.tidy hstep,?_⟩
  refine loopStable_step PipeInstance.short_loopStable h.tidy h.short (fun i k x y hk hx hshort hy => ?_) hstep
  subst hk
  refine hshort.step (fun message hm => ?_) hy
  subst hm
  exact hl

lemma Brief.uncut (h : s.Brief) (l : Act) : s.Uncut l := by
  cases l with
  | accept | deliver => exact trivial
  | pipe i k =>
    cases k with
    | runHandler => exact fun x hx => (h.short x (List.mem_of_getElem? hx)).not_cutShort
    | clientConnects | clientWrites | clientDisconnects | readEnds | writes | fails => exact trivial

/-- Clients whose messages fit the buffer of a session have back what they sent. -/
theorem echoing_of_writesShort {ls : List Act}
    (h : (machine threads output o endpoint).run (start o endpoint) ls = some t)
    (hshort : ∀ l ∈ ls, WritesShort l) :
    (machine threads output o endpoint).Throughout Echoing (start o endpoint) ls := by
  have hbrief : ∀ s l t, Brief s → WritesShort l →
      (machine threads output o endpoint).step s l = some t → Brief t ∧ s.Uncut l :=
    fun s l t hs hl hstep => ⟨hs.step hl hstep,hs.uncut l⟩
  refine (echoing_iff h).mpr (Machine.along_of_run hbrief h ⟨start_tidy,by simp [start]⟩ ?_)
  exact (Machine.along_label_iff h).mpr hshort

end EchoServer
end Winext
