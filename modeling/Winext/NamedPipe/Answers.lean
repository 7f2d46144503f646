import Mathlib.Data.List.Infix
import Mathlib.Data.List.TakeWhile
import Winext.NamedPipe.Echo

/-! What each client of an echo server gets back: the messages before the first one that is
longer than the buffer of a session. It depends on nothing that other clients do. -/
namespace Winext
open Lib Details

/-- The message fits the buffer of a session. -/
def fits (message : List UInt8) : Bool := message.length ≤ maxLength

lemma fits_iff {message : List UInt8} : fits message = true ↔ message.length ≤ maxLength :=
  decide_eq_true_iff

section Fits
variable {read rest : List (List UInt8)} {message : List UInt8}

lemma prefix_takeWhile_fits (hread : ∀ m ∈ read, fits m = true) :
    read <+: (read ++ rest).takeWhile fits := by
  rw [List.takeWhile_append_of_pos hread]
  exact List.prefix_append read _

lemma takeWhile_fits_eq (hread : ∀ m ∈ read, fits m = true) (hlong : fits message = false) :
    (read ++ message::rest).takeWhile fits = read := by
  rw [List.takeWhile_append_of_pos hread,List.takeWhile_cons_of_neg (by simp [hlong]),List.append_nil]

/-- Further messages add to what comes before the first that does not fit, or there is one. -/
lemma takeWhile_fits_append (sent messages : List (List UInt8)) :
    sent.takeWhile fits <+: (sent ++ messages).takeWhile fits ∧
      (sent.takeWhile fits ≠ sent →
        (sent ++ messages).takeWhile fits = sent.takeWhile fits) := by
  by_cases hall : sent.takeWhile fits = sent
  · refine ⟨?_,fun hne => absurd hall hne⟩
    rw [hall]
    exact prefix_takeWhile_fits (List.takeWhile_eq_self_iff.mp hall)
  · have hlength : ¬(sent.takeWhile fits).length = sent.length := fun he =>
      hall ((List.takeWhile_prefix fits).eq_of_length he)
    rw [List.takeWhile_append,if_neg hlength]
    exact ⟨List.prefix_rfl,fun _ => rfl⟩

end Fits

namespace PipeInstance
variable {x y : PipeInstance} {s : Session}

/-- The messages before the first that does not fit. -/
def answerable (x : PipeInstance) : List (List UInt8) := x.sent.takeWhile fits

/-- These messages have been read whole, and of their bytes these are still in hand. -/
structure Stand (x : PipeInstance) (read : List (List UInt8)) (inHand : List UInt8) : Prop where
  sent : x.sent = read ++ x.unread
  fit : ∀ m ∈ read, fits m = true
  bytes : read.flatten = x.written ++ inHand

/-- A message that does not fit has been met, after the others were written back. -/
structure Cut (x : PipeInstance) : Prop where
  written : x.written = x.answerable.flatten
  more : x.answerable ≠ x.sent

/-- What is written back is the beginning of what can be. -/
def Begins (x : PipeInstance) : Prop := x.written <+: x.answerable.flatten

/-- The messages that were read whole are written back, but for these bytes. -/
def Stands (x : PipeInstance) (inHand : List UInt8) : Prop := ∃ read, x.Stand read inHand

/-- An operation of the session has failed. -/
def Breaks (x : PipeInstance) : Prop := x.failed = true ∧ x.Begins

/-- What the stage of a session says of the client's messages. -/
def accountOf (stands : List UInt8 → Prop) (breaks cut : Prop) : Option Session → Prop
  | none => stands []
  | some s =>
    match s.op with
    | .idle | .reading => stands []
    | .readEnded ec length => if ec.failed then breaks ∨ cut else stands (s.data.take length)
    | .writing length done => stands (s.unwritten length done)
    | .writeEnded ec => if ec.failed then breaks else stands []
    | .stopped => breaks ∨ cut

def Account (x : PipeInstance) : Prop := accountOf x.Stands x.Breaks x.Cut x.session

lemma accountOf_mono {stands stands' : List UInt8 → Prop} {breaks breaks' cut cut' : Prop}
    {session : Option Session} (h : accountOf stands breaks cut session)
    (hstands : ∀ bytes, stands bytes → stands' bytes) (hbreaks : breaks → breaks')
    (hcut : cut → cut') : accountOf stands' breaks' cut' session := by
  cases session with
  | none => exact hstands _ h
  | some s =>
    cases hop : s.op with
    | idle | reading | writing =>
      simp only [accountOf,hop] at h ⊢
      exact hstands _ h
    | readEnded ec length =>
      simp only [accountOf,hop] at h ⊢
      split_ifs at h ⊢
      · exact h.imp hbreaks hcut
      · exact hstands _ h
    | writeEnded ec =>
      simp only [accountOf,hop] at h ⊢
      split_ifs at h ⊢
      · exact hbreaks h
      · exact hstands _ h
    | stopped =>
      simp only [accountOf,hop] at h ⊢
      exact h.imp hbreaks hcut

/-- What follows from each part of the account follows from the account. -/
lemma accountOf_elim {stands : List UInt8 → Prop} {breaks cut P : Prop}
    {session : Option Session} (h : accountOf stands breaks cut session)
    (hstands : ∀ bytes, stands bytes → P) (hbreaks : breaks → P) (hcut : cut → P) : P := by
  have hP : accountOf (fun _ => P) P P session := accountOf_mono h hstands hbreaks hcut
  cases session with
  | none => exact hP
  | some s =>
    cases hop : s.op with
    | idle | reading | writing =>
      simp only [accountOf,hop] at hP
      exact hP
    | readEnded | writeEnded | stopped =>
      simp only [accountOf,hop,or_self,ite_self] at hP
      exact hP

lemma Stand.begins {read : List (List UInt8)} {inHand : List UInt8} (h : x.Stand read inHand) :
    x.Begins := by
  have hprefix : read <+: x.answerable := by
    unfold answerable
    rw [h.sent]
    exact prefix_takeWhile_fits h.fit
  refine List.IsPrefix.trans ?_ hprefix.flatten
  rw [h.bytes]
  exact List.prefix_append x.written inHand

lemma Cut.begins (h : x.Cut) : x.Begins := by
  unfold Begins
  exact h.written ▸ List.prefix_rfl

/-- The read of a message that does not fit takes its beginning away, and ends. -/
lemma Stand.cut {read messages : List (List UInt8)} {message : List UInt8} (h : x.Stand read [])
    (hunread : x.unread = message::messages) (hlong : maxLength < message.length) : x.Cut := by
  have hfits : fits message = false := decide_eq_false (Nat.not_le_of_lt hlong)
  have hanswerable : x.answerable = read := by
    unfold answerable
    rw [h.sent,hunread]
    exact takeWhile_fits_eq h.fit hfits
  have hbytes := h.bytes
  rw [List.append_nil] at hbytes
  refine ⟨by rw [hanswerable,hbytes],fun hall => ?_⟩
  rw [hanswerable,h.sent,hunread] at hall
  exact absurd hall (by simp)

theorem Account.begins (h : x.Account) : x.Begins :=
  accountOf_elim h (fun _ ⟨_,h⟩ => h.begins) And.right Cut.begins

/-- A session that waits with nothing left unread has written back all. -/
lemma Account.waiting (h : x.Account) (hwait : x.WaitsForMore) :
    x.answerable = x.sent ∧ x.written = x.sent.flatten := by
  obtain ⟨hop,hunread⟩ := hwait
  obtain ⟨s,hs,hop⟩ := op_eq_some.mp hop
  rw [Account,hs] at h
  simp only [accountOf,hop] at h
  obtain ⟨read,h⟩ := h
  have hsent := h.sent
  have hbytes := h.bytes
  rw [hunread,List.append_nil] at hsent
  rw [List.append_nil] at hbytes
  refine ⟨?_,by rw [hsent,hbytes]⟩
  unfold answerable
  rw [hsent]
  exact List.takeWhile_eq_self_iff.mpr h.fit

/-- One that has ended without a failure has met a message that does not fit. -/
lemma Account.ended (h : x.Account) (hop : x.session.map Session.op = some .stopped)
    (hfailed : x.failed = false) : x.Cut := by
  obtain ⟨s,hs,hop⟩ := op_eq_some.mp hop
  rw [Account,hs] at h
  simp only [accountOf,hop] at h
  obtain ⟨hf,-⟩ | h := h
  · rw [hfailed] at hf
    cases hf
  · exact h

section Client
variable {peer : Peer} {messages : List (List UInt8)}

/-- What the client adds waits behind what it has written before. -/
lemma Stand.client {read : List (List UInt8)} {inHand : List UInt8} (h : x.Stand read inHand) :
    Stand { x with client := peer, sent := x.sent ++ messages, unread := x.unread ++ messages }
      read inHand where
  sent := by rw [h.sent,List.append_assoc]
  fit := h.fit
  bytes := h.bytes

lemma Begins.client (h : x.Begins) :
    Begins { x with client := peer, sent := x.sent ++ messages, unread := x.unread ++ messages } :=
  h.trans (takeWhile_fits_append x.sent messages).1.flatten

lemma Cut.client (h : x.Cut) :
    Cut { x with client := peer, sent := x.sent ++ messages, unread := x.unread ++ messages } := by
  have hsame := (takeWhile_fits_append x.sent messages).2 h.more
  refine ⟨h.written.trans (congrArg List.flatten hsame.symm),fun hall => h.more ?_⟩
  have hprefix : x.sent <+: x.answerable := by
    have hall : (x.sent ++ messages).takeWhile fits = x.sent ++ messages := hall
    have happend := List.prefix_append x.sent messages
    rw [← hall,hsame] at happend
    exact happend
  exact (List.takeWhile_prefix fits).eq_of_length_le hprefix.length_le

lemma Account.client (h : x.Account) : Account { x with
    client := peer, sent := x.sent ++ messages, unread := x.unread ++ messages } :=
  accountOf_mono h (fun _ ⟨read,h⟩ => ⟨read,h.client⟩) (fun h => ⟨h.1,h.2.client⟩) Cut.client

end Client

/-- The account is of the messages and the bytes of an instance, and of nothing else. -/
lemma accountOf_congr (x y : PipeInstance) {session : Option Session} (hsent : y.sent = x.sent)
    (hunread : y.unread = x.unread) (hwritten : y.written = x.written)
    (hfailed : y.failed = x.failed) (h : accountOf x.Stands x.Breaks x.Cut session) :
    accountOf y.Stands y.Breaks y.Cut session := by
  have hanswerable : y.answerable = x.answerable := congrArg (List.takeWhile fits) hsent
  have hbegins : x.Begins → y.Begins := by
    unfold Begins
    rw [hanswerable,hwritten]
    exact id
  apply accountOf_mono h
  · rintro bytes ⟨read,h⟩
    exact ⟨read,by rw [hsent,hunread,h.sent],h.fit,by rw [hwritten,h.bytes]⟩
  · exact fun h => ⟨hfailed.trans h.1,hbegins h.2⟩
  · intro h
    refine ⟨by rw [hwritten,hanswerable,h.written],?_⟩
    rw [hanswerable,hsent]
    exact h.more

lemma Account.readEnds (h : x.Account) (hmode : x.messageReadMode = true)
    (hs : x.session = some s) (hop : s.op = .reading) (hy : x.readEnds s = some y) :
    y.Account := by
  obtain ⟨⟨bytes,more,rest⟩,hread,rfl⟩ := Option.map_eq_some_iff.mp hy
  rw [Account,hs] at h
  simp only [accountOf,hop] at h
  obtain ⟨read,h⟩ := h
  rw [hmode] at hread
  obtain ⟨rfl,hunread,hle⟩ | ⟨rfl,message,messages,hunread,hlong,-,-⟩ := readMessage_cases hread
  · refine ⟨read ++ [bytes],?_,fun m hm => ?_,?_⟩
    · rw [List.append_assoc,List.singleton_append,← hunread]
      exact h.sent
    · obtain hm | hm := List.mem_append.mp hm
      · exact h.fit m hm
      · rw [List.mem_singleton.mp hm]
        exact fits_iff.mpr hle
    · have hbytes := h.bytes
      rw [List.append_nil] at hbytes
      rw [List.flatten_append,hbytes,List.flatten_singleton,List.take_left]
  · have hcut : x.Cut := h.cut hunread hlong
    exact Or.inr ⟨hcut.written,hcut.more⟩

lemma Account.writes {length done count : ℕ} (h : x.Account) (hs : x.session = some s)
    (hop : s.op = .writing length done) : (x.writes s length done count).Account := by
  rw [Account,hs] at h
  simp only [accountOf,hop] at h
  obtain ⟨read,h⟩ := h
  have hstand : Stand (x.writes s length done count) read (s.unwritten length (done + count)) := by
    refine ⟨h.sent,h.fit,?_⟩
    rw [h.bytes,s.unwritten_eq length done count,← List.append_assoc]
    rfl
  unfold Account
  by_cases hdone : done + count = length
  · rw [hdone,Session.unwritten_all] at hstand
    simp only [accountOf,PipeInstance.writes,if_pos hdone]
    exact ⟨read,hstand.sent,hstand.fit,hstand.bytes⟩
  · simp only [accountOf,PipeInstance.writes,if_neg hdone]
    exact ⟨read,hstand.sent,hstand.fit,hstand.bytes⟩

lemma Account.runHandler (h : x.Account) (hs : x.session = some s) {t : Session}
    (ht : s.handler = some t) : (x.keep t).Account := by
  rw [Account,hs] at h
  have hsame : accountOf x.Stands x.Breaks x.Cut (some t) := by
    cases hop : s.op with
    | readEnded ec length =>
      simp only [accountOf,hop] at h
      simp only [Session.handler,hop,Option.some.injEq] at ht
      subst ht
      by_cases hec : ec.failed = true
      · rw [if_pos hec] at h
        rw [if_pos hec]
        exact h
      · rw [if_neg hec] at h
        rw [if_neg hec]
        by_cases hlen : length = 0
        · subst hlen
          exact h
        · simp only [accountOf,Session.doWrite,if_neg hlen]
          exact h
    | writeEnded ec =>
      simp only [accountOf,hop] at h
      simp only [Session.handler,hop,Option.some.injEq] at ht
      subst ht
      by_cases hec : ec.failed = true
      · rw [if_pos hec] at h
        rw [if_pos hec]
        exact Or.inl h
      · rw [if_neg hec] at h
        rw [if_neg hec]
        exact h
    | idle | reading | writing | stopped =>
      simp only [Session.handler,hop] at ht
      cases ht
  exact accountOf_congr x (x.keep t) rfl rfl rfl rfl hsame

theorem Account.step {l : PipeStep} (h : x.Account) (hmode : x.messageReadMode = true)
    (hy : PipeInstance.step l x = some y) : y.Account := by
  cases step_cases hy with
  | client peer messages => exact h.client
  | readEnds hs hop hy => exact h.readEnds hmode hs hop hy
  | writes hs hop => exact h.writes hs hop
  | @readFails s error hs hop =>
    rw [Account,hs] at h
    simp only [accountOf,hop] at h
    obtain ⟨read,h⟩ := h
    simp only [Account,accountOf]
    split_ifs
    · exact Or.inl ⟨rfl,h.begins⟩
    · exact ⟨read,h.sent,h.fit,h.bytes⟩
  | @writeFails s error length done he hs hop =>
    rw [Account,hs] at h
    simp only [accountOf,hop] at h
    obtain ⟨read,h⟩ := h
    have hfailed : (ErrorCode.mk error).failed = true := by simpa [noError] using he
    simp only [Account,accountOf,if_pos hfailed]
    exact ⟨rfl,h.begins⟩
  | runHandler hs ht => exact h.runHandler hs ht

/-- The loop gives an instance its session and lets go of it, and moves no bytes. -/
lemma account_loopStable : LoopStable fun x => x.messageReadMode = true → x.Account where
  created mode _ := ⟨[],rfl,by simp,rfl⟩
  makeSession x hs h hmode := by
    have hx := h hmode
    rw [Account,Option.map_eq_none_iff.mp hs] at hx
    exact accountOf_congr x x.makeSession rfl rfl rfl rfl hx
  startSession x hs h hmode := by
    obtain ⟨s,hs,hop⟩ := op_eq_some.mp hs
    have hx := h hmode
    rw [Account,hs] at hx
    have hstart : x.startSession.session = some s.start := by simp [PipeInstance.startSession,hs]
    rw [Account,hstart]
    apply accountOf_congr x x.startSession rfl rfl rfl rfl
    simp only [accountOf,hop] at hx
    exact hx
  dropSession x h := by
    cases hs : x.session with
    | none =>
      rw [PipeInstance.dropSession,hs]
      exact h
    | some s =>
      rw [PipeInstance.dropSession,hs]
      intro hmode
      have hx := h hmode
      rw [Account,hs] at hx
      exact accountOf_congr x (x.keep { s with temporary := false }) rfl rfl rfl rfl hx
  close x h hmode := accountOf_congr x x.close rfl rfl rfl rfl (h hmode)

/-- What a client has back: the beginning of the messages before the first that does not fit.
It is all it has sent when the session waits, and just those messages when it has ended
without a failure. -/
structure Answered (x : PipeInstance) : Prop where
  begins : x.written <+: x.answerable.flatten
  waiting : x.WaitsForMore → x.answerable = x.sent ∧ x.written = x.sent.flatten
  ended : x.session.map Session.op = some .stopped → x.failed = false →
    x.written = x.answerable.flatten ∧ x.answerable ≠ x.sent

theorem Account.answered (h : x.Account) : x.Answered where
  begins := h.begins
  waiting := h.waiting
  ended hop hfailed :=
    have hcut := h.ended hop hfailed
    ⟨hcut.written,hcut.more⟩

end PipeInstance

/-- An instance is made in message mode. -/
def Details.ServerCall.MessageMode : ServerCall → Prop
  | .createNamedPipe _ settings => settings.messageReadMode = true
  | _ => True

def LoopCall.MessageMode : LoopCall → Prop
  | .server c => c.MessageMode
  | _ => True

/-- Every instance is made in message mode. -/
theorem asyncAccept_messageMode (o : Overload) (endpoint : String) :
    (o.asyncAccept endpoint).All ServerCall.MessageMode := by
  rw [o.asyncAccept_eq,acceptOperator,if_neg (by decide),Program.ask_bind]
  refine ⟨trivial,fun _ => Program.All.bind ?_ fun out => ?_⟩
  · simp only [acceptDetail2,Program.ask_bind,Program.pure_eq]
    refine ⟨rfl,fun hPipe => ?_⟩
    beta_reduce
    split_ifs
    · exact ⟨trivial,fun _ => ⟨trivial,fun _ => ⟨trivial,fun _ => trivial⟩⟩⟩
    refine ⟨trivial,fun fConnected => ?_⟩
    beta_reduce
    split_ifs
    · exact ⟨trivial,fun _ => ⟨trivial,fun _ => ⟨trivial,fun _ => trivial⟩⟩⟩
    refine ⟨trivial,fun reason => ?_⟩
    beta_reduce
    split_ifs
    · exact trivial
    · exact ⟨trivial,fun _ => ⟨trivial,fun _ => trivial⟩⟩
    · exact ⟨trivial,fun _ => ⟨trivial,fun _ => ⟨trivial,fun _ => trivial⟩⟩⟩
  · simp only [handOver,Program.ask_bind,Program.pure_eq]
    split_ifs
    · refine ⟨trivial,fun assigned => ?_⟩
      cases assigned with
      | error thrown => exact trivial
      | ok _ => exact ⟨trivial,fun _ => trivial⟩
    · exact ⟨trivial,fun _ => ⟨trivial,fun _ => trivial⟩⟩
    · refine ⟨trivial,fun assigned => ?_⟩
      cases assigned with
      | error thrown => exact trivial
      | ok _ => exact ⟨trivial,fun _ => trivial⟩

lemma LoopProgram.ofServer_messageMode {α : Type} {p : ServerProgram α}
    (h : p.All ServerCall.MessageMode) : (ofServer p).All LoopCall.MessageMode := by
  induction p with
  | done a => exact trivial
  | call c next ih => exact ⟨h.1,fun r => ih r (h.2 r)⟩

theorem acceptHandler_messageMode (o : Overload) (endpoint : String) (ec : ErrorCode) :
    (acceptHandler o endpoint ec).All LoopCall.MessageMode := by
  have hrest : Program.All LoopCall.MessageMode (do
      let started ← doAccept o endpoint
      if o = .byMove then
        Program.ask LoopCall.dropSocket
      return started) := by
    refine Program.All.bind (LoopProgram.ofServer_messageMode (asyncAccept_messageMode o endpoint))
      fun started => ?_
    cases o with
    | intoPipe => exact trivial
    | byMove => exact ⟨trivial,fun _ => trivial⟩
  cases hec : ec.failed with
  | true =>
    simp only [acceptHandler,hec]
    exact hrest
  | false =>
    simp only [acceptHandler,hec]
    exact ⟨trivial,fun _ => ⟨trivial,fun _ => ⟨trivial,fun _ => hrest⟩⟩⟩

lemma PipeInstance.messageReadMode_step {x y : PipeInstance} {l : PipeStep}
    (h : PipeInstance.step l x = some y) : y.messageReadMode = x.messageReadMode := by
  cases step_cases h with
  | client | writes | readFails | writeFails | runHandler => rfl
  | readEnds hs hop hy =>
    obtain ⟨r,-,rfl⟩ := Option.map_eq_some_iff.mp hy
    rfl

lemma EchoWorld.messageReadMode_perform {w : EchoWorld} {c : LoopCall} (hc : c.MessageMode)
    (h : ∀ x ∈ w.instances, x.messageReadMode = true) (output : Dword → Dword) (o : Overload) :
    ∀ x ∈ (w.perform output o c).2.instances, x.messageReadMode = true := by
  cases c with
  | server c =>
    cases c with
    | createNamedPipe endpoint settings =>
      intro x hx
      obtain hx | hx := List.mem_append.mp hx
      · exact h x hx
      · rw [List.mem_singleton.mp hx]
        exact hc
    | assign hPipe =>
      simp only [EchoWorld.perform,EchoWorld.performServer]
      split <;> exact h
    | connectNamedPipe | getLastError | print | overlappedPtr | complete | release | selfComplete =>
      exact h
  | makeSession => cases o <;> exact forall_modifyAt h fun _ _ _ _ => id
  | startSession => exact forall_modifyAt h fun _ _ _ _ => id
  | dropSession =>
    refine forall_modifyAt h fun _ x _ _ hx => ?_
    unfold PipeInstance.dropSession
    split <;> exact hx
  | dropSocket => exact forall_modifyAt h fun _ _ _ _ => id

namespace PipeServer
variable {α : Type} {threads : ℕ} {output : Dword → Dword} {o : Overload}
variable {handler : ErrorCode → LoopProgram α}

/-- The pipes of the server are in message mode, and each has answered its client as far as
its session has come. -/
structure Answering (s : PipeServer α) : Prop where
  tidy : s.Tidy
  mode : ∀ x ∈ s.world.instances, x.messageReadMode = true
  calls : s.program.All LoopCall.MessageMode
  account : ∀ x ∈ s.world.instances, x.messageReadMode = true → x.Account

theorem step_answering (hcareful : ∀ ec, (handler ec).Careful {})
    (hmessage : ∀ ec, (handler ec).All LoopCall.MessageMode) :
    (machine threads output o handler).Preserves Answering := by
  intro s l t h hstep
  have haccount := loopStable_step PipeInstance.account_loopStable h.tidy h.account
    (fun i k x y _ hx haccount hy hmode => ?_) hstep
  · refine ⟨step_tidy hcareful s l t h.tidy hstep,?_,?_,haccount⟩
    · cases step_cases hstep with
      | accept hp =>
        have hcalls := h.calls
        rw [hp] at hcalls
        exact EchoWorld.messageReadMode_perform hcalls.1 h.mode output o
      | deliver =>
        rw [EchoWorld.handPipe_instances]
        exact h.mode
      | pipe _ hxs =>
        rw [EchoWorld.afterStep_instances]
        exact forall_stepAt h.mode
          (fun x y _ hx hy => (PipeInstance.messageReadMode_step hy).trans hx) hxs
    · cases step_cases hstep with
      | accept hp =>
        have hcalls := h.calls
        rw [hp] at hcalls
        exact hcalls.2 _
      | deliver => exact hmessage _
      | pipe => exact h.calls
  · have hx := h.mode x (List.mem_of_getElem? hx)
    exact (haccount hx).step hx hy

/-- Each client has been answered as far as its session has come. -/
lemma Answering.answered {s : PipeServer α} (h : s.Answering) :
    ∀ x ∈ s.world.instances, x.Answered :=
  fun x hx => (h.account x hx (h.mode x hx)).answered

end PipeServer

namespace EchoServer
open PipeServer
variable {threads : ℕ} {output : Dword → Dword} {o : Overload} {endpoint : String}
variable {s t : EchoServer} {l : Act}

theorem start_answering : (start o endpoint).Answering :=
  ⟨start_tidy,by simp [start],
    LoopProgram.ofServer_messageMode (asyncAccept_messageMode o endpoint),by simp [start]⟩

theorem step_answering : (machine threads output o endpoint).Preserves Answering :=
  PipeServer.step_answering (acceptHandler_careful o endpoint) (acceptHandler_messageMode o endpoint)

/-- Whatever other clients do, a client has back its messages before the first that is
longer than the buffer of a session, in order and as far as its session has come. -/
theorem clients_answered {ls : List Act}
    (h : (machine threads output o endpoint).run (start o endpoint) ls = some t) :
    ∀ x ∈ t.world.instances, x.Answered :=
  (step_answering.run h start_answering).answered

/-- A first message that fits, and a second that does not. -/
theorem clients_answered_then_long : ∃ t, (machine 1 id .intoPipe "").run (start .intoPipe "")
      (oneMessage [104,105] [.pipe 0 (.writes 2),.pipe 0 .runHandler,
        .pipe 0 (.clientWrites (List.replicate 1025 0)),.pipe 0 .readEnds,
        .pipe 0 .runHandler]) = some t ∧
    ∀ x ∈ t.world.instances, x.Answered := by
  obtain ⟨t,ht⟩ := Option.isSome_iff_exists.mp (show ((machine 1 id .intoPipe "").run
    (start .intoPipe "") (oneMessage [104,105] [.pipe 0 (.writes 2),.pipe 0 .runHandler,
      .pipe 0 (.clientWrites (List.replicate 1025 0)),.pipe 0 .readEnds,
      .pipe 0 .runHandler])).isSome by decide +kernel)
  exact ⟨t,ht,clients_answered ht⟩

end EchoServer
end Winext
