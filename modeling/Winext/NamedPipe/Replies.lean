import Winext.NamedPipe.Conversation

/-! What a client has got when it comes to an end: nothing that it did not send, and the whole
of that unless a call of its has failed or the server has closed its instance. -/
namespace Winext
open Lib Details

namespace Talk
open EchoClient
variable {threads : ℕ} {output : Dword → Dword} {o : Overload} {endpoint : String}
variable {faults : ℕ → Option Dword} {s t : Talk} {i : ℕ}
variable {msg left : List UInt8} {sent : List (List UInt8)} {got : List UInt8}

/-- CreateFile and WaitNamedPipe are called by a client that is not connected. -/
def clientAsserts : ClientCall → Talk → Prop
  | .createFile _ _, s | .waitNamedPipe _ _, s => s.mine = none
  | .getLastError, _ | .print _, _ | .setNamedPipeHandleState _ _, _ | .isOpen, _ | .close, _
  | .assign _, _ => True

/-- The messages by which `net::write` has come this far: the first is as long as one call
transfers. -/
structure Writing (msg left : List UInt8) (sent : List (List UInt8)) : Prop where
  all : sent.flatten ++ left = msg
  first : ∀ message ∈ sent.head?, message = msg.take maxTransfer
  nonempty : ∀ message ∈ sent, message ≠ []

/-- WriteFile is called for no more than the message, and ReadFile when all of it has been
written and not all been read. -/
def asserts (msg : List UInt8) : TalkCall → Talk → Prop
  | .connect c, s => clientAsserts c s
  | .readSome size, s => 0 < size ∧ ∃ i sent got, Writing msg [] sent ∧ s.Owns i sent got ∧
      got.length < min msg.length maxLength
  | .writeSome bytes, _ => bytes.length ≤ msg.length
  | .destroy, _ => True

section Connect

/-- The object is closed. This handle, if it is one, is that of the client's instance, and if
it is none, the client is not connected unless a call has failed. -/
structure Handed (faults : ℕ → Option Dword) (hPipe : Handle) (s : Talk) : Prop where
  owner : s.owner = none
  pipe : ∀ i, hPipe = .pipe i → s.At i [] []
  apart : (∀ i, hPipe ≠ .pipe i) → Faultless faults → s.mine = none

lemma handed_stable (hPipe : Handle) :
    (others threads output o endpoint).Preserves (Handed faults hPipe) := by
  intro s l t h hstep
  have hpipe := fun i hi => at_stable i [] [] s l t (h.pipe i hi) hstep
  obtain ⟨-,u,-,rfl⟩ := interfere_cases hstep
  exact ⟨h.owner,hpipe,h.apart⟩

lemma Before.handed_null (h : s.Before) : s.Handed faults .null :=
  ⟨h.owner,fun i hi => (by cases hi),fun _ _ => h.mine⟩

/-- The step by which CreateFile connects the client to an instance without one. -/
lemma Before.connects {u : EchoServer} (h : s.Before)
    (hu : (EchoServer.machine threads output o endpoint).step s.server (.pipe i .clientConnects) =
      some u) :
    Handed faults (.pipe i) { s with
      server := u, mine := some i, messageReadMode := false, inbox := [], calls := s.calls + 1 } := by
  refine ⟨h.owner,fun j hj => ?_,fun hne => absurd rfl (hne i)⟩
  cases hj
  have hanswering := EchoServer.step_answering s.server _ u h.answering hu
  refine ⟨hanswering,rfl,?_,by simp⟩
  cases PipeServer.step_cases hu with
  | @pipe _ _ xs _ hxs =>
    rw [EchoWorld.afterStep_instances]
    obtain ⟨x,y,hx,hy,rfl⟩ := stepAt_eq_some.mp hxs
    have hmem := List.mem_of_getElem? hx
    have hwritten := (h.answering.account x hmem (h.answering.mode x hmem)).begins
    simp only [PipeInstance.step] at hy
    split_ifs at hy with hc
    cases hy
    have hsent := h.fresh x hmem hc.1
    refine ⟨_,List.getElem?_set_self (List.getElem?_eq_some_iff.mp hx).1,rfl,hsent,?_⟩
    rw [PipeInstance.Begins,PipeInstance.answerable,hsent] at hwritten
    exact List.prefix_nil.mp hwritten

/-- CreateFile connects the client, or leaves it as it is. -/
lemma createFile_handed {settings : FileSettings} {name : String} {hPipe : Handle} (h : s.Before)
    (hr : performClient threads output o endpoint faults (.createFile name settings) s =
      some (hPipe,t)) :
    hPipe = .invalidHandleValue ∧ t.Before ∨ ∃ i, hPipe = .pipe i ∧ t.Handed faults hPipe := by
  simp only [performClient] at hr
  split at hr
  · cases hr
    exact Or.inl ⟨rfl,h.congr rfl rfl rfl⟩
  · cases hr
    exact Or.inl ⟨rfl,h.congr rfl rfl rfl⟩
  · obtain ⟨u,hu,hr⟩ := Option.map_eq_some_iff.mp hr
    cases hr
    exact Or.inr ⟨_,rfl,h.connects hu⟩

/-- Calls that are not to the server leave it and the object as they are. -/
lemma performClient_before {c : ClientCall} {a : c.Answer} (h : s.Before)
    (hc : c = .getLastError ∨ (∃ name timeout, c = .waitNamedPipe name timeout) ∨
      ∃ text, c = .print text)
    (hr : (clientEnvironment threads output o endpoint faults).perform c s = some (a,t)) :
    t.Before := by
  obtain rfl | ⟨name,timeout,rfl⟩ | ⟨text,rfl⟩ := hc
  · cases hr
    exact h
  · simp only [clientEnvironment,performClient] at hr
    split at hr
    · cases hr
      exact h.congr rfl rfl rfl
    · cases hr
      exact h.congr rfl rfl rfl
    · cases hr
  · cases hr
    exact h.congr rfl rfl rfl

/-- SetNamedPipeHandleState leaves the handle to its caller, who drops it when the call fails. -/
lemma Handed.setState {hPipe h' : Handle} {messageReadMode fSuccess : Bool}
    (h : s.Handed faults hPipe)
    (hr : (clientEnvironment threads output o endpoint faults).perform
      (.setNamedPipeHandleState h' messageReadMode) s = some (fSuccess,t)) :
    t.Handed faults (if fSuccess then hPipe else .null) := by
  cases hfault : faults s.calls with
  | some error =>
    simp only [clientEnvironment,performClient,hfault] at hr
    cases hr
    refine ⟨h.owner,fun i hi => (by cases hi),fun _ hfaultless => ?_⟩
    rw [hfaultless] at hfault
    cases hfault
  | none =>
    simp only [clientEnvironment,performClient,hfault] at hr
    cases hr
    exact ⟨h.owner,fun i hi => (h.pipe i hi).congr rfl rfl rfl,h.apart⟩

/-- A null handle is refused, and the other one taken over. -/
lemma Handed.assign {hPipe : Handle} {assigned : Except Thrown Unit} (h : s.Handed faults hPipe)
    (hr : (clientEnvironment threads output o endpoint faults).perform (.assign hPipe) s =
      some (assigned,t)) :
    (∃ exception, assigned = .error exception ∧ (Faultless faults → t.mine = none)) ∨
      ∃ i, hPipe = .pipe i ∧ assigned = .ok () ∧ t.Owns i [] [] := by
  simp only [clientEnvironment,performClient,h.owner] at hr
  cases hPipe with
  | pipe i =>
    cases hr
    exact Or.inr ⟨i,rfl,rfl,(h.pipe i rfl).congr rfl rfl rfl,rfl⟩
  | invalidHandleValue | null =>
    cases hr
    exact Or.inl ⟨_,rfl,h.apart (by simp)⟩

/-- A turn of the loop connects the client, or leaves it as it is. -/
theorem connectTurn_outlined (name : String) (timeoutMs : Int32) (lastError : Dword)
    (h : s.Before) : (clientEnvironment threads output o endpoint faults).Outlined clientAsserts
      (fun r t => match r with
        | .inl _ => t.Before
        | .inr (.returned _) => t.Handed faults .null
        | .inr (.broke hPipe _) => t.Handed faults hPipe) (connectTurn name timeoutMs lastError) s := by
  simp only [connectTurn,Program.ask_bind,Program.pure_eq]
  refine Environment.Outlined.ofCall Before before_stable h (fun _ ht => ht.mine)
    fun t hPipe u ht hr => ?_
  obtain ⟨rfl,hu⟩ | ⟨i,rfl,hu⟩ := createFile_handed ht hr
  · rw [if_neg (by simp)]
    refine Environment.Outlined.ofCall Before before_stable hu (fun _ _ => trivial)
      fun t error v ht hr => ?_
    have hv := performClient_before ht (Or.inl rfl) hr
    split_ifs
    · exact Environment.Outlined.ofDone Before before_stable hv fun _ => Before.handed_null
    refine Environment.Outlined.ofCall Before before_stable hv (fun _ ht => ht.mine)
      fun t waited w ht hr => ?_
    have hw := performClient_before ht (Or.inr (Or.inl ⟨_,_,rfl⟩)) hr
    split_ifs
    · refine Environment.Outlined.ofCall Before before_stable hw (fun _ _ => trivial)
        fun t _ w ht hr => ?_
      have hw := performClient_before ht (Or.inr (Or.inr ⟨_,rfl⟩)) hr
      refine Environment.Outlined.ofCall Before before_stable hw (fun _ _ => trivial)
        fun t _ w ht hr => ?_
      have hw := performClient_before ht (Or.inl rfl) hr
      exact Environment.Outlined.ofDone Before before_stable hw fun _ => Before.handed_null
    · exact Environment.Outlined.ofDone Before before_stable hw fun _ => id
  · rw [if_pos (by simp)]
    exact Environment.Outlined.ofDone (Handed faults (.pipe i)) (handed_stable _) hu fun _ => id

/-- What `client_connect` hands on: the error code that it was given, with a handle. -/
structure Fetched (faults : ℕ → Option Dword) (ec : ErrorCode)
    (r : Option (ErrorCode × Handle)) (t : Talk) : Prop where
  handed : ∀ ec' hPipe, r = some (ec',hPipe) → t.Handed faults hPipe
  faultless : Faultless faults → t.mine ≠ none → ∃ hPipe, r = some (ec,hPipe)

lemma fetched_of_mine {ec : ErrorCode} {r : Option (ErrorCode × Handle)}
    (hhanded : ∀ ec' hPipe, r = some (ec',hPipe) → t.Handed faults hPipe)
    (hmine : Faultless faults → t.mine = none) : Fetched faults ec r t :=
  ⟨hhanded,fun hfaultless hne => absurd (hmine hfaultless) hne⟩

theorem clientConnect_outlined (turns : ℕ) (lastError : Dword) (ec : ErrorCode) (name : String)
    (timeoutMs : Int32) (h : s.Before) :
    (clientEnvironment threads output o endpoint faults).Outlined clientAsserts
      (Fetched faults ec) (clientConnect turns lastError ec .null name timeoutMs) s := by
  unfold clientConnect
  refine Environment.Outlined.bind (Environment.Outlined.loop (fun _ _ => Before)
    (fun _ t ht => ?_) (fun _ x t ht => ?_) turns h)
  · refine Environment.Outlined.ofDone Before before_stable ht fun u hu => ?_
    refine Environment.Outlined.ofDone Before before_stable hu fun v hv => ?_
    exact fetched_of_mine (fun _ _ hr => by cases hr) fun _ => hv.mine
  · refine (connectTurn_outlined name timeoutMs x ht).mono fun r u hu => ?_
    match r with
    | .inl _ => exact hu
    | .inr (.returned ec) =>
      refine Environment.Outlined.ofDone _ (handed_stable .null) hu fun v hv => ?_
      refine Environment.Outlined.ofDone _ (handed_stable .null) hv fun w hw => ?_
      refine fetched_of_mine (fun _ _ hr => ?_) (hw.apart (by simp))
      cases hr
      exact hw
    | .inr (.broke hPipe lastError) =>
      refine Environment.Outlined.ofDone _ (handed_stable hPipe) hu fun v hv => ?_
      refine Environment.Outlined.ofCall _ (handed_stable hPipe) hv (fun _ _ => trivial)
        fun w fSuccess z hw hr => ?_
      have hz := hw.setState hr
      cases fSuccess with
      | false =>
        refine Environment.Outlined.ofDone _ (handed_stable .null) hz fun w hw => ?_
        refine fetched_of_mine (fun _ _ hr => ?_) (hw.apart (by simp))
        cases hr
        exact hw
      | true =>
        refine Environment.Outlined.ofDone _ (handed_stable hPipe) hz fun w hw => ?_
        refine ⟨fun _ _ hr => ?_,fun _ _ => ⟨hPipe,rfl⟩⟩
        cases hr
        exact hw

/-- A `connect` that reports success has connected the object to an instance that nobody has
written to; one that has connected it reports success, unless a call has failed. -/
structure Connected (faults : ℕ → Option Dword) (r : Option (ErrorCode × Except Thrown Unit))
    (t : Talk) : Prop where
  success : ∀ ec, r = some (ec,.ok ()) → ec.failed = false → ∃ i, t.Owns i [] []
  faultless : Faultless faults → t.mine ≠ none → r = some ({},.ok ())

theorem connect_outlined (turns : ℕ) (lastError : Dword) (name : String) (timeoutMs : Int32)
    (h : s.Before) : (clientEnvironment threads output o endpoint faults).Outlined clientAsserts
      (Connected faults) (connect turns lastError name {} timeoutMs) s := by
  simp only [connect,Program.ask_bind]
  refine Environment.Outlined.ofCall Before before_stable h (fun _ _ => trivial)
    fun t opened u ht hr => ?_
  cases hr
  have hclosed : t.owner.isSome = false := by rw [ht.owner]; rfl
  simp only [hclosed]
  refine Environment.Outlined.bind
    ((clientConnect_outlined turns lastError {} name timeoutMs ht).mono fun r u hu => ?_)
  have hapart : ∀ {a}, (Faultless faults → u.mine = none) → (∀ ec, a = some (ec,.ok ()) →
      ec.failed = true) → (clientEnvironment threads output o endpoint faults).Outlined
        clientAsserts (Connected faults) (.done a) u := by
    intro a hmine hfailed
    refine Environment.Outlined.ofDone _ (mine_stable u.mine) rfl fun v hv => ⟨?_,?_⟩
    · intro ec hr hok
      rw [hfailed ec hr] at hok
      cases hok
    · exact fun hfaultless hne => absurd (hv.trans (hmine hfaultless)) hne
  match r with
  | none =>
    refine hapart (fun hfaultless => ?_) fun _ hr => by cases hr
    by_contra hne
    obtain ⟨hPipe,hr⟩ := hu.faultless hfaultless hne
    cases hr
  | some (ec,hPipe) =>
    have hhanded := hu.handed ec hPipe rfl
    cases hec : ec.failed with
    | true =>
      simp only [hec]
      refine hapart (fun hfaultless => ?_) fun ec' hr => by cases hr; exact hec
      by_contra hne
      obtain ⟨hPipe',hr⟩ := hu.faultless hfaultless hne
      cases hr
      cases hec
    | false =>
      simp only [hec]
      refine Environment.Outlined.ofCall _ (handed_stable hPipe) hhanded (fun _ _ => trivial)
        fun v assigned w hv hr => ?_
      obtain ⟨exception,rfl,hmine⟩ | ⟨i,rfl,rfl,howns⟩ := hv.assign hr
      · refine Environment.Outlined.ofDone _ (mine_stable w.mine) rfl fun z hz => ⟨?_,?_⟩
        · exact fun ec hr => by cases hr
        · exact fun hfaultless hne => absurd (hz.trans (hmine hfaultless)) hne
      · refine Environment.Outlined.ofDone _ (owns_stable i [] []) howns fun z hz => ⟨?_,?_⟩
        · exact fun _ _ _ => ⟨i,hz⟩
        · intro hfaultless _
          obtain ⟨hPipe',hr⟩ := hu.faultless hfaultless
            (by rw [(hhanded.pipe i rfl).mine]; exact Option.some_ne_none i)
          cases hr
          rfl

end Connect

section Write

/-- A step in which the client writes. -/
lemma At.clientWrites {bytes : List UInt8} {u : EchoServer} (h : s.At i sent got)
    (hu : (EchoServer.machine threads output o endpoint).step s.server
      (.pipe i (.clientWrites bytes)) = some u) :
    At { s with server := u, calls := s.calls + 1 } i (sent ++ [bytes]) got := by
  refine ⟨EchoServer.step_answering s.server _ u h.answering hu,h.mine,?_,h.nonempty⟩
  obtain ⟨x,hx,hclient,hsent,hwritten⟩ := h.here
  cases PipeServer.step_cases hu with
  | @pipe _ _ xs _ hxs =>
    rw [EchoWorld.afterStep_instances]
    obtain ⟨y,hy,hys⟩ := getElem?_stepAt_self hx hxs
    simp only [PipeInstance.step] at hy
    split_ifs at hy
    cases hy
    exact ⟨_,hys,hclient,congrArg (· ++ [bytes]) hsent,hwritten⟩

lemma Writing.length_le (h : Writing msg left sent) :
    (∀ m ∈ sent, m.length ≤ msg.length) ∧ left.length ≤ msg.length := by
  have hlength := congrArg List.length h.all
  rw [List.length_append] at hlength
  refine ⟨fun m hm => ?_,by omega⟩
  have hle := (List.sublist_flatten_of_mem hm).length_le
  omega

/-- A client that is there can write as long as the server has not closed its end. -/
lemma At.shut_of_refused {bytes : List UInt8} (h : s.At i sent got)
    (hwriting : Writing msg left sent) (hbytes : bytes ≠ [])
    (hu : (EchoServer.machine threads output o endpoint).step s.server
      (.pipe i (.clientWrites bytes)) = none) : s.Shut msg.length := by
  obtain ⟨x,hx,hclient,rfl,-⟩ := h.here
  refine ⟨i,x,h.mine,hx,?_,hwriting.length_le.1⟩
  by_contra hopen
  have hstep : PipeInstance.step (.clientWrites bytes) x = some { x with
      sent := x.sent ++ [bytes], unread := x.unread ++ [bytes] } := by
    simp [PipeInstance.step,hclient,hopen,hbytes]
  have hxs : stepAt s.server.world.instances i (PipeInstance.step (.clientWrites bytes)) =
      some (s.server.world.instances.set i _) := stepAt_eq_some.mpr ⟨x,_,hx,hstep,rfl⟩
  simp [PipeServer.machine,PipeServer.step,hxs] at hu

/-- WriteFile adds a message to those of the client. Otherwise it writes nothing, and if no
call fails that is because the instance is closed. -/
lemma Owns.writeSome {bytes : List UInt8} {wrote : ErrorCode × ℕ} (h : s.Owns i sent got)
    (hwriting : Writing msg left sent) (hbytes : bytes ≠ [])
    (hr : (environment threads output o endpoint faults).perform (.writeSome bytes) s =
      some (wrote,t)) :
    t.Owns i sent got ∧ wrote.2 = 0 ∧
        (Faultless faults → wrote.1.failed = true ∧ t.Shut msg.length) ∨
      t.Owns i (sent ++ [bytes]) got ∧ wrote = ({},bytes.length) := by
  obtain ⟨hat,howner⟩ := h
  cases hfault : faults s.calls with
  | some error =>
    simp only [environment,perform,hfault] at hr
    cases hr
    refine Or.inl ⟨⟨hat.congr rfl rfl rfl,howner⟩,rfl,fun hfaultless => ?_⟩
    rw [hfaultless] at hfault
    cases hfault
  | none =>
    simp only [environment,perform,hfault,howner] at hr
    split at hr
    · rename_i u hu
      cases hr
      exact Or.inr ⟨⟨(hat.clientWrites hu).congr rfl rfl rfl,rfl⟩,rfl⟩
    · rename_i hu
      cases hr
      refine Or.inl ⟨⟨hat.congr rfl rfl rfl,howner⟩,rfl,fun _ => ⟨by decide,?_⟩⟩
      exact hat.shut_of_refused hwriting hbytes hu

lemma take_maxTransfer_ne_nil (h : left ≠ []) : left.take maxTransfer ≠ [] := by
  have hpos := List.length_pos_iff.mpr h
  refine List.ne_nil_of_length_pos ?_
  rw [List.length_take,maxTransfer]
  omega

lemma Writing.next (h : Writing msg left sent) (hleft : left ≠ []) :
    Writing msg (left.drop (left.take maxTransfer).length) (sent ++ [left.take maxTransfer]) where
  all := by
    rw [← h.all,List.flatten_append,List.flatten_singleton,List.append_assoc]
    exact congrArg (sent.flatten ++ ·)
      (List.prefix_iff_eq_append.mp (List.take_prefix maxTransfer left))
  first := by
    cases sent with
    | nil =>
      have hall := h.all
      intro message hm
      cases hm
      rw [← hall]
      rfl
    | cons message sent => exact h.first
  nonempty message hm := by
    obtain hm | hm := List.mem_append.mp hm
    · exact h.nonempty message hm
    · rw [List.mem_singleton.mp hm]
      exact take_maxTransfer_ne_nil hleft

lemma faultless_shut_stable :
    (others threads output o endpoint).Preserves fun s =>
      Faultless faults → s.Shut msg.length :=
  fun s l t h hstep hfaultless => shut_stable msg.length s l t (h hfaultless) hstep

/-- A `net::write` that succeeds has written the whole message. It does so in time, unless a
call fails or the server has closed the instance. -/
structure Wrote (faults : ℕ → Option Dword) (msg : List UInt8) (turns i : ℕ)
    (r : Option ErrorCode) (t : Talk) : Prop where
  success : ∀ ec, r = some ec → ec.failed = false → ∃ sent, Writing msg [] sent ∧ t.Owns i sent []
  faultless : Faultless faults → msg.length < turns →
    t.Shut msg.length ∨ ∃ ec, r = some ec ∧ ec.failed = false

theorem write_outlined (turns : ℕ) (h : s.Owns i [] []) :
    (environment threads output o endpoint faults).Outlined (asserts msg)
      (Wrote faults msg turns i) (Program.loop writeTurn turns msg) s := by
  refine Environment.Outlined.loop
    (fun n left t => (∃ sent, Writing msg left sent ∧ t.Owns i sent []) ∧
      (Faultless faults → msg.length < turns → left.length < n))
    (fun _ t ht => ?_) (fun n left t ht => ?_) turns ⟨⟨[],⟨rfl,by simp,by simp⟩,h⟩,fun _ => id⟩
  · refine Environment.Outlined.ofDone _ trivial_stable trivial fun _ _ => ⟨?_,?_⟩
    · exact fun ec hr => by cases hr
    · exact fun hfaultless hturns => absurd (ht.2 hfaultless hturns) (Nat.not_lt_zero _)
  · obtain ⟨⟨sent,hwriting,ht⟩,hless⟩ := ht
    unfold writeTurn
    split_ifs with hleft
    · subst hleft
      refine Environment.Outlined.ofDone _ (owns_stable i sent []) ht fun u hu => ?_
      refine Environment.Outlined.ofDone _ (owns_stable i sent []) hu fun v hv => ⟨?_,?_⟩
      · exact fun _ _ _ => ⟨sent,hwriting,hv⟩
      · exact fun _ _ => Or.inr ⟨{},rfl,rfl⟩
    · refine Environment.Outlined.ofCall _ (owns_stable i sent []) ht
        (fun _ _ => (List.length_take_le' maxTransfer left).trans hwriting.length_le.2)
        fun u wrote v hu hr => ?_
      have hbytes := take_maxTransfer_ne_nil hleft
      obtain ⟨hv,hzero,hshut⟩ | ⟨hv,rfl⟩ := hu.writeSome hwriting hbytes hr
      · obtain ⟨ec,count⟩ := wrote
        cases hzero
        cases hec : ec.failed with
        | true =>
          simp only [Program.bind,hec]
          refine Environment.Outlined.ofDone _ faultless_shut_stable (fun hf => (hshut hf).2)
            fun w hw => ?_
          refine Environment.Outlined.ofDone _ faultless_shut_stable hw fun z hz => ⟨?_,?_⟩
          · intro ec' hr hok
            cases hr
            rw [hec] at hok
            cases hok
          · exact fun hfaultless _ => Or.inl (hz hfaultless)
        | false =>
          simp only [Program.bind,hec]
          refine Environment.Outlined.ofDone _ (owns_stable i sent []) hv fun w hw => ?_
          refine ⟨⟨sent,by simpa using hwriting,hw⟩,fun hfaultless => ?_⟩
          rw [hec] at hshut
          cases (hshut hfaultless).1
      · refine Environment.Outlined.ofDone _ (owns_stable i _ []) hv fun w hw => ?_
        refine ⟨⟨_,hwriting.next hleft,hw⟩,fun hfaultless hturns => ?_⟩
        have hlength := hless hfaultless hturns
        have hbytes := List.length_pos_iff.mpr hbytes
        have hleft := List.length_pos_iff.mpr hleft
        rw [List.length_drop]
        omega

end Write

section Read

/-- ReadFile takes from the front of what waits. Unless a call fails, it takes something, if
it has room for all that waits or the instance is open. -/
lemma Owns.readSome {size : ℕ} {out : ErrorCode × List UInt8} (h : s.Owns i sent got)
    (hwriting : Writing msg [] sent) (hsize : 0 < size)
    (hr : (environment threads output o endpoint faults).perform (.readSome size) s =
      some (out,t)) : t.Owns i sent (got ++ out.2) ∧ out.2.length ≤ size ∧
      (Faultless faults → s.inbox.flatten.length ≤ size →
        out.1.failed = true ∧ t.Shut msg.length ∨ out.1.failed = false ∧ out.2 ≠ []) := by
  obtain ⟨hat,howner⟩ := h
  have hnothing : ∀ u : Talk, u.server = s.server → u.mine = s.mine → u.inbox = s.inbox →
      u.owner = s.owner → u.Owns i sent (got ++ []) := by
    intro u hserver hmine hinbox howner'
    rw [List.append_nil]
    exact ⟨hat.congr hserver hmine hinbox,howner'.trans howner⟩
  cases hfault : faults s.calls with
  | some error =>
    simp only [environment,perform,hfault] at hr
    cases hr
    refine ⟨hnothing _ rfl rfl rfl rfl,Nat.zero_le _,fun hfaultless => ?_⟩
    rw [hfaultless] at hfault
    cases hfault
  | none =>
    simp only [environment,perform,hfault,howner] at hr
    split at hr
    · rename_i bytes more rest hread
      cases hr
      obtain ⟨hne,hrest⟩ := readQueue_nonempty hsize hat.nonempty hread
      refine ⟨⟨⟨hat.answering,hat.mine,?_,hrest⟩,rfl⟩,readQueue_length_le hread,
        fun _ hroom => Or.inr ⟨?_,hne⟩⟩
      · obtain ⟨x,hx,hclient,hsent,hwritten⟩ := hat.here
        refine ⟨x,hx,hclient,hsent,?_⟩
        rw [hwritten,List.append_assoc,readQueue_flatten hread]
      · cases more with
        | false => rfl
        | true =>
          obtain ⟨-,-,message,hm,hlt⟩ := readQueue_more hread
          have hle := (List.sublist_flatten_of_mem (List.mem_of_mem_head? hm)).length_le
          omega
    · split_ifs at hr with hclosed
      cases hr
      refine ⟨hnothing _ rfl rfl rfl rfl,Nat.zero_le _,fun _ _ => Or.inl ⟨by decide,?_⟩⟩
      obtain ⟨y,hy,hyclosed⟩ := Option.map_eq_some_iff.mp hclosed
      obtain ⟨x,hx,-,rfl,-⟩ := hat.here
      cases hy.symm.trans hx
      exact ⟨i,y,hat.mine,hy,hyclosed,hwriting.length_le.1⟩

/-- What waits is the next of what has been written, which the client has sent. -/
lemma At.waiting_le (h : s.At i sent got) (hwriting : Writing msg [] sent) :
    got.length + s.inbox.flatten.length ≤ msg.length := by
  obtain ⟨x,hx,-,hsent,hwritten⟩ := h.here
  have hx := List.mem_of_getElem? hx
  have hbegins : x.Begins := (h.answering.account x hx (h.answering.mode x hx)).begins
  have hall := hwriting.all
  have hle := (hbegins.trans (List.takeWhile_prefix fits).flatten).length_le
  rw [hwritten,hsent] at hle
  rw [List.append_nil] at hall
  rw [← hall,← List.length_append]
  exact hle

/-- A `net::read` that succeeds has read as much as it was asked for. If that is the whole
message it does so in time, unless a call fails or the server has closed the instance. -/
structure Took (faults : ℕ → Option Dword) (msg : List UInt8) (turns i : ℕ)
    (sent : List (List UInt8)) (r : Option (ErrorCode × List UInt8)) (t : Talk) : Prop where
  success : ∀ ec reply, r = some (ec,reply) → ec.failed = false →
    reply.length = min msg.length maxLength ∧ t.At i sent reply
  faultless : Faultless faults → msg.length < turns → msg.length ≤ maxLength →
    t.Shut msg.length ∨ ∃ reply, r = some ({},reply)

theorem read_outlined (turns : ℕ) (hwriting : Writing msg [] sent) (h : s.Owns i sent []) :
    (environment threads output o endpoint faults).Outlined (asserts msg)
      (Took faults msg turns i sent)
      (Program.loop readTurn turns ([],min msg.length maxLength)) s := by
  refine Environment.Outlined.loop
    (fun n progress t => progress.1.length + progress.2 = min msg.length maxLength ∧
      t.Owns i sent progress.1 ∧
      (Faultless faults → msg.length < turns → msg.length ≤ maxLength → progress.2 < n))
    (fun _ t ht => ?_) (fun n progress t ht => ?_) turns
    ⟨Nat.zero_add _,h,fun _ hturns _ => (Nat.min_le_left _ _).trans_lt hturns⟩
  · refine Environment.Outlined.ofDone _ trivial_stable trivial fun _ _ => ⟨?_,?_⟩
    · exact fun _ _ hr => by cases hr
    · exact fun hfaultless hturns hfits =>
        absurd (ht.2.2 hfaultless hturns hfits) (Nat.not_lt_zero _)
  · obtain ⟨hlength,ht,hless⟩ := ht
    unfold readTurn
    split_ifs with hleft
    · rw [hleft,Nat.add_zero] at hlength
      refine Environment.Outlined.ofDone _ (owns_stable i sent progress.1) ht fun u hu => ?_
      refine Environment.Outlined.ofDone _ (owns_stable i sent progress.1) hu fun v hv => ⟨?_,?_⟩
      · intro ec reply hr _
        cases hr
        exact ⟨hlength,hv.1⟩
      · exact fun _ _ _ => Or.inr ⟨_,rfl⟩
    · have hsize : 0 < min progress.2 maxTransfer := by
        rw [maxTransfer]
        omega
      refine Environment.Outlined.ofCall _ (owns_stable i sent progress.1) ht
        (fun u hu => ⟨hsize,i,sent,progress.1,hwriting,hu,by omega⟩) fun u out v hu hr => ?_
      obtain ⟨ec,bytes⟩ := out
      obtain ⟨hv,hle,htake⟩ := hu.readSome hwriting hsize hr
      have htaken : Faultless faults → msg.length ≤ maxLength →
          ec.failed = true ∧ v.Shut msg.length ∨ ec.failed = false ∧ bytes ≠ [] := by
        intro hfaultless hfits
        refine htake hfaultless ?_
        have hwaiting := hu.1.waiting_le hwriting
        simp only [maxLength,maxTransfer] at hfits hlength ⊢
        omega
      cases hec : ec.failed with
      | true =>
        simp only [Program.bind,hec]
        have hshut : msg.length ≤ maxLength → Faultless faults → v.Shut msg.length :=
          fun hfits hf =>
            (htaken hf hfits).elim And.right fun hok => by rw [hec] at hok; cases hok.1
        have hstable : (others threads output o endpoint).Preserves
            fun s => msg.length ≤ maxLength → Faultless faults → s.Shut msg.length :=
          fun s l t h hstep hfits => faultless_shut_stable s l t (h hfits) hstep
        refine Environment.Outlined.ofDone _ hstable hshut fun w hw => ?_
        refine Environment.Outlined.ofDone _ hstable hw fun z hz => ⟨?_,?_⟩
        · intro ec' reply hr hok
          cases hr
          rw [hec] at hok
          cases hok
        · exact fun hfaultless _ hfits => Or.inl (hz hfits hfaultless)
      | false =>
        simp only [Program.bind,hec]
        refine Environment.Outlined.ofDone _ (owns_stable i sent _) hv fun w hw => ⟨?_,hw,?_⟩
        · have hmin : bytes.length ≤ progress.2 := hle.trans (Nat.min_le_left _ _)
          simp only [List.length_append]
          omega
        · intro hfaultless hturns hfits
          have hlast := hless hfaultless hturns hfits
          obtain ⟨hfailed,-⟩ | ⟨-,hne⟩ := htaken hfaultless hfits
          · rw [hec] at hfailed
            cases hfailed
          · have hpos := List.length_pos_iff.mpr hne
            omega

end Read

/-- Bytes read in answer to a whole message are the message, which fits a session's buffer. -/
lemma At.reply (h : s.At i sent got) (hwriting : Writing msg [] sent)
    (hlength : got.length = min msg.length maxLength) : got = msg ∧ msg.length ≤ maxLength := by
  obtain ⟨x,hx,-,hsent,hwritten⟩ := h.here
  have hx := List.mem_of_getElem? hx
  have hbegins : x.Begins := (h.answering.account x hx (h.answering.mode x hx)).begins
  have hgot : got <+: x.answerable.flatten := by
    refine List.IsPrefix.trans ?_ hbegins
    rw [hwritten]
    exact List.prefix_append got _
  have hall : sent.flatten = msg := by simpa using hwriting.all
  have hanswerable : x.answerable.flatten <+: msg := by
    rw [← hall,← hsent]
    exact (List.takeWhile_prefix fits).flatten
  by_cases hshort : msg.length ≤ maxLength
  · rw [Nat.min_eq_left hshort] at hlength
    exact ⟨(hgot.trans hanswerable).eq_of_length hlength,hshort⟩
  · -- the first message is too long for the server, which answers none
    exfalso
    have hnone : x.answerable = [] := by
      unfold PipeInstance.answerable
      rw [hsent]
      cases hsent' : sent with
      | nil => rfl
      | cons message rest =>
        have hfirst := hwriting.first message (by simp [hsent'])
        refine List.takeWhile_cons_of_neg ?_
        rw [fits_iff,hfirst,List.length_take]
        simp only [maxLength,maxTransfer,Winext.maxLength] at hshort ⊢
        omega
    rw [hnone] at hgot
    rw [List.prefix_nil.mp hgot,List.length_nil] at hlength
    simp only [maxLength] at hlength hshort
    omega

lemma ofClient_outlined {α : Type} {Q : α → Talk → Prop} {p : ClientProgram α}
    (h : (clientEnvironment threads output o endpoint faults).Outlined clientAsserts Q p s) :
    (environment threads output o endpoint faults).Outlined (asserts msg) Q
      (TalkProgram.ofClient p) s :=
  Environment.Outlined.mapCalls (f := TalkCall.connect) (g := fun _ => id) rfl
    (fun _ _ _ hr => hr) (fun _ _ hc => hc) h

/-- The client's instance stays the same, and stays shut. -/
lemma shut_or_stable (bound : ℕ) (C good : Prop) :
    (others threads output o endpoint).Preserves fun s =>
      C → s.mine ≠ none → s.Shut bound ∨ good := by
  intro s l t h hstep hC hne
  have hmine := mine_stable s.mine s l t rfl hstep
  rw [hmine] at hne
  exact (h hC hne).imp_left fun hs => shut_stable bound s l t hs hstep

/-- The calls succeed, the loops of `net::write` and `net::read` are not cut, and the message
fits the buffers. -/
structure Unhindered (faults : ℕ → Option Dword) (msg : List UInt8) (turns : ℕ) : Prop where
  faultless : Faultless faults
  turns : msg.length < turns
  fits : msg.length ≤ maxLength

/-- The bytes that come back are those of the message; and they come back, unless the client is
hindered or the server has closed the instance. -/
structure Conversed (faults : ℕ → Option Dword) (msg : List UInt8) (turns : ℕ)
    (r : Option (ErrorCode × List UInt8 ⊕ Thrown)) (t : Talk) : Prop where
  success : ∀ ec reply, r = some (.inl (ec,reply)) → ec.failed = false →
    reply = msg ∧ msg.length ≤ maxLength
  unhindered : Unhindered faults msg turns → t.mine ≠ none →
    t.Shut msg.length ∨ r = some (.inl ({},msg))

lemma conversed_done {turns : ℕ} {r : Option (ErrorCode × List UInt8 ⊕ Thrown)}
    (hsuccess : ∀ ec reply, r = some (.inl (ec,reply)) → ec.failed = false →
      reply = msg ∧ msg.length ≤ maxLength)
    (h : Unhindered faults msg turns → s.mine ≠ none →
      s.Shut msg.length ∨ r = some (.inl ({},msg))) :
    (environment threads output o endpoint faults).Outlined (asserts msg)
      (Conversed faults msg turns) (.done r) s :=
  Environment.Outlined.ofDone _ (shut_or_stable _ _ _) h fun _ ht => ⟨hsuccess,ht⟩

/-- The exchange of an object that is connected. -/
lemma exchange_outlined {ec : ErrorCode} {turns : ℕ} (hec : ec.failed = false)
    (howns : s.Owns i [] []) : (environment threads output o endpoint faults).Outlined
      (asserts msg) (Conversed faults msg turns) (do
        if ec.failed then
          return some (.inl (ec,[]))
        let written ← Program.loop writeTurn turns msg
        match written with
        | none => return none
        | some ec =>
          if ec.failed then
            return some (.inl (ec,[]))
          let read ← Program.loop readTurn turns ([],min msg.length maxLength)
          match read with
          | none => return none
          | some out => return some (.inl out)) s := by
  simp only [hec]
  refine Environment.Outlined.bind ((write_outlined turns howns).mono fun written u hu => ?_)
  match written with
  | none =>
    refine conversed_done (fun _ _ hr => by cases hr) fun hun _ => ?_
    obtain hshut | ⟨ec,hr,-⟩ := hu.faultless hun.faultless hun.turns
    · exact Or.inl hshut
    · cases hr
  | some ec =>
    cases hec : ec.failed with
    | true =>
      simp only [hec]
      refine conversed_done (fun ec' _ hr hok => ?_) fun hun _ => ?_
      · cases hr
        rw [hec] at hok
        cases hok
      · obtain hshut | ⟨ec',hr,hok⟩ := hu.faultless hun.faultless hun.turns
        · exact Or.inl hshut
        · cases hr
          rw [hec] at hok
          cases hok
    | false =>
      simp only [hec]
      obtain ⟨sent,hwriting,hsent⟩ := hu.success ec rfl hec
      refine Environment.Outlined.bind
        ((read_outlined turns hwriting hsent).mono fun read v hv => ?_)
      match read with
      | none =>
        refine conversed_done (fun _ _ hr => by cases hr) fun hun _ => ?_
        obtain hshut | ⟨reply,hr⟩ := hv.faultless hun.faultless hun.turns hun.fits
        · exact Or.inl hshut
        · cases hr
      | some (ec,reply) =>
        refine conversed_done (fun ec' reply' hr hok => ?_) fun hun _ => ?_
        · cases hr
          obtain ⟨hlength,hat⟩ := hv.success ec reply rfl hok
          exact hat.reply hwriting hlength
        · obtain hshut | ⟨reply',hr⟩ := hv.faultless hun.faultless hun.turns hun.fits
          · exact Or.inl hshut
          · cases hr
            obtain ⟨hlength,hat⟩ := hv.success {} reply rfl rfl
            rw [(hat.reply hwriting hlength).1]
            exact Or.inr rfl

theorem converse_outlined (turns : ℕ) (lastError : Dword) (timeoutMs : Int32) (h : s.Before) :
    (environment threads output o endpoint faults).Outlined (asserts msg)
      (Conversed faults msg turns) (converse turns lastError timeoutMs msg) s := by
  unfold converse
  refine Environment.Outlined.bind (ofClient_outlined
    ((connect_outlined turns lastError pipeName timeoutMs h).mono fun r u hu => ?_))
  match r with
  | none =>
    refine conversed_done (fun _ _ hr => by cases hr) fun hun hne => ?_
    cases hu.faultless hun.faultless hne
  | some (ec,.error exception) =>
    refine conversed_done (fun _ _ hr => by cases hr) fun hun hne => ?_
    cases hu.faultless hun.faultless hne
  | some (ec,.ok ()) =>
    cases hec : ec.failed with
    | true =>
      simp only [hec]
      refine conversed_done (fun ec' _ hr hok => ?_) fun hun hne => ?_
      · cases hr
        rw [hec] at hok
        cases hok
      · cases hu.faultless hun.faultless hne
        cases hec
    | false =>
      obtain ⟨i,howns⟩ := hu.success ec rfl hec
      exact exchange_outlined hec howns

/-- What a client has to show for a reply is its message; and it has that, unless it was
hindered or the server has closed its instance. -/
structure Replied (faults : ℕ → Option Dword) (msg : List UInt8) (turns : ℕ)
    (r : Option Outcome) (t : Talk) : Prop where
  success : ∀ outcome, r = some outcome → outcome ≠ .indeterminate ∧
    ∀ reply, outcome = .replied reply → reply = msg ∧ msg.length ≤ maxLength
  unhindered : Unhindered faults msg turns → t.mine ≠ none →
    t.Shut msg.length ∨ r = some (.replied msg)

/-- The end of the object leaves what is closed as it is. -/
lemma letGo_shut {bound : ℕ} (h : s.Shut bound) :
    (s.letGo threads output o endpoint).Shut bound := by
  obtain ⟨i,x,hmine,hx,hclosed,hsent⟩ := h
  unfold letGo
  split
  · rename_i j _
    cases hstep : (EchoServer.machine threads output o endpoint).step s.server
      (.pipe j .clientDisconnects) with
    | none => exact ⟨i,x,hmine,hx,hclosed,hsent⟩
    | some u =>
      obtain ⟨y,hy,hclosed,hsame⟩ := closed_server hx hclosed hstep
      exact ⟨i,y,hmine,hy,hclosed,hsame ▸ hsent⟩
  · exact ⟨i,x,hmine,hx,hclosed,hsent⟩

lemma letGo_mine : (s.letGo threads output o endpoint).mine = s.mine := by
  unfold letGo
  split <;> rfl

lemma thenDestroy_outlined {take : List UInt8 → Outcome} {turns : ℕ}
    {p : TalkProgram (Option (ErrorCode × List UInt8 ⊕ Thrown))} (htake : take msg = .replied msg)
    (h : (environment threads output o endpoint faults).Outlined (asserts msg)
      (Conversed faults msg turns) p s) :
    (environment threads output o endpoint faults).Outlined (asserts msg)
      (Replied faults msg turns) (thenDestroy take p) s := by
  unfold thenDestroy
  refine Environment.Outlined.bind (h.mono fun r u hu => ?_)
  refine Environment.Outlined.ofCall _ (shut_or_stable _ _ _) hu.unhindered (fun _ _ => trivial)
    fun v a w hv hr => ?_
  cases hr
  refine Environment.Outlined.ofDone _ (shut_or_stable msg.length (Unhindered faults msg turns)
    (r = some (.inl ({},msg)))) (fun hun hne => ?_) fun z hz => ⟨?_,fun hun hne => ?_⟩
  · rw [letGo_mine] at hne
    exact (hv hun hne).imp_left letGo_shut
  · intro outcome hr
    obtain ⟨ended,rfl,rfl⟩ := Option.map_eq_some_iff.mp hr
    match ended with
    | .inr exception => exact ⟨by simp,by simp⟩
    | .inl (ec,reply) =>
      cases hec : ec.failed with
      | true => exact ⟨by simp [hec],by simp [hec]⟩
      | false =>
        obtain ⟨rfl,hle⟩ := hu.success ec reply rfl hec
        simp only [hec,Bool.false_eq_true,if_false,htake]
        refine ⟨by simp,fun reply' he => ?_⟩
        cases he
        exact ⟨rfl,hle⟩
  · refine (hz hun hne).imp_right fun hr => ?_
    subst hr
    exact congrArg some htake

theorem program_outlined (c : Client) (turns : ℕ) (lastError : Dword) (h : s.Before) :
    (environment threads output o endpoint faults).Outlined (asserts c.message)
      (Replied faults c.message turns) (c.program turns lastError) s := by
  cases c with
  | test msg =>
    exact thenDestroy_outlined (by simp [stringOf,Client.message])
      (converse_outlined turns lastError 2000 h)
  | console line =>
    exact thenDestroy_outlined rfl (converse_outlined turns lastError 20000 h)

lemma before_of_run {ls : List PipeServer.Act} {u : EchoServer}
    (h : (EchoServer.machine threads output o endpoint).run (.start o endpoint) ls = some u)
    (lastError : Dword) : Before { server := u, lastError := lastError } := by
  have hkept : (EchoServer.machine threads output o endpoint).Preserves fun v =>
      Before { server := v, lastError := lastError } := fun _ _ _ hv hu => hv.server hu
  exact hkept.run h ⟨EchoServer.start_answering,by simp [EchoServer.start],rfl,rfl⟩

/-- However the calls of a client are interleaved with those of the server, with other clients
and with failures, the reply that it comes to is the message that it was to send, and no byte
of it is indeterminate. A message that does not fit the buffer of a session gets none. -/
theorem reply_eq_message (c : Client) {turns : ℕ} {lastError : Dword}
    {before : List PipeServer.Act} {u : EchoServer}
    (hserver : (EchoServer.machine threads output o endpoint).run (.start o endpoint) before =
      some u)
    {ls : List (Option PipeServer.Act)} {outcome : Outcome}
    (hrun : ((environment threads output o endpoint faults).beside _).run
      (c.program turns lastError,{ server := u, lastError := lastError }) ls =
      some (.done (some outcome),t)) :
    outcome ≠ .indeterminate ∧ ∀ reply, outcome = .replied reply →
      reply = c.message ∧ c.message.length ≤ maxLength :=
  have houtline := program_outlined c turns lastError (before_of_run hserver lastError)
  (houtline.guaranteed.sound hrun).success outcome rfl

/-- The server is ready, and answers while the client waits in its read. -/
def oneReply : List (Option PipeServer.Act) :=
  List.replicate 5 none ++ [some .deliver] ++ List.replicate 9 (some .accept) ++
    [some (.pipe 0 .readEnds),some (.pipe 0 .runHandler),some (.pipe 0 (.writes 2)),none,none]

theorem reply_eq_message_two_bytes : ∃ u t,
    (EchoServer.machine 1 id .intoPipe "").run (.start .intoPipe "")
      (List.replicate 6 .accept) = some u ∧
    ((environment 1 id .intoPipe "" fun _ => none).beside _).run
      ((Client.test [104,105]).program 3 0,{ server := u, lastError := 0 }) oneReply =
      some (.done (some (.replied [104,105])),t) ∧
    [104,105] = (Client.test [104,105]).message := by
  have hruns : (((EchoServer.machine 1 id .intoPipe "").run (.start .intoPipe "")
      (List.replicate 6 .accept)).bind fun u =>
        (((environment 1 id .intoPipe "" fun _ => none).beside _).run
          ((Client.test [104,105]).program 3 0,{ server := u, lastError := 0 })
          oneReply).bind fun r => r.1.result?) = some (some (.replied [104,105])) := by
    decide +kernel
  obtain ⟨u,hu,hruns⟩ := Option.bind_eq_some_iff.mp hruns
  obtain ⟨⟨p,t⟩,hrun,hp⟩ := Option.bind_eq_some_iff.mp hruns
  cases Program.result?_eq_some.mp hp
  exact ⟨u,t,hu,hrun,((reply_eq_message _ hu hrun).2 _ rfl).1⟩

end Talk
end Winext
