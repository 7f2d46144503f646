import Winext.Http.Requests

/-! How long a server goes on. Exactly one of its connections has not received a request yet,
and once the receive of that one has ended with an error there is only a bounded number of
steps left, for the requests that have been received before. -/
namespace Winext.Http
open Lib

def HttpConnection.busy (x : HttpConnection) : Bool := x.ops.any fun op => op.ov.outstanding

def HttpServer.busy (s : HttpServer) : ℕ := s.conns.countP HttpConnection.busy

namespace Life

/-- The receive of the connection has not ended yet, or it has ended well and its handler
has still to run. -/
def CanReceive (life : Life) : Prop :=
  life.stage = .listening ∧ life.ended = false ∧ ∀ y ∈ life.reply, (y.packet true).ec.failed = false

def firstStage (life : Life) : Bool := life.stage.callback == .receiveRequest

/-- The steps that are left to a connection that receives no request any more. -/
def left (life : Life) : ℕ :=
  if life.ended then 0 else
    match life.stage,life.reply with
    | .listening,_ => 1
    | .reading _,none => 4
    | .reading _,some _ => 3
    | .sending _ _ _,none => 2
    | .sending _ _ _,some _ => 1

lemma left_le (life : Life) : life.left ≤ if life.ended then 0 else 4 := by
  obtain ⟨stage,reply,ended⟩ := life
  cases ended <;> cases stage <;> cases reply <;> simp [left]

lemma sum_left_le (lives : List Life) :
    (lives.map left).sum ≤ 4 * lives.countP fun life => !life.ended := by
  induction lives with
  | nil => exact Nat.le_refl 0
  | cons life lives ih =>
    have hle := life.left_le
    rw [List.map_cons,List.sum_cons,List.countP_cons]
    cases hended : life.ended <;> simp [hended] at hle ⊢ <;> omega

/-- Such a connection only comes nearer to its end. -/
theorem Next.left_lt {life life' : Life} {born : Bool} (h : life.Next life' born)
    (hlife : ¬life.CanReceive) : born = false ∧ life'.left < life.left ∧ ¬life'.CanReceive := by
  cases h with
  | @answer stage y =>
    cases stage with
    | listening => exact absurd ⟨rfl,rfl,by simp⟩ hlife
    | reading | sending => simp [left,CanReceive]
  | @fail stage y hy => cases stage <;> simp [left,CanReceive]
  | @read y reply hy => exact absurd ⟨rfl,rfl,by simpa using hy⟩ hlife
  | @send y z response reply hz => cases reply <;> simp [left,CanReceive]

lemma Next.not_ended {life life' : Life} {born : Bool} (h : life.Next life' born) :
    life.ended = false := by
  cases h <;> rfl

/-- The first stage is handed on to a connection that begins. -/
theorem Next.firstStage_add {life life' : Life} {born : Bool} (h : life.Next life' born) :
    (if life'.firstStage then 1 else 0) + (if born then 1 else 0) =
      if life.firstStage then 1 else 0 := by
  cases h with
  | answer | fail => exact Nat.add_zero _
  | read | send => simp [firstStage,Stage.callback]

lemma stage_of_firstStage {life : Life} (h : life.firstStage = true) : life.stage = .listening := by
  obtain ⟨stage,reply,ended⟩ := life
  cases stage with
  | listening => rfl
  | reading | sending => cases h

end Life

theorem HttpConnection.Follows.busy_eq {x : HttpConnection} {life : Life} (hx : x.Follows life) :
    x.busy = !life.ended := by
  obtain ⟨earlier,o,hops,hearlier,hprogress⟩ := hx.ops
  have hover : (earlier.any fun op => op.ov.outstanding) = false := by
    refine List.any_eq_false.mpr fun op hop => ?_
    simp [Overlapped.outstanding,(hearlier op hop).delivered]
  have hlast : o.outstanding = !life.ended := by
    generalize life.reply = reply,life.ended = ended at hprogress
    cases hprogress with
    | waiting => rfl
    | posted => simp [Overlapped.outstanding]
    | told => simp [Overlapped.outstanding]
  rw [HttpConnection.busy,hops,List.any_append,hover,Bool.false_or]
  simp [hlast]

namespace HttpConnection

/-- Every operation can be started: its call returns, whatever the system says. -/
lemma exists_issue (x : HttpConnection) (callback : Callback) (op : Operation) (result : OsResult) :
    ∃ y, x.issue callback op result = some y := by
  rw [issue,exec_program]
  exact ⟨_,rfl⟩

lemma exists_start (result : OsResult) : ∃ x, start result = some x := exists_issue {} _ _ result

lemma exists_complete (x : HttpConnection) (callback : Callback) (ec : ErrorCode) (len : ℕ)
    (a : Choices) : ∃ y spawned, x.complete callback ec len a = some (y,spawned) := by
  by_cases hec : ec.failed = true
  · cases callback with
    | receiveRequest | receiveBody => exact ⟨x,none,if_pos hec⟩
    | sendResponse => exact ⟨x,none,rfl⟩
  · cases callback with
    | receiveRequest =>
      obtain ⟨y,hy⟩ : ∃ y, x.onReceiveRequest a.next = some y := x.exists_issue _ _ a.next
      obtain ⟨f,hf⟩ := exists_start a.fresh
      refine ⟨y,some f,?_⟩
      rw [complete,if_neg hec,hy,Option.bind_some,hf,Option.map_some]
    | receiveBody =>
      obtain ⟨y,hy⟩ : ∃ y, x.onRecieveBody len a = some y := exists_issue _ _ _ a.next
      refine ⟨y,none,?_⟩
      rw [complete,if_neg hec,hy,Option.map_some]
    | sendResponse => exact ⟨x,none,rfl⟩

/-- A life that has not ended goes on: its operation can end, or its handler can run. -/
theorem Follows.goes_on {x : HttpConnection} {life : Life} (hx : x.Follows life)
    (hlife : life.ended = false) : ∃ (i : ℕ) (op : IssuedOp), x.ops[i]? = some op ∧
      op.callback = life.stage.callback ∧
      (life.reply = none → ∀ status bytes, ∃ u, op.ov.finish status bytes true = some u) ∧
      ∀ y ∈ life.reply, ∃ u, op.ov.deliver = some (y.packet life.stage.receives,u) := by
  obtain ⟨earlier,o,hops,-,hprogress⟩ := hx.ops
  refine ⟨earlier.length,⟨life.stage.callback,o⟩,by simp [hops],rfl,?_⟩
  generalize life.reply = reply,life.ended = ended at hprogress hlife
  cases hprogress with
  | waiting =>
    exact ⟨fun _ status bytes => ⟨_,Overlapped.finish_eq_some.mpr ⟨rfl,rfl⟩⟩,by simp⟩
  | @posted io y hio =>
    refine ⟨by simp,fun z hz => ?_⟩
    cases hz
    exact ⟨_,Overlapped.deliver_eq_some.mpr ⟨rfl,[],rfl,rfl⟩⟩
  | told => cases hlife

/-- What the log says of the receive is the reply of the first stage. -/
lemma Follows.reply_of_answered {x : HttpConnection} {life : Life} {path : Path} {result : OsResult}
    (hx : x.Follows life) (hstage : life.stage = .listening)
    (hmem : .answered .receiveRequest path result ∈ x.log) : life.reply = some ⟨path,result⟩ := by
  rw [hx.log,Life.answered_mem_log] at hmem
  obtain ⟨stage,reply,ended⟩ := life
  cases hstage
  exact hmem

end HttpConnection

namespace HttpServer

/-- No connection receives a request any more, and `n` steps are left to all of them. -/
def Ends (n : ℕ) (s : HttpServer) : Prop :=
  ∃ lives, s.Represents lives ∧ (∀ life ∈ lives, ¬life.CanReceive) ∧ (lives.map Life.left).sum = n

lemma ends_step (n : ℕ) (s : HttpServer) (l : Act) (t : HttpServer) (hs : s.Ends n) (_ : True)
    (h : machine.step s l = some t) : ∃ m < n, t.Ends m := by
  obtain ⟨lives,hlives,hover,rfl⟩ := hs
  obtain ⟨c,life,life',born,hc,hnext,-,ht,-⟩ := step_refines h hlives
  obtain ⟨hborn,hlt,hover'⟩ := hnext.left_lt (hover life (List.mem_of_getElem? hc))
  have hnone : born = none := by simpa using hborn
  rw [hnone,Option.toList_none,List.append_nil] at ht
  have hsum := sum_map_set_add Life.left hc life'
  refine ⟨_,?_,_,ht,fun z hz => ?_,rfl⟩
  · omega
  · obtain hz | rfl := List.mem_or_eq_of_mem_set hz
    · exact hover z hz
    · exact hover'

/-- What a step can be, it is. -/
lemma Moves.step_eq {s t : HttpServer} {l : Act} (h : s.Moves l t) :
    machine.step s l = some t := by
  cases h with
  | finish hx hi hu => simp [machine,step,hx,hi,hu]
  | runHandler hx hi hu hc => simp [machine,step,hx,hi,hu,hc]

/-- A connection whose life has not ended can take a step: its operation ends, or the handler
of that operation runs. -/
theorem Represents.goes_on {s : HttpServer} {lives : List Life} (hlives : s.Represents lives)
    {c : ℕ} {life : Life} (hc : lives[c]? = some life) (hover : life.ended = false) :
    ∃ x i op, s.conns[c]? = some x ∧ x.Follows life ∧ x.ops[i]? = some op ∧
      op.callback = life.stage.callback ∧
      (life.reply = none → ∀ r : OsResult, ∃ u, op.ov.finish r.status r.bytes true = some u) ∧
      ∀ y ∈ life.reply, ∃ u, op.ov.deliver = some (y.packet life.stage.receives,u) ∧
        ∀ a, ∃ x' spawned, HttpConnection.complete { x with ops := x.ops.set i { op with ov := u } }
          op.callback (y.packet life.stage.receives).ec (y.packet life.stage.receives).bytes a =
            some (x',spawned) := by
  obtain ⟨x,hx,hfollows⟩ := getElem?_of_forall₂ (List.Forall₂.flip hlives) hc
  obtain ⟨i,op,hi,hcallback,hfinish,hdeliver⟩ := HttpConnection.Follows.goes_on hfollows hover
  refine ⟨x,i,op,hx,hfollows,hi,hcallback,fun hnone r => hfinish hnone r.status r.bytes,?_⟩
  intro y hy
  obtain ⟨u,hu⟩ := hdeliver y hy
  exact ⟨u,hu,fun a => HttpConnection.exists_complete _ _ _ _ a⟩

/-- Some connection can still receive a request. -/
def Receives (s : HttpServer) : Prop := ∃ lives, s.Represents lives ∧ ∃ life ∈ lives, life.CanReceive

/-- Such a server has a step to go, after which it can receive a request again. -/
lemma receives_step (s : HttpServer) (hs : s.Receives) :
    ∃ l t, machine.step s l = some t ∧ t.Receives := by
  obtain ⟨lives,hlives,life,hmem,hstage,hover,hreply⟩ := hs
  obtain ⟨c,hc⟩ := List.mem_iff_getElem?.mp hmem
  have hlt := (List.getElem?_eq_some_iff.mp hc).1
  obtain ⟨x,i,op,hx,hfollows,hi,hcallback,hfinish,hdeliver⟩ := hlives.goes_on hc hover
  rw [hstage] at hcallback
  cases hlife : life.reply with
  | none =>
    obtain ⟨u,hu⟩ := hfinish hlife { status := noError }
    obtain ⟨life',-,hstage',hover',hfollows'⟩ := hfollows.finish hi hu
    have hanswered : life'.reply = some ⟨.throughPort,{ status := noError }⟩ := by
      refine HttpConnection.Follows.reply_of_answered hfollows' (hstage'.trans hstage) ?_
      simp [HttpConnection.answered,hcallback,Stage.callback]
    have hmoves : s.Moves (.finish c i { status := noError }) _ := .finish hx hi hu
    refine ⟨_,_,hmoves.step_eq,_,forall₂_set hlives hfollows' c,life',
      List.mem_set hlt life',hstage'.trans hstage,hover',fun y hy => ?_⟩
    cases hanswered.symm.trans hy
    rfl
  | some y =>
    obtain ⟨u,hu,hcomplete⟩ := hdeliver y hlife
    let a : HttpConnection.Choices :=
      ⟨{ status := errorIoPending },{ status := errorIoPending },fun _ r => r⟩
    obtain ⟨x',spawned,hc'⟩ := hcomplete a
    obtain ⟨life',-,hfollows',-,-,-⟩ := hfollows.runHandler hi hu hc'
    have hmoves : s.Moves (.runHandler c i a) _ := .runHandler hx hi hu hc'
    refine ⟨_,_,hmoves.step_eq,?_⟩
    rw [hcallback,hstage] at hc'
    cases HttpConnection.complete_cases hc' with
    | ends hend =>
      obtain hfailed | hsend := hend
      · exact absurd (hfailed.symm.trans (hreply y hlife)) Bool.true_eq_false.mp
      · cases hsend
    | @received _ _ _ f hok hy hf =>
      -- the connection that the handler starts waits for the next request
      refine ⟨_,List.rel_append (forall₂_set hlives hfollows' c)
        (.cons (HttpConnection.start_follows hf) .nil),_,List.mem_append_right _ List.mem_cons_self,
        rfl,rfl,?_⟩
      simp [a,Reply.atOnce]

/-- Exactly one connection is at its first stage. -/
def OneFirst (s : HttpServer) : Prop :=
  ∃ lives, s.Represents lives ∧ lives.countP Life.firstStage = 1

lemma oneFirst_preserved : machine.Preserves OneFirst := by
  rintro s l t ⟨lives,hlives,hone⟩ h
  obtain ⟨c,life,life',born,hc,hnext,hborn,ht,-⟩ := step_refines h hlives
  have hadd := hnext.firstStage_add
  have hset := countP_set_add Life.firstStage hc life'
  have hcount : born.toList.countP Life.firstStage = if born.isSome then 1 else 0 := by
    cases born with
    | none => rfl
    | some b =>
      obtain ⟨reply,rfl⟩ := hborn b rfl
      rfl
  refine ⟨_,ht,?_⟩
  rw [List.countP_append,hcount]
  omega

lemma start_oneFirst {first : OsResult} {s₀ : HttpServer} (hstart : start first = some s₀) :
    s₀.OneFirst := by
  obtain ⟨x,hx,rfl⟩ := Option.map_eq_some_iff.mp hstart
  exact ⟨_,.cons (HttpConnection.start_follows hx) .nil,rfl⟩

/-- A receive has ended with an error, inside its call or later. -/
def ReceiveFailed (s : HttpServer) : Prop :=
  ∃ x ∈ s.conns, ∃ path result, .answered .receiveRequest path result ∈ x.log ∧
    ¬(result.status = noError ∨ (path = .inside ∧ result.status = errorHandleEof))

/-- Once a receive has failed, what is left is bounded by the connections that are busy. -/
lemma ends_of_receiveFailed {s : HttpServer} (hs : s.OneFirst) (h : s.ReceiveFailed) :
    ∃ n ≤ 4 * s.busy, s.Ends n := by
  obtain ⟨lives,hlives,hone⟩ := hs
  obtain ⟨x,hx,path,result,hmem,hfails⟩ := h
  obtain ⟨life,hlife,hfollows⟩ := exists_of_mem_forall₂ hlives hx
  rw [← Reply.packet_succeeds_iff ⟨path,result⟩] at hfails
  have hanswer := Life.answered_mem_log.mp (hfollows.log ▸ hmem)
  have hfair := hfollows.fair
  have hreply : life.stage = .listening ∧ life.reply = some ⟨path,result⟩ := by
    obtain ⟨stage,reply,ended⟩ := life
    cases stage with
    | listening => exact ⟨rfl,hanswer⟩
    | reading y =>
      cases hanswer
      exact absurd hfair hfails
    | sending y z response =>
      cases hanswer
      exact absurd hfair.1 hfails
  have hbusy : s.busy = lives.countP fun life => !life.ended :=
    countP_of_forall₂ hlives fun _ _ hx => hx.busy_eq
  refine ⟨_,hbusy ▸ Life.sum_left_le lives,lives,hlives,fun z hz hreceive => ?_,rfl⟩
  -- the one connection at its first stage is the one whose receive has failed
  obtain ⟨w,hw⟩ := List.length_eq_one_iff.mp (List.countP_eq_length_filter.symm.trans hone)
  have hsame : ∀ l ∈ lives, l.stage = .listening → l = w := by
    intro l hl hstage
    have hfilter : l ∈ lives.filter Life.firstStage :=
      List.mem_filter.mpr ⟨hl,by rw [Life.firstStage,hstage]; rfl⟩
    exact List.mem_singleton.mp (hw ▸ hfilter)
  obtain rfl := hsame life hlife hreply.1
  obtain rfl := hsame z hz hreceive.1
  exact hfails (hreceive.2.2 _ hreply.2)

lemma receives_of_not_receiveFailed {s : HttpServer} (hs : s.OneFirst) (h : ¬s.ReceiveFailed) :
    s.Receives := by
  obtain ⟨lives,hlives,hone⟩ := hs
  obtain ⟨life,hlife,hfirst⟩ := List.countP_pos_iff.mp (hone ▸ Nat.one_pos)
  have hstage := Life.stage_of_firstStage hfirst
  obtain ⟨x,hx,hfollows⟩ := exists_of_mem_forall₂ (List.Forall₂.flip hlives) hlife
  change x.Follows life at hfollows
  have hreply : ∀ y ∈ life.reply, (y.packet true).ec.failed = false := by
    intro y hy
    rw [Reply.packet_succeeds_iff]
    by_contra hfails
    refine h ⟨x,hx,y.path,y.result,?_,hfails⟩
    rw [hfollows.log,Life.answered_mem_log]
    obtain ⟨stage,reply,ended⟩ := life
    cases hstage
    exact hy
  refine ⟨lives,hlives,life,hlife,hstage,?_,hreply⟩
  by_contra hended
  have hended : life.ended = true := (Bool.not_eq_false _).mp hended
  obtain ⟨earlier,o,hops,-,hprogress⟩ := hfollows.ops
  obtain ⟨y,hy⟩ : ∃ y, life.reply = some y := by
    generalize life.reply = reply,life.ended = ended at hprogress hended
    cases hprogress with
    | waiting => cases hended
    | posted => cases hended
    | told => exact ⟨_,rfl⟩
  have hfailed := hfollows.failed hended (by rw [hstage]; rfl) y hy
  exact absurd (hfailed.symm.trans (hreply y hy)) Bool.true_eq_false.mp

/-- The server stops when no operation is outstanding, and not before. -/
lemma stuck_iff {s : HttpServer} {lives : List Life} (hlives : s.Represents lives) :
    machine.Stuck s ↔ s.busy = 0 := by
  have hbusy : s.busy = 0 ↔ ∀ life ∈ lives, life.ended = true := by
    rw [busy,countP_of_forall₂ hlives fun _ _ hx => HttpConnection.Follows.busy_eq hx,
      List.countP_eq_zero]
    simp
  rw [hbusy]
  constructor
  · intro hstuck life hlife
    by_contra hended
    obtain ⟨c,hc⟩ := List.mem_iff_getElem?.mp hlife
    obtain ⟨x,i,op,hx,-,hi,-,hfinish,hdeliver⟩ :=
      hlives.goes_on hc ((Bool.not_eq_true _).mp hended)
    cases hreply : life.reply with
    | none =>
      obtain ⟨u,hu⟩ := hfinish hreply { status := noError }
      have hmoves : s.Moves (.finish c i { status := noError }) _ := .finish hx hi hu
      exact absurd ((hstuck _).symm.trans hmoves.step_eq) (by simp)
    | some y =>
      obtain ⟨u,hu,hcomplete⟩ := hdeliver y hreply
      obtain ⟨x',spawned,hc'⟩ :=
        hcomplete ⟨{ status := noError },{ status := noError },fun _ r => r⟩
      have hmoves : s.Moves (.runHandler c i _) _ := .runHandler hx hi hu hc'
      exact absurd ((hstuck _).symm.trans hmoves.step_eq) (by simp)
  · intro hover l
    by_contra hne
    obtain ⟨t,ht⟩ := Option.ne_none_iff_exists'.mp hne
    obtain ⟨c,life,life',born,hc,hnext,-,-,-⟩ := step_refines ht hlives
    exact absurd ((hover life (List.mem_of_getElem? hc)).symm.trans hnext.not_ended)
      Bool.true_eq_false.mp

/-- From every state reached, the server has at most four more steps for each connection
with an operation outstanding, if and only if a receive has ended with an error; as long as
none has, it can go on for any number of steps. It stops when no operation is outstanding. -/
theorem winds_down_iff (first : OsResult) (ls : List Act) (s₀ s : HttpServer)
    (hstart : start first = some s₀) (hrun : machine.run s₀ ls = some s) :
    ((∀ ms t, machine.run s ms = some t → ms.length ≤ 4 * s.busy) ↔ s.ReceiveFailed) ∧
    (¬s.ReceiveFailed → ∀ n, ∃ ms t, machine.run s ms = some t ∧ ms.length = n) ∧
    (machine.Stuck s ↔ s.busy = 0) := by
  have hone : s.OneFirst := oneFirst_preserved.run hrun (start_oneFirst hstart)
  have hlong : ¬s.ReceiveFailed → ∀ n, ∃ ms t, machine.run s ms = some t ∧ ms.length = n :=
    fun hfails n =>
      Machine.exists_run_length receives_step (receives_of_not_receiveFailed hone hfails) n
  refine ⟨⟨fun hbound => ?_,fun hfails ms t ht => ?_⟩,hlong,?_⟩
  · by_contra hfails
    obtain ⟨ms,t,ht,hlength⟩ := hlong hfails (4 * s.busy + 1)
    have hle := hbound ms t ht
    omega
  · obtain ⟨n,hn,hends⟩ := ends_of_receiveFailed hone hfails
    have hall : machine.Along (fun _ _ => True) s ms :=
      (Machine.along_label_iff ht).mpr fun _ _ => trivial
    exact Nat.le_trans (Machine.length_le_of_descends ends_step ht hends hall) hn
  · obtain ⟨lives,hlives,-⟩ := hone
    exact stuck_iff hlives

/-- A second receive that fails, while the first request is still to be answered. -/
theorem winds_down_iff_moreData : ∃ s₀ s, start firstRequest = some s₀ ∧
    machine.run s₀ [.runHandler 0 0 ⟨{ status := errorIoPending },{ status := errorMoreData },
      fun _ r => r⟩] = some s ∧
    ∀ ms t, machine.run s ms = some t → ms.length ≤ 4 * s.busy := by
  refine ⟨_,_,rfl,rfl,(winds_down_iff firstRequest [.runHandler 0 0
    ⟨{ status := errorIoPending },{ status := errorMoreData },fun _ r => r⟩] _ _ rfl rfl).1.mpr ?_⟩
  exact ⟨_,List.mem_cons_of_mem _ List.mem_cons_self,.inside,{ status := errorMoreData },
    List.mem_of_getElem? (i := 1) rfl,by decide⟩

end HttpServer
end Winext.Http
