import Winext.Http.ConnectionLife

/-! How many connections listen. The role is handed on by every receive that succeeds, and
is lost with the first one that does not. -/
namespace Winext.Http
open Lib

def HttpConnection.listens (x : HttpConnection) : Bool :=
  x.ops.any fun op => op.callback == .receiveRequest && op.ov.outstanding

def HttpServer.listening (s : HttpServer) : ℕ := s.conns.countP HttpConnection.listens

namespace Life

def listens (life : Life) : Bool := life.stage.callback == .receiveRequest && !life.ended

/-- A step in a life that begins another one hands the role on, and one that ends the
first stage loses it. -/
theorem Next.listens_add {life life' : Life} {born : Bool} (h : life.Next life' born) :
    (if life'.listens then 1 else 0) + (if born then 1 else 0) +
      (if life.stage.callback = .receiveRequest ∧ life'.ended = true then 1 else 0) =
    if life.listens then 1 else 0 := by
  cases h with
  | @answer stage y => cases stage <;> simp [listens,Stage.callback]
  | @fail stage y hy => cases stage <;> simp [listens,Stage.callback]
  | read => simp [listens,Stage.callback]
  | send => simp [listens,Stage.callback]

end Life

theorem HttpConnection.Follows.listens_eq {x : HttpConnection} {life : Life}
    (hx : x.Follows life) : x.listens = life.listens := by
  obtain ⟨earlier,o,hops,hearlier,hprogress⟩ := hx.ops
  have hover : (earlier.any fun op => op.callback == .receiveRequest && op.ov.outstanding) =
      false := by
    refine List.any_eq_false.mpr fun op hop => ?_
    simp [Overlapped.outstanding,(hearlier op hop).delivered]
  have hlast : o.outstanding = !life.ended := by
    generalize life.reply = reply,life.ended = ended at hprogress
    cases hprogress with
    | waiting => rfl
    | posted => simp [Overlapped.outstanding]
    | told => simp [Overlapped.outstanding]
  rw [HttpConnection.listens,hops,List.any_append,hover,Bool.false_or]
  simp [Life.listens,hlast]

namespace HttpServer

theorem listening_step {s t : HttpServer} {l : Act} (h : step s l = some t) {lives : List Life}
    (hs : s.Represents lives) : (∃ lives', t.Represents lives') ∧
      (s.FailsReceive l → s.listening = t.listening + 1) ∧
      (¬s.FailsReceive l → s.listening = t.listening) := by
  obtain ⟨c,life,life',born,hc,hnext,hborn,ht,hfails⟩ := step_refines h hs
  have hcount : ∀ {s : HttpServer} {lives : List Life}, s.Represents lives →
      s.listening = lives.countP Life.listens := fun hs =>
    countP_of_forall₂ hs fun _ _ hx => hx.listens_eq
  have hadd := hnext.listens_add
  have hset := countP_set_add Life.listens hc life'
  have hbornCount : born.toList.countP Life.listens = if born.isSome then 1 else 0 := by
    cases born with
    | none => rfl
    | some b =>
      obtain ⟨reply,rfl⟩ := hborn b rfl
      rfl
  refine ⟨⟨_,ht⟩,fun hf => ?_,fun hf => ?_⟩
  · rw [hcount hs,hcount ht,List.countP_append,hbornCount]
    rw [if_pos (hfails.mp hf)] at hadd
    omega
  · rw [hcount hs,hcount ht,List.countP_append,hbornCount]
    rw [if_neg fun h => hf (hfails.mpr h)] at hadd
    omega

theorem listening_latch : machine.Latch (fun s l => ¬s.FailsReceive l)
    (fun s => (∃ lives, s.Represents lives) ∧ s.listening = 1)
    (fun s => (∃ lives, s.Represents lives) ∧ s.listening = 0) where
  keep s l t hs hl h := by
    obtain ⟨⟨lives,hr⟩,hone⟩ := hs
    obtain ⟨ht,-,hsame⟩ := listening_step h hr
    exact ⟨ht,(hsame hl).symm.trans hone⟩
  trip s l t hs hl h := by
    obtain ⟨⟨lives,hr⟩,hone⟩ := hs
    obtain ⟨ht,hless,-⟩ := listening_step h hr
    have hstep := hless (not_not.mp hl)
    exact ⟨ht,by omega⟩
  stay s l t hs h := by
    obtain ⟨⟨lives,hr⟩,hzero⟩ := hs
    obtain ⟨ht,hless,hsame⟩ := listening_step h hr
    refine ⟨ht,?_⟩
    by_cases hf : s.FailsReceive l
    · have hstep := hless hf
      omega
    · exact (hsame hf).symm.trans hzero

/-- After any completions in any order and with any status, exactly one connection has an
outstanding receive, if and only if no receive has been completed with an error. -/
theorem listening_one_iff (first : OsResult) (ls : List Act) (s₀ s : HttpServer)
    (hstart : start first = some s₀) (hrun : machine.run s₀ ls = some s) :
    s.listening = 1 ↔ machine.Along (fun s l => ¬s.FailsReceive l) s₀ ls := by
  have hs₀ : (∃ lives, s₀.Represents lives) ∧ s₀.listening = 1 := by
    obtain ⟨x,hx,rfl⟩ := Option.map_eq_some_iff.mp hstart
    have hfollows := HttpConnection.start_follows hx
    refine ⟨⟨_,.cons hfollows .nil⟩,?_⟩
    simp [listening,hfollows.listens_eq,Life.listens,Stage.callback]
  obtain ⟨halong,hgood⟩ | ⟨halong,hbad⟩ := listening_latch.run hrun hs₀
  · exact iff_of_true hgood.2 halong
  · exact iff_of_false (fun h => by simp [h] at hbad) halong

/-- A receive that succeeds, and then one whose end has not been handled. -/
theorem listening_one_iff_served : ∃ s₀ s,
    start { status := noError, request := { requestId := 1 } } = some s₀ ∧
    machine.run s₀ [.runHandler 0 0 ⟨{ status := errorIoPending },{ status := errorIoPending },
      fun _ r => r⟩,.finish 1 0 { status := errorMoreData }] = some s ∧ s.listening = 1 := by
  refine ⟨_,_,rfl,rfl,(listening_one_iff { status := noError, request := { requestId := 1 } }
    [.runHandler 0 0 ⟨{ status := errorIoPending },{ status := errorIoPending },fun _ r => r⟩,
      .finish 1 0 { status := errorMoreData }] _ _ rfl rfl).mpr ?_⟩
  rw [Machine.along_cons rfl,Machine.along_cons rfl]
  refine ⟨?_,id,trivial⟩
  rintro ⟨x,op,p,u,hx,hi,-,hd,hf⟩
  cases hx
  cases hi
  cases hd
  cases hf

/-- A request whose headers do not fit ends the listening. -/
theorem listening_lost : ¬∀ (first : OsResult) (ls : List Act) (s₀ s : HttpServer),
    start first = some s₀ → machine.run s₀ ls = some s → s.listening = 1 := by
  intro h
  have hone := h { status := errorIoPending } [.finish 0 0 { status := errorMoreData },
    .runHandler 0 0 ⟨{ status := noError },{ status := noError },fun _ r => r⟩] _ _ rfl rfl
  exact absurd hone (by decide)

end HttpServer
end Winext.Http
