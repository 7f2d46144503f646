import Winext.Http.BasicHttpHandle

/-! How an operation is completed. Its call may end at any moment, also before the code has
released the OVERLAPPED, and the handler is run at any moment after that. -/
namespace Winext.Http
open Lib Program HttpCall

namespace HttpIo

/-- The system ends a pending call, or the library runs the handler. -/
inductive Other
  | finish
  | runHandler
  deriving DecidableEq, Repr

def interfere (status : Dword) (bytes : ℕ) (s : HttpIo) : Other → Option HttpIo
  | .finish => (s.ov.finish status bytes true).map fun u => { s with ov := u }
  | .runHandler => s.ov.deliver.map fun d => { s with ov := d.2 }

def environment (status : Dword) (bytes : ℕ) :
    Environment HttpCall HttpCall.Answer HttpIo Other := ⟨perform,interfere status bytes⟩

theorem interfere_cases {status : Dword} {bytes : ℕ} {s t : HttpIo} {l : Other}
    (h : s.interfere status bytes l = some t) :
    (∃ u, s.ov.finish status bytes true = some u ∧ t = { s with ov := u }) ∨
    (∃ p u, s.ov.deliver = some (p,u) ∧ t = { s with ov := u }) := by
  cases l with
  | finish =>
    obtain ⟨u,hu,rfl⟩ := Option.map_eq_some_iff.mp h
    exact Or.inl ⟨u,hu,rfl⟩
  | runHandler =>
    obtain ⟨⟨p,u⟩,hd,rfl⟩ := Option.map_eq_some_iff.mp h
    exact Or.inr ⟨p,u,hd,rfl⟩

/-- The handler is due to be told `ec`: the call is pending and will end so, or there is
exactly one packet for it. -/
def Due (handedOver : Bool) (status : Dword) (ec : ErrorCode) (s : HttpIo) : Prop :=
  s.ov.handedOver = handedOver ∧
    ((s.ov.io = .pending ∧ s.ov.delivered = [] ∧ s.ov.packets = [] ∧ ec = ⟨status⟩) ∨
      (s.ov.io ≠ .pending ∧ ∃ b, s.ov.delivered ++ s.ov.packets = [⟨ec,b⟩]))

theorem due_preserved (handedOver : Bool) (status : Dword) (bytes : ℕ) (ec : ErrorCode) :
    (environment status bytes).alone.Preserves (Due handedOver status ec) := by
  intro s l t hs h
  obtain ⟨hover,hio⟩ := hs
  obtain ⟨u,hu,rfl⟩ | ⟨p,u,hu,rfl⟩ := interfere_cases h
  · obtain ⟨hpend,rfl⟩ := Overlapped.finish_eq_some.mp hu
    obtain ⟨-,hd,hp,rfl⟩ | ⟨hne,-⟩ := hio
    · exact ⟨hover,Or.inr ⟨by simp,bytes,by simp [hd,hp]⟩⟩
    · exact absurd hpend hne
  · obtain ⟨-,ps,hps,rfl⟩ := Overlapped.deliver_eq_some.mp hu
    obtain ⟨-,-,hp,-⟩ | ⟨hne,b,hb⟩ := hio
    · simp [hp] at hps
    · exact ⟨hover,Or.inr ⟨hne,b,by simpa [hps] using hb⟩⟩

/-- Nothing happens to an OVERLAPPED that is neither pending nor handed over. -/
theorem idle_preserved (status : Dword) (bytes : ℕ) {s₀ : HttpIo} (hio : s₀.ov.io ≠ .pending)
    (hover : s₀.ov.handedOver = false) :
    (environment status bytes).alone.Preserves fun s => s = s₀ := by
  rintro s l t rfl h
  obtain ⟨u,hu,rfl⟩ | ⟨p,u,hu,rfl⟩ := interfere_cases h
  · exact absurd (Overlapped.finish_eq_some.mp hu).1 hio
  · have htrue := (Overlapped.deliver_eq_some.mp hu).1
    simp [hover] at htrue

variable {status : Dword} {bytes : ℕ}

lemma release_guaranteed {ec : ErrorCode} {s : HttpIo} (hs : Due false status ec s) :
    (environment status bytes).Guaranteed (fun _ => Due true status ec)
      (Program.ask release) s := by
  refine .ofCall _ (due_preserved false status bytes ec) hs fun t a u ht hr => ?_
  cases hr
  exact .ofDone _ (due_preserved true status bytes ec) ⟨rfl,ht.2⟩ fun _ h => h

lemma complete_guaranteed {ec : ErrorCode} {s : HttpIo} (hio : s.ov.io ≠ .pending)
    (hover : s.ov.handedOver = false) (hnone : s.ov.delivered ++ s.ov.packets = []) :
    (environment status bytes).Guaranteed (fun _ => Due true status ec)
      (Program.ask (complete ec 0)) s := by
  refine .ofCall _ (idle_preserved status bytes hio hover) rfl fun t a u ht hr => ?_
  cases ht
  cases hr
  refine .ofDone _ (due_preserved true status bytes ec) ⟨rfl,Or.inr ⟨hio,0,?_⟩⟩ fun _ h => h
  have hempty := List.append_eq_nil_iff.mp hnone
  simp [Overlapped.complete,hempty.1,hempty.2]

end HttpIo

/-- Inside the call, or with a packet some time after it. -/
inductive Path
  | inside
  | throughPort
  deriving DecidableEq, Repr

namespace Path

def start (path : Path) (status : Dword) (bytes : ℕ) : HttpIo :=
  match path with
  | inside => { status := status, bytes := bytes }
  | throughPort => { status := errorIoPending, bytes := 0 }

def told (path : Path) (receives : Bool) (status : Dword) : ErrorCode :=
  if path = inside ∧ receives = true ∧ status = errorHandleEof then {} else ⟨status⟩

end Path

namespace HttpIo
variable {status : Dword} {bytes : ℕ}

/-- After the call, the branches make the handler due, whichever way the call ends. -/
theorem settle_guaranteed (path : Path) (receives : Bool) {s : HttpIo}
    (hs : status ≠ errorIoPending)
    (hov : s.ov = answer (path.start status bytes).status (path.start status bytes).bytes {}) :
    (environment status bytes).Guaranteed (fun _ => Due true status (path.told receives status))
      (settle receives (path.start status bytes).status) s := by
  cases path with
  | throughPort =>
    have hrelease : settle receives errorIoPending = Program.ask release := by simp [settle]
    have htold : Path.throughPort.told receives status = ⟨status⟩ := by simp [Path.told]
    simp only [Path.start,hrelease,htold]
    refine release_guaranteed ⟨?_,Or.inl ?_⟩ <;> simp [hov,Path.start,answer,Overlapped.pend]
  | inside =>
    simp only [Path.start] at hov ⊢
    by_cases h0 : status = noError
    · have hrelease : settle receives status = Program.ask release := by simp [settle,h0]
      have htold : Path.inside.told receives status = ⟨status⟩ := by
        simp [Path.told,h0,eof_ne.1.symm]
      rw [hrelease,htold]
      rw [answer,if_neg hs,if_pos h0] at hov
      refine release_guaranteed ⟨?_,Or.inr ⟨?_,bytes,?_⟩⟩ <;> simp [hov,Overlapped.accept]
    · have hcomplete : settle receives status =
          Program.ask (complete (Path.inside.told receives status) 0) := by
        have hne : ¬(status = noError ∨ status = errorIoPending) := not_or.mpr ⟨h0,hs⟩
        by_cases heof : receives = true ∧ status = errorHandleEof
        · rw [settle,if_neg hne,if_pos heof,Path.told,if_pos ⟨rfl,heof⟩]
        · rw [settle,if_neg hne,if_neg heof,Path.told,if_neg fun h => heof h.2]
      rw [hcomplete]
      rw [answer,if_neg hs,if_neg h0] at hov
      refine complete_guaranteed ?_ ?_ ?_ <;> simp [hov,Overlapped.refuse]

/-- An operation that has made its call is left to the branches after it. -/
lemma ask_guaranteed (path : Path) (receives : Bool) {c : HttpCall} {answer : c.Answer}
    {next : c.Answer → HttpProgram Unit} (hs : status ≠ errorIoPending)
    (hask : perform c (path.start status bytes) = some (answer,(path.start status bytes).ask c))
    (hnext : next answer = settle receives (path.start status bytes).status) :
    (environment status bytes).Guaranteed (fun _ => Due true status (path.told receives status))
      (.call c next) (path.start status bytes) := by
  have hstart : (path.start status bytes).ov = {} := by cases path <;> rfl
  have hidle : (environment status bytes).alone.Preserves fun t => t = path.start status bytes :=
    idle_preserved status bytes (by simp [hstart]) (by simp [hstart])
  refine .ofCall _ hidle rfl fun t a u ht hr => ?_
  rw [ht] at hr
  cases hask.symm.trans hr
  rw [hnext]
  exact settle_guaranteed path receives hs (by rw [HttpIo.ask,hstart])

theorem program_guaranteed (path : Path) (op : Operation) (hs : status ≠ errorIoPending) :
    (environment status bytes).Guaranteed
      (fun _ => Due true status (path.told op.receives status)) op.program
      (path.start status bytes) := by
  cases op with
  | recieveRequest pRequest room =>
    rw [Operation.program,asyncRecieveRequest_eq]
    exact ask_guaranteed path true hs rfl rfl
  | recieveBody length requestId flags =>
    rw [Operation.program,asyncRecieveBody_eq]
    exact ask_guaranteed path true hs rfl rfl
  | sendResponse resp requestId flags =>
    rw [Operation.program,asyncSendResponse_eq]
    exact ask_guaranteed path false hs rfl rfl

/-- Steps the environment still has to take: a pending call ends and is delivered. -/
def potential (s : HttpIo) : ℕ := (if s.ov.io = .pending then 2 else 0) + s.ov.packets.length

lemma potential_answer (status : Dword) (bytes : ℕ) (s : HttpIo) :
    potential { s with ov := answer status bytes s.ov } ≤ s.potential + 2 := by
  unfold potential answer
  split_ifs <;> simp_all [Overlapped.pend,Overlapped.accept,Overlapped.refuse] <;> omega

lemma completions_answer (status : Dword) (bytes : ℕ) (o : Overlapped) :
    o.completions ≤ (answer status bytes o).completions := by
  unfold answer
  split_ifs <;> simp [Overlapped.pend,Overlapped.accept,Overlapped.refuse,Overlapped.completions]

/-- Every call is answered, takes no completion away, and gives the environment at most
two steps more. -/
theorem perform_total (c : HttpCall) (s : HttpIo) : ∃ r, perform c s = some r ∧
    s.ov.completions ≤ r.2.ov.completions ∧ r.2.potential ≤ s.potential + 2 := by
  cases c with
  | httpReceiveHttpRequest | httpReceiveRequestEntityBody | httpSendHttpResponse =>
    exact ⟨_,rfl,completions_answer _ _ _,potential_answer _ _ s⟩
  | complete ec bytes =>
    refine ⟨_,rfl,?_,?_⟩
    · simp only [Overlapped.completions,Overlapped.complete,List.length_append]
      omega
    · simp only [potential,Overlapped.complete,List.length_append,List.length_singleton]
      exact Nat.add_le_add_left (Nat.le_succ _) _
  | release => exact ⟨_,rfl,Nat.le_refl _,Nat.le_add_right _ _⟩

lemma potential_interfere {s t : HttpIo} {l : Other} (h : s.interfere status bytes l = some t) :
    t.potential < s.potential := by
  obtain ⟨u,hu,rfl⟩ | ⟨p,u,hu,rfl⟩ := interfere_cases h
  · obtain ⟨hpend,rfl⟩ := Overlapped.finish_eq_some.mp hu
    simp [potential,hpend]
    omega
  · obtain ⟨-,ps,hps,rfl⟩ := Overlapped.deliver_eq_some.mp hu
    simp [potential,hps]

def Runs (op : Operation) (path : Path) (status : Dword) (bytes : ℕ)
    (ls : List (Option Other)) (p : HttpProgram Unit) (s : HttpIo) : Prop :=
  ((environment status bytes).beside Unit).run (op.program,path.start status bytes) ls =
    some (p,s)

end HttpIo

open HttpIo

/-- However the operation is interleaved with its completion, it comes to an end, its
handler is run at most once, and by the end it has been run once and been told `ec`. -/
structure Tells (op : Operation) (path : Path) (status : Dword) (bytes : ℕ) (ec : ErrorCode) :
    Prop where
  ends : ∃ bound, ∀ ls p s, Runs op path status bytes ls p s → ls.length ≤ bound
  atMostOnce : ∀ ls p s, Runs op path status bytes ls p s → s.ov.delivered.length ≤ 1
  once : ∀ ls p s, Runs op path status bytes ls p s →
    ((environment status bytes).beside Unit).Stuck (p,s) → ∃ b, s.ov.delivered = [⟨ec,b⟩]

lemma program_atMost (op : Operation) : op.program.AtMost 2 := by
  have hsettle : ∀ receives result, (settle receives result).AtMost 1 := by
    intro receives result
    unfold settle
    split_ifs <;> exact fun _ => trivial
  cases op with
  | recieveRequest => rw [Operation.program,asyncRecieveRequest_eq]; exact hsettle true
  | recieveBody => rw [Operation.program,asyncRecieveBody_eq]; exact hsettle true
  | sendResponse => rw [Operation.program,asyncSendResponse_eq]; exact hsettle false

variable {status : Dword} {bytes : ℕ}

/-- The handler is told the status, except for an end of data inside a receiving call. -/
theorem program_tells (op : Operation) (path : Path) (hs : status ≠ errorIoPending) :
    Tells op path status bytes (path.told op.receives status) where
  ends := by
    refine ⟨_,fun ls p s hrun => Environment.length_run_le potential 2 ?_ ?_
      (program_atMost op) hrun⟩
    · intro c s r hr
      obtain ⟨r',hr',-,hle⟩ := perform_total c s
      cases hr.symm.trans hr'
      exact hle
    · exact fun s l t h => potential_interfere h
  atMostOnce ls p s hrun := by
    have hg := Environment.Guaranteed.step.run hrun (program_guaranteed path op hs)
    obtain ⟨-,t,hle,-,hdue⟩ := hg.returns (R := fun s t => s.ov.completions ≤ t.ov.completions)
      (fun _ => Nat.le_refl _) (fun _ _ _ => Nat.le_trans)
      fun c s => (perform_total c s).imp fun r h => ⟨h.1,h.2.1⟩
    have hone : t.ov.completions ≤ 1 := by
      obtain ⟨-,hd,hp,-⟩ | ⟨-,b,hb⟩ := hdue
      · simp [Overlapped.completions,hd,hp]
      · have hlen := congrArg List.length hb
        simp only [List.length_append,List.length_singleton] at hlen
        simp only [Overlapped.completions]
        omega
    simp only [Overlapped.completions] at hle hone
    omega
  once ls p s hrun hstuck := by
    obtain ⟨⟨a,rfl⟩,halone⟩ := Environment.stuck_done
      (fun c s => (perform_total c s).imp fun r h => h.1) hstuck
    have hdue : Due true status (path.told op.receives status) s :=
      (program_guaranteed path op hs).sound hrun
    obtain ⟨hover,⟨hpend,-⟩ | ⟨-,b,hb⟩⟩ := hdue
    · have hfinish := halone .finish
      simp [environment,Environment.alone,interfere,Overlapped.finish,hpend] at hfinish
    · have hrun := halone .runHandler
      have hnone : s.ov.packets = [] := by
        by_contra hne
        obtain ⟨q,qs,hq⟩ := List.exists_cons_of_ne_nil hne
        simp [environment,Environment.alone,interfere,Overlapped.deliver,hover,hq] at hrun
      exact ⟨b,by simpa [hnone] using hb⟩

/-- An operation with its handler: told once, and the same whether the call ends inside or
through the port, with the end of data a success for the receiving ones. -/
def SameCompletion (op : Operation) (status : Dword) (bytes : ℕ) : Prop :=
  ∃ ec, (∀ path, Tells op path status bytes ec) ∧
    (status = errorHandleEof → op.receives = true → ec = {})

lemma Tells.unique {op : Operation} {path : Path} {ec ec' : ErrorCode}
    (h : Tells op path status bytes ec) (h' : Tells op path status bytes ec') : ec = ec' := by
  obtain ⟨bound,hbound⟩ := h.ends
  obtain ⟨ls,⟨p,s⟩,hrun,hstuck⟩ := Machine.exists_stuck_run
    (M := (environment status bytes).beside Unit) fun ls cfg => hbound ls cfg.1 cfg.2
  obtain ⟨b,hb⟩ := h.once ls p s hrun hstuck
  obtain ⟨b',hb'⟩ := h'.once ls p s hrun hstuck
  rw [hb] at hb'
  cases hb'
  rfl

/-- The two ways of ending agree, for every status but the end of data of a receiving call. -/
theorem sameCompletion_iff (op : Operation) (status : Dword) (bytes : ℕ)
    (hs : status ≠ errorIoPending) :
    SameCompletion op status bytes ↔ status ≠ errorHandleEof ∨ op.receives = false := by
  constructor
  · rintro ⟨ec,htells,-⟩
    by_contra hne
    obtain ⟨heof,hreceives⟩ := not_or.mp hne
    have hinside := (htells .inside).unique (program_tells op .inside hs)
    have hport := (htells .throughPort).unique (program_tells op .throughPort hs)
    have hsame := hinside.symm.trans hport
    simp only [not_not,Bool.not_eq_false] at heof hreceives
    simp [Path.told,heof,hreceives] at hsame
    exact absurd hsame (by decide)
  · intro h
    have htold : ∀ path : Path, path.told op.receives status = ⟨status⟩ := by
      intro path
      rw [Path.told,if_neg]
      rintro ⟨-,hreceives,heof⟩
      obtain h | h := h
      · exact h heof
      · simp [hreceives] at h
    refine ⟨⟨status⟩,fun path => htold path ▸ program_tells op path hs,fun heof hreceives => ?_⟩
    obtain h | h := h
    · exact absurd heof h
    · simp [hreceives] at h

theorem sameCompletion_iff_moreData :
    SameCompletion (.recieveRequest {} 2048) errorMoreData 0 :=
  (sameCompletion_iff (.recieveRequest {} 2048) errorMoreData 0 (by decide)).mpr
    (Or.inl (by decide))

/-- The end of the data of a body is a success inside the call, and an error through the
port. -/
theorem endOfData_differs : ¬∀ (op : Operation) (status : Dword) (bytes : ℕ),
    status ≠ errorIoPending → SameCompletion op status bytes := by
  intro h
  obtain ⟨ec,htells,hsuccess⟩ := h (.recieveBody 1024 1 0) errorHandleEof 0 (by decide)
  obtain ⟨b,hb⟩ := (htells .throughPort).once
    [none,none,some .finish,some .runHandler] (.done ()) _ rfl fun l => by
      rcases l with _ | _ | _ <;> rfl
  rw [hsuccess rfl rfl] at hb
  have hec : [ErrorCode.mk errorHandleEof] = [{}] := congrArg (List.map Packet.ec) hb
  exact absurd hec (by decide)

end Winext.Http
