import Winext.NamedPipe.Acceptor

/-! One accept beside one client that may connect at any moment once the instance
exists. The client's connect falls before `ConnectNamedPipe`, between it and
`pipe_->assign`, or after `assign`, and each window takes its own branch. -/
namespace Winext
open Lib Details

/-- Where the client's connect fell among the steps of the accept. -/
inductive Window
  | beforeConnect
  | beforeAssign
  | afterAssign
  deriving DecidableEq, Repr

/-- The pipe instance of one accept, its client, and the accept's OVERLAPPED. -/
structure Race where
  refusal : Option Dword
  lastError : Dword := noError
  created : Bool := false
  associated : Bool := false
  client : Option Window := none
  ov : Overlapped := {}
  deriving DecidableEq, Repr

namespace Race

/-- `ConnectNamedPipe` reports a client that came first, and is left pending otherwise.
`assign` associates the handle with the completion port. Printing does to the thread's
last error what `output` says. -/
def perform (output : Dword → Dword) : (c : ServerCall) → Race → Option (c.Answer × Race)
  | .createNamedPipe _ _, s =>
    match s.refusal with
    | some e => some (.invalidHandleValue,{ s with lastError := e })
    | none => some (.pipe 0,{ s with created := true })
  | .connectNamedPipe _, s =>
    match s.client with
    | some _ => some (false,{ s with
        lastError := errorPipeConnected, ov := s.ov.refuse errorPipeConnected })
    | none => some (false,{ s with lastError := errorIoPending, ov := s.ov.pend })
  | .getLastError, s => some (s.lastError,s)
  | .print _, s => some ((),{ s with lastError := output s.lastError })
  | .assign (.pipe _), s =>
    if s.associated then some (.error .alreadyOpen,s)
    else some (.ok (),{ s with associated := true })
  | .assign _, s => some (.error .invalidHandle,s)
  | .overlappedPtr _, s => some ((),{ s with ov := {} })
  | .complete ec bytes, s => some ((),{ s with ov := s.ov.complete ec bytes })
  | .release, s => some ((),{ s with ov := s.ov.release })
  | .selfComplete ec _, s =>
    some ((),{ s with ov := { s.ov with delivered := s.ov.delivered ++ [⟨ec,0⟩] } })

/-- The steps of the others: the client connects, or the library runs the handler. -/
inductive Other
  | clientConnects
  | runHandler
  deriving DecidableEq, Repr

def window (s : Race) : Window :=
  if s.ov.io ≠ .pending then .beforeConnect
  else if s.associated then .afterAssign else .beforeAssign

def interfere (s : Race) : Other → Option Race
  | .clientConnects =>
    if s.created && s.client.isNone then
      some { s with
        client := some s.window
        ov := (s.ov.finish noError 0 s.associated).getD s.ov }
    else none
  | .runHandler => s.ov.deliver.map fun d => { s with ov := d.2 }

def environment (output : Dword → Dword) : Environment ServerCall ServerCall.Answer Race Other :=
  ⟨perform output,interfere⟩

/-- Everything the others can do in one step. -/
theorem interfere_cases {s t : Race} {l : Other} (h : s.interfere l = some t) :
    (s.created = true ∧ s.client = none ∧ t = { s with
        client := some s.window, ov := (s.ov.finish noError 0 s.associated).getD s.ov }) ∨
    (∃ p u, s.ov.deliver = some (p,u) ∧ t = { s with ov := u }) := by
  cases l with
  | clientConnects =>
    simp only [interfere] at h
    split_ifs at h with hc
    · simp only [Bool.and_eq_true,Option.isNone_iff_eq_none] at hc
      exact Or.inl ⟨hc.1,hc.2,(Option.some.inj h).symm⟩
  | runHandler =>
    simp only [interfere,Option.map_eq_some_iff] at h
    obtain ⟨⟨p,u⟩,hd,rfl⟩ := h
    exact Or.inr ⟨p,u,hd,rfl⟩

lemma finish_getD_of_not_pending {o : Overlapped} {a : Bool} (h : o.io ≠ .pending) :
    (o.finish noError 0 a).getD o = o := by simp [Overlapped.finish,h]

lemma deliver_io {o u : Overlapped} {p : Packet} (h : o.deliver = some (p,u)) : u.io = o.io := by
  obtain ⟨-,ps,-,rfl⟩ := Overlapped.deliver_eq_some.mp h
  rfl

/-- Nothing has been created, so no client can be there. -/
structure Idle (s : Race) : Prop where
  created : s.created = false
  client : s.client = none
  associated : s.associated = false
  completions : s.ov.completions = 0
  io : s.ov.io ≠ .pending

/-- The instance exists, and ConnectNamedPipe has not been called. -/
structure Open (s : Race) : Prop where
  client : s.client = none ∨ s.client = some .beforeConnect
  associated : s.associated = false
  completions : s.ov.completions = 0
  io : s.ov.io ≠ .pending

/-- The client came first, and `n` completions have been made for it. -/
structure Early (associated : Bool) (n : ℕ) (s : Race) : Prop where
  client : s.client = some .beforeConnect
  associated_eq : s.associated = associated
  completions : s.ov.completions = n

/-- How many completions a connect that was left pending has led to, by the window of
its client: one that came before the association has left no packet. -/
def Served (s : Race) : Prop :=
  match s.client with
  | none => s.ov.io = .pending ∧ s.ov.completions = 0
  | some .beforeConnect => False
  | some .beforeAssign => s.ov.io ≠ .pending ∧ s.ov.completions = 0
  | some .afterAssign => s.ov.io ≠ .pending ∧ s.ov.completions = 1

structure Waiting (associated : Bool) (s : Race) : Prop where
  served : s.Served
  associated_eq : s.associated = associated

variable {output : Dword → Dword}

theorem idle_stable : (environment output).alone.Preserves Idle := by
  intro s l t hs h
  rcases interfere_cases h with ⟨hc,-,-⟩ | ⟨p,u,hd,rfl⟩
  · rw [hs.created] at hc
    contradiction
  · exact ⟨hs.created,hs.client,hs.associated,
      (Overlapped.completions_deliver hd).trans hs.completions,by rw [deliver_io hd]; exact hs.io⟩

theorem open_stable : (environment output).alone.Preserves Open := by
  intro s l t hs h
  rcases interfere_cases h with ⟨-,-,rfl⟩ | ⟨p,u,hd,rfl⟩
  · rw [finish_getD_of_not_pending hs.io]
    exact ⟨Or.inr (by simp [window,hs.io]),hs.associated,hs.completions,hs.io⟩
  · exact ⟨hs.client,hs.associated,
      (Overlapped.completions_deliver hd).trans hs.completions,by rw [deliver_io hd]; exact hs.io⟩

theorem early_stable (a : Bool) (n : ℕ) : (environment output).alone.Preserves (Early a n) := by
  intro s l t hs h
  rcases interfere_cases h with ⟨-,hn,-⟩ | ⟨p,u,hd,rfl⟩
  · rw [hs.client] at hn
    contradiction
  · exact ⟨hs.client,hs.associated_eq,(Overlapped.completions_deliver hd).trans hs.completions⟩

/-- The client's connect is the one step at which the association matters. -/
lemma served_connects {s : Race} (hs : s.Served) (hn : s.client = none) :
    Served { s with
      client := some s.window, ov := (s.ov.finish noError 0 s.associated).getD s.ov } := by
  simp only [Served,hn] at hs
  obtain ⟨hio,hcount⟩ := hs
  obtain ⟨hp,hd⟩ := Overlapped.completions_eq_zero.mp hcount
  by_cases ha : s.associated = true
  · simp [Served,window,Overlapped.finish,Overlapped.completions,hio,ha,hp,hd]
  · simp [Served,window,Overlapped.finish,Overlapped.completions,hio,ha,hp,hd]

lemma served_delivers {s : Race} {p : Packet} {u : Overlapped} (hs : s.Served)
    (hd : s.ov.deliver = some (p,u)) : Served { s with ov := u } := by
  simp only [Served] at hs ⊢
  rw [deliver_io hd,Overlapped.completions_deliver hd]
  exact hs

theorem waiting_stable (a : Bool) : (environment output).alone.Preserves (Waiting a) := by
  intro s l t hs h
  rcases interfere_cases h with ⟨-,hn,rfl⟩ | ⟨p,u,hd,rfl⟩
  · exact ⟨served_connects hs.served hn,hs.associated_eq⟩
  · exact ⟨served_delivers hs.served hd,hs.associated_eq⟩

theorem lastError_stable (e : Dword) : (environment output).alone.Preserves fun s => s.lastError = e := by
  intro s l t hs h
  rcases interfere_cases h with ⟨-,-,rfl⟩ | ⟨p,u,-,rfl⟩
  · exact hs
  · exact hs

section Calls
variable {α : Type} {Q : α → Race → Prop} {s : Race} {P : Race → Prop}

theorem guaranteed_getLastError {next : Dword → ServerProgram α}
    (hstable : (environment output).alone.Preserves P) (hs : P s)
    (hnext : ∀ t, P t → (environment output).Guaranteed Q (next t.lastError) t) :
    (environment output).Guaranteed Q (.call .getLastError next) s := by
  apply Environment.Guaranteed.ofCall P hstable hs
  intro t a u ht hr
  cases hr
  exact hnext t ht

/-- Diagnostic output changes the last error, and nothing else. -/
theorem guaranteed_print {text : String} {next : Unit → ServerProgram α}
    (hstable : (environment output).alone.Preserves P) (hs : P s)
    (hnext : ∀ t, P t →
      (environment output).Guaranteed Q (next ()) { t with lastError := output t.lastError }) :
    (environment output).Guaranteed Q (.call (.print text) next) s := by
  apply Environment.Guaranteed.ofCall P hstable hs
  intro t a u ht hr
  cases hr
  exact hnext t ht

end Calls

theorem createNamedPipe_cases {endpoint : String} {settings : PipeSettings} {s u : Race}
    {hPipe : Handle} (hs : s.Idle)
    (h : (environment output).perform (.createNamedPipe endpoint settings) s = some (hPipe,u)) :
    (hPipe = .invalidHandleValue ∧ u.Idle) ∨ (hPipe = .pipe 0 ∧ u.Open) := by
  cases hr : s.refusal with
  | some e =>
    simp only [environment,perform,hr,Option.some.injEq,Prod.mk.injEq] at h
    obtain ⟨rfl,rfl⟩ := h
    exact Or.inl ⟨rfl,hs.created,hs.client,hs.associated,hs.completions,hs.io⟩
  | none =>
    simp only [environment,perform,hr,Option.some.injEq,Prod.mk.injEq] at h
    obtain ⟨rfl,rfl⟩ := h
    exact Or.inr ⟨rfl,Or.inl hs.client,hs.associated,hs.completions,hs.io⟩

theorem connectNamedPipe_cases {hPipe : Handle} {fConnected : Bool} {s u : Race} (hs : s.Open)
    (h : (environment output).perform (.connectNamedPipe hPipe) s = some (fConnected,u)) : fConnected = false ∧
    ((u.Waiting false ∧ u.lastError = errorIoPending) ∨
      (u.Early false 0 ∧ u.lastError = errorPipeConnected)) := by
  rcases hs.client with hc | hc
  · simp only [environment,perform,hc,Option.some.injEq,Prod.mk.injEq] at h
    obtain ⟨rfl,rfl⟩ := h
    have hserved : Served { s with lastError := errorIoPending, ov := s.ov.pend } := by
      simpa [Served,hc,Overlapped.pend,Overlapped.completions] using hs.completions
    exact ⟨rfl,Or.inl ⟨⟨by simpa [hc] using hserved,hs.associated⟩,rfl⟩⟩
  · simp only [environment,perform,hc,Option.some.injEq,Prod.mk.injEq] at h
    obtain ⟨rfl,rfl⟩ := h
    exact ⟨rfl,Or.inr ⟨⟨by simp,hs.associated,hs.completions⟩,rfl⟩⟩

/-- What `accept_detail2` guarantees its caller beside a connecting client. -/
def Detailed (output : Dword → Dword) (out : Handle × ErrorCode) (s : Race) : Prop :=
  (out.1 = .null ∧ s.Idle) ∨
  (out = (.pipe 0,{}) ∧ s.Waiting false) ∨
  (out = (.pipe 0,⟨output errorPipeConnected⟩) ∧ s.Early false 0)

theorem acceptDetail2_guaranteed (endpoint : String) {s : Race} (hs : s.Idle) :
    (environment output).Guaranteed (Detailed output) (acceptDetail2 .null endpoint {}) s := by
  simp only [acceptDetail2,Program.ask_bind]
  refine Environment.Guaranteed.ofCall Idle idle_stable hs fun t hPipe u ht hr => ?_
  obtain ⟨rfl,hu⟩ | ⟨rfl,hu⟩ := createNamedPipe_cases ht hr
  · rw [if_pos rfl]
    refine guaranteed_getLastError idle_stable hu fun t1 h1 => ?_
    refine guaranteed_print idle_stable h1 fun t2 h2 => ?_
    have hidle : Idle { t2 with lastError := output t2.lastError } :=
      ⟨h2.created,h2.client,h2.associated,h2.completions,h2.io⟩
    refine guaranteed_getLastError idle_stable hidle fun t3 h3 => ?_
    exact Environment.Guaranteed.ofDone Idle idle_stable h3 fun t4 h4 => Or.inl ⟨rfl,h4⟩
  rw [if_neg (by decide)]
  refine Environment.Guaranteed.ofCall Open open_stable hu fun t fConnected u ht hr => ?_
  obtain ⟨rfl,⟨hu,he⟩ | ⟨hu,he⟩⟩ := connectNamedPipe_cases ht hr
  · -- no client yet: the connect is left pending
    have hstable : (environment output).alone.Preserves fun s =>
        Waiting false s ∧ s.lastError = errorIoPending :=
      (waiting_stable false).and (lastError_stable errorIoPending)
    rw [if_neg (by decide)]
    refine guaranteed_getLastError hstable ⟨hu,he⟩ fun t1 h1 => ?_
    rw [if_pos h1.2]
    refine Environment.Guaranteed.ofDone _ (waiting_stable false) h1.1 fun t2 h2 => ?_
    exact Or.inr (Or.inl ⟨rfl,h2⟩)
  · -- the client came first, and the last error is read again after the output
    have hstable : ∀ e, (environment output).alone.Preserves fun s =>
        Early false 0 s ∧ s.lastError = e :=
      fun e => (early_stable false 0).and (lastError_stable e)
    rw [if_neg (by decide)]
    refine guaranteed_getLastError (hstable errorPipeConnected) ⟨hu,he⟩ fun t1 h1 => ?_
    rw [if_neg (by rw [h1.2]; decide),if_pos h1.2]
    refine guaranteed_print (hstable errorPipeConnected) h1 fun t2 h2 => ?_
    have hearly : Early false 0 { t2 with lastError := output t2.lastError } :=
      ⟨h2.1.client,h2.1.associated_eq,h2.1.completions⟩
    refine guaranteed_getLastError (hstable (output errorPipeConnected)) ⟨hearly,by rw [h2.2]⟩
      fun t3 h3 => ?_
    refine Environment.Guaranteed.ofDone _ (early_stable false 0) h3.1 fun t4 h4 => ?_
    exact Or.inr (Or.inr ⟨by rw [h3.2],h4⟩)

/-- A connected client has one completion, unless it connected in the window between
ConnectNamedPipe and the association, or came first and its report was silenced. -/
def Counted (silenced : Prop) (s : Race) : Prop :=
  ∀ w, s.client = some w →
    (s.ov.completions = 1 ↔ w ≠ .beforeAssign ∧ (w = .beforeConnect → ¬silenced))

variable {silenced : Prop}

lemma Early.counted {s : Race} {a : Bool} {n : ℕ} (h : s.Early a n) (hn : n = 1 ↔ ¬silenced) :
    s.Counted silenced := by
  intro w hw
  rw [h.client] at hw
  cases hw
  simp [h.completions,hn]

lemma Waiting.counted {s : Race} {a : Bool} (h : s.Waiting a) : s.Counted silenced := by
  intro w hw
  have hs := h.served
  simp only [Served,hw] at hs
  cases w with
  | beforeConnect => exact hs.elim
  | beforeAssign => simp [hs.2]
  | afterAssign => simp [hs.2]

theorem assign_pipe {s : Race} (hs : s.associated = false) (n : ℕ) :
    (environment output).perform (.assign (.pipe n)) s = some (.ok (),{ s with associated := true }) := by
  simp [environment,perform,hs]

theorem assign_null (s : Race) :
    (environment output).perform (.assign .null) s = some (.error .invalidHandle,s) := rfl

/-- Without an instance no client ever connects, whatever else is done. -/
structure NoInstance (s : Race) : Prop where
  created : s.created = false
  client : s.client = none

theorem noInstance_stable : (environment output).alone.Preserves NoInstance := by
  intro s l t hs h
  rcases interfere_cases h with ⟨hc,-,-⟩ | ⟨p,u,-,rfl⟩
  · rw [hs.created] at hc
    contradiction
  · exact ⟨hs.created,hs.client⟩

lemma NoInstance.counted {s : Race} (h : s.NoInstance) : s.Counted silenced := by
  intro w hw
  rw [h.client] at hw
  contradiction

/-- With the null handle nothing the rest of the operator does makes an instance. -/
theorem handOver_null_guaranteed (ec : ErrorCode) {s : Race} (hs : s.NoInstance) :
    (environment output).Guaranteed (fun _ t => t.Counted silenced) (handOver .null ec) s := by
  have hdone : ∀ out {t : Race}, t.NoInstance → (environment output).Guaranteed
      (fun (_ : Except Thrown Unit) u => u.Counted silenced) (.done out) t :=
    fun out t ht => Environment.Guaranteed.ofDone _ noInstance_stable ht fun u hu => hu.counted
  have hassign : ∀ {next : Except Thrown Unit → ServerProgram (Except Thrown Unit)} {t : Race},
      t.NoInstance → next (.error .invalidHandle) = .done (.error .invalidHandle) →
      (environment output).Guaranteed (fun _ u => u.Counted silenced)
        (.call (.assign .null) next) t := by
    intro next t ht hnext
    refine Environment.Guaranteed.ofCall _ noInstance_stable ht fun u a v hu hr => ?_
    rw [assign_null] at hr
    cases hr
    rw [hnext]
    exact hdone _ hu
  simp only [handOver,Program.ask_bind]
  split_ifs
  · exact hassign hs rfl
  · refine guaranteed_print noInstance_stable hs fun t ht => ?_
    have hnone : NoInstance { t with lastError := output t.lastError } := ⟨ht.created,ht.client⟩
    refine Environment.Guaranteed.ofCall _ noInstance_stable hnone fun u a v hu hr => ?_
    cases hr
    exact hdone _ ⟨hu.created,hu.client⟩
  · exact hassign hs rfl

/-- A pending connect: the handle is associated, then the OVERLAPPED released. -/
theorem handOver_pending_guaranteed {s : Race} (hs : s.Waiting false) :
    (environment output).Guaranteed (fun _ t => t.Counted silenced) (handOver (.pipe 0) {}) s := by
  simp only [handOver,Program.ask_bind]
  rw [if_neg (by decide)]
  refine Environment.Guaranteed.ofCall _ (waiting_stable false) hs fun t a u ht hr => ?_
  rw [assign_pipe ht.associated_eq] at hr
  cases hr
  have hserved : Waiting true { t with associated := true } := ⟨ht.served,rfl⟩
  refine Environment.Guaranteed.ofCall _ (waiting_stable true) hserved fun u a v hu hr => ?_
  cases hr
  have hreleased : Waiting true { u with ov := u.ov.release } := ⟨hu.served,hu.associated_eq⟩
  exact Environment.Guaranteed.ofDone _ (waiting_stable true) hreleased fun v hv => hv.counted

/-- The association does not reach a client that came first. -/
lemma Early.associate {s : Race} {n : ℕ} (h : s.Early false n) :
    Early true n { s with associated := true } := ⟨h.client,rfl,h.completions⟩

lemma Early.complete {s : Race} {a : Bool} (h : s.Early a 0) (ec : ErrorCode) :
    Early a 1 { s with ov := s.ov.complete ec 0 } := by
  refine ⟨h.client,h.associated_eq,?_⟩
  have hcount := h.completions
  simp only [Overlapped.completions] at hcount
  simp only [Overlapped.completions,Overlapped.complete,List.length_append,List.length_singleton]
  omega

/-- A client that came first is reported by posting a completion, unless the last error
reads as none by then and the OVERLAPPED is released instead. -/
theorem handOver_early_guaranteed (e : Dword) {s : Race} (hs : s.Early false 0) :
    (environment output).Guaranteed (fun _ t => t.Counted (e = noError))
      (handOver (.pipe 0) ⟨e⟩) s := by
  have hposted : ∀ {a : Bool} {t : Race}, t.Early a 1 → e ≠ noError →
      (environment output).Guaranteed (fun (_ : Except Thrown Unit) u => u.Counted (e = noError))
        (.done (.ok ())) t := fun ht hne =>
    Environment.Guaranteed.ofDone _ (early_stable _ 1) ht fun u hu => hu.counted (by simp [hne])
  by_cases h0 : e = noError
  · have hf : (ErrorCode.mk e).failed = false := by simp [h0,noError]
    simp only [handOver,Program.ask_bind,hf,Bool.false_eq_true,if_false]
    refine Environment.Guaranteed.ofCall _ (early_stable false 0) hs fun t a u ht hr => ?_
    rw [assign_pipe ht.associated_eq] at hr
    cases hr
    refine Environment.Guaranteed.ofCall _ (early_stable true 0) ht.associate
      fun u a v hu hr => ?_
    cases hr
    have hreleased : Early true 0 { u with ov := u.ov.release } :=
      ⟨hu.client,hu.associated_eq,hu.completions⟩
    exact Environment.Guaranteed.ofDone _ (early_stable true 0) hreleased
      fun v hv => hv.counted (by simp [h0])
  have hf : (ErrorCode.mk e).failed = true := by simpa [noError] using h0
  simp only [handOver,Program.ask_bind,hf,if_true]
  by_cases hc : e = errorPipeConnected
  · rw [if_pos hc]
    refine Environment.Guaranteed.ofCall _ (early_stable false 0) hs fun t a u ht hr => ?_
    rw [assign_pipe ht.associated_eq] at hr
    cases hr
    refine Environment.Guaranteed.ofCall _ (early_stable true 0) ht.associate
      fun u a v hu hr => ?_
    cases hr
    exact hposted (hu.complete {}) h0
  · rw [if_neg hc]
    refine guaranteed_print (early_stable false 0) hs fun t ht => ?_
    have hearly : Early false 0 { t with lastError := output t.lastError } :=
      ⟨ht.client,ht.associated_eq,ht.completions⟩
    refine Environment.Guaranteed.ofCall _ (early_stable false 0) hearly fun u a v hu hr => ?_
    cases hr
    exact hposted (hu.complete ⟨e⟩) h0

theorem acceptOperator_guaranteed (movesPipe : Bool) (endpoint : String) {s : Race}
    (hs : s.Idle) : (environment output).Guaranteed
      (fun _ t => t.Counted (output errorPipeConnected = noError))
      (acceptOperator movesPipe endpoint {}) s := by
  simp only [acceptOperator,Program.ask_bind]
  rw [if_neg (by decide)]
  refine Environment.Guaranteed.ofCall Idle idle_stable hs fun t _ u ht hr => ?_
  cases hr
  have hidle : Idle { t with ov := {} } := ⟨ht.created,ht.client,ht.associated,rfl,nofun⟩
  refine Environment.Guaranteed.bind (Environment.Guaranteed.mono ?_
    (acceptDetail2_guaranteed endpoint hidle))
  rintro ⟨hPipe,ec⟩ u (⟨rfl,hu⟩ | ⟨hout,hu⟩ | ⟨hout,hu⟩)
  · exact handOver_null_guaranteed ec ⟨hu.created,hu.client⟩
  · cases hout
    exact handOver_pending_guaranteed hu
  · cases hout
    exact handOver_early_guaranteed _ hu

def start (refusal : Option Dword) : Race := { refusal := refusal }

theorem start_idle (refusal : Option Dword) : (start refusal).Idle := ⟨rfl,rfl,rfl,rfl,nofun⟩

/-- When the operator has returned and a client is connected, exactly one completion is
queued or has been delivered if and only if the client's connect did not fall between
ConnectNamedPipe and `pipe_->assign`, and the output did not clear the last error that
reports a client who came first. -/
theorem accept_one_completion_iff (output : Dword → Dword) (o : Overload) (endpoint : String)
    (refusal : Option Dword) (ls : List (Option Other)) (out : Except Thrown Unit) (s : Race)
    (hrun : ((environment output).beside _).run (o.asyncAccept endpoint,start refusal) ls =
      some (.done out,s))
    (w : Window) (hclient : s.client = some w) :
    s.ov.completions = 1 ↔
      w ≠ .beforeAssign ∧ (w = .beforeConnect → output errorPipeConnected ≠ noError) := by
  rw [o.asyncAccept_eq] at hrun
  have hcounted : s.Counted (output errorPipeConnected = noError) :=
    (acceptOperator_guaranteed _ endpoint (start_idle refusal)).sound hrun
  exact hcounted w hclient

/-- A client that connects after the association is served once. -/
theorem accept_one_completion_iff_served :
    ({ refusal := none, lastError := errorIoPending, created := true, associated := true,
       client := some .afterAssign,
       ov := { io := .finished noError 0, handedOver := true, delivered := [⟨{},0⟩] } }
      : Race).ov.completions = 1 ↔ Window.afterAssign ≠ .beforeAssign ∧
        (Window.afterAssign = .beforeConnect → errorPipeConnected ≠ noError) :=
  accept_one_completion_iff id .byMove "" none
    [none,none,none,none,none,some .clientConnects,none,some .runHandler] (.ok ()) _ rfl _ rfl

/-- The client connects just after ConnectNamedPipe was left pending: the operator returns
with the client connected, and no completion will ever come. -/
theorem accept_loses_client : ¬∀ (o : Overload) (endpoint : String) (refusal : Option Dword)
    (ls : List (Option Other)) (out : Except Thrown Unit) (s : Race),
    ((environment id).beside _).run (o.asyncAccept endpoint,start refusal) ls =
      some (.done out,s) → s.client.isSome → s.ov.completions = 1 := by
  intro h
  have hlost := h .intoPipe "" none [none,none,none,some .clientConnects,none,none,none] (.ok ())
    _ rfl rfl
  exact absurd hlost (by decide)

end Race
end Winext
