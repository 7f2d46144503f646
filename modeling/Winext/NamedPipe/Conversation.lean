import Winext.NamedPipe.AnswerProgress
import Winext.NamedPipe.EchoClient

/-! A client beside an echo server. Between any two of its calls the threads of the server,
other clients and the system take their steps. -/
namespace Winext
open Lib Details

def errorPipeNotConnected : Dword := 233

/-- A step that the client of this instance would have to take itself. -/
def PipeServer.Act.isOwn (mine : Option ℕ) : PipeServer.Act → Bool
  | .pipe i k => k.byClient && mine == some i
  | .accept | .deliver => false

/-- The server, and the client with its pipe object: the handle it owns, the instance that
CreateFile gave it and the read mode of its end, and what the server has written there that
the client has not read. `calls` counts those that the system may fail. -/
structure Talk where
  server : EchoServer
  lastError : Dword := noError
  owner : Option ℕ := none
  mine : Option ℕ := none
  messageReadMode : Bool := false
  inbox : List (List UInt8) := []
  calls : ℕ := 0

namespace Talk

def instanceAt (s : EchoServer) (i : Option ℕ) : Option PipeInstance :=
  i.bind fun i => s.world.instances[i]?

/-- What a step has written to an instance is one message. -/
def arrived (x y : Option PipeInstance) : List (List UInt8) :=
  match x, y with
  | some x, some y =>
    match y.written.drop x.written.length with
    | [] => []
    | bytes => [bytes]
  | _, _ => []

/-- FlushFileBuffers does not let an instance be closed before its client has read all. -/
def flushes (x y : Option PipeInstance) (inbox : List (List UInt8)) : Bool :=
  match x, y with
  | some x, some y => y.closed && !x.closed && x.client == .connected && inbox.flatten != []
  | _, _ => false

section Environment
variable (threads : ℕ) (output : Dword → Dword) (o : Overload) (endpoint : String)
variable (faults : ℕ → Option Dword)

/-- The object lets go of its handle, and the client leaves. -/
def letGo (s : Talk) : Talk :=
  match s.owner with
  | some i =>
    { s with
      server := ((EchoServer.machine threads output o endpoint).step s.server
        (.pipe i .clientDisconnects)).getD s.server
      owner := none }
  | none => s

def failing (s : Talk) (error : Dword) : Talk :=
  { s with lastError := error, calls := s.calls + 1 }

/-- Any call to the system may fail. A wait ends when there is an instance to connect to. -/
def performClient : (c : ClientCall) → Talk → Option (c.Answer × Talk)
  | .createFile _ _, s =>
    match faults s.calls, s.server.world.createFile with
    | some error, _ | none, .error error => some (.invalidHandleValue,s.failing error)
    | none, .ok i =>
      ((EchoServer.machine threads output o endpoint).step s.server (.pipe i .clientConnects)).map fun t =>
        (.pipe i,{ s with
          server := t, mine := some i, messageReadMode := false, inbox := [], calls := s.calls + 1 })
  | .getLastError, s => some (s.lastError,s)
  | .waitNamedPipe _ _, s =>
    match faults s.calls, s.server.world.createFile with
    | some error, _ => some (false,s.failing error)
    | none, .ok _ => some (true,{ s with calls := s.calls + 1 })
    | none, .error _ => none
  | .print _, s => some ((),{ s with lastError := output s.lastError })
  | .setNamedPipeHandleState _ messageReadMode, s =>
    match faults s.calls with
    | some error => some (false,s.failing error)
    | none => some (true,{ s with messageReadMode := messageReadMode, calls := s.calls + 1 })
  | .isOpen, s => some (s.owner.isSome,s)
  | .close, s => some ((),s.letGo threads output o endpoint)
  | .assign hPipe, s =>
    match s.owner, hPipe with
    | some _, _ => some (.error .alreadyOpen,s)
    | none, .pipe i => some (.ok (),{ s with owner := some i })
    | none, _ => some (.error .invalidHandle,s)

/-- WriteFile writes a message, where the server has not closed its end. ReadFile waits for
the next one, and gives of it what fits. -/
def perform : (c : TalkCall) → Talk → Option (c.Answer × Talk)
  | .connect c, s => performClient threads output o endpoint faults c s
  | .writeSome bytes, s =>
    match faults s.calls, s.owner with
    | some error, _ => some ((⟨error⟩,0),s.failing error)
    | none, none => some ((⟨errorInvalidHandle⟩,0),s)
    | none, some i =>
      match (EchoServer.machine threads output o endpoint).step s.server (.pipe i (.clientWrites bytes)) with
      | some t => some (({},bytes.length),{ s with server := t, calls := s.calls + 1 })
      | none => some ((⟨errorPipeNotConnected⟩,0),s.failing errorPipeNotConnected)
  | .readSome size, s =>
    match faults s.calls, s.owner with
    | some error, _ => some ((⟨error⟩,[]),s.failing error)
    | none, none => some ((⟨errorInvalidHandle⟩,[]),s)
    | none, some i =>
      match readQueue s.messageReadMode size s.inbox with
      | some (bytes,more,rest) =>
        some ((⟨if more then errorMoreData else noError⟩,bytes),
          { s with inbox := rest, calls := s.calls + 1 })
      | none =>
        if (s.server.world.instances[i]?.map PipeInstance.closed) = some true then
          some ((⟨errorPipeNotConnected⟩,[]),s.failing errorPipeNotConnected)
        else none
  | .destroy, s => some ((),s.letGo threads output o endpoint)

/-- All that happens beside the client. -/
def interfere (s : Talk) (l : PipeServer.Act) : Option Talk :=
  if l.isOwn s.mine then none
  else ((EchoServer.machine threads output o endpoint).step s.server l).bind fun t =>
    let before := instanceAt s.server s.mine
    let after := instanceAt t s.mine
    if flushes before after s.inbox then none
    else some { s with server := t, inbox := s.inbox ++ arrived before after }

def others : Machine Talk PipeServer.Act := ⟨interfere threads output o endpoint⟩

/-- The calls of `connect` alone, beside the server. -/
def clientEnvironment : Environment ClientCall ClientCall.Answer Talk PipeServer.Act :=
  ⟨performClient threads output o endpoint faults,interfere threads output o endpoint⟩

def environment : Environment TalkCall TalkCall.Answer Talk PipeServer.Act :=
  ⟨perform threads output o endpoint faults,interfere threads output o endpoint⟩

end Environment

/-- The system fails none of the client's calls. -/
def Faultless (faults : ℕ → Option Dword) : Prop := ∀ n, faults n = none

/-- The client has not connected, and no instance without a client has been written to. -/
structure Before (s : Talk) : Prop where
  answering : s.server.Answering
  fresh : ∀ x ∈ s.server.world.instances, x.client = .absent → x.sent = []
  owner : s.owner = none
  mine : s.mine = none

/-- The client's instance: the messages it has written, what it has read, and what waits. -/
structure At (s : Talk) (i : ℕ) (sent : List (List UInt8)) (got : List UInt8) : Prop where
  answering : s.server.Answering
  mine : s.mine = some i
  here : ∃ x, s.server.world.instances[i]? = some x ∧ x.client = .connected ∧ x.sent = sent ∧
    x.written = got ++ s.inbox.flatten
  nonempty : ∀ m ∈ s.inbox, m ≠ []

/-- The object owns the handle of that instance. -/
def Owns (s : Talk) (i : ℕ) (sent : List (List UInt8)) (got : List UInt8) : Prop :=
  s.At i sent got ∧ s.owner = some i

/-- The server has closed the client's instance, to which no longer message was written. -/
def Shut (s : Talk) (bound : ℕ) : Prop :=
  ∃ i x, s.mine = some i ∧ s.server.world.instances[i]? = some x ∧ x.closed = true ∧
    ∀ m ∈ x.sent, m.length ≤ bound

section Stable
variable {threads : ℕ} {output : Dword → Dword} {o : Overload} {endpoint : String}
variable {faults : ℕ → Option Dword} {s t : Talk} {l : PipeServer.Act} {i : ℕ}
variable {sent : List (List UInt8)} {got : List UInt8}

/-- All that a step beside the client can be. -/
theorem interfere_cases (h : s.interfere threads output o endpoint l = some t) :
    l.isOwn s.mine = false ∧
      ∃ u, (EchoServer.machine threads output o endpoint).step s.server l = some u ∧
        t = { s with
          server := u
          inbox := s.inbox ++ arrived (instanceAt s.server s.mine) (instanceAt u s.mine) } := by
  unfold interfere at h
  split_ifs at h with hown
  obtain ⟨u,hu,h⟩ := Option.bind_eq_some_iff.mp h
  refine ⟨by simpa using hown,u,hu,?_⟩
  dsimp only at h
  split_ifs at h
  cases h
  rfl

lemma untouched_loopStable : LoopStable fun x => x.client = .absent → x.sent = [] where
  created _ _ := rfl
  makeSession _ _ h := h
  startSession _ _ h := h
  dropSession x h := by
    unfold PipeInstance.dropSession
    split <;> exact h
  close _ h := h

lemma untouched_step {k : PipeStep} {x y : PipeInstance} (h : x.client = .absent → x.sent = [])
    (hy : PipeInstance.step k x = some y) : y.client = .absent → y.sent = [] := by
  intro habsent
  cases hk : k.byClient with
  | false =>
    obtain ⟨hsent,hclient,-⟩ := PipeInstance.step_of_others hk hy
    rw [hsent]
    exact h (hclient.elim (fun he => he ▸ habsent) id)
  | true =>
    cases k with
    | clientWrites message =>
      simp only [PipeInstance.step] at hy
      split_ifs at hy with hc
      cases hy
      rw [habsent] at hc
      cases hc.1
    | clientDisconnects =>
      simp only [PipeInstance.step] at hy
      split_ifs at hy
      cases hy
      cases habsent
    | clientConnects | readEnds | writes | fails | runHandler => cases hk

/-- What arrives is what was written, in a message that is not empty. -/
lemma arrived_eq {x y : PipeInstance} {bytes : List UInt8} (h : y.written = x.written ++ bytes) :
    (arrived (some x) (some y)).flatten = bytes ∧ ∀ m ∈ arrived (some x) (some y), m ≠ [] := by
  unfold arrived
  simp only [h,List.drop_left]
  cases bytes with
  | nil => exact ⟨rfl,by simp⟩
  | cons => exact ⟨List.flatten_singleton,by simp⟩

lemma Before.server {u : EchoServer} (h : s.Before)
    (hu : (EchoServer.machine threads output o endpoint).step s.server l = some u) :
    Before { s with server := u } where
  answering := EchoServer.step_answering s.server l u h.answering hu
  fresh := PipeServer.loopStable_step untouched_loopStable h.answering.tidy h.fresh
    (fun _ _ _ _ _ _ hx hy => untouched_step hx hy) hu
  owner := h.owner
  mine := h.mine

theorem before_stable : (others threads output o endpoint).Preserves Before := by
  intro s l t h hstep
  obtain ⟨-,u,hu,rfl⟩ := interfere_cases hstep
  exact ⟨(h.server hu).answering,(h.server hu).fresh,h.owner,h.mine⟩

/-- What happens beside the client adds at most to what it can read. -/
theorem at_stable (i : ℕ) (sent : List (List UInt8)) (got : List UInt8) :
    (others threads output o endpoint).Preserves fun s => s.At i sent got := by
  intro s l t h hstep
  obtain ⟨hown,u,hu,rfl⟩ := interfere_cases hstep
  obtain ⟨x,hx,hclient,hsent,hwritten⟩ := h.here
  obtain ⟨y,hy,hxy⟩ := PipeServer.frame_step PipeInstance.bytes_loopFrame hu hx
  have hsame : y.client = .connected ∧ y.sent = x.sent ∧
      ∃ bytes, y.written = x.written ++ bytes := by
    obtain ⟨hclient',hsent',-,hwritten',-⟩ | ⟨k,rfl,hxy⟩ := hxy
    · exact ⟨hclient'.trans hclient,hsent',[],by rw [hwritten',List.append_nil]⟩
    · have hk : k.byClient = false := by simpa [PipeServer.Act.isOwn,h.mine] using hown
      obtain ⟨hsent',hclient',hmore⟩ := PipeInstance.step_of_others hk hxy
      rw [hclient] at hclient'
      exact ⟨hclient'.resolve_right (by decide),hsent',hmore⟩
  obtain ⟨hclient',hsent',bytes,hmore⟩ := hsame
  have hbefore : instanceAt s.server s.mine = some x := by rw [h.mine]; exact hx
  have hafter : instanceAt u s.mine = some y := by rw [h.mine]; exact hy
  obtain ⟨hflatten,hnonempty⟩ := arrived_eq hmore
  refine ⟨EchoServer.step_answering s.server l u h.answering hu,h.mine,
    ⟨y,hy,hclient',hsent'.trans hsent,?_⟩,fun m hm => ?_⟩
  · rw [hbefore,hafter,hmore,hwritten,List.flatten_append,hflatten,List.append_assoc]
  · rw [hbefore,hafter] at hm
    exact (List.mem_append.mp hm).elim (h.nonempty m) (hnonempty m)

theorem owns_stable (i : ℕ) (sent : List (List UInt8)) (got : List UInt8) :
    (others threads output o endpoint).Preserves fun s => s.Owns i sent got := by
  intro s l t h hstep
  have hat := at_stable i sent got s l t h.1 hstep
  obtain ⟨-,u,-,rfl⟩ := interfere_cases hstep
  exact ⟨hat,h.2⟩

/-- What is closed stays so, and nothing is written to it. -/
lemma closed_server {u v : EchoServer} {x : PipeInstance}
    (hx : u.world.instances[i]? = some x) (hclosed : x.closed = true)
    (hstep : (EchoServer.machine threads output o endpoint).step u l = some v) :
    ∃ y, v.world.instances[i]? = some y ∧ y.closed = true ∧ y.sent = x.sent := by
  obtain ⟨y,hy,⟨-,hsent,-,-,hkept⟩ | ⟨k,-,hxy⟩⟩ :=
    PipeServer.frame_step PipeInstance.bytes_loopFrame hstep hx
  · exact ⟨y,hy,hkept hclosed,hsent⟩
  · refine ⟨y,hy,(PipeInstance.closed_step hxy).mpr (Or.inl hclosed),?_⟩
    cases hk : k.byClient with
    | false => exact (PipeInstance.step_of_others hk hxy).1
    | true =>
      cases k with
      | clientWrites message => simp [PipeInstance.step,hclosed] at hxy
      | clientDisconnects =>
        simp only [PipeInstance.step] at hxy
        split_ifs at hxy
        cases hxy
        rfl
      | clientConnects | readEnds | writes | fails | runHandler => cases hk

theorem shut_stable (bound : ℕ) :
    (others threads output o endpoint).Preserves fun s => s.Shut bound := by
  rintro s l t ⟨i,x,hmine,hx,hclosed,hsent⟩ hstep
  obtain ⟨-,u,hu,rfl⟩ := interfere_cases hstep
  obtain ⟨y,hy,hclosed,hsame⟩ := closed_server hx hclosed hu
  exact ⟨i,y,hmine,hy,hclosed,hsame ▸ hsent⟩

lemma mine_stable (mine : Option ℕ) :
    (others threads output o endpoint).Preserves fun s => s.mine = mine := by
  intro s l t h hstep
  obtain ⟨-,u,-,rfl⟩ := interfere_cases hstep
  exact h

lemma trivial_stable : (others threads output o endpoint).Preserves fun _ => True :=
  fun _ _ _ _ _ => trivial

lemma Before.congr (h : s.Before) (hserver : t.server = s.server) (howner : t.owner = s.owner)
    (hmine : t.mine = s.mine) : t.Before :=
  ⟨hserver ▸ h.answering,hserver ▸ h.fresh,howner.trans h.owner,hmine.trans h.mine⟩

lemma At.congr (h : s.At i sent got) (hserver : t.server = s.server) (hmine : t.mine = s.mine)
    (hinbox : t.inbox = s.inbox) : t.At i sent got :=
  ⟨hserver ▸ h.answering,hmine.trans h.mine,by rw [hserver,hinbox]; exact h.here,
    hinbox ▸ h.nonempty⟩

end Stable
end Talk
end Winext
