import Winext.NamedPipe.Replies

/-! A client that is connected can get its reply, whatever has happened so far, while the server
can accept and nothing has failed. -/
namespace Winext
open Lib Details

namespace Talk
open EchoClient
variable {threads : ℕ} {output : Dword → Dword} {o : Overload} {endpoint : String}
variable {faults : ℕ → Option Dword} {s t : Talk} {i : ℕ} {l : PipeServer.Act}
variable {msg : List UInt8} {sent : List (List UInt8)} {got : List UInt8}

/-- The client stays at its instance, and at most writes to an instance or leaves one. -/
def Stays (threads : ℕ) (output : Dword → Dword) (o : Overload) (endpoint : String)
    (s t : Talk) : Prop :=
  t.mine = s.mine ∧ (t.server = s.server ∨ ∃ j k, k.byClient = true ∧
    (EchoServer.machine threads output o endpoint).step s.server (.pipe j k) = some t.server)

lemma stays_letGo : s.Stays threads output o endpoint (s.letGo threads output o endpoint) := by
  refine ⟨letGo_mine,?_⟩
  unfold letGo
  split
  · rename_i j _
    cases hstep : (EchoServer.machine threads output o endpoint).step s.server
      (.pipe j .clientDisconnects) with
    | none => exact Or.inl rfl
    | some u => exact Or.inr ⟨j,_,rfl,hstep⟩
  · exact Or.inl rfl

lemma performClient_cases {c : ClientCall} {a : c.Answer}
    (hr : performClient threads output o endpoint faults c s = some (a,t)) :
    s.Stays threads output o endpoint t ∨ ∃ name settings j, c = .createFile name settings ∧
      (EchoServer.machine threads output o endpoint).step s.server (.pipe j .clientConnects) =
        some t.server := by
  cases c with
  | createFile name settings =>
    simp only [performClient] at hr
    split at hr
    · cases hr
      exact Or.inl ⟨rfl,Or.inl rfl⟩
    · cases hr
      exact Or.inl ⟨rfl,Or.inl rfl⟩
    · obtain ⟨u,hu,hr⟩ := Option.map_eq_some_iff.mp hr
      cases hr
      exact Or.inr ⟨_,_,_,rfl,hu⟩
  | waitNamedPipe | setNamedPipeHandleState | assign =>
    simp only [performClient] at hr
    split at hr <;> cases hr <;> exact Or.inl ⟨rfl,Or.inl rfl⟩
  | close =>
    cases hr
    exact Or.inl stays_letGo
  | getLastError | print | isOpen =>
    cases hr
    exact Or.inl ⟨rfl,Or.inl rfl⟩

/-- What a call of the client does to the server is nothing, or one step of its own there. -/
theorem perform_cases {c : TalkCall} {a : c.Answer}
    (hr : (environment threads output o endpoint faults).perform c s = some (a,t)) :
    s.Stays threads output o endpoint t ∨
      ∃ name settings j, c = .connect (.createFile name settings) ∧
        (EchoServer.machine threads output o endpoint).step s.server (.pipe j .clientConnects) =
          some t.server := by
  cases c with
  | connect c =>
    refine (performClient_cases hr).imp_right ?_
    rintro ⟨name,settings,j,rfl,hstep⟩
    exact ⟨name,settings,j,rfl,hstep⟩
  | writeSome bytes =>
    simp only [environment,perform] at hr
    split at hr
    · cases hr
      exact Or.inl ⟨rfl,Or.inl rfl⟩
    · cases hr
      exact Or.inl ⟨rfl,Or.inl rfl⟩
    · split at hr
      · rename_i u hu
        cases hr
        exact Or.inl ⟨rfl,Or.inr ⟨_,_,rfl,hu⟩⟩
      · cases hr
        exact Or.inl ⟨rfl,Or.inl rfl⟩
  | readSome size =>
    simp only [environment,perform] at hr
    split at hr
    · cases hr
      exact Or.inl ⟨rfl,Or.inl rfl⟩
    · cases hr
      exact Or.inl ⟨rfl,Or.inl rfl⟩
    · split at hr
      · cases hr
        exact Or.inl ⟨rfl,Or.inl rfl⟩
      · split_ifs at hr
        cases hr
        exact Or.inl ⟨rfl,Or.inl rfl⟩
  | destroy =>
    cases hr
    exact Or.inl stays_letGo

/-- What no step of the server breaks holds of it beside a client. -/
theorem server_preserves {J : EchoServer → Prop} {α : Type}
    (hJ : (EchoServer.machine threads output o endpoint).Preserves J) :
    ((environment threads output o endpoint faults).beside α).Preserves
      fun cfg => J cfg.2.server := by
  rintro ⟨p,s⟩ l ⟨q,t⟩ h hstep
  cases l with
  | some l =>
    simp only [Environment.beside,Option.map_eq_some_iff,Prod.mk.injEq] at hstep
    obtain ⟨u,hu,rfl,rfl⟩ := hstep
    obtain ⟨-,v,hv,rfl⟩ := interfere_cases hu
    exact hJ _ l v h hv
  | none =>
    cases p with
    | done a => simp [Environment.beside] at hstep
    | call c next =>
      simp only [Environment.beside,Option.map_eq_some_iff,Prod.mk.injEq] at hstep
      obtain ⟨⟨a,u⟩,hr,rfl,rfl⟩ := hstep
      obtain ⟨-,hsame | ⟨j,k,-,hl⟩⟩ | ⟨_,_,j,-,hl⟩ := perform_cases hr
      · simp only [hsame]
        exact h
      · exact hJ _ _ _ h hl
      · exact hJ _ _ _ h hl

/-- The server is ready, and the session at the client's instance has not failed. -/
structure Served (output : Dword → Dword) (o : Overload) (i : ℕ) (s : Talk) : Prop where
  ready : s.server.Ready output o
  mine : s.mine = some i
  unfailed : ∃ x, s.server.world.instances[i]? = some x ∧ x.failed = false

lemma Served.congr (h : s.Served output o i) (hserver : t.server = s.server)
    (hmine : t.mine = s.mine) : t.Served output o i :=
  ⟨hserver ▸ h.ready,hmine.trans h.mine,hserver ▸ h.unfailed⟩

lemma isOwn_of_byServer (mine : Option ℕ) (hl : l.byServer = true) : l.isOwn mine = false := by
  cases l with
  | accept | deliver => rfl
  | pipe j k => cases k <;> first | rfl | cases hl

lemma arrived_of_quiet {u v : EchoServer} (h : v.writtenAt i = u.writtenAt i) :
    arrived (instanceAt u (some i)) (instanceAt v (some i)) = [] := by
  unfold EchoServer.writtenAt at h
  simp only [instanceAt,Option.bind_some]
  cases hu : u.world.instances[i]? with
  | none => rfl
  | some x =>
    cases hv : v.world.instances[i]? with
    | none => rfl
    | some y =>
      rw [hu,hv,Option.map_some,Option.map_some,Option.some.injEq] at h
      simp only [arrived,h,List.drop_length]

/-- A client that has read all that was written holds up no step of the server. -/
lemma interfere_of_step {u : EchoServer} (hinbox : s.inbox.flatten = []) (hl : l.byServer = true)
    (hu : (EchoServer.machine threads output o endpoint).step s.server l = some u) :
    s.interfere threads output o endpoint l = some { s with
      server := u
      inbox := s.inbox ++ arrived (instanceAt s.server s.mine) (instanceAt u s.mine) } := by
  have hflushes : flushes (instanceAt s.server s.mine) (instanceAt u s.mine) s.inbox = false := by
    unfold flushes
    split
    · simp [hinbox]
    · rfl
  simp only [interfere,isOwn_of_byServer s.mine hl,hu,Option.bind_some,hflushes]
  rfl

/-- Quiet steps of the server are steps beside the client. -/
lemma quiet_run {ls : List PipeServer.Act} {u : EchoServer} (hmine : s.mine = some i)
    (hinbox : s.inbox.flatten = [])
    (hrun : (EchoServer.machine threads output o endpoint).run s.server ls = some u)
    (hquiet : (EchoServer.machine threads output o endpoint).Along
      (EchoServer.Quiet threads output o endpoint i) s.server ls) :
    (others threads output o endpoint).run s ls = some { s with server := u } := by
  induction ls generalizing s with
  | nil =>
    cases hrun
    rfl
  | cons l ls ih =>
    obtain ⟨v,hv,hrest⟩ := Machine.run_cons_iff _ |>.mp hrun
    obtain ⟨⟨⟨hl,-⟩,hsame⟩,hquiet⟩ := (Machine.along_cons hv).mp hquiet
    have harrived : arrived (instanceAt s.server s.mine) (instanceAt v s.mine) = [] := by
      rw [hmine]
      exact arrived_of_quiet (hsame v hv)
    have hstep := interfere_of_step hinbox hl hv
    rw [harrived,List.append_nil] at hstep
    refine (Machine.run_cons_iff _).mpr ⟨_,hstep,?_⟩
    exact ih (s := { s with server := v }) hmine hinbox hrest hquiet

section Output
variable (hconnected : output errorPipeConnected = errorPipeConnected)
variable (hnoData : output errorNoData = errorNoData)
include hconnected hnoData

/-- The client's own calls leave its session as it is. -/
lemma Served.perform (h : s.Served output o i) (ht : s.Stays threads output o endpoint t) :
    t.Served output o i := by
  obtain ⟨hmine,hsame | ⟨j,k,hk,hstep⟩⟩ := ht
  · exact h.congr hsame hmine
  · have hmiss : ¬s.server.Misses (.pipe j k) := by
      rintro ⟨rfl,-⟩
      cases hk
    refine ⟨h.ready.step hconnected hnoData hmiss hstep,hmine.trans h.mine,?_⟩
    obtain ⟨x,hx,hfailed⟩ := h.unfailed
    obtain ⟨y,hy,⟨-,-,hsame,-⟩ | ⟨k',hl,hxy⟩⟩ :=
      PipeServer.frame_step PipeInstance.bytes_loopFrame hstep hx
    · exact ⟨y,hy,hsame.trans hfailed⟩
    · cases hl
      refine ⟨y,hy,?_⟩
      cases k with
      | clientWrites | clientDisconnects =>
        simp only [PipeInstance.step] at hxy
        split_ifs at hxy
        cases hxy
        exact hfailed
      | clientConnects | readEnds | writes | fails | runHandler => cases hk

/-- The server comes to write to a client that has read all that it has written so far. -/
lemma Served.comes (h : s.Served output o i) (hthreads : 0 < threads) (hat : s.At i sent got)
    (hwriting : Writing msg [] sent) (hfits : msg.length ≤ maxLength)
    (hless : got.length < msg.length) (hinbox : s.inbox.flatten = []) :
    ∃ ls t, (others threads output o endpoint).run s ls = some t ∧ t.Served output o i ∧
      t.inbox.flatten ≠ [] := by
  obtain ⟨x,hx,hclient,hsent,hwritten⟩ := hat.here
  obtain ⟨y,hy,hfailed⟩ := h.unfailed
  cases hx.symm.trans hy
  -- all its messages fit, so there is more to write
  have hall : sent.flatten = msg := by simpa using hwriting.all
  have hshort : ∀ m ∈ sent, fits m = true := fun m hm =>
    fits_iff.mpr ((hwriting.length_le.1 m hm).trans hfits)
  have hanswerable : x.answerable.flatten = msg := by
    rw [PipeInstance.answerable,hsent,List.takeWhile_eq_self_iff.mpr hshort,hall]
  rw [hinbox,List.append_nil] at hwritten
  have hmore : x.written ≠ x.answerable.flatten := by
    rw [hanswerable,hwritten]
    rintro rfl
    exact Nat.lt_irrefl _ hless
  have hwrites : s.server.Writes threads output o endpoint i :=
    h.ready.writes hconnected hnoData hthreads hx hclient hfailed hmore
  obtain ⟨ls,u,l,v,hu,hquiet,hl,hv,written,bytes,hbefore,hbytes,hafter⟩ := hwrites
  have hserver : ∀ l' ∈ ls ++ [l], l'.byServer = true := by
    simpa [hl.1,or_imp,forall_and] using
      EchoServer.byServer_of_gentle hu (EchoServer.gentle_of_quiet hu hquiet)
  have hrun : (EchoServer.machine threads output o endpoint).run s.server (ls ++ [l]) = some v :=
    Machine.run_append _ hu (by simp [Machine.run,hv])
  obtain ⟨z,hz,honward⟩ := EchoServer.run_onward hserver hrun hx
  have hlast := interfere_of_step (s := { s with server := u }) hinbox hl.1 hv
  refine ⟨ls ++ [l],_,Machine.run_append _ (quiet_run h.mine hinbox hu hquiet)
    ((Machine.run_cons_iff _).mpr ⟨_,hlast,rfl⟩),
    ⟨h.ready.run hconnected hnoData hserver hrun,h.mine,z,hz,honward.failed.trans hfailed⟩,?_⟩
  have hsame := EchoServer.writtenAt_of_quiet hu hquiet
  rw [hbefore] at hsame
  obtain ⟨a,ha,hawritten⟩ := Option.map_eq_some_iff.mp hsame
  obtain ⟨b,hb,hbwritten⟩ := Option.map_eq_some_iff.mp hafter
  have harrived := (arrived_eq (x := a) (y := b) (by rw [hbwritten,hawritten])).1
  simp only [h.mine,instanceAt,Option.bind_some,ha,hb,List.flatten_append,hinbox,List.nil_append,
    harrived]
  exact hbytes

/-- Every call of a client that is connected is answered, after steps of the server if need be. -/
lemma Served.calls {c : TalkCall} (h : s.Served output o i) (hthreads : 0 < threads)
    (hfaultless : Faultless faults) (hfits : msg.length ≤ maxLength) (hA : asserts msg c s) :
    ∃ ls t r, (environment threads output o endpoint faults).alone.run s ls = some t ∧
      (environment threads output o endpoint faults).perform c t = some r ∧
      r.2.Served output o i := by
  have hanswered : ∀ {t : Talk} {r : c.Answer × Talk}, t.Served output o i →
      (environment threads output o endpoint faults).perform c t = some r →
      (∀ name settings, c ≠ .connect (.createFile name settings)) → r.2.Served output o i := by
    intro t r ht hr hc
    obtain hstays | ⟨name,settings,_,rfl,-⟩ := perform_cases hr
    · exact ht.perform hconnected hnoData hstays
    · exact absurd rfl (hc name settings)
  have hat_once : ((environment threads output o endpoint faults).perform c s).isSome →
      (∀ name settings, c ≠ .connect (.createFile name settings)) →
      ∃ ls t r, (environment threads output o endpoint faults).alone.run s ls = some t ∧
        (environment threads output o endpoint faults).perform c t = some r ∧
        r.2.Served output o i := by
    intro hsome hc
    obtain ⟨r,hr⟩ := Option.isSome_iff_exists.mp hsome
    exact ⟨[],s,r,rfl,hr,hanswered h hr hc⟩
  cases c with
  | connect c =>
    cases c with
    | createFile | waitNamedPipe => cases h.mine.symm.trans hA
    | getLastError | print | isOpen | close => exact hat_once rfl (by simp)
    | setNamedPipeHandleState h' mode =>
      refine hat_once ?_ (by simp)
      simp [environment,Talk.perform,performClient,hfaultless s.calls]
    | assign h' =>
      refine hat_once ?_ (by simp)
      simp only [environment,Talk.perform,performClient]
      split <;> rfl
  | writeSome bytes =>
    refine hat_once ?_ (by simp)
    simp only [environment,Talk.perform,hfaultless s.calls]
    split
    · rfl
    · rfl
    · split <;> rfl
  | destroy => exact hat_once rfl (by simp)
  | readSome size =>
    obtain ⟨hsize,j,sent,got,hwriting,howns,hless⟩ := hA
    cases h.mine.symm.trans howns.1.mine
    have hgot : got.length < msg.length := hless.trans_le (Nat.min_le_left _ _)
    obtain ⟨ls,t,hrun,hserved,hinbox⟩ : ∃ ls t, (others threads output o endpoint).run s ls = some t ∧
        t.Served output o i ∧ t.inbox.flatten ≠ [] := by
      by_cases hinbox : s.inbox.flatten = []
      · exact h.comes hconnected hnoData hthreads howns.1 hwriting hfits hgot hinbox
      · exact ⟨[],s,rfl,h,hinbox⟩
    have htowns := (owns_stable i sent got).run hrun howns
    obtain ⟨r,hr⟩ : ∃ r, (environment threads output o endpoint faults).perform (.readSome size) t =
        some r := by
      simp only [environment,Talk.perform,hfaultless t.calls,htowns.2]
      cases hread : readQueue t.messageReadMode size t.inbox with
      | none => exact absurd (readQueue_eq_none hread) hinbox
      | some out => exact ⟨_,rfl⟩
    exact ⟨ls,t,r,hrun,hr,hanswered hserved hr (by simp)⟩

/-- Its instance is not closed. -/
lemma Served.not_shut (h : s.Served output o i) {bound : ℕ} (hbound : bound ≤ maxLength) :
    ¬s.Shut bound := by
  rintro ⟨j,x,hmine,hx,hclosed,hsent⟩
  cases h.mine.symm.trans hmine
  obtain ⟨y,hy,hfailed⟩ := h.unfailed
  cases hx.symm.trans hy
  obtain hf | hmore := h.ready.closed hconnected hnoData hx hclosed
  · rw [hfailed] at hf
    cases hf
  · refine hmore (List.takeWhile_eq_self_iff.mpr fun m hm => ?_)
    exact fits_iff.mpr ((hsent m hm).trans hbound)

/-- However the calls of a client have been interleaved with everything else: once it is
connected, it can still come to its reply, as long as the server can accept, no operation of its
session has failed, and nothing hinders the client. -/
theorem reply_possible (hthreads : 0 < threads) (c : Client) {turns : ℕ} {lastError : Dword}
    (hun : Unhindered faults c.message turns) {before : List PipeServer.Act} {u : EchoServer}
    (hserver : (EchoServer.machine threads output o endpoint).run (.start o endpoint) before =
      some u) {ls : List (Option PipeServer.Act)} {p : TalkProgram (Option Outcome)}
    (hrun : ((environment threads output o endpoint faults).beside _).run
      (c.program turns lastError,{ server := u, lastError := lastError }) ls = some (p,t))
    {x : PipeInstance} (hmine : t.mine = some i) (hx : t.server.world.instances[i]? = some x)
    (hfailed : x.failed = false) (hcan : t.server.CanAccept threads output o endpoint) :
    ∃ ms v, ((environment threads output o endpoint faults).beside _).run (p,t) ms =
      some (.done (some (.replied c.message)),v) := by
  have hsound : u.Sound output o :=
    (EchoServer.step_sound hconnected hnoData).run hserver (EchoServer.start_sound hconnected hnoData)
  have htsound : t.server.Sound output o :=
    (server_preserves (EchoServer.step_sound hconnected hnoData)).run hrun hsound
  have houtline : (environment threads output o endpoint faults).Outlined (asserts c.message)
      (Replied faults c.message turns) p t :=
    Environment.Outlined.step.run hrun
      (program_outlined c turns lastError (before_of_run hserver lastError))
  obtain ⟨ms,r,v,hms,hserved,hreplied⟩ := houtline.returns
    (I := Served output o i)
    (fun c s hA hs => hs.calls hconnected hnoData hthreads hun.faultless hun.fits hA)
    ⟨htsound.ready hconnected hnoData hcan,hmine,x,hx,hfailed⟩
  obtain hshut | rfl := hreplied.unhindered hun (by rw [hserved.mine]; exact Option.some_ne_none i)
  · exact absurd hshut (hserved.not_shut hconnected hnoData hun.fits)
  · exact ⟨ms,v,hms⟩

end Output

/-- The client has been connected, and nothing more has happened. -/
theorem reply_possible_connected : ∃ u p t ms v,
    (EchoServer.machine 1 id .intoPipe "").run (.start .intoPipe "")
      (List.replicate 6 .accept) = some u ∧
    ((environment 1 id .intoPipe "" fun _ => none).beside _).run
      ((Client.test [104,105]).program 3 0,{ server := u, lastError := 0 })
      (List.replicate 2 none) = some (p,t) ∧
    ((environment 1 id .intoPipe "" fun _ => none).beside _).run (p,t) ms =
      some (.done (some (.replied [104,105])),v) := by
  have hstate : (((EchoServer.machine 1 id .intoPipe "").run (.start .intoPipe "")
      (List.replicate 6 .accept)).bind fun u =>
        (((environment 1 id .intoPipe "" fun _ => none).beside _).run
          ((Client.test [104,105]).program 3 0,{ server := u, lastError := 0 })
          (List.replicate 2 none)).bind fun r => (r.2.server.world.instances[0]?.bind fun x =>
            ((EchoServer.machine 1 id .intoPipe "").step r.2.server .deliver).map fun _ =>
              (r.2.mine,x.failed))) = some (some 0,false) := by
    decide +kernel
  obtain ⟨u,hu,hstate⟩ := Option.bind_eq_some_iff.mp hstate
  obtain ⟨⟨p,t⟩,hrun,hstate⟩ := Option.bind_eq_some_iff.mp hstate
  obtain ⟨x,hx,hstate⟩ := Option.bind_eq_some_iff.mp hstate
  obtain ⟨w,hw,hvalues⟩ := Option.map_eq_some_iff.mp hstate
  obtain ⟨hmine,hfailed⟩ := Prod.mk.inj hvalues
  obtain ⟨ms,v,hms⟩ := reply_possible rfl rfl Nat.one_pos (.test [104,105])
    ⟨fun _ => rfl,by decide,by decide⟩ hu hrun hmine hx hfailed ⟨[],_,w,rfl,hw⟩
  exact ⟨u,p,t,ms,v,hu,hrun,hms⟩

end Talk
end Winext
