import Winext.NamedPipe.Answers
import Winext.NamedPipe.EchoCoro

/-! What the clients of `echoserver_coro` have back, and what becomes of their instances. An
`echo` reads and writes as a session does, and `listener` makes the calls of an accept loop. -/
namespace Winext
open Lib Details

/-- `listener` makes only the calls that an accept loop may make. -/
theorem listenerAccept_careful (endpoint : String) :
    LoopProgram.Careful {} (listenerAccept endpoint) :=
  Program.Within.bind ((doAccept_careful .byMove endpoint).mono fun _ _ hstarted => hstarted)

theorem listener_careful (endpoint : String) (ec : ErrorCode) :
    LoopProgram.Careful {} (listener endpoint ec) := by
  cases hec : ec.failed with
  | true =>
    simp only [listener,hec]
    exact ⟨trivial,fun _ => rfl⟩
  | false =>
    simp only [listener,hec]
    exact ⟨rfl,fun _ => ⟨rfl,fun _ => ⟨rfl,fun _ => ⟨trivial,fun _ =>
      listenerAccept_careful endpoint⟩⟩⟩⟩

theorem listenerAccept_messageMode (endpoint : String) :
    (listenerAccept endpoint).All LoopCall.MessageMode :=
  Program.All.bind (LoopProgram.ofServer_messageMode (asyncAccept_messageMode .byMove endpoint))
    fun _ => trivial

theorem listener_messageMode (endpoint : String) (ec : ErrorCode) :
    (listener endpoint ec).All LoopCall.MessageMode := by
  cases hec : ec.failed with
  | true =>
    simp only [listener,hec]
    exact ⟨trivial,fun _ => trivial⟩
  | false =>
    simp only [listener,hec]
    exact ⟨trivial,fun _ => ⟨trivial,fun _ => ⟨trivial,fun _ => ⟨trivial,fun _ =>
      listenerAccept_messageMode endpoint⟩⟩⟩⟩

namespace EchoCoro
open PipeServer
variable {output : Dword → Dword} {endpoint : String} {t : EchoCoro}

theorem start_answering : (start endpoint).Answering :=
  ⟨⟨{},EchoWorld.owned_start,listenerAccept_careful endpoint⟩,by simp [start],
    listenerAccept_messageMode endpoint,by simp [start]⟩

/-- Whatever else happens, a client has back its messages before the first that is longer than
the buffer of `echo`, in order and as far as its `echo` has come. -/
theorem echoed_back {ls : List Act}
    (h : (machine output endpoint).run (start endpoint) ls = some t) :
    ∀ x ∈ t.world.instances, x.Answered := by
  have hsteps : (machine output endpoint).Preserves Answering :=
    step_answering (listener_careful endpoint) (listener_messageMode endpoint)
  exact (hsteps.run h start_answering).answered

/-- One message, written back. -/
def oneEcho : List Act :=
  List.replicate 6 .accept ++ [.pipe 0 .clientConnects,.pipe 0 (.clientWrites [104,105]),.deliver] ++
    List.replicate 10 .accept ++ [.pipe 0 .readEnds,.pipe 0 .runHandler,.pipe 0 (.writes 2)]

theorem echoed_back_oneEcho : ∃ t, (machine id "").run (start "") oneEcho = some t ∧
    ∀ x ∈ t.world.instances, x.Answered := by
  obtain ⟨t,ht⟩ := Option.isSome_iff_exists.mp
    (show ((machine id "").run (start "") oneEcho).isSome by decide +kernel)
  exact ⟨t,ht,echoed_back ht⟩

section Output
variable (hconnected : output errorPipeConnected = errorPipeConnected)
variable (hnoData : output errorNoData = errorNoData)
include hconnected hnoData

/-- Whenever `listener` is suspended or has ended, every open instance belongs to its pipe or to
an `echo` that something holds, if and only if no ConnectNamedPipe has found that its client had
come and gone. -/
theorem accounted_iff_kept {ls : List Act} {a : Except ListenerError Unit}
    (h : (machine output endpoint).run (start endpoint) ls = some t) (ha : t.program = .done a) :
    t.world.Accounted ↔
      (machine output endpoint).Along (fun s l => ¬s.Leaves l) (start endpoint) ls :=
  accounted_iff_along (listener_resumes hconnected hnoData) (fun _ _ hends => hends.books)
    (start_watches hconnected hnoData) h ha

end Output

theorem accounted_iff_kept_goneClient : ∃ t a,
    (machine id "").run (start "") goneClient = some t ∧ t.program = .done a ∧
    (t.world.Accounted ↔
      (machine id "").Along (fun s l => ¬s.Leaves l) (start "") goneClient) :=
  ⟨_,_,rfl,rfl,accounted_iff_kept rfl rfl rfl rfl⟩

end EchoCoro
end Winext
