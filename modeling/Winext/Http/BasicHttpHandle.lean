import Winext.Lib.Program
import Winext.Windows
import Winext.Http.Convert

/-! The three asynchronous operations of `basic_http_handle`, and how each of them ends:
inside the call, or later through the completion port. -/
namespace Winext.Http
open Lib

/-- The calls made by the operations, each on a new OVERLAPPED. The buffer of a request is
`room` bytes longer than the structure it begins with. -/
inductive HttpCall
  | httpReceiveHttpRequest (requestId : RequestId) (flags : Dword) (room : ℕ)
  | httpReceiveRequestEntityBody (requestId : RequestId) (flags : Dword) (length : ℕ)
  | httpSendHttpResponse (requestId : RequestId) (flags : Dword) (resp : HttpResponse)
  | complete (ec : ErrorCode) (bytes : ℕ)
  | release

@[reducible] def HttpCall.Answer : HttpCall → Type
  | httpReceiveHttpRequest _ _ _ | httpReceiveRequestEntityBody _ _ _ => Dword
  | httpSendHttpResponse _ _ _ => Dword
  | complete _ _ | release => Unit

abbrev HttpProgram := Program HttpCall HttpCall.Answer

open Program (ask)
open HttpCall

def asyncRecieveRequest (pRequest : HttpRequest) (room : ℕ) : HttpProgram Unit := do
  let result : Dword ← ask (httpReceiveHttpRequest pRequest.requestId 0 room)
  if result = errorHandleEof then
    ask (complete {} 0)
  else if result = noError then
    ask release
  else if result = errorIoPending then
    ask release
  else
    ask (complete ⟨result⟩ 0)

def asyncRecieveBody (length : ℕ) (requestId : RequestId) (flags : Dword) : HttpProgram Unit := do
  let result : Dword ← ask (httpReceiveRequestEntityBody requestId flags length)
  if result = errorIoPending then
    ask release
  else if result = noError then
    ask release
  else if result = errorHandleEof then
    -- "no more data. success."
    ask (complete {} 0)
  else
    ask (complete ⟨result⟩ 0)

def asyncSendResponse (resp : HttpResponse) (requestId : RequestId) (flags : Dword) :
    HttpProgram Unit := do
  let result : Dword ← ask (httpSendHttpResponse requestId flags resp)
  if result = errorIoPending then
    ask release
  else if result = noError then
    ask release
  else
    ask (complete ⟨result⟩ 0)

inductive Operation
  | recieveRequest (pRequest : HttpRequest) (room : ℕ)
  | recieveBody (length : ℕ) (requestId : RequestId) (flags : Dword)
  | sendResponse (resp : HttpResponse) (requestId : RequestId) (flags : Dword)

namespace Operation

def program : Operation → HttpProgram Unit
  | recieveRequest pRequest room => asyncRecieveRequest pRequest room
  | recieveBody length requestId flags => asyncRecieveBody length requestId flags
  | sendResponse resp requestId flags => asyncSendResponse resp requestId flags

def receives : Operation → Bool
  | sendResponse _ _ _ => false
  | _ => true

def api : Operation → HttpCall
  | recieveRequest pRequest room => httpReceiveHttpRequest pRequest.requestId 0 room
  | recieveBody length requestId flags => httpReceiveRequestEntityBody requestId flags length
  | sendResponse resp requestId flags => httpSendHttpResponse requestId flags resp

end Operation

/-- What the branches after the call come to. -/
def settle (receives : Bool) (result : Dword) : HttpProgram Unit :=
  if result = noError ∨ result = errorIoPending then ask release
  else if receives = true ∧ result = errorHandleEof then ask (complete {} 0)
  else ask (complete ⟨result⟩ 0)

lemma eof_ne : errorHandleEof ≠ noError ∧ errorHandleEof ≠ errorIoPending := by decide

theorem asyncRecieveRequest_eq (pRequest : HttpRequest) (room : ℕ) :
    asyncRecieveRequest pRequest room =
      .call (httpReceiveHttpRequest pRequest.requestId 0 room) (settle true) := by
  have hladder : ∀ result : Dword, (if result = errorHandleEof then ask (complete {} 0)
      else if result = noError then ask release
      else if result = errorIoPending then ask release
      else ask (complete ⟨result⟩ 0) : HttpProgram Unit) = settle true result := by
    intro result
    unfold settle
    by_cases heof : result = errorHandleEof
    · subst heof
      simp [eof_ne]
    · split_ifs <;> simp_all
  simp only [asyncRecieveRequest,Program.ask_bind,hladder]

theorem asyncRecieveBody_eq (length : ℕ) (requestId : RequestId) (flags : Dword) :
    asyncRecieveBody length requestId flags =
      .call (httpReceiveRequestEntityBody requestId flags length) (settle true) := by
  have hladder : ∀ result : Dword, (if result = errorIoPending then ask release
      else if result = noError then ask release
      else if result = errorHandleEof then ask (complete {} 0)
      else ask (complete ⟨result⟩ 0) : HttpProgram Unit) = settle true result := by
    intro result
    unfold settle
    split_ifs <;> simp_all
  simp only [asyncRecieveBody,Program.ask_bind,hladder]

theorem asyncSendResponse_eq (resp : HttpResponse) (requestId : RequestId) (flags : Dword) :
    asyncSendResponse resp requestId flags =
      .call (httpSendHttpResponse requestId flags resp) (settle false) := by
  have hladder : ∀ result : Dword, (if result = errorIoPending then ask release
      else if result = noError then ask release
      else ask (complete ⟨result⟩ 0) : HttpProgram Unit) = settle false result := by
    intro result
    unfold settle
    split_ifs <;> simp_all
  simp only [asyncSendResponse,Program.ask_bind,hladder]

/-- One operation in execution: what the call to HTTP.sys returns, the calls made to it so
far, and the OVERLAPPED. -/
structure HttpIo where
  status : Dword
  bytes : ℕ
  calls : List HttpCall := []
  ov : Overlapped := {}

namespace HttpIo

/-- HTTP.sys keeps the OVERLAPPED of a pending call, queues a packet for a success, and
has nothing more to do with any other. -/
def answer (status : Dword) (bytes : ℕ) (o : Overlapped) : Overlapped :=
  if status = errorIoPending then o.pend
  else if status = noError then o.accept status bytes
  else o.refuse status

def ask (s : HttpIo) (c : HttpCall) : HttpIo :=
  { s with calls := s.calls ++ [c], ov := answer s.status s.bytes s.ov }

def perform : (c : HttpCall) → HttpIo → Option (c.Answer × HttpIo)
  | .httpReceiveHttpRequest requestId flags room, s =>
    some (s.status,s.ask (.httpReceiveHttpRequest requestId flags room))
  | .httpReceiveRequestEntityBody requestId flags length, s =>
    some (s.status,s.ask (.httpReceiveRequestEntityBody requestId flags length))
  | .httpSendHttpResponse requestId flags resp, s =>
    some (s.status,s.ask (.httpSendHttpResponse requestId flags resp))
  | .complete ec bytes, s => some ((),{ s with ov := s.ov.complete ec bytes })
  | .release, s => some ((),{ s with ov := s.ov.release })

end HttpIo
end Winext.Http
