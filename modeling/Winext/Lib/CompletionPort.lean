import Mathlib.Tactic.Common

/-! An OVERLAPPED between the operating system, the code that issued it and the
completion port. The system reports through packets; the library calls the handler once
for every packet of an OVERLAPPED that has been released or completed. -/
namespace Winext.Lib

abbrev Dword := UInt32

structure ErrorCode where
  value : Dword := 0
  deriving DecidableEq, Repr

def ErrorCode.failed (ec : ErrorCode) : Bool := ec.value != 0

@[simp] theorem ErrorCode.failed_mk (v : Dword) : (ErrorCode.mk v).failed = (v != 0) := rfl

/-- One entry of the completion port: what the handler will be told. -/
structure Packet where
  ec : ErrorCode
  bytes : ℕ
  deriving DecidableEq, Repr

/-- What the operating system has said about the call the OVERLAPPED was given to: it
ended inside the call, or it was left pending and perhaps ended later. -/
inductive Io
  | unused
  | returned (status : Dword) (bytes : ℕ)
  | pending
  | finished (status : Dword) (bytes : ℕ)
  deriving DecidableEq, Repr

structure Overlapped where
  io : Io := .unused
  packets : List Packet := []
  handedOver : Bool := false
  delivered : List Packet := []
  deriving DecidableEq, Repr

namespace Overlapped

def pend (o : Overlapped) : Overlapped := { o with io := .pending }

/-- The call ended at once, without a packet. -/
def refuse (o : Overlapped) (status : Dword) : Overlapped := { o with io := .returned status 0 }

/-- The call ended at once, and the system still queues its packet. -/
def accept (o : Overlapped) (status : Dword) (bytes : ℕ) : Overlapped :=
  { o with io := .returned status bytes, packets := o.packets ++ [⟨⟨status⟩,bytes⟩] }

/-- A pending call ends. Its packet reaches the port only if the handle is associated
with it at that moment. -/
def finish (o : Overlapped) (status : Dword) (bytes : ℕ) (associated : Bool) :
    Option Overlapped :=
  if o.io = .pending then
    some { o with
      io := .finished status bytes
      packets := if associated then o.packets ++ [⟨⟨status⟩,bytes⟩] else o.packets }
  else none

def complete (o : Overlapped) (ec : ErrorCode) (bytes : ℕ) : Overlapped :=
  { o with packets := o.packets ++ [⟨ec,bytes⟩], handedOver := true }

/-- The code leaves the OVERLAPPED to the system. -/
def release (o : Overlapped) : Overlapped := { o with handedOver := true }

/-- The handler is called for the oldest packet. -/
def deliver (o : Overlapped) : Option (Packet × Overlapped) :=
  match o.handedOver, o.packets with
  | true, p::ps => some (p,{ o with packets := ps, delivered := o.delivered ++ [p] })
  | _, _ => none

def completions (o : Overlapped) : ℕ := o.packets.length + o.delivered.length

/-- The call has been issued, its handler has not run, and it can still be called. -/
def outstanding (o : Overlapped) : Bool :=
  o.delivered.isEmpty && (o.io == .pending || !o.packets.isEmpty)

theorem completions_eq_zero {o : Overlapped} :
    o.completions = 0 ↔ o.packets = [] ∧ o.delivered = [] := by
  simp [completions]

theorem finish_eq_some {o u : Overlapped} {status : Dword} {bytes : ℕ} {associated : Bool} :
    o.finish status bytes associated = some u ↔ o.io = .pending ∧ u = { o with
      io := .finished status bytes
      packets := if associated then o.packets ++ [⟨⟨status⟩,bytes⟩] else o.packets } := by
  unfold finish
  split_ifs with h <;> simp [h,eq_comm]

theorem deliver_eq_some {o u : Overlapped} {p : Packet} :
    o.deliver = some (p,u) ↔ o.handedOver = true ∧ ∃ ps, o.packets = p::ps ∧
      u = { o with packets := ps, delivered := o.delivered ++ [p] } := by
  rcases o with ⟨io,packets,handedOver,delivered⟩
  cases handedOver <;> cases packets <;> simp [deliver]
  grind

/-- Delivering moves a completion, and neither makes nor loses one. -/
theorem completions_deliver {o u : Overlapped} {p : Packet} (h : o.deliver = some (p,u)) :
    u.completions = o.completions := by
  obtain ⟨-,ps,hp,rfl⟩ := deliver_eq_some.mp h
  simp only [completions,hp,List.length_cons,List.length_append,List.length_nil]
  omega

end Overlapped
end Winext.Lib
