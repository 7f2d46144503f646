import Winext.NamedPipe.ServerDetails

/-! The two overloads of `named_pipe_acceptor::async_accept`. -/
namespace Winext
open Lib Details

/-- The overload that fills the caller's pipe, and the one that hands a pipe to the handler. -/
inductive Overload
  | intoPipe
  | byMove
  deriving DecidableEq, Repr

/-- The composed operation is started at once with a clear error code. -/
def Overload.asyncAccept (o : Overload) (endpoint : String) : ServerProgram (Except Thrown Unit) :=
  match o with
  | .intoPipe => asyncAcceptOp endpoint {}
  | .byMove => asyncMoveAcceptOp endpoint {}

theorem Overload.asyncAccept_eq (o : Overload) (endpoint : String) :
    o.asyncAccept endpoint = acceptOperator (o = .byMove) endpoint {} := by
  cases o <;> rfl

end Winext
