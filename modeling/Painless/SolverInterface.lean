import Mathlib.Data.Int.Basic

/-!
The result codes and the types of solvers, from the SolverInterface header. The
codes travel in messages as integers, and the C++ code tests a result for being
UNKNOWN by testing its code for zero.
-/
namespace Painless.SolverInterface

inductive SatResult where
  | sat
  | unsat
  | unknown
  deriving DecidableEq, Repr

namespace SatResult

def code : SatResult → ℤ
  | .sat => 10
  | .unsat => 20
  | .unknown => 0

/-- The conversion from a code; another integer names no result. -/
def ofCode (c : ℤ) : Option SatResult :=
  if c = 10 then some .sat
  else if c = 20 then some .unsat
  else if c = 0 then some .unknown
  else none

@[simp] theorem ofCode_code (res : SatResult) : ofCode res.code = some res := by
  cases res <;> rfl

end SatResult

/-- The engines a solver can be built on. -/
inductive SolverType where
  | glucose
  | lingeling
  | maple
  | minisat
  deriving DecidableEq, Repr

end Painless.SolverInterface
