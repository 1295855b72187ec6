import Painless.PartialAssignment

/-!
What the framework relies on in a solver that takes part in the sharing of clauses.
The solver is given by the turns of its search; a contract says that it keeps to the
formula if it is given nothing but consequences of the formula.
-/
namespace Painless.SearchContract

open Cnf PartialAssignment

/-- A search whose turns are followed one by one; `Q` are its states, and `T` is what
a turn gets from outside besides clauses. -/
structure Engine (Q T : Type*) where
  nVars : Q → ℕ
  /-- The call that starts a search, without assumptions. -/
  solve : Q → Option Q
  /-- A turn with the unit clauses and the clauses that the import callbacks have
  given, and the clause for the export callback if there is one. -/
  turn : Q → T → List (Literal ℕ) → Formula ℕ → Option (Q × Option (Clause ℕ))
  /-- Whether the import callbacks may be called. -/
  importing : Q → Bool
  /-- What the call has returned, when it has. -/
  status : Q → Option (Option Bool)
  model : Q → List (Option Bool)
  /-- An assertion has failed, or a read was out of bounds. -/
  failed : Q → Bool

/-- A clause over the first `n` variables that may be given to every solver of the
formula. -/
structure Shareable (n : ℕ) (f : Formula ℕ) (c : Clause ℕ) : Prop where
  nonempty : c ≠ []
  inRange : ∀ l ∈ c, l.1 < n
  distinct : (c.map Prod.fst).Nodup
  follows : ∀ σ, FormulaHolds σ f → ClauseHolds σ c

def value (model : List (Option Bool)) : Partial ℕ := fun v => (model[v]?).join

variable {Q T : Type*}

/-- The solver works for the formula in all states of `inv`. -/
structure Contract (E : Engine Q T) (n : ℕ) (f : Formula ℕ) (inv : Q → Prop) : Prop where
  nVars : ∀ q, inv q → E.nVars q = n
  failed : ∀ q, inv q → E.failed q = false
  solve : ∀ q r, inv q → E.solve q = some r → inv r
  turn : ∀ q t units clauses r, inv q → (∀ l ∈ units, Shareable n f [l]) →
    (∀ c ∈ clauses, Shareable n f c ∧ 2 ≤ c.length) → E.turn q t units clauses = some r →
      inv r.1 ∧ ∀ c, r.2 = some c → Shareable n f c
  sat : ∀ q, inv q → E.status q = some (some true) → FormulaTrue (value (E.model q)) f
  unsat : ∀ q, inv q → E.status q = some (some false) → ¬ Satisfiable f

end Painless.SearchContract
