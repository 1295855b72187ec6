import Painless.MapleSolver
import Painless.SolverInterface
import Painless.Transitions

/-!
The Maple wrapper from the loading of a formula to the answers of any number of
calls of solve: the queued clauses, SimpSolver::eliminate in the first call, the
search loop with its imports, conflicts, restarts, assumptions and decisions,
and the model. The search returns as soon as all assumptions are placed if there
are any. Where the code chooses by activity, by limits or by what other solvers
send, the steps allow every choice.
-/
namespace Painless.MapleSearch

open Cnf PartialAssignment Transitions SolverInterface MapleSolver

/-- Where a call of solve stands. -/
inductive Pc where
  | idle
  /-- Maple::solve, before solveLimited -/
  | adding
  /-- SimpSolver::eliminate -/
  | eliminating
  /-- the head of the loop of Solver::search -/
  | searching
  /-- a conflict, before analyze -/
  | conflict (confl : Clause ℕ)
  /-- no conflict -/
  | deciding
  deriving DecidableEq

structure State where
  solver : Solver
  clausesToAdd : List (List ℤ)
  /-- What the call of solve has taken from clausesToAdd. -/
  tmp : List (List ℤ)
  pc : Pc
  /-- History: the clauses passed to the solver's addClause. -/
  formula : List (List ℤ)
  /-- The cube of the last call. -/
  cube : List ℤ
  /-- What the last call has returned, until a clause is loaded. -/
  answer : Option SatResult

inductive Action where
  /-- One turn of the loop of addInitialClauses, or of the DIMACS parser. -/
  | addInitialClause (c : List ℤ) (order : Propagation)
  | addClause (c : List ℤ)
  | solve (cube : List ℤ)
  | addQueued (order : Propagation)
  | solveLimited
  | subsume (c d : Clause ℕ)
  | strengthen (c d : Clause ℕ) (l : Literal ℕ) (order : Propagation)
  /-- Gaussian elimination adds clauses that are derived by resolution. -/
  | resolve (c d : Clause ℕ) (v : ℕ) (order : Propagation)
  | removeSatisfied
  | eliminateVar (v : ℕ) (orders : List Propagation)
  | endEliminate
  | importUnit (l : Literal ℕ)
  | importClause (c : Clause ℕ)
  | propagate (order : Propagation)
  | analyze (reasons : List (Clause ℕ × Literal ℕ))
  | restart
  /-- A failed literal of stampAll. -/
  | stamp (l : Literal ℕ) (order : Propagation)
  | reduceDB (c : Clause ℕ)
  | assume
  | answerAssumptions
  | decide (l : Literal ℕ)
  | answerModel

/-- A clause or a cube over existing variables. -/
def OverVars (s : Solver) (lits : List ℤ) : Prop :=
  ∀ l ∈ lits, l ≠ 0 ∧ l.natAbs ≤ s.nVars

instance (s : Solver) (lits : List ℤ) : Decidable (OverVars s lits) :=
  inferInstanceAs (Decidable (∀ l ∈ lits, _ ∧ _))

/-! ### The end of a call -/

/-- The call returns UNSAT, and the solver is inconsistent. -/
def answerInconsistent (s : State) (t : Solver) : State :=
  { s with
    solver := { t with ok := false, levels := [] }, pc := .idle, answer := some .unsat }

/-- The call returns UNSAT because of its assumptions. -/
def answerConflict (s : State) : State :=
  { s with solver := s.solver.cancelUntil 0, pc := .idle, answer := some .unsat }

/-- The search returns l_True: the end of Solver::solve_, then extendModel. -/
def answerSat (s : State) (t : Solver) : State :=
  { s with
    solver := extendModel ((copyModel t).cancelUntil 0), pc := .idle, answer := some .sat }

/-! ### Loading -/

def addInitialClause (s : State) (c : List ℤ) (order : Propagation) : Option State :=
  let t := c.foldl (fun t lit => t.newVars lit.natAbs) s.solver
  (addClause_ t (miniVec c) order).map fun r =>
    { s with solver := r.1, formula := s.formula ++ [c], answer := none }

def addQueued (s : State) (order : Propagation) : Option State :=
  match s.tmp with
  | [] => none
  | c :: rest =>
    (addClause_ s.solver (miniVec c) order).map fun r =>
      let t := { s with formula := s.formula ++ [c] }
      if r.2 then { t with solver := r.1, tmp := rest } else answerInconsistent t r.1

/-- The assumptions are set, and simplification is left for the search once it
has been done. -/
def solveLimited (s : State) : Option State :=
  if s.tmp = [] then
    let t := { s.solver with assumptions := miniVec s.cube }
    if t.ok = false then some (answerInconsistent s t)
    else if t.useSimplification then some { s with solver := t, pc := .eliminating }
    else some { s with solver := { t with model := fun _ => none }, pc := .searching }
  else none

/-! ### Simplification -/

/-- A step of eliminate that may find the clauses inconsistent. -/
def simplified (s : State) (r : Option (Solver × Bool)) : Option State :=
  r.map fun r =>
    if r.2 then { s with solver := r.1 }
    else answerInconsistent s { r.1 with useSimplification := false }

def simplify (s : State) : Action → Option State
  | .subsume c d =>
    if d ∈ s.solver.clauses.erase c ∧ d ⊆ c then
      some { s with solver := { s.solver with clauses := s.solver.clauses.erase c } }
    else none
  | .strengthen c d l order =>
    if c ∈ s.solver.clauses ∧ d ∈ s.solver.clauses ∧ Strengthens c d l then
      simplified s (strengthenClause s.solver c l order)
    else none
  | .resolve c d v order =>
    if c ∈ s.solver.clauses ∧ d ∈ s.solver.clauses ∧ (v, true) ∈ c ∧ (v, false) ∈ d then
      (merge c d v).bind fun r => simplified s (addClause_ s.solver r order)
    else none
  | .removeSatisfied => some { s with solver := MapleSolver.removeSatisfied s.solver }
  | .eliminateVar v orders =>
    -- assumptions are frozen
    if v < s.solver.nVars ∧ v ∉ s.solver.eliminated ∧ s.solver.value v = none ∧
        (∀ p ∈ s.solver.assumptions, p.1 ≠ v) then
      simplified s (MapleSolver.eliminateVar s.solver v orders)
    else none
  | .endEliminate =>
    some { s with
      solver := { s.solver with useSimplification := false, model := fun _ => none }
      pc := .searching }
  | _ => none

/-! ### The search loop -/

/-- The head of the loop: imports at level 0, then propagation. -/
def searchHead (s : State) : Action → Option State
  | .importUnit l =>
    if s.solver.decisionLevel = 0 ∧ l.1 < s.solver.nVars then
      if s.solver.value l.1 = none then
        some { s with solver := s.solver.uncheckedEnqueue l }
      else if IsFalse s.solver.value l then some (answerInconsistent s s.solver)
      else some s
    else none
  | .importClause c =>
    if s.solver.decisionLevel = 0 ∧ ∀ l ∈ c, l.1 < s.solver.nVars then
      if ClauseTrue s.solver.value c then some s
      else
        match c.filter fun l => s.solver.value l.1 = none with
        | [] => some (answerInconsistent s s.solver)
        | [l] => some { s with solver := s.solver.uncheckedEnqueue l }
        | ls => some { s with solver := { s.solver with learnts := s.solver.learnts ++ [ls] } }
    else none
  | .propagate order =>
    (MapleSolver.propagate s.solver order.implied order.confl).map fun t =>
      match order.confl with
      | none => { s with solver := t, pc := .deciding }
      | some c =>
        if t.decisionLevel = 0 then answerInconsistent s t
        else { s with solver := t, pc := .conflict c }
  | _ => none

def searchConflict (s : State) (confl : Clause ℕ) : Action → Option State
  | .analyze reasons =>
    (MapleSolver.analyze s.solver confl reasons).bind fun learnt =>
      (learn s.solver learnt.1 learnt.2).map fun t =>
        { s with solver := t, pc := .searching }
  | _ => none

/-- The next assumption: a dummy decision level where it is true. -/
def nextAssumption (s : State) : Option State :=
  match s.solver.assumptions[s.solver.decisionLevel]? with
  | none => none
  | some p =>
    if IsTrue s.solver.value p then some { s with solver := s.solver.newDecisionLevel }
    else if IsFalse s.solver.value p then some (answerConflict s)
    else
      some { s with
        solver := s.solver.newDecisionLevel.uncheckedEnqueue p, pc := .searching }

/-- The branch without a conflict. -/
def searchDecide (s : State) : Action → Option State
  | .restart => some { s with solver := s.solver.cancelUntil 0, pc := .searching }
  | .removeSatisfied =>
    if s.solver.decisionLevel = 0 then
      some { s with solver := MapleSolver.removeSatisfied s.solver }
    else none
  | .stamp l order =>
    if s.solver.decisionLevel = 0 ∧ l.1 < s.solver.nVars ∧ s.solver.value l.1 = none then
      (MapleSolver.propagate (s.solver.uncheckedEnqueue l) order.implied order.confl).map
        fun t =>
          if order.confl.isNone then { s with solver := t } else answerInconsistent s t
    else none
  | .reduceDB c =>
    some { s with solver := { s.solver with learnts := s.solver.learnts.erase c } }
  | .assume => nextAssumption s
  | .answerAssumptions =>
    if s.solver.assumptions ≠ [] ∧
        s.solver.assumptions.length ≤ s.solver.decisionLevel then
      some (answerSat s (shrinkAssumptions s.solver))
    else none
  | .decide l =>
    if s.solver.assumptions = [] ∧ l.1 < s.solver.nVars ∧ l.1 ∉ s.solver.eliminated ∧
        s.solver.value l.1 = none then
      some { s with
        solver := s.solver.newDecisionLevel.uncheckedEnqueue l, pc := .searching }
    else none
  | .answerModel =>
    -- pickBranchLit finds no decision variable without a value
    if s.solver.assumptions = [] ∧ ∀ v ∈ List.range s.solver.nVars,
        v ∈ s.solver.eliminated ∨ s.solver.value v ≠ none then
      some (answerSat s s.solver)
    else none
  | _ => none

def step (s : State) : Action → Option State
  | .addClause c =>
    if OverVars s.solver c then some { s with clausesToAdd := s.clausesToAdd ++ [c] } else none
  | a =>
    match s.pc with
    | .idle =>
      match a with
      | .addInitialClause c order => if 0 ∈ c then none else addInitialClause s c order
      | .solve cube =>
        if OverVars s.solver cube then
          some { s with
            tmp := s.clausesToAdd, clausesToAdd := [], cube := cube, answer := none
            pc := .adding }
        else none
      | _ => none
    | .adding =>
      match a with
      | .addQueued order => addQueued s order
      | .solveLimited => solveLimited s
      | _ => none
    | .eliminating => simplify s a
    | .searching => searchHead s a
    | .conflict confl => searchConflict s confl a
    | .deciding => searchDecide s a

def start : State where
  solver :=
    { nVars := 0, ok := true, clauses := [], learnts := [], eliminated := []
      elimclauses := [], useSimplification := true, root := [], levels := []
      assumptions := [], model := fun _ => none }
  clausesToAdd := []
  tmp := []
  pc := .idle
  formula := []
  cube := []
  answer := none

def machine : Machine State Action where
  Init s := s = start
  step := step

end Painless.MapleSearch
