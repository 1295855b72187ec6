import Painless.PartialAssignment
import Mathlib.Data.List.Dedup

/-!
The Maple engine under one Maple wrapper: its clauses, its trail, unit
propagation, the addition of clauses and the elimination of variables. Which
clause the watch lists find next is an argument of propagation, so that a run
may follow any order. Activities, the heaps, the proof log and the limits on
what an elimination may add only choose among the runs, and are left out.
-/
namespace Painless.MapleSolver

open Cnf PartialAssignment

/-! ### Literals -/

/-- MINI_LIT: the solver counts its variables from zero. -/
def miniLit (lit : ℤ) : Literal ℕ := (lit.natAbs - 1, decide (0 < lit))

/-- INT_LIT -/
def intLit (l : Literal ℕ) : ℤ := if l.2 then (l.1 + 1 : ℤ) else -(l.1 + 1 : ℤ)

def miniVec (lits : List ℤ) : List (Literal ℕ) := lits.map miniLit

theorem intLit_miniLit {lit : ℤ} (h : lit ≠ 0) : intLit (miniLit lit) = lit := by
  unfold intLit miniLit
  by_cases hpos : 0 < lit
  · simp only [hpos, decide_true, if_true]
    omega
  · simp only [hpos, decide_false, Bool.false_eq_true, if_false]
    omega

theorem miniLit_intLit (l : Literal ℕ) : miniLit (intLit l) = l := by
  obtain ⟨v, b⟩ := l
  cases b with
  | true =>
    have hpos : (0 : ℤ) < v + 1 := by omega
    simp only [intLit, miniLit, if_true, hpos, decide_true, Prod.mk.injEq, and_true]
    omega
  | false =>
    have hneg : ¬ (0 : ℤ) < -(v + 1) := by omega
    simp only [intLit, miniLit, Bool.false_eq_true, if_false, hneg, decide_false,
      Prod.mk.injEq, and_true]
    omega

/-! ### The state -/

structure Solver where
  nVars : ℕ
  ok : Bool
  clauses : Formula ℕ
  learnts : Formula ℕ
  eliminated : List ℕ
  /-- elimclauses, the newest first -/
  elimclauses : List (Entry ℕ)
  useSimplification : Bool
  /-- The trail up to trail_lim[0]. -/
  root : List (Literal ℕ)
  /-- The rest of the trail by decision level, the current level first. -/
  levels : List (List (Literal ℕ))
  assumptions : List (Literal ℕ)
  model : Partial ℕ

namespace Solver

def decisionLevel (s : Solver) : ℕ := s.levels.length

def trail (s : Solver) : List (Literal ℕ) := s.levels.flatten ++ s.root

def value (s : Solver) : Partial ℕ := fun v =>
  (s.trail.find? fun l => l.1 = v).map Prod.snd

/-- The number of the variable's decision level. -/
def level (s : Solver) (v : ℕ) : ℕ :=
  s.levels.length - s.levels.findIdx fun lits => lits.any fun l => l.1 = v

/-- while (nVars() < var) newVar() -/
def newVars (s : Solver) (var : ℕ) : Solver := { s with nVars := max s.nVars var }

/-- Every literal is assigned at the current level. -/
def uncheckedEnqueue (s : Solver) (p : Literal ℕ) : Solver :=
  match s.levels with
  | [] => { s with root := s.root ++ [p] }
  | current :: rest => { s with levels := (current ++ [p]) :: rest }

def newDecisionLevel (s : Solver) : Solver := { s with levels := [] :: s.levels }

def cancelUntil (s : Solver) (level : ℕ) : Solver :=
  { s with levels := s.levels.drop (s.levels.length - level) }

end Solver

/-! ### Propagation -/

/-- What propagation finds: the implied literals with their reasons, and the
clause in which it finds a conflict, if any. -/
structure Propagation where
  implied : List (Literal ℕ × Clause ℕ)
  confl : Option (Clause ℕ)

/-- The clause implies the literal. -/
def Implies (M : Partial ℕ) (c : Clause ℕ) (l : Literal ℕ) : Prop :=
  l ∈ c ∧ M l.1 = none ∧ ∀ q ∈ c, q ≠ l → IsFalse M q

instance (M : Partial ℕ) (c : Clause ℕ) (l : Literal ℕ) : Decidable (Implies M c l) :=
  inferInstanceAs (Decidable (_ ∧ _ ∧ _))

/-- No clause of the formula is false or implies a literal. -/
def Closed (M : Partial ℕ) (f : Formula ℕ) : Prop :=
  ∀ c ∈ f, ¬ ClauseFalse M c ∧ ∀ l ∈ c, ¬ Implies M c l

instance (M : Partial ℕ) (f : Formula ℕ) : Decidable (Closed M f) :=
  inferInstanceAs (Decidable (∀ c ∈ f, ¬ _ ∧ ∀ l ∈ c, ¬ _))

-- the tests for membership in a clause and in a list of clauses
instance : LawfulBEq (Literal ℕ) := inferInstance

instance : LawfulBEq (Clause ℕ) := inferInstance

/-- Propagation ends in a conflict or when the clauses are closed. An imported
clause may have been attached with false watches, so this is asked of the
problem clauses only. -/
def propagate (s : Solver) : List (Literal ℕ × Clause ℕ) → Option (Clause ℕ) → Option Solver
  | (l, c) :: rest, confl =>
    if c ∈ s.clauses ++ s.learnts ∧ Implies s.value c l then
      propagate (s.uncheckedEnqueue l) rest confl
    else none
  | [], some c =>
    if c ∈ s.clauses ++ s.learnts ∧ ClauseFalse s.value c then some s else none
  | [], none => if Closed s.value s.clauses then some s else none

/-! ### Clauses -/

/-- Sorting brings equal and opposite literals together; the order of the
literals plays no other part. -/
def addClause_ (s : Solver) (ps : Clause ℕ) (order : Propagation) :
    Option (Solver × Bool) :=
  if s.ok = false then some (s, false)
  else if (∃ l ∈ ps, IsTrue s.value l) ∨ Tautology ps then some (s, true)
  else
    match ps.dedup.filter fun l => ¬ IsFalse s.value l with
    | [] => some ({ s with ok := false }, false)
    | [p] =>
      (propagate (s.uncheckedEnqueue p) order.implied order.confl).map fun t =>
        ({ t with ok := order.confl.isNone }, order.confl.isNone)
    | qs => some ({ s with clauses := s.clauses ++ [qs] }, true)

/-- The clauses of a loop that stops at the first addClause_ that fails. -/
def addClauses (s : Solver) : Formula ℕ → List Propagation → Option (Solver × Bool)
  | [], _ => some (s, true)
  | _ :: _, [] => none
  | c :: cs, order :: orders =>
    (addClause_ s c order).bind fun r => if r.2 then addClauses r.1 cs orders else some r

def without (c : Clause ℕ) (v : ℕ) : Clause ℕ := c.filter fun l => l.1 ≠ v

def mergeInto (larger smaller : Clause ℕ) (v : ℕ) : Option (Clause ℕ) :=
  if ∃ l ∈ without smaller v, negate l ∈ without larger v then none
  else
    some (((without smaller v).filter fun l => l ∉ without larger v) ++ without larger v)

/-- The resolvent on the variable, unless it is always satisfied. -/
def merge (ps qs : Clause ℕ) (v : ℕ) : Option (Clause ℕ) :=
  if ps.length < qs.length then mergeInto qs ps v else mergeInto ps qs v

/-- What remains of a clause without one of its literals. -/
def strengthenClause (s : Solver) (c : Clause ℕ) (l : Literal ℕ) (order : Propagation) :
    Option (Solver × Bool) :=
  let t := { s with clauses := s.clauses.erase c }
  match c.filter fun q => q ≠ l with
  | [p] =>
    if IsTrue s.value p then some (t, true)
    else if IsFalse s.value p then some ({ t with ok := false }, false)
    else
      (propagate (t.uncheckedEnqueue p) order.implied order.confl).map fun u =>
        ({ u with ok := order.confl.isNone }, order.confl.isNone)
  | rest => some ({ t with clauses := t.clauses ++ [rest] }, true)

/-- The second clause has the opposite literal, and otherwise only literals of
the first one. -/
def Strengthens (c d : Clause ℕ) (l : Literal ℕ) : Prop :=
  l ∈ c ∧ negate l ∈ d ∧ ∀ q ∈ d, q ≠ negate l → q ∈ c ∧ q ≠ l

instance (c d : Clause ℕ) (l : Literal ℕ) : Decidable (Strengthens c d l) :=
  inferInstanceAs (Decidable (_ ∧ _ ∧ ∀ q ∈ d, _ → _))

def occurs (s : Solver) (v : ℕ) : Formula ℕ := s.clauses.filter fun c => ∃ l ∈ c, l.1 = v

def positive (s : Solver) (v : ℕ) : Formula ℕ := (occurs s v).filter fun c => (v, true) ∈ c

def negative (s : Solver) (v : ℕ) : Formula ℕ := (occurs s v).filter fun c => (v, true) ∉ c

def resolvents (s : Solver) (v : ℕ) : Formula ℕ :=
  (positive s v).flatMap fun p => (negative s v).filterMap fun q => merge p q v

/-- mkElimClause for each clause with the literal, and then for the opposite
literal alone. -/
def mkElimClauses (cls : Formula ℕ) (x : Literal ℕ) : List (Entry ℕ) :=
  .always (negate x) :: (cls.map fun c => Entry.ifFalse x (without c x.1)).reverse

/-- The shorter side is stored, its resolvents with the other side are added, and
the clauses with the variable removed. -/
def eliminateVar (s : Solver) (v : ℕ) (orders : List Propagation) :
    Option (Solver × Bool) :=
  let stored :=
    if (negative s v).length < (positive s v).length then
      mkElimClauses (negative s v) (v, false)
    else mkElimClauses (positive s v) (v, true)
  let t := { s with
    eliminated := v :: s.eliminated, elimclauses := stored ++ s.elimclauses }
  (addClauses t (resolvents s v) orders).map fun r =>
    if r.2 then
      ({ r.1 with clauses := r.1.clauses.filter fun c => ∀ l ∈ c, l.1 ≠ v }, true)
    else ({ r.1 with ok := false }, false)

/-! ### Search -/

/-- Solver::simplify: the clauses that are true at level 0 go, and the learnt
ones lose their false literals. -/
def removeSatisfied (s : Solver) : Solver :=
  { s with
    clauses := s.clauses.filter fun c => ¬ ClauseTrue s.value c
    learnts := (s.learnts.filter fun c => ¬ ClauseTrue s.value c).map fun c =>
      c.filter fun l => ¬ IsFalse s.value l }

/-- The clause is resolved with the reason of one of its literals. -/
def resolveReason (s : Solver) (cur : Clause ℕ) (reason : Clause ℕ × Literal ℕ) :
    Option (Clause ℕ) :=
  let (c, l) := reason
  if c ∈ s.clauses ++ s.learnts ∧ l ∈ c ∧ negate l ∈ cur ∧ IsTrue s.value l ∧
      ∀ q ∈ c, q ≠ l → IsFalse s.value q then
    some ((cur.filter fun q => q ≠ negate l) ++ c.filter fun q => q ≠ l)
  else none

/-- analyze, for any choice of the literals that are resolved, those that
minimization removes among them. One literal of the current level is left. -/
def analyze (s : Solver) (confl : Clause ℕ) (reasons : List (Clause ℕ × Literal ℕ)) :
    Option (Literal ℕ × Clause ℕ) :=
  (reasons.foldlM (resolveReason s) confl).bind fun out =>
    let learnt := out.dedup.filter fun l => 0 < s.level l.1
    match learnt.partition fun l => s.level l.1 = s.decisionLevel with
    | ([p], rest) => some (p, rest)
    | _ => none

/-- The learnt clause is added at the level where it is asserting. -/
def learn (s : Solver) (p : Literal ℕ) (rest : Clause ℕ) : Option Solver :=
  let t := s.cancelUntil ((rest.map fun l => s.level l.1).foldr max 0)
  if t.value p.1 = none then
    some ({ t with
      learnts := if rest = [] then t.learnts else t.learnts ++ [p :: rest]
      }.uncheckedEnqueue p)
  else none

/-- Literals of dummy decision levels are removed. -/
def shrinkAssumptions (s : Solver) : Solver :=
  { s with
    assumptions := ((s.assumptions.zip s.levels.reverse).filter fun p =>
      p.2.head? = some p.1).map Prod.fst }

/-! ### The model -/

/-- The end of Solver::solve_: the values are copied. -/
def copyModel (s : Solver) : Solver :=
  { s with model := fun i => if i < s.nVars then s.value i else none }

def extendModel (s : Solver) : Solver :=
  { s with model := reconstruct s.elimclauses s.model }

def getModel (s : Solver) : List ℤ :=
  (List.range s.nVars).filterMap fun i =>
    (s.model i).map fun b => if b then (i + 1 : ℤ) else -(i + 1 : ℤ)

end Painless.MapleSolver
