import Painless.MiniSatFinal
import Painless.Transitions
import Mathlib.Data.List.Sort

/-!
The MiniSat engine: its calls, and the loop of search, whose turns are followed one
by one. The values that are floating point numbers, clocks or counters in the code
only choose: which learnt clauses go, which variable is decided next, when to
simplify and when to stop. They are given to each turn from outside. The clauses
that were added and those that were imported are recorded.
-/
namespace Painless.MiniSatSearch

open Cnf PartialAssignment MiniSatCore MiniSatAnalyze
open MiniSatCore.Core
open Transitions (Machine)

structure Solver extends Core where
  clauses : List ℕ
  learnts : List ℕ
  decision : ℕ → Bool
  /-- The contents of order_heap. -/
  heap : List ℕ
  seen : ℕ → Seen
  ccminMode : ℕ
  ok : Bool
  assumptions : List (Literal ℕ)
  conflict : Clause ℕ
  model : List (Option Bool)

/-- What a turn of the search gets from outside. -/
structure Input where
  units : List (Literal ℕ)
  imports : List (Literal ℕ × Literal ℕ × Clause ℕ)
  /-- The bound on the conflicts of this search, or a budget, is reached. -/
  stop : Bool
  /-- A budget is reached where solve_ looks. -/
  interrupted : Bool
  simplify : Bool
  reduce : Bool
  sort : List ℕ → List ℕ
  sort_perm : ∀ crs, (sort crs).Perm crs
  drop : ℕ → Bool
  /-- The index that a random decision draws. -/
  random : Option ℕ
  /-- The variables in the order in which removeMin gives them. -/
  order : List ℕ → List ℕ
  order_perm : ∀ vs, (order vs).Perm vs
  sign : ℕ → Bool

namespace Solver

def setCore (s : Solver) (c : Core) : Solver := { s with toCore := c }

def insertVarOrder (decision : ℕ → Bool) (heap : List ℕ) (x : ℕ) : List ℕ :=
  if x ∉ heap ∧ decision x = true then heap ++ [x] else heap

/-- The entries of the trail that are taken back, the last one first. -/
def undone (s : Core) (level : ℕ) : List (Literal ℕ) :=
  match s.trailLim[level]? with
  | none => []
  | some lim => (s.trail.drop lim).reverse

def cancelUntil (s : Solver) (level : ℕ) : Solver :=
  { s with
    toCore := s.toCore.cancelUntil level
    heap :=
      (undone s.toCore level).foldl (fun heap l => insertVarOrder s.decision heap l.1) s.heap }

/-! ### Variables and clauses -/

def newVar (s : Solver) (dvar : Bool) : Solver :=
  let v := s.nVars
  { s with
    nVars := v + 1
    watches := Function.update (Function.update s.watches (v, true) []) (v, false) []
    assigns := Function.update s.assigns v none
    vardata := Function.update s.vardata v ⟨none, 0⟩
    seen := Function.update s.seen v .undef
    decision := Function.update s.decision v dvar
    heap := insertVarOrder (Function.update s.decision v dvar) s.heap v }

/-- The order of literals: by variable, the positive one first. -/
def index (l : Literal ℕ) : ℕ := 2 * l.1 + if l.2 then 0 else 1

/-- The literals that are left of a sorted clause; `prev` is the last one that was
kept. No result stands for a clause that need not be added. -/
def simplifyLits (M : Partial ℕ) : Option (Literal ℕ) → Clause ℕ → Option (Clause ℕ)
  | _, [] => some []
  | prev, q :: rest =>
    if IsTrue M q ∨ prev = some (negate q) then none
    else if ¬ IsFalse M q ∧ prev ≠ some q then
      (simplifyLits M (some q) rest).map (q :: ·)
    else simplifyLits M prev rest

def addLits (s : Solver) : Clause ℕ → Solver × Bool
  | [] => ({ s with ok := false }, false)
  | [p] =>
    let r := (s.toCore.uncheckedEnqueue p none).propagate
    ({ s with toCore := r.1, ok := r.2.isNone }, r.2.isNone)
  | p :: q :: rest =>
    ({ s with
      toCore := s.allocAttach p q rest false false
      clauses := s.clauses ++ [s.caSize] }, true)

/-- addClause_ -/
def addClause (s : Solver) (ps : Clause ℕ) : Solver × Bool :=
  if s.ok = false then (s, false)
  else
    match simplifyLits s.assigns none (ps.insertionSort fun a b => index a ≤ index b) with
    | none => (s, true)
    | some lits => s.addLits lits

def importUnitClauses (s : Solver) : List (Literal ℕ) → Solver
  | [] => s
  | l :: rest =>
    if s.assigns l.1 = none then
      importUnitClauses (s.setCore (s.toCore.uncheckedEnqueue l none)) rest
    else importUnitClauses s rest

def importClauses (s : Solver) : List (Literal ℕ × Literal ℕ × Clause ℕ) → Solver
  | [] => s
  | (a, b, rest) :: queue =>
    importClauses
      { s with
        toCore := s.allocAttach a b rest true (s.falseWatch a b)
        learnts := s.learnts ++ [s.caSize] } queue

/-! ### Search -/

def rebuildOrderHeap (s : Solver) : Solver :=
  { s with heap := (List.range s.nVars).filter fun v => s.decision v && (s.assigns v).isNone }

/-- Of simplify, where the flag remove_satisfied is off. -/
def cleanLearnts (s : Solver) : Solver :=
  let r := s.toCore.removeSatisfied s.learnts
  rebuildOrderHeap { s with toCore := r.1, learnts := r.2 }

def simplify (s : Solver) (i : Input) : Solver × Bool :=
  if s.ok = false then (s, false)
  else
    let r := s.propagate
    let s := s.setCore r.1
    match r.2 with
    | some _ => ({ s with ok := false }, false)
    | none => if i.simplify then (s.cleanLearnts, true) else (s, true)

def reduceDB (s : Solver) (i : Input) : Solver :=
  let r := s.toCore.reduceDB i.drop (i.sort s.learnts)
  { s with toCore := r.1, learnts := r.2 }

def popUntil (free : ℕ → Bool) : List ℕ → Option ℕ × List ℕ
  | [] => (none, [])
  | v :: rest => if free v then (some v, rest) else popUntil free rest

def pickBranchVar (s : Solver) (i : Input) : Option ℕ × List ℕ :=
  let free (v : ℕ) : Bool := (s.assigns v).isNone && s.decision v
  match (i.random.bind fun k => s.heap[k]?).filter free with
  | some v => (some v, s.heap)
  | none => popUntil free (i.order s.heap)

inductive Assumed where
  /-- All assumptions are true. -/
  | all (s : Solver)
  | decide (s : Solver) (p : Literal ℕ)
  | failed (s : Solver) (p : Literal ℕ)

/-- The assumptions from the decision level on. -/
def assume (s : Solver) : List (Literal ℕ) → Assumed
  | [] => .all s
  | p :: rest =>
    if IsTrue s.assigns p then assume (s.setCore s.newDecisionLevel) rest
    else if IsFalse s.assigns p then .failed s p
    else .decide s p

/-- A turn of the search: it goes on, after a conflict with a learnt clause for
the callback, or it ends with l_True, l_False or l_Undef. -/
inductive Outcome where
  | next (s : Solver)
  | learnt (s : Solver) (c : Clause ℕ)
  | answer (s : Solver) (status : Option Bool)
  /-- An assertion fails or a read is out of bounds. -/
  | stuck

def decide (s : Solver) (p : Literal ℕ) : Solver :=
  s.setCore (s.newDecisionLevel.uncheckedEnqueue p none)

def learn (s : Solver) : Clause ℕ → Option Solver
  | [] => none
  | [p] => some (s.setCore (s.toCore.uncheckedEnqueue p none))
  | p :: q :: rest =>
    some
      { s with
        toCore := (s.allocAttach p q rest true false).uncheckedEnqueue p (some s.caSize)
        learnts := s.learnts ++ [s.caSize] }

def onConflict (s : Solver) (confl : ℕ) : Outcome :=
  if s.decisionLevel = 0 then .answer s (some false)
  else
    match analyze s.toCore s.seen s.ccminMode confl with
    | none => .stuck
    | some a =>
      match (cancelUntil { s with seen := a.seen } a.btlevel).learn a.learnt with
      | none => .stuck
      | some s => .learnt s a.learnt

def branch (s : Solver) (i : Input) : Outcome :=
  match s.assume (s.assumptions.drop s.decisionLevel) with
  | .failed s p =>
    let r := analyzeFinal s.toCore s.seen (negate p)
    .answer { s with seen := r.1, conflict := r.2 } (some false)
  | .decide s p => .next (s.decide p)
  | .all s =>
    match s.pickBranchVar i with
    | (none, heap) => .answer { s with heap := heap } (some true)
    | (some v, heap) => .next (({ s with heap := heap } : Solver).decide (v, i.sign v))

def noConflict (s : Solver) (i : Input) : Outcome :=
  if i.stop then
    -- search returns l_Undef, and solve_ starts it again
    if i.interrupted then .answer (s.cancelUntil 0) none else .next (s.cancelUntil 0)
  else
    let r := if s.decisionLevel = 0 then s.simplify i else (s, true)
    if r.2 then (if i.reduce then r.1.reduceDB i else r.1).branch i
    else .answer r.1 (some false)

/-- At the beginning of a turn at level 0. -/
def importAll (s : Solver) (i : Input) : Solver :=
  if s.decisionLevel = 0 then (s.importUnitClauses i.units).importClauses i.imports else s

def turn (s : Solver) (i : Input) : Outcome :=
  let s := s.importAll i
  let r := s.propagate
  match r.2 with
  | some confl => (s.setCore r.1).onConflict confl
  | none => (s.setCore r.1).noConflict i

/-- The end of solve_. -/
def finish (s : Solver) (status : Option Bool) : Solver :=
  let s :=
    if status = some true then { s with model := (List.range s.nVars).map s.assigns }
    else if status = some false ∧ s.conflict = [] then { s with ok := false }
    else s
  s.cancelUntil 0

end Solver

/-! ### Runs -/

inductive Pc where
  | idle
  | searching
  | stuck
deriving DecidableEq

structure State where
  solver : Solver
  pc : Pc
  /-- What addClause was given, and what was imported. -/
  formula : Formula ℕ
  imported : Formula ℕ
  exported : List (Clause ℕ)
  /-- What the last call has returned if it was solve. -/
  answer : Option (Option Bool)

inductive Action where
  | newVar (dvar : Bool)
  | addClause (ps : Clause ℕ)
  | solve (assumps : List (Literal ℕ))
  | turn (i : Input)

def InRange (s : Core) (c : Clause ℕ) : Prop := ∀ l ∈ c, l.1 < s.nVars

instance (s : Core) (c : Clause ℕ) : Decidable (InRange s c) :=
  inferInstanceAs (Decidable (∀ l ∈ c, _))

def clauseOf (c : Literal ℕ × Literal ℕ × Clause ℕ) : Clause ℕ := c.1 :: c.2.1 :: c.2.2

/-- The imported clauses are of known variables, none of which is twice in one. -/
def Input.Valid (s : Core) (i : Input) : Prop :=
  InRange s i.units ∧ ∀ c ∈ i.imports, InRange s (clauseOf c) ∧ ((clauseOf c).map Prod.fst).Nodup

instance (s : Core) (i : Input) : Decidable (i.Valid s) :=
  inferInstanceAs (Decidable (_ ∧ ∀ c ∈ i.imports, _))

/-- What a turn imports. -/
def Input.imported (s : Core) (i : Input) : Formula ℕ :=
  if s.decisionLevel = 0 then i.units.map (fun l => [l]) ++ i.imports.map clauseOf else []

def State.after (s : State) : Solver.Outcome → State
  | .next t => { s with solver := t }
  | .learnt t c => { s with solver := t, exported := s.exported ++ [c] }
  | .answer t status => { s with solver := t.finish status, pc := .idle, answer := some status }
  | .stuck => { s with pc := .stuck }

/-- The beginning of solve_. -/
def State.solve (s : State) (assumps : List (Literal ℕ)) : State :=
  let t : Solver := { s.solver with assumptions := assumps, model := [], conflict := [] }
  if t.ok then { s with solver := t, pc := .searching, answer := none }
  else { s with solver := t, answer := some (some false) }

def step (s : State) : Action → Option State
  | .newVar dvar =>
    if s.pc = .idle then some { s with solver := s.solver.newVar dvar, answer := none } else none
  | .addClause ps =>
    if s.pc = .idle ∧ InRange s.solver.toCore ps then
      some
        { s with
          solver := (s.solver.addClause ps).1
          formula := s.formula ++ [ps]
          answer := none }
    else none
  | .solve assumps =>
    if s.pc = .idle ∧ InRange s.solver.toCore assumps then some (s.solve assumps) else none
  | .turn i =>
    if s.pc = .searching ∧ i.Valid s.solver.toCore then
      some ({ s with imported := s.imported ++ i.imported s.solver.toCore }.after
        (s.solver.turn i))
    else none

def emptyCore : Core where
  nVars := 0
  ca := fun _ => ⟨(0, true), (0, true), [], false, true, false⟩
  caSize := 0
  assigns := fun _ => none
  vardata := fun _ => ⟨none, 0⟩
  trail := []
  trailLim := []
  qhead := 0
  watches := fun _ => []
  dirty := fun _ => false

def init (ccminMode : ℕ) : State where
  solver :=
    { emptyCore with
      clauses := []
      learnts := []
      decision := fun _ => false
      heap := []
      seen := fun _ => .undef
      ccminMode := ccminMode
      ok := true
      assumptions := []
      conflict := []
      model := [] }
  pc := .idle
  formula := []
  imported := []
  exported := []
  answer := none

def machine : Machine State Action where
  Init := fun s => ∃ ccminMode, s = init ccminMode
  step := step

end Painless.MiniSatSearch
