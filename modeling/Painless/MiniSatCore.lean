import Painless.ImportedWatches

/-!
The state on which the MiniSat engine propagates: its clauses, the trail with
reasons and levels, and the watches, which are cleaned when they are looked up.
The two loops of propagate are followed watcher by watcher. References of
clauses are indices, so the garbage collector, which moves clauses and renames
references, does not appear; nor do the statistics.
-/
namespace Painless.MiniSatCore

open Cnf PartialAssignment
open ImportedWatches (Watcher pushWatch attach)

/-- A clause in the allocator. Only clauses of two literals or more are put
there. -/
structure Cell where
  first : Literal ℕ
  second : Literal ℕ
  rest : Clause ℕ
  learnt : Bool
  /-- `mark() == 1` -/
  removed : Bool
  /-- History: the clause has come from the callback, and one of its watches was false
  already. -/
  stale : Bool

namespace Cell

def lits (c : Cell) : Clause ℕ := c.first :: c.second :: c.rest

/-- The literals from `c[1]` on. -/
def tail (c : Cell) : Clause ℕ := c.second :: c.rest

/-- Make sure the false literal is `c[1]`. -/
def turn (c : Cell) (falseLit : Literal ℕ) : Cell :=
  if c.first = falseLit then { c with first := c.second, second := falseLit } else c

end Cell

structure VarData where
  reason : Option ℕ
  level : ℕ

structure Core where
  nVars : ℕ
  ca : ℕ → Cell
  /-- The next reference that the allocator gives out. -/
  caSize : ℕ
  assigns : Partial ℕ
  vardata : ℕ → VarData
  trail : List (Literal ℕ)
  trailLim : List ℕ
  qhead : ℕ
  watches : Literal ℕ → List Watcher
  dirty : Literal ℕ → Bool

namespace Core

def reason (s : Core) (v : ℕ) : Option ℕ := (s.vardata v).reason

def level (s : Core) (v : ℕ) : ℕ := (s.vardata v).level

def decisionLevel (s : Core) : ℕ := s.trailLim.length

def newDecisionLevel (s : Core) : Core := { s with trailLim := s.trailLim ++ [s.trail.length] }

def uncheckedEnqueue (s : Core) (p : Literal ℕ) (reason : Option ℕ) : Core :=
  { s with
    assigns := Function.update s.assigns p.1 (some p.2)
    vardata := Function.update s.vardata p.1 ⟨reason, s.decisionLevel⟩
    trail := s.trail ++ [p] }

def setCell (s : Core) (cr : ℕ) (c : Cell) : Core := { s with ca := Function.update s.ca cr c }

def setWatches (s : Core) (p : Literal ℕ) (ws : List Watcher) : Core :=
  { s with watches := Function.update s.watches p ws }

/-- The trail from `trail_lim[level]` on is taken back. -/
def cancelUntil (s : Core) (level : ℕ) : Core :=
  match s.trailLim[level]? with
  | none => s
  | some lim =>
    { s with
      assigns := (s.trail.drop lim).foldl (fun M l => Function.update M l.1 none) s.assigns
      trail := s.trail.take lim
      trailLim := s.trailLim.take level
      qhead := lim }

/-! ### Clauses -/

/-- ClauseAllocator::alloc, then attachClause. -/
def allocAttach (s : Core) (a b : Literal ℕ) (rest : Clause ℕ) (learnt stale : Bool) : Core :=
  { s with
    ca := Function.update s.ca s.caSize ⟨a, b, rest, learnt, false, stale⟩
    caSize := s.caSize + 1
    watches := attach s.watches s.caSize a b }

/-- One of the two literals is false, and that has been propagated. -/
def falseWatch (s : Core) (a b : Literal ℕ) : Bool :=
  decide (negate a ∈ s.trail.take s.qhead ∨ negate b ∈ s.trail.take s.qhead)

/-- The clause is the reason of its first literal. -/
def Locked (s : Core) (cr : ℕ) : Prop :=
  IsTrue s.assigns (s.ca cr).first ∧ s.reason (s.ca cr).first.1 = some cr

instance (s : Core) (cr : ℕ) : Decidable (s.Locked cr) := inferInstanceAs (Decidable (_ ∧ _))

/-- The watchers of a removed clause stay in the lists, which are cleaned later. -/
def removeClause (s : Core) (cr : ℕ) : Core :=
  let c := s.ca cr
  { s with
    dirty := Function.update (Function.update s.dirty (negate c.first) true) (negate c.second) true
    vardata :=
      if s.Locked cr then Function.update s.vardata c.first.1 ⟨none, s.level c.first.1⟩
      else s.vardata
    ca := Function.update s.ca cr { c with removed := true } }

/-- OccLists::lookup -/
def lookup (s : Core) (p : Literal ℕ) : Core :=
  if s.dirty p then
    { s with
      watches := Function.update s.watches p
        ((s.watches p).filter fun w => !(s.ca w.cref).removed)
      dirty := Function.update s.dirty p false }
  else s

/-! ### Propagation -/

/-- The first literal that is not false, and the clause with `falseLit` in its
place. -/
def newWatch (M : Partial ℕ) (falseLit : Literal ℕ) : Clause ℕ → Option (Literal ℕ × Clause ℕ)
  | [] => none
  | q :: rest =>
    if IsFalse M q then (newWatch M falseLit rest).map fun r => (r.1, q :: r.2)
    else some (q, falseLit :: rest)

/-- What becomes of a watcher: it stays in the list, its clause is watched by
another literal, or the clause is false. -/
inductive Visit where
  | keep (s : Core) (w : Watcher)
  | move (s : Core)
  | conflict (s : Core) (w : Watcher)

/-- The turn of the inner loop for a clause whose false literal is `c[1]`. -/
def visitTurned (s : Core) (p : Literal ℕ) (w : Watcher) : Visit :=
  let c := s.ca w.cref
  let w' : Watcher := ⟨w.cref, c.first⟩
  if c.first ≠ w.blocker ∧ IsTrue s.assigns c.first then .keep s w'
  else
    match newWatch s.assigns (negate p) c.rest with
    | some (q, rest) =>
      let s' := s.setCell w.cref { c with second := q, rest := rest }
      .move { s' with watches := pushWatch s.watches (negate q) w' }
    | none =>
      if IsFalse s.assigns c.first then .conflict { s with qhead := s.trail.length } w'
      else .keep (s.uncheckedEnqueue c.first (some w.cref)) w'

/-- One turn of the inner loop, for a watcher of `p`. -/
def visit (s : Core) (p : Literal ℕ) (w : Watcher) : Visit :=
  if IsTrue s.assigns w.blocker then .keep s w
  else visitTurned (s.setCell w.cref ((s.ca w.cref).turn (negate p))) p w

/-- The inner loop over the watchers of `p`, of which `kept` are to stay. After a
conflict the remaining ones are copied. -/
def visitAll (p : Literal ℕ) : Core → List Watcher → List Watcher →
    Core × List Watcher × Option ℕ
  | s, kept, [] => (s, kept, none)
  | s, kept, w :: rest =>
    match visit s p w with
    | .keep s w => visitAll p s (kept ++ [w]) rest
    | .move s => visitAll p s kept rest
    | .conflict s w => (s, kept ++ w :: rest, some w.cref)

/-- One turn of the outer loop, for the literal `p` at qhead. -/
def propagateLit (s : Core) (p : Literal ℕ) : Core × Option ℕ :=
  let s := { s with qhead := s.qhead + 1 }.lookup p
  let r := visitAll p s [] (s.watches p)
  (r.1.setWatches p r.2.1, r.2.2)

/-- The outer loop; `fuel` bounds its turns. -/
def propagateLoop : ℕ → Core → Option ℕ → Core × Option ℕ
  | 0, s, confl => (s, confl)
  | fuel + 1, s, confl =>
    match s.trail[s.qhead]? with
    | none => (s, confl)
    | some p =>
      let r := s.propagateLit p
      propagateLoop fuel r.1 (r.2.or confl)

/-- Every turn takes an entry of the trail, which has one for each variable at
most. -/
def propagate (s : Core) : Core × Option ℕ := propagateLoop (s.nVars + 1) s none

/-! ### Learnt clauses at level 0 -/

def Satisfied (s : Core) (cr : ℕ) : Prop := ClauseTrue s.assigns (s.ca cr).lits

instance (s : Core) (cr : ℕ) : Decidable (s.Satisfied cr) :=
  inferInstanceAs (Decidable (ClauseTrue _ _))

/-- A false literal is overwritten by the last one, which is looked at next. -/
def trim (M : Partial ℕ) : ℕ → Clause ℕ → Clause ℕ
  | _, [] => []
  | 0, c => c
  | n + 1, q :: rest =>
    if IsFalse M q then
      match rest.getLast? with
      | none => []
      | some last => trim M n (last :: rest.dropLast)
    else q :: trim M n rest

/-- Solver::removeSatisfied: what is left of the list. -/
def removeSatisfied : Core → List ℕ → Core × List ℕ
  | s, [] => (s, [])
  | s, cr :: rest =>
    if s.Satisfied cr then removeSatisfied (s.removeClause cr) rest
    else
      let c := s.ca cr
      let r := removeSatisfied
        (s.setCell cr { c with rest := trim s.assigns c.rest.length c.rest }) rest
      (r.1, cr :: r.2)

/-- The loop of reduceDB over the sorted list; `drop` says which clauses are in
its first half or below the limit of activity. -/
def reduceDB (drop : ℕ → Bool) : Core → List ℕ → Core × List ℕ
  | s, [] => (s, [])
  | s, cr :: rest =>
    if 2 < (s.ca cr).lits.length ∧ ¬ s.Locked cr ∧ drop cr = true then
      reduceDB drop (s.removeClause cr) rest
    else
      let r := reduceDB drop s rest
      (r.1, cr :: r.2)

end Core

end Painless.MiniSatCore
