import Painless.Cnf
import Painless.SolverInterface
import Painless.Transitions
import Mathlib.Data.List.Basic
import Mathlib.Logic.Function.Basic

/-!
The divide-and-conquer working strategy: its four lists of slaves, the cube of
each slave, and the critical sections taken under mutexListsWorkers. The master
hands an idle slave to a running worker and interrupts it; a worker that comes
back with UNKNOWN splits its cube with the idle slave at the head of
oversSplitting; a worker that comes back with UNSAT closes its cube, and gives
the idle slave back if it had been asked to split.
A critical section returns `none` where the C++ code reads a pointer that was
never assigned or is null. The time stamps and the logs are left out: they
decide only how long the master sleeps.
-/
namespace Painless.DivideAndConquer

open SolverInterface Transitions

/-! ### Helpers on the lists -/

section Vectors
variable {W : Type*}

def getHeadFromVector : List W → Option (W × List W)
  | [] => none
  | ws :: rest => some (ws, rest)

theorem getHeadFromVector_eq_some {vec : List W} {ws : W} {rest : List W} :
    getHeadFromVector vec = some (ws, rest) ↔ vec = ws :: rest := by
  cases vec <;> simp [getHeadFromVector]

variable [DecidableEq W]

/-- Removes the first occurrence. No caller reads the Boolean results of the
helpers, so only the vector after the call is returned. -/
def removeFromVector (vec : List W) (ws : W) : List W := vec.erase ws

def addOnceToVectorTail (vec : List W) (ws : W) : List W :=
  if ws ∈ vec then vec else vec ++ [ws]

def addOnceToVectorHead (vec : List W) (ws : W) : List W :=
  if ws ∈ vec then vec else ws :: vec

def doesVectorContain (vec : List W) (ws : W) : Bool := decide (ws ∈ vec)

theorem addOnceToVectorTail_of_notMem {vec : List W} {ws : W} (h : ws ∉ vec) :
    addOnceToVectorTail vec ws = vec ++ [ws] := if_neg h

theorem addOnceToVectorHead_of_notMem {vec : List W} {ws : W} (h : ws ∉ vec) :
    addOnceToVectorHead vec ws = ws :: vec := if_neg h

end Vectors

/-! ### The strategy and its slaves -/

/-- Solvers are identified by the number SolverFactory gives them. -/
abbrev SolverId := ℕ

/-- The calls that join makes on a Sharer and on a solver it drops. -/
inductive SharingCall where
  | addConsumer (sharer : ℕ) (solver : SolverId)
  | addProducer (sharer : ℕ) (solver : SolverId)
  | removeConsumer (sharer : ℕ) (solver : SolverId)
  | removeProducer (sharer : ℕ) (solver : SolverId)
  | release (solver : SolverId)
  deriving DecidableEq, Repr

/-- What main fixes before the master starts. The slaves are distinct objects,
and each is built on a solver of its own or, in copy-mode 2, on none. -/
structure Config (W : Type*) where
  slaves : List W
  nodup : slaves.Nodup
  /-- The cube DivideAndConquer::solve was given. -/
  actualCube : List ℤ
  /-- The parameter copy-mode: 2 clones the solver at a split. -/
  cloneStrategy : ℕ
  nSharers : ℕ
  solverType : SolverType
  /-- The solver each slave was built with. -/
  solver : W → Option SolverId
  /-- SolverFactory's counter after main has created the solvers. -/
  currentIdSolver : SolverId
  solverOwned : ∀ a b x, solver a = some x → solver b = some x → a = b
  solverFresh : ∀ w x, solver w = some x → x < currentIdSolver

/-- The four vectors and the counter that mutexListsWorkers protects. -/
structure SlaveLists (W : Type*) where
  overs : List W
  workers : List W
  workersSplitting : List W
  oversSplitting : List W
  nWorkers : ℤ

structure State (W : Type*) extends SlaveLists W where
  nDivisions : ℕ
  nCancelledDivisions : ℕ
  cubes : W → List ℤ
  /-- SequentialWorker::actualCube, the cube a slave's thread solves under. -/
  given : W → List ℤ
  /-- SequentialWorker::interrupt. -/
  interrupt : W → Bool
  solver : W → Option SolverId
  /-- The interrupt request of each solver. -/
  stopSolver : SolverId → Bool
  currentIdSolver : SolverId
  calls : List SharingCall

variable {W : Type*} [DecidableEq W]

namespace State

/-- SequentialWorker::setInterrupt. -/
def setInterrupt (s : State W) (w : W) : State W :=
  { s with
    interrupt := Function.update s.interrupt w true
    stopSolver := match s.solver w with
      | some x => Function.update s.stopSolver x true
      | none => s.stopSolver }

/-- SequentialWorker::unsetInterrupt, which does nothing without a solver. -/
def unsetInterrupt (s : State W) (w : W) : State W :=
  match s.solver w with
  | some x =>
    { s with
      interrupt := Function.update s.interrupt w false
      stopSolver := Function.update s.stopSolver x false }
  | none => s

/-- SequentialWorker::solve. -/
def solve (s : State W) (w : W) (cube : List ℤ) : State W :=
  { s with given := Function.update s.given w cube }.unsetInterrupt w

/-- In copy-mode 2 the idle slave gets a clone of the splitting worker's
solver, which is made known to every sharer. SolverFactory::cloneSolver returns
null for MiniSat, and a sharer reads the solver it is given. -/
def cloneSolver (cfg : Config W) (s : State W) (overSlave : W) : Option (State W) :=
  if cfg.solverType = .minisat then
    if cfg.nSharers = 0 then
      some { s with
        solver := Function.update s.solver overSlave none
        currentIdSolver := s.currentIdSolver + 1 }
    else none
  else
    some { s with
      solver := Function.update s.solver overSlave (some s.currentIdSolver)
      stopSolver := Function.update s.stopSolver s.currentIdSolver false
      currentIdSolver := s.currentIdSolver + 1
      calls := s.calls ++ (List.range cfg.nSharers).flatMap fun i =>
        [.addConsumer i s.currentIdSolver, .addProducer i s.currentIdSolver] }

/-- In copy-mode 2 a worker that has closed its cube drops its solver. -/
def dropSolver (cfg : Config W) (s : State W) (current : W) : State W :=
  match s.solver current with
  | none => s
  | some x =>
    { s with
      solver := Function.update s.solver current none
      calls := s.calls ++ ((List.range cfg.nSharers).flatMap fun i =>
        [SharingCall.removeConsumer i x, .removeProducer i x]) ++ [.release x] }

end State

open State

/-- The master's start-up: every slave idle, then the first one launched. -/
def startUp (cfg : Config W) : Option (State W) :=
  (getHeadFromVector cfg.slaves).map fun (actualWorker, overs) =>
    let s : State W :=
      { overs := overs
        workers := [actualWorker]
        workersSplitting := []
        oversSplitting := []
        nWorkers := 1
        nDivisions := 0
        nCancelledDivisions := 0
        cubes := fun w => if w ∈ cfg.slaves then cfg.actualCube else []
        given := fun _ => []
        interrupt := fun _ => true
        solver := cfg.solver
        stopSolver := fun _ => false
        currentIdSolver := cfg.currentIdSolver
        calls := [] }
    s.solve actualWorker (s.cubes actualWorker)

/-- One round of the master's loop that asks a worker to split. It waits while
there is no idle slave or no worker, and leaves the loop when nWorkers is 0. -/
def handOver (s : State W) : Option (State W) :=
  match getHeadFromVector s.overs, getHeadFromVector s.workers with
  | some (actualOver, overs), some (actualWorker, workers) =>
    if s.nWorkers = 0 then none
    else
      some ({ s with
        overs := overs
        workers := workers
        workersSplitting := addOnceToVectorTail s.workersSplitting actualWorker
        oversSplitting := addOnceToVectorTail s.oversSplitting actualOver
        }.setInterrupt actualWorker)
  | _, _ => none

/-- The worker and the idle slave it was given go on with the two halves of the
worker's cube. -/
def launchHalves (s : State W) (current overSlave : W) (var : ℤ) : State W :=
  let cubes := Function.update s.cubes overSlave (s.cubes current)
  let cubes := Function.update cubes current (cubes current ++ [var])
  let cubes := Function.update cubes overSlave (cubes overSlave ++ [-var])
  let s := { s with
    cubes := cubes
    workers := s.workers ++ [current, overSlave]
    nWorkers := s.nWorkers + 1 }
  (s.solve current (cubes current)).solve overSlave (cubes overSlave)

/-- DivideAndConquer::join with UNKNOWN: the worker splits its cube on the
literal its solver chooses. Both cloneSolver and getDivisionVariable read the
worker's solver. -/
def joinUnknown (cfg : Config W) (s : State W) (current : W) (var : ℤ) :
    Option (State W) :=
  match getHeadFromVector s.oversSplitting, s.solver current with
  | some (overSlave, oversSplitting), some _ =>
    let s := { s with
      nDivisions := s.nDivisions + 1
      oversSplitting := oversSplitting
      workersSplitting := removeFromVector s.workersSplitting current }
    (if cfg.cloneStrategy = 2 then s.cloneSolver cfg overSlave else some s).map
      fun s => launchHalves s current overSlave var
  | _, _ => none

/-- The list part of DivideAndConquer::join with UNSAT: a worker that was to
split cancels the division and gives an idle slave back. -/
def leaveWorkers (s : State W) (current : W) : Option (State W) :=
  if doesVectorContain s.workersSplitting current then
    (getHeadFromVector s.oversSplitting).map fun (oldOver, oversSplitting) =>
      { s with
        nCancelledDivisions := s.nCancelledDivisions + 1
        oversSplitting := oversSplitting
        overs := addOnceToVectorHead s.overs oldOver
        workersSplitting := removeFromVector s.workersSplitting current }
  else some { s with workers := removeFromVector s.workers current }

/-- DivideAndConquer::join with UNSAT, up to the test of nWorkers and, while
other workers are left, to its return. -/
def joinUnsat (cfg : Config W) (s : State W) (current : W) : Option (State W) :=
  (leaveWorkers s current).map fun s =>
    let s := { s with overs := addOnceToVectorTail s.overs current }.setInterrupt current
    let s := { s with nWorkers := s.nWorkers - 1 }
    if 0 < s.nWorkers ∧ cfg.cloneStrategy = 2 then s.dropSolver cfg current else s

/-! ### The critical sections as a machine -/

inductive Action (W : Type*) where
  | handOver
  | joinUnknown (current : W) (var : ℤ)
  | joinUnsat (current : W)

/-- The slave whose join the action is. -/
def Action.current : Action W → Option W
  | .handOver => none
  | .joinUnknown current _ => some current
  | .joinUnsat current => some current

def step (cfg : Config W) (s : State W) : Action W → Option (State W)
  | .handOver => handOver s
  | .joinUnknown current var => joinUnknown cfg s current var
  | .joinUnsat current => joinUnsat cfg s current

/-- The critical sections under mutexListsWorkers, from the master's start-up on. -/
def machine (cfg : Config W) : Machine (State W) (Action W) where
  Init s := startUp cfg = some s
  step := step cfg

/-- A worker is active from its launch until it has closed its cube. -/
def Active (s : State W) (w : W) : Prop := w ∈ s.workers ∨ w ∈ s.workersSplitting

/-- UNKNOWN is reported by a worker that was asked to split, UNSAT by an active
worker. -/
def Reports (s : State W) : Action W → Prop
  | .handOver => True
  | .joinUnknown current _ => current ∈ s.workersSplitting
  | .joinUnsat current => Active s current

instance (s : State W) (w : W) : Decidable (Active s w) :=
  inferInstanceAs (Decidable (w ∈ s.workers ∨ w ∈ s.workersSplitting))

instance (s : State W) : ∀ a, Decidable (Reports s a)
  | .handOver => inferInstanceAs (Decidable True)
  | .joinUnknown current _ => inferInstanceAs (Decidable (current ∈ s.workersSplitting))
  | .joinUnsat current => inferInstanceAs (Decidable (Active s current))

/-! ### What the steps leave alone -/

namespace State

variable (s : State W) (w : W)

@[simp] theorem setInterrupt_toSlaveLists :
    (s.setInterrupt w).toSlaveLists = s.toSlaveLists := rfl

@[simp] theorem setInterrupt_cubes : (s.setInterrupt w).cubes = s.cubes := rfl

@[simp] theorem setInterrupt_given : (s.setInterrupt w).given = s.given := rfl

@[simp] theorem unsetInterrupt_toSlaveLists :
    (s.unsetInterrupt w).toSlaveLists = s.toSlaveLists := by
  unfold unsetInterrupt
  split <;> rfl

@[simp] theorem unsetInterrupt_cubes : (s.unsetInterrupt w).cubes = s.cubes := by
  unfold unsetInterrupt
  split <;> rfl

@[simp] theorem unsetInterrupt_given : (s.unsetInterrupt w).given = s.given := by
  unfold unsetInterrupt
  split <;> rfl

@[simp] theorem solve_toSlaveLists (cube : List ℤ) :
    (s.solve w cube).toSlaveLists = s.toSlaveLists := by
  simp [solve]

@[simp] theorem solve_cubes (cube : List ℤ) : (s.solve w cube).cubes = s.cubes := by
  simp [solve]

@[simp] theorem solve_given (cube : List ℤ) :
    (s.solve w cube).given = Function.update s.given w cube := by
  simp [solve]

/-- Cloning a solver changes neither the lists nor any cube. -/
theorem cloneSolver_frame {cfg : Config W} {s t : State W} {overSlave : W}
    (h : s.cloneSolver cfg overSlave = some t) :
    t.toSlaveLists = s.toSlaveLists ∧ t.cubes = s.cubes ∧ t.given = s.given := by
  unfold cloneSolver at h
  split at h
  · split at h
    · obtain rfl := Option.some.inj h
      exact ⟨rfl, rfl, rfl⟩
    · exact absurd h (by simp)
  · obtain rfl := Option.some.inj h
    exact ⟨rfl, rfl, rfl⟩

theorem dropSolver_frame (cfg : Config W) :
    (s.dropSolver cfg w).toSlaveLists = s.toSlaveLists ∧ (s.dropSolver cfg w).cubes = s.cubes ∧
      (s.dropSolver cfg w).given = s.given := by
  unfold dropSolver
  split <;> exact ⟨rfl, rfl, rfl⟩

end State

/-! ### What each critical section does -/

theorem startUp_spec {cfg : Config W} {s : State W} (h : startUp cfg = some s) :
    ∃ first rest, cfg.slaves = first :: rest ∧
      s.toSlaveLists = ⟨rest, [first], [], [], 1⟩ ∧
      s.cubes first = cfg.actualCube ∧ s.given first = cfg.actualCube := by
  unfold startUp at h
  obtain ⟨⟨first, rest⟩, hhead, rfl⟩ := Option.map_eq_some_iff.mp h
  have hslaves : cfg.slaves = first :: rest := getHeadFromVector_eq_some.mp hhead
  refine ⟨first, rest, hslaves, ?_, ?_, ?_⟩
  · simp
  · simp [hslaves]
  · simp [hslaves]

theorem handOver_eq {s t : State W} (h : handOver s = some t) :
    ∃ overSlave overs worker workers,
      s.overs = overSlave :: overs ∧ s.workers = worker :: workers ∧
      t = State.setInterrupt { s with
        overs := overs
        workers := workers
        workersSplitting := addOnceToVectorTail s.workersSplitting worker
        oversSplitting := addOnceToVectorTail s.oversSplitting overSlave } worker := by
  unfold handOver at h
  split at h
  case h_2 => exact absurd h (by simp)
  case h_1 overSlave overs worker workers hovers hworkers =>
    split at h
    · exact absurd h (by simp)
    · exact ⟨overSlave, overs, worker, workers, getHeadFromVector_eq_some.mp hovers,
        getHeadFromVector_eq_some.mp hworkers, (Option.some.inj h).symm⟩

theorem handOver_spec {s t : State W} (h : handOver s = some t) :
    ∃ overSlave overs worker workers,
      s.overs = overSlave :: overs ∧ s.workers = worker :: workers ∧
      t.toSlaveLists = ⟨overs, workers, addOnceToVectorTail s.workersSplitting worker,
        addOnceToVectorTail s.oversSplitting overSlave, s.nWorkers⟩ ∧
      t.cubes = s.cubes ∧ t.given = s.given := by
  obtain ⟨overSlave, overs, worker, workers, hovers, hworkers, rfl⟩ := handOver_eq h
  exact ⟨overSlave, overs, worker, workers, hovers, hworkers, rfl, rfl, rfl⟩

/-- The cubes after a split: the worker keeps its cube with the division
literal, the idle slave gets it with the opposite literal. -/
def halveCubes (cubes : W → List ℤ) (current overSlave : W) (var : ℤ) : W → List ℤ :=
  Function.update (Function.update cubes current (cubes current ++ [var])) overSlave
    (cubes current ++ [-var])

theorem launchHalves_lists (s : State W) (current overSlave : W) (var : ℤ) :
    (launchHalves s current overSlave var).toSlaveLists =
      { s.toSlaveLists with
        workers := s.workers ++ [current, overSlave]
        nWorkers := s.nWorkers + 1 } := by
  simp [launchHalves]

theorem launchHalves_cubes (s : State W) {current overSlave : W} (hne : overSlave ≠ current)
    (var : ℤ) :
    (launchHalves s current overSlave var).cubes = halveCubes s.cubes current overSlave var := by
  funext w
  by_cases hover : w = overSlave
  · subst hover
    simp [launchHalves, halveCubes, hne]
  · by_cases hcurrent : w = current
    · subst hcurrent
      simp [launchHalves, halveCubes, hover]
    · simp [launchHalves, halveCubes, hover, hcurrent]

/-- Both halves are given to their slaves as the cubes to solve under. -/
theorem launchHalves_given (s : State W) (current overSlave : W) (var : ℤ) :
    (launchHalves s current overSlave var).given =
      Function.update (Function.update s.given current
        ((launchHalves s current overSlave var).cubes current)) overSlave
        ((launchHalves s current overSlave var).cubes overSlave) := by
  simp [launchHalves]

/-- The state in which the two halves are launched: the lists without the pair,
and in copy-mode 2 the clone made for the idle slave. -/
theorem joinUnknown_eq {cfg : Config W} {s t : State W} {current : W} {var : ℤ}
    (h : joinUnknown cfg s current var = some t) :
    ∃ overSlave oversSplitting x u,
      s.oversSplitting = overSlave :: oversSplitting ∧ s.solver current = some x ∧
      (let v := { s with
        nDivisions := s.nDivisions + 1
        oversSplitting := oversSplitting
        workersSplitting := removeFromVector s.workersSplitting current }
      u = v ∨ State.cloneSolver cfg v overSlave = some u) ∧
      t = launchHalves u current overSlave var := by
  unfold joinUnknown at h
  split at h
  case h_2 => exact absurd h (by simp)
  case h_1 overSlave oversSplitting x hovers hsolver =>
    obtain ⟨u, hu, rfl⟩ := Option.map_eq_some_iff.mp h
    refine ⟨overSlave, oversSplitting, x, u, getHeadFromVector_eq_some.mp hovers, hsolver,
      ?_, rfl⟩
    split at hu
    · exact Or.inr hu
    · exact Or.inl (Option.some.inj hu).symm

theorem joinUnknown_spec {cfg : Config W} {s t : State W} {current : W} {var : ℤ}
    (h : joinUnknown cfg s current var = some t) :
    ∃ overSlave oversSplitting, s.oversSplitting = overSlave :: oversSplitting ∧
      t.toSlaveLists = ⟨s.overs, s.workers ++ [current, overSlave],
        removeFromVector s.workersSplitting current, oversSplitting, s.nWorkers + 1⟩ ∧
      (overSlave ≠ current → t.cubes = halveCubes s.cubes current overSlave var) ∧
      t.given = Function.update (Function.update s.given current (t.cubes current))
        overSlave (t.cubes overSlave) := by
  obtain ⟨overSlave, oversSplitting, x, u, hovers, -, hu, rfl⟩ := joinUnknown_eq h
  have hframe : u.toSlaveLists = ⟨s.overs, s.workers,
      removeFromVector s.workersSplitting current, oversSplitting, s.nWorkers⟩ ∧
      u.cubes = s.cubes ∧ u.given = s.given := by
    rcases hu with rfl | hclone
    · exact ⟨rfl, rfl, rfl⟩
    · exact State.cloneSolver_frame hclone
  obtain ⟨hlists, hcubes, hgiven⟩ := hframe
  refine ⟨overSlave, oversSplitting, hovers, ?_, ?_, ?_⟩
  · rw [launchHalves_lists, hlists]
  · intro hne
    rw [launchHalves_cubes u hne, hcubes]
  · rw [← hgiven]
    exact launchHalves_given u current overSlave var

/-- The state after the interrupt and the count, of which copy-mode 2 may still
drop the solver. -/
theorem joinUnsat_eq {cfg : Config W} {s t : State W} {current : W}
    (h : joinUnsat cfg s current = some t) :
    ∃ u, leaveWorkers s current = some u ∧
      (let v := { State.setInterrupt { u with
          overs := addOnceToVectorTail u.overs current } current with
        nWorkers := u.nWorkers - 1 }
      t = v ∨ t = v.dropSolver cfg current) := by
  unfold joinUnsat at h
  obtain ⟨u, hu, rfl⟩ := Option.map_eq_some_iff.mp h
  refine ⟨u, hu, ?_⟩
  dsimp only
  split
  · exact Or.inr rfl
  · exact Or.inl rfl

/-- A worker that reports UNSAT either cancels the division it was asked for or
leaves the list of workers. -/
theorem joinUnsat_spec {cfg : Config W} {s t : State W} {current : W}
    (h : joinUnsat cfg s current = some t) :
    ((current ∈ s.workersSplitting ∧ ∃ overSlave oversSplitting,
        s.oversSplitting = overSlave :: oversSplitting ∧
        t.toSlaveLists = ⟨addOnceToVectorTail (addOnceToVectorHead s.overs overSlave) current,
          s.workers, removeFromVector s.workersSplitting current, oversSplitting,
          s.nWorkers - 1⟩) ∨
      (current ∉ s.workersSplitting ∧
        t.toSlaveLists = ⟨addOnceToVectorTail s.overs current,
          removeFromVector s.workers current, s.workersSplitting, s.oversSplitting,
          s.nWorkers - 1⟩)) ∧
      t.cubes = s.cubes ∧ t.given = s.given := by
  obtain ⟨u, hu, ht⟩ := joinUnsat_eq h
  have hframe : t.toSlaveLists = ⟨addOnceToVectorTail u.overs current, u.workers,
      u.workersSplitting, u.oversSplitting, u.nWorkers - 1⟩ ∧
      t.cubes = u.cubes ∧ t.given = u.given := by
    rcases ht with rfl | rfl
    · exact ⟨rfl, rfl, rfl⟩
    · exact State.dropSolver_frame _ current cfg
  obtain ⟨hlists, hcubes, hgiven⟩ := hframe
  rw [hlists, hcubes, hgiven]
  unfold leaveWorkers at hu
  split at hu
  case isTrue hsplitting =>
    obtain ⟨⟨overSlave, oversSplitting⟩, hovers, rfl⟩ := Option.map_eq_some_iff.mp hu
    exact ⟨Or.inl ⟨of_decide_eq_true hsplitting, overSlave, oversSplitting,
      getHeadFromVector_eq_some.mp hovers, rfl⟩, rfl, rfl⟩
  case isFalse hsplitting =>
    obtain rfl := Option.some.inj hu
    exact ⟨Or.inr ⟨fun hmem => hsplitting (decide_eq_true hmem), rfl⟩, rfl, rfl⟩

end Painless.DivideAndConquer
