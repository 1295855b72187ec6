import Painless.Cnf
import Painless.SolverInterface
import Painless.SplitTree
import Painless.Transitions
import Mathlib.Logic.Function.Basic

/-!
The cube-and-conquer working strategy at the top of a run: the rounds of its
master thread, the loops of the worker threads, and CubeAndConquer::join, which
a worker runs on its own thread. Workers are numbered in the order they are
created; worker 0 is slaves[0], which solves the whole formula, and worker 1 is
the root of the split tree. The master splits one target, or launches one
worker, in one step. The sleeping times, the sharers and the logs are left out.
So are the spurious wake-ups of pthread_cond_wait: the worker loop takes every
return of the wait for a launch, and what follows from that is in ExclusiveAccess.
The run starts after CubeAndConquer::solve, when the master has created the
root worker. All workers get the same cube, so the cube stands in the
configuration only. `tree` is history: the leaf of a worker is the sub-problem
its solver holds, and a leaf is reported when join counts its UNSAT.
-/
namespace Painless.CubeAndConquer

open Cnf SolverInterface SplitTree Transitions

structure Config where
  maxCpus : ℕ
  maxCpusPos : 0 < maxCpus
  actualCube : List ℤ

def Config.maxNodes (cfg : Config) : ℕ := 8 * cfg.maxCpus

/-- Where a worker thread stands. -/
inductive WorkerPc where
  /-- mainWorker's test of globalEnding -/
  | check
  /-- its test of interrupt -/
  | ready
  | blocked
  /-- past the flag, before waitInterruptLock -/
  | entering
  | solving
  /-- SequentialWorker::join, before its test of globalEnding -/
  | returned (res : SatResult) (model : List ℤ)
  /-- CubeAndConquer::join, before its first test -/
  | calling (res : SatResult) (model : List ℤ)
  /-- before nJobs-- -/
  | counting (model : List ℤ)
  /-- before the test of nJobs -/
  | testing (model : List ℤ)
  /-- before over.push_back -/
  | pushing
  /-- before the launch of workers[next] -/
  | launching
  /-- before strategyEnding is set -/
  | ending (res : SatResult) (model : List ℤ)
  /-- setInterrupt, about to interrupt slaves[i] -/
  | interrupting (i : ℕ) (res : SatResult) (model : List ℤ)
  | publishing (res : SatResult) (model : List ℤ)
  | storing (res : SatResult) (model : List ℤ)
  | done
  deriving DecidableEq

/-- Where the master stands. -/
inductive MasterPc where
  | startPortfolio
  | startRoot
  /-- the loop's test of strategyEnding -/
  | test
  /-- the test after the sleep -/
  | rest
  | interrupting (i : ℕ)
  | waiting (i : ℕ)
  /-- about to erase over[i] from workers and slaves -/
  | erasing (i : ℕ)
  /-- the destructor of over[i]: globalEnding, setInterrupt, the thread's end -/
  | deleting (i w : ℕ)
  | halting (i w : ℕ)
  | reaping (i w : ℕ)
  | clearing
  | choosing
  | dividing (targets : List ℕ)
  | sorting
  | launching (i actualWorkers : ℕ)
  | finished
  deriving DecidableEq

structure State where
  slaves : List ℕ
  workers : List ℕ
  overWorkers : List ℕ
  nJobs : ℤ
  next : ℕ
  strategyEnding : Bool
  globalEnding : Bool
  finalResult : SatResult
  finalModel : List ℤ
  /-- SequentialWorker::interrupt. -/
  interrupt : ℕ → Bool
  /-- The unit clauses a worker's solver has loaded. -/
  loaded : ℕ → List ℤ
  /-- Those that its next solve will load. -/
  clausesToAdd : ℕ → List ℤ
  pc : ℕ → WorkerPc
  master : MasterPc
  /-- The number of the next worker to be created. -/
  created : ℕ
  tree : Tree ℕ ℤ

inductive Action where
  | master
  /-- The master splits the next target on this literal. -/
  | divide (var : ℤ)
  /-- The master sorts the workers by their solvers' variable counts. -/
  | sort (order : List ℕ)
  | worker (w : ℕ)
  /-- solver->solve of the worker returns. -/
  | answer (w : ℕ) (res : SatResult) (model : List ℤ)

namespace State

def goto (s : State) (w : ℕ) (p : WorkerPc) : State :=
  { s with pc := Function.update s.pc w p }

def setInterrupt (s : State) (w : ℕ) : State :=
  { s with interrupt := Function.update s.interrupt w true }

/-- SequentialWorker::solve: the flag is cleared, a waiting thread is woken. -/
def launch (s : State) (w : ℕ) : State :=
  { s with
    interrupt := Function.update s.interrupt w false
    pc := if s.pc w = .blocked then Function.update s.pc w .entering else s.pc }

@[simp] theorem goto_pc (s : State) (w : ℕ) (p : WorkerPc) :
    (s.goto w p).pc = Function.update s.pc w p := rfl

@[simp] theorem setInterrupt_interrupt (s : State) (w : ℕ) :
    (s.setInterrupt w).interrupt = Function.update s.interrupt w true := rfl

@[simp] theorem launch_interrupt (s : State) (w : ℕ) :
    (s.launch w).interrupt = Function.update s.interrupt w false := rfl

end State

open State

/-- The next step of a worker thread, where it needs no outside choice. -/
def stepWorker (s : State) (w : ℕ) : Option State :=
  match s.pc w with
  | .check => some (s.goto w (if s.globalEnding then .done else .ready))
  | .ready => some (s.goto w (if s.interrupt w then .blocked else .entering))
  | .entering =>
    some ({ s with
      loaded := Function.update s.loaded w (s.loaded w ++ s.clausesToAdd w)
      clausesToAdd := Function.update s.clausesToAdd w [] }.goto w .solving)
  | .returned res model =>
    some (s.goto w (if s.globalEnding then .check else .calling res model))
  | .calling res model =>
    some (s.goto w
      (if res = .unknown ∨ s.strategyEnding = true then .check
      else if res = .unsat ∧ s.slaves.head? ≠ some w then .counting model
      else .ending res model))
  | .counting model =>
    some ({ s with nJobs := s.nJobs - 1, tree := report w s.tree }.goto w (.testing model))
  | .testing model => some (s.goto w (if 0 < s.nJobs then .pushing else .ending .unsat model))
  | .pushing => some ({ s with overWorkers := s.overWorkers ++ [w] }.goto w .launching)
  | .launching =>
    match s.workers[s.next]? with
    | some v => some ({ s.launch v with next := s.next + 1 }.goto w .check)
    | none => some (s.goto w .check)
  | .ending res model =>
    some ({ s with strategyEnding := true }.goto w (.interrupting 0 res model))
  | .interrupting i res model =>
    match s.slaves[i]? with
    | some v => some ((s.setInterrupt v).goto w (.interrupting (i + 1) res model))
    | none => some (s.goto w (.publishing res model))
  | .publishing res model =>
    some ({ s with globalEnding := true }.goto w (.storing res model))
  | .storing res model =>
    some ({ s with
      finalResult := res
      finalModel := if res = SatResult.sat then model else s.finalModel }.goto w .check)
  | .blocked => none
  | .solving => none
  | .done => none

/-- CubeAndConquer::join drops UNKNOWN, so nothing depends on when a solver
gives up. -/
def answer (s : State) (w : ℕ) (res : SatResult) (model : List ℤ) : Option State :=
  if s.pc w = .solving then
    some (s.goto w (.returned res (if res = .sat then model else [])))
  else none

/-- The number of workers a round splits, and launches. -/
def actualWorkers (cfg : Config) (s : State) : ℕ :=
  min (cfg.maxCpus - 1) s.workers.length

/-- The next step of the master, where it needs no outside choice. -/
def stepMaster (cfg : Config) (s : State) : Option State :=
  match s.master with
  | .startPortfolio =>
    match s.slaves.head? with
    | some v => some { s.launch v with master := .startRoot }
    | none => none
  | .startRoot =>
    match s.workers.head? with
    | some v => some { s.launch v with master := .test }
    | none => none
  | .test => some { s with master := if s.strategyEnding then .finished else .rest }
  | .rest =>
    some { s with master := if s.strategyEnding then .finished else .interrupting 0 }
  | .interrupting i =>
    match s.workers[i]? with
    | some v => some { s.setInterrupt v with master := .waiting i }
    | none => some { s with master := .erasing 0 }
  | .waiting i =>
    match s.workers[i]? with
    | some v =>
      if s.pc v = .solving then none else some { s with master := .interrupting (i + 1) }
    | none => none
  | .erasing i =>
    match s.overWorkers[i]? with
    | some w =>
      some { s with
        workers := s.workers.filter (· ≠ w)
        slaves := s.slaves.filter (· ≠ w)
        master := .deleting i w }
    | none => some { s with master := .clearing }
  | .deleting i w => some { s with globalEnding := false, master := .halting i w }
  | .halting i w => some { s.setInterrupt w with master := .reaping i w }
  | .reaping i w =>
    if s.pc w = .done then some { s with master := .erasing (i + 1) } else none
  | .clearing => some { s with overWorkers := [], master := .choosing }
  | .choosing =>
    some { s with master := .dividing (s.workers.take (actualWorkers cfg s)) }
  | .dividing [] => some { s with master := .sorting }
  | .dividing (_ :: _) => none
  | .sorting =>
    if cfg.maxNodes < s.workers.length * 2 then none
    else some { s with master := .launching 0 (actualWorkers cfg s) }
  | .launching i n =>
    if i < n then
      match s.workers[i]? with
      | some v => some { s.launch v with master := .launching (i + 1) n }
      | none => none
    else some { s with next := n, master := .test }
  | .finished => none

/-- The split of one target: its solver is cloned, the literal and its opposite
are queued as unit clauses, and a worker is created for the clone. -/
def divide (s : State) (var : ℤ) : Option State :=
  match s.master with
  | .dividing (w :: targets) =>
    some { s with
      loaded := Function.update s.loaded s.created (s.loaded w)
      clausesToAdd := Function.update
        (Function.update s.clausesToAdd w (s.clausesToAdd w ++ [var])) s.created [-var]
      interrupt := Function.update s.interrupt s.created true
      pc := Function.update s.pc s.created .check
      workers := s.workers ++ [s.created]
      slaves := s.slaves ++ [s.created]
      nJobs := s.nJobs + 1
      created := s.created + 1
      tree := split w s.created var s.tree
      master := .dividing targets }
  | _ => none

/-- The variable counts belong to the solvers, so any order may result. -/
def sort (cfg : Config) (s : State) (order : List ℕ) : Option State :=
  if s.master = .sorting ∧ cfg.maxNodes < s.workers.length * 2 ∧ order.Perm s.workers then
    some { s with
      workers := order
      master := .launching 0 (min (cfg.maxCpus - 1) order.length) }
  else none

def step (cfg : Config) (s : State) : Action → Option State
  | .master => stepMaster cfg s
  | .divide var => divide s var
  | .sort order => sort cfg s order
  | .worker w => stepWorker s w
  | .answer w res model => answer s w res model

/-- After CubeAndConquer::solve, with the root worker created. `next` has not
been assigned yet, and its first value is arbitrary. -/
def start (next : ℕ) : State where
  slaves := [0, 1]
  workers := [1]
  overWorkers := []
  nJobs := 1
  next := next
  strategyEnding := false
  globalEnding := false
  finalResult := .unknown
  finalModel := []
  interrupt := fun _ => true
  loaded := fun _ => []
  clausesToAdd := fun _ => []
  pc := fun _ => .check
  master := .startPortfolio
  created := 2
  tree := .leaf 1 0

def machine (cfg : Config) : Machine State Action where
  Init s := ∃ next, s = start next
  step := step cfg

/-- UNSAT is answered only for a formula that has no model under the cube and
the unit clauses loaded. -/
def SoundAnswer (cfg : Config) (F : Formula ℕ) (s : State) : Action → Prop
  | .answer w res _ => res = .unsat → ∀ σ, FormulaHolds σ F →
      CubeHolds σ (ofInts cfg.actualCube) → ¬ CubeHolds σ (ofInts (s.loaded w))
  | _ => True

end Painless.CubeAndConquer
