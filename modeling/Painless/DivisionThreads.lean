import Painless.DivideAndConquer

/-!
The threads of a divide-and-conquer run: the loop of every worker thread with
SequentialWorker::join and DivideAndConquer::join below it, the master's loop,
and main's timeout. One step is one critical section, one test of a flag, one
interrupt of a slave or one assignment. The first worker with a final answer
sets strategyEnding, interrupts the slaves one by one, and only then sets
globalEnding. The spurious wake-ups of pthread_cond_wait are left out, as in
CubeAndConquer; ExclusiveAccess has them.
-/
namespace Painless.DivisionThreads

open DivideAndConquer SolverInterface Transitions

/-- Where a worker thread stands. -/
inductive Pc where
  /-- mainWorker's test of globalEnding -/
  | top
  /-- the test of interrupt under interruptLock -/
  | ready
  /-- waiting on interruptCond -/
  | blocked
  | solving
  /-- SequentialWorker::join, before its test of globalEnding -/
  | returned (res : SatResult) (model : List ℤ)
  /-- DivideAndConquer::join, before the section under mutexListsWorkers -/
  | calling (res : SatResult) (model : List ℤ)
  /-- DivideAndConquer::join, before mutexFirstSolution is taken -/
  | finishing (res : SatResult) (model : List ℤ)
  /-- the winner, about to interrupt slaves[i] -/
  | interrupting (i : ℕ) (res : SatResult) (model : List ℤ)
  | publishing (res : SatResult) (model : List ℤ)
  | storing (res : SatResult) (model : List ℤ)
  | done
  deriving DecidableEq

/-- The master is at its loop test, or inside the section under
mutexListsWorkers, where it may wait for work. -/
inductive MasterPc where
  | looping
  | inside
  | done
  deriving DecidableEq

structure Threads (W : Type*) where
  strategy : State W
  pc : W → Pc
  master : MasterPc
  /-- The slave main is about to interrupt, once the timeout has passed. -/
  timeout : Option ℕ
  mutexFirstSolution : Option W
  strategyEnding : Bool
  globalEnding : Bool
  finalResult : SatResult
  finalModel : List ℤ

inductive Action (W : Type*) where
  | masterTest
  | masterHandOver
  | masterSleep
  | masterLeave
  | worker (w : W)
  /-- solver->solve of the worker returns. -/
  | answer (w : W) (res : SatResult) (model : List ℤ)
  /-- The section of join(UNKNOWN), with the literal getDivisionVariable returns. -/
  | split (w : W) (var : ℤ)
  | expire
  | expireInterrupt

variable {W : Type*} [DecidableEq W]

namespace Threads

def goto (s : Threads W) (w : W) (p : Pc) : Threads W :=
  { s with pc := Function.update s.pc w p }

@[simp] theorem goto_pc (s : Threads W) (w : W) (p : Pc) :
    (s.goto w p).pc = Function.update s.pc w p := rfl

@[simp] theorem goto_strategy (s : Threads W) (w : W) (p : Pc) :
    (s.goto w p).strategy = s.strategy := rfl

/-- The signal of unsetInterrupt, which is sent only if the slave has a solver. -/
def wake (s : Threads W) (w : W) : Threads W :=
  if (s.strategy.solver w).isSome ∧ s.pc w = .blocked then s.goto w .solving else s

end Threads

open Threads

/-- The next step of a worker thread, where it needs no outside choice. -/
def stepWorker (cfg : Config W) (s : Threads W) (w : W) : Option (Threads W) :=
  match s.pc w with
  | .top => some (s.goto w (if s.globalEnding then .done else .ready))
  | .ready => some (s.goto w (if s.strategy.interrupt w then .blocked else .solving))
  | .returned res model =>
    some (s.goto w (if s.globalEnding then .top else .calling res model))
  | .calling .sat model => some (s.goto w (.finishing .sat model))
  | .calling .unsat model =>
    (joinUnsat cfg s.strategy w).map fun t =>
      { s with strategy := t }.goto w
        (if 0 < t.nWorkers then .top else .finishing .unsat model)
  | .finishing res model =>
    if s.mutexFirstSolution.isSome then none
    else if s.strategyEnding then some (s.goto w .top)
    else
      some ({ s with strategyEnding := true, mutexFirstSolution := some w }.goto w
        (.interrupting 0 res model))
  | .interrupting i res model =>
    match cfg.slaves[i]? with
    | some v =>
      some ({ s with strategy := s.strategy.setInterrupt v }.goto w
        (.interrupting (i + 1) res model))
    | none => some ({ s with mutexFirstSolution := none }.goto w (.publishing res model))
  | .publishing res model =>
    some ({ s with globalEnding := true }.goto w (.storing res model))
  | .storing res model =>
    some ({ s with
      finalResult := res
      finalModel := if res = SatResult.sat then model else s.finalModel }.goto w .top)
  | .calling .unknown _ => none
  | .blocked => none
  | .solving => none
  | .done => none

/-- A solver may answer UNKNOWN only when its interrupt has been requested. -/
def answer (s : Threads W) (w : W) (res : SatResult) (model : List ℤ) :
    Option (Threads W) :=
  match s.pc w, s.strategy.solver w with
  | .solving, some x =>
    if res = .unknown ∧ s.strategy.stopSolver x = false then none
    else some (s.goto w (.returned res (if res = .sat then model else [])))
  | _, _ => none

/-- join(UNKNOWN): the two halves are launched, the idle slave's thread wakes. -/
def split (cfg : Config W) (s : Threads W) (w : W) (var : ℤ) : Option (Threads W) :=
  match s.pc w, s.strategy.oversSplitting with
  | .calling .unknown _, overSlave :: _ =>
    (joinUnknown cfg s.strategy w var).map fun t =>
      ({ s with strategy := t }.goto w .top).wake overSlave
  | _, _ => none

def stepMaster (s : Threads W) : Action W → Option (Threads W)
  | .masterTest =>
    if s.master = .looping then
      some { s with
        master := if s.globalEnding = false ∧ s.strategyEnding = false
          then .inside else .done }
    else none
  | .masterHandOver =>
    if s.master = .inside then
      (handOver s.strategy).map fun t => { s with strategy := t, master := .looping }
    else none
  | .masterSleep =>
    if s.master = .inside ∧ s.strategy.overs ≠ [] ∧ s.strategy.workers ≠ [] ∧
        s.strategy.nWorkers ≠ 0 then
      some { s with master := .looping }
    else none
  | .masterLeave =>
    if s.master = .inside ∧ s.strategy.overs ≠ [] ∧ s.strategy.workers ≠ [] ∧
        s.strategy.nWorkers = 0 then
      some { s with master := .done }
    else none
  | _ => none

def stepTimeout (cfg : Config W) (s : Threads W) : Action W → Option (Threads W)
  | .expire =>
    if s.timeout = none then some { s with globalEnding := true, timeout := some 0 }
    else none
  | .expireInterrupt =>
    match s.timeout with
    | some i => (cfg.slaves[i]?).map fun v =>
        { s with strategy := s.strategy.setInterrupt v, timeout := some (i + 1) }
    | none => none
  | _ => none

def step (cfg : Config W) (s : Threads W) : Action W → Option (Threads W)
  | .worker w => stepWorker cfg s w
  | .answer w res model => answer s w res model
  | .split w var => split cfg s w var
  | .expire => stepTimeout cfg s .expire
  | .expireInterrupt => stepTimeout cfg s .expireInterrupt
  | a => stepMaster s a

/-- The threads once the master has launched the first worker. -/
def start (strategy : State W) : Threads W where
  strategy := strategy
  pc := fun _ => .top
  master := .looping
  timeout := none
  mutexFirstSolution := none
  strategyEnding := false
  globalEnding := false
  finalResult := .unknown
  finalModel := []

def machine (cfg : Config W) : Machine (Threads W) (Action W) where
  Init s := ∃ strategy, startUp cfg = some strategy ∧ s = start strategy
  step := step cfg

/-- The master hands over a slave or only moves in its loop. -/
theorem stepMaster_cases {s t : Threads W} {a : Action W} (h : stepMaster s a = some t) :
    (∃ strategy, a = .masterHandOver ∧ handOver s.strategy = some strategy ∧
      t = { s with strategy := strategy, master := .looping }) ∨
    ∃ master, t = { s with master := master } := by
  cases a with
  | masterHandOver =>
    simp only [stepMaster] at h
    split at h
    · obtain ⟨strategy, hhand, rfl⟩ := Option.map_eq_some_iff.mp h
      exact Or.inl ⟨strategy, rfl, hhand, rfl⟩
    · exact absurd h (by simp)
  | masterTest | masterSleep | masterLeave =>
    simp only [stepMaster] at h
    split at h
    · obtain rfl := Option.some.inj h
      exact Or.inr ⟨_, rfl⟩
    · exact absurd h (by simp)
  | _ => simp [stepMaster] at h

/-- The idle slave of a split may leave its wait; nothing else changes. -/
theorem wake_spec (s : Threads W) (overSlave : W) :
    (s.wake overSlave).strategy = s.strategy ∧
      (s.wake overSlave).strategyEnding = s.strategyEnding ∧
      (s.wake overSlave).globalEnding = s.globalEnding ∧
      (s.wake overSlave).timeout = s.timeout ∧
      ∀ v, (s.wake overSlave).pc v = s.pc v ∨
        v = overSlave ∧ (s.wake overSlave).pc v = .solving := by
  unfold Threads.wake
  split
  · refine ⟨rfl, rfl, rfl, rfl, fun v => ?_⟩
    by_cases hv : v = overSlave
    · exact Or.inr ⟨hv, by simp [Threads.goto, hv]⟩
    · exact Or.inl (Function.update_of_ne hv _ _)
  · exact ⟨rfl, rfl, rfl, rfl, fun v => Or.inl rfl⟩

/-- join(UNKNOWN): the caller goes back to its loop, the idle slave may wake. -/
theorem split_spec {cfg : Config W} {s t : Threads W} {w : W} {var : ℤ}
    (h : split cfg s w var = some t) :
    ∃ model overSlave rest, s.pc w = .calling .unknown model ∧
      s.strategy.oversSplitting = overSlave :: rest ∧
      joinUnknown cfg s.strategy w var = some t.strategy ∧
      t.strategyEnding = s.strategyEnding ∧ t.globalEnding = s.globalEnding ∧
      t.timeout = s.timeout ∧
      ∀ v, t.pc v = s.pc v ∧ v ≠ w ∨ v = w ∧ t.pc v = .top ∨
        v = overSlave ∧ t.pc v = .solving := by
  unfold split at h
  split at h
  case h_2 => exact absurd h (by simp)
  case h_1 model overSlave rest hp hovers =>
    obtain ⟨strategy, hjoin, rfl⟩ := Option.map_eq_some_iff.mp h
    obtain ⟨hstrategy, hending, hglobal, htimeout, hpc⟩ :=
      wake_spec (Threads.goto { s with strategy := strategy } w .top) overSlave
    refine ⟨model, overSlave, rest, hp, hovers, hstrategy ▸ hjoin, hending, hglobal, htimeout,
      fun v => ?_⟩
    rcases hpc v with hsame | hwoken
    · by_cases hv : v = w
      · rw [hsame, hv]
        exact Or.inr (Or.inl ⟨rfl, Function.update_self w _ _⟩)
      · exact Or.inl ⟨hsame.trans (Function.update_of_ne hv _ _), hv⟩
    · exact Or.inr (Or.inr hwoken)

end Painless.DivisionThreads
