import Painless.CubeAndConquer
import Painless.DistributionRounds
import Painless.DivisionSolvers
import Painless.SharerRounds

/-!
The sharer of shr-strat=5, with every working strategy main can combine it with.
The working strategy calls add and remove functions of the sharer, which buffers
the solvers; the sharer's thread applies the buffers around doSharing. The
filters are made once, one for each solver of the first round. CubeAndConquer
adds its clones as consumers only, and DivideAndConquer in copy-mode 2 adds them
after the first round, so a later round finds lists of other sizes.
-/
namespace Painless.RosterSizes

open DivideAndConquer (SolverId SharingCall)
open ClauseCommunicator DistributionRounds SharerRounds SharingStrategies SolverInterface
open Transitions

/-! ### The working strategies -/

/-- A working strategy, as the sharer sees it: a machine, the steps its own
threads take, and the calls made so far. -/
structure Caller where
  State : Type
  Action : Type
  machine : Machine State Action
  ok : State → Action → Prop
  calls : State → List SharingCall

/-- CubeAndConquer. Its master clones slaves[0] into the root of the tree, and a
target into each new worker. -/
structure CubeCaller where
  cfg : CubeAndConquer.Config
  /-- the engine of slaves[0] and of all clones -/
  solverType : SolverType
  /-- the id of the first clone -/
  currentIdSolver : SolverId

/-- The clones are numbered in the order in which their workers are created. -/
def CubeCaller.solver (cc : CubeCaller) (worker : ℕ) : SolverId :=
  cc.currentIdSolver + (worker - 1)

structure CubeState where
  rounds : Option CubeAndConquer.State
  calls : List SharingCall

inductive CubeAction where
  | cloneRoot (next : ℕ)
  | inside (a : CubeAndConquer.Action)

/-- The calls that the master makes in a step: addConsumer for the clone of a
target, removeConsumer for an erased worker. -/
def CubeCaller.newCalls (cc : CubeCaller) (s : CubeAndConquer.State) :
    CubeAndConquer.Action → List SharingCall
  | .divide _ => [.addConsumer 0 (cc.solver s.created)]
  | .master =>
    match s.master with
    | .erasing i =>
      match s.overWorkers[i]? with
      | some w => [.removeConsumer 0 (cc.solver w)]
      | none => []
    | _ => []
  | _ => []

/-- SolverFactory::cloneSolver returns null for MiniSat, and addConsumer reads
the solver it is given. -/
def CubeCaller.step (cc : CubeCaller) (s : CubeState) : CubeAction → Option CubeState
  | .cloneRoot next =>
    if s.rounds.isNone ∧ cc.solverType ≠ .minisat then
      some ⟨some (CubeAndConquer.start next), [.addConsumer 0 (cc.solver 1)]⟩
    else none
  | .inside a =>
    s.rounds.bind fun rounds =>
      (CubeAndConquer.step cc.cfg rounds a).map fun after =>
        ⟨some after, s.calls ++ cc.newCalls rounds a⟩

def CubeCaller.caller (cc : CubeCaller) : Caller where
  State := CubeState
  Action := CubeAction
  machine := { Init := fun s => s = ⟨none, []⟩, step := cc.step }
  ok := fun _ _ => True
  calls := CubeState.calls

/-- The values of wkr-strat, with the solvers main makes for each. -/
inductive Working (W : Type) [DecidableEq W]
  /-- wkr-strat 0, 1, 5, 6: nobody has a sharer to call, or calls one -/
  | still (solvers : List SolverId)
  /-- wkr-strat 2 and 3 -/
  | cubeAndConquer (cc : CubeCaller) (solvers : List SolverId)
  /-- wkr-strat 4 -/
  | divideAndConquer (cfg : DivideAndConquer.Config W) (copy : cfg.cloneStrategy ≠ 2)
      (solvers : List SolverId)
  /-- wkr-strat 4 in copy-mode 2 -/
  | cloning (cfg : DivisionSolvers.CloneConfig W) (one : cfg.nSharers = 1)

variable {W : Type} [DecidableEq W]

namespace Working

def caller : Working W → Caller
  | still _ => ⟨Unit, Empty, { Init := fun _ => True, step := fun _ a => nomatch a },
      fun _ _ => True, fun _ => []⟩
  | cubeAndConquer cc _ => cc.caller
  | divideAndConquer cfg _ _ =>
    ⟨_, _, DivideAndConquer.machine cfg, DivideAndConquer.Reports, fun s => s.calls⟩
  | cloning cfg _ =>
    ⟨_, _, DivisionSolvers.machine cfg, DivisionSolvers.Reports, fun s => s.calls⟩

/-- The sharer is built with these as producers and as consumers. -/
def solvers : Working W → List SolverId
  | still solvers => solvers
  | cubeAndConquer _ solvers => solvers
  | divideAndConquer _ _ solvers => solvers
  | cloning cfg _ => [cfg.rootSolver]

/-- The parameters under which no solver is cloned for the working strategy: it
does not clone, has nobody to clone for, or cannot clone. -/
def AddsNoSolver : Working W → Prop
  | still _ => True
  | cubeAndConquer cc _ => cc.solverType = .minisat
  | divideAndConquer _ _ _ => True
  | cloning cfg _ => cfg.idle = [] ∨ cfg.solverType = .minisat

end Working

/-! ### The sharer -/

/-- `delivered` counts the calls of the working strategy that have reached the
sharer; they arrive in the order in which they are made. -/
structure State (T P : Type) where
  working : T
  delivered : ℕ
  producers : Roster SolverId
  consumers : Roster SolverId
  phase : Phase
  globalEnding : Bool
  filterFlag : Bool
  sharing : DistributionSharing P
  comm : MpiComm P
  queues : SolverId → SolverQueues P

inductive Action (A P : Type)
  | working (a : A)
  /-- the next call reaches the sharer -/
  | deliver
  /-- the solvers and the communicator use their queues -/
  | exchange (comm : MpiComm P) (queues : SolverId → SolverQueues P)
  | globalEnding (ending : Bool)
  | wakeUp
  | addPhase
  | doSharing
  | removePhase

section Sharer

variable {T P : Type}

def State.deliver (s : State T P) : SharingCall → State T P
  | .addConsumer _ x => { s with consumers := s.consumers.add x }
  | .addProducer _ x => { s with producers := s.producers.add x }
  | .removeConsumer _ x => { s with consumers := s.consumers.remove x }
  | .removeProducer _ x => { s with producers := s.producers.remove x }
  | .release _ => s

/-- solverFilters after call_once. -/
def State.filters (s : State T P) : DistributionSharing P :=
  makeFilters s.filterFlag s.consumers.members.length s.sharing

/-- The assertions of doSharing, and the ranges in which it reads. -/
structure RoundOk (s : State T P) : Prop where
  sizes : s.producers.members.length = s.consumers.members.length
  filters : s.filters.nFilters = s.consumers.members.length
  reads : ∀ i < s.consumers.members.length,
    i < s.producers.members.length ∧ i < s.filters.nFilters

end Sharer

variable {P : Type} (caller : Caller) (literalPerRound : ℤ)

def step (s : State caller.State P) : Action caller.Action P → Option (State caller.State P)
  | .working a => (caller.machine.step s.working a).map fun t => { s with working := t }
  | .deliver =>
    ((caller.calls s.working)[s.delivered]?).map fun call =>
      { s.deliver call with delivered := s.delivered + 1 }
  | .exchange comm queues => some { s with comm := comm, queues := queues }
  | .globalEnding ending => some { s with globalEnding := ending }
  | .wakeUp =>
    if s.phase = .asleep then
      some { s with phase := if s.globalEnding then .ended else .adding }
    else none
  | .addPhase =>
    if s.phase = .adding then
      some { s with
        producers := s.producers.addPhase
        consumers := s.consumers.addPhase
        phase := .sharing }
    else none
  | .doSharing =>
    if s.phase = .sharing then
      (distributionSharing literalPerRound s.filterFlag s.producers.members s.consumers.members
        s.sharing s.comm s.queues).map fun out =>
          { s with
            filterFlag := true
            sharing := out.sharing
            comm := out.comm
            queues := out.queues
            phase := .removing }
    else none
  | .removePhase =>
    if s.phase = .removing then
      some { s with
        producers := s.producers.removePhase
        consumers := s.consumers.removePhase
        phase := if s.globalEnding then .ended else .asleep }
    else none

/-- The sharer's constructor has copied the list of all solvers twice. -/
structure Start (solvers : List SolverId) (s : State caller.State P) : Prop where
  working : caller.machine.Init s.working
  delivered : s.delivered = 0
  producers : s.producers = Roster.ofList solvers
  consumers : s.consumers = Roster.ofList solvers
  phase : s.phase = .asleep
  globalEnding : s.globalEnding = false
  filterFlag : s.filterFlag = false
  sharing : s.sharing = DistributionSharing.fresh

def machine (solvers : List SolverId) :
    Machine (State caller.State P) (Action caller.Action P) where
  Init := Start caller solvers
  step := step caller literalPerRound

/-- The threads of the working strategy take the steps that they can take. -/
def Steps (s : State caller.State P) : Action caller.Action P → Prop
  | .working a => caller.ok s.working a
  | _ => True

/-! ### Rounds without calls -/

section Rounds

variable {caller} {literalPerRound}

theorem roundOk_iff {T : Type} (s : State T P) : RoundOk s ↔
    s.producers.members.length = s.consumers.members.length ∧
      s.filters.nFilters = s.consumers.members.length := by
  constructor
  · exact fun h => ⟨h.sizes, h.filters⟩
  · intro ⟨hsizes, hfilters⟩
    refine ⟨hsizes, hfilters, fun i hi => ⟨?_, ?_⟩⟩
    · omega
    · omega

/-- The thread goes on exactly if the round finds the sizes right. -/
theorem doSharing_isSome_iff {s : State caller.State P} (hs : s.phase = .sharing) :
    (step caller literalPerRound s .doSharing).isSome = true ↔ RoundOk s := by
  simp only [step, if_pos hs, Option.isSome_map]
  rw [roundOk_iff]
  exact distributionSharing_isSome_iff ..

/-- The list is the one that the constructor has copied, and no call is buffered. -/
structure Untouched (solvers : List SolverId) (r : Roster SolverId) : Prop where
  members : r.members = solvers
  toAdd : r.toAdd = []
  toRemove : r.toRemove = []

theorem Untouched.addPhase {solvers : List SolverId} {r : Roster SolverId}
    (hr : Untouched solvers r) : Untouched solvers r.addPhase where
  members := by rw [Roster.addPhase, hr.toAdd, List.append_nil, hr.members]
  toAdd := rfl
  toRemove := hr.toRemove

theorem Untouched.removePhase {solvers : List SolverId} {r : Roster SolverId}
    (hr : Untouched solvers r) : Untouched solvers r.removePhase where
  members := by
    rw [Roster.removePhase, hr.toRemove]
    exact hr.members
  toAdd := hr.toAdd
  toRemove := rfl

/-- The sharer of a working strategy that makes no call. -/
structure Still (solvers : List SolverId) (s : State caller.State P) : Prop where
  working : caller.machine.Reach caller.ok s.working
  producers : Untouched solvers s.producers
  consumers : Untouched solvers s.consumers
  filters : s.sharing.nFilters = if s.filterFlag then solvers.length else 0

theorem Still.roundOk {solvers : List SolverId} {s : State caller.State P}
    (hs : Still solvers s) : RoundOk s := by
  rw [roundOk_iff, hs.producers.members, hs.consumers.members, State.filters,
    hs.consumers.members]
  refine ⟨rfl, ?_⟩
  have hfilters := hs.filters
  unfold makeFilters
  split_ifs with hflag
  · rw [hfilters, if_pos hflag]
  · rw [if_neg hflag] at hfilters
    simp [hfilters]

theorem still_start {solvers : List SolverId} {s : State caller.State P}
    (hs : Start caller solvers s) : Still solvers s where
  working := .init hs.working
  producers := by
    rw [hs.producers]
    exact ⟨rfl, rfl, rfl⟩
  consumers := by
    rw [hs.consumers]
    exact ⟨rfl, rfl, rfl⟩
  filters := by
    rw [hs.sharing, hs.filterFlag]
    rfl

theorem still_step {solvers : List SolverId} {s t : State caller.State P}
    {a : Action caller.Action P}
    (hnone : ∀ u, caller.machine.Reach caller.ok u → caller.calls u = [])
    (hs : Still solvers s) (hok : Steps caller s a)
    (h : step caller literalPerRound s a = some t) : Still solvers t := by
  cases a with
  | working a =>
    obtain ⟨u, hu, rfl⟩ := Option.map_eq_some_iff.mp h
    exact ⟨.step hs.working hok hu, hs.producers, hs.consumers, hs.filters⟩
  | deliver => simp [step, hnone s.working hs.working] at h
  | exchange comm queues | globalEnding ending =>
    obtain rfl := Option.some.inj h
    exact ⟨hs.working, hs.producers, hs.consumers, hs.filters⟩
  | wakeUp =>
    simp only [step] at h
    split at h
    · obtain rfl := Option.some.inj h
      exact ⟨hs.working, hs.producers, hs.consumers, hs.filters⟩
    · exact absurd h (by simp)
  | addPhase =>
    simp only [step] at h
    split at h
    · obtain rfl := Option.some.inj h
      exact ⟨hs.working, hs.producers.addPhase, hs.consumers.addPhase, hs.filters⟩
    · exact absurd h (by simp)
  | doSharing =>
    simp only [step] at h
    split at h
    · obtain ⟨out, hout, rfl⟩ := Option.map_eq_some_iff.mp h
      refine ⟨hs.working, hs.producers, hs.consumers, ?_⟩
      change out.sharing.nFilters = solvers.length
      have hfilters := hs.roundOk.filters
      rw [hs.consumers.members] at hfilters
      rw [distributionSharing_nFilters hout]
      exact hfilters
    · exact absurd h (by simp)
  | removePhase =>
    simp only [step] at h
    split at h
    · obtain rfl := Option.some.inj h
      exact ⟨hs.working, hs.producers.removePhase, hs.consumers.removePhase, hs.filters⟩
    · exact absurd h (by simp)

theorem still_reach {solvers : List SolverId} {s : State caller.State P}
    (hnone : ∀ u, caller.machine.Reach caller.ok u → caller.calls u = [])
    (hs : (machine caller literalPerRound solvers).Reach (Steps caller) s) : Still solvers s :=
  hs.invariant (Still solvers) (fun _ h => still_start h)
    (fun _ _ _ _ hinv hok h => still_step hnone hinv hok h)

/-! ### A round with a call before it -/

/-- Before the sharer's first round, with a working strategy that has moved. -/
def before (solvers : List SolverId) (comm : MpiComm P) (u : caller.State) :
    State caller.State P where
  working := u
  delivered := 0
  producers := Roster.ofList solvers
  consumers := Roster.ofList solvers
  phase := .asleep
  globalEnding := false
  filterFlag := false
  sharing := DistributionSharing.fresh
  comm := comm
  queues := fun _ => SolverQueues.empty

theorem before_reach (literalPerRound : ℤ) (solvers : List SolverId) (comm : MpiComm P)
    {u : caller.State}
    (hu : caller.machine.Reach caller.ok u) :
    (machine caller literalPerRound solvers).Reach (Steps caller) (before solvers comm u) := by
  induction hu with
  | init hinit => exact .init ⟨hinit, rfl, rfl, rfl, rfl, rfl, rfl, rfl⟩
  | @step s t a _ hok h ih =>
    refine .step (a := .working a) ih hok ?_
    change (caller.machine.step s a).map _ = _
    rw [h]
    rfl

/-- The first addConsumer call reaches the sharer alone, and the next round has
one consumer too many. -/
theorem bad_round (literalPerRound : ℤ) (solvers : List SolverId) {u : caller.State}
    (hu : caller.machine.Reach caller.ok u) {i : ℕ} {x : SolverId} {rest : List SharingCall}
    (hcalls : caller.calls u = .addConsumer i x :: rest) :
    ∃ s : State caller.State P,
      (machine caller literalPerRound solvers).Reach (Steps caller) s ∧ s.phase = .sharing ∧
        ¬ RoundOk s := by
  let s : State caller.State P := before solvers (MpiComm.fresh (fun _ => 0) (fun _ => 0)) u
  let delivered : State caller.State P :=
    { s with consumers := s.consumers.add x, delivered := 1 }
  let sharing : State caller.State P :=
    { delivered with
      producers := delivered.producers.addPhase
      consumers := delivered.consumers.addPhase
      phase := .sharing }
  have hdeliver : (machine caller literalPerRound solvers).step s .deliver = some delivered := by
    change ((caller.calls u)[0]?).map _ = _
    rw [hcalls]
    rfl
  refine ⟨sharing, ?_, rfl, fun hok => ?_⟩
  · have hs := before_reach literalPerRound solvers
      (MpiComm.fresh (fun _ => 0) (fun _ => 0) : MpiComm P) hu
    have hafter : (machine caller literalPerRound solvers).Reach (Steps caller) delivered :=
      .step (a := .deliver) hs trivial hdeliver
    have hawake : (machine caller literalPerRound solvers).Reach (Steps caller)
        { delivered with phase := .adding } := .step (a := .wakeUp) hafter trivial rfl
    exact .step (a := .addPhase) hawake trivial rfl
  · have hsizes := hok.sizes
    change (solvers ++ []).length = (solvers ++ [x]).length at hsizes
    simp at hsizes

end Rounds

/-! ### Which working strategies call the sharer -/

/-- Without copy-mode 2 the critical sections make no call. -/
theorem calls_step {cfg : DivideAndConquer.Config W} (hcopy : cfg.cloneStrategy ≠ 2)
    {s t : DivideAndConquer.State W} {a : DivideAndConquer.Action W}
    (h : DivideAndConquer.step cfg s a = some t) : t.calls = s.calls := by
  cases a with
  | handOver => exact (DivisionSolvers.handOver_solvers h).2.2
  | joinUnknown current var =>
    simp only [DivideAndConquer.step, DivideAndConquer.joinUnknown, if_neg hcopy] at h
    split at h
    case h_1 overSlave rest x hovers hsolver =>
      obtain rfl := Option.some.inj h
      change (DivideAndConquer.launchHalves _ current overSlave var).calls = s.calls
      rw [DivideAndConquer.launchHalves, DivisionSolvers.solve_calls,
        DivisionSolvers.solve_calls]
    case h_2 => exact absurd h (by simp)
  | joinUnsat current =>
    simp only [DivideAndConquer.step, DivideAndConquer.joinUnsat, hcopy, and_false,
      if_false] at h
    obtain ⟨u, hu, rfl⟩ := Option.map_eq_some_iff.mp h
    exact (DivisionInterrupts.leaveWorkers_calls hu).1

theorem calls_startUp {cfg : DivideAndConquer.Config W} {s : DivideAndConquer.State W}
    (h : DivideAndConquer.startUp cfg = some s) : s.calls = [] := by
  unfold DivideAndConquer.startUp at h
  obtain ⟨p, -, rfl⟩ := Option.map_eq_some_iff.mp h
  exact DivisionSolvers.solve_calls _ _

/-- One slave works at most, and no thread has a call to make. -/
structure OneWorker (s : DivisionSolvers.State W) : Prop where
  nWorkers : s.nWorkers ≤ 1
  calls : s.calls = []
  leaving : ∀ calls ∈ s.leaving, calls = []

theorem oneWorker_step {cfg : DivisionSolvers.CloneConfig W} {s t : DivisionSolvers.State W}
    {a : DivisionSolvers.Action W}
    (hsplit : ∀ current var, DivideAndConquer.joinUnknown cfg.toConfig s.toState current var = none)
    (hs : OneWorker s) (h : DivisionSolvers.step cfg s a = some t) : OneWorker t := by
  cases a with
  | locked a =>
    cases a with
    | handOver =>
      obtain ⟨u, hu, rfl⟩ := Option.map_eq_some_iff.mp h
      obtain ⟨_, _, _, _, -, -, hl, -, -⟩ := DivideAndConquer.handOver_spec hu
      refine ⟨?_, (DivisionSolvers.handOver_solvers hu).2.2.trans hs.calls, hs.leaving⟩
      change u.nWorkers ≤ 1
      rw [hl]
      exact hs.nWorkers
    | joinUnknown current var =>
      obtain ⟨u, hu, -⟩ := Option.map_eq_some_iff.mp h
      have hnone := hsplit current var
      change DivideAndConquer.joinUnknown cfg.toConfig s.toState current var = some u at hu
      simp [hnone] at hu
    | joinUnsat current =>
      obtain ⟨⟨u, calls⟩, hu, rfl⟩ := Option.map_eq_some_iff.mp h
      have hcalls := (DivisionSolvers.closeCube_solvers cfg.cloneStrategy_eq hu).2.1
      obtain ⟨v, hv, heq⟩ := Option.map_eq_some_iff.mp hu
      have hn : v.nWorkers = s.nWorkers := (DivisionInterrupts.leaveWorkers_calls hv).2
      have hone := hs.nWorkers
      -- the last worker keeps its solver
      have hlast : ¬ (0 < v.nWorkers - 1 ∧ cfg.cloneStrategy = 2) := fun hpos => by omega
      dsimp only at heq
      split_ifs at heq with hpos
      · exact absurd hpos hlast
      obtain ⟨rfl, rfl⟩ := Prod.mk.inj heq
      refine ⟨?_, hcalls.trans hs.calls, fun calls hmem => ?_⟩
      · change v.nWorkers - 1 ≤ 1
        omega
      · rcases List.mem_append.mp hmem with hold | hnew
        · exact hs.leaving calls hold
        · exact List.mem_singleton.mp hnew
  | proceed k =>
    simp only [DivisionSolvers.step] at h
    split at h
    case h_1 call rest hk =>
      have hnil := hs.leaving _ (List.mem_of_getElem? hk)
      simp at hnil
    case h_2 => exact absurd h (by simp)

/-- With one slave, or with MiniSat, no split gets to its end. -/
theorem no_split {cfg : DivisionSolvers.CloneConfig W} (hone : cfg.nSharers = 1)
    (hcond : cfg.idle = [] ∨ cfg.solverType = .minisat) {s : DivisionSolvers.State W}
    (hlists : DivisionLists.ListsInvariant cfg.toConfig s.toSlaveLists) (current : W) (var : ℤ) :
    DivideAndConquer.joinUnknown cfg.toConfig s.toState current var = none := by
  unfold DivideAndConquer.joinUnknown
  split
  case h_2 => rfl
  case h_1 overSlave rest x hovers hsolver =>
    rcases hcond with hidle | htype
    · -- the pairs on the two splitting lists are two slaves
      have hlength := hlists.perm.length_eq
      rw [cfg.slaves_eq, hidle] at hlength
      have hpairs := hlists.pairs
      have hover := DivideAndConquer.getHeadFromVector_eq_some.mp hovers
      simp only [DivisionLists.everySlave, hover, List.length_append, List.length_cons,
        List.length_nil] at hlength hpairs
      omega
    · dsimp only
      rw [if_pos cfg.cloneStrategy_eq, DivideAndConquer.State.cloneSolver, if_pos htype,
        if_neg (by omega)]
      rfl

theorem lists_step {cfg : DivisionSolvers.CloneConfig W} {s t : DivisionSolvers.State W}
    {a : DivisionSolvers.Action W}
    (hs : DivisionLists.ListsInvariant cfg.toConfig s.toSlaveLists)
    (hreports : DivisionSolvers.Reports s a) (h : DivisionSolvers.step cfg s a = some t) :
    DivisionLists.ListsInvariant cfg.toConfig t.toSlaveLists := by
  cases a with
  | locked a =>
    cases a with
    | handOver =>
      obtain ⟨u, hu, rfl⟩ := Option.map_eq_some_iff.mp h
      exact DivisionLists.invariant_handOver hs hu
    | joinUnknown current var =>
      obtain ⟨u, hu, rfl⟩ := Option.map_eq_some_iff.mp h
      exact DivisionLists.invariant_joinUnknown hs hreports hu
    | joinUnsat current =>
      obtain ⟨⟨u, calls⟩, hu, rfl⟩ := Option.map_eq_some_iff.mp h
      have hjoin : DivideAndConquer.joinUnsat cfg.toConfig s.toState current =
          some (DivisionSolvers.made (u, calls)) := by
        rw [DivisionSolvers.joinUnsat_closeCube, hu]
        rfl
      have hmade : DivisionLists.ListsInvariant cfg.toConfig
          (DivisionSolvers.made (u, calls)).toSlaveLists :=
        DivisionLists.invariant_joinUnsat hs hreports hjoin
      exact hmade
  | proceed k =>
    simp only [DivisionSolvers.step] at h
    split at h
    · obtain rfl := Option.some.inj h
      exact hs
    · exact absurd h (by simp)

theorem cloning_still {cfg : DivisionSolvers.CloneConfig W} (hone : cfg.nSharers = 1)
    (hcond : cfg.idle = [] ∨ cfg.solverType = .minisat) {s : DivisionSolvers.State W}
    (hs : (DivisionSolvers.machine cfg).Reach DivisionSolvers.Reports s) : s.calls = [] := by
  have hinv : DivisionLists.ListsInvariant cfg.toConfig s.toSlaveLists ∧ OneWorker s := by
    refine hs.invariant (fun s => DivisionLists.ListsInvariant cfg.toConfig s.toSlaveLists ∧
      OneWorker s) ?_ ?_
    · intro s ⟨hstart, hleaving⟩
      refine ⟨DivisionLists.invariant_startUp hstart, ?_, calls_startUp hstart, ?_⟩
      · obtain ⟨first, rest, -, hl, -, -⟩ := DivideAndConquer.startUp_spec hstart
        rw [hl]
      · simp [hleaving]
    · intro s a t _ ⟨hlists, hworker⟩ hreports h
      exact ⟨lists_step hlists hreports h,
        oneWorker_step (no_split hone hcond hlists) hworker h⟩
  exact hinv.2.calls

/-- The first slave is asked to split for an idle one, which gets a clone. -/
theorem cloning_adds {cfg : DivisionSolvers.CloneConfig W} (hone : cfg.nSharers = 1)
    (hidle : cfg.idle ≠ []) (htype : cfg.solverType ≠ .minisat) :
    ∃ s, (DivisionSolvers.machine cfg).Reach DivisionSolvers.Reports s ∧
      ∃ x rest, s.calls = .addConsumer 0 x :: rest := by
  obtain ⟨overSlave, overs, hovers⟩ := List.exists_cons_of_ne_nil hidle
  obtain ⟨started, hstart⟩ : ∃ u, DivideAndConquer.startUp cfg.toConfig = some u := by
    rw [DivideAndConquer.startUp, cfg.slaves_eq]
    exact ⟨_, rfl⟩
  obtain ⟨first, rest, hslaves, hl, -, -⟩ := DivideAndConquer.startUp_spec hstart
  rw [cfg.slaves_eq, hovers] at hslaves
  obtain ⟨rfl, rfl⟩ := List.cons.inj hslaves
  -- the master hands an idle slave to the first worker
  obtain ⟨asked, hasked⟩ : ∃ u, DivideAndConquer.handOver started = some u := by
    simp [DivideAndConquer.handOver, hl, DivideAndConquer.getHeadFromVector]
  obtain ⟨overSlave', overs', worker, workers, hover, hworker, hlists, -, -⟩ :=
    DivideAndConquer.handOver_spec hasked
  rw [hl] at hover hworker hlists
  obtain ⟨rfl, rfl⟩ := List.cons.inj hover
  obtain ⟨rfl, rfl⟩ := List.cons.inj hworker
  have hreach : (DivisionSolvers.machine cfg).Reach (DivisionSolvers.Splits cfg) ⟨asked, []⟩ := by
    have hinit : (DivisionSolvers.machine cfg).Reach (DivisionSolvers.Splits cfg) ⟨started, []⟩ :=
      .init ⟨hstart, rfl⟩
    refine .step (a := .locked .handOver) hinit ⟨trivial, trivial⟩ ?_
    change (DivideAndConquer.handOver started).map _ = _
    rw [hasked]
    rfl
  have hsplitting : cfg.first ∈ asked.workersSplitting := by
    rw [hlists]
    simp [DivideAndConquer.addOnceToVectorTail]
  obtain ⟨x, hx⟩ : ∃ x, asked.solver cfg.first = some x :=
    (DivisionSolvers.solversOk_reach hreach).active cfg.first (Or.inr hsplitting)
  -- the worker's solver is cloned, and the clone added
  obtain ⟨split, hsplit⟩ : ∃ u,
      DivideAndConquer.joinUnknown cfg.toConfig asked cfg.first 1 = some u := by
    simp only [DivideAndConquer.joinUnknown, hx, hlists, DivideAndConquer.addOnceToVectorTail,
      List.not_mem_nil, if_false, List.nil_append, DivideAndConquer.getHeadFromVector,
      if_pos cfg.cloneStrategy_eq, DivideAndConquer.State.cloneSolver, if_neg htype]
    exact ⟨_, rfl⟩
  obtain ⟨-, -, -, -, -, hcalls⟩ :=
    DivisionSolvers.joinUnknown_solvers cfg.cloneStrategy_eq htype hsplit
  have hempty : asked.calls = [] :=
    (DivisionSolvers.handOver_solvers hasked).2.2.trans (calls_startUp hstart)
  refine ⟨⟨split, []⟩, ?_, asked.currentIdSolver, [.addProducer 0 asked.currentIdSolver], ?_⟩
  · refine .step (a := .locked (.joinUnknown cfg.first 1)) (hreach.mono fun _ _ h => h.1)
      hsplitting ?_
    change (DivideAndConquer.joinUnknown cfg.toConfig asked cfg.first 1).map _ = _
    rw [hsplit]
    rfl
  · change split.calls = _
    rw [hcalls, hempty, hone]
    rfl

/-! ### All of them -/

/-- A working strategy makes calls exactly if it has something to clone. -/
theorem still_or_adds (w : Working W) :
    (w.AddsNoSolver → ∀ u, w.caller.machine.Reach w.caller.ok u → w.caller.calls u = []) ∧
      (¬ w.AddsNoSolver → ∃ u, w.caller.machine.Reach w.caller.ok u ∧
        ∃ x rest, w.caller.calls u = .addConsumer 0 x :: rest) := by
  cases w with
  | still solvers => exact ⟨fun _ _ _ => rfl, fun h => absurd trivial h⟩
  | cubeAndConquer cc solvers =>
    constructor
    · intro htype u hu
      have hnone : u = ⟨none, []⟩ := by
        refine hu.invariant (fun u => u = ⟨none, []⟩) (fun _ h => h) ?_
        intro s a t _ hs _ h
        subst hs
        change cc.solverType = .minisat at htype
        cases a with
        | cloneRoot next => simp [Working.caller, CubeCaller.caller, CubeCaller.step, htype] at h
        | inside a => simp [Working.caller, CubeCaller.caller, CubeCaller.step] at h
      rw [hnone]
      rfl
    · intro htype
      have hstep : cc.caller.machine.step (⟨none, []⟩ : CubeState) (.cloneRoot 0) =
          some ⟨some (CubeAndConquer.start 0), [.addConsumer 0 (cc.solver 1)]⟩ := by
        exact if_pos ⟨rfl, htype⟩
      exact ⟨_, .step (.init rfl) trivial hstep, _, _, rfl⟩
  | divideAndConquer cfg copy solvers =>
    refine ⟨fun _ u hu => ?_, fun h => absurd trivial h⟩
    exact hu.invariant (fun u => DivideAndConquer.State.calls u = [])
      (fun _ h => calls_startUp h) (fun s a t _ hs _ h => (calls_step copy h).trans hs)
  | cloning cfg one =>
    refine ⟨fun hcond u hu => cloning_still one hcond hu, fun hnot => ?_⟩
    rw [Working.AddsNoSolver, not_or] at hnot
    exact cloning_adds one hnot.1 hnot.2

/-- Every round finds as many producers as consumers and as many filters exactly
if the parameters leave the working strategy without a solver to add. -/
theorem rounds_ok_iff (literalPerRound : ℤ) (w : Working W) :
    (∀ s : State w.caller.State P,
      (machine w.caller literalPerRound w.solvers).Reach (Steps w.caller) s →
      s.phase = .sharing → RoundOk s) ↔ w.AddsNoSolver := by
  obtain ⟨hstill, hadds⟩ := still_or_adds w
  constructor
  · intro hall
    by_contra hnot
    obtain ⟨u, hu, x, rest, hcalls⟩ := hadds hnot
    obtain ⟨s, hs, hphase, hbad⟩ := bad_round (P := P) literalPerRound w.solvers hu hcalls
    exact hbad (hall s hs hphase)
  · intro hnone s hs _
    exact (still_reach (hstill hnone) hs).roundOk

/-- CubeAndConquer on one Lingeling solver. -/
def loneCube : CubeCaller := ⟨⟨2, Nat.two_pos, []⟩, .lingeling, 1⟩

/-- The clone for the root of the tree is a consumer and no producer: the first
round after its creation stops at the first assertion. -/
theorem clone_only_consumes : ∃ s : State CubeState ℕ,
    (machine loneCube.caller 1500 [0]).Reach (Steps loneCube.caller) s ∧ s.phase = .sharing ∧
      s.producers.members = [0] ∧ s.consumers.members = [0, 1] ∧ ¬ RoundOk s := by
  have hinit : (machine loneCube.caller 1500 [0]).Init
      (before [0] (MpiComm.fresh (fun _ => 0) (fun _ => 0) : MpiComm ℕ) ⟨none, []⟩) :=
    ⟨rfl, rfl, rfl, rfl, rfl, rfl, rfl, rfl⟩
  have hstart : (machine loneCube.caller 1500 [0]).Reach (Steps loneCube.caller) _ := .init hinit
  have hreach := hstart.run [.working (.cloneRoot 0), .deliver, .wakeUp, .addPhase]
    ⟨trivial, fun _ _ => ⟨trivial, fun _ _ => ⟨trivial, fun _ _ => ⟨trivial, fun _ _ => trivial⟩⟩⟩⟩
    rfl
  refine ⟨_, hreach, rfl, rfl, rfl, fun hok => ?_⟩
  have hsizes := hok.sizes
  change 1 = 2 at hsizes
  omega

end Painless.RosterSizes
