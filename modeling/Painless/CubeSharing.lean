import Painless.ClauseOrigins
import Painless.CubeForwarding
import Painless.CubeJobs
import Painless.RosterSizes

/-!
CubeAndConquer under the sharers that main builds, on any number of ranks. main
gives each sharer some of its own solvers as producers. CubeAndConquer clones
slaves[0], then clones of clones, extends them by split literals and gives the
clones to the sharers, as consumers only. A clone takes over what its original
has loaded and imported. Under wkr-strat 3 CubeAndConquer has a parent, which may
interrupt it or end the program at any time.
-/
namespace Painless.CubeSharing

open ClauseCommunicator DistributionRounds SharedClauses SharedDatabase SharingStrategies
open Transitions
open CubeForwarding (CubeAndConquerNode)
open DivideAndConquer (SolverId SharingCall)
open RosterSizes (CubeCaller)
open SharerRounds (Roster Phase)
open SharingSystem (Setup Strategy)

/-! ### What main builds -/

structure Config where
  /-- wkr-strat 3 instead of 2 -/
  nested : Bool
  cc : CubeCaller
  shrStrat : ℤ
  cpus : ℕ
  nSolvers : ℕ
  /-- the solvers main makes, in the order of the vector -/
  solvers : List SolverId
  /-- the solver of slaves[0] -/
  first : SolverId
  first_eq : solvers[if nested then nSolvers else 0]? = some first
  numbered : ∀ x ∈ solvers, x < cc.currentIdSolver

variable {P : Type}

structure BuiltSharer (P : Type) where
  strategy : Strategy P
  producers : List SolverId
  consumers : List SolverId

namespace Config

/-- `none` where main reads behind the end of its solvers. -/
def sharers (cfg : Config) : Option (List (BuiltSharer P)) :=
  match cfg.shrStrat with
  | 1 => some [⟨.simple, cfg.solvers, cfg.solvers⟩]
  | 2 => (List.range cfg.cpus).mapM fun i =>
      cfg.solvers[i]?.map fun x => ⟨.hordeSat ClauseDatabase.empty, [x], cfg.solvers⟩
  | 3 => some [⟨.hordeSat ClauseDatabase.empty, cfg.solvers, cfg.solvers⟩]
  | 4 => cfg.solvers[cfg.nSolvers]?.map fun x =>
      [⟨.simple, cfg.solvers.take cfg.nSolvers, cfg.solvers⟩,
        ⟨.hordeSat ClauseDatabase.empty, [x], cfg.solvers⟩]
  | 5 => some [⟨.distribution DistributionSharing.fresh, cfg.solvers, cfg.solvers⟩]
  | _ => some []

def nSharers (cfg : Config) : ℕ :=
  match cfg.shrStrat with
  | 1 => 1
  | 2 => cfg.cpus
  | 3 => 1
  | 4 => 2
  | 5 => 1
  | _ => 0

/-- The solver of a worker of CubeAndConquer; worker 0 is slaves[0]. -/
def workerSolver (cfg : Config) (w : ℕ) : SolverId :=
  if w = 0 then cfg.first else cfg.cc.solver w

/-- The worker of CubeAndConquer that a solver has. -/
def solverWorker (cfg : Config) (x : SolverId) : Option ℕ :=
  if x = cfg.first then some 0
  else if cfg.cc.currentIdSolver ≤ x then some (x - cfg.cc.currentIdSolver + 1)
  else none

end Config

/-! ### A rank -/

structure State (P : Type) where
  node : CubeAndConquerNode
  globalEnding : Bool
  /-- the calls of CubeAndConquer that have not reached their sharers yet -/
  pending : List SharingCall
  producers : ℕ → Roster SolverId
  consumers : ℕ → Roster SolverId
  phase : ℕ → Phase
  sharing : SharingSystem.State SolverId ℕ P
  /-- History: the clauses that a solver, or the one it was cloned from before
  that, has taken out of its buffers. -/
  imported : SolverId → List (List ℤ)

inductive Action (P : Type)
  /-- main or the parent strategy calls solve -/
  | solve (cube : List ℤ)
  /-- the parent strategy calls setInterrupt -/
  | setInterrupt
  /-- main, at its time limit, or another strategy sets globalEnding -/
  | globalEnding
  /-- the master clones slaves[0] into the root -/
  | startUp
  | cube (a : CubeAndConquer.Action)
  /-- the next call reaches its sharer -/
  | deliver
  | wakeUp (i : ℕ)
  | addPhase (i : ℕ)
  | removePhase (i : ℕ)
  /-- a round of a sharer, or an operation of a solver or of the communicator -/
  | pipeline (a : SharingSystem.Action SolverId ℕ P)

/-- The call with which the loop over all sharers reaches sharer `j`. -/
def toSharer (j : ℕ) : SharingCall → SharingCall
  | .addConsumer _ x => .addConsumer j x
  | .addProducer _ x => .addProducer j x
  | .removeConsumer _ x => .removeConsumer j x
  | .removeProducer _ x => .removeProducer j x
  | .release x => .release x

def Config.callAll (cfg : Config) (calls : List SharingCall) : List SharingCall :=
  calls.flatMap fun call => (List.range cfg.nSharers).map fun j => toSharer j call

/-- The clauses that an operation takes out of the buffers of a solver. -/
def taken (queues : SolverId → SolverQueues P) :
    SharingSystem.Action SolverId ℕ P → SolverId → List (ClauseExchange P)
  | .importUnit y, x => if x = y then (queues y).unitsToImport.take 1 else []
  | .importUnits y, x => if x = y then (queues y).unitsToImport else []
  | .importClause y, x => if x = y then (queues y).clausesToImport.take 1 else []
  | _, _ => []

namespace State

variable (cfg : Config) (shrLit : ℤ)

def deliver (s : State P) : SharingCall → State P
  | .addConsumer i x =>
    { s with consumers := Function.update s.consumers i ((s.consumers i).add x) }
  | .addProducer i x =>
    { s with producers := Function.update s.producers i ((s.producers i).add x) }
  | .removeConsumer i x =>
    { s with consumers := Function.update s.consumers i ((s.consumers i).remove x) }
  | .removeProducer i x =>
    { s with producers := Function.update s.producers i ((s.producers i).remove x) }
  | .release _ => s

/-- The lists that a round reads. -/
def setup (s : State P) : Setup SolverId ℕ where
  id x := (x : ℤ)
  producers i := (s.producers i).members
  consumers i := (s.consumers i).members
  shrLit := shrLit

/-- The unit clauses that CubeAndConquer has added to a solver or to one it was
cloned from. -/
def units (s : State P) (x : SolverId) : List ℤ :=
  match s.node.rounds, cfg.solverWorker x with
  | some rounds, some w => rounds.loaded w ++ rounds.clausesToAdd w
  | _, _ => []

/-- What the solvers have imported after a step inside a round: the clone of the
target starts with what the target has. -/
def inherited (s : State P) (rounds : CubeAndConquer.State) :
    CubeAndConquer.Action → SolverId → List (List ℤ)
  | .divide _ =>
    match rounds.master with
    | .dividing (w :: _) =>
      Function.update s.imported (cfg.cc.solver rounds.created)
        (s.imported (cfg.workerSolver w))
    | _ => s.imported
  | _ => s.imported

/-- A sharer runs its round between its two phases. -/
def mayRun (s : State P) : SharingSystem.Action SolverId ℕ P → Bool
  | .doSharing i => s.phase i = .sharing
  | _ => true

def phaseAfter (s : State P) : SharingSystem.Action SolverId ℕ P → ℕ → Phase
  | .doSharing i => Function.update s.phase i .removing
  | _ => s.phase

variable [DecidableEq P]

/-- SolverFactory::cloneSolver returns null for MiniSat, and the master goes on
to use the clone. -/
def step (s : State P) : Action P → Option (State P)
  | .solve cube => some { s with node := s.node.solve cube }
  | .setInterrupt => some { s with node := s.node.setInterrupt }
  | .globalEnding => some { s with globalEnding := true }
  | .startUp =>
    if cfg.cc.solverType = .minisat then none
    else
      (s.node.step cfg.nested s.globalEnding .startUp).map fun out =>
        { s with
          node := out.after
          pending := s.pending ++ cfg.callAll [.addConsumer 0 (cfg.cc.solver 1)]
          imported := Function.update s.imported (cfg.cc.solver 1) (s.imported cfg.first) }
  | .cube a =>
    s.node.rounds.bind fun rounds =>
      (s.node.step cfg.nested s.globalEnding (.cube a)).map fun out =>
        { s with
          node := out.after
          globalEnding := out.globalEnding
          pending := s.pending ++ cfg.callAll (cfg.cc.newCalls rounds a)
          imported := s.inherited cfg rounds a }
  | .deliver =>
    match s.pending with
    | [] => none
    | call :: rest => some { s.deliver call with pending := rest }
  | .wakeUp i =>
    if i < cfg.nSharers ∧ s.phase i = .asleep then
      some { s with
        phase := Function.update s.phase i (if s.globalEnding then .ended else .adding) }
    else none
  | .addPhase i =>
    if s.phase i = .adding then
      some { s with
        producers := Function.update s.producers i (s.producers i).addPhase
        consumers := Function.update s.consumers i (s.consumers i).addPhase
        phase := Function.update s.phase i .sharing }
    else none
  | .removePhase i =>
    if s.phase i = .removing then
      some { s with
        producers := Function.update s.producers i (s.producers i).removePhase
        consumers := Function.update s.consumers i (s.consumers i).removePhase
        phase := Function.update s.phase i (if s.globalEnding then .ended else .asleep) }
    else none
  | .pipeline a =>
    if s.mayRun a then
      (SharingSystem.step (s.setup shrLit) s.sharing a).map fun sharing =>
        { s with
          sharing := sharing
          phase := s.phaseAfter a
          imported := fun x => s.imported x ++
            (taken s.sharing.store.queues a x).map ClauseExchange.lits }
    else none

/-- The messages that a step sends. -/
def sent (s : State P) : Action P → List (ℕ → ℤ)
  | .pipeline .exportLearnedClauses =>
    match exportLearnedClauses shrLit s.sharing.store.comm with
    | some e => e.sent.map Message.payload
    | none => []
  | _ => []

/-- main has built the working strategy and its sharers. -/
structure Start (s : State P) : Prop where
  node : ∃ next, s.node = ⟨cfg.cc.cfg, next, true, none⟩
  globalEnding : s.globalEnding = false
  pending : s.pending = []
  sharers : ∃ built : List (BuiltSharer P), cfg.sharers = some built ∧
    (∀ i, s.producers i = Roster.ofList (built[i]?.elim [] BuiltSharer.producers)) ∧
    (∀ i, s.consumers i = Roster.ofList (built[i]?.elim [] BuiltSharer.consumers)) ∧
    ∀ i, s.sharing.store.strategy i = built[i]?.elim .simple BuiltSharer.strategy
  phase : ∀ i, s.phase i = .asleep
  sharing : SharingSystem.Start s.sharing
  imported : ∀ x, s.imported x = []

end State

/-! ### All ranks -/

structure World (R P : Type) where
  ranks : R → State P
  /-- the buffers that have been sent -/
  network : List (ℕ → ℤ)

section Machine

variable {R : Type} [DecidableEq R] [DecidableEq P] (cfg : R → Config) (shrLit : ℤ)

def step (w : World R P) (a : R × Action P) : Option (World R P) :=
  ((w.ranks a.1).step (cfg a.1) shrLit a.2).map fun s =>
    { ranks := Function.update w.ranks a.1 s
      network := w.network ++ (w.ranks a.1).sent shrLit a.2 }

def machine : Machine (World R P) (R × Action P) where
  Init w := (∀ r, (w.ranks r).Start (cfg r)) ∧ w.network = []
  step := step cfg shrLit

end Machine

/-! ### slaves[0] -/

/-- slaves[0] is never a target, and nothing is added to its solver. -/
structure RootUntouched (s : CubeAndConquer.State) : Prop where
  workers : 0 ∉ s.workers
  targets : 0 ∉ CubeJobs.targets s.master
  created : 0 < s.created
  loaded : s.loaded 0 = []
  clausesToAdd : s.clausesToAdd 0 = []

theorem rootUntouched_start (next : ℕ) : RootUntouched (CubeAndConquer.start next) := by
  refine ⟨?_, ?_, ?_, rfl, rfl⟩
  · simp [CubeAndConquer.start]
  · simp [CubeAndConquer.start, CubeJobs.targets]
  · simp [CubeAndConquer.start]

section RootUntouched

variable {s t : CubeAndConquer.State}

/-- The fields of the invariant stay as they are. -/
theorem RootUntouched.frame (hs : RootUntouched s) (hworkers : t.workers ⊆ s.workers)
    (htargets : CubeJobs.targets t.master ⊆ s.workers ++ CubeJobs.targets s.master)
    (hcreated : t.created = s.created) (hloaded : t.loaded = s.loaded)
    (hadd : t.clausesToAdd = s.clausesToAdd) : RootUntouched t := by
  refine ⟨fun h => hs.workers (hworkers h), fun h => ?_, ?_, ?_, ?_⟩
  · rcases List.mem_append.mp (htargets h) with h | h
    · exact hs.workers h
    · exact hs.targets h
  · rw [hcreated]
    exact hs.created
  · rw [hloaded]
    exact hs.loaded
  · rw [hadd]
    exact hs.clausesToAdd

/-- Neither the workers nor their formulas change, and no target is chosen. -/
theorem RootUntouched.stay (hs : RootUntouched s) (hworkers : t.workers = s.workers)
    (htargets : CubeJobs.targets t.master ⊆ CubeJobs.targets s.master)
    (hcreated : t.created = s.created) (hloaded : t.loaded = s.loaded)
    (hadd : t.clausesToAdd = s.clausesToAdd) : RootUntouched t := by
  refine hs.frame ?_ ?_ hcreated hloaded hadd
  · rw [hworkers]
    exact List.Subset.refl _
  · exact List.subset_append_of_subset_right _ htargets

theorem rootUntouched_worker {w : ℕ} (hs : RootUntouched s)
    (h : CubeAndConquer.stepWorker s w = some t) : RootUntouched t := by
  have hsame := List.Subset.refl (CubeJobs.targets s.master)
  cases hp : s.pc w with
  | entering =>
    -- the thread loads what has been added, which is nothing for slaves[0]
    simp only [CubeAndConquer.stepWorker, hp, Option.some.injEq] at h
    subst h
    refine ⟨hs.workers, hs.targets, hs.created, ?_, ?_⟩
    · change Function.update s.loaded w (s.loaded w ++ s.clausesToAdd w) 0 = []
      by_cases hw : w = 0
      · subst w
        simp [hs.loaded, hs.clausesToAdd]
      · rw [Function.update_of_ne (Ne.symm hw)]
        exact hs.loaded
    · change Function.update s.clausesToAdd w [] 0 = []
      by_cases hw : w = 0
      · subst w
        simp
      · rw [Function.update_of_ne (Ne.symm hw)]
        exact hs.clausesToAdd
  | launching | interrupting i res model =>
    simp only [CubeAndConquer.stepWorker, hp] at h
    split at h
    all_goals
      obtain rfl := Option.some.inj h
      exact hs.stay rfl hsame rfl rfl rfl
  | check | ready | returned res model | calling res model | counting model | testing model
  | pushing | ending res model | publishing res model | storing res model =>
    simp only [CubeAndConquer.stepWorker, hp, Option.some.injEq] at h
    subst h
    exact hs.stay rfl hsame rfl rfl rfl
  | blocked | solving | done => simp [CubeAndConquer.stepWorker, hp] at h

theorem rootUntouched_master {cfg : CubeAndConquer.Config} (hs : RootUntouched s)
    (h : CubeAndConquer.stepMaster cfg s = some t) : RootUntouched t := by
  have hnone := List.nil_subset (CubeJobs.targets s.master)
  cases hm : s.master with
  | startPortfolio | startRoot | reaping i w =>
    simp only [CubeAndConquer.stepMaster, hm] at h
    split at h
    · obtain rfl := Option.some.inj h
      exact hs.stay rfl hnone rfl rfl rfl
    · exact absurd h (by simp)
  | test | rest =>
    simp only [CubeAndConquer.stepMaster, hm, Option.some.injEq] at h
    subst h
    refine hs.stay rfl ?_ rfl rfl rfl
    split <;> exact hnone
  | interrupting i =>
    simp only [CubeAndConquer.stepMaster, hm] at h
    split at h
    all_goals
      obtain rfl := Option.some.inj h
      exact hs.stay rfl hnone rfl rfl rfl
  | waiting i =>
    simp only [CubeAndConquer.stepMaster, hm] at h
    split at h
    · split at h
      · exact absurd h (by simp)
      · obtain rfl := Option.some.inj h
        exact hs.stay rfl hnone rfl rfl rfl
    · exact absurd h (by simp)
  | erasing i =>
    simp only [CubeAndConquer.stepMaster, hm] at h
    split at h
    · obtain rfl := Option.some.inj h
      exact hs.frame (List.filter_subset_self _) (List.nil_subset _) rfl rfl rfl
    · obtain rfl := Option.some.inj h
      exact hs.stay rfl hnone rfl rfl rfl
  | choosing =>
    simp only [CubeAndConquer.stepMaster, hm, Option.some.injEq] at h
    subst h
    refine hs.frame (List.Subset.refl _) ?_ rfl rfl rfl
    exact List.subset_append_of_subset_left _ (List.take_subset _ _)
  | dividing ws =>
    cases ws with
    | nil =>
      simp only [CubeAndConquer.stepMaster, hm, Option.some.injEq] at h
      subst h
      exact hs.stay rfl hnone rfl rfl rfl
    | cons w rest => simp [CubeAndConquer.stepMaster, hm] at h
  | sorting =>
    simp only [CubeAndConquer.stepMaster, hm] at h
    split at h
    · exact absurd h (by simp)
    · obtain rfl := Option.some.inj h
      exact hs.stay rfl hnone rfl rfl rfl
  | launching i n =>
    simp only [CubeAndConquer.stepMaster, hm] at h
    split at h
    · split at h
      · obtain rfl := Option.some.inj h
        exact hs.stay rfl hnone rfl rfl rfl
      · exact absurd h (by simp)
    · obtain rfl := Option.some.inj h
      exact hs.stay rfl hnone rfl rfl rfl
  | deleting i w | halting i w | clearing =>
    simp only [CubeAndConquer.stepMaster, hm, Option.some.injEq] at h
    subst h
    exact hs.stay rfl hnone rfl rfl rfl
  | finished => simp [CubeAndConquer.stepMaster, hm] at h

theorem rootUntouched_divide {var : ℤ} (hs : RootUntouched s)
    (h : CubeAndConquer.divide s var = some t) : RootUntouched t := by
  unfold CubeAndConquer.divide at h
  split at h
  case h_1 w targets hmaster =>
    obtain rfl := Option.some.inj h
    have hw : w ≠ 0 ∧ 0 ∉ targets := by
      have htargets := hs.targets
      rw [hmaster] at htargets
      simp only [CubeJobs.targets, List.mem_cons, not_or] at htargets
      exact ⟨Ne.symm htargets.1, htargets.2⟩
    have hnew := hs.created
    refine ⟨?_, hw.2, Nat.succ_pos _, ?_, ?_⟩
    · simp only [List.mem_append, List.mem_singleton, not_or]
      exact ⟨hs.workers, by omega⟩
    · change Function.update s.loaded s.created (s.loaded w) 0 = []
      rw [Function.update_of_ne (by omega)]
      exact hs.loaded
    · change Function.update (Function.update s.clausesToAdd w _) s.created [-var] 0 = []
      rw [Function.update_of_ne (by omega), Function.update_of_ne (Ne.symm hw.1)]
      exact hs.clausesToAdd
  case h_2 => exact absurd h (by simp)

theorem rootUntouched_step {cfg : CubeAndConquer.Config} {a : CubeAndConquer.Action}
    (hs : RootUntouched s) (h : CubeAndConquer.step cfg s a = some t) : RootUntouched t := by
  cases a with
  | master => exact rootUntouched_master hs h
  | divide var => exact rootUntouched_divide hs h
  | sort order =>
    simp only [CubeAndConquer.step, CubeAndConquer.sort] at h
    split at h
    · case _ hsort =>
      obtain rfl := Option.some.inj h
      exact hs.frame hsort.2.2.subset (by simp [CubeJobs.targets]) rfl rfl rfl
    · exact absurd h (by simp)
  | worker w => exact rootUntouched_worker hs h
  | answer w res model =>
    simp only [CubeAndConquer.step, CubeAndConquer.answer] at h
    split at h
    · obtain rfl := Option.some.inj h
      exact hs.frame (List.Subset.refl _) (List.subset_append_right _ _) rfl rfl rfl
    · exact absurd h (by simp)

theorem rootUntouched_setInterrupts (ws : List ℕ) (hs : RootUntouched s) :
    RootUntouched (ws.foldl CubeAndConquer.State.setInterrupt s) := by
  induction ws generalizing s with
  | nil => exact hs
  | cons w rest ih =>
    exact ih { hs with }

end RootUntouched

def NodeUntouched (node : CubeAndConquerNode) : Prop :=
  ∀ rounds, node.rounds = some rounds → RootUntouched rounds

/-- Before the parent is told, the thread moves and nothing else changes. -/
theorem RootUntouched.forward {s t : CubeAndConquer.State} {a : CubeAndConquer.Action}
    {r : PortfolioWinner.Report} (hs : RootUntouched s)
    (h : CubeAndConquerNode.forward s a = some (t, r)) : RootUntouched t := by
  unfold CubeAndConquerNode.forward at h
  split at h
  · split at h
    · obtain ⟨rfl, -⟩ := Prod.mk.inj (Option.some.inj h)
      exact { hs with }
    · exact absurd h (by simp)
  · exact absurd h (by simp)

theorem NodeUntouched.startUp {node : CubeAndConquerNode} {nested g : Bool}
    {out : CubeForwarding.Outcome CubeAndConquerNode}
    (h : node.step nested g .startUp = some out) : NodeUntouched out.after := by
  intro after hafter
  simp only [CubeAndConquerNode.step] at h
  split_ifs at h
  obtain rfl := Option.some.inj h
  obtain rfl := Option.some.inj hafter
  exact rootUntouched_start node.next

theorem NodeUntouched.cube {node : CubeAndConquerNode} {nested g : Bool}
    {a : CubeAndConquer.Action} {out : CubeForwarding.Outcome CubeAndConquerNode}
    (hnode : NodeUntouched node) (h : node.step nested g (.cube a) = some out) :
    NodeUntouched out.after := by
  intro after hafter
  obtain ⟨rounds, hrounds, h⟩ := Option.bind_eq_some_iff.mp h
  have hs := hnode rounds hrounds
  have hset : RootUntouched { rounds with globalEnding := g } := { hs with }
  dsimp only at h
  generalize hforward : CubeAndConquerNode.forward { rounds with globalEnding := g } a = f at h
  split at h
  · obtain rfl := Option.some.inj h
    obtain rfl := Option.some.inj hafter
    exact hset.forward hforward
  · obtain ⟨t, ht, rfl⟩ := Option.map_eq_some_iff.mp h
    obtain rfl := Option.some.inj hafter
    exact rootUntouched_step hset ht

theorem NodeUntouched.solve {node : CubeAndConquerNode} (hnode : NodeUntouched node)
    (cube : List ℤ) : NodeUntouched (node.solve cube) := by
  intro after hafter
  obtain ⟨rounds, hrounds, rfl⟩ := Option.map_eq_some_iff.mp hafter
  have hs := hnode rounds hrounds
  exact { hs with }

theorem NodeUntouched.setInterrupt {node : CubeAndConquerNode} (hnode : NodeUntouched node) :
    NodeUntouched node.setInterrupt := by
  intro after hafter
  obtain ⟨rounds, hrounds, rfl⟩ := Option.map_eq_some_iff.mp hafter
  exact rootUntouched_setInterrupts _ (hnode rounds hrounds)

/-! ### The producers -/

def AddsNoProducer : SharingCall → Prop
  | .addProducer _ _ => False
  | _ => True

/-- The producers stay those that main has made the sharers with. -/
structure MainProduces (cfg : Config) (s : State P) : Prop where
  node : NodeUntouched s.node
  pending : ∀ call ∈ s.pending, AddsNoProducer call
  members : ∀ i, ∀ x ∈ (s.producers i).members, x < cfg.cc.currentIdSolver
  toAdd : ∀ i, (s.producers i).toAdd = []

section Producers

variable {cfg : Config} {s : State P}

theorem newCalls_addsNoProducer (cc : CubeCaller) (rounds : CubeAndConquer.State)
    (a : CubeAndConquer.Action) : ∀ call ∈ cc.newCalls rounds a, AddsNoProducer call := by
  intro call hcall
  unfold CubeCaller.newCalls at hcall
  split at hcall
  · rw [List.mem_singleton.mp hcall]
    trivial
  · split at hcall
    · split at hcall
      · rw [List.mem_singleton.mp hcall]
        trivial
      · simp at hcall
    · simp at hcall
  · simp at hcall

theorem callAll_addsNoProducer {calls : List SharingCall}
    (h : ∀ call ∈ calls, AddsNoProducer call) :
    ∀ call ∈ cfg.callAll calls, AddsNoProducer call := by
  intro call hcall
  obtain ⟨made, hmade, hcall⟩ := List.mem_flatMap.mp hcall
  obtain ⟨j, -, rfl⟩ := List.mem_map.mp hcall
  have hadds := h made hmade
  cases made with
  | addProducer i x => exact hadds
  | addConsumer i x | removeConsumer i x | removeProducer i x | release x => trivial

theorem MainProduces.call (hs : MainProduces cfg s) {node : CubeAndConquerNode}
    (hnode : NodeUntouched node) {calls : List SharingCall}
    (hcalls : ∀ call ∈ calls, AddsNoProducer call) (globalEnding : Bool)
    (imported : SolverId → List (List ℤ)) :
    MainProduces cfg { s with
      node := node
      globalEnding := globalEnding
      pending := s.pending ++ cfg.callAll calls
      imported := imported } := by
  refine ⟨hnode, fun call hcall => ?_, hs.members, hs.toAdd⟩
  rcases List.mem_append.mp hcall with hold | hnew
  · exact hs.pending call hold
  · exact callAll_addsNoProducer hcalls call hnew

/-- A roster is replaced by one with fewer members. -/
theorem MainProduces.withRoster (hs : MainProduces cfg s) (i : ℕ) (r : Roster SolverId)
    (hmembers : ∀ x ∈ r.members, x < cfg.cc.currentIdSolver) (hadd : r.toAdd = [])
    (consumers : ℕ → Roster SolverId) (phase : ℕ → Phase) {pending : List SharingCall}
    (hpending : ∀ call ∈ pending, AddsNoProducer call) :
    MainProduces cfg { s with
      producers := Function.update s.producers i r
      consumers := consumers
      phase := phase
      pending := pending } := by
  refine ⟨hs.node, hpending, fun j => ?_, fun j => ?_⟩
  · dsimp only
    rw [Function.update_apply]
    split_ifs
    · exact hmembers
    · exact hs.members j
  · dsimp only
    rw [Function.update_apply]
    split_ifs
    · exact hadd
    · exact hs.toAdd j

theorem MainProduces.deliver (hs : MainProduces cfg s) {call : SharingCall}
    {rest : List SharingCall} (hpending : s.pending = call :: rest) :
    MainProduces cfg { s.deliver call with pending := rest } := by
  have hcall : AddsNoProducer call := hs.pending call (hpending ▸ List.mem_cons_self)
  have hrest (c : SharingCall) (hc : c ∈ rest) : AddsNoProducer c :=
    hs.pending c (hpending ▸ List.mem_cons_of_mem call hc)
  cases call with
  | addProducer i x => exact False.elim hcall
  | removeProducer i x =>
    exact hs.withRoster i ((s.producers i).remove x) (hs.members i) (hs.toAdd i) s.consumers
      s.phase hrest
  | addConsumer i x | removeConsumer i x | release x =>
    exact ⟨hs.node, hrest, hs.members, hs.toAdd⟩

theorem eraseAll_subset (members solvers : List SolverId) :
    Roster.eraseAll members solvers ⊆ members := by
  rw [Roster.eraseAll_eq]
  exact List.filter_subset_self _

theorem mainProduces_step [DecidableEq P] {shrLit : ℤ} {a : Action P} {t : State P}
    (hs : MainProduces cfg s) (h : s.step cfg shrLit a = some t) : MainProduces cfg t := by
  cases a with
  | solve cube =>
    obtain rfl := Option.some.inj h
    exact ⟨hs.node.solve cube, hs.pending, hs.members, hs.toAdd⟩
  | setInterrupt =>
    obtain rfl := Option.some.inj h
    exact ⟨hs.node.setInterrupt, hs.pending, hs.members, hs.toAdd⟩
  | globalEnding =>
    obtain rfl := Option.some.inj h
    exact ⟨hs.node, hs.pending, hs.members, hs.toAdd⟩
  | startUp =>
    simp only [State.step] at h
    split_ifs at h
    obtain ⟨out, hout, rfl⟩ := Option.map_eq_some_iff.mp h
    refine hs.call (NodeUntouched.startUp hout) (fun call hcall => ?_) _ _
    rw [List.mem_singleton.mp hcall]
    trivial
  | cube a =>
    obtain ⟨rounds, -, h⟩ := Option.bind_eq_some_iff.mp h
    obtain ⟨out, hout, rfl⟩ := Option.map_eq_some_iff.mp h
    exact hs.call (hs.node.cube hout) (newCalls_addsNoProducer cfg.cc rounds a) _ _
  | deliver =>
    simp only [State.step] at h
    split at h
    · exact absurd h (by simp)
    case h_2 call rest hpending =>
      obtain rfl := Option.some.inj h
      exact hs.deliver hpending
  | wakeUp i =>
    simp only [State.step] at h
    split_ifs at h
    all_goals
      obtain rfl := Option.some.inj h
      exact ⟨hs.node, hs.pending, hs.members, hs.toAdd⟩
  | addPhase i =>
    simp only [State.step] at h
    split_ifs at h
    obtain rfl := Option.some.inj h
    refine hs.withRoster i (s.producers i).addPhase (fun x hx => ?_) rfl _ _ hs.pending
    rw [Roster.addPhase, hs.toAdd i, List.append_nil] at hx
    exact hs.members i x hx
  | removePhase i =>
    simp only [State.step] at h
    split_ifs at h
    all_goals
      obtain rfl := Option.some.inj h
      refine hs.withRoster i (s.producers i).removePhase (fun x hx => ?_) (hs.toAdd i) _ _
        hs.pending
      exact hs.members i x (eraseAll_subset _ _ hx)
  | pipeline a =>
    simp only [State.step] at h
    split_ifs at h
    obtain ⟨sharing, -, rfl⟩ := Option.map_eq_some_iff.mp h
    exact ⟨hs.node, hs.pending, hs.members, hs.toAdd⟩

theorem mem_of_mapM {I B : Type*} {f : I → Option B} {is : List I} {bs : List B}
    (h : is.mapM f = some bs) {b : B} (hb : b ∈ bs) : ∃ i ∈ is, f i = some b := by
  induction is generalizing bs with
  | nil =>
    obtain rfl := Option.some.inj h
    simp at hb
  | cons i rest ih =>
    rw [List.mapM_cons] at h
    obtain ⟨first, hfirst, h⟩ := Option.bind_eq_some_iff.mp h
    obtain ⟨later, hlater, h⟩ := Option.bind_eq_some_iff.mp h
    obtain rfl := Option.some.inj h
    rcases List.mem_cons.mp hb with rfl | hb
    · exact ⟨i, List.mem_cons_self, hfirst⟩
    · obtain ⟨j, hj, hjb⟩ := ih hlater hb
      exact ⟨j, List.mem_cons_of_mem i hj, hjb⟩

/-- main makes its own solvers producers, and no others. -/
theorem sharers_producers {built : List (BuiltSharer P)} (h : cfg.sharers = some built)
    {b : BuiltSharer P} (hb : b ∈ built) : b.producers ⊆ cfg.solvers := by
  unfold Config.sharers at h
  split at h
  case h_1 | h_3 | h_5 =>
    obtain rfl := Option.some.inj h
    rw [List.mem_singleton.mp hb]
    exact List.Subset.refl _
  case h_2 =>
    obtain ⟨i, -, hi⟩ := mem_of_mapM h hb
    obtain ⟨x, hx, rfl⟩ := Option.map_eq_some_iff.mp hi
    exact List.cons_subset.mpr ⟨List.mem_of_getElem? hx, List.nil_subset _⟩
  case h_4 =>
    obtain ⟨x, hx, rfl⟩ := Option.map_eq_some_iff.mp h
    rcases List.mem_cons.mp hb with rfl | hb
    · exact List.take_subset _ _
    · rw [List.mem_singleton.mp hb]
      exact List.cons_subset.mpr ⟨List.mem_of_getElem? hx, List.nil_subset _⟩
  case h_6 =>
    obtain rfl := Option.some.inj h
    simp at hb

theorem mainProduces_start [DecidableEq P] (h : s.Start cfg) : MainProduces cfg s := by
  obtain ⟨next, hnode⟩ := h.node
  obtain ⟨built, hbuilt, hproducers, -, -⟩ := h.sharers
  refine ⟨?_, ?_, fun i x hx => ?_, fun i => ?_⟩
  · intro rounds hrounds
    rw [hnode] at hrounds
    simp at hrounds
  · rw [h.pending]
    simp
  · rw [hproducers i] at hx
    cases hi : built[i]? with
    | none => simp [hi, Roster.ofList] at hx
    | some b =>
      rw [hi] at hx
      exact cfg.numbered x (sharers_producers hbuilt (List.mem_of_getElem? hi) hx)
  · rw [hproducers i]
    rfl

/-! ### Extended solvers -/

/-- A split literal has been added to the solver, or to one it was cloned from. -/
def Extended (cfg : Config) (s : State P) (x : SolverId) : Prop := s.units cfg x ≠ []

/-- Nothing is added to the solvers that main has made. -/
theorem MainProduces.units (hs : MainProduces cfg s) {x : SolverId}
    (hx : x < cfg.cc.currentIdSolver) : s.units cfg x = [] := by
  unfold State.units
  split
  · case _ rounds w hrounds hw =>
    have hroot := hs.node rounds hrounds
    unfold Config.solverWorker at hw
    split_ifs at hw with hfirst hclone
    · obtain rfl := Option.some.inj hw
      rw [hroot.loaded, hroot.clausesToAdd, List.append_nil]
    · exact absurd hclone (Nat.not_le.mpr hx)
  · rfl

theorem MainProduces.not_producer (hs : MainProduces cfg s) {x : SolverId}
    (hx : Extended cfg s x) (i : ℕ) :
    x ∉ (s.producers i).members ∧ x ∉ (s.producers i).toAdd := by
  constructor
  · exact fun hmem => hx (hs.units (hs.members i x hmem))
  · rw [hs.toAdd i]
    exact List.not_mem_nil

end Producers

section Reach

variable {R : Type} [DecidableEq R] [DecidableEq P] {cfg : R → Config} {shrLit : ℤ}

/-- A step of a rank leaves the other ranks as they are. -/
theorem step_rank {w v : World R P} {r : R} {a : Action P}
    (h : step cfg shrLit w (r, a) = some v) :
    ∃ t, (w.ranks r).step (cfg r) shrLit a = some t ∧ v.ranks = Function.update w.ranks r t ∧
      v.network = w.network ++ (w.ranks r).sent shrLit a := by
  obtain ⟨t, ht, rfl⟩ := Option.map_eq_some_iff.mp h
  exact ⟨t, ht, rfl, rfl⟩

theorem mainProduces_reach {ok : World R P → R × Action P → Prop} {w : World R P}
    (hw : (machine cfg shrLit).Reach ok w) (r : R) : MainProduces (cfg r) (w.ranks r) := by
  refine hw.invariant (fun w => ∀ r, MainProduces (cfg r) (w.ranks r)) ?_ ?_ r
  · intro w hinit r
    exact mainProduces_start (hinit.1 r)
  intro w ⟨r, a⟩ v _ hw _ h
  obtain ⟨t, ht, hranks, -⟩ := step_rank h
  rw [hranks]
  exact forall_goto (P := fun r s => MainProduces (cfg r) s) hw (mainProduces_step (hw r) ht)

end Reach

end Painless.CubeSharing
