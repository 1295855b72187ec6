import Painless.DistributionRounds
import Painless.Transitions

/-!
The whole sharing pipeline of a rank: any number of solvers and of sharers, each
with its own strategy and its own producers and consumers, and the communicator.
Every operation is one step. In every state between two of them the counter of a
clause is the number of container entries that hold it.
-/
namespace Painless.SharingSystem

open RefCount SharedClauses SharedDatabase ClauseCommunicator SharingStrategies
open DistributionRounds Transitions

variable {S I P : Type*}

/-- What main fixes before the sharers start. -/
structure Setup (S I : Type*) where
  id : S → ℤ
  producers : I → List S
  consumers : I → List S
  shrLit : ℤ

inductive Strategy (P : Type*)
  | simple
  | hordeSat (database : ClauseDatabase P)
  | distribution (sharing : DistributionSharing P)

def Strategy.held : Strategy P → Multiset P
  | .simple => 0
  | .hordeSat database => database.held
  | .distribution sharing => sharing.database.held

/-- The containers, and for each sharer the log of its rounds. -/
structure Store (S I P : Type*) where
  queues : S → SolverQueues P
  strategy : I → Strategy P
  filterFlag : Bool
  comm : MpiComm P
  log : I → List (Event P)

structure State (S I P : Type*) where
  store : Store S I P
  heap : Heap P

inductive Action (S I P : Type*)
  /-- the export callback of a solver; the address is the one malloc returns -/
  | exportClause (s : S) (clause : LearnedClause P)
  /-- one round of a sharer -/
  | doSharing (i : I)
  | exportLearnedClauses
  | receiveClauses (malloc : ℕ → P) (payload : ℕ → ℤ)
  /-- the import callbacks of a solver: one unit, all units, one clause -/
  | importUnit (s : S)
  | importUnits (s : S)
  | importClause (s : S)

section Step

variable [DecidableEq S] [DecidableEq I] (setup : Setup S I)

/-- What an operation leaves in the containers, and its calls to the clause
manager. There is nothing after a failed assertion or a division by zero. -/
abbrev Effect (S I P : Type*) := Option (Store S I P × List (Call P))

def Store.withQueues (store : Store S I P) (s : S) (q : SolverQueues P) : Store S I P :=
  { store with queues := Function.update store.queues s q }

/-- The callback stamps the clause with the id of its solver. -/
def exportClause (s : S) (clause : LearnedClause P) (store : Store S I P) : Effect S I P :=
  let ncls : LearnedClause P := { clause with fromId := setup.id s }
  let q := store.queues s
  some (store.withQueues s { q with clausesToExport := q.clausesToExport ++ [ncls] },
    [allocClause ncls.toClauseExchange])

def Store.finish (store : Store S I P) (i : I) (strategy : Strategy P) (r : Outcome S P) :
    Store S I P :=
  { store with
    queues := r.queues
    strategy := Function.update store.strategy i strategy
    log := Function.update store.log i (store.log i ++ r.log) }

def doSharing (i : I) (store : Store S I P) : Effect S I P :=
  match store.strategy i with
  | .simple =>
    let r := simpleSharing setup.id (setup.consumers i) 0 (setup.producers i) store.queues
    some (store.finish i .simple r, r.calls)
  | .hordeSat database =>
    (hordeSatSharing setup.id setup.shrLit (setup.producers i) (setup.consumers i) database
      store.queues).map fun r => (store.finish i (.hordeSat r.1) r.2, r.2.calls)
  | .distribution sharing =>
    (distributionSharing setup.shrLit store.filterFlag (setup.producers i) (setup.consumers i)
      sharing store.comm store.queues).map fun r =>
        ({ store.finish i (.distribution r.sharing) r.toOutcome with
            filterFlag := true
            comm := r.comm },
          r.calls)

def importUnit (s : S) (store : Store S I P) : Effect S I P :=
  let q := store.queues s
  match q.unitsToImport with
  | [] => some (store, [])
  | cls :: rest =>
    some (store.withQueues s { q with unitsToImport := rest }, [releaseClause cls])

def importUnits (s : S) (store : Store S I P) : Effect S I P :=
  let q := store.queues s
  let tmp := getClauses q.unitsToImport
  some (store.withQueues s { q with unitsToImport := tmp.2 }, tmp.1.map releaseClause)

def importClause (s : S) (store : Store S I P) : Effect S I P :=
  let q := store.queues s
  match q.clausesToImport with
  | [] => some (store, [])
  | cls :: rest =>
    some (store.withQueues s { q with clausesToImport := rest }, [releaseClause cls])

def effect (store : Store S I P) : Action S I P → Effect S I P
  | .exportClause s clause => exportClause setup s clause store
  | .doSharing i => doSharing setup i store
  | .exportLearnedClauses =>
    (ClauseCommunicator.exportLearnedClauses setup.shrLit store.comm).map fun e =>
      ({ store with comm := e.comm }, e.calls)
  | .receiveClauses malloc payload =>
    (ClauseCommunicator.receiveClauses setup.shrLit malloc payload store.comm).map fun d =>
      ({ store with comm := d.comm }, d.queued.map allocClause)
  | .importUnit s => importUnit s store
  | .importUnits s => importUnits s store
  | .importClause s => importClause s store

/-- Only its own rounds change a sharer. -/
theorem effect_sharer {setup : Setup S I} {a : Action S I P} {store : Store S I P}
    {r : Store S I P × List (Call P)} (h : effect setup store a = some r) (i : I) :
    a = .doSharing i ∨ (r.1.strategy i = store.strategy i ∧ r.1.log i = store.log i) := by
  cases a with
  | exportClause s clause =>
    obtain rfl := Option.some.inj h
    exact .inr ⟨rfl, rfl⟩
  | doSharing j =>
    rcases eq_or_ne i j with rfl | hne
    · exact .inl rfl
    · refine .inr ?_
      simp only [effect, doSharing] at h
      split at h
      · obtain rfl := Option.some.inj h
        exact ⟨Function.update_of_ne hne _ _, Function.update_of_ne hne _ _⟩
      · obtain ⟨out, -, rfl⟩ := Option.map_eq_some_iff.mp h
        exact ⟨Function.update_of_ne hne _ _, Function.update_of_ne hne _ _⟩
      · obtain ⟨out, -, rfl⟩ := Option.map_eq_some_iff.mp h
        exact ⟨Function.update_of_ne hne _ _, Function.update_of_ne hne _ _⟩
  | exportLearnedClauses =>
    obtain ⟨e, -, rfl⟩ := Option.map_eq_some_iff.mp h
    exact .inr ⟨rfl, rfl⟩
  | receiveClauses malloc payload =>
    obtain ⟨d, -, rfl⟩ := Option.map_eq_some_iff.mp h
    exact .inr ⟨rfl, rfl⟩
  | importUnit s =>
    simp only [effect, importUnit] at h
    split at h <;> (obtain rfl := Option.some.inj h; exact .inr ⟨rfl, rfl⟩)
  | importUnits s =>
    obtain rfl := Option.some.inj h
    exact .inr ⟨rfl, rfl⟩
  | importClause s =>
    simp only [effect, importClause] at h
    split at h <;> (obtain rfl := Option.some.inj h; exact .inr ⟨rfl, rfl⟩)

theorem doSharing_simple {setup : Setup S I} {i : I} {store : Store S I P}
    {r : Store S I P × List (Call P)} (h : doSharing setup i store = some r)
    (hi : store.strategy i = .simple) : r.1.strategy i = .simple := by
  simp only [doSharing, hi] at h
  obtain rfl := Option.some.inj h
  exact Function.update_self ..

/-- A round of a HordeSatSharing. -/
theorem doSharing_hordeSat {setup : Setup S I} {i : I} {store : Store S I P}
    {r : Store S I P × List (Call P)} (h : doSharing setup i store = some r)
    {database : ClauseDatabase P} (hi : store.strategy i = .hordeSat database) :
    ∃ out, hordeSatSharing setup.id setup.shrLit (setup.producers i) (setup.consumers i)
        database store.queues = some out ∧
      r.1.strategy i = .hordeSat out.1 ∧ r.1.log i = store.log i ++ out.2.log := by
  simp only [doSharing, hi] at h
  obtain ⟨out, hout, rfl⟩ := Option.map_eq_some_iff.mp h
  exact ⟨out, hout, Function.update_self .., Function.update_self ..⟩

/-- A round of a DistributionSharing. -/
theorem doSharing_distribution {setup : Setup S I} {i : I} {store : Store S I P}
    {r : Store S I P × List (Call P)} (h : doSharing setup i store = some r)
    {sharing : DistributionSharing P} (hi : store.strategy i = .distribution sharing) :
    ∃ out, distributionSharing setup.shrLit store.filterFlag (setup.producers i)
        (setup.consumers i) sharing store.comm store.queues = some out ∧
      r.1.strategy i = .distribution out.sharing ∧ r.1.log i = store.log i ++ out.log := by
  simp only [doSharing, hi] at h
  obtain ⟨out, hout, rfl⟩ := Option.map_eq_some_iff.mp h
  exact ⟨out, hout, Function.update_self .., Function.update_self ..⟩

variable [DecidableEq P]

def step (s : State S I P) (a : Action S I P) : Option (State S I P) :=
  (effect setup s.store a).bind fun r => (runCalls s.heap r.2).map fun heap => ⟨r.1, heap⟩

def Strategy.Fresh : Strategy P → Prop
  | .simple => True
  | .hordeSat database => database = ClauseDatabase.empty
  | .distribution sharing => sharing = DistributionSharing.fresh

/-- No clause has been learned yet, on a rank with any number and size of group. -/
structure Start (s : State S I P) : Prop where
  queues : ∀ t, s.store.queues t = SolverQueues.empty
  strategy : ∀ i, (s.store.strategy i).Fresh
  filterFlag : s.store.filterFlag = false
  comm : ∃ importBuf exportBuf rank size group,
    s.store.comm = (MpiComm.fresh importBuf exportBuf).init rank size group
  log : ∀ i, s.store.log i = []
  heap : s.heap = counting 0

def machine : Machine (State S I P) (Action S I P) where
  Init := Start
  step := step setup

end Step

/-! ### Two solvers and one sharer -/

def pairSetup (shrLit : ℤ) : Setup (Fin 2) Unit where
  id s := (s : ℕ)
  producers _ := [0, 1]
  consumers _ := [0, 1]
  shrLit := shrLit

def pairStart (strategy : Strategy ℕ) : State (Fin 2) Unit ℕ where
  store :=
    { queues := fun _ => SolverQueues.empty
      strategy := fun _ => strategy
      filterFlag := false
      comm := (MpiComm.fresh (fun _ => 0) fun _ => 0).init 0 1 0
      log := fun _ => [] }
  heap := counting 0

/-- The unit clause of a literal, at an address. -/
def unitClause (ptr : ℕ) (lit : ℤ) : LearnedClause ℕ :=
  ⟨⟨ptr, some 1, 0, 1, [lit], List.length_singleton.symm⟩, Nat.one_pos⟩

theorem pairStart_init (shrLit : ℤ) {strategy : Strategy ℕ} (hfresh : strategy.Fresh) :
    (machine (pairSetup shrLit)).Init (pairStart strategy) where
  queues _ := rfl
  strategy _ := hfresh
  filterFlag := rfl
  comm := ⟨_, _, 0, 1, 0, rfl⟩
  log _ := rfl
  heap := rfl

theorem pair_reach {shrLit : ℤ} {strategy : Strategy ℕ} (hfresh : strategy.Fresh)
    {as : List (Action (Fin 2) Unit ℕ)} {t : State (Fin 2) Unit ℕ}
    (h : (machine (pairSetup shrLit)).run (pairStart strategy) as = some t) :
    (machine (pairSetup shrLit)).Reach (fun _ _ => True) t :=
  Machine.Reach.of_run (pairStart_init shrLit hfresh) h

end Painless.SharingSystem
