import Painless.ClauseMetadata
import Painless.ClauseRoutes
import Painless.MapleSolver
import Painless.ResultValidity
import Painless.SearchContract

/-!
The distributed portfolio of MiniSat solvers: on every rank solvers that search, the
callbacks of the wrapper around each, the sharers and the communicator; between the
ranks the messages with clauses; and the way of the answers to the root. The steps of
all of them come in any order. The search engine inside the wrapper is a parameter.
-/
namespace Painless.MiniSatPortfolio

open Cnf PartialAssignment SearchContract ClauseRoutes
open MapleSolver (miniLit intLit miniVec)
open SharedClauses ClauseCommunicator SharingStrategies SolverInterface
open SharingSystem (Setup Start)
open ClauseMetadata (Learned minisatExportClause)
open Transitions (Machine)

variable {Q T S I P : Type*} {n : ℕ}

/-- The same for all ranks, but the ids of the solvers. -/
structure Config (S I : Type*) (n : ℕ) where
  ids : Fin (n + 1) → S → ℤ
  producers : I → List S
  consumers : I → List S
  shrLit : ℤ

def Config.setup (cfg : Config S I n) (r : Fin (n + 1)) : Setup S I where
  id := cfg.ids r
  producers := cfg.producers
  consumers := cfg.consumers
  shrLit := cfg.shrLit

/-! ### The wrapper -/

/-- minisatExportClause, on the clause of the engine. -/
def exportClause (id sizeLimit : ℤ) (ptr : P) (c : Clause ℕ) : Option (LearnedClause P) :=
  if h : 0 < (c.map intLit).length then
    minisatExportClause ptr id sizeLimit ⟨c.map intLit, h, 0⟩
  else none

/-- minisatImportUnit -/
def unitLit (c : ClauseExchange P) : List (Literal ℕ) := (c.lits.take 1).map miniLit

def getModel (E : Engine Q T) (q : Q) : List ℤ :=
  (List.range (E.nVars q)).filterMap fun i =>
    (value (E.model q) i).map fun b => intLit (i, b)

/-- What MiniSat::solve makes of the answer. -/
def result : Option Bool → SatResult
  | some true => .sat
  | some false => .unsat
  | none => .unknown

/-! ### A rank -/

structure Rank (Q S I P : Type*) where
  engines : S → Q
  /-- What the import callbacks have returned in the turn that has begun. -/
  units : S → List (Literal ℕ)
  clauses : S → Formula ℕ
  sharing : SharingSystem.State S I P

inductive RankAction (T S I P : Type*)
  | solve (x : S)
  /-- `sizeLimit` is what the calls of increaseClauseProduction have left. -/
  | turn (x : S) (t : T) (sizeLimit : ℤ) (ptr : P)
  | importUnit (x : S)
  | importClause (x : S)
  | doSharing (i : I)
  | exportLearnedClauses
  /-- A message that has been sent arrives. -/
  | receiveClauses (malloc : ℕ → P) (k : ℕ)

namespace Rank

variable [DecidableEq S] [DecidableEq I] [DecidableEq P] (E : Engine Q T) (setup : Setup S I)

def pipeline (s : Rank Q S I P) (a : SharingSystem.Action S I P) : Option (Rank Q S I P) :=
  (SharingSystem.step setup s.sharing a).map fun sharing => { s with sharing := sharing }

def turned (s : Rank Q S I P) (x : S) (q : Q) : Rank Q S I P :=
  { s with
    engines := Function.update s.engines x q
    units := Function.update s.units x []
    clauses := Function.update s.clauses x [] }

def importUnit (s : Rank Q S I P) (x : S) : Rank Q S I P :=
  let taken := (s.sharing.store.queues x).unitsToImport.take 1
  { s with units := Function.update s.units x (s.units x ++ taken.flatMap unitLit) }

def importClause (s : Rank Q S I P) (x : S) : Rank Q S I P :=
  let taken := (s.sharing.store.queues x).clausesToImport.take 1
  { s with
    clauses := Function.update s.clauses x (s.clauses x ++ taken.map fun c => miniVec c.lits) }

def step (network : List (ℕ → ℤ)) (s : Rank Q S I P) :
    RankAction T S I P → Option (Rank Q S I P)
  | .solve x =>
    (E.solve (s.engines x)).map fun q => { s with engines := Function.update s.engines x q }
  | .turn x t sizeLimit ptr =>
    (E.turn (s.engines x) t (s.units x) (s.clauses x)).bind fun r =>
      match r.2.bind (exportClause (setup.id x) sizeLimit ptr) with
      | none => some (s.turned x r.1)
      | some cls => (s.turned x r.1).pipeline setup (.exportClause x cls)
  | .importUnit x =>
    if E.importing (s.engines x) then (s.importUnit x).pipeline setup (.importUnit x) else none
  | .importClause x =>
    if E.importing (s.engines x) then (s.importClause x).pipeline setup (.importClause x)
    else none
  | .doSharing i => s.pipeline setup (.doSharing i)
  | .exportLearnedClauses => s.pipeline setup .exportLearnedClauses
  | .receiveClauses malloc k =>
    network[k]?.bind fun payload => s.pipeline setup (.receiveClauses malloc payload)

/-- The buffers that a step sends. -/
def sent (s : Rank Q S I P) : RankAction T S I P → List (ℕ → ℤ)
  | .exportLearnedClauses =>
    match ClauseCommunicator.exportLearnedClauses setup.shrLit s.sharing.store.comm with
    | some e => e.sent.map Message.payload
    | none => []
  | _ => []

end Rank

/-! ### All ranks -/

structure World (n : ℕ) (Q S I P : Type*) where
  ranks : Fin (n + 1) → Rank Q S I P
  /-- The buffers that have been sent. -/
  network : List (ℕ → ℤ)
  verdict : DistributedPortfolio.State n

inductive Action (n : ℕ) (T S I P : Type*)
  | rank (r : Fin (n + 1)) (a : RankAction T S I P)
  /-- The thread of a solver whose call has returned calls LocalWorker::join. -/
  | join (r : Fin (n + 1)) (x : S)
  /-- Any other step of the processes with the answers. -/
  | verdict (a : DistributedPortfolio.Action n)

section Machine

variable [DecidableEq S] [DecidableEq I] [DecidableEq P] (E : Engine Q T) (cfg : Config S I n)

def join (w : World n Q S I P) (r : Fin (n + 1)) (q : Q) : Option (World n Q S I P) :=
  (E.status q).bind fun status =>
    (DistributedPortfolio.step w.verdict
      (.answer r (result status) (if status = some true then getModel E q else []))).map
        fun verdict => { w with verdict := verdict }

def step (w : World n Q S I P) : Action n T S I P → Option (World n Q S I P)
  | .rank r a =>
    ((w.ranks r).step E (cfg.setup r) w.network a).map fun s =>
      { w with
        ranks := Function.update w.ranks r s
        network := w.network ++ (w.ranks r).sent (cfg.setup r) a }
  | .join r x => join E w r ((w.ranks r).engines x)
  | .verdict (.answer _ _ _) => none
  | .verdict a =>
    (DistributedPortfolio.step w.verdict a).map fun verdict => { w with verdict := verdict }

/-- Every solver has loaded the formula. -/
structure Initial (loaded : Q → Prop) (w : World n Q S I P) : Prop where
  engines : ∀ r x, loaded ((w.ranks r).engines x)
  units : ∀ r x, (w.ranks r).units x = []
  clauses : ∀ r x, (w.ranks r).clauses x = []
  sharing : ∀ r, Start (w.ranks r).sharing
  network : w.network = []
  verdict : w.verdict = DistributedPortfolio.start n

def machine (loaded : Q → Prop) : Machine (World n Q S I P) (Action n T S I P) where
  Init := Initial loaded
  step := step E cfg

end Machine

end Painless.MiniSatPortfolio
