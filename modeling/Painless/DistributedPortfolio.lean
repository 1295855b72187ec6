import Painless.Transitions
import Painless.SolverInterface
import Mathlib.Data.List.FinRange
import Mathlib.Logic.Function.Basic
import Mathlib.Data.Int.Notation

/-!
The distributed portfolio: a Portfolio over one Dispatcher per rank at the root,
and a LocalWorker on every rank. The steps are the test in LocalWorker::join,
each call of MpiComm::reportResult, each message handled by receiveIncomingMsg,
each timeout, the broadcast of the result and its printing, each of them as a whole:
nothing comes between the writes of Portfolio::join, which ResultWrites takes apart.
Messages arrive in any order. CUBE, CLAUSE and INTERRUPT messages only drive the solvers, whose
answers are arbitrary here, so these three tags are left out.
-/
namespace Painless.DistributedPortfolio

open Transitions SolverInterface

/-- REPORT goes to the root, STOP comes from it. -/
inductive Message (n : ℕ) where
  | report (source : Fin (n + 1)) (words : List ℤ)
  | stop (destination : Fin (n + 1)) (ret : ℤ)
  deriving DecidableEq

def Message.destination {n : ℕ} : Message n → Fin (n + 1)
  | .report _ _ => 0
  | .stop r _ => r

structure Rank where
  /-- MpiComm::res -/
  res : SatResult
  /-- MpiComm::model -/
  model : List ℤ
  globalEnding : Bool
  /-- What the solver threads between the test of globalEnding in
  LocalWorker::join and reportResult will report. -/
  reporting : List (SatResult × List ℤ)
  /-- The main thread has called setInterrupt on a null strategy. -/
  crashed : Bool
  /-- History: the rank has handled STOP. -/
  stopped : Bool
  deriving DecidableEq

/-- The ranks, what only the root has, and the messages in flight. -/
structure State (n : ℕ) where
  ranks : Fin (n + 1) → Rank
  strategyEnding : Bool
  finalResult : SatResult
  finalModel : List ℤ
  inFlight : List (Message n)
  /-- What updateWorkingStatus has sent. -/
  broadcast : Option SatResult
  printed : Option SatResult
  /-- History: the calls of LocalWorker::join. -/
  joined : List (Fin (n + 1) × SatResult × List ℤ)

inductive Action (n : ℕ) where
  /-- A solver thread of the rank calls LocalWorker::join. -/
  | answer (r : Fin (n + 1)) (res : SatResult) (model : List ℤ)
  | report (r : Fin (n + 1)) (i : ℕ)
  | receive (k : ℕ)
  | timeout (r : Fin (n + 1))
  | broadcast
  | print

variable {n : ℕ}

namespace State

def root (s : State n) : Rank := s.ranks 0

def setRank (s : State n) (r : Fin (n + 1)) (x : Rank) : State n :=
  { s with ranks := Function.update s.ranks r x }

/-- The message has been taken from the network. -/
def take (s : State n) (k : ℕ) : State n := { s with inFlight := s.inFlight.eraseIdx k }

variable (s : State n) (r : Fin (n + 1)) (x : Rank) (k : ℕ)

@[simp] theorem setRank_ranks : (s.setRank r x).ranks = Function.update s.ranks r x := rfl
@[simp] theorem setRank_strategyEnding :
    (s.setRank r x).strategyEnding = s.strategyEnding := rfl
@[simp] theorem setRank_finalResult : (s.setRank r x).finalResult = s.finalResult := rfl
@[simp] theorem setRank_finalModel : (s.setRank r x).finalModel = s.finalModel := rfl
@[simp] theorem setRank_inFlight : (s.setRank r x).inFlight = s.inFlight := rfl
@[simp] theorem setRank_broadcast : (s.setRank r x).broadcast = s.broadcast := rfl
@[simp] theorem setRank_printed : (s.setRank r x).printed = s.printed := rfl
@[simp] theorem setRank_joined : (s.setRank r x).joined = s.joined := rfl
@[simp] theorem take_ranks : (s.take k).ranks = s.ranks := rfl
@[simp] theorem take_root : (s.take k).root = s.root := rfl
@[simp] theorem take_joined : (s.take k).joined = s.joined := rfl

@[simp] theorem setRank_root : (s.setRank 0 x).root = x := by
  rw [root, setRank_ranks, Function.update_self]

theorem setRank_root_of_ne {r : Fin (n + 1)} (hr : r ≠ 0) :
    (s.setRank r x).root = s.root := by
  rw [root, setRank_ranks, Function.update_of_ne hr.symm]
  rfl

end State

/-- LocalWorker::join, up to the call of reportResult. -/
def localJoin (s : State n) (r : Fin (n + 1)) (res : SatResult) (model : List ℤ) :
    State n :=
  let t := { s with joined := (r, res, model) :: s.joined }
  if (s.ranks r).globalEnding then t
  else if res ≠ .unknown then
    t.setRank r { s.ranks r with reporting := (s.ranks r).reporting ++ [(res, model)] }
  else t

def reportResult (s : State n) (r : Fin (n + 1)) (currRes : SatResult)
    (model : List ℤ) : State n :=
  if (s.ranks r).res ≠ .unknown then s
  else
    { s.setRank r { s.ranks r with res := currRes } with
      inFlight := s.inFlight ++ [.report r (currRes.code :: model)] }

def portfolioJoin (s : State n) (res : SatResult) (model : List ℤ) : State n :=
  if res = .unknown ∨ s.strategyEnding ∨ s.root.globalEnding then s
  else
    { s.setRank 0 { s.root with globalEnding := true } with
      strategyEnding := true
      finalResult := res
      finalModel := if res = .sat then model else s.finalModel }

def dispatcherJoin (s : State n) (res : SatResult) (model : List ℤ) : State n :=
  if s.root.globalEnding then s else portfolioJoin s res model

/-- The REPORT case of receiveIncomingMsg. No message has an integer outside the
codes in its first place. -/
def receiveReport (s : State n) (source : Fin (n + 1)) (words : List ℤ) :
    Option (State n) :=
  if s.root.res ≠ .unknown ∧ source ≠ 0 then some s
  else
    match words with
    | [] => none
    | word :: lits =>
      (SatResult.ofCode word).map fun res =>
        let model := if 0 < lits.length then lits else s.root.model
        dispatcherJoin (s.setRank 0 { s.root with res := res, model := model }) res model

/-- The STOP case of receiveIncomingMsg. -/
def receiveStop (s : State n) (r : Fin (n + 1)) (ret : ℤ) : Option (State n) :=
  (SatResult.ofCode ret).map fun res =>
    s.setRank r { s.ranks r with res := res, globalEnding := true, stopped := true }

/-- One turn of the loop of receiveIncomingMsg at the message's destination:
after globalEnding every message is garbage. -/
def receive (s : State n) (k : ℕ) : Option (State n) :=
  match s.inFlight[k]? with
  | none => none
  | some m =>
    if (s.ranks m.destination).crashed then none
    else if (s.ranks m.destination).globalEnding then some (s.take k)
    else
      match m with
      | .report source words => receiveReport (s.take k) source words
      | .stop r ret => receiveStop (s.take k) r ret

/-- The timeout in main. Only the root has a strategy to interrupt. -/
def timeout (s : State n) (r : Fin (n + 1)) : State n :=
  if r = 0 then s.setRank 0 { s.root with globalEnding := true }
  else s.setRank r { s.ranks r with globalEnding := true, crashed := true }

/-- MpiComm::updateWorkingStatus. -/
def updateWorkingStatus (s : State n) : State n :=
  { s with
    broadcast := some s.root.res
    inFlight := s.inFlight ++
      (List.finRange n).map fun i => .stop i.succ s.root.res.code }

/-- The root's main thread leaves its loop once globalEnding is set, and a rank
that has crashed does nothing more. -/
def step (s : State n) : Action n → Option (State n)
  | .answer r res model =>
    if (s.ranks r).crashed then none else some (localJoin s r res model)
  | .report r i =>
    if (s.ranks r).crashed then none
    else
      (s.ranks r).reporting[i]?.map fun p =>
        reportResult
          (s.setRank r { s.ranks r with reporting := (s.ranks r).reporting.eraseIdx i })
          r p.1 p.2
  | .receive k => receive s k
  | .timeout r =>
    if (s.ranks r).crashed ∨ (r = 0 ∧ s.broadcast.isSome) then none else some (timeout s r)
  | .broadcast =>
    if s.root.globalEnding ∧ s.broadcast = none then some (updateWorkingStatus s) else none
  | .print =>
    if s.broadcast.isSome ∧ s.printed = none then
      some { s with printed := some s.finalResult }
    else none

def Rank.start : Rank where
  res := .unknown
  model := []
  globalEnding := false
  reporting := []
  crashed := false
  stopped := false

def start (n : ℕ) : State n where
  ranks _ := .start
  strategyEnding := false
  finalResult := .unknown
  finalModel := []
  inFlight := []
  broadcast := none
  printed := none
  joined := []

def machine (n : ℕ) : Machine (State n) (Action n) where
  Init s := s = start n
  step := step

end Painless.DistributedPortfolio
