import Painless.Transitions
import Painless.SolverInterface
import Mathlib.Data.List.FinRange

/-!
The verdict of the distributed portfolio with one access of a shared variable a
step. On every rank solver threads, the communicator thread and the main thread
share MpiComm::res and globalEnding; at the root the communicator writes
strategyEnding, globalEnding and finalResult one after the other, while the main
thread polls globalEnding, sends res and prints finalResult. The models are left
out, since no verdict depends on them, and so are the messages that only drive
the solvers, whose answers are arbitrary here. Messages arrive in any order.
-/
namespace Painless.ResultWrites

open Transitions SolverInterface

/-- REPORT goes to the root, STOP comes from it. Both carry the code of a result. -/
inductive Message (n : ℕ) where
  | report (source : Fin (n + 1)) (result : SatResult)
  | stop (destination : Fin (n + 1)) (ret : SatResult)
  deriving DecidableEq

def Message.destination {n : ℕ} : Message n → Fin (n + 1)
  | .report _ _ => 0
  | .stop r _ => r

/-- Where the communicator thread stands with the message it handles. -/
inductive CommPc (n : ℕ) where
  | idle
  /-- the test of res -/
  | report (source : Fin (n + 1)) (result : SatResult)
  /-- `res = SatResult(result[0])` -/
  | store (result : SatResult)
  /-- the call of join, whose argument is read from res -/
  | call
  /-- Dispatcher::join, at its test of globalEnding -/
  | dispatch (res : SatResult)
  /-- Portfolio::join, at its test -/
  | join (res : SatResult)
  /-- `strategyEnding = true` -/
  | setStrategy (res : SatResult)
  /-- `globalEnding = true` -/
  | setEnding (res : SatResult)
  /-- `finalResult = res` -/
  | setResult (res : SatResult)
  /-- STOP: `res = SatResult(ret)` -/
  | stop (ret : SatResult)
  /-- STOP: `globalEnding = true` -/
  | stopEnding
  deriving DecidableEq

structure Rank (n : ℕ) where
  /-- MpiComm::res -/
  res : SatResult
  globalEnding : Bool
  /-- What the solver threads report that stand at the test of res in reportResult. -/
  reporting : List SatResult
  /-- What the solver threads report that have passed this test. -/
  writing : List SatResult
  comm : CommPc n
  /-- The main thread has timed out and is to call setInterrupt on a null strategy. -/
  interrupting : Bool
  crashed : Bool
  /-- History: the rank has handled STOP. -/
  stopped : Bool
  deriving DecidableEq

/-- Where the root's main thread stands. -/
inductive MainPc (n : ℕ) where
  /-- the loop that tests globalEnding -/
  | polling
  /-- updateWorkingStatus, with the ranks whose STOP has not been sent -/
  | sending (rest : List (Fin n))
  /-- `finalResult == SAT` -/
  | testingSat
  /-- `finalResult == UNSAT` -/
  | testingUnsat
  | done
  deriving DecidableEq

/-- The ranks, what only the root has, and the messages in flight. -/
structure State (n : ℕ) where
  ranks : Fin (n + 1) → Rank n
  strategyEnding : Bool
  finalResult : SatResult
  main : MainPc n
  inFlight : List (Message n)
  /-- What updateWorkingStatus has logged. -/
  broadcast : Option SatResult
  /-- History: what the STOP messages have been sent with. -/
  sent : List SatResult
  printed : Option SatResult

inductive Action (n : ℕ) where
  /-- A solver thread of the rank calls LocalWorker::join. -/
  | answer (r : Fin (n + 1)) (res : SatResult)
  /-- A solver thread at the test of res in reportResult. -/
  | test (r : Fin (n + 1)) (i : ℕ)
  /-- A solver thread at `res = currRes` in reportResult. -/
  | write (r : Fin (n + 1)) (i : ℕ)
  | receive (k : ℕ)
  /-- The next step of the communicator with its message. -/
  | handle (r : Fin (n + 1))
  | timeout (r : Fin (n + 1))
  | crash (r : Fin (n + 1))
  /-- The next step of the root's main thread, except for the sends. -/
  | main
  | send (i : Fin n)

variable {n : ℕ}

namespace State

def root (s : State n) : Rank n := s.ranks 0

def setRank (s : State n) (r : Fin (n + 1)) (x : Rank n) : State n :=
  { s with ranks := Function.update s.ranks r x }

variable (s : State n) (r : Fin (n + 1)) (x : Rank n)

@[simp] theorem setRank_self : (s.setRank r x).ranks r = x := Function.update_self ..

@[simp] theorem setRank_root : (s.setRank 0 x).root = x := setRank_self s 0 x

theorem setRank_of_ne {q : Fin (n + 1)} (hq : q ≠ r) : (s.setRank r x).ranks q = s.ranks q :=
  Function.update_of_ne hq ..

@[simp] theorem setRank_setRank (y : Rank n) :
    (s.setRank r x).setRank r y = s.setRank r y := by
  simp only [setRank, Function.update_idem]

theorem setRank_root_of_ne (hr : r ≠ 0) : (s.setRank r x).root = s.root :=
  setRank_of_ne s r x hr.symm

end State

/-- LocalWorker::join, up to the call of reportResult. -/
def localJoin (s : State n) (r : Fin (n + 1)) (res : SatResult) : State n :=
  if (s.ranks r).globalEnding ∨ res = .unknown then s
  else s.setRank r { s.ranks r with reporting := (s.ranks r).reporting ++ [res] }

/-- `if (res) return` in reportResult. -/
def testRes (s : State n) (r : Fin (n + 1)) (i : ℕ) : Option (State n) :=
  (s.ranks r).reporting[i]?.map fun currRes =>
    let x := { s.ranks r with reporting := (s.ranks r).reporting.eraseIdx i }
    s.setRank r
      (if x.res ≠ .unknown then x else { x with writing := x.writing ++ [currRes] })

/-- `res = currRes` in reportResult, and the REPORT. -/
def writeRes (s : State n) (r : Fin (n + 1)) (i : ℕ) : Option (State n) :=
  (s.ranks r).writing[i]?.map fun currRes =>
    { s.setRank r { s.ranks r with
        res := currRes, writing := (s.ranks r).writing.eraseIdx i } with
      inFlight := s.inFlight ++ [.report r currRes] }

/-- receiveIncomingMsg takes a message: after globalEnding it is garbage. -/
def receive (s : State n) (k : ℕ) : Option (State n) :=
  match s.inFlight[k]? with
  | none => none
  | some m =>
    let r := m.destination
    let t := { s with inFlight := s.inFlight.eraseIdx k }
    if (s.ranks r).crashed ∨ (s.ranks r).comm ≠ .idle then none
    else if (s.ranks r).globalEnding then some t
    else
      some (t.setRank r { s.ranks r with
        comm := match m with
          | .report source result => .report source result
          | .stop _ ret => .stop ret })

/-- The next step of receiveIncomingMsg, Dispatcher::join or Portfolio::join. No
other thread writes strategyEnding. -/
def handle (s : State n) (r : Fin (n + 1)) : Option (State n) :=
  let x := s.ranks r
  let goto (p : CommPc n) : State n := s.setRank r { x with comm := p }
  match x.comm with
  | .idle => none
  | .report source result =>
    some (goto (if x.res ≠ .unknown ∧ source ≠ 0 then .idle else .store result))
  | .store result => some (s.setRank r { x with res := result, comm := .call })
  | .call => some (goto (.dispatch x.res))
  | .dispatch res => some (goto (if x.globalEnding then .idle else .join res))
  | .join res =>
    some (goto (if res = .unknown ∨ s.strategyEnding ∨ x.globalEnding then .idle
      else .setStrategy res))
  | .setStrategy res => some { goto (.setEnding res) with strategyEnding := true }
  | .setEnding res => some (s.setRank r { x with globalEnding := true, comm := .setResult res })
  | .setResult res => some { goto .idle with finalResult := res }
  | .stop ret => some (s.setRank r { x with res := ret, comm := .stopEnding })
  | .stopEnding =>
    some (s.setRank r { x with globalEnding := true, stopped := true, comm := .idle })

theorem handle_dispatch {s : State n} {r : Fin (n + 1)} {res : SatResult}
    (hcomm : (s.ranks r).comm = .dispatch res) : handle s r = some (s.setRank r { s.ranks r with
      comm := if (s.ranks r).globalEnding then .idle else .join res }) := by
  simp only [handle, hcomm]

theorem handle_join {s : State n} {r : Fin (n + 1)} {res : SatResult}
    (hcomm : (s.ranks r).comm = .join res) : handle s r = some (s.setRank r { s.ranks r with
      comm := if res = .unknown ∨ s.strategyEnding ∨ (s.ranks r).globalEnding then .idle
        else .setStrategy res }) := by
  simp only [handle, hcomm]

theorem handle_stopEnding {s : State n} {r : Fin (n + 1)}
    (hcomm : (s.ranks r).comm = .stopEnding) : handle s r = some (s.setRank r { s.ranks r with
      globalEnding := true, stopped := true, comm := .idle }) := by
  simp only [handle, hcomm]

/-- The timeout in main. Only the root has a strategy to interrupt. -/
def timeout (s : State n) (r : Fin (n + 1)) : State n :=
  s.setRank r { s.ranks r with globalEnding := true, interrupting := decide (r ≠ 0) }

/-- The root's main thread: out of the loop into updateWorkingStatus, which logs
res before it sends it, and then the two tests of the result that is printed. -/
def mainStep (s : State n) : Option (State n) :=
  match s.main with
  | .polling =>
    if s.root.globalEnding then
      some { s with broadcast := some s.root.res, main := .sending (List.finRange n) }
    else none
  | .sending [] => some { s with main := .testingSat }
  | .sending (_ :: _) => none
  | .testingSat =>
    if s.finalResult = .sat then some { s with printed := some .sat, main := .done }
    else some { s with main := .testingUnsat }
  | .testingUnsat =>
    some { s with
      printed := some (if s.finalResult = .unsat then .unsat else .unknown), main := .done }
  | .done => none

/-- One STOP message. MPI_Isend may read res for them in any order. -/
def send (s : State n) (i : Fin n) : Option (State n) :=
  match s.main with
  | .sending rest =>
    if i ∈ rest then
      some { s with
        sent := s.sent ++ [s.root.res]
        inFlight := s.inFlight ++ [.stop i.succ s.root.res]
        main := .sending (rest.erase i) }
    else none
  | _ => none

/-- A rank that has crashed does nothing more. -/
def step (s : State n) : Action n → Option (State n)
  | .answer r res => if (s.ranks r).crashed then none else some (localJoin s r res)
  | .test r i => if (s.ranks r).crashed then none else testRes s r i
  | .write r i => if (s.ranks r).crashed then none else writeRes s r i
  | .receive k => receive s k
  | .handle r => if (s.ranks r).crashed then none else handle s r
  | .timeout r =>
    if (s.ranks r).crashed ∨ (r = 0 ∧ s.main ≠ .polling) then none else some (timeout s r)
  | .crash r =>
    if (s.ranks r).interrupting then some (s.setRank r { s.ranks r with crashed := true })
    else none
  | .main => mainStep s
  | .send i => send s i

def Rank.start : Rank n where
  res := .unknown
  globalEnding := false
  reporting := []
  writing := []
  comm := .idle
  interrupting := false
  crashed := false
  stopped := false

def start (n : ℕ) : State n where
  ranks _ := .start
  strategyEnding := false
  finalResult := .unknown
  main := .polling
  inFlight := []
  broadcast := none
  sent := []
  printed := none

def machine (n : ℕ) : Machine (State n) (Action n) where
  Init s := s = start n
  step := step

end Painless.ResultWrites
