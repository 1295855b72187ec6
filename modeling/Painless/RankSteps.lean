import Mathlib.Data.Finset.Card
import Mathlib.Data.Fintype.Basic
import Mathlib.Data.List.FinRange
import Painless.SolverInterface
import Painless.Transitions

/-!
The ranks of the distributed portfolio: which strategies each rank creates, who
sends the messages of each tag, and what a rank does with one. A method call on
a null strategy, an index out of range and a failed assertion are faults, and a
rank with a fault does nothing more. Messages arrive in any order; solvers
answer whenever they like, so what a LocalWorker does with them is left out, and
so is the decoding of shared clauses.
-/
namespace Painless.RankSteps

open Transitions SolverInterface

inductive Payload
  | report (result : SatResult) (model : List ℤ)
  /-- the length of a cube, and the cube -/
  | cube (words : List ℤ)
  | clause (words : List ℤ)
  | stop (ret : SatResult)
  | interrupt (ret : ℤ)
  deriving DecidableEq

/-- A message in flight among the ranks `0` to `n`. -/
structure Envelope (n : ℕ) where
  source : Fin (n + 1)
  destination : Fin (n + 1)
  payload : Payload
  deriving DecidableEq

inductive Fault
  | nullStrategy
  | outOfRange
  | assertion
  deriving DecidableEq

/-- Forwards to the child strategy of a rank. -/
structure Dispatcher (n : ℕ) where
  rank : Fin (n + 1)
  deriving DecidableEq

structure LocalWorker (n : ℕ) where
  rank : Fin (n + 1)
  deriving DecidableEq

/-- The pointers to strategies of one process; `none` is NULL. `working` is a
Portfolio, given by its slaves. -/
structure Strategies (n : ℕ) where
  working : Option (List (Dispatcher n))
  childStrategy : Option (LocalWorker n)
  parentStrategy : List (Option (Dispatcher n))
  deriving DecidableEq

/-- Where the main thread of a rank stands. -/
inductive MainThread
  | starting
  /-- The strategies are created and the communicator's thread runs. -/
  | created
  /-- in the loop that waits for the end or the timeout -/
  | waiting
  | left
  deriving DecidableEq

structure Rank (n : ℕ) where
  main : MainThread
  strategies : Strategies n
  /-- of the Portfolio -/
  strategyEnding : Bool
  globalEnding : Bool
  /-- MpiComm::res -/
  res : SatResult
  /-- MpiComm::model -/
  model : List ℤ
  finalResult : SatResult
  finalModel : List ℤ
  /-- What the solver threads between the test of globalEnding in
  LocalWorker::join and reportResult will report. -/
  reporting : List (SatResult × List ℤ)
  fault : Option Fault
  deriving DecidableEq

structure State (n : ℕ) where
  ranks : Fin (n + 1) → Rank n
  inFlight : List (Envelope n)

/-- A step of one rank that handles no message. -/
inductive LocalAction (n : ℕ)
  /-- main creates the strategies and starts the communicator's thread. -/
  | create
  /-- `if (working) working->solve(cube)` -/
  | launch
  /-- A solver thread calls LocalWorker::join. -/
  | answer (res : SatResult) (model : List ℤ)
  | report (i : ℕ)
  /-- exportLearnedClauses, to the other ranks of the sharing group -/
  | exportClauses (group : List (Fin (n + 1))) (words : List ℤ)
  /-- The timeout check of the main loop fires. -/
  | timeout
  /-- The main thread leaves its loop. -/
  | leave
  deriving DecidableEq

inductive Action (n : ℕ)
  | act (r : Fin (n + 1)) (a : LocalAction n)
  /-- The destination of a message in flight handles it. -/
  | receive (k : ℕ)
  deriving DecidableEq

variable {n : ℕ}

/-! ### What one rank does -/

def Strategies.null : Strategies n where
  working := none
  childStrategy := none
  parentStrategy := []

/-- The loop over `working->addSlave(new Dispatcher(i))`, whose constructor
registers the new strategy. -/
def addDispatchers : Strategies n → List (Fin (n + 1)) → Strategies n
  | s, [] => s
  | s, i :: rest =>
    addDispatchers
      { s with
        working := s.working.map (· ++ [⟨i⟩])
        parentStrategy := s.parentStrategy ++ [some ⟨i⟩] } rest

/-- `wkr-strat=6` -/
def createStrategies (mpiRank : Fin (n + 1)) : Strategies n :=
  let s : Strategies n :=
    if mpiRank = 0 then
      addDispatchers { Strategies.null with working := some [] } (List.finRange (n + 1))
    else Strategies.null
  { s with childStrategy := some ⟨mpiRank⟩ }

/-- A rank after a step, and what it has sent. -/
abbrev Effect (n : ℕ) := Rank n × List (Envelope n)

def Rank.fail (x : Rank n) (fault : Fault) : Effect n := ({ x with fault := some fault }, [])

def sendInterrupt (mpiRank : Fin (n + 1)) (interrupt : ℤ) (d : Dispatcher n) : Envelope n :=
  ⟨mpiRank, d.rank, .interrupt interrupt⟩

/-- Dispatcher::setInterrupt on every slave. -/
def setInterrupt (mpiRank : Fin (n + 1)) (slaves : List (Dispatcher n)) : List (Envelope n) :=
  slaves.map (sendInterrupt mpiRank 1)

/-- `if (working) working->solve(cube)`, with the empty cube. -/
def launch (mpiRank : Fin (n + 1)) (x : Rank n) : Effect n :=
  match x.strategies.working with
  | none => ({ x with main := .waiting }, [])
  | some slaves =>
    ({ x with main := .waiting, strategyEnding := false },
      slaves.map fun d => ⟨mpiRank, d.rank, .cube [0]⟩)

/-- LocalWorker::join, up to the call of reportResult. -/
def localJoin (x : Rank n) (res : SatResult) (model : List ℤ) : Effect n :=
  if x.globalEnding then (x, [])
  else if res ≠ .unknown then ({ x with reporting := x.reporting ++ [(res, model)] }, [])
  else (x, [])

def reportResult (mpiRank : Fin (n + 1)) (x : Rank n) (currRes : SatResult)
    (model : List ℤ) : Effect n :=
  if x.res ≠ .unknown then (x, [])
  else if currRes = .unknown then x.fail .assertion
  else ({ x with res := currRes }, [⟨mpiRank, 0, .report currRes model⟩])

def portfolioJoin (mpiRank : Fin (n + 1)) (x : Rank n) (slaves : List (Dispatcher n))
    (res : SatResult) (model : List ℤ) : Effect n :=
  if res = .unknown ∨ x.strategyEnding ∨ x.globalEnding then (x, [])
  else
    ({ x with
        strategyEnding := true
        globalEnding := true
        finalResult := res
        finalModel := if res = .sat then model else x.finalModel },
      setInterrupt mpiRank slaves)

/-- The parent of a Dispatcher is the Portfolio. -/
def dispatcherJoin (mpiRank : Fin (n + 1)) (x : Rank n) (res : SatResult)
    (model : List ℤ) : Effect n :=
  if x.globalEnding then (x, [])
  else
    match x.strategies.working with
    | none => x.fail .nullStrategy
    | some slaves => portfolioJoin mpiRank x slaves res model

/-- `parentStrategy[source]->join(parentStrategy[source], res, model)` -/
def joinParent (mpiRank : Fin (n + 1)) (x : Rank n) (source : Fin (n + 1)) (res : SatResult)
    (model : List ℤ) : Effect n :=
  match x.strategies.parentStrategy[(source : ℕ)]? with
  | none => x.fail .outOfRange
  | some none => x.fail .nullStrategy
  | some (some _) => dispatcherJoin mpiRank x res model

def receiveReport (mpiRank : Fin (n + 1)) (x : Rank n) (source : Fin (n + 1))
    (result : SatResult) (words : List ℤ) : Effect n :=
  if mpiRank ≠ 0 then x.fail .assertion
  else if x.res ≠ .unknown ∧ source ≠ 0 then (x, [])
  else
    let model := if 0 < words.length then words else x.model
    joinParent mpiRank { x with res := result, model := model } source result model

/-- A method of childStrategy is called. -/
def callChild (x : Rank n) : Effect n :=
  match x.strategies.childStrategy with
  | none => x.fail .nullStrategy
  | some _ => (x, [])

/-- One turn of the loop of receiveIncomingMsg: after globalEnding every message
is garbage. -/
def receiveIncomingMsg (mpiRank : Fin (n + 1)) (x : Rank n) (m : Envelope n) : Effect n :=
  if x.globalEnding then (x, [])
  else
    match m.payload with
    | .report result words => receiveReport mpiRank x m.source result words
    | .cube _ => callChild x
    | .clause _ => (x, [])
    | .stop ret =>
      if m.source ≠ 0 then x.fail .assertion
      else ({ x with res := ret, globalEnding := true }, [])
    | .interrupt _ => if m.source ≠ 0 then x.fail .assertion else callChild x

/-- The body of the timeout check in main. -/
def timeout (mpiRank : Fin (n + 1)) (x : Rank n) : Effect n :=
  let x := { x with globalEnding := true }
  match x.strategies.working with
  | none => x.fail .nullStrategy
  | some slaves => (x, setInterrupt mpiRank slaves)

def updateWorkingStatus (mpiRank : Fin (n + 1)) (x : Rank n) : Effect n :=
  if mpiRank ≠ 0 then x.fail .assertion
  else (x, (List.finRange n).map fun i => ⟨mpiRank, i.succ, .stop x.res⟩)

/-- What main does after its loop. -/
def leave (mpiRank : Fin (n + 1)) (x : Rank n) : Effect n :=
  let x := { x with main := .left }
  if mpiRank = 0 then updateWorkingStatus mpiRank x else (x, [])

/-! ### The system -/

def State.put (s : State n) (r : Fin (n + 1)) (e : Effect n) : State n where
  ranks := Function.update s.ranks r e.1
  inFlight := s.inFlight ++ e.2

def effect (r : Fin (n + 1)) (x : Rank n) : LocalAction n → Option (Effect n)
  | .create =>
    if x.main = .starting then
      some ({ x with main := .created, strategies := createStrategies r }, [])
    else none
  | .launch => if x.main = .created then some (launch r x) else none
  | .answer res model => if x.main = .starting then none else some (localJoin x res model)
  | .report i =>
    x.reporting[i]?.map fun p =>
      reportResult r { x with reporting := x.reporting.eraseIdx i } p.1 p.2
  | .exportClauses group words =>
    if x.main ≠ .starting ∧ x.globalEnding = false then
      some (x, (group.filter (· ≠ r)).map fun i => ⟨r, i, .clause words⟩)
    else none
  | .timeout => if x.main = .waiting then some (timeout r x) else none
  | .leave => if x.main = .waiting ∧ x.globalEnding = true then some (leave r x) else none

def step (s : State n) : Action n → Option (State n)
  | .act r a =>
    if (s.ranks r).fault = none then (effect r (s.ranks r) a).map (s.put r) else none
  | .receive k =>
    s.inFlight[k]?.bind fun m =>
      let x := s.ranks m.destination
      if x.main = .starting ∨ x.fault ≠ none then none
      else
        some ({ s with inFlight := s.inFlight.eraseIdx k }.put m.destination
          (receiveIncomingMsg m.destination x m))

def Rank.start : Rank n where
  main := .starting
  strategies := Strategies.null
  strategyEnding := false
  globalEnding := false
  res := .unknown
  model := []
  finalResult := .unknown
  finalModel := []
  reporting := []
  fault := none

def start : State n where
  ranks _ := Rank.start
  inFlight := []

def machine (n : ℕ) : Machine (State n) (Action n) where
  Init s := s = start
  step := step

/-! ### Strategies and senders -/

theorem addDispatchers_eq (s : Strategies n) (is : List (Fin (n + 1))) :
    addDispatchers s is =
      { s with
        working := s.working.map (· ++ is.map Dispatcher.mk)
        parentStrategy := s.parentStrategy ++ is.map fun i => some ⟨i⟩ } := by
  induction is generalizing s with
  | nil => simp [addDispatchers]
  | cons i rest ih => simp [addDispatchers, ih, Function.comp_def]

@[simp] theorem createStrategies_childStrategy (r : Fin (n + 1)) :
    (createStrategies r).childStrategy = some ⟨r⟩ := rfl

@[simp] theorem createStrategies_working_root :
    (createStrategies (0 : Fin (n + 1))).working =
      some ((List.finRange (n + 1)).map Dispatcher.mk) := by
  simp [createStrategies, addDispatchers_eq]

theorem createStrategies_working_of_ne {r : Fin (n + 1)} (hr : r ≠ 0) :
    (createStrategies r).working = none := by
  simp [createStrategies, hr, Strategies.null]

/-- The root registers one Dispatcher for every rank. -/
theorem createStrategies_parentStrategy (source : Fin (n + 1)) :
    (createStrategies (0 : Fin (n + 1))).parentStrategy[(source : ℕ)]? =
      some (some ⟨source⟩) := by
  have hlt : (source : ℕ) < (List.finRange (n + 1)).length := by
    rw [List.length_finRange]
    exact source.isLt
  have hsource : (List.finRange (n + 1))[(source : ℕ)]? = some source := by
    rw [List.getElem?_eq_getElem hlt, List.getElem_finRange]
    rfl
  simp only [createStrategies, if_true, addDispatchers_eq, Strategies.null, List.nil_append]
  rw [List.getElem?_map, hsource]
  rfl

/-- REPORT goes to the root; STOP and INTERRUPT come from it. -/
def Envelope.WellSent (m : Envelope n) : Prop :=
  match m.payload with
  | .report _ _ => m.destination = 0
  | .stop _ => m.source = 0
  | .interrupt _ => m.source = 0
  | .cube _ => True
  | .clause _ => True

/-- A rank past its creation has the strategies of its role. -/
structure Sound (r : Fin (n + 1)) (x : Rank n) : Prop where
  strategies : x.main ≠ .starting → x.strategies = createStrategies r
  reporting : ∀ p ∈ x.reporting, p.1 ≠ .unknown

/-- A step without a new fault. -/
structure Keeps (r : Fin (n + 1)) (x : Rank n) (e : Effect n) : Prop extends Sound r e.1 where
  fault : e.1.fault = x.fault
  sent : ∀ m ∈ e.2, m.WellSent

section Local

variable {r : Fin (n + 1)} {x : Rank n}

theorem Sound.keeps (h : Sound r x) : Keeps r x (x, []) :=
  { h with fault := rfl, sent := by simp }

theorem Sound.working_root {x : Rank n} (h : Sound 0 x) (hmain : x.main ≠ .starting) :
    x.strategies.working = some ((List.finRange (n + 1)).map Dispatcher.mk) := by
  rw [h.strategies hmain, createStrategies_working_root]

theorem Sound.working_of_ne (h : Sound r x) (hmain : x.main ≠ .starting) (hr : r ≠ 0) :
    x.strategies.working = none := by
  rw [h.strategies hmain, createStrategies_working_of_ne hr]

theorem setInterrupt_wellSent (slaves : List (Dispatcher n)) :
    ∀ m ∈ setInterrupt 0 slaves, m.WellSent := by
  intro m hm
  obtain ⟨d, -, rfl⟩ := List.mem_map.mp hm
  rfl

theorem keeps_launch (h : Sound r x) (hmain : x.main ≠ .starting) : Keeps r x (launch r x) := by
  unfold launch
  split
  · exact ⟨⟨fun _ => h.strategies hmain, h.reporting⟩, rfl, by simp⟩
  · refine ⟨⟨fun _ => h.strategies hmain, h.reporting⟩, rfl, fun m hm => ?_⟩
    obtain ⟨d, -, rfl⟩ := List.mem_map.mp hm
    trivial

theorem keeps_localJoin (h : Sound r x) (res : SatResult) (model : List ℤ) :
    Keeps r x (localJoin x res model) := by
  unfold localJoin
  split_ifs with hending hres
  · exact h.keeps
  · refine ⟨⟨h.strategies, fun p hp => ?_⟩, rfl, by simp⟩
    rcases List.mem_append.mp hp with hp | hp
    · exact h.reporting p hp
    · exact List.mem_singleton.mp hp ▸ hres
  · exact h.keeps

theorem keeps_reportResult (h : Sound r x) {currRes : SatResult} (hres : currRes ≠ .unknown)
    (model : List ℤ) : Keeps r x (reportResult r x currRes model) := by
  unfold reportResult
  split_ifs with hknown
  · exact h.keeps
  · refine ⟨⟨h.strategies, h.reporting⟩, rfl, fun m hm => ?_⟩
    obtain rfl := List.mem_singleton.mp hm
    rfl

theorem keeps_portfolioJoin {x : Rank n} (h : Sound 0 x) (slaves : List (Dispatcher n))
    (res : SatResult) (model : List ℤ) : Keeps 0 x (portfolioJoin 0 x slaves res model) := by
  unfold portfolioJoin
  split_ifs
  · exact h.keeps
  · exact ⟨⟨h.strategies, h.reporting⟩, rfl, setInterrupt_wellSent slaves⟩
  · exact ⟨⟨h.strategies, h.reporting⟩, rfl, setInterrupt_wellSent slaves⟩

theorem keeps_dispatcherJoin {x : Rank n} (h : Sound 0 x) (hmain : x.main ≠ .starting)
    (res : SatResult) (model : List ℤ) : Keeps 0 x (dispatcherJoin 0 x res model) := by
  unfold dispatcherJoin
  rw [h.working_root hmain]
  split_ifs
  · exact h.keeps
  · exact keeps_portfolioJoin h _ res model

/-- The root finds a Dispatcher for the source of every report. -/
theorem keeps_joinParent {x : Rank n} (h : Sound 0 x) (hmain : x.main ≠ .starting)
    (source : Fin (n + 1)) (res : SatResult) (model : List ℤ) :
    Keeps 0 x (joinParent 0 x source res model) := by
  unfold joinParent
  rw [h.strategies hmain, createStrategies_parentStrategy]
  exact keeps_dispatcherJoin h hmain res model

theorem keeps_receiveReport {x : Rank n} (h : Sound 0 x) (hmain : x.main ≠ .starting)
    (source : Fin (n + 1)) (result : SatResult) (words : List ℤ) :
    Keeps 0 x (receiveReport 0 x source result words) := by
  unfold receiveReport
  rw [if_neg (not_not_intro rfl)]
  by_cases hlate : x.res ≠ .unknown ∧ source ≠ 0
  · rw [if_pos hlate]
    exact h.keeps
  · rw [if_neg hlate]
    have hx (model : List ℤ) : Sound 0 { x with res := result, model := model } :=
      ⟨h.strategies, h.reporting⟩
    exact { keeps_joinParent (hx _) hmain source result _ with }

theorem keeps_callChild (h : Sound r x) (hmain : x.main ≠ .starting) :
    Keeps r x (callChild x) := by
  unfold callChild
  rw [h.strategies hmain, createStrategies_childStrategy]
  exact h.keeps

theorem keeps_receiveIncomingMsg (h : Sound r x) (hmain : x.main ≠ .starting)
    {m : Envelope n} (hm : m.WellSent) (hr : m.destination = r) :
    Keeps r x (receiveIncomingMsg r x m) := by
  unfold receiveIncomingMsg
  by_cases hending : x.globalEnding = true
  · rw [if_pos hending]
    exact h.keeps
  rw [if_neg hending]
  unfold Envelope.WellSent at hm
  cases hpayload : m.payload with
  | report result words =>
    have hroot : m.destination = 0 := by simpa only [hpayload] using hm
    obtain rfl : r = 0 := hr.symm.trans hroot
    exact keeps_receiveReport h hmain m.source result words
  | cube words => exact keeps_callChild h hmain
  | clause words => exact h.keeps
  | stop ret =>
    have hsource : m.source = 0 := by simpa only [hpayload] using hm
    dsimp only
    rw [if_neg (not_not_intro hsource)]
    exact ⟨⟨h.strategies, h.reporting⟩, rfl, by simp⟩
  | interrupt ret =>
    have hsource : m.source = 0 := by simpa only [hpayload] using hm
    dsimp only
    rw [if_neg (not_not_intro hsource)]
    exact keeps_callChild h hmain

theorem keeps_timeout {x : Rank n} (h : Sound 0 x) (hmain : x.main ≠ .starting) :
    Keeps 0 x (timeout 0 x) := by
  unfold timeout
  dsimp only
  rw [h.working_root hmain]
  exact ⟨⟨fun _ => h.strategies hmain, h.reporting⟩, rfl, setInterrupt_wellSent _⟩

/-- Another rank than the root has no strategy to interrupt. -/
theorem timeout_faults (h : Sound r x) (hmain : x.main ≠ .starting) (hr : r ≠ 0) :
    timeout r x = ({ x with globalEnding := true, fault := some .nullStrategy }, []) := by
  unfold timeout
  dsimp only
  rw [h.working_of_ne hmain hr]
  rfl

theorem keeps_leave (h : Sound r x) (hmain : x.main ≠ .starting) : Keeps r x (leave r x) := by
  have hleft : Sound r { x with main := .left } :=
    ⟨fun _ => h.strategies hmain, h.reporting⟩
  unfold leave
  dsimp only
  split_ifs with hr
  · subst hr
    unfold updateWorkingStatus
    rw [if_neg (not_not_intro rfl)]
    refine ⟨hleft, rfl, fun m hm => ?_⟩
    obtain ⟨i, -, rfl⟩ := List.mem_map.mp hm
    rfl
  · exact ⟨hleft, rfl, by simp⟩

theorem keeps_effect (h : Sound r x) {a : LocalAction n} (ha : a = .timeout → r = 0)
    {e : Effect n} (he : effect r x a = some e) : Keeps r x e := by
  cases a with
  | create =>
    simp only [effect] at he
    split_ifs at he
    obtain rfl := Option.some.inj he
    exact ⟨⟨fun _ => rfl, h.reporting⟩, rfl, by simp⟩
  | launch =>
    simp only [effect] at he
    split_ifs at he with hmain
    obtain rfl := Option.some.inj he
    exact keeps_launch h (by simp [hmain])
  | answer res model =>
    simp only [effect] at he
    split_ifs at he
    obtain rfl := Option.some.inj he
    exact keeps_localJoin h res model
  | report i =>
    obtain ⟨p, hp, rfl⟩ := Option.map_eq_some_iff.mp he
    have hrest : Sound r { x with reporting := x.reporting.eraseIdx i } :=
      ⟨h.strategies, fun q hq => h.reporting q (List.mem_of_mem_eraseIdx hq)⟩
    have hres : p.1 ≠ .unknown := h.reporting p (List.mem_of_getElem? hp)
    exact { keeps_reportResult hrest hres p.2 with }
  | exportClauses group words =>
    simp only [effect] at he
    split_ifs at he
    obtain rfl := Option.some.inj he
    refine ⟨h, rfl, fun m hm => ?_⟩
    obtain ⟨i, -, rfl⟩ := List.mem_map.mp hm
    trivial
  | timeout =>
    obtain rfl := ha rfl
    simp only [effect] at he
    split_ifs at he with hmain
    obtain rfl := Option.some.inj he
    exact keeps_timeout h (by simp [hmain])
  | leave =>
    simp only [effect] at he
    split_ifs at he with hmain
    obtain rfl := Option.some.inj he
    exact keeps_leave h (by simp [hmain.1])

end Local

/-! ### Every run -/

/-- No timeout check fires on another rank than the root. -/
def RootTimesOut (_ : State n) (a : Action n) : Prop := ∀ r, a = .act r .timeout → r = 0

instance (s : State n) (a : Action n) : Decidable (RootTimesOut s a) :=
  inferInstanceAs (Decidable (∀ _, _ → _))

structure Invariant (s : State n) : Prop where
  sound : ∀ r, Sound r (s.ranks r)
  sent : ∀ m ∈ s.inFlight, m.WellSent

/-- The ranks that have taken an undefined step. -/
def faulty (s : State n) : Finset (Fin (n + 1)) :=
  Finset.univ.filter fun r => (s.ranks r).fault ≠ none

theorem mem_faulty {s : State n} {r : Fin (n + 1)} :
    r ∈ faulty s ↔ (s.ranks r).fault ≠ none := by
  rw [faulty, Finset.mem_filter, and_iff_right (Finset.mem_univ r)]

theorem start_invariant : Invariant (start : State n) where
  sound r := ⟨fun h => absurd rfl h, by simp [start, Rank.start]⟩
  sent := by simp [start]

theorem Invariant.put {s : State n} (h : Invariant s) {r : Fin (n + 1)} {e : Effect n}
    (hsound : Sound r e.1) (hsent : ∀ m ∈ e.2, m.WellSent) : Invariant (s.put r e) where
  sound := forall_goto (P := fun q x => Sound q x) h.sound hsound
  sent m hm := (List.mem_append.mp hm).elim (h.sent m) (hsent m)

theorem faulty_put {s : State n} {r : Fin (n + 1)} {e : Effect n}
    (he : e.1.fault = (s.ranks r).fault) : faulty (s.put r e) = faulty s := by
  refine Finset.filter_congr fun q _ => ?_
  rcases eq_or_ne q r with rfl | hne
  · simp [State.put, he]
  · simp [State.put, hne]

theorem faulty_put_fault {s : State n} {r : Fin (n + 1)} {e : Effect n}
    (hr : (s.ranks r).fault = none) (he : e.1.fault ≠ none) :
    faulty (s.put r e) = insert r (faulty s) := by
  ext q
  rcases eq_or_ne q r with rfl | hne
  · rw [mem_faulty]
    simp [State.put, he]
  · rw [Finset.mem_insert, mem_faulty, mem_faulty]
    simp [State.put, hne]

theorem step_faulty {s t : State n} {a : Action n} (h : Invariant s) (ht : step s a = some t) :
    Invariant t ∧ (faulty s).card ≤ (faulty t).card ∧
      (RootTimesOut s a ↔ (faulty t).card = (faulty s).card) := by
  have hkept {r : Fin (n + 1)} {e : Effect n} {s' : State n} (hs' : Invariant s')
      (hfaulty : faulty s' = faulty s) (hkeeps : Keeps r (s'.ranks r) e)
      (hok : RootTimesOut s a) : Invariant (s'.put r e) ∧
        (faulty s).card ≤ (faulty (s'.put r e)).card ∧
        (RootTimesOut s a ↔ (faulty (s'.put r e)).card = (faulty s).card) := by
    have heq : faulty (s'.put r e) = faulty s := (faulty_put hkeeps.fault).trans hfaulty
    rw [heq]
    exact ⟨hs'.put hkeeps.toSound hkeeps.sent, le_refl _, fun _ => rfl, fun _ => hok⟩
  cases a with
  | receive k =>
    obtain ⟨m, hm, hstep⟩ := Option.bind_eq_some_iff.mp ht
    dsimp only at hstep
    split_ifs at hstep with hguard
    obtain rfl := Option.some.inj hstep
    obtain ⟨hmain, -⟩ := not_or.mp hguard
    have htaken : Invariant { s with inFlight := s.inFlight.eraseIdx k } :=
      ⟨h.sound, fun m hm => h.sent m (List.mem_of_mem_eraseIdx hm)⟩
    have hwell : m.WellSent := h.sent m (List.mem_of_getElem? hm)
    exact hkept htaken rfl (keeps_receiveIncomingMsg (h.sound _) hmain hwell rfl)
      fun _ heq => by simp at heq
  | act r a =>
    simp only [step] at ht
    split_ifs at ht with hfault
    obtain ⟨e, he, rfl⟩ := Option.map_eq_some_iff.mp ht
    by_cases hroot : a = .timeout → r = 0
    · refine hkept h rfl (keeps_effect (h.sound r) hroot he) fun q hq => ?_
      obtain ⟨rfl, htimeout⟩ := Action.act.inj hq
      exact hroot htimeout
    · obtain ⟨rfl, hr⟩ := Classical.not_imp.mp hroot
      simp only [effect] at he
      split_ifs at he with hmain
      rw [timeout_faults (h.sound r) (by simp [hmain]) hr] at he
      obtain rfl := Option.some.inj he
      have hnew : r ∉ faulty s := by simp [mem_faulty, hfault]
      rw [faulty_put_fault hfault (by simp), Finset.card_insert_of_notMem hnew]
      refine ⟨h.put ?_ (by simp), Nat.le_succ _, fun hok => absurd (hok r rfl) hr, fun heq => ?_⟩
      · exact ⟨(h.sound r).strategies, (h.sound r).reporting⟩
      · omega

/-- With any number of ranks, and in any order of timeouts, answers and
messages, no rank takes an undefined step exactly where no timeout check fires
on another rank than the root. -/
theorem no_fault_iff {t : State n} (as : List (Action n))
    (hrun : (machine n).run start as = some t) :
    (∀ r, (t.ranks r).fault = none) ↔ (machine n).Meets RootTimesOut start as := by
  obtain ⟨-, -, hmeets⟩ := Machine.run_meets_iff Invariant (fun s => (faulty s).card)
    (fun s a t hs hstep => step_faulty hs hstep) start_invariant as hrun
  have hstart : (faulty (start : State n)).card = 0 := by
    simp [faulty, start, Rank.start]
  rw [hmeets, hstart, Finset.card_eq_zero, faulty, Finset.filter_eq_empty_iff]
  simp

/-- Both ranks have started, and the solvers of rank 1 have an answer. -/
def answeredRun : List (Action 1) :=
  [.act 0 .create, .act 1 .create, .act 0 .launch, .act 1 .launch, .receive 1, .receive 0,
    .act 1 (.answer .sat [1]), .act 1 (.report 0), .receive 0, .receive 0, .act 0 .leave,
    .receive 1]

theorem no_fault_iff_answered :
    ∃ t, (machine 1).run start answeredRun = some t ∧ (t.ranks 1).globalEnding = true ∧
      ((∀ r, (t.ranks r).fault = none) ↔ (machine 1).Meets RootTimesOut start answeredRun) := by
  obtain ⟨t, ht, hending⟩ : ∃ t, (machine 1).run start answeredRun = some t ∧
      (t.ranks 1).globalEnding = true := ⟨_, rfl, rfl⟩
  exact ⟨t, ht, hending, no_fault_iff answeredRun ht⟩

/-- Rank 1 reaches its timeout before the solvers have an answer. -/
theorem timeout_calls_null :
    ∃ t, (machine 1).run start [.act 0 .create, .act 1 .create, .act 0 .launch, .act 1 .launch,
      .act 1 .timeout] = some t ∧ (t.ranks 1).fault = some .nullStrategy :=
  ⟨_, rfl, rfl⟩

end Painless.RankSteps
