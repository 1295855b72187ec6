import Painless.MiniSatContract
import Painless.PortfolioSoundness

/-!
What the users of the distributed portfolio rely on. Whatever the order of the steps
of solvers, sharers, messages and answers is, all that is shared follows from the
formula, no two solvers contradict each other, and the root prints a right answer;
with the MiniSat engine in the wrappers, and with any other that keeps the contract.
Every message is handled in one step, as in DistributedPortfolio.
-/
namespace Painless.PortfolioAnswers

open Cnf PartialAssignment SearchContract ClauseRoutes MiniSatPortfolio PortfolioSoundness
open MiniSatContract SharedClauses ClauseCommunicator SharingStrategies SolverInterface
open MapleSolver (miniLit miniVec)
open MiniSatSearch (Input)
open MiniSatAnswers (plainTurn)
open Transitions (Machine)

variable {n : ℕ} {F : List (List ℤ)} {lits : List ℤ}

/-! ### Clauses and models in the numbering of the formula -/

/-- A clause that may be given to every solver of the formula. -/
structure Consequence (n : ℕ) (F : List (List ℤ)) (lits : List ℤ) : Prop where
  nonempty : lits ≠ []
  known : ∀ l ∈ lits, l ≠ 0 ∧ l.natAbs ≤ n
  distinct : (lits.map Int.natAbs).Nodup
  follows : ∀ σ, FormulaHolds σ (F.map ofInts) → ClauseHolds σ (ofInts lits)

theorem literalHolds_of_shifted {σ : Assignment ℕ} {l : ℤ} (hl : l ≠ 0)
    (h : LiteralHolds (shifted σ) (miniLit l)) : LiteralHolds σ (ofInt l) := by
  have hvar : l.natAbs - 1 + 1 = l.natAbs := Nat.succ_pred_eq_of_pos (Int.natAbs_pos.mpr hl)
  have hvalue : σ (l.natAbs - 1 + 1) = decide (0 < l) := h
  rwa [hvar] at hvalue

theorem consequence_of_circulates (hF : Loadable n F) (h : Circulates n F lits) :
    Consequence n F lits := by
  have hshareable := h.shareable
  refine ⟨fun hnil => hshareable.nonempty (by rw [hnil]; rfl), fun l hl => ⟨h.nonzero l hl, ?_⟩, ?_,
    fun σ hσ => ?_⟩
  · have hlt : l.natAbs - 1 < n := hshareable.inRange (miniLit l) (List.mem_map_of_mem hl)
    omega
  · have hvars : (miniVec lits).map Prod.fst = (lits.map Int.natAbs).map (· - 1) := by
      unfold miniVec
      rw [List.map_map, List.map_map]
      rfl
    have hdistinct := hshareable.distinct
    rw [hvars] at hdistinct
    exact hdistinct.of_map
  · obtain ⟨q, hq, hholds⟩ := hshareable.follows _ (formulaHolds_shifted hF hσ)
    obtain ⟨l, hl, rfl⟩ := List.mem_map.mp hq
    exact ⟨ofInt l, List.mem_map_of_mem hl, literalHolds_of_shifted (h.nonzero l hl) hholds⟩

theorem satisfiable_of_rightModel (hF : Loadable n F) {model : List ℤ}
    (h : RightModel F model) : Satisfiable (F.map ofInts) := by
  refine ⟨fun v => decide ((v : ℤ) ∈ model), fun c hc => ?_⟩
  obtain ⟨d, hd, rfl⟩ := List.mem_map.mp hc
  obtain ⟨l, hl, hmem⟩ := h.satisfies d hd
  refine ⟨ofInt l, List.mem_map_of_mem hl, ?_⟩
  show decide ((l.natAbs : ℤ) ∈ model) = decide (0 < l)
  rcases lt_or_gt_of_ne (hF d hd l hl).1 with hneg | hpos
  · rw [Int.ofNat_natAbs_of_nonpos hneg.le, decide_eq_false (h.consistent l hmem),
      decide_eq_false (not_lt.mpr hneg.le)]
  · rw [Int.natAbs_of_nonneg hpos.le, decide_eq_true hmem, decide_eq_true hpos]

/-! ### MiniSat in the wrappers -/

variable {S I P : Type*} {k : ℕ} [DecidableEq S] [DecidableEq I] [DecidableEq P]

/-- All solvers have loaded the formula. -/
def portfolio (cfg : Config S I k) (F : List (List ℤ)) :
    Machine (World k MiniSatSearch.State S I P) (Action k Input S I P) :=
  MiniSatPortfolio.machine engine cfg (Loaded F)

theorem loadable_varCount (hF : ∀ c ∈ F, ∀ l ∈ c, l ≠ 0) : Loadable (varCount 0 F) F :=
  fun c hc l hl => ⟨hF c hc l hl, (natAbs_le_lastVar hl).trans (lastVar_le_varCount hc)⟩

/-- The number of variables is the one that the engines have made. -/
theorem contract_varCount (hF : ∀ c ∈ F, ∀ l ∈ c, l ≠ 0) :
    Contract engine (varCount 0 F) (formula F) (WorksFor (varCount 0 F) (formula F)) := by
  refine engine_contract fun c hc l hl => ?_
  obtain ⟨d, hd, rfl⟩ := List.mem_map.mp hc
  obtain ⟨q, hq, rfl⟩ := List.mem_map.mp hl
  obtain ⟨hne, hle⟩ := loadable_varCount hF d hd q hq
  have hpos := Int.natAbs_pos.mpr hne
  show q.natAbs - 1 < varCount 0 F
  omega

/-- The root prints what two ranks have found out together. -/
def halves : List (List ℤ) := [[1, 2], [1, -2]]

def twoRanks : Config (Fin 2) Unit 1 where
  ids r x := 2 * r.val + x.val
  producers _ := [0, 1]
  consumers _ := [0, 1]
  shrLit := 10

theorem halves_some :
    (MiniSatSearch.machine.run (MiniSatSearch.init 2) (parseCalls 0 halves)).isSome := by
  decide +kernel

def halvesEngine : MiniSatSearch.State :=
  (MiniSatSearch.machine.run (MiniSatSearch.init 2) (parseCalls 0 halves)).get halves_some

def twoRanksStart : World 1 MiniSatSearch.State (Fin 2) Unit ℕ where
  ranks r :=
    { engines := fun _ => halvesEngine
      units := fun _ => []
      clauses := fun _ => []
      sharing :=
        { store :=
            { queues := fun _ => SolverQueues.empty
              strategy := fun _ => .distribution DistributionRounds.DistributionSharing.fresh
              filterFlag := false
              comm := (MpiComm.fresh (fun _ => 0) fun _ => 0).init r.val 2 0
              log := fun _ => [] }
          heap := RefCount.counting 0 } }
  network := []
  verdict := DistributedPortfolio.start 1

/-- A solver of rank 0 learns x; a solver of rank 1 imports it and finds a model. -/
def sharedRun : List (Action 1 Input (Fin 2) Unit ℕ) :=
  [.rank 0 (.solve 0), .rank 1 (.solve 1), .rank 0 (.turn 0 (plainTurn false) 2 0),
    .rank 0 (.turn 0 (plainTurn false) 2 0), .rank 0 (.doSharing ()),
    .rank 0 .exportLearnedClauses, .rank 1 (.receiveClauses id 0), .rank 1 (.doSharing ()),
    .rank 1 (.importUnit 1), .rank 1 (.turn 1 (plainTurn true) 2 0),
    .rank 1 (.turn 1 (plainTurn true) 2 0), .join 1 1]

/-- The answer is reported and printed. -/
def printedRun : List (Action 1 Input (Fin 2) Unit ℕ) :=
  sharedRun ++
    [.verdict (.report 1 0), .verdict (.receive 0), .verdict .broadcast, .verdict .print]

theorem printedRun_some :
    ((portfolio twoRanks halves).run twoRanksStart printedRun).isSome := by decide +kernel

def printed : World 1 MiniSatSearch.State (Fin 2) Unit ℕ :=
  ((portfolio twoRanks halves).run twoRanksStart printedRun).get printedRun_some

theorem twoRanksStart_initial : (portfolio twoRanks halves).Init twoRanksStart :=
  ⟨fun _ _ => ⟨2, (Option.some_get halves_some).symm⟩, fun _ _ => rfl, fun _ _ => rfl,
    fun r => ⟨fun _ => rfl, fun _ => rfl, rfl, ⟨_, _, r.val, 2, 0, rfl⟩, fun _ => rfl, rfl⟩, rfl,
    rfl⟩

theorem printed_reach : (portfolio twoRanks halves).Reach (fun _ _ => True) printed :=
  Machine.Reach.of_run twoRanksStart_initial (Option.some_get printedRun_some).symm

/-- The solver that has learnt x finds a model as well. -/
def answeredRun : List (Action 1 Input (Fin 2) Unit ℕ) :=
  sharedRun ++ [.rank 0 (.turn 0 (plainTurn false) 2 0), .rank 0 (.turn 0 (plainTurn false) 2 0),
    .join 0 0]

theorem answeredRun_some :
    ((portfolio twoRanks halves).run twoRanksStart answeredRun).isSome := by decide +kernel

def answered : World 1 MiniSatSearch.State (Fin 2) Unit ℕ :=
  ((portfolio twoRanks halves).run twoRanksStart answeredRun).get answeredRun_some

theorem answered_reach : (portfolio twoRanks halves).Reach (fun _ _ => True) answered :=
  Machine.Reach.of_run twoRanksStart_initial (Option.some_get answeredRun_some).symm

/-! ### Runs -/

section Reach

variable {Q T : Type*} {E : Engine Q T} {inv loaded : Q → Prop} {cfg : Config S I k}
  {w : World k Q S I P}

/-- No engine fails, and every clause that waits to be shared or to be imported, on
any rank or in a message, follows from the formula. -/
theorem consequences_of_reach (hF : Loadable n F) (hE : Contract E n (formula F) inv)
    (hloaded : ∀ q, loaded q → inv q)
    (h : (MiniSatPortfolio.machine E cfg loaded).Reach (fun _ _ => True) w) :
    (∀ r x, E.failed ((w.ranks r).engines x) = false) ∧
      (∀ r x, (∀ c ∈ ((w.ranks r).sharing.store.queues x).clausesToExport,
          Consequence n F c.lits) ∧
        (∀ c ∈ ((w.ranks r).sharing.store.queues x).unitsToImport,
          Consequence n F c.lits ∧ c.lits.length = 1) ∧
        ∀ c ∈ ((w.ranks r).sharing.store.queues x).clausesToImport,
          Consequence n F c.lits ∧ 2 ≤ c.lits.length) ∧
      ∀ payload ∈ w.network, Sendable (Consequence n F) cfg.shrLit P payload := by
  have hworld := worldOk_of_reach hF hE hloaded h
  refine ⟨fun r x => hE.failed _ ((hworld.ranks r).engines x), fun r x => ?_,
    fun payload hpayload malloc comm d hd c hc => ?_⟩
  · have hcarried := (hworld.ranks r).carried
    obtain ⟨hunits, hclauses⟩ := hcarried.taken x
    refine ⟨fun c hc => ?_, fun c hc => ?_, fun c hc => ?_⟩
    · exact consequence_of_circulates hF (hcarried.origins.queues.exported x trivial c hc)
    · exact ⟨consequence_of_circulates hF (hunits c hc).1, (hunits c hc).2⟩
    · have hconsequence := consequence_of_circulates hF (hclauses c hc).1
      have hpos := List.length_pos_iff.mpr hconsequence.nonempty
      have hlong := (hclauses c hc).2
      exact ⟨hconsequence, by omega⟩
  · exact consequence_of_circulates hF (hworld.network payload hpayload malloc comm d hd c hc)

theorem consequences_of_reach_printed :
    (∀ r x, engine.failed ((printed.ranks r).engines x) = false) ∧
      (∀ r x, (∀ c ∈ ((printed.ranks r).sharing.store.queues x).clausesToExport,
          Consequence 2 halves c.lits) ∧
        (∀ c ∈ ((printed.ranks r).sharing.store.queues x).unitsToImport,
          Consequence 2 halves c.lits ∧ c.lits.length = 1) ∧
        ∀ c ∈ ((printed.ranks r).sharing.store.queues x).clausesToImport,
          Consequence 2 halves c.lits ∧ 2 ≤ c.lits.length) ∧
      ∀ payload ∈ printed.network, Sendable (Consequence 2 halves) 10 ℕ payload := by
  have hprinted := consequences_of_reach (by decide) (contract_varCount (by decide))
    (fun _ => worksFor_of_loaded) printed_reach
  exact hprinted

/-- What the root has taken for the result, and what it prints, is right. -/
theorem verdict_of_reach (hF : Loadable n F) (hE : Contract E n (formula F) inv)
    (hloaded : ∀ q, loaded q → inv q)
    (h : (MiniSatPortfolio.machine E cfg loaded).Reach (fun _ _ => True) w) :
    Right F w.verdict.finalResult w.verdict.finalModel ∧
      ∀ res, w.verdict.printed = some res → Right F res w.verdict.finalModel := by
  have hverdict := (worldOk_of_reach hF hE hloaded h).verdict
  refine ⟨hverdict.final, fun res hres => ?_⟩
  by_cases hknown : res = .unknown
  · subst hknown
    trivial
  · have hfinal := hverdict.final
    rwa [hverdict.printed res hres hknown] at hfinal

theorem verdict_of_reach_printed : printed.verdict.printed = some .sat ∧
    RightModel halves printed.verdict.finalModel :=
  ⟨by decide +kernel, (verdict_of_reach (by decide) (contract_varCount (by decide))
    (fun _ => worksFor_of_loaded) printed_reach).2 .sat (by decide +kernel)⟩

/-- No two solvers of the portfolio contradict each other. -/
theorem answers_of_reach (hF : Loadable n F) (hE : Contract E n (formula F) inv)
    (hloaded : ∀ q, loaded q → inv q)
    (h : (MiniSatPortfolio.machine E cfg loaded).Reach (fun _ _ => True) w) :
    (∀ x ∈ w.verdict.joined, Right F x.2.1 x.2.2) ∧
      ∀ x ∈ w.verdict.joined, ∀ y ∈ w.verdict.joined, x.2.1 = .sat → y.2.1 ≠ .unsat := by
  have hjoined := (worldOk_of_reach hF hE hloaded h).verdict.joined
  refine ⟨hjoined, fun x hx y hy hsat hunsat => ?_⟩
  have hright := hjoined x hx
  have hwrong := hjoined y hy
  rw [hsat] at hright
  rw [hunsat] at hwrong
  exact hwrong (satisfiable_of_rightModel hF hright)

/-- A solver of each rank has answered. -/
theorem answers_of_reach_answered :
    answered.verdict.joined.map (fun x => (x.1, x.2.1)) = [(0, .sat), (1, .sat)] ∧
      (∀ x ∈ answered.verdict.joined, Right halves x.2.1 x.2.2) ∧
      ∀ x ∈ answered.verdict.joined, ∀ y ∈ answered.verdict.joined,
        x.2.1 = .sat → y.2.1 ≠ .unsat :=
  ⟨by decide +kernel, answers_of_reach (by decide) (contract_varCount (by decide))
    (fun _ => worksFor_of_loaded) answered_reach⟩

end Reach

end Painless.PortfolioAnswers
