import Painless.MapleTrail

/-!
When a SAT answer of the Maple wrapper is a model. The search returns l_True as
soon as all assumptions are placed without a conflict, although clauses may
still have no true literal. A call with an empty cube does not take that path,
and its answer is a model; so is the answer of a call whose cube makes every
clause true by itself. For other cubes the formula and the cube do not tell:
with an import the same call may answer with a model or without one.
-/
namespace Painless.SatAnswers

open Cnf PartialAssignment Transitions SolverInterface MapleSolver MapleDatabase
open MapleSearch MapleTrail

/-- The formula is satisfiable together with the cube, and each of its clauses
has a literal that getModel returns. -/
def RealModel (s : State) : Prop :=
  (∃ σ, FormulaHolds σ (s.formula.map miniVec) ∧ CubeHolds σ (miniVec s.cube)) ∧
    ∀ c ∈ s.formula, ∃ l ∈ c, l ∈ getModel s.solver

/-- The values on the trail, extended to the eliminated variables. -/
def trailModel (s : Solver) : Partial ℕ := extended s (copyModel s).model

/-- The cube is empty, or each clause of the formula has one of its literals. -/
def CubeCovers (s : State) : Prop := s.cube = [] ∨ ∀ c ∈ s.formula, ∃ l ∈ c, l ∈ s.cube

instance (s : State) : Decidable (CubeCovers s) := inferInstanceAs (Decidable (_ ∨ _))

/-- No clause is added and no cube is solved on an eliminated variable, as the
assertions of addClause_ and solve_ say. -/
def Kept (s : State) : Action → Prop
  | .addInitialClause c _ => NotEliminated s.solver c
  | .addQueued _ => ∀ c ∈ s.tmp.head?, NotEliminated s.solver c
  | .solve cube => NotEliminated s.solver cube
  | _ => True

instance (s : State) : ∀ a, Decidable (Kept s a)
  | .addInitialClause _ _ | .solve _ => inferInstanceAs (Decidable (NotEliminated _ _))
  | .addQueued _ => inferInstanceAs (Decidable (∀ c ∈ s.tmp.head?, _))
  | .addClause _ | .solveLimited | .subsume _ _ | .strengthen _ _ _ _ | .resolve _ _ _ _
  | .removeSatisfied | .eliminateVar _ _ | .endEliminate | .importUnit _
  | .importClause _ | .propagate _ | .analyze _ | .restart | .stamp _ _ | .reduceDB _
  | .assume | .answerAssumptions | .decide _ | .answerModel =>
    inferInstanceAs (Decidable True)

/-! ### The invariant -/

/-- Simplification or the search is going on. -/
def Searches (pc : Pc) : Prop := pc ≠ .idle ∧ pc ≠ .adding

structure StateInvariant (s : State) : Prop where
  solver : SolverInvariant s.formula s.solver
  queue : ∀ c, c ∈ s.clausesToAdd ∨ c ∈ s.tmp → OverVars s.solver c
  levels : s.pc = .idle ∨ s.pc = .adding ∨ s.pc = .eliminating → s.solver.levels = []
  cube : s.pc = .adding → ∀ p ∈ miniVec s.cube, InScope s.solver p.1
  assumptions : Searches s.pc → s.solver.assumptions = miniVec s.cube
  deciding : s.pc = .deciding → ∀ c ∈ s.solver.clauses, ¬ ClauseFalse s.solver.value c

structure SearchInvariant (s : State) : Prop where
  valid : Searches s.pc ∨ s.solver.ok = true → StateInvariant s
  answer : s.answer = some .sat → s.pc = .idle ∧ (CubeCovers s → RealModel s)

/-! ### The answers -/

theorem mem_getModel {s : Solver} {l : ℤ} (hl : l ≠ 0) (hle : l.natAbs ≤ s.nVars) :
    l ∈ getModel s ↔ IsTrue s.model (miniLit l) := by
  simp only [getModel, List.mem_filterMap, List.mem_range, Option.map_eq_some_iff]
  constructor
  · rintro ⟨i, -, b, hb, heq⟩
    have hlit : miniLit l = (i, b) := by
      rw [← heq]
      exact miniLit_intLit (i, b)
    rw [hlit]
    exact hb
  · intro htrue
    have hpos : 0 < l.natAbs := Int.natAbs_pos.mpr hl
    refine ⟨l.natAbs - 1, by omega, decide (0 < l), htrue, ?_⟩
    exact intLit_miniLit hl

theorem copyModel_model {s : Solver} {v : ℕ} (h : v < s.nVars) :
    (copyModel s).model v = s.value v := if_pos h

section Answer

variable {f : List (List ℤ)} {s : Solver}

theorem trailModel_eq (hs : SolverInvariant f s) {v : ℕ} (hv : InScope s v) :
    trailModel s v = s.value v :=
  (hs.database.extended_eq _ hv.2).trans (copyModel_model hv.1)

/-- What getModel returns for the extended values of the trail. -/
theorem exists_mem_getModel (hs : SolverInvariant f s) {t : Solver} (hnVars : t.nVars = s.nVars)
    (hmodel : t.model = trailModel s) :
    (∀ c ∈ f, ∃ l ∈ c, l ∈ getModel t) ↔ FormulaTrue (trailModel s) (f.map miniVec) := by
  simp only [FormulaTrue, List.forall_mem_map]
  refine forall₂_congr fun c hc => ?_
  have hmem : ∀ l ∈ c, l ∈ getModel t ↔ IsTrue (trailModel s) (miniLit l) := by
    intro l hl
    obtain ⟨hne, hle⟩ := hs.overVars c hc l hl
    rw [mem_getModel hne (hnVars.symm ▸ hle), hmodel]
  constructor
  · rintro ⟨l, hl, hget⟩
    exact ⟨miniLit l, List.mem_map_of_mem hl, (hmem l hl).mp hget⟩
  · rintro ⟨p, hp, htrue⟩
    obtain ⟨l, hl, rfl⟩ := List.mem_map.mp hp
    exact ⟨l, hl, (hmem l hl).mpr htrue⟩

end Answer

theorem trailModel_placed {s : State} (hs : StateInvariant s)
    (hplaced : ∀ p ∈ s.solver.assumptions, p ∈ s.solver.trail) {p : Literal ℕ}
    (hp : p ∈ s.solver.assumptions) : IsTrue (trailModel s.solver) p :=
  (trailModel_eq hs.solver (hs.solver.frozen p hp)).trans
    (isTrue_of_mem_trail hs.solver.distinct (hplaced p hp))

/-- An answer with all assumptions on the trail. -/
theorem realModel_iff {s : State} (hs : StateInvariant s) (hpc : Searches s.pc)
    (hplaced : ∀ p ∈ s.solver.assumptions, p ∈ s.solver.trail)
    (assumptions : List (Literal ℕ)) :
    RealModel (answerSat s { s.solver with assumptions := assumptions }) ↔
      FormulaTrue (trailModel s.solver) (s.formula.map miniVec) := by
  have hmodels := exists_mem_getModel hs.solver
    (t := (answerSat s { s.solver with assumptions := assumptions }).solver) rfl rfl
  rw [← hmodels]
  refine ⟨And.right, fun hmodel => ⟨⟨complete (trailModel s.solver), ?_, ?_⟩, hmodel⟩⟩
  · exact formulaHolds_complete (hmodels.mp hmodel)
  · intro p hp
    have hassumption : p ∈ s.solver.assumptions := (hs.assumptions hpc).symm ▸ hp
    refine literalHolds_complete ?_
    exact trailModel_placed hs hplaced hassumption

variable {s t : State}

theorem SearchInvariant.state (hs : SearchInvariant s) (hpc : Searches s.pc) :
    StateInvariant s := hs.valid (Or.inl hpc)

theorem SearchInvariant.not_sat (hs : SearchInvariant s) (hpc : s.pc ≠ .idle) :
    s.answer ≠ some .sat := fun h => hpc (hs.answer h).1

/-- A step inside a call that keeps the invariant of the solver. -/
theorem SearchInvariant.continues (hs : SearchInvariant s) (hpc : Searches s.pc)
    {u : Solver} (hu : Keeps s.formula s.solver u) {pc : Pc} (hsearch : Searches pc)
    (hlevels : pc = .eliminating → u.levels = [])
    (hdeciding : pc = .deciding → ∀ c ∈ u.clauses, ¬ ClauseFalse u.value c) :
    SearchInvariant { s with solver := u, pc := pc } := by
  have hstate := hs.state hpc
  refine ⟨fun _ => ⟨hu.invariant, fun c hc => ?_, ?_, fun h => absurd h hsearch.2,
    fun _ => hu.assumptions.trans (hstate.assumptions hpc), hdeciding⟩,
    fun h => absurd h (hs.not_sat hpc.1)⟩
  · exact (overVars_congr hu.nVars c).mpr (hstate.queue c hc)
  · rintro (h | h | h)
    · exact absurd h hsearch.1
    · exact absurd h hsearch.2
    · exact hlevels h

theorem SearchInvariant.searching (hs : SearchInvariant s) (hpc : Searches s.pc)
    {u : Solver} (hu : Keeps s.formula s.solver u) :
    SearchInvariant { s with solver := u, pc := .searching } :=
  hs.continues hpc hu ⟨nofun, nofun⟩ nofun nofun

theorem SearchInvariant.inconsistent (s : State) (u : Solver) :
    SearchInvariant (answerInconsistent s u) := by
  refine ⟨?_, fun h => nomatch h⟩
  rintro (h | h)
  · exact absurd rfl h.1
  · cases h

/-- The solver between two calls of solve. -/
theorem stateInvariant_idle (hs : StateInvariant s) {assumptions : List (Literal ℕ)}
    (hsub : assumptions ⊆ s.solver.assumptions) (model : Partial ℕ) (answer : SatResult) :
    StateInvariant { s with
      solver := { s.solver.cancelUntil 0 with assumptions := assumptions, model := model }
      pc := .idle, answer := some answer } := by
  have hback := (hs.solver.cancelUntil 0).invariant
  have hlevels : (s.solver.cancelUntil 0).levels = [] := List.drop_length
  refine ⟨⟨hback.database.congr rfl rfl rfl rfl fun _ h => h, hback.overVars, hback.distinct,
    ?_, fun p hp => hback.frozen p (hsub hp)⟩, hs.queue, fun _ => hlevels, nofun,
    fun h => absurd rfl h.1, nofun⟩
  show Placed assumptions _ (s.solver.cancelUntil 0).levels
  rw [hlevels]
  trivial

theorem SearchInvariant.answerConflict (hs : SearchInvariant s) (hpc : Searches s.pc) :
    SearchInvariant (answerConflict s) :=
  ⟨fun _ => stateInvariant_idle (hs.state hpc) (fun _ h => h) s.solver.model .unsat,
    fun h => nomatch h⟩

/-- An answer with all assumptions on the trail, which make the formula true if
the cube covers it. -/
theorem SearchInvariant.answerSat (hs : SearchInvariant s) (hpc : Searches s.pc)
    (hplaced : ∀ p ∈ s.solver.assumptions, p ∈ s.solver.trail)
    (htrue : CubeCovers s → FormulaTrue (trailModel s.solver) (s.formula.map miniVec))
    {assumptions : List (Literal ℕ)} (hsub : assumptions ⊆ s.solver.assumptions) :
    SearchInvariant (answerSat s { s.solver with assumptions := assumptions }) :=
  ⟨fun _ => stateInvariant_idle (hs.state hpc) hsub (trailModel s.solver) .sat,
    fun _ => ⟨rfl, fun hcovers =>
      (realModel_iff (hs.state hpc) hpc hplaced assumptions).mpr (htrue hcovers)⟩⟩

/-! ### Simplification -/

def quiet : Propagation := ⟨[], none⟩

/-- The formula and the cube of both calls; `imports` are the units taken in. -/
def importRun (imports : List (Literal ℕ)) : List Action :=
  [.addInitialClause [1, 2, -3] quiet, .solve [3], .solveLimited, .endEliminate] ++
    imports.map Action.importUnit ++
    [.propagate quiet, .assume, .propagate quiet, .answerAssumptions]

/-- One call answers without a model and another one, on the same formula and
cube, with one. -/
theorem import_decides_answer :
    ∃ s t, machine.run start (importRun []) = some s ∧
      machine.run start (importRun [(0, true)]) = some t ∧ s.formula = t.formula ∧
      s.cube = t.cube ∧ s.answer = some .sat ∧ t.answer = some .sat ∧
      ¬ RealModel s ∧ RealModel t := by
  have hearly : (machine.run start (importRun [])).map (fun s =>
      (s.answer, s.formula, s.cube, getModel s.solver)) =
        some (some .sat, [[1, 2, -3]], [3], [3]) := by decide +kernel
  have himported : (machine.run start (importRun [(0, true)])).map (fun s =>
      (s.answer, s.formula, s.cube, getModel s.solver)) =
        some (some .sat, [[1, 2, -3]], [3], [1, 3]) := by decide +kernel
  obtain ⟨s, hs, hsEnd⟩ := Option.map_eq_some_iff.mp hearly
  obtain ⟨t, ht, htEnd⟩ := Option.map_eq_some_iff.mp himported
  simp only [Prod.mk.injEq] at hsEnd htEnd
  obtain ⟨hsAnswer, hsFormula, hsCube, hsModel⟩ := hsEnd
  obtain ⟨htAnswer, htFormula, htCube, htModel⟩ := htEnd
  refine ⟨s, t, hs, ht, hsFormula.trans htFormula.symm, hsCube.trans htCube.symm, hsAnswer,
    htAnswer, ?_, ⟨fun _ => true, ?_, ?_⟩, ?_⟩
  · rintro ⟨-, hmodel⟩
    rw [hsFormula, hsModel] at hmodel
    revert hmodel
    decide
  · rw [htFormula]
    decide
  · rw [htCube]
    decide
  · rw [htFormula, htModel]
    decide

end Painless.SatAnswers
