import Painless.Cnf

/-!
The split of a sub-problem by the cube-and-conquer master, from the literal that
lglookahead returns to the clauses both children have after their next solve.
lgladd takes a clause literal by literal, with 0 as its end. The clauses given
to addClause wait in clausesToAdd until Lingeling::solve feeds them, and a clone
copies the engine but not this queue. lglookahead returns 0 when it has no
literal to offer, and the master does not test for it.
-/
namespace Painless.LingelingSplit

open Cnf

/-- The engine: the clauses it was given, and the literals since the last 0. -/
structure LGL where
  clauses : List (List ℤ)
  openClause : List ℤ
  deriving DecidableEq

def lgladd (lgl : LGL) (lit : ℤ) : LGL :=
  if lit = 0 then ⟨lgl.clauses ++ [lgl.openClause], []⟩
  else ⟨lgl.clauses, lgl.openClause ++ [lit]⟩

/-- One queued clause: its literals, then the 0 that ends it. -/
def feed (lgl : LGL) (lits : List ℤ) : LGL := lgladd (lits.foldl lgladd lgl) 0

@[simp] theorem feed_openClause (lgl : LGL) (lits : List ℤ) :
    (feed lgl lits).openClause = [] := rfl

theorem feed_all_openClause {lgl : LGL} (h : lgl.openClause = [])
    (queue : List (List ℤ)) : (queue.foldl feed lgl).openClause = [] := by
  induction queue generalizing lgl with
  | nil => exact h
  | cons lits rest ih => exact ih (feed_openClause lgl lits)

/-- A solver with its queue. Between two calls no clause is left open. -/
structure Lingeling where
  solver : LGL
  clausesToAdd : List (List ℤ)
  closed : solver.openClause = []

namespace Lingeling

def addClause (lp : Lingeling) (clause : List ℤ) : Lingeling :=
  { lp with clausesToAdd := lp.clausesToAdd ++ [clause] }

/-- The copy constructor clones the engine; the queue of the copy is new. -/
def clone (lp : Lingeling) : Lingeling := { lp with clausesToAdd := [] }

/-- The first part of Lingeling::solve, which empties the queue. -/
def addQueued (lp : Lingeling) : Lingeling where
  solver := lp.clausesToAdd.foldl feed lp.solver
  clausesToAdd := []
  closed := feed_all_openClause lp.closed lp.clausesToAdd

/-- The clauses the engine has, as a formula. -/
def loaded (lp : Lingeling) : Formula ℕ := lp.solver.clauses.map ofInts

/-- The sub-problem of a worker: what its next solve works on. -/
def subproblem (lp : Lingeling) : Formula ℕ := lp.addQueued.loaded

end Lingeling

open Lingeling

/-- The master's split of a target: the target and the clone. -/
def split (target : Lingeling) (var : ℤ) : Lingeling × Lingeling :=
  (target.addClause [var], target.clone.addClause [-var])

/-! ### What is fed -/

theorem foldl_lgladd (lgl : LGL) {lits : List ℤ} (h : ∀ l ∈ lits, l ≠ 0) :
    lits.foldl lgladd lgl = ⟨lgl.clauses, lgl.openClause ++ lits⟩ := by
  induction lits generalizing lgl with
  | nil => simp
  | cons l rest ih =>
    have hl : l ≠ 0 := h l List.mem_cons_self
    rw [List.foldl_cons, ih _ fun x hx => h x (List.mem_cons_of_mem l hx), lgladd,
      if_neg hl, List.append_assoc]
    rfl

/-- A clause without a 0 arrives as it is. -/
theorem feed_clauses {lgl : LGL} (hopen : lgl.openClause = []) {lits : List ℤ}
    (h : ∀ l ∈ lits, l ≠ 0) : (feed lgl lits).clauses = lgl.clauses ++ [lits] := by
  rw [feed, foldl_lgladd lgl h, hopen]
  rfl

/-- A 0 in a clause ends it early: the literal 0 makes two empty clauses. -/
theorem feed_zero {lgl : LGL} (hopen : lgl.openClause = []) :
    (feed lgl [0]).clauses = lgl.clauses ++ [[], []] := by
  simp [feed, lgladd, hopen]

theorem addQueued_addClause (lp : Lingeling) (clause : List ℤ) :
    (lp.addClause clause).addQueued.solver = feed lp.addQueued.solver clause := by
  simp only [addQueued, addClause, List.foldl_append, List.foldl_cons, List.foldl_nil]

theorem addQueued_clone (lp : Lingeling) : lp.clone.addQueued.solver = lp.solver := rfl

/-! ### The two children -/

theorem subproblem_target (target : Lingeling) {var : ℤ} (h : var ≠ 0) :
    subproblem (split target var).1 = subproblem target ++ [[ofInt var]] := by
  rw [subproblem, loaded, split, addQueued_addClause,
    feed_clauses target.addQueued.closed (by simpa using h), List.map_append]
  rfl

/-- The clone has the clauses its original had loaded, without those queued. -/
theorem subproblem_clone (target : Lingeling) {var : ℤ} (h : var ≠ 0) :
    subproblem (split target var).2 = loaded target ++ [[ofInt (-var)]] := by
  rw [subproblem, loaded, split, addQueued_addClause, addQueued_clone,
    feed_clauses target.closed (by simpa using h), List.map_append]
  rfl

/-- The literal 0 leaves neither child a model. -/
theorem not_satisfiable_split_zero (target : Lingeling) :
    ¬ Satisfiable (subproblem (split target 0).1) ∧
      ¬ Satisfiable (subproblem (split target 0).2) := by
  refine ⟨not_satisfiable_of_nil_mem ?_, not_satisfiable_of_nil_mem ?_⟩
  · rw [subproblem, loaded, split, addQueued_addClause, feed_zero target.addQueued.closed]
    simp [ofInts]
  · rw [subproblem, loaded, split, addQueued_addClause, addQueued_clone, Int.neg_zero,
      feed_zero target.closed]
    simp [ofInts]

/-- Feeding keeps the clauses the engine has. -/
theorem mem_foldl_lgladd {c : List ℤ} (lits : List ℤ) {lgl : LGL}
    (h : c ∈ lgl.clauses) : c ∈ (lits.foldl lgladd lgl).clauses := by
  induction lits generalizing lgl with
  | nil => exact h
  | cons l rest ih =>
    refine ih ?_
    unfold lgladd
    split
    · exact List.mem_append_left _ h
    · exact h

theorem mem_foldl_feed {c : List ℤ} (queue : List (List ℤ)) {lgl : LGL}
    (h : c ∈ lgl.clauses) : c ∈ (queue.foldl feed lgl).clauses := by
  induction queue generalizing lgl with
  | nil => exact h
  | cons lits rest ih =>
    have hfed := mem_foldl_lgladd (lits ++ [0]) h
    rw [List.foldl_append] at hfed
    exact ih hfed

theorem loaded_of_subproblem {lp : Lingeling} {σ : Assignment ℕ}
    (h : FormulaHolds σ (subproblem lp)) : FormulaHolds σ (loaded lp) := by
  intro c hc
  obtain ⟨lits, hlits, rfl⟩ := List.mem_map.mp hc
  exact h _ (List.mem_map_of_mem (mem_foldl_feed lp.clausesToAdd hlits))

theorem satisfiable_append_unit {f : Formula ℕ} {l : Literal ℕ} :
    Satisfiable (f ++ [[l]]) ↔ ∃ σ, FormulaHolds σ f ∧ LiteralHolds σ l := by
  simp only [Satisfiable, formulaHolds_append, formulaHolds_unit]

/-- A literal other than 0 keeps a model of the sub-problem in one of the
children. -/
theorem satisfiable_child (target : Lingeling) {var : ℤ} (hvar : var ≠ 0)
    (h : Satisfiable (subproblem target)) :
    Satisfiable (subproblem target ++ [[ofInt var]]) ∨
      Satisfiable (loaded target ++ [[ofInt (-var)]]) := by
  obtain ⟨σ, hσ⟩ := h
  by_cases hlit : LiteralHolds σ (ofInt var)
  · exact Or.inl (satisfiable_append_unit.mpr ⟨σ, hσ, hlit⟩)
  · right
    rw [ofInt_neg hvar]
    exact satisfiable_append_unit.mpr
      ⟨σ, loaded_of_subproblem hσ, (literalHolds_negate σ _).mpr hlit⟩

/-- A split is an equivalence exactly if the literal is not 0 or the sub-problem
has no model anyway, and if the clone, which does not get the clauses queued in
the target, has no model when the sub-problem has none. -/
theorem split_equivalence_iff (target : Lingeling) (var : ℤ) :
    (Satisfiable (subproblem target) ↔
      Satisfiable (subproblem (split target var).1) ∨
        Satisfiable (subproblem (split target var).2)) ↔
    (var = 0 → ¬ Satisfiable (subproblem target)) ∧
      (var ≠ 0 → ¬ Satisfiable (subproblem target) →
        ¬ Satisfiable (loaded target ++ [[ofInt (-var)]])) := by
  by_cases hvar : var = 0
  · subst hvar
    obtain ⟨htarget, hclone⟩ := not_satisfiable_split_zero target
    simp only [htarget, hclone, or_self, iff_false, ne_eq, not_true_eq_false,
      false_implies, and_true, true_implies]
  · rw [subproblem_target target hvar, subproblem_clone target hvar]
    have hkeeps := satisfiable_child target hvar
    have htarget : Satisfiable (subproblem target ++ [[ofInt var]]) →
        Satisfiable (subproblem target) := by
      rintro ⟨σ, hσ⟩
      exact ⟨σ, ((formulaHolds_append σ _ _).mp hσ).1⟩
    refine ⟨fun h => ⟨fun h0 => absurd h0 hvar, ?_⟩, fun h => ⟨hkeeps, ?_⟩⟩
    · intro _ hnone hclone
      exact hnone (h.mpr (Or.inr hclone))
    · rintro (hchild | hclone)
      · exact htarget hchild
      · by_contra hnone
        exact h.2 hvar hnone hclone

/-- With an empty queue, every literal other than 0 makes an equivalence. -/
theorem split_equivalent_of_loaded {target : Lingeling} (hqueue : target.clausesToAdd = [])
    {var : ℤ} (hvar : var ≠ 0) :
    Satisfiable (subproblem target) ↔
      Satisfiable (subproblem (split target var).1) ∨
        Satisfiable (subproblem (split target var).2) := by
  have hloaded : subproblem target = loaded target := by
    simp only [subproblem, loaded, addQueued, hqueue, List.foldl_nil]
  have hkeeps := satisfiable_child target hvar
  rw [subproblem_target target hvar, subproblem_clone target hvar]
  refine ⟨hkeeps, ?_⟩
  rw [hloaded]
  rintro (⟨σ, hσ⟩ | ⟨σ, hσ⟩)
  all_goals exact ⟨σ, ((formulaHolds_append σ _ _).mp hσ).1⟩

/-- A fully simplified sub-problem, whose only clause is the unit 5. -/
def simplified : Lingeling := ⟨⟨[[5]], []⟩, [], rfl⟩

/-- The literal 0 makes both children inconsistent, though the sub-problem has a
model. -/
theorem split_zero_loses_models :
    Satisfiable (subproblem simplified) ∧
      ¬ (Satisfiable (subproblem simplified) ↔
        Satisfiable (subproblem (split simplified 0).1) ∨
          Satisfiable (subproblem (split simplified 0).2)) := by
  have hsat : Satisfiable (subproblem simplified) := ⟨fun _ => true, by decide⟩
  obtain ⟨htarget, hclone⟩ := not_satisfiable_split_zero simplified
  refine ⟨hsat, fun h => ?_⟩
  exact (h.mp hsat).elim htarget hclone

end Painless.LingelingSplit
