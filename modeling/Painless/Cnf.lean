import Mathlib.Data.Int.Basic
import Mathlib.Data.Set.Basic

/-!
Literals, clauses, cubes and formulas over an arbitrary type of variables, and
the DIMACS numbering of the literals over natural numbers: the integer `v`
stands for the variable `v`, the integer `-v` for its negation.
-/
namespace Painless.Cnf

variable {V : Type*}

/-- A variable with its polarity; `true` is the positive literal. -/
abbrev Literal (V : Type*) := V × Bool

abbrev Clause (V : Type*) := List (Literal V)

abbrev Formula (V : Type*) := List (Clause V)

abbrev Assignment (V : Type*) := V → Bool

def negate (l : Literal V) : Literal V := (l.1, !l.2)

def LiteralHolds (σ : Assignment V) (l : Literal V) : Prop := σ l.1 = l.2

def ClauseHolds (σ : Assignment V) (c : Clause V) : Prop := ∃ l ∈ c, LiteralHolds σ l

def FormulaHolds (σ : Assignment V) (f : Formula V) : Prop := ∀ c ∈ f, ClauseHolds σ c

/-- A cube is a conjunction of literals. -/
def CubeHolds (σ : Assignment V) (cube : List (Literal V)) : Prop :=
  ∀ l ∈ cube, LiteralHolds σ l

def Satisfiable (f : Formula V) : Prop := ∃ σ, FormulaHolds σ f

instance (σ : Assignment V) (l : Literal V) : Decidable (LiteralHolds σ l) :=
  inferInstanceAs (Decidable (_ = _))

instance (σ : Assignment V) (c : Clause V) : Decidable (ClauseHolds σ c) :=
  inferInstanceAs (Decidable (∃ l ∈ c, LiteralHolds σ l))

instance (σ : Assignment V) (f : Formula V) : Decidable (FormulaHolds σ f) :=
  inferInstanceAs (Decidable (∀ c ∈ f, ClauseHolds σ c))

instance (σ : Assignment V) (cube : List (Literal V)) : Decidable (CubeHolds σ cube) :=
  inferInstanceAs (Decidable (∀ l ∈ cube, LiteralHolds σ l))

@[simp] theorem negate_negate (l : Literal V) : negate (negate l) = l := by
  simp [negate]

theorem literalHolds_negate (σ : Assignment V) (l : Literal V) :
    LiteralHolds σ (negate l) ↔ ¬ LiteralHolds σ l := by
  unfold LiteralHolds negate
  cases h : σ l.1 <;> cases hl : l.2 <;> simp

@[simp] theorem cubeHolds_nil (σ : Assignment V) : CubeHolds σ [] := by
  simp [CubeHolds]

theorem cubeHolds_append (σ : Assignment V) (c d : List (Literal V)) :
    CubeHolds σ (c ++ d) ↔ CubeHolds σ c ∧ CubeHolds σ d := by
  simp only [CubeHolds, List.mem_append, or_imp, forall_and]

@[simp] theorem cubeHolds_singleton (σ : Assignment V) (l : Literal V) :
    CubeHolds σ [l] ↔ LiteralHolds σ l := by
  simp [CubeHolds]

theorem formulaHolds_append (σ : Assignment V) (f g : Formula V) :
    FormulaHolds σ (f ++ g) ↔ FormulaHolds σ f ∧ FormulaHolds σ g := by
  simp only [FormulaHolds, List.mem_append, or_imp, forall_and]

@[simp] theorem formulaHolds_unit (σ : Assignment V) (l : Literal V) :
    FormulaHolds σ [[l]] ↔ LiteralHolds σ l := by
  simp only [FormulaHolds, ClauseHolds, List.mem_singleton, forall_eq, exists_eq_left]

@[simp] theorem not_clauseHolds_nil (σ : Assignment V) : ¬ ClauseHolds σ [] := by
  simp [ClauseHolds]

/-- A formula with an empty clause has no model. -/
theorem not_satisfiable_of_nil_mem {f : Formula V} (h : [] ∈ f) : ¬ Satisfiable f := by
  rintro ⟨σ, hσ⟩
  exact not_clauseHolds_nil σ (hσ [] h)

/-! ### DIMACS literals -/

/-- The literal a non-zero DIMACS integer stands for. -/
def ofInt (l : ℤ) : Literal ℕ := (l.natAbs, decide (0 < l))

def ofInts (ls : List ℤ) : List (Literal ℕ) := ls.map ofInt

theorem ofInt_neg {l : ℤ} (h : l ≠ 0) : ofInt (-l) = negate (ofInt l) := by
  have hdec : decide (0 < -l) = !decide (0 < l) := by
    rcases lt_or_gt_of_ne h with hneg | hpos
    · simp [hneg, not_lt.mpr hneg.le]
    · simp [hpos, not_lt.mpr hpos.le]
  simp only [ofInt, negate, hdec, Int.natAbs_neg]

theorem ofInts_append (c d : List ℤ) : ofInts (c ++ d) = ofInts c ++ ofInts d :=
  List.map_append

/-- The assignments under which every literal of a DIMACS cube is true. -/
def cubeModels (cube : List ℤ) : Set (Assignment ℕ) := {σ | CubeHolds σ (ofInts cube)}

/-- The assignments under which the literal is true. -/
def literalModels (l : ℤ) : Set (Assignment ℕ) := {σ | LiteralHolds σ (ofInt l)}

theorem literalModels_neg {l : ℤ} (h : l ≠ 0) :
    literalModels (-l) = (literalModels l)ᶜ := by
  ext σ
  simp only [literalModels, Set.mem_ofPred_eq, Set.mem_compl_iff, ofInt_neg h,
    literalHolds_negate]

theorem cubeModels_push (cube : List ℤ) (l : ℤ) :
    cubeModels (cube ++ [l]) = cubeModels cube ∩ literalModels l := by
  ext σ
  simp only [cubeModels, literalModels, Set.mem_ofPred_eq, Set.mem_inter_iff,
    ofInts_append, cubeHolds_append]
  simp [ofInts]

end Painless.Cnf
