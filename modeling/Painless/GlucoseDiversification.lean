import Mathlib.Data.List.Range
import Mathlib.Data.Rat.Defs
import Mathlib.Tactic.Linarith
import Mathlib.Tactic.NormNum
import Mathlib.Tactic.Ring

/-!
The native diversification of the Glucose solvers. Ten configurations are
written down, but the expression that selects one puts the comparison where
the number should be: only the first of them and the default are ever reached,
and the noise for the large numbers is the same for up to eight of them.
-/
namespace Painless.GlucoseDiversification

/-- The parameters of the search, the decimal ones as exact rationals. -/
structure SearchParameters where
  var_decay : ℚ
  max_var_decay : ℚ
  firstReduceDB : ℤ
  incReduceDB : ℤ
  sizeLBDQueue : ℚ
  K : ℚ
  reduceOnSize : Bool
  reduceOnSizeSize : ℤ
  deriving DecidableEq

structure Glucose extends SearchParameters where
  /-- The size of lbdQueue, set by growTo. -/
  lbdQueueSize : ℕ

/-- The constructor, with the default values of the options. -/
def newSolver : Glucose where
  var_decay := 0.8
  max_var_decay := 0.95
  firstReduceDB := 2000
  incReduceDB := 300
  sizeLBDQueue := 50
  K := 0.8
  reduceOnSize := false
  reduceOnSizeSize := 12
  lbdQueueSize := 50

/-- In `id ? id <= 9 : id % 8` the comparison is the value, not the condition. -/
def idMod (id : ℕ) : ℕ :=
  if id ≠ 0 then (if id ≤ 9 then 1 else 0) else id % 8

/-- The cases of the switch. -/
def configure (solver : Glucose) : ℕ → Glucose
  | 1 => { solver with var_decay := 0.94, max_var_decay := 0.96, firstReduceDB := 600 }
  | 2 => { solver with var_decay := 0.90, max_var_decay := 0.97, firstReduceDB := 500 }
  | 3 => { solver with var_decay := 0.85, max_var_decay := 0.93, firstReduceDB := 400 }
  | 4 => { solver with
      var_decay := 0.95, max_var_decay := 0.95, firstReduceDB := 4000, sizeLBDQueue := 100,
      K := 0.7, incReduceDB := 500, lbdQueueSize := 100 }
  | 5 => { solver with
      var_decay := 0.93, max_var_decay := 0.96, firstReduceDB := 100, incReduceDB := 500 }
  | 6 => { solver with var_decay := 0.75, max_var_decay := 0.94, firstReduceDB := 2000 }
  | 7 => { solver with var_decay := 0.94, max_var_decay := 0.96, firstReduceDB := 800 }
  | 8 => { solver with reduceOnSize := true }
  | 9 => { solver with reduceOnSize := true, reduceOnSizeSize := 14 }
  | _ => solver

def addNoise (solver : Glucose) (id : ℕ) : Glucose :=
  let noiseFactor := id / 8
  let noisevar_decay : ℚ := 0.005 + noiseFactor * 0.006
  let noiseReduceDB : ℤ := 50 + noiseFactor * 25
  { solver with
    var_decay := solver.var_decay + noisevar_decay
    firstReduceDB := solver.firstReduceDB + noiseReduceDB }

def diversify (solver : Glucose) (id : ℕ) : Glucose :=
  let solver := configure solver (idMod id)
  if 9 < id then addNoise solver id else solver

/-- The parameters that a new solver searches with. -/
def parameters (id : ℕ) : SearchParameters := (diversify newSolver id).toSearchParameters

/-- The numbers that the solvers of one rank are diversified with. -/
def nativeDiversification (n mpiRank : ℕ) : List ℕ :=
  (List.range n).map fun sid => mpiRank * n + sid

/-- Over all ranks the numbers are consecutive. -/
theorem ids_consecutive (n mpiSize : ℕ) :
    (List.range mpiSize).flatMap (nativeDiversification n) = List.range (mpiSize * n) := by
  induction mpiSize with
  | zero => rw [Nat.zero_mul, List.range_zero, List.flatMap_nil]
  | succ size ih =>
    rw [List.range_succ, List.flatMap_append, ih, List.flatMap_singleton, Nat.succ_mul,
      List.range_add]
    rfl

theorem idMod_small {id : ℕ} (hpos : 1 ≤ id) (hle : id ≤ 9) : idMod id = 1 := by
  unfold idMod
  rw [if_pos (by omega), if_pos hle]

theorem idMod_large {id : ℕ} (h : 9 < id) : idMod id = 0 := by
  unfold idMod
  rw [if_pos (by omega), if_neg (by omega)]

theorem parameters_small {id : ℕ} (hpos : 1 ≤ id) (hle : id ≤ 9) :
    parameters id = (configure newSolver 1).toSearchParameters := by
  unfold parameters diversify
  dsimp only
  rw [if_neg (by omega), idMod_small hpos hle]

theorem parameters_large {id : ℕ} (h : 9 < id) :
    parameters id = (addNoise newSolver id).toSearchParameters := by
  unfold parameters diversify
  dsimp only
  rw [if_pos h, idMod_large h]
  rfl

/-- The solvers that the noise reaches keep the default bound of the decay. -/
theorem max_var_decay_large {id : ℕ} (h : 9 < id) : (parameters id).max_var_decay = 0.95 := by
  rw [parameters_large h]
  rfl

theorem var_decay_large {id : ℕ} (h : 9 < id) :
    (parameters id).var_decay = 0.805 + (id / 8 : ℕ) * 0.006 := by
  rw [parameters_large h]
  show (0.8 : ℚ) + (0.005 + (id / 8 : ℕ) * 0.006) = _
  ring

theorem max_var_decay_small {id : ℕ} (hpos : 1 ≤ id) (hle : id ≤ 9) :
    (parameters id).max_var_decay = 0.96 := by
  rw [parameters_small hpos hle]
  rfl

theorem parameters_large_eq_iff {a b : ℕ} (ha : 9 < a) (hb : 9 < b) :
    parameters a = parameters b ↔ a / 8 = b / 8 := by
  constructor
  · intro h
    have hdecay := congrArg SearchParameters.var_decay h
    rw [var_decay_large ha, var_decay_large hb] at hdecay
    have hfactor : ((a / 8 : ℕ) : ℚ) = (b / 8 : ℕ) := by linarith
    exact_mod_cast hfactor
  · intro h
    rw [parameters_large ha, parameters_large hb]
    unfold addNoise
    rw [h]

/-- A solver without noise differs from all those with noise. -/
theorem parameters_ne_large {a b : ℕ} (ha : a ≤ 9) (hb : 9 < b) :
    parameters a ≠ parameters b := by
  intro h
  by_cases hzero : a = 0
  · have hdecay := congrArg SearchParameters.var_decay h
    rw [hzero, var_decay_large hb] at hdecay
    have hdefault : (parameters 0).var_decay = 0.8 := rfl
    have hfactor : (0 : ℚ) ≤ (b / 8 : ℕ) := Nat.cast_nonneg _
    rw [hdefault] at hdecay
    linarith
  · have hdecay := congrArg SearchParameters.max_var_decay h
    rw [max_var_decay_small (by omega) ha, max_var_decay_large hb] at hdecay
    norm_num at hdecay

theorem parameters_zero_ne {b : ℕ} (hpos : 1 ≤ b) (hle : b ≤ 9) :
    parameters 0 ≠ parameters b := by
  intro h
  have hdecay := congrArg SearchParameters.max_var_decay h
  have hdefault : (parameters 0).max_var_decay = 0.95 := rfl
  rw [hdefault, max_var_decay_small hpos hle] at hdecay
  norm_num at hdecay

/-- Two numbers give the same parameters exactly if both are from 1 to 9, or if
both are larger and have the same quotient by 8. -/
theorem parameters_ne_iff (a b : ℕ) (hne : a ≠ b) :
    parameters a ≠ parameters b ↔
      ¬ (1 ≤ a ∧ a ≤ 9 ∧ 1 ≤ b ∧ b ≤ 9) ∧ ¬ (9 < a ∧ 9 < b ∧ a / 8 = b / 8) := by
  constructor
  · intro h
    constructor
    · rintro ⟨ha, ha', hb, hb'⟩
      apply h
      rw [parameters_small ha ha', parameters_small hb hb']
    · rintro ⟨ha, hb, hquotient⟩
      exact h ((parameters_large_eq_iff ha hb).mpr hquotient)
  · rintro ⟨hsmall, hlarge⟩
    by_cases ha : 9 < a
    · by_cases hb : 9 < b
      · intro h
        exact hlarge ⟨ha, hb, (parameters_large_eq_iff ha hb).mp h⟩
      · exact (parameters_ne_large (by omega) ha).symm
    · by_cases hb : 9 < b
      · exact parameters_ne_large (by omega) hb
      · -- one of the two is 0, the other from 1 to 9
        by_cases hzero : a = 0
        · subst hzero
          exact parameters_zero_ne (by omega) (by omega)
        · have hzero' : b = 0 := by omega
          subst hzero'
          exact (parameters_zero_ne (by omega) (by omega)).symm

theorem parameters_ne_default_first : parameters 0 ≠ parameters 1 :=
  (parameters_ne_iff 0 1 (by omega)).mpr ⟨by omega, by omega⟩

/-- The second and the third solver of a run search alike. -/
theorem second_and_third_alike :
    ¬ ∀ a b : ℕ, a ≠ b → parameters a ≠ parameters b := by
  intro h
  apply h 1 2 (by omega)
  rfl

end Painless.GlucoseDiversification
