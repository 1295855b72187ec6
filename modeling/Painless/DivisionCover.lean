import Painless.DivisionLists
import Painless.SearchCover
import Mathlib.Data.Multiset.MapFold

/-!
The cubes of the active workers cover the search space. A worker's region is
the set of assignments under which its cube holds: a split divides a region by
the division literal, an UNSAT answer closes a region without a model in it,
and every other step keeps the regions. The strategy is therefore an instance
of a search by division, and the last UNSAT answer refutes the formula under
the root cube.
-/
namespace Painless.DivisionCover

open Cnf DivideAndConquer DivisionLists SearchCover Transitions

variable {W : Type*} {cfg : Config W} {F : Formula ℕ}

/-- The models of the formula under the root cube. -/
def goal (cfg : Config W) (F : Formula ℕ) : Set (Assignment ℕ) :=
  {σ | FormulaHolds σ F ∧ CubeHolds σ (ofInts cfg.actualCube)}

/-- The cubes of the active workers, as sets of assignments. -/
def regions (s : State W) : Multiset (Set (Assignment ℕ)) :=
  Multiset.map (fun w => cubeModels (s.cubes w)) ↑(s.workers ++ s.workersSplitting)

/-- Solvers answer UNKNOWN only when asked to split, and UNSAT only when no
model of the formula satisfies the cube they were given; a division literal is
not 0. -/
def Answers (F : Formula ℕ) (s : State W) : Action W → Prop
  | .handOver => True
  | .joinUnknown current var => current ∈ s.workersSplitting ∧ var ≠ 0
  | .joinUnsat current => Active s current ∧
      ∀ σ, FormulaHolds σ F → ¬ CubeHolds σ (ofInts (s.given current))

theorem Answers.reports {s : State W} {a : Action W} (h : Answers F s a) :
    Reports s a := by
  cases a with
  | handOver => trivial
  | joinUnknown current var => exact h.1
  | joinUnsat current => exact h.1

/-- The worker of an active slave solves under the cube the strategy keeps for
it. -/
def GivenCubes (s : State W) : Prop := ∀ w, Active s w → s.given w = s.cubes w

theorem GivenCubes.of_frame {s t : State W} (hs : GivenCubes s)
    (hactive : ∀ w, Active t w → Active s w) (hcubes : t.cubes = s.cubes)
    (hgiven : t.given = s.given) : GivenCubes t := by
  intro w hw
  rw [hcubes, hgiven]
  exact hs w (hactive w hw)

theorem regions_eq_of_perm {s t : State W}
    (hperm : (t.workers ++ t.workersSplitting).Perm (s.workers ++ s.workersSplitting))
    (hcubes : t.cubes = s.cubes) : regions t = regions s := by
  rw [regions, regions, hcubes, Multiset.coe_eq_coe.mpr hperm]

/-- An active worker's region, and those of the others. -/
theorem regions_eq_cons {s : State W} {current : W} {others : List W}
    (hperm : (s.workers ++ s.workersSplitting).Perm (current :: others)) :
    regions s = cubeModels (s.cubes current) ::ₘ
      Multiset.map (fun w => cubeModels (s.cubes w)) ↑others := by
  rw [regions, Multiset.coe_eq_coe.mpr hperm, ← Multiset.cons_coe, Multiset.map_cons]

theorem mem_regions {s : State W} {r : Set (Assignment ℕ)} (hr : r ∈ regions s) :
    ∃ w, Active s w ∧ r = cubeModels (s.cubes w) := by
  obtain ⟨w, hw, rfl⟩ := Multiset.mem_map.mp hr
  exact ⟨w, List.mem_append.mp hw, rfl⟩

/-- The counter is positive while some worker is active. -/
theorem regions_eq_zero {s : State W} (hs : ListsInvariant cfg s.toSlaveLists)
    (hzero : ¬ 0 < s.nWorkers) : regions s = 0 := by
  have hcount := hs.count
  have hworkers : s.workers = [] := List.length_eq_zero_iff.mp (by omega)
  have hsplitting : s.workersSplitting = [] := List.length_eq_zero_iff.mp (by omega)
  rw [regions, hworkers, hsplitting]
  rfl

variable [DecidableEq W]

theorem lists_reach {s : State W} (hs : (machine cfg).Reach (Answers F) s) :
    ListsInvariant cfg s.toSlaveLists :=
  invariant_reach (hs.mono fun _ _ h => h.reports)

/-! ### One step -/

theorem givenCubes_step {s t : State W} {a : Action W}
    (hlists : ListsInvariant cfg s.toSlaveLists) (hs : GivenCubes s)
    (hok : Answers F s a) (h : step cfg s a = some t) : GivenCubes t := by
  cases a with
  | handOver =>
    obtain ⟨overSlave, overs, worker, workers, -, -, -, hcubes, hgiven⟩ := handOver_spec h
    refine hs.of_frame ?_ hcubes hgiven
    intro w hw
    have hmem := (handOver_active hlists h).mem_iff.mp (List.mem_append.mpr hw)
    exact List.mem_append.mp hmem
  | joinUnknown current var =>
    obtain ⟨overSlave, rest, others, -, hne, -, -, hbefore, hafter, hcubes, hgiven⟩ :=
      joinUnknown_active hlists hok.1 h
    intro w hw
    rw [hgiven]
    by_cases hover : w = overSlave
    · rw [hover, Function.update_self]
    · by_cases hcurrent : w = current
      · rw [Function.update_of_ne hover, hcurrent, Function.update_self]
      · -- the other workers keep both cubes
        have hmem := hafter.mem_iff.mp (List.mem_append.mpr hw)
        simp only [List.mem_cons, hcurrent, hover, false_or] at hmem
        have hold : Active s w :=
          List.mem_append.mp (hbefore.mem_iff.mpr (List.mem_cons_of_mem _ hmem))
        rw [Function.update_of_ne hover, Function.update_of_ne hcurrent, hs w hold,
          hcubes, halveCubes, Function.update_of_ne hover,
          Function.update_of_ne hcurrent]
  | joinUnsat current =>
    obtain ⟨-, hcubes, hgiven⟩ := joinUnsat_spec h
    refine hs.of_frame ?_ hcubes hgiven
    intro w hw
    have hmem : w ∈ current :: (t.workers ++ t.workersSplitting) :=
      List.mem_cons_of_mem _ (List.mem_append.mpr hw)
    exact List.mem_append.mp ((joinUnsat_active hok.1 h).mem_iff.mpr hmem)

/-- A split divides the worker's region by the division literal. -/
theorem regions_joinUnknown {s t : State W} {current : W} {var : ℤ}
    (hlists : ListsInvariant cfg s.toSlaveLists) (hcurrent : current ∈ s.workersSplitting)
    (hvar : var ≠ 0) (h : joinUnknown cfg s current var = some t) :
    Step (goal cfg F) (regions s) (regions t) := by
  obtain ⟨overSlave, rest, others, -, hne, hcurrentOthers, hoverOthers, hbefore, hafter,
    hcubes, -⟩ := joinUnknown_active hlists hcurrent h
  have hothers : Multiset.map (fun w => cubeModels (t.cubes w)) (others : Multiset W) =
      Multiset.map (fun w => cubeModels (s.cubes w)) (others : Multiset W) := by
    refine Multiset.map_congr rfl fun w hw => ?_
    have hwover : w ≠ overSlave := fun heq => hoverOthers (heq ▸ hw)
    have hwcurrent : w ≠ current := fun heq => hcurrentOthers (heq ▸ hw)
    rw [hcubes, halveCubes, Function.update_of_ne hwover, Function.update_of_ne hwcurrent]
  have hhalf : cubeModels (t.cubes current) =
      cubeModels (s.cubes current) ∩ literalModels var := by
    rw [hcubes, halveCubes, Function.update_of_ne hne.symm, Function.update_self,
      cubeModels_push]
  have hotherHalf : cubeModels (t.cubes overSlave) =
      cubeModels (s.cubes current) ∩ (literalModels var)ᶜ := by
    rw [hcubes, halveCubes, Function.update_self, cubeModels_push, literalModels_neg hvar]
  rw [regions_eq_cons hbefore, regions_eq_cons hafter, ← Multiset.cons_coe,
    Multiset.map_cons, hothers, hhalf, hotherHalf]
  exact Step.divide _ _ _

/-- An UNSAT answer closes the region of the worker that gave it. -/
theorem regions_joinUnsat {s t : State W} {current : W} (hs : GivenCubes s)
    (hok : Answers F s (.joinUnsat current)) (h : joinUnsat cfg s current = some t) :
    Step (goal cfg F) (regions s) (regions t) := by
  obtain ⟨-, hcubes, -⟩ := joinUnsat_spec h
  obtain ⟨hcurrent, hunsat⟩ := hok
  rw [hs current hcurrent] at hunsat
  rw [regions_eq_cons (joinUnsat_active hcurrent h), ← hcubes]
  exact Step.close _ _ fun σ hσ => by
    rw [hcubes]
    exact hunsat σ hσ.1

theorem regions_step {s t : State W} {a : Action W}
    (hlists : ListsInvariant cfg s.toSlaveLists) (hs : GivenCubes s)
    (hok : Answers F s a) (h : step cfg s a = some t) :
    regions t = regions s ∨ Step (goal cfg F) (regions s) (regions t) := by
  cases a with
  | handOver =>
    obtain ⟨overSlave, overs, worker, workers, -, -, -, hcubes, -⟩ := handOver_spec h
    exact Or.inl (regions_eq_of_perm (handOver_active hlists h) hcubes)
  | joinUnknown current var => exact Or.inr (regions_joinUnknown hlists hok.1 hok.2 h)
  | joinUnsat current => exact Or.inr (regions_joinUnsat hs hok h)

/-! ### Every run -/

theorem givenCubes_reach {s : State W} (hs : (machine cfg).Reach (Answers F) s) :
    GivenCubes s := by
  refine hs.invariant GivenCubes ?_ ?_
  · intro s hinit w hw
    obtain ⟨first, rest, -, hl, hcubes, hgiven⟩ := startUp_spec hinit
    simp only [Active, hl, List.mem_singleton, List.not_mem_nil, or_false] at hw
    rw [hw, hcubes, hgiven]
  · intro s a t hr hinv hok h
    exact givenCubes_step (lists_reach hr) hinv hok h

theorem covers_reach {s : State W} (hs : (machine cfg).Reach (Answers F) s) :
    Covers (goal cfg F) (regions s) := by
  refine hs.invariant (fun s => Covers (goal cfg F) (regions s)) ?_ ?_
  · intro s hinit
    obtain ⟨first, rest, -, hl, hcubes, -⟩ := startUp_spec hinit
    have hregions : regions s = {cubeModels cfg.actualCube} := by
      simp [regions, hl, hcubes]
    rw [hregions]
    exact covers_root fun σ hσ => hσ.2
  · intro s a t hr hinv hok h
    rcases regions_step (lists_reach hr) (givenCubes_reach hr) hok h with heq | hstep
    · rw [heq]
      exact hinv
    · exact hinv.step hstep

/-- While a worker is left, every model of the formula under the root cube
satisfies the cube of an active worker. A last UNSAT answer, which lets join
fall through to publish UNSAT, means that there is no such model. -/
theorem cubes_cover_models (cfg : Config W) (F : Formula ℕ) (s : State W)
    (hs : (machine cfg).Reach (Answers F) s) :
    (0 < s.nWorkers → ∀ σ, FormulaHolds σ F → CubeHolds σ (ofInts cfg.actualCube) →
      ∃ w, (w ∈ s.workers ∨ w ∈ s.workersSplitting) ∧
        CubeHolds σ (ofInts (s.cubes w))) ∧
    (∀ current t, Answers F s (.joinUnsat current) → joinUnsat cfg s current = some t →
      ¬ 0 < t.nWorkers →
      ¬ ∃ σ, FormulaHolds σ F ∧ CubeHolds σ (ofInts cfg.actualCube)) := by
  refine ⟨?_, ?_⟩
  · intro _ σ hF hroot
    obtain ⟨r, hr, hσ⟩ := covers_reach hs σ ⟨hF, hroot⟩
    obtain ⟨w, hw, rfl⟩ := mem_regions hr
    exact ⟨w, hw, hσ⟩
  · rintro current t hok h hzero ⟨σ, hF, hroot⟩
    have ht : (machine cfg).Reach (Answers F) t :=
      hs.step (a := Action.joinUnsat current) hok h
    have hcovers := covers_reach ht
    rw [regions_eq_zero (lists_reach ht) hzero] at hcovers
    have hmem : σ ∈ goal cfg F := ⟨hF, hroot⟩
    rw [hcovers.exhausted] at hmem
    exact hmem

/-- The state after the first slave has split on 5 and refuted its half. -/
def afterRefutation : State (Fin 2) :=
  ((startUp twoSlaves).bind fun s =>
    (machine twoSlaves).run s [.handOver, .joinUnknown 0 5, .joinUnsat 0]).get (by decide)

/-- The clause forbids the half in which 5 is true. -/
def notFive : Formula ℕ := [[ofInt (-5)]]

theorem refutes_five (σ : Assignment ℕ) (hσ : FormulaHolds σ notFive) :
    ¬ CubeHolds σ (ofInts [5]) := by
  rw [notFive, formulaHolds_unit, ofInt_neg (by decide), literalHolds_negate] at hσ
  rwa [ofInts, List.map_singleton, cubeHolds_singleton]

theorem afterRefutation_reach :
    (machine twoSlaves).Reach (Answers notFive) afterRefutation := by
  have hsplit : (machine twoSlaves).Reach (Answers notFive) afterSplit := by
    have hinit : (machine twoSlaves).Init ((startUp twoSlaves).get (by decide)) :=
      (Option.some_get _).symm
    refine (Machine.Reach.init hinit).run [.handOver, .joinUnknown 0 5] ?_ rfl
    refine ⟨trivial, fun s hs => ⟨?_, fun t _ => trivial⟩⟩
    obtain rfl := Option.some.inj hs
    exact ⟨by decide, by decide⟩
  refine hsplit.step (a := Action.joinUnsat 0) ⟨by decide, ?_⟩ rfl
  exact refutes_five

theorem cubes_cover_all_false :
    ∃ w, (w ∈ afterRefutation.workers ∨ w ∈ afterRefutation.workersSplitting) ∧
      CubeHolds (fun _ => false) (ofInts (afterRefutation.cubes w)) :=
  (cubes_cover_models twoSlaves notFive afterRefutation afterRefutation_reach).1
    (by decide) (fun _ => false) (by decide) (by decide)

end Painless.DivisionCover
