import Painless.SolverInterface
import Mathlib.Data.List.Basic
import Mathlib.Logic.Function.Basic
import Mathlib.Tactic.SplitIfs

/-!
The decision flags of a Glucose solver. ParallelSolver::solve_ takes the
variables of the assumptions out of the decisions, eliminates variables and
searches; it gives the assumptions back to the decisions only if the search was
not interrupted. GlucoseSyrup::solve leaves eliminated variables out of the
assumptions. A solve under a cube that contains the cube of the interrupted one
searches with exactly the assumptions and the eliminated variables left out.
-/
namespace Painless.GlucoseDecisions

open SolverInterface

/-- The flags of the variables, and what solve_ keeps while it searches. -/
structure Engine where
  decision : ℕ → Bool
  eliminated : ℕ → Bool
  frozen : ℕ → Bool
  useSimplification : Bool
  ok : Bool
  assumptions : List ℤ
  /-- The variables that solve_ has frozen for the elimination. -/
  extraFrozen : List ℕ
  searching : Bool

/-- The variable of a literal. -/
def var (l : ℤ) : ℕ := l.natAbs

/-- What the clauses decide: whether those queued are added without a
contradiction, which variables the elimination comes upon and does not keep for
the clauses they would leave, and whether it meets a contradiction. -/
structure Outcome where
  clausesAdded : Bool
  elimHeap : List ℕ
  consistent : Bool

namespace Engine

/-- A solver that has loaded its formula. -/
def loaded (ok : Bool) : Engine where
  decision := fun _ => true
  eliminated := fun _ => false
  frozen := fun _ => false
  useSimplification := true
  ok := ok
  assumptions := []
  extraFrozen := []
  searching := false

/-- The cloning constructors. -/
def clone (e : Engine) : Engine :=
  { e with assumptions := [], extraFrozen := [], searching := false }

def setDecisionVar (b : Bool) (e : Engine) (l : ℤ) : Engine :=
  { e with decision := Function.update e.decision (var l) b }

def setFrozen (b : Bool) (e : Engine) (v : ℕ) : Engine :=
  { e with frozen := Function.update e.frozen v b }

/-- An assumption that is not frozen is frozen and remembered. -/
def freeze (e : Engine) (l : ℤ) : Engine :=
  if e.frozen (var l) then e
  else { e.setFrozen true (var l) with extraFrozen := e.extraFrozen ++ [var l] }

def eliminateVar (e : Engine) (v : ℕ) : Engine :=
  if e.eliminated v ∨ e.frozen v then e
  else
    { e with
      eliminated := Function.update e.eliminated v true
      decision := Function.update e.decision v false }

/-- SimpSolver::eliminate, whose first call simplify fails if ok is unset. -/
def eliminate (e : Engine) (o : Outcome) : Engine :=
  if e.ok then { o.elimHeap.foldl eliminateVar e with ok := o.consistent } else e

/-- The part of solve_ under do_simp. -/
def preprocess (e : Engine) (o : Outcome) : Engine :=
  if e.useSimplification then (e.assumptions.foldl freeze e).eliminate o else e

/-- ParallelSolver::solve_ up to the loop around search. It returns l_False
where ok is unset. -/
def solve_ (e : Engine) (o : Outcome) : Engine :=
  let e := { e with extraFrozen := [] }
  let e := (e.assumptions.foldl (setDecisionVar false) e).preprocess o
  if e.ok then { e with searching := true } else e

/-- GlucoseSyrup::solve up to the search, or to its return of UNSAT. -/
def solve (e : Engine) (cube : List ℤ) (o : Outcome) : Engine :=
  if o.clausesAdded then
    { e with assumptions := cube.filter fun l => !e.eliminated (var l) }.solve_ o
  else { e with ok := false }

/-- ParallelSolver::solve_ after the search. -/
def endSearch (e : Engine) (status : SatResult) (conflictEmpty : Bool) : Engine :=
  let e := if e.useSimplification then e.extraFrozen.foldl (setFrozen false) e else e
  let e := if status = .unsat ∧ conflictEmpty then { e with ok := false } else e
  let e := if status ≠ .unknown then e.assumptions.foldl (setDecisionVar true) e else e
  { e with searching := false }

/-! ### What the loops do -/

theorem foldl_setDecisionVar (e : Engine) (b : Bool) (cube : List ℤ) :
    cube.foldl (setDecisionVar b) e =
      { e with decision := fun u => if u ∈ cube.map var then b else e.decision u } := by
  induction cube generalizing e with
  | nil => simp
  | cons l rest ih =>
    rw [List.foldl_cons, ih]
    simp only [setDecisionVar, Engine.mk.injEq, and_true]
    funext u
    by_cases hrest : u ∈ rest.map var
    · simp [hrest]
    · by_cases hl : u = var l
      · simp [hl]
      · simp [hrest, hl, Function.update_of_ne]

theorem foldl_setFrozen (e : Engine) (b : Bool) (vs : List ℕ) :
    ∃ frozen, vs.foldl (setFrozen b) e = { e with frozen := frozen } := by
  induction vs generalizing e with
  | nil => exact ⟨e.frozen, rfl⟩
  | cons v rest ih =>
    obtain ⟨frozen, h⟩ := ih (setFrozen b e v)
    exact ⟨frozen, h⟩

/-- All assumptions are frozen afterwards, and nothing else has changed. -/
theorem foldl_freeze (e : Engine) (cube : List ℤ) :
    ∃ frozen extraFrozen,
      cube.foldl freeze e = { e with frozen := frozen, extraFrozen := extraFrozen } ∧
      (∀ u, e.frozen u = true → frozen u = true) ∧
      ∀ l ∈ cube, frozen (var l) = true := by
  induction cube generalizing e with
  | nil => exact ⟨e.frozen, e.extraFrozen, rfl, fun _ h => h, by simp⟩
  | cons l rest ih =>
    have hfirst : ∃ frozen extraFrozen,
        freeze e l = { e with frozen := frozen, extraFrozen := extraFrozen } ∧
        (∀ u, e.frozen u = true → frozen u = true) ∧ frozen (var l) = true := by
      unfold freeze
      by_cases hl : e.frozen (var l) = true
      · rw [if_pos hl]
        exact ⟨e.frozen, e.extraFrozen, rfl, fun _ h => h, hl⟩
      · rw [if_neg hl]
        refine ⟨Function.update e.frozen (var l) true, _, rfl, fun u hu => ?_, by simp⟩
        by_cases h : u = var l
        · simp [h]
        · rwa [Function.update_of_ne h]
    obtain ⟨frozen, extraFrozen, heq, hkept, hl⟩ := hfirst
    obtain ⟨frozen', extraFrozen', heq', hkept', hrest⟩ := ih (freeze e l)
    refine ⟨frozen', extraFrozen', ?_, fun u hu => ?_, fun m hm => ?_⟩
    · rw [List.foldl_cons, heq', heq]
    · apply hkept'
      rw [heq]
      exact hkept u hu
    · rcases List.mem_cons.mp hm with rfl | hm
      · apply hkept'
        rw [heq]
        exact hl
      · exact hrest m hm

/-- A variable is as before, or it was not frozen and has been eliminated. -/
theorem foldl_eliminateVar (e : Engine) (vs : List ℕ) :
    ∃ decision eliminated,
      vs.foldl eliminateVar e = { e with decision := decision, eliminated := eliminated } ∧
      ∀ u, (decision u = e.decision u ∧ eliminated u = e.eliminated u) ∨
        (e.frozen u = false ∧ decision u = false ∧ eliminated u = true) := by
  induction vs generalizing e with
  | nil => exact ⟨e.decision, e.eliminated, rfl, fun u => Or.inl ⟨rfl, rfl⟩⟩
  | cons v rest ih =>
    obtain ⟨decision, eliminated, heq, hvars⟩ := ih (eliminateVar e v)
    rw [List.foldl_cons, heq]
    unfold eliminateVar at hvars ⊢
    by_cases hv : e.eliminated v = true ∨ e.frozen v = true
    · rw [if_pos hv] at hvars ⊢
      exact ⟨decision, eliminated, rfl, hvars⟩
    · rw [if_neg hv] at hvars ⊢
      refine ⟨decision, eliminated, rfl, fun u => ?_⟩
      rcases hvars u with ⟨hdecision, heliminated⟩ | hnew
      · by_cases hu : u = v
        · subst hu
          have hfrozen : e.frozen u = false := by
            simpa using (not_or.mp hv).2
          exact Or.inr ⟨hfrozen, by simpa using hdecision, by simpa using heliminated⟩
        · left
          rw [hdecision, heliminated]
          exact ⟨Function.update_of_ne hu _ _, Function.update_of_ne hu _ _⟩
      · exact Or.inr hnew

/-! ### The flags across solves -/

/-- Between two solves of a consistent solver the variables left out of the
decisions are the eliminated ones and variables of the cube. -/
def Sound (e : Engine) (cube : List ℤ) : Prop :=
  e.ok = true →
    (∀ u, e.eliminated u = true → e.decision u = false) ∧
      ∀ u, e.decision u = false → e.eliminated u = true ∨ u ∈ cube.map var

/-- The variables left out of the decisions while it searches for the cube. -/
structure LeftOut (e : Engine) (cube : List ℤ) : Prop where
  decision : ∀ u, e.decision u = false ↔ u ∈ e.assumptions.map var ∨ e.eliminated u = true
  kept : ∀ u ∈ e.assumptions.map var, e.eliminated u = false
  assumed : ∀ l ∈ e.assumptions, l ∈ cube

theorem sound_loaded (ok : Bool) (cube : List ℤ) : (loaded ok).Sound cube := by
  intro _
  simp [loaded]

theorem Sound.mono {e : Engine} {cube cube' : List ℤ} (h : e.Sound cube)
    (hsub : ∀ l ∈ cube, l ∈ cube') : e.Sound cube' := by
  intro hok
  refine ⟨(h hok).1, fun u hu => ((h hok).2 u hu).imp_right fun hmem => ?_⟩
  obtain ⟨l, hl, rfl⟩ := List.mem_map.mp hmem
  exact List.mem_map_of_mem (hsub l hl)

theorem Sound.clone {e : Engine} {cube : List ℤ} (h : e.Sound cube) : e.clone.Sound cube := h

theorem leftOut_foldl {e : Engine} {cube : List ℤ} (hok : e.ok = true) (hsound : e.Sound cube)
    (hassumed : ∀ l, l ∈ e.assumptions ↔ l ∈ cube ∧ e.eliminated (var l) = false) :
    (e.assumptions.foldl (setDecisionVar false) e).LeftOut cube := by
  obtain ⟨hclosed, hheld⟩ := hsound hok
  rw [foldl_setDecisionVar]
  refine ⟨fun u => ?_, fun u hu => ?_, fun l hl => ((hassumed l).mp hl).1⟩
  · show (if u ∈ e.assumptions.map var then false else e.decision u) = false ↔ _
    by_cases hu : u ∈ e.assumptions.map var
    · simp [hu]
    · rw [if_neg hu]
      simp only [hu, false_or]
      refine ⟨fun hfalse => ?_, hclosed u⟩
      -- a variable of the cube that is not eliminated is assumed
      rcases hheld u hfalse with helim | hmem
      · exact helim
      · obtain ⟨l, hl, rfl⟩ := List.mem_map.mp hmem
        by_contra hne
        exact hu (List.mem_map_of_mem ((hassumed l).mpr ⟨hl, by simpa using hne⟩))
  · obtain ⟨l, hl, rfl⟩ := List.mem_map.mp hu
    exact ((hassumed l).mp hl).2

/-- The elimination passes over frozen assumptions. -/
theorem LeftOut.eliminate {e : Engine} {cube : List ℤ} (h : e.LeftOut cube) (o : Outcome)
    (hfrozen : ∀ l ∈ e.assumptions, e.frozen (var l) = true) : (e.eliminate o).LeftOut cube := by
  unfold Engine.eliminate
  by_cases hok : e.ok = true
  · obtain ⟨decision, eliminated, heq, hvars⟩ := foldl_eliminateVar e o.elimHeap
    rw [if_pos hok, heq]
    have hassumed (u : ℕ) (hu : u ∈ e.assumptions.map var) : e.frozen u = true := by
      obtain ⟨l, hl, rfl⟩ := List.mem_map.mp hu
      exact hfrozen l hl
    refine ⟨fun u => ?_, fun u hu => ?_, h.assumed⟩
    · show decision u = false ↔ u ∈ e.assumptions.map var ∨ eliminated u = true
      rcases hvars u with ⟨hdecision, heliminated⟩ | ⟨-, hdecision, heliminated⟩
      · rw [hdecision, heliminated]
        exact h.decision u
      · simp [hdecision, heliminated]
    · show eliminated u = false
      rcases hvars u with ⟨-, heliminated⟩ | ⟨hnot, -, -⟩
      · rw [heliminated]
        exact h.kept u hu
      · rw [hassumed u hu] at hnot
        exact absurd hnot (by simp)
  · rwa [if_neg hok]

theorem LeftOut.preprocess {e : Engine} {cube : List ℤ} (h : e.LeftOut cube) (o : Outcome) :
    (e.preprocess o).LeftOut cube := by
  unfold Engine.preprocess
  by_cases hsimp : e.useSimplification = true
  · obtain ⟨frozen, extraFrozen, heq, -, hfrozen⟩ := foldl_freeze e e.assumptions
    rw [if_pos hsimp, heq]
    refine LeftOut.eliminate ?_ o hfrozen
    exact ⟨h.decision, h.kept, h.assumed⟩
  · rwa [if_neg hsimp]

/-- The elimination may find a contradiction, but does not take one back. -/
theorem preprocess_frame (e : Engine) (o : Outcome) :
    (e.preprocess o).searching = e.searching ∧ ((e.preprocess o).ok = true → e.ok = true) := by
  obtain ⟨frozen, extraFrozen, hfreeze, -⟩ := foldl_freeze e e.assumptions
  unfold preprocess eliminate
  by_cases hsimp : e.useSimplification = true
  · rw [if_pos hsimp, hfreeze]
    by_cases hok : e.ok = true
    · obtain ⟨decision, eliminated, helim, -⟩ := foldl_eliminateVar
        { e with frozen := frozen, extraFrozen := extraFrozen } o.elimHeap
      rw [if_pos hok, helim]
      exact ⟨rfl, fun _ => hok⟩
    · rw [if_neg hok]
      exact ⟨rfl, id⟩
  · rw [if_neg hsimp]
    exact ⟨rfl, id⟩

/-- Where solve comes to its search, the assumptions and the eliminated variables
are left out; where it does not, the solver is known to be inconsistent. -/
theorem solve_spec {e : Engine} {cube : List ℤ} (o : Outcome) (hsound : e.Sound cube)
    (hidle : e.searching = false) :
    ((e.solve cube o).searching = true ∧ (e.solve cube o).LeftOut cube) ∨
      ((e.solve cube o).searching = false ∧ (e.solve cube o).ok = false) := by
  unfold solve
  by_cases hadded : o.clausesAdded = true
  · rw [if_pos hadded]
    unfold solve_
    dsimp only
    obtain ⟨hsearching, hconsistent⟩ := preprocess_frame (List.foldl (setDecisionVar false)
      { e with
        assumptions := cube.filter fun l => !e.eliminated (var l)
        extraFrozen := [] }
      (cube.filter fun l => !e.eliminated (var l))) o
    rw [foldl_setDecisionVar] at hsearching hconsistent
    split_ifs with hok
    · left
      have hleft := leftOut_foldl (e := { e with
        assumptions := cube.filter fun l => !e.eliminated (var l)
        extraFrozen := [] }) (hconsistent (by rwa [foldl_setDecisionVar] at hok))
        hsound (by simp)
      have hbefore := hleft.preprocess o
      exact ⟨rfl, hbefore.decision, hbefore.kept, hbefore.assumed⟩
    · right
      rw [foldl_setDecisionVar] at hok ⊢
      exact ⟨hsearching.trans hidle, Bool.eq_false_iff.mpr hok⟩
  · rw [if_neg hadded]
    exact Or.inr ⟨hidle, rfl⟩

/-- After a result the assumptions are decision variables again. -/
theorem sound_restore {e : Engine} {cube : List ℤ} (h : e.LeftOut cube) :
    (e.assumptions.foldl (setDecisionVar true) e).Sound [] := by
  intro _
  rw [foldl_setDecisionVar]
  refine ⟨fun u helim => ?_, fun u hu => ?_⟩
  · show (if u ∈ e.assumptions.map var then true else e.decision u) = false
    have hnot : u ∉ e.assumptions.map var := by
      intro hmem
      have hkept := h.kept u hmem
      rw [show e.eliminated u = true from helim] at hkept
      exact absurd hkept (by simp)
    rw [if_neg hnot]
    exact (h.decision u).mpr (Or.inr helim)
  · replace hu : (if u ∈ e.assumptions.map var then true else e.decision u) = false := hu
    by_cases hmem : u ∈ e.assumptions.map var
    · simp [hmem] at hu
    · rw [if_neg hmem] at hu
      exact Or.inl (((h.decision u).mp hu).resolve_left hmem)

theorem LeftOut.sound {e : Engine} {cube : List ℤ} (h : e.LeftOut cube) : e.Sound cube := by
  intro _
  refine ⟨fun u hu => (h.decision u).mpr (Or.inr hu), fun u hu => ?_⟩
  rcases (h.decision u).mp hu with hmem | helim
  · obtain ⟨l, hl, rfl⟩ := List.mem_map.mp hmem
    exact Or.inr (List.mem_map_of_mem (h.assumed l hl))
  · exact Or.inl helim

/-- An interrupted search leaves the flags as they are; the next cube has to
contain this one. -/
theorem sound_endSearch {e : Engine} {cube : List ℤ} (h : e.LeftOut cube) (status : SatResult)
    (conflictEmpty : Bool) :
    (e.endSearch status conflictEmpty).Sound (if status = .unknown then cube else []) := by
  unfold endSearch
  extract_lets e₁ e₂ e₃
  have h₁ : e₁.LeftOut cube := by
    obtain ⟨frozen, hfrozen⟩ := foldl_setFrozen e false e.extraFrozen
    by_cases hsimp : e.useSimplification = true
    · rw [show e₁ = { e with frozen := frozen } from (if_pos hsimp).trans hfrozen]
      exact ⟨h.decision, h.kept, h.assumed⟩
    · rw [show e₁ = e from if_neg hsimp]
      exact h
  have h₂ : e₂.LeftOut cube := by
    by_cases hconflict : status = .unsat ∧ conflictEmpty = true
    · rw [show e₂ = { e₁ with ok := false } from if_pos hconflict]
      exact ⟨h₁.decision, h₁.kept, h₁.assumed⟩
    · rw [show e₂ = e₁ from if_neg hconflict]
      exact h₁
  have h₃ : e₃.Sound (if status = .unknown then cube else []) := by
    by_cases hstatus : status = .unknown
    · rw [if_pos hstatus, show e₃ = e₂ from if_neg (not_not.mpr hstatus)]
      exact h₂.sound
    · rw [if_neg hstatus, show e₃ = _ from if_pos hstatus]
      exact sound_restore h₂
  exact h₃

end Engine

end Painless.GlucoseDecisions
