import Painless.MiniSatDecisions

/-!
What the surroundings of the MiniSat engine rely on besides its answers. A search
leaves the variables and the assumptions as they are; a clause for the export
callback is not empty, and its variables are known and different from each other.
-/
namespace Painless.MiniSatExports

open Cnf PartialAssignment MiniSatCore MiniSatTrail MiniSatWatches MiniSatPropagate
open MiniSatAnalyze MiniSatLearnt MiniSatEngine MiniSatSearch MiniSatDatabase MiniSatTurns
open MiniSatDecisions (nVars_propagateLoop nVars_removeSatisfied nVars_reduceDB)
open MiniSatCore.Core

variable {G : Bool → Prop} {f g : Formula ℕ} {s t u : Solver}

/-! ### What a search leaves as it is -/

structure Kept (s t : Solver) : Prop where
  nVars : t.nVars = s.nVars
  decision : t.decision = s.decision
  assumptions : t.assumptions = s.assumptions

namespace Kept

theorem refl (s : Solver) : Kept s s := ⟨rfl, rfl, rfl⟩

theorem trans (h : Kept s t) (h' : Kept t u) : Kept s u :=
  ⟨h'.nVars.trans h.nVars, h'.decision.trans h.decision, h'.assumptions.trans h.assumptions⟩

theorem setCore {c : Core} (h : c.nVars = s.nVars) : Kept s (s.setCore c) := ⟨h, rfl, rfl⟩

theorem cancelUntil (s : Solver) (level : ℕ) : Kept s (s.cancelUntil level) :=
  ⟨cancelUntil_nVars, rfl, rfl⟩

theorem importUnitClauses (units : List (Literal ℕ)) : Kept s (s.importUnitClauses units) := by
  induction units generalizing s with
  | nil => exact refl s
  | cons l rest ih =>
    unfold Solver.importUnitClauses
    split_ifs
    · have hnext : Kept s (s.setCore (s.toCore.uncheckedEnqueue l none)) := setCore rfl
      exact hnext.trans ih
    · exact ih

theorem importClauses (queue : List (Literal ℕ × Literal ℕ × Clause ℕ)) :
    Kept s (s.importClauses queue) := by
  induction queue generalizing s with
  | nil => exact refl s
  | cons c queue ih =>
    have hnext : Kept s { s with
        toCore := s.allocAttach c.1 c.2.1 c.2.2 true (s.falseWatch c.1 c.2.1)
        learnts := s.learnts ++ [s.caSize] } := ⟨rfl, rfl, rfl⟩
    exact hnext.trans ih

theorem importAll (s : Solver) (i : Input) : Kept s (s.importAll i) := by
  unfold Solver.importAll
  split_ifs
  · exact (importUnitClauses i.units).trans (importClauses i.imports)
  · exact refl s

theorem simplify (s : Solver) (i : Input) : Kept s (s.simplify i).1 := by
  have hvars := @nVars_propagateLoop s.toCore (s.nVars + 1) none
  unfold Solver.simplify Core.propagate
  by_cases hok : s.ok = false
  · rw [if_pos hok]
    exact refl s
  rw [if_neg hok]
  dsimp only
  generalize propagateLoop (s.nVars + 1) s.toCore none = r at hvars ⊢
  obtain ⟨c, confl⟩ := r
  cases confl with
  | some cr => exact ⟨hvars, rfl, rfl⟩
  | none =>
    cases i.simplify with
    | true => exact ⟨(nVars_removeSatisfied _).trans hvars, rfl, rfl⟩
    | false => exact ⟨hvars, rfl, rfl⟩

theorem reduceDB (s : Solver) (i : Input) : Kept s (s.reduceDB i) :=
  ⟨nVars_reduceDB i.drop (i.sort s.learnts), rfl, rfl⟩

theorem learn {c : Clause ℕ} (h : s.learn c = some t) : Kept s t := by
  match c with
  | [] => exact absurd h.symm (Option.some_ne_none t)
  | [p] =>
    obtain rfl := Option.some.inj h
    exact ⟨rfl, rfl, rfl⟩
  | p :: q :: rest =>
    obtain rfl := Option.some.inj h
    exact ⟨rfl, rfl, rfl⟩

theorem finish (s : Solver) (status : Option Bool) : Kept s (s.finish status) := by
  unfold Solver.finish
  dsimp only
  split_ifs
  · exact (⟨rfl, rfl, rfl⟩ : Kept s { s with model := (List.range s.nVars).map s.assigns }).trans
      (cancelUntil _ 0)
  · exact (⟨rfl, rfl, rfl⟩ : Kept s { s with ok := false }).trans (cancelUntil _ 0)
  · exact cancelUntil s 0

end Kept

def OutcomeKept (s : Solver) : Solver.Outcome → Prop
  | .next t => Kept s t
  | .learnt t _ => Kept s t
  | .answer t _ => Kept s t
  | .stuck => True

theorem OutcomeKept.of_kept {o : Solver.Outcome} (h : OutcomeKept t o) (hkept : Kept s t) :
    OutcomeKept s o := by
  cases o with
  | next => exact hkept.trans h
  | learnt => exact hkept.trans h
  | answer => exact hkept.trans h
  | stuck => trivial

def AssumedKept (s : Solver) : Solver.Assumed → Prop
  | .all t => Kept s t
  | .decide t _ => Kept s t
  | .failed t _ => Kept s t

theorem assume_kept (rest : List (Literal ℕ)) : AssumedKept s (s.assume rest) := by
  induction rest generalizing s with
  | nil => exact Kept.refl s
  | cons p rest ih =>
    have hlevel : Kept s (s.setCore s.newDecisionLevel) := Kept.setCore rfl
    have hrest := @ih (s.setCore s.newDecisionLevel)
    unfold Solver.assume
    split_ifs
    · generalize (s.setCore s.newDecisionLevel).assume rest = o at hrest ⊢
      cases o with
      | all t => exact hlevel.trans hrest
      | decide t p => exact hlevel.trans hrest
      | failed t p => exact hlevel.trans hrest
    · exact Kept.refl s
    · exact Kept.refl s

theorem branch_kept (s : Solver) (i : Input) : OutcomeKept s (s.branch i) := by
  have hassume := @assume_kept s (s.assumptions.drop s.decisionLevel)
  unfold Solver.branch
  cases hresult : s.assume (s.assumptions.drop s.decisionLevel) with
  | failed t p =>
    rw [hresult] at hassume
    exact ⟨hassume.nVars, hassume.decision, hassume.assumptions⟩
  | decide t p =>
    rw [hresult] at hassume
    exact ⟨hassume.nVars, hassume.decision, hassume.assumptions⟩
  | all t =>
    rw [hresult] at hassume
    dsimp only
    generalize t.pickBranchVar i = r
    obtain ⟨next, heap⟩ := r
    cases next with
    | none => exact ⟨hassume.nVars, hassume.decision, hassume.assumptions⟩
    | some v => exact ⟨hassume.nVars, hassume.decision, hassume.assumptions⟩

theorem reduce_branch_kept (s : Solver) (i : Input) :
    OutcomeKept s ((if i.reduce then s.reduceDB i else s).branch i) := by
  split_ifs
  · exact (branch_kept _ i).of_kept (Kept.reduceDB s i)
  · exact branch_kept s i

theorem noConflict_kept (s : Solver) (i : Input) : OutcomeKept s (s.noConflict i) := by
  unfold Solver.noConflict
  by_cases hstop : i.stop = true
  · rw [if_pos hstop]
    split_ifs
    · exact Kept.cancelUntil s 0
    · exact Kept.cancelUntil s 0
  rw [if_neg hstop]
  by_cases hlevel : s.decisionLevel = 0
  · have hsimplify := Kept.simplify s i
    rw [if_pos hlevel]
    dsimp only
    by_cases hgo : (s.simplify i).2 = true
    · rw [if_pos hgo]
      exact (reduce_branch_kept _ i).of_kept hsimplify
    · rw [if_neg hgo]
      exact hsimplify
  · rw [if_neg hlevel]
    exact reduce_branch_kept s i

theorem onConflict_kept (s : Solver) (confl : ℕ) : OutcomeKept s (s.onConflict confl) := by
  unfold Solver.onConflict
  split_ifs
  · exact Kept.refl s
  · cases analyze s.toCore s.seen s.ccminMode confl with
    | none => trivial
    | some a =>
      have hseen : Kept s { s with seen := a.seen } := ⟨rfl, rfl, rfl⟩
      have hback := hseen.trans (Kept.cancelUntil _ a.btlevel)
      dsimp only
      cases hlearn : (Solver.cancelUntil { s with seen := a.seen } a.btlevel).learn a.learnt with
      | none => trivial
      | some t => exact hback.trans (Kept.learn hlearn)

theorem turn_kept (s : Solver) (i : Input) : OutcomeKept s (s.turn i) := by
  have himports := Kept.importAll s i
  unfold Solver.turn
  dsimp only
  generalize s.importAll i = t at himports ⊢
  have hvars := @nVars_propagateLoop t.toCore (t.nVars + 1) none
  unfold Core.propagate
  generalize propagateLoop (t.nVars + 1) t.toCore none = r at hvars ⊢
  obtain ⟨c, confl⟩ := r
  have hnext := himports.trans (Kept.setCore hvars)
  cases confl with
  | some cr => exact (onConflict_kept _ cr).of_kept hnext
  | none => exact (noConflict_kept _ i).of_kept hnext

/-- The solver after the outcome of a turn, as the machine goes on with it. -/
theorem kept_after {x : State} {o : Solver.Outcome} (h : OutcomeKept s o)
    (hx : x.solver = s) : Kept s (x.after o).solver := by
  cases o with
  | next t => exact h
  | learnt t c => exact h
  | answer t status => exact h.trans (Kept.finish t status)
  | stuck =>
    subst hx
    exact Kept.refl _

/-! ### The learnt clause -/

theorem onConflict_shape {confl : ℕ} {c : Clause ℕ} (hdatabase : DatabaseOk f g s)
    (hconfl : ConflictOk G s.toCore confl) (h : s.onConflict confl = .learnt t c) :
    c ≠ [] ∧ InRange s.toCore c ∧ (c.map Prod.fst).Nodup := by
  unfold Solver.onConflict at h
  split_ifs at h with hzero
  obtain ⟨p, others, seen, hanalyze, hlearnt, -, -⟩ :=
    analyze_ok hconfl.trail hconfl.reasons hconfl.live hconfl.allFalse hconfl.current
      (Nat.pos_of_ne_zero hzero) hdatabase.seen s.ccminMode
  simp only [hanalyze] at h
  split at h
  · exact absurd h (by simp)
  · obtain ⟨-, rfl⟩ := Solver.Outcome.learnt.inj h
    refine ⟨List.cons_ne_nil p others, fun l hl => ?_, hlearnt.nodup⟩
    -- the negated literals are on the trail
    have hmem : negate l ∈ s.trail := by
      rcases List.mem_cons.mp hl with rfl | hl
      · exact hlearnt.mem
      · exact (hlearnt.lower l hl).1
    exact hconfl.trail.inRange (negate l) hmem

theorem turn_shape (h : SearchingOk (· = false) f g s) {i : Input} (hvalid : i.Valid s.toCore)
    {c : Clause ℕ} (hturn : s.turn i = .learnt t c) :
    c ≠ [] ∧ InRange s.toCore c ∧ (c.map Prod.fst).Nodup := by
  have himports := h.imports hvalid
  have hkept := Kept.importAll s i
  unfold Solver.turn at hturn
  dsimp only at hturn
  generalize s.importAll i = v at himports hkept hturn
  obtain ⟨hf, hresult⟩ := propagateLoop_ok himports.engine
    (show v.nVars < v.nVars + 1 + v.qhead by omega)
  unfold Core.propagate at hturn
  generalize propagateLoop (v.nVars + 1) v.toCore none = r at hf hresult hturn
  obtain ⟨w, confl⟩ := r
  cases confl with
  | none => exact absurd hturn (noConflict_learns _ i c)
  | some cr =>
    have hdatabase :=
      himports.database.of_frame hf himports.engine.trail hresult.trail hresult.reasons
    obtain ⟨hne, hrange, hnodup⟩ := onConflict_shape hdatabase hresult hturn
    refine ⟨hne, fun l hl => ?_, hnodup⟩
    have hlt : l.1 < w.nVars := hrange l hl
    rwa [hf.nVars, hkept.nVars] at hlt

end Painless.MiniSatExports
