import Painless.MiniSatAnswers
import Mathlib.Algebra.Order.BigOperators.Group.List
import Mathlib.Algebra.Order.Ring.Nat

/-!
A search of the MiniSat engine without restarts ends. The entries of the trail are
weighed by their levels, those of lower levels more than all entries of higher ones
together. A decision adds an entry; a conflict removes entries and adds one to a
lower level; nothing else removes entries. So every turn adds to the weight, which
is bounded, whatever is imported, deleted or decided meanwhile.
-/
namespace Painless.MiniSatTermination

open Cnf PartialAssignment MiniSatCore MiniSatTrail MiniSatWatches MiniSatPropagate
open MiniSatAnalyze MiniSatLearnt MiniSatEngine MiniSatSearch MiniSatDatabase MiniSatTurns
open MiniSatRuns MiniSatAnswers
open MiniSatCore.Core
open Transitions (Machine)

/-! ### Weights -/

def weight (B L : ℕ) (ks : List ℕ) : ℕ := (ks.map fun k => B ^ (L - k)).sum

section Weight

variable {B L : ℕ} {ks js : List ℕ}

theorem weight_append : weight B L (ks ++ js) = weight B L ks + weight B L js := by
  unfold weight
  rw [List.map_append, List.sum_append]

theorem weight_le_of_isPrefix (h : ks <+: js) : weight B L ks ≤ weight B L js := by
  obtain ⟨rest, rfl⟩ := h
  rw [weight_append]
  exact Nat.le_add_right _ _

theorem weight_le (hB : 0 < B) {m : ℕ} (h : ∀ k ∈ ks, m ≤ k) :
    weight B L ks ≤ ks.length * B ^ (L - m) := by
  unfold weight
  induction ks with
  | nil => exact Nat.zero_le _
  | cons k rest ih =>
    obtain ⟨hk, hrest⟩ := List.forall_mem_cons.mp h
    have hpow : B ^ (L - k) ≤ B ^ (L - m) := Nat.pow_le_pow_right hB (by omega)
    have hsum := ih hrest
    rw [List.map_cons, List.sum_cons, List.length_cons, Nat.succ_mul]
    omega

/-- Entries of higher levels weigh less than one entry of the level. -/
theorem weight_lt {m : ℕ} (hm : m < L) (hlength : ks.length < B) (h : ∀ k ∈ ks, m < k) :
    weight B L ks < B ^ (L - m) := by
  have hB : 0 < B := Nat.zero_lt_of_lt hlength
  have hpow : 0 < B ^ (L - (m + 1)) := Nat.pow_pos hB
  calc weight B L ks ≤ ks.length * B ^ (L - (m + 1)) := weight_le hB h
    _ < B * B ^ (L - (m + 1)) := Nat.mul_lt_mul_of_pos_right hlength hpow
    _ = B ^ (L - m) := by
      rw [← Nat.pow_succ']
      congr 1
      omega

end Weight

/-! ### Levels -/

def levels (s : Core) : List ℕ := s.trail.map fun l => s.level l.1

/-- Above the levels of the assumptions each level has an entry. -/
def Decided (n : ℕ) (s : Core) : Prop := ∀ i, n ≤ i → i < s.decisionLevel → i + 1 ∈ levels s

/-- Entries are added, and perhaps levels of assumptions. -/
structure Grown (n : ℕ) (s t : Core) : Prop where
  nVars : t.nVars = s.nVars
  kept : levels s <+: levels t
  top : t.decisionLevel ≤ max n s.decisionLevel

section Levels

variable {n : ℕ} {s t u : Core}

theorem Grown.refl (s : Core) : Grown n s s := ⟨rfl, List.prefix_refl _, le_max_right _ _⟩

theorem Grown.trans (h : Grown n s t) (h' : Grown n t u) : Grown n s u where
  nVars := h'.nVars.trans h.nVars
  kept := h.kept.trans h'.kept
  top := h'.top.trans (max_le (le_max_left _ _) h.top)

theorem Grown.decided (h : Grown n s t) (hs : Decided n s) : Decided n t := by
  intro i hi hlt
  refine h.kept.subset (hs i hi ?_)
  have htop := h.top
  omega

theorem Grown.of_frame (h : Frame s t) : Grown n s t := by
  refine ⟨h.nVars, ?_, (h.decisionLevel).le.trans (le_max_right _ _)⟩
  have hsame : levels s = s.trail.map fun l => t.level l.1 :=
    List.map_congr_left fun l hl => (h.level hl).symm
  rw [hsame]
  exact h.trail.map _

theorem Grown.of_cleans (h : Cleans s t) : Grown n s t := by
  refine ⟨h.nVars, ?_, ?_⟩
  · have hsame : levels t = levels s := by
      unfold levels
      rw [h.trail]
      exact List.map_congr_left fun l _ => h.level l.1
    exact ⟨[], by rw [List.append_nil, hsame]⟩
  · unfold Core.decisionLevel
    rw [h.trailLim]
    exact le_max_right _ _

theorem levels_uncheckedEnqueue {p : Literal ℕ} {o : Option ℕ}
    (hp : p.1 ∉ s.trail.map Prod.fst) :
    levels (s.uncheckedEnqueue p o) = levels s ++ [s.decisionLevel] := by
  unfold levels
  show (s.trail ++ [p]).map _ = _
  rw [List.map_append, List.map_singleton, level_uncheckedEnqueue_self]
  congr 1
  refine List.map_congr_left fun l hl => ?_
  have hne : l.1 ≠ p.1 := fun heq => hp (heq ▸ List.mem_map_of_mem hl)
  exact congrArg VarData.level (Function.update_of_ne hne _ _)

theorem Grown.uncheckedEnqueue {p : Literal ℕ} {o : Option ℕ}
    (hp : p.1 ∉ s.trail.map Prod.fst) : Grown n s (s.uncheckedEnqueue p o) := by
  refine ⟨rfl, ?_, le_max_right _ _⟩
  rw [levels_uncheckedEnqueue hp]
  exact List.prefix_append _ _

/-- The level is that of an assumption. -/
theorem Grown.newDecisionLevel (h : s.decisionLevel < n) : Grown n s s.newDecisionLevel := by
  refine ⟨rfl, List.prefix_refl _, ?_⟩
  show (s.trailLim ++ [s.trail.length]).length ≤ _
  rw [List.length_append, List.length_singleton]
  exact le_max_of_le_left h

theorem Decided.le (h : Decided n s) (htrail : TrailOk s) : s.decisionLevel ≤ n + s.nVars := by
  have hsub : (List.range (s.decisionLevel - n)).map (fun i => n + i + 1) ⊆ levels s := by
    intro k hk
    obtain ⟨i, hi, rfl⟩ := List.mem_map.mp hk
    have hlt := List.mem_range.mp hi
    exact h (n + i) (Nat.le_add_right n i) (by omega)
  have hnodup : ((List.range (s.decisionLevel - n)).map fun i => n + i + 1).Nodup := by
    refine List.nodup_range.map fun i j hij => ?_
    have heq : n + i + 1 = n + j + 1 := hij
    omega
  have hlength := (List.subperm_of_subset hnodup hsub).length_le
  rw [List.length_map, List.length_range] at hlength
  have htrailLe := htrail.length_le
  have hlevels : (levels s).length = s.trail.length := List.length_map _
  omega

/-- A decision. -/
theorem decided_decide {p : Literal ℕ} (hs : Decided n s) (hp : p.1 ∉ s.trail.map Prod.fst) :
    Decided n (s.newDecisionLevel.uncheckedEnqueue p none) ∧
      levels (s.newDecisionLevel.uncheckedEnqueue p none) = levels s ++ [s.decisionLevel + 1] := by
  have hnew : s.newDecisionLevel.decisionLevel = s.decisionLevel + 1 := by
    show (s.trailLim ++ [s.trail.length]).length = _
    rw [List.length_append, List.length_singleton]
    rfl
  have hlevels : levels (s.newDecisionLevel.uncheckedEnqueue p none) =
      levels s ++ [s.decisionLevel + 1] := by
    have hstep := levels_uncheckedEnqueue (s := s.newDecisionLevel) (p := p) (o := none) hp
    rw [hstep, hnew]
    rfl
  refine ⟨fun i hi hlt => ?_, hlevels⟩
  rw [hlevels]
  have hlt' : i < s.newDecisionLevel.decisionLevel := hlt
  rw [hnew] at hlt'
  rcases Nat.lt_or_ge i s.decisionLevel with hold | hge
  · exact List.mem_append_left _ (hs i hi hold)
  · have heq : i = s.decisionLevel := by omega
    rw [heq]
    exact List.mem_append_right _ (List.mem_singleton_self _)

/-- The entries that backtracking keeps, and those it takes back. -/
theorem levels_cancelUntil (htrail : TrailOk s) {k : ℕ} (hk : k < s.decisionLevel) :
    ∃ gone, levels s = levels (s.cancelUntil k) ++ gone ∧
      (∀ j ∈ levels (s.cancelUntil k), j ≤ k) ∧ ∀ j ∈ gone, k < j := by
  have hlim : s.trailLim[k]? = some s.trailLim[k] := List.getElem?_eq_getElem hk
  generalize s.trailLim[k] = lim at hlim
  have hkept : levels (s.cancelUntil k) = (s.trail.take lim).map fun l => s.level l.1 := by
    rw [cancelUntil_of_lim hlim]
    rfl
  refine ⟨(s.trail.drop lim).map fun l => s.level l.1, ?_, fun j hj => ?_, fun j hj => ?_⟩
  · rw [hkept, ← List.map_append, List.take_append_drop]
    rfl
  · rw [hkept] at hj
    obtain ⟨l, hl, rfl⟩ := List.mem_map.mp hj
    obtain ⟨i, hi⟩ := List.mem_iff_getElem?.mp hl
    have hlt := (List.getElem?_eq_some_iff.mp hi).1
    rw [List.length_take] at hlt
    rw [List.getElem?_take_of_lt (by omega)] at hi
    exact (htrail.lt_lim_iff hlim hi).mp (by omega)
  · obtain ⟨l, hl, rfl⟩ := List.mem_map.mp hj
    obtain ⟨i, hi⟩ := List.mem_iff_getElem?.mp hl
    rw [List.getElem?_drop] at hi
    by_contra hle
    have hlt := (htrail.lt_lim_iff hlim hi).mpr (not_lt.mp hle)
    omega

/-- Backtracking and an entry of the level that is gone back to. -/
theorem weight_backtrack (htrail : TrailOk s) {k B L : ℕ} (hk : k < s.decisionLevel)
    (hL : s.decisionLevel ≤ L) (hB : s.nVars < B) :
    weight B L (levels s) < weight B L (levels (s.cancelUntil k) ++ [k]) := by
  obtain ⟨gone, hsplit, -, hgone⟩ := levels_cancelUntil htrail hk
  have hlength : gone.length < B := by
    have htotal := congrArg List.length hsplit
    have htrailLe := htrail.length_le
    have hlevels : (levels s).length = s.trail.length := List.length_map _
    rw [List.length_append] at htotal
    omega
  have hless := weight_lt (hk.trans_le hL) hlength hgone
  rw [hsplit, weight_append, weight_append]
  have hone : weight B L [k] = B ^ (L - k) := by
    unfold weight
    rw [List.map_singleton, List.sum_singleton]
  omega

theorem Decided.cancelUntil (h : Decided n s) (htrail : TrailOk s) (k : ℕ) :
    Decided n (s.cancelUntil k) := by
  rcases Nat.lt_or_ge k s.decisionLevel with hlt | hge
  · obtain ⟨gone, hsplit, -, hgone⟩ := levels_cancelUntil htrail hlt
    intro i hi hilt
    unfold Core.decisionLevel at hilt
    rw [cancelUntil_trailLim, List.length_take] at hilt
    have hik : i < k := lt_of_lt_of_le hilt (min_le_left _ _)
    have hmem := h i hi (hik.trans hlt)
    rw [hsplit] at hmem
    refine (List.mem_append.mp hmem).resolve_right fun hin => ?_
    have hgt := hgone _ hin
    omega
  · rw [cancelUntil_of_le hge]
    exact h

end Levels

/-! ### A turn -/

/-- Whatever the turn has done, the weight has grown. -/
structure Advances (n : ℕ) (s t : Solver) : Prop where
  nVars : t.nVars = s.nVars
  assumptions : t.assumptions = s.assumptions
  decided : Decided n t.toCore
  weight : ∀ B L, s.nVars < B → n + s.nVars ≤ L →
    weight B L (levels s.toCore) < weight B L (levels t.toCore)

/-- The search ends with l_True or l_False, or the weight has grown. -/
def Progress (n : ℕ) (s : Solver) : Solver.Outcome → Prop
  | .next t => Advances n s t
  | .learnt t _ => Advances n s t
  | .answer _ status => status ≠ none
  | .stuck => True

section Turn

variable {n : ℕ} {G : Bool → Prop} {f g : Formula ℕ} {s t : Solver}

theorem Progress.of_grown (hgrown : Grown n s.toCore t.toCore)
    (hassumptions : t.assumptions = s.assumptions) {o : Solver.Outcome} (h : Progress n t o) :
    Progress n s o := by
  have hadvances {u : Solver} (hu : Advances n t u) : Advances n s u := by
    refine ⟨hu.nVars.trans hgrown.nVars, hu.assumptions.trans hassumptions, hu.decided,
      fun B L hB hL => ?_⟩
    refine (weight_le_of_isPrefix hgrown.kept).trans_lt (hu.weight B L ?_ ?_)
    · rw [hgrown.nVars]
      exact hB
    · rw [hgrown.nVars]
      exact hL
  cases o with
  | next u => exact hadvances h
  | learnt u c => exact hadvances h
  | answer u status => exact h
  | stuck => trivial

theorem notMem_of_unassigned (htrail : TrailOk s.toCore) {v : ℕ} (hv : s.assigns v = none) :
    v ∉ s.trail.map Prod.fst := (htrail.unassigned_iff v).mp hv

theorem importUnitClauses_grown {units : List (Literal ℕ)}
    (hfree : ∀ v, s.assigns v = none → v ∉ s.trail.map Prod.fst) :
    Grown n s.toCore (s.importUnitClauses units).toCore ∧
      (s.importUnitClauses units).assumptions = s.assumptions := by
  induction units generalizing s with
  | nil => exact ⟨Grown.refl _, rfl⟩
  | cons l rest ih =>
    unfold Solver.importUnitClauses
    split_ifs with hl
    · have hnext : ∀ v, (s.toCore.uncheckedEnqueue l none).assigns v = none →
          v ∉ (s.toCore.uncheckedEnqueue l none).trail.map Prod.fst := by
        intro v hv hmem
        have hv' : Function.update s.assigns l.1 (some l.2) v = none := hv
        rw [Function.update_apply] at hv'
        split_ifs at hv' with hne
        rcases List.mem_map.mp hmem with ⟨q, hq, hvar⟩
        rcases List.mem_append.mp hq with hold | hnew
        · exact hfree v hv' (hvar ▸ List.mem_map_of_mem hold)
        · rw [List.mem_singleton.mp hnew] at hvar
          exact hne hvar.symm
      obtain ⟨hgrown, hassumptions⟩ := @ih (s.setCore (s.toCore.uncheckedEnqueue l none)) hnext
      exact ⟨(Grown.uncheckedEnqueue (hfree l.1 hl)).trans hgrown, hassumptions⟩
    · exact ih hfree

theorem importClauses_grown (queue : List (Literal ℕ × Literal ℕ × Clause ℕ)) :
    Grown n s.toCore (s.importClauses queue).toCore ∧
      (s.importClauses queue).assumptions = s.assumptions := by
  induction queue generalizing s with
  | nil => exact ⟨Grown.refl _, rfl⟩
  | cons c rest ih =>
    obtain ⟨a, b, others⟩ := c
    obtain ⟨hgrown, hassumptions⟩ := @ih { s with
      toCore := s.allocAttach a b others true (s.falseWatch a b)
      learnts := s.learnts ++ [s.caSize] }
    have hfirst : Grown n s.toCore (s.allocAttach a b others true (s.falseWatch a b)) :=
      ⟨rfl, List.prefix_refl _, le_max_right _ _⟩
    exact ⟨hfirst.trans hgrown, hassumptions⟩

theorem importAll_grown (htrail : TrailOk s.toCore) (i : Input) :
    Grown n s.toCore (s.importAll i).toCore ∧ (s.importAll i).assumptions = s.assumptions := by
  unfold Solver.importAll
  split_ifs
  · obtain ⟨hunits, hassumptions⟩ :=
      @importUnitClauses_grown n s i.units fun v hv => notMem_of_unassigned htrail hv
    obtain ⟨hclauses, hassumptions'⟩ :=
      @importClauses_grown n (s.importUnitClauses i.units) i.imports
    exact ⟨hunits.trans hclauses, hassumptions'.trans hassumptions⟩
  · exact ⟨Grown.refl _, rfl⟩

/-- The learnt clause adds its first literal at the level that is gone back to. -/
theorem onConflict_progress {confl : ℕ} (hdecided : Decided n s.toCore)
    (hseen : ∀ v, s.seen v = .undef) (hconfl : ConflictOk G s.toCore confl) :
    Progress n s (s.onConflict confl) := by
  unfold Solver.onConflict
  split_ifs with hzero
  · exact Option.some_ne_none false
  have htrail := hconfl.trail
  obtain ⟨p, others, seen, hanalyze, hlearnt, -, -⟩ :=
    analyze_ok htrail hconfl.reasons hconfl.live hconfl.allFalse hconfl.current
      (Nat.pos_of_ne_zero hzero) hseen s.ccminMode
  obtain ⟨hp, -, hlevel⟩ := learnt_after_backtrack htrail hlearnt
  rw [hanalyze]
  dsimp only
  generalize hk : backtrackLevel s.toCore others = k at hp hlevel ⊢
  have hlt : k < s.decisionLevel := hk ▸ hlearnt.backtrack
  have hfresh : p.1 ∉ (s.toCore.cancelUntil k).trail.map Prod.fst :=
    ((htrail.cancelUntil k).unassigned_iff p.1).mp hp
  have hback := hdecided.cancelUntil htrail k
  -- the core after the clause has been allocated differs in its clauses only
  have hadvances (u : Solver) (c : Core) (o : Option ℕ) (hu : u.toCore = c.uncheckedEnqueue p o)
      (hassumptions : u.assumptions = s.assumptions) (hvars : c.nVars = s.nVars)
      (hsame : Grown n (s.toCore.cancelUntil k) c) (hlevels : levels c =
        levels (s.toCore.cancelUntil k)) (hlims : c.decisionLevel = k)
      (hfree : p.1 ∉ c.trail.map Prod.fst) : Advances n s u := by
    refine ⟨?_, hassumptions, ?_, fun B L hB hL => ?_⟩
    · rw [hu]
      exact hvars
    · rw [hu]
      exact (Grown.uncheckedEnqueue hfree).decided (hsame.decided hback)
    · rw [hu, levels_uncheckedEnqueue hfree, hlevels, hlims]
      exact weight_backtrack htrail hlt ((hdecided.le htrail).trans hL) hB
  have hvars : (s.toCore.cancelUntil k).nVars = s.nVars := cancelUntil_nVars
  cases others with
  | nil =>
    exact hadvances _ (s.toCore.cancelUntil k) none rfl rfl hvars (Grown.refl _) rfl hlevel hfresh
  | cons q rest =>
    exact hadvances _ ((s.toCore.cancelUntil k).allocAttach p q rest true false) _ rfl rfl hvars
      ⟨rfl, List.prefix_refl _, le_max_right _ _⟩ rfl hlevel hfresh

theorem decide_progress {heap : List ℕ} {p : Literal ℕ} (hdecided : Decided n s.toCore)
    (htrail : TrailOk s.toCore) (hp : s.assigns p.1 = none) :
    Advances n s (({ s with heap := heap } : Solver).decide p) := by
  obtain ⟨hnext, hlevels⟩ := decided_decide hdecided (notMem_of_unassigned htrail hp)
  refine ⟨rfl, rfl, hnext, fun B L hB _ => ?_⟩
  show weight B L (levels s.toCore) <
    weight B L (levels (s.newDecisionLevel.uncheckedEnqueue p none))
  have hpow : 0 < B ^ (L - (s.decisionLevel + 1)) := Nat.pow_pos (Nat.zero_lt_of_lt hB)
  have hone : weight B L [s.decisionLevel + 1] = B ^ (L - (s.decisionLevel + 1)) := by
    unfold MiniSatTermination.weight
    rw [List.map_singleton, List.sum_singleton]
  rw [hlevels, weight_append]
  omega

/-- Before the next decision only levels of assumptions are added. -/
theorem assume_grown {rest : List (Literal ℕ)}
    (hrest : s.assumptions.drop s.decisionLevel = rest) :
    match s.assume rest with
    | .all t => Grown s.assumptions.length s.toCore t.toCore ∧ t.assumptions = s.assumptions
    | .decide t _ => Grown s.assumptions.length s.toCore t.toCore ∧ t.assumptions = s.assumptions
    | .failed _ _ => True := by
  induction rest generalizing s with
  | nil => exact ⟨Grown.refl _, rfl⟩
  | cons p rest ih =>
    have hlt : s.decisionLevel < s.assumptions.length := by
      by_contra hge
      rw [List.drop_eq_nil_of_le (not_lt.mp hge)] at hrest
      exact List.cons_ne_nil _ _ hrest.symm
    have hnext : s.assumptions.drop (s.decisionLevel + 1) = rest := by
      have htail := congrArg List.tail hrest
      rwa [List.tail_drop] at htail
    unfold Solver.assume
    split_ifs
    · have hlater := @ih (s.setCore s.newDecisionLevel) (by
        show s.assumptions.drop (s.trailLim ++ [s.trail.length]).length = rest
        rw [List.length_append, List.length_singleton]
        exact hnext)
      have hfirst : Grown s.assumptions.length s.toCore (s.setCore s.newDecisionLevel).toCore :=
        Grown.newDecisionLevel hlt
      generalize (s.setCore s.newDecisionLevel).assume rest = r at hlater ⊢
      cases r with
      | all t => exact ⟨hfirst.trans hlater.1, hlater.2⟩
      | decide t q => exact ⟨hfirst.trans hlater.1, hlater.2⟩
      | failed t q => trivial
    · trivial
    · exact ⟨Grown.refl _, rfl⟩

theorem branch_progress (h : SearchingOk G f g s) (hdone : s.qhead = s.trail.length)
    (hn : n = s.assumptions.length) (hdecided : Decided n s.toCore) (i : Input) :
    Progress n s (s.branch i) := by
  have hassume := assume_ok h hdone rfl
  have hgrown := @assume_grown s _ rfl
  subst hn
  unfold Solver.branch
  cases hresult : s.assume (s.assumptions.drop s.decisionLevel) with
  | failed t p => exact Option.some_ne_none false
  | decide t p =>
    rw [hresult] at hassume hgrown
    obtain ⟨ht, -, -, hnone⟩ := hassume
    obtain ⟨hgrown, hassumptions⟩ := hgrown
    refine Progress.of_grown hgrown hassumptions ?_
    exact decide_progress (hgrown.decided hdecided) ht.engine.trail hnone
  | all t =>
    rw [hresult] at hassume hgrown
    obtain ⟨ht, -, -⟩ := hassume
    obtain ⟨hgrown, hassumptions⟩ := hgrown
    obtain ⟨-, hpick⟩ := pickBranchVar_spec t i
    dsimp only
    generalize t.pickBranchVar i = r at hpick ⊢
    obtain ⟨next, heap⟩ := r
    cases next with
    | none => exact Option.some_ne_none true
    | some v =>
      obtain ⟨-, -, hnone, -⟩ := hpick
      refine Progress.of_grown hgrown hassumptions ?_
      exact decide_progress (hgrown.decided hdecided) ht.engine.trail hnone

theorem simplify_grown (h : SearchingOk G f g s) (hlevel : s.decisionLevel = 0) (i : Input)
    (hresult : (s.simplify i).2 = true) :
    Grown n s.toCore (s.simplify i).1.toCore ∧ (s.simplify i).1.assumptions = s.assumptions := by
  obtain ⟨hf, hdone⟩ := propagateLoop_ok h.engine
    (show s.nVars < s.nVars + 1 + s.qhead by omega)
  have hok : ¬ s.ok = false := by
    rw [h.assumed.ok]
    simp
  revert hresult
  unfold Solver.simplify Core.propagate
  rw [if_neg hok]
  dsimp only
  generalize propagateLoop (s.nVars + 1) s.toCore none = r at hf hdone ⊢
  obtain ⟨t, confl⟩ := r
  have hlevel' : t.decisionLevel = 0 := hf.decisionLevel.trans hlevel
  have hfirst : Grown n s.toCore t := Grown.of_frame hf
  intro hresult
  cases confl with
  | some cr => exact absurd (show false = true from hresult) (by simp)
  | none =>
    obtain ⟨hengine, -⟩ := hdone
    have hdatabase := h.database.of_frame hf h.engine.trail hengine.trail hengine.reasons
    dsimp only
    split_ifs
    · have hlist := removeSatisfied_ok hengine hlevel' hdatabase.nodup hdatabase.learnts
      exact ⟨hfirst.trans (Grown.of_cleans hlist.cleans), rfl⟩
    · exact ⟨hfirst, rfl⟩

theorem reduceDB_grown (h : SearchingOk G f g s) (i : Input) :
    Grown n s.toCore (s.reduceDB i).toCore := by
  have hperm := i.sort_perm s.learnts
  have hlist := reduceDB_ok h.engine i.drop (hperm.nodup_iff.mpr h.database.nodup)
    fun cr hcr => h.database.learnts cr (hperm.mem_iff.mp hcr)
  exact Grown.of_cleans hlist.cleans

theorem reduce_branch_progress (h : SearchingOk G f g s) (hdone : s.qhead = s.trail.length)
    (hn : n = s.assumptions.length) (hdecided : Decided n s.toCore) (i : Input) :
    Progress n s ((if i.reduce then s.reduceDB i else s).branch i) := by
  split_ifs
  · obtain ⟨hnext, hdone'⟩ := h.reduceDB hdone i
    have hgrown : Grown n s.toCore (s.reduceDB i).toCore := reduceDB_grown h i
    exact Progress.of_grown hgrown rfl
      (branch_progress hnext hdone' hn (hgrown.decided hdecided) i)
  · exact branch_progress h hdone hn hdecided i

theorem noConflict_progress (h : SearchingOk G f g s) (hdone : s.qhead = s.trail.length)
    (hn : n = s.assumptions.length) (hdecided : Decided n s.toCore) {i : Input}
    (hstop : i.stop = false) : Progress n s (s.noConflict i) := by
  have hgo : ¬ i.stop = true := by
    rw [hstop]
    simp
  unfold Solver.noConflict
  rw [if_neg hgo]
  by_cases hlevel : s.decisionLevel = 0
  · have hsimplify := simplify_ok h hlevel i
    rw [if_pos hlevel]
    dsimp only
    by_cases hresult : (s.simplify i).2 = true
    · rw [if_pos hresult] at hsimplify ⊢
      obtain ⟨hgrown, hassumptions⟩ :=
        @simplify_grown n G f g s h hlevel i hresult
      refine Progress.of_grown hgrown hassumptions ?_
      refine reduce_branch_progress hsimplify.1 hsimplify.2 ?_ (hgrown.decided hdecided) i
      rw [hassumptions]
      exact hn
    · rw [if_neg hresult]
      exact Option.some_ne_none false
  · rw [if_neg hlevel]
    exact reduce_branch_progress h hdone hn hdecided i

/-- A turn imports and propagates, and then there is a conflict or none. -/
theorem turn_cases (h : SearchingOk (· = false) f g s) {i : Input} (hvalid : i.Valid s.toCore) :
    ∃ u : Solver, (∀ n, Grown n s.toCore u.toCore) ∧ u.assumptions = s.assumptions ∧
      ((∃ confl, s.turn i = u.onConflict confl ∧ ConflictOk (· = false) u.toCore confl ∧
          ∀ v, u.seen v = .undef) ∨
        s.turn i = u.noConflict i ∧ SearchingOk (· = false) f (g ++ i.imported s.toCore) u ∧
          u.qhead = u.trail.length) := by
  have himports := h.imports hvalid
  have hgrown (n : ℕ) := @importAll_grown n s h.engine.trail i
  unfold Solver.turn
  dsimp only
  generalize s.importAll i = t at himports hgrown ⊢
  obtain ⟨hf, hresult⟩ := propagateLoop_ok himports.engine
    (show t.nVars < t.nVars + 1 + t.qhead by omega)
  unfold Core.propagate
  generalize propagateLoop (t.nVars + 1) t.toCore none = r at hf hresult ⊢
  obtain ⟨u, confl⟩ := r
  have hframe (n : ℕ) : Grown n s.toCore (t.setCore u).toCore :=
    (hgrown n).1.trans (Grown.of_frame hf)
  refine ⟨t.setCore u, hframe, (hgrown 0).2, ?_⟩
  cases confl with
  | some cr => exact Or.inl ⟨cr, rfl, hresult, himports.database.seen⟩
  | none =>
    obtain ⟨hengine, hdone⟩ := hresult
    refine Or.inr ⟨rfl, ⟨hengine, ?_, himports.assumed.of_frame hf⟩, hdone⟩
    exact himports.database.of_frame hf himports.engine.trail hengine.trail hengine.reasons

/-- A turn that does not end the search adds to the weight. -/
theorem turn_progress (h : SearchingOk (· = false) f g s)
    (hdecided : Decided s.assumptions.length s.toCore) {i : Input} (hvalid : i.Valid s.toCore)
    (hstop : i.stop = false) : Progress s.assumptions.length s (s.turn i) := by
  obtain ⟨u, hgrown, hassumptions, hcases⟩ := turn_cases h hvalid
  refine Progress.of_grown (hgrown _) hassumptions ?_
  have hdecided' := (hgrown _).decided hdecided
  rcases hcases with ⟨confl, hturn, hconfl, hseen⟩ | ⟨hturn, hnext, hdone⟩
  · rw [hturn]
    exact onConflict_progress hdecided' hseen hconfl
  · rw [hturn]
    exact noConflict_progress hnext hdone (congrArg List.length hassumptions).symm hdecided' hstop

/-- A clause is learnt at a lower level. -/
theorem onConflict_level {confl : ℕ} (hconfl : ConflictOk G s.toCore confl)
    (hseen : ∀ v, s.seen v = .undef) {c : Clause ℕ} (h : s.onConflict confl = .learnt t c) :
    t.decisionLevel < s.decisionLevel := by
  unfold Solver.onConflict at h
  split_ifs at h with hzero
  obtain ⟨p, others, seen, hanalyze, hlearnt, -, -⟩ :=
    analyze_ok hconfl.trail hconfl.reasons hconfl.live hconfl.allFalse hconfl.current
      (Nat.pos_of_ne_zero hzero) hseen s.ccminMode
  obtain ⟨-, -, hlevel⟩ := learnt_after_backtrack hconfl.trail hlearnt
  rw [hanalyze] at h
  have hlt : (s.toCore.cancelUntil (backtrackLevel s.toCore others)).decisionLevel <
      s.decisionLevel := hlevel.trans_lt hlearnt.backtrack
  cases others with
  | nil =>
    obtain ⟨rfl, -⟩ := Solver.Outcome.learnt.inj h
    exact hlt
  | cons q rest =>
    obtain ⟨rfl, -⟩ := Solver.Outcome.learnt.inj h
    exact hlt

theorem turn_level (h : SearchingOk (· = false) f g s) {i : Input} (hvalid : i.Valid s.toCore)
    {c : Clause ℕ} (hturn : s.turn i = .learnt t c) : t.decisionLevel < s.decisionLevel := by
  obtain ⟨u, hgrown, -, ⟨confl, hsame, hconfl, hseen⟩ | ⟨hsame, -, -⟩⟩ := turn_cases h hvalid
  · have hlt := onConflict_level hconfl hseen (hsame.symm.trans hturn)
    have htop : u.decisionLevel ≤ max 0 s.decisionLevel := (hgrown 0).top
    omega
  · exact absurd (hsame.symm.trans hturn) (noConflict_learns u i c)

theorem decided_of_level_zero {c : Core} (h : c.decisionLevel = 0) : Decided n c := by
  intro i _ hi
  rw [h] at hi
  exact absurd hi (Nat.not_lt_zero i)

def DecidedAfter : Solver.Outcome → Prop
  | .next t => Decided t.assumptions.length t.toCore
  | .learnt t _ => Decided t.assumptions.length t.toCore
  | _ => True

theorem Progress.decidedAfter {o : Solver.Outcome} (h : Progress s.assumptions.length s o) :
    DecidedAfter o := by
  have hnext {t : Solver} (ht : Advances s.assumptions.length s t) :
      Decided t.assumptions.length t.toCore := by
    rw [ht.assumptions]
    exact ht.decided
  cases o with
  | next t => exact hnext h
  | learnt t c => exact hnext h
  | answer t status => trivial
  | stuck => trivial

/-- The levels above the assumptions stay decided, also after a restart. -/
theorem turn_decided (h : SearchingOk (· = false) f g s)
    (hdecided : Decided s.assumptions.length s.toCore) {i : Input} (hvalid : i.Valid s.toCore) :
    DecidedAfter (s.turn i) := by
  cases hstop : i.stop with
  | false => exact (turn_progress h hdecided hvalid hstop).decidedAfter
  | true =>
    obtain ⟨u, hgrown, hassumptions, hcases⟩ := turn_cases h hvalid
    rcases hcases with ⟨confl, hturn, hconfl, hseen⟩ | ⟨hturn, -, -⟩
    · rw [hturn]
      refine Progress.decidedAfter (Progress.of_grown (hgrown _) hassumptions ?_)
      exact onConflict_progress ((hgrown _).decided hdecided) hseen hconfl
    · rw [hturn]
      unfold Solver.noConflict
      rw [if_pos hstop]
      cases i.interrupted with
      | true => trivial
      | false => exact decided_of_level_zero (decisionLevel_cancelUntil u.toCore)

end Turn

/-! ### Runs -/

section Runs

variable {s t : State}

/-- The number of turns that a search without restarts takes at most. -/
def turnBound (s : Solver) : ℕ :=
  s.nVars * (s.nVars + 1) ^ (s.assumptions.length + s.nVars) + 1

def reachWeight (s : Solver) : ℕ :=
  weight (s.nVars + 1) (s.assumptions.length + s.nVars) (levels s.toCore)

theorem reachWeight_le {s : Solver} (htrail : TrailOk s.toCore) :
    reachWeight s + 1 ≤ turnBound s := by
  unfold reachWeight turnBound
  have hweight := weight_le (L := s.assumptions.length + s.nVars) (m := 0)
    (Nat.succ_pos s.nVars) fun k (_ : k ∈ levels s.toCore) => Nat.zero_le k
  have hlevels : (levels s.toCore).length = s.trail.length := List.length_map _
  rw [hlevels, Nat.sub_zero] at hweight
  exact Nat.succ_le_succ (hweight.trans (Nat.mul_le_mul_right _ htrail.length_le))

theorem turnBound_congr {s t : Solver} (hnVars : t.nVars = s.nVars)
    (hassumptions : t.assumptions = s.assumptions) : turnBound t = turnBound s := by
  unfold turnBound
  rw [hnVars, hassumptions]

theorem reachWeight_lt_of_advances {s t : Solver} (h : Advances s.assumptions.length s t) :
    reachWeight s < reachWeight t := by
  unfold reachWeight
  rw [h.nVars, h.assumptions]
  exact h.weight _ _ (Nat.lt_succ_self _) le_rfl

theorem decided_of_reach (h : machine.Reach (fun _ _ => True) s) (hpc : s.pc = .searching) :
    Decided s.solver.assumptions.length s.solver.toCore := by
  revert hpc
  refine Machine.Reach.invariant
    (fun s => s.pc = .searching → Decided s.solver.assumptions.length s.solver.toCore) ?_ ?_ h
  · rintro s ⟨ccminMode, rfl⟩ hpc
    exact Pc.noConfusion hpc
  · intro s a t hreach hdecided _ hstep hpc
    have hstate := stateOk_of_reach hreach
    have hstep : step s a = some t := hstep
    cases a with
    | newVar dvar =>
      obtain ⟨hidle, rfl⟩ : s.pc = .idle ∧ _ = t := by
        simpa [step] using hstep
      exact Pc.noConfusion (hidle.symm.trans hpc)
    | addClause ps =>
      obtain ⟨⟨hidle, -⟩, rfl⟩ : (s.pc = .idle ∧ InRange s.solver.toCore ps) ∧ _ = t := by
        simpa [step] using hstep
      exact Pc.noConfusion (hidle.symm.trans hpc)
    | solve assumps =>
      obtain ⟨⟨hidle, -⟩, rfl⟩ : (s.pc = .idle ∧ InRange s.solver.toCore assumps) ∧ _ = t := by
        simpa [step] using hstep
      have hlevel : s.solver.decisionLevel = 0 := (hstate.idle hidle).level
      unfold State.solve
      dsimp only
      split_ifs <;> exact decided_of_level_zero hlevel
    | turn i =>
      obtain ⟨⟨hsearching, hvalid⟩, rfl⟩ :
          (s.pc = .searching ∧ i.Valid s.solver.toCore) ∧ _ = t := by
        simpa [step] using hstep
      have hnext := turn_decided (hstate.searching hsearching) (hdecided hsearching) hvalid
      generalize s.solver.turn i = o at hnext hpc ⊢
      cases o with
      | next u => exact hnext
      | learnt u c => exact hnext
      | answer u status => exact Pc.noConfusion hpc
      | stuck => exact Pc.noConfusion hpc

/-- The turns of a search, where `next` says what each of them gets from outside;
`fuel` bounds them. -/
def search (next : State → Input) : ℕ → State → Option State
  | 0, s => some s
  | fuel + 1, s =>
    if s.pc = .searching then (step s (.turn (next s))).bind (search next fuel) else some s

/-- A turn without a restart ends the search or adds to the weight. -/
theorem step_turn (h : machine.Reach (fun _ _ => True) s) (hpc : s.pc = .searching) {i : Input}
    (hvalid : i.Valid s.solver.toCore) (hstop : i.stop = false) :
    ∃ t, step s (.turn i) = some t ∧
      ((t.pc = .idle ∧ ∃ b, t.answer = some (some b)) ∨
        t.pc = .searching ∧ Advances s.solver.assumptions.length s.solver t.solver) := by
  have hsearching := (stateOk_of_reach h).searching hpc
  have hok := turn_ok hsearching hvalid
  have hprogress := turn_progress hsearching (decided_of_reach h hpc) hvalid hstop
  refine ⟨_, if_pos ⟨hpc, hvalid⟩, ?_⟩
  generalize s.solver.turn i = o at hok hprogress ⊢
  cases o with
  | next u => exact Or.inr ⟨hpc, hprogress⟩
  | learnt u c => exact Or.inr ⟨hpc, hprogress⟩
  | answer u status =>
    obtain ⟨b, rfl⟩ := Option.ne_none_iff_exists'.mp hprogress
    exact Or.inl ⟨rfl, b, rfl⟩
  | stuck => exact hok.elim

theorem search_answers {next : State → Input} (h : machine.Reach (fun _ _ => True) s)
    (hpc : s.pc = .searching) (hvalid : ∀ s, (next s).Valid s.solver.toCore)
    (hstop : ∀ s, (next s).stop = false) {fuel : ℕ}
    (hfuel : turnBound s.solver ≤ fuel + reachWeight s.solver) :
    ∃ t, search next fuel s = some t ∧ t.pc = .idle ∧ ∃ b, t.answer = some (some b) := by
  induction fuel generalizing s with
  | zero =>
    have hle := reachWeight_le ((stateOk_of_reach h).searching hpc).engine.trail
    omega
  | succ fuel ih =>
    unfold search
    rw [if_pos hpc]
    obtain ⟨t, hstep, hcases⟩ := step_turn h hpc (hvalid s) (hstop s)
    rw [hstep, Option.bind_some]
    rcases hcases with ⟨hidle, b, hanswer⟩ | ⟨hnext, hadvances⟩
    · refine ⟨t, ?_, hidle, b, hanswer⟩
      have hdone : ¬ t.pc = .searching := by
        rw [hidle]
        exact Pc.noConfusion
      cases fuel with
      | zero => rfl
      | succ fuel =>
        unfold search
        rw [if_neg hdone]
    · have hreach : machine.Reach (fun _ _ => True) t :=
        .step h trivial (show machine.step s (.turn (next s)) = some t from hstep)
      refine ih hreach hnext ?_
      have hweight := reachWeight_lt_of_advances hadvances
      rw [turnBound_congr hadvances.nVars hadvances.assumptions]
      omega

/-- Whatever is imported, deleted and decided, a search without restarts ends with
l_True or l_False. -/
theorem search_ends_of_reach (h : machine.Reach (fun _ _ => True) s) (hpc : s.pc = .searching)
    (next : State → Input) (hvalid : ∀ s, (next s).Valid s.solver.toCore)
    (hstop : ∀ s, (next s).stop = false) :
    ∃ t, search next (turnBound s.solver) s = some t ∧ t.pc = .idle ∧
      ∃ b, t.answer = some (some b) :=
  search_answers h hpc hvalid hstop (Nat.le_add_right _ _)

theorem search_ends_of_reach_decided :
    ∃ t, search (fun _ => plainTurn false) (turnBound decided.solver) decided = some t ∧
      t.pc = .idle ∧ ∃ b, t.answer = some (some b) :=
  search_ends_of_reach decided_reach (by decide +kernel) (fun _ => plainTurn false)
    (fun _ => ⟨fun l hl => absurd hl List.not_mem_nil, fun c hc => absurd hc List.not_mem_nil⟩)
    fun _ => rfl

end Runs

end Painless.MiniSatTermination
