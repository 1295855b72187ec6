import Painless.MiniSatDatabase

/-!
A turn of the MiniSat search keeps the invariants. The decisions of the first
levels are the assumptions, one for each level, so a final conflict names only
assumptions; when no variable is left to decide, the trail satisfies the clauses
that were added.
-/
namespace Painless.MiniSatTurns

open Cnf PartialAssignment ImplicationGraph MiniSatCore MiniSatTrail MiniSatWatches
open MiniSatPropagate MiniSatAnalyze MiniSatLearnt MiniSatFinal MiniSatEngine MiniSatSearch
open MiniSatDatabase
open MiniSatCore.Core

/-- The decision of each of the first levels is the assumption of that level,
unless it was true before. -/
structure AssumedOk (s : Solver) : Prop where
  decided : ∀ l ∈ s.trail, s.reason l.1 = none → 0 < s.level l.1 →
    s.level l.1 ≤ s.assumptions.length → s.assumptions[s.level l.1 - 1]? = some l
  taken : ∀ i p, i < s.decisionLevel → s.assumptions[i]? = some p →
    p ∈ s.trail ∧ s.level p.1 ≤ i + 1
  inRange : InRange s.toCore s.assumptions
  ok : s.ok = true
  conflict : s.conflict = []

/-- The search goes on. -/
structure SearchingOk (G : Bool → Prop) (f g : Formula ℕ) (s : Solver) : Prop where
  engine : EngineOk G s.toCore
  database : DatabaseOk f g s
  assumed : AssumedOk s

variable {G : Bool → Prop} {f g : Formula ℕ} {s : Solver}

/-! ### The assumptions -/

theorem AssumedOk.of_frame (h : AssumedOk s) {t : Core} (hf : Frame s.toCore t) :
    AssumedOk (s.setCore t) := by
  refine ⟨fun l hl hreason hpos hle => ?_, fun i p hi hp => ?_, fun p hp => ?_, h.ok, h.conflict⟩
  · rcases hf.implied l hl with hold | hnew
    · have hlevel : t.level l.1 = s.level l.1 := hf.level hold
      have hpos' : 0 < s.level l.1 := hlevel ▸ hpos
      have hle' : s.level l.1 ≤ s.assumptions.length := hlevel ▸ hle
      show s.assumptions[t.level l.1 - 1]? = some l
      rw [hlevel]
      exact h.decided l hold ((hf.reason hold).symm.trans hreason) hpos' hle'
    · exact absurd hreason hnew
  · have hi' : i < t.decisionLevel := hi
    rw [hf.decisionLevel] at hi'
    obtain ⟨hmem, hle⟩ := h.taken i p hi' hp
    exact ⟨hf.trail.subset hmem, (hf.level hmem).trans_le hle⟩
  · show p.1 < t.nVars
    rw [hf.nVars]
    exact h.inRange p hp

theorem AssumedOk.cancelUntil (h : AssumedOk s) (htrail : TrailOk s.toCore) (level : ℕ) :
    AssumedOk (s.cancelUntil level) := by
  have hreason (v : ℕ) : (s.toCore.cancelUntil level).reason v = s.reason v := by
    unfold Core.reason
    rw [cancelUntil_vardata]
  refine ⟨fun l hl hnone hpos hle => ?_, fun i p hi hp => ?_, fun p hp => ?_, h.ok, h.conflict⟩
  · have hlevel : (s.toCore.cancelUntil level).level l.1 = s.level l.1 := level_cancelUntil
    have hpos' : 0 < s.level l.1 := hlevel ▸ hpos
    have hle' : s.level l.1 ≤ s.assumptions.length := hlevel ▸ hle
    show s.assumptions[(s.toCore.cancelUntil level).level l.1 - 1]? = some l
    rw [hlevel]
    exact h.decided l (trail_cancelUntil_isPrefix.subset hl)
      ((hreason l.1).symm.trans hnone) hpos' hle'
  · have hi' : i < (s.toCore.cancelUntil level).trailLim.length := hi
    rw [cancelUntil_trailLim, List.length_take] at hi'
    obtain ⟨hmem, hle⟩ := h.taken i p (lt_of_lt_of_le hi' (min_le_right _ _)) hp
    refine ⟨(htrail.mem_cancelUntil level p).mpr ⟨hmem, ?_⟩, level_cancelUntil.trans_le hle⟩
    have := lt_of_lt_of_le hi' (min_le_left _ _)
    omega
  · show p.1 < (s.toCore.cancelUntil level).nVars
    rw [cancelUntil_nVars]
    exact h.inRange p hp

/-- An implied literal, or one of level 0. -/
theorem AssumedOk.enqueue (h : AssumedOk s) (htrail : TrailOk s.toCore) {p : Literal ℕ}
    {o : Option ℕ} (hp : s.assigns p.1 = none)
    (hfrom : o ≠ none ∨ s.decisionLevel = 0) :
    AssumedOk (s.setCore (s.toCore.uncheckedEnqueue p o)) := by
  refine ⟨fun l hl hnone hpos hle => ?_, fun i q hi hq => ?_, h.inRange, h.ok, h.conflict⟩
  · rcases List.mem_append.mp hl with hold | hnew
    · have hsame := vardata_uncheckedEnqueue (o := o) htrail hp hold
      have hlevel : (s.toCore.uncheckedEnqueue p o).level l.1 = s.level l.1 :=
        congrArg VarData.level hsame
      have hreason : (s.toCore.uncheckedEnqueue p o).reason l.1 = s.reason l.1 :=
        congrArg VarData.reason hsame
      have hpos' : 0 < s.level l.1 := hlevel ▸ hpos
      have hle' : s.level l.1 ≤ s.assumptions.length := hlevel ▸ hle
      show s.assumptions[(s.toCore.uncheckedEnqueue p o).level l.1 - 1]? = some l
      rw [hlevel]
      exact h.decided l hold (hreason.symm.trans hnone) hpos' hle'
    · obtain rfl := List.mem_singleton.mp hnew
      rcases hfrom with hsome | hzero
      · exact absurd (reason_uncheckedEnqueue_self.symm.trans hnone) hsome
      · exact absurd (level_uncheckedEnqueue_self.trans hzero) hpos.ne'
  · obtain ⟨hmem, hle⟩ := h.taken i q hi hq
    refine ⟨List.mem_append_left _ hmem, ?_⟩
    exact (level_uncheckedEnqueue htrail hp hmem).trans_le hle

theorem AssumedOk.of_cleans (h : AssumedOk s) {t : Core} (hclean : Cleans s.toCore t)
    (kept : List ℕ) : AssumedOk { s with toCore := t, learnts := kept } := by
  refine ⟨fun l hl hnone hpos hle => ?_, fun i p hi hp => ?_, fun p hp => ?_, h.ok, h.conflict⟩
  · have hl' : l ∈ s.trail := by
      rw [← hclean.trail]
      exact hl
    have hlevel : t.level l.1 = s.level l.1 := hclean.level l.1
    have hpos' : 0 < s.level l.1 := hlevel ▸ hpos
    have hle' : s.level l.1 ≤ s.assumptions.length := hlevel ▸ hle
    show s.assumptions[t.level l.1 - 1]? = some l
    rw [hlevel]
    exact h.decided l hl' ((hclean.reason l hl' hpos').symm.trans hnone) hpos' hle'
  · have hi' : i < t.trailLim.length := hi
    rw [hclean.trailLim] at hi'
    obtain ⟨hmem, hle⟩ := h.taken i p hi' hp
    refine ⟨?_, (hclean.level p.1).trans_le hle⟩
    show p ∈ t.trail
    rw [hclean.trail]
    exact hmem
  · show p.1 < t.nVars
    rw [hclean.nVars]
    exact h.inRange p hp

/-! ### Imports -/

theorem SearchingOk.importUnitClauses (h : SearchingOk G f g s) (hlevel : s.decisionLevel = 0)
    {units : List (Literal ℕ)} (hrange : InRange s.toCore units)
    (hunits : ∀ l ∈ units, [l] ∈ g) :
    SearchingOk G f g (s.importUnitClauses units) ∧
      (s.importUnitClauses units).decisionLevel = 0 ∧
      (s.importUnitClauses units).nVars = s.nVars := by
  induction units generalizing s with
  | nil => exact ⟨h, hlevel, rfl⟩
  | cons l rest ih =>
    obtain ⟨hl, hrest⟩ := List.forall_mem_cons.mp hrange
    obtain ⟨hg, hunits⟩ := List.forall_mem_cons.mp hunits
    unfold Solver.importUnitClauses
    split_ifs with hnone
    · have htrail := h.engine.trail
      have hnext : SearchingOk G f g (s.setCore (s.toCore.uncheckedEnqueue l none)) := by
        refine ⟨uncheckedEnqueue_ok h.engine hnone hl (fun _ => Or.inl hlevel)
          (fun cr hcr => absurd hcr.symm (Option.some_ne_none cr)),
          h.database.enqueue htrail hnone fun _ σ hσ => ?_,
          h.assumed.enqueue htrail hnone (Or.inr hlevel)⟩
        have hunit := (formulaHolds_append σ f g).mp hσ |>.2 [l] hg
        obtain ⟨q, hq, hholds⟩ := hunit
        rwa [List.mem_singleton.mp hq] at hholds
      exact ih hnext hlevel hrest hunits
    · exact ih h hlevel hrest hunits

theorem falseWatch_eq_false {c : Core} {a b : Literal ℕ} :
    c.falseWatch a b = false ↔ ¬ FalseBefore c c.qhead a ∧ ¬ FalseBefore c c.qhead b := by
  unfold Core.falseWatch FalseBefore
  rw [decide_eq_false_iff_not, not_or]

theorem SearchingOk.importClauses (h : SearchingOk (· = false) f g s)
    {queue : List (Literal ℕ × Literal ℕ × Clause ℕ)}
    (hvalid : ∀ c ∈ queue, InRange s.toCore (clauseOf c) ∧ ((clauseOf c).map Prod.fst).Nodup)
    (hqueue : ∀ c ∈ queue, clauseOf c ∈ g) :
    SearchingOk (· = false) f g (s.importClauses queue) ∧
      (s.importClauses queue).decisionLevel = s.decisionLevel := by
  induction queue generalizing s with
  | nil => exact ⟨h, rfl⟩
  | cons c queue ih =>
    obtain ⟨a, b, rest⟩ := c
    obtain ⟨⟨hrange, hdistinct⟩, hvalid⟩ := List.forall_mem_cons.mp hvalid
    obtain ⟨hg, hqueue⟩ := List.forall_mem_cons.mp hqueue
    have hnext : SearchingOk (· = false) f g { s with
        toCore := s.allocAttach a b rest true (s.falseWatch a b)
        learnts := s.learnts ++ [s.caSize] } := by
      refine ⟨allocAttach_ok h.engine hdistinct hrange falseWatch_eq_false.mp,
        h.database.allocLearnt fun σ hσ => (formulaHolds_append σ f g).mp hσ |>.2 _ hg, ?_⟩
      exact ⟨h.assumed.decided, h.assumed.taken, h.assumed.inRange, h.assumed.ok,
        h.assumed.conflict⟩
    exact ih hnext hvalid hqueue

/-! ### Answers -/

def Unsat (h : Formula ℕ) : Prop := ∀ σ, ¬ FormulaHolds σ h

/-- Between the calls of the solver. -/
structure IdleOk (G : Bool → Prop) (f g : Formula ℕ) (s : Solver) : Prop where
  level : s.decisionLevel = 0
  sat : s.ok = true → EngineOk G s.toCore ∧ DatabaseOk f g s ∧ s.qhead = s.trail.length
  unsat : s.ok = false → Unsat (f ++ g)

/-- The value of the variable in the model. -/
def modelValue (s : Solver) (v : ℕ) : Option Bool := (s.model[v]?).join

/-- An answer l_True comes with a model of the clauses whose variables are
decided, an answer l_False with a clause over the negated assumptions. -/
def AnswerOk (f g : Formula ℕ) (s : Solver) : Option Bool → Prop
  | some true =>
    (∀ c ∈ f, (∀ l ∈ c, s.decision l.1 = true) → ClauseTrue (modelValue s) c) ∧
      ∀ p ∈ s.assumptions, IsTrue (modelValue s) p
  | some false =>
    (∀ q ∈ s.conflict, negate q ∈ s.assumptions) ∧
      ∀ σ, FormulaHolds σ (f ++ g) → ClauseHolds σ s.conflict
  | none => True

def OutcomeOk (G : Bool → Prop) (f g : Formula ℕ) : Solver.Outcome → Prop
  | .next t => SearchingOk G f g t
  | .learnt t c => SearchingOk G f g t ∧ ∀ σ, FormulaHolds σ (f ++ g) → ClauseHolds σ c
  | .answer t status => IdleOk G f g (t.finish status) ∧ AnswerOk f g (t.finish status) status
  | .stuck => False

theorem decisionLevel_cancelUntil (t : Core) : (t.cancelUntil 0).decisionLevel = 0 := by
  unfold Core.decisionLevel
  rw [cancelUntil_trailLim, List.take_zero]
  rfl

theorem idleOk_cancelUntil (hengine : EngineOk G s.toCore) (hdatabase : DatabaseOk f g s)
    (hok : s.ok = true) (hdone : s.qhead = s.trail.length) :
    IdleOk G f g (s.cancelUntil 0) := by
  refine ⟨decisionLevel_cancelUntil s.toCore, fun _ => ⟨cancelUntil_ok hengine 0,
    hdatabase.cancelUntil hengine.trail 0, ?_⟩, fun hfalse => ?_⟩
  · show (s.toCore.cancelUntil 0).qhead = (s.toCore.cancelUntil 0).trail.length
    rcases Nat.eq_zero_or_pos s.decisionLevel with hzero | hpos
    · rw [cancelUntil_of_le hzero.le]
      exact hdone
    · exact cancelUntil_qhead hpos hengine.trail
  · have hok' : s.ok = false := hfalse
    rw [hok] at hok'
    exact absurd hok' (by simp)

/-- The clauses are contradictory. -/
theorem answer_unsat (hconflict : s.conflict = []) (hunsat : Unsat (f ++ g)) :
    IdleOk G f g (s.finish (some false)) ∧ AnswerOk f g (s.finish (some false)) (some false) := by
  have hfinish : s.finish (some false) = ({ s with ok := false } : Solver).cancelUntil 0 := by
    unfold Solver.finish
    rw [if_neg (by simp), if_pos ⟨rfl, hconflict⟩]
  rw [hfinish]
  refine ⟨⟨decisionLevel_cancelUntil s.toCore, fun hok => ?_, fun _ => hunsat⟩, fun q hq => ?_,
    fun σ hσ => absurd hσ (hunsat σ)⟩
  · exact absurd (show false = true from hok) (by simp)
  · have hq' : q ∈ s.conflict := hq
    rw [hconflict] at hq'
    exact absurd hq' List.not_mem_nil

/-! ### A conflict -/

/-- A false clause at level 0 contradicts the clauses that were given. -/
theorem unsat_of_conflict {confl : ℕ} (hdatabase : DatabaseOk f g s)
    (hconfl : ConflictOk G s.toCore confl) (hlevel : s.decisionLevel = 0) : Unsat (f ++ g) := by
  intro σ hσ
  obtain ⟨hclauses, hroot⟩ := hdatabase.implied σ hσ
  obtain ⟨q, hq, hholds⟩ := hclauses confl hconfl.live
  have hmem := hconfl.allFalse q hq
  have hle := hconfl.trail.level_le hmem
  rw [hlevel] at hle
  exact (literalHolds_negate σ q).mp (hroot (negate q) hmem (Nat.le_zero.mp hle)) hholds

/-- After backtracking, the other literals of the learnt clause are still false. -/
theorem learnt_after_backtrack {t : Core} (htrail : TrailOk t) {p : Literal ℕ}
    {others : Clause ℕ} (hlearnt : LearntOk t p others) :
    (t.cancelUntil (backtrackLevel t others)).assigns p.1 = none ∧
      (∀ q ∈ others, negate q ∈ (t.cancelUntil (backtrackLevel t others)).trail) ∧
      (t.cancelUntil (backtrackLevel t others)).decisionLevel = backtrackLevel t others := by
  refine ⟨?_, fun q hq => ?_, ?_⟩
  · rw [(htrail.cancelUntil _).unassigned_iff]
    intro hmem
    obtain ⟨l, hl, hvar⟩ := List.mem_map.mp hmem
    obtain ⟨-, hle⟩ := (htrail.mem_cancelUntil _ l).mp hl
    rw [hvar, hlearnt.current] at hle
    exact absurd hlearnt.backtrack (not_lt.mpr hle)
  · obtain ⟨hmem, -, hle⟩ := hlearnt.lower q hq
    exact (htrail.mem_cancelUntil _ (negate q)).mpr ⟨hmem, hle⟩
  · unfold Core.decisionLevel
    rw [cancelUntil_trailLim, List.length_take]
    exact min_eq_left hlearnt.backtrack.le

theorem SearchingOk.learn (h : SearchingOk G f g s) {p : Literal ℕ} {others : Clause ℕ}
    (hp : s.assigns p.1 = none) (hothers : ∀ q ∈ others, negate q ∈ s.trail)
    (hlevel : s.decisionLevel = backtrackLevel s.toCore others)
    (hdistinct : ((p :: others).map Prod.fst).Nodup) (hrange : InRange s.toCore (p :: others))
    (hholds : ∀ σ, FormulaHolds σ (f ++ g) → ClauseHolds σ (p :: others))
    (hpos : ∀ q ∈ others, 0 < s.level q.1) :
    ∃ t, s.learn (p :: others) = some t ∧ SearchingOk G f g t := by
  cases others with
  | nil =>
    refine ⟨_, rfl, uncheckedEnqueue_ok h.engine hp (hrange p List.mem_cons_self)
      (fun _ => Or.inl hlevel) (fun cr hcr => absurd hcr.symm (Option.some_ne_none cr)),
      h.database.enqueue h.engine.trail hp fun _ σ hσ => ?_,
      h.assumed.enqueue h.engine.trail hp (Or.inr hlevel)⟩
    obtain ⟨q, hq, hq'⟩ := hholds σ hσ
    rwa [List.mem_singleton.mp hq] at hq'
  | cons q rest =>
    have hlevel' : s.level q.1 = s.decisionLevel := hlevel.symm
    refine ⟨_, rfl, learn_ok h.engine hp hothers hlevel' hdistinct hrange, ?_, ?_⟩
    · refine DatabaseOk.enqueue (h.database.allocLearnt hholds) ?_ hp fun hzero => ?_
      · exact h.engine.trail.congr rfl rfl rfl rfl rfl rfl
      · have hzero' : s.decisionLevel = 0 := hzero
        have := hpos q List.mem_cons_self
        omega
    · have hassumed : AssumedOk { s with
          toCore := s.allocAttach p q rest true false
          learnts := s.learnts ++ [s.caSize] } :=
        ⟨h.assumed.decided, h.assumed.taken, h.assumed.inRange, h.assumed.ok, h.assumed.conflict⟩
      exact hassumed.enqueue (h.engine.trail.congr rfl rfl rfl rfl rfl rfl) hp
        (Or.inl (Option.some_ne_none _))

theorem onConflict_ok {confl : ℕ} (hdatabase : DatabaseOk f g s) (hassumed : AssumedOk s)
    (hconfl : ConflictOk G s.toCore confl) : OutcomeOk G f g (s.onConflict confl) := by
  unfold Solver.onConflict
  split_ifs with hzero
  · exact answer_unsat hassumed.conflict (unsat_of_conflict hdatabase hconfl hzero)
  · have htrail := hconfl.trail
    obtain ⟨p, others, seen, hanalyze, hlearnt, hseen, hholds⟩ :=
      analyze_ok htrail hconfl.reasons hconfl.live hconfl.allFalse hconfl.current
        (Nat.pos_of_ne_zero hzero) hdatabase.seen s.ccminMode
    obtain ⟨hp, hothers, hlevel⟩ := learnt_after_backtrack htrail hlearnt
    rw [hanalyze]
    dsimp only
    have hcleared : DatabaseOk f g { s with seen := seen } := { hdatabase with seen := hseen }
    have hassumed' : AssumedOk { s with seen := seen } := { hassumed with }
    have hback : SearchingOk G f g
        (({ s with seen := seen } : Solver).cancelUntil (backtrackLevel s.toCore others)) :=
      ⟨cancelUntil_conflict_ok hconfl hlearnt.backtrack,
        hcleared.cancelUntil htrail _, hassumed'.cancelUntil htrail _⟩
    have hmem : ∀ l ∈ p :: others, negate l ∈ s.trail :=
      List.forall_mem_cons.mpr ⟨hlearnt.mem, fun q hq => (hlearnt.lower q hq).1⟩
    have hrange : InRange (s.toCore.cancelUntil (backtrackLevel s.toCore others))
        (p :: others) := by
      intro l hl
      rw [cancelUntil_nVars]
      have hin := htrail.inRange (negate l) (hmem l hl)
      exact hin
    have himplied (σ : Assignment ℕ) (hσ : FormulaHolds σ (f ++ g)) : ClauseHolds σ (p :: others) :=
      hholds σ (hdatabase.implied σ hσ)
    have hlast : backtrackLevel s.toCore others =
        backtrackLevel (s.toCore.cancelUntil (backtrackLevel s.toCore others)) others := by
      cases others with
      | nil => rfl
      | cons q rest => exact level_cancelUntil.symm
    obtain ⟨t, ht, hok⟩ := hback.learn hp hothers (hlevel.trans hlast) hlearnt.nodup hrange
      himplied fun q hq => (hlearnt.lower q hq).2.1.trans_eq level_cancelUntil.symm
    rw [ht]
    exact ⟨hok, himplied⟩

/-! ### Decisions -/

/-- A new level, for an assumption that is true already. -/
theorem SearchingOk.newLevel (h : SearchingOk G f g s) (hdone : s.qhead = s.trail.length)
    (htrue : ∀ p, s.assumptions[s.decisionLevel]? = some p → p ∈ s.trail) :
    SearchingOk G f g (s.setCore s.newDecisionLevel) := by
  have hdatabase := h.database
  refine ⟨newDecisionLevel_ok h.engine hdone, ⟨hdatabase.seen, hdatabase.learnts, hdatabase.nodup,
    hdatabase.heap, hdatabase.heapRange, hdatabase.decisionRange, fun σ hσ => ?_,
    hdatabase.represented⟩, h.assumed.decided, fun i p hi hp => ?_, h.assumed.inRange, h.assumed.ok,
    h.assumed.conflict⟩
  · exact ⟨(hdatabase.implied σ hσ).clauses, (hdatabase.implied σ hσ).root⟩
  · have hi' : i < (s.trailLim ++ [s.trail.length]).length := hi
    rw [List.length_append, List.length_singleton] at hi'
    rcases Nat.lt_or_ge i s.decisionLevel with hlt | hge
    · exact h.assumed.taken i p hlt hp
    · have hlast : i = s.decisionLevel := Nat.le_antisymm (Nat.le_of_lt_succ hi') hge
      subst hlast
      have hmem := htrue p hp
      have hle := h.engine.trail.level_le hmem
      exact ⟨hmem, Nat.le_succ_of_le hle⟩

/-- A decision at a new level; the variable may have been taken off the heap. -/
theorem SearchingOk.decide (h : SearchingOk G f g s) (hdone : s.qhead = s.trail.length)
    {p : Literal ℕ} (hp : s.assigns p.1 = none) (hrange : p.1 < s.nVars)
    (hassumption : ∀ q, s.assumptions[s.decisionLevel]? = some q → q = p) {heap : List ℕ}
    (hheap : ∀ v ∈ s.heap, v ≠ p.1 → s.decision v = true → s.assigns v = none → v ∈ heap)
    (hsub : ∀ v ∈ heap, v ∈ s.heap) :
    SearchingOk G f g (({ s with heap := heap } : Solver).decide p) := by
  have hlevel := newDecisionLevel_ok h.engine hdone
  have htrail := hlevel.trail
  have hnewLevel : s.newDecisionLevel.decisionLevel = s.decisionLevel + 1 := by
    show (s.trailLim ++ [s.trail.length]).length = _
    rw [List.length_append, List.length_singleton]
    rfl
  have hlim : s.newDecisionLevel.trailLim[s.newDecisionLevel.decisionLevel - 1]? =
      some s.newDecisionLevel.trail.length := by
    rw [hnewLevel, Nat.add_sub_cancel]
    exact List.getElem?_concat_length
  have hdatabase : DatabaseOk f g (s.setCore s.newDecisionLevel) :=
    { h.database with
      implied := fun σ hσ => ⟨(h.database.implied σ hσ).clauses, (h.database.implied σ hσ).root⟩ }
  have henqueued := hdatabase.enqueue (o := none) htrail hp fun hzero => by
    have hzero' : s.newDecisionLevel.decisionLevel = 0 := hzero
    omega
  have hself : (s.newDecisionLevel.uncheckedEnqueue p none).level p.1 = s.decisionLevel + 1 := by
    rw [level_uncheckedEnqueue_self, hnewLevel]
  refine ⟨uncheckedEnqueue_ok hlevel hp hrange (fun _ => Or.inr hlim)
    (fun cr hcr => absurd hcr.symm (Option.some_ne_none cr)), ?_, ?_⟩
  · refine { henqueued with heap := fun v hdecision hnone => ?_, heapRange := fun v hv => ?_ }
    · have hupdate : Function.update s.assigns p.1 (some p.2) v = none := hnone
      rw [Function.update_apply] at hupdate
      split_ifs at hupdate with hv
      exact hheap v (h.database.heap v hdecision hupdate) hv hdecision hupdate
    · exact h.database.heapRange v (hsub v hv)
  · refine ⟨fun l hl hnone hpos hle => ?_, fun i q hi hq => ?_, h.assumed.inRange, h.assumed.ok,
      h.assumed.conflict⟩
    · rcases List.mem_append.mp hl with hold | hnew
      · have hsame := vardata_uncheckedEnqueue (o := none) htrail hp hold
        have hlevel' : (s.newDecisionLevel.uncheckedEnqueue p none).level l.1 = s.level l.1 :=
          congrArg VarData.level hsame
        have hreason : (s.newDecisionLevel.uncheckedEnqueue p none).reason l.1 = s.reason l.1 :=
          congrArg VarData.reason hsame
        have hpos' : 0 < s.level l.1 := hlevel' ▸ hpos
        have hle' : s.level l.1 ≤ s.assumptions.length := hlevel' ▸ hle
        show s.assumptions[(s.newDecisionLevel.uncheckedEnqueue p none).level l.1 - 1]? = some l
        rw [hlevel']
        exact h.assumed.decided l hold (hreason.symm.trans hnone) hpos' hle'
      · obtain rfl := List.mem_singleton.mp hnew
        have hle' : (s.newDecisionLevel.uncheckedEnqueue l none).level l.1 ≤
            s.assumptions.length := hle
        show s.assumptions[(s.newDecisionLevel.uncheckedEnqueue l none).level l.1 - 1]? = some l
        rw [hself] at hle' ⊢
        rw [Nat.add_sub_cancel, List.getElem?_eq_getElem hle']
        exact congrArg some (hassumption _ (List.getElem?_eq_getElem hle'))
    · have hi' : i < s.newDecisionLevel.decisionLevel := hi
      rw [hnewLevel] at hi'
      rcases Nat.lt_or_ge i s.decisionLevel with hlt | hge
      · obtain ⟨hmem, hle⟩ := h.assumed.taken i q hlt hq
        refine ⟨List.mem_append_left _ hmem, ?_⟩
        exact (level_uncheckedEnqueue htrail hp hmem).trans_le hle
      · have hlast : i = s.decisionLevel := Nat.le_antisymm (Nat.le_of_lt_succ hi') hge
        subst hlast
        rw [hassumption q hq]
        exact ⟨List.mem_append_right _ (List.mem_singleton_self p), hself.le⟩

/-- The levels of the assumptions are entered up to one that is not true. -/
theorem assume_ok {rest : List (Literal ℕ)} (h : SearchingOk G f g s)
    (hdone : s.qhead = s.trail.length) (hrest : s.assumptions.drop s.decisionLevel = rest) :
    match s.assume rest with
    | .all t => SearchingOk G f g t ∧ t.qhead = t.trail.length ∧
        t.assumptions.length ≤ t.decisionLevel
    | .decide t p => SearchingOk G f g t ∧ t.qhead = t.trail.length ∧
        t.assumptions[t.decisionLevel]? = some p ∧ t.assigns p.1 = none
    | .failed t p => SearchingOk G f g t ∧ t.qhead = t.trail.length ∧
        t.assumptions[t.decisionLevel]? = some p ∧ negate p ∈ t.trail := by
  induction rest generalizing s with
  | nil => exact ⟨h, hdone, List.drop_eq_nil_iff.mp hrest⟩
  | cons p rest ih =>
    have hp : s.assumptions[s.decisionLevel]? = some p := by
      have hfirst := congrArg List.head? hrest
      rwa [List.head?_drop] at hfirst
    have hnext : s.assumptions.drop (s.decisionLevel + 1) = rest := by
      have htail := congrArg List.tail hrest
      rwa [List.tail_drop] at htail
    have htrail := h.engine.trail
    unfold Solver.assume
    by_cases htrue : IsTrue s.assigns p
    · rw [if_pos htrue]
      refine ih (h.newLevel hdone fun q hq => ?_) hdone ?_
      · obtain rfl := Option.some.inj (hp.symm.trans hq)
        exact (htrail.isTrue_iff p).mp htrue
      · show s.assumptions.drop (s.trailLim ++ [s.trail.length]).length = rest
        rw [List.length_append, List.length_singleton]
        exact hnext
    · rw [if_neg htrue]
      by_cases hfalse : IsFalse s.assigns p
      · rw [if_pos hfalse]
        exact ⟨h, hdone, hp, (htrail.isFalse_iff p).mp hfalse⟩
      · rw [if_neg hfalse]
        exact ⟨h, hdone, hp, eq_none_of_not htrue hfalse⟩

theorem popUntil_spec (free : ℕ → Bool) (vs : List ℕ) :
    (∀ v ∈ (Solver.popUntil free vs).2, v ∈ vs) ∧
      match (Solver.popUntil free vs).1 with
      | none => ∀ v ∈ vs, free v = false
      | some v => v ∈ vs ∧ free v = true ∧
          ∀ w ∈ vs, w ≠ v → free w = true → w ∈ (Solver.popUntil free vs).2 := by
  induction vs with
  | nil => exact ⟨fun v hv => hv, fun v hv => absurd hv List.not_mem_nil⟩
  | cons first rest ih =>
    unfold Solver.popUntil
    split_ifs with hfree
    · refine ⟨fun v hv => List.mem_cons_of_mem _ hv, List.mem_cons_self, hfree,
        fun w hw hne _ => ?_⟩
      exact (List.mem_cons.mp hw).resolve_left hne
    · obtain ⟨hsub, hfound⟩ := ih
      refine ⟨fun v hv => List.mem_cons_of_mem _ (hsub v hv), ?_⟩
      cases hpop : (Solver.popUntil free rest).1 with
      | none =>
        rw [hpop] at hfound
        exact List.forall_mem_cons.mpr ⟨(Bool.not_eq_true _).mp hfree, hfound⟩
      | some v =>
        rw [hpop] at hfound
        obtain ⟨hmem, hv, hothers⟩ := hfound
        refine ⟨List.mem_cons_of_mem _ hmem, hv, fun w hw hne hw' => hothers w ?_ hne hw'⟩
        exact (List.mem_cons.mp hw).resolve_left fun heq => hfree (heq ▸ hw')

theorem pickBranchVar_spec (s : Solver) (i : Input) :
    (∀ v ∈ (s.pickBranchVar i).2, v ∈ s.heap) ∧
      match (s.pickBranchVar i).1 with
      | none => ∀ v ∈ s.heap, s.decision v = true → s.assigns v ≠ none
      | some v => v ∈ s.heap ∧ s.decision v = true ∧ s.assigns v = none ∧
          ∀ w ∈ s.heap, w ≠ v → s.decision w = true → s.assigns w = none →
            w ∈ (s.pickBranchVar i).2 := by
  have hfree (v : ℕ) : ((s.assigns v).isNone && s.decision v) = true ↔
      s.decision v = true ∧ s.assigns v = none := by
    rw [Bool.and_eq_true, Option.isNone_iff_eq_none]
    exact and_comm
  unfold Solver.pickBranchVar
  dsimp only
  cases hrandom : (i.random.bind fun k => s.heap[k]?).filter
      fun v => (s.assigns v).isNone && s.decision v with
  | some v =>
    obtain ⟨hmem, hv⟩ := Option.filter_eq_some_iff.mp hrandom
    obtain ⟨k, -, hk⟩ := Option.bind_eq_some_iff.mp hmem
    obtain ⟨hdecision, hnone⟩ := (hfree v).mp hv
    exact ⟨fun w hw => hw, List.mem_of_getElem? hk, hdecision, hnone, fun w hw _ _ _ => hw⟩
  | none =>
    have hperm := i.order_perm s.heap
    obtain ⟨hsub, hfound⟩ := popUntil_spec (fun v => (s.assigns v).isNone && s.decision v)
      (i.order s.heap)
    refine ⟨fun v hv => hperm.mem_iff.mp (hsub v hv), ?_⟩
    dsimp only
    cases hpop : (Solver.popUntil (fun v => (s.assigns v).isNone && s.decision v)
        (i.order s.heap)).1 with
    | none =>
      rw [hpop] at hfound
      intro v hv hdecision hnone
      have hnot := hfound v (hperm.mem_iff.mpr hv)
      rw [(hfree v).mpr ⟨hdecision, hnone⟩] at hnot
      exact absurd hnot (by simp)
    | some v =>
      rw [hpop] at hfound
      obtain ⟨hmem, hv, hothers⟩ := hfound
      obtain ⟨hdecision, hnone⟩ := (hfree v).mp hv
      refine ⟨hperm.mem_iff.mp hmem, hdecision, hnone, fun w hw hne hdw hnw => ?_⟩
      exact hothers w (hperm.mem_iff.mpr hw) hne ((hfree w).mpr ⟨hdw, hnw⟩)

/-! ### The end of the search -/

theorem modelValue_eq {t : Solver} (htrail : TrailOk s.toCore)
    (hmodel : t.model = (List.range s.nVars).map s.assigns) : modelValue t = s.assigns := by
  funext v
  unfold modelValue
  rw [hmodel, List.getElem?_map]
  rcases Nat.lt_or_ge v s.nVars with hlt | hge
  · rw [List.getElem?_range hlt]
    rfl
  · rw [List.getElem?_eq_none (by rw [List.length_range]; exact hge)]
    refine ((htrail.unassigned_iff v).mpr fun hmem => ?_).symm
    obtain ⟨l, hl, rfl⟩ := List.mem_map.mp hmem
    exact absurd (htrail.inRange l hl) (not_lt.mpr hge)

/-- Where all variables that can be decided are assigned, the clauses that were
added are true. -/
theorem clauseTrue_of_assigned (hG : G false) (hengine : EngineOk G s.toCore)
    (hdatabase : DatabaseOk f g s) (hdone : s.qhead = s.trail.length)
    (hassigned : ∀ v, s.decision v = true → s.assigns v ≠ none) {c : Clause ℕ} (hc : c ∈ f)
    (hdecision : ∀ l ∈ c, s.decision l.1 = true) : ClauseTrue s.assigns c := by
  rcases hdatabase.represented c hc with ⟨l, hl, hneg⟩ | ⟨l, hl, htrue, -⟩ |
    ⟨cr, hlive, -, hstale, hsub⟩
  · rcases isTrue_or_isFalse (hassigned l.1 (hdecision l hl)) with htrue | hfalse
    · exact ⟨l, hl, htrue⟩
    · exact ⟨negate l, hneg, isTrue_negate.mpr hfalse⟩
  · exact ⟨l, hl, (hengine.trail.isTrue_iff l).mpr htrue⟩
  · have hfirst : (s.ca cr).first ∈ c := hsub _ List.mem_cons_self
    refine ClauseTrue.subset (c := (s.ca cr).lits) ?_ hsub
    rcases isTrue_or_isFalse (hassigned _ (hdecision _ hfirst)) with htrue | hfalse
    · exact ⟨_, List.mem_cons_self, htrue⟩
    · exact hengine.watches_free hdone hlive (hstale ▸ hG) (Or.inl rfl) hfalse

theorem answer_sat (hG : G false) (h : SearchingOk G f g s) (hdone : s.qhead = s.trail.length)
    (hassumed : s.assumptions.length ≤ s.decisionLevel)
    (hassigned : ∀ v, s.decision v = true → s.assigns v ≠ none) {heap : List ℕ}
    (hsub : ∀ v ∈ heap, v ∈ s.heap) :
    IdleOk G f g (({ s with heap := heap } : Solver).finish (some true)) ∧
      AnswerOk f g (({ s with heap := heap } : Solver).finish (some true)) (some true) := by
  have hfinish : ({ s with heap := heap } : Solver).finish (some true) =
      ({ s with heap := heap, model := (List.range s.nVars).map s.assigns } :
        Solver).cancelUntil 0 := by
    unfold Solver.finish
    rw [if_pos rfl]
  rw [hfinish]
  have hdatabase : DatabaseOk f g { s with
      heap := heap
      model := (List.range s.nVars).map s.assigns } :=
    { h.database with
      heap := fun v hdecision hnone => absurd hnone (hassigned v hdecision)
      heapRange := fun v hv => h.database.heapRange v (hsub v hv) }
  refine ⟨idleOk_cancelUntil h.engine hdatabase h.assumed.ok hdone, ?_⟩
  have hvalue : modelValue (({ s with
      heap := heap
      model := (List.range s.nVars).map s.assigns } : Solver).cancelUntil 0) = s.assigns :=
    modelValue_eq h.engine.trail rfl
  unfold AnswerOk
  rw [hvalue]
  refine ⟨fun c hc hdecision => clauseTrue_of_assigned hG h.engine h.database hdone hassigned hc
    hdecision, fun p hp => ?_⟩
  have hp' : p ∈ s.assumptions := hp
  obtain ⟨i, hi⟩ := List.mem_iff_getElem?.mp hp'
  have hlt := (List.getElem?_eq_some_iff.mp hi).1
  exact (h.engine.trail.isTrue_iff p).mpr (h.assumed.taken i p (by omega) hi).1

/-- The assumption `p` is false. -/
theorem answer_failed (h : SearchingOk G f g s) (hdone : s.qhead = s.trail.length)
    {p : Literal ℕ} (hp : s.assumptions[s.decisionLevel]? = some p) (hfalse : negate p ∈ s.trail) :
    OutcomeOk G f g (.answer { s with
      seen := (analyzeFinal s.toCore s.seen (negate p)).1
      conflict := (analyzeFinal s.toCore s.seen (negate p)).2 } (some false)) := by
  obtain ⟨hseen, hlits, hholds⟩ :=
    analyzeFinal_ok h.engine.trail h.engine.reasons hfalse h.database.seen
  have himplied (σ : Assignment ℕ) (hσ : FormulaHolds σ (f ++ g)) :=
    hholds σ (h.database.implied σ hσ)
  have hassumptions : ∀ q ∈ (analyzeFinal s.toCore s.seen (negate p)).2,
      negate q ∈ s.assumptions := by
    intro q hq
    rcases hlits q hq with rfl | ⟨hmem, hreason, hpos⟩
    · rw [negate_negate]
      exact List.mem_of_getElem? hp
    · -- all levels are those of assumptions
      have hle := h.engine.trail.level_le hmem
      have hlt := (List.getElem?_eq_some_iff.mp hp).1
      exact List.mem_of_getElem? (h.assumed.decided (negate q) hmem hreason hpos (hle.trans hlt.le))
  by_cases hempty : (analyzeFinal s.toCore s.seen (negate p)).2 = []
  · refine answer_unsat hempty fun σ hσ => ?_
    have hnil := himplied σ hσ
    rw [hempty] at hnil
    exact not_clauseHolds_nil σ hnil
  · have hfinish : ({ s with
        seen := (analyzeFinal s.toCore s.seen (negate p)).1
        conflict := (analyzeFinal s.toCore s.seen (negate p)).2 } : Solver).finish (some false) =
        ({ s with
          seen := (analyzeFinal s.toCore s.seen (negate p)).1
          conflict := (analyzeFinal s.toCore s.seen (negate p)).2 } : Solver).cancelUntil 0 := by
      unfold Solver.finish
      rw [if_neg (by simp), if_neg fun hand => hempty hand.2]
    show IdleOk G f g (Solver.finish _ _) ∧ AnswerOk f g (Solver.finish _ _) (some false)
    rw [hfinish]
    exact ⟨idleOk_cancelUntil h.engine { h.database with seen := hseen } h.assumed.ok hdone,
      hassumptions, himplied⟩

theorem branch_ok (hG : G false) (h : SearchingOk G f g s) (hdone : s.qhead = s.trail.length)
    (i : Input) : OutcomeOk G f g (s.branch i) := by
  have hassume := assume_ok h hdone rfl
  unfold Solver.branch
  cases hresult : s.assume (s.assumptions.drop s.decisionLevel) with
  | failed t p =>
    rw [hresult] at hassume
    obtain ⟨ht, hdone, hp, hfalse⟩ := hassume
    exact answer_failed ht hdone hp hfalse
  | decide t p =>
    rw [hresult] at hassume
    obtain ⟨ht, hdone, hp, hnone⟩ := hassume
    refine ht.decide hdone hnone (ht.assumed.inRange p (List.mem_of_getElem? hp)) (fun q hq => ?_)
      (fun v hv _ _ _ => hv) fun v hv => hv
    exact Option.some.inj (hq.symm.trans hp)
  | all t =>
    rw [hresult] at hassume
    obtain ⟨ht, hdone, hlevels⟩ := hassume
    obtain ⟨hsub, hpick⟩ := pickBranchVar_spec t i
    dsimp only
    generalize t.pickBranchVar i = r at hsub hpick ⊢
    obtain ⟨next, heap⟩ := r
    cases next with
    | none =>
      refine answer_sat hG ht hdone hlevels (fun v hdecision hnone => ?_) hsub
      exact hpick v (ht.database.heap v hdecision hnone) hdecision hnone
    | some v =>
      obtain ⟨hmem, -, hnone, hothers⟩ := hpick
      refine ht.decide (p := (v, i.sign v)) hdone hnone (ht.database.heapRange v hmem)
        (fun q hq => ?_) hothers hsub
      rw [List.getElem?_eq_none hlevels] at hq
      exact absurd hq.symm (Option.some_ne_none q)

/-! ### A turn -/

theorem SearchingOk.cleanLearnts (h : SearchingOk G f g s) (hdone : s.qhead = s.trail.length)
    (hlevel : s.decisionLevel = 0) :
    SearchingOk G f g s.cleanLearnts ∧ s.cleanLearnts.qhead = s.cleanLearnts.trail.length := by
  have hlist := removeSatisfied_ok h.engine hlevel h.database.nodup h.database.learnts
  have hclean := hlist.cleans
  have hdatabase := h.database.of_cleans (List.Perm.refl _) hlist
  have hassumed := h.assumed.of_cleans hclean (s.toCore.removeSatisfied s.learnts).2
  refine ⟨⟨hlist.engine, { hdatabase with heap := fun v hdecision hnone => ?_, heapRange :=
    fun v hv => ?_ }, { hassumed with }⟩, ?_⟩
  · refine List.mem_filter.mpr ⟨List.mem_range.mpr (hdatabase.decisionRange v hdecision), ?_⟩
    rw [Bool.and_eq_true, Option.isNone_iff_eq_none]
    exact ⟨hdecision, hnone⟩
  · exact List.mem_range.mp (List.mem_filter.mp hv).1
  · show (s.toCore.removeSatisfied s.learnts).1.qhead =
      (s.toCore.removeSatisfied s.learnts).1.trail.length
    rw [hclean.qhead, hclean.trail]
    exact hdone

theorem simplify_ok (h : SearchingOk G f g s) (hlevel : s.decisionLevel = 0) (i : Input) :
    if (s.simplify i).2 = true then
      SearchingOk G f g (s.simplify i).1 ∧
        (s.simplify i).1.qhead = (s.simplify i).1.trail.length
    else (s.simplify i).1.conflict = [] ∧ Unsat (f ++ g) := by
  obtain ⟨hf, hresult⟩ := propagateLoop_ok h.engine
    (show s.nVars < s.nVars + 1 + s.qhead by omega)
  have hok : ¬ s.ok = false := by
    rw [h.assumed.ok]
    simp
  unfold Solver.simplify Core.propagate
  rw [if_neg hok]
  dsimp only
  generalize propagateLoop (s.nVars + 1) s.toCore none = r at hf hresult ⊢
  obtain ⟨t, confl⟩ := r
  have hlevel' : t.decisionLevel = 0 := hf.decisionLevel.trans hlevel
  cases confl with
  | some cr =>
    have hdatabase := h.database.of_frame hf h.engine.trail hresult.trail hresult.reasons
    rw [if_neg (by simp)]
    exact ⟨h.assumed.conflict, unsat_of_conflict hdatabase hresult hlevel'⟩
  | none =>
    obtain ⟨hengine, hdone⟩ := hresult
    have hdatabase := h.database.of_frame hf h.engine.trail hengine.trail hengine.reasons
    have hnext : SearchingOk G f g (s.setCore t) := ⟨hengine, hdatabase, h.assumed.of_frame hf⟩
    cases hgo : i.simplify with
    | true => exact hnext.cleanLearnts hdone hlevel'
    | false => exact ⟨hnext, hdone⟩

theorem SearchingOk.reduceDB (h : SearchingOk G f g s) (hdone : s.qhead = s.trail.length)
    (i : Input) :
    SearchingOk G f g (s.reduceDB i) ∧ (s.reduceDB i).qhead = (s.reduceDB i).trail.length := by
  have hperm := i.sort_perm s.learnts
  have hlist := reduceDB_ok h.engine i.drop (hperm.nodup_iff.mpr h.database.nodup)
    fun cr hcr => h.database.learnts cr (hperm.mem_iff.mp hcr)
  have hclean := hlist.cleans
  refine ⟨⟨hlist.engine, h.database.of_cleans hperm hlist, h.assumed.of_cleans hclean _⟩, ?_⟩
  show (s.toCore.reduceDB i.drop (i.sort s.learnts)).1.qhead =
    (s.toCore.reduceDB i.drop (i.sort s.learnts)).1.trail.length
  rw [hclean.qhead, hclean.trail]
  exact hdone

theorem SearchingOk.restart (h : SearchingOk G f g s) : SearchingOk G f g (s.cancelUntil 0) :=
  ⟨cancelUntil_ok h.engine 0, h.database.cancelUntil h.engine.trail 0,
    h.assumed.cancelUntil h.engine.trail 0⟩

theorem reduce_branch_ok (hG : G false) (h : SearchingOk G f g s)
    (hdone : s.qhead = s.trail.length) (i : Input) :
    OutcomeOk G f g ((if i.reduce then s.reduceDB i else s).branch i) := by
  split_ifs
  · obtain ⟨hnext, hdone'⟩ := h.reduceDB hdone i
    exact branch_ok hG hnext hdone' i
  · exact branch_ok hG h hdone i

theorem noConflict_ok (hG : G false) (h : SearchingOk G f g s)
    (hdone : s.qhead = s.trail.length) (i : Input) : OutcomeOk G f g (s.noConflict i) := by
  unfold Solver.noConflict
  by_cases hstop : i.stop = true
  · rw [if_pos hstop]
    split_ifs
    · obtain ⟨hengine, hdatabase, hdone'⟩ :=
        (idleOk_cancelUntil h.engine h.database h.assumed.ok hdone).sat h.assumed.ok
      exact ⟨idleOk_cancelUntil hengine hdatabase h.assumed.ok hdone', trivial⟩
    · exact h.restart
  rw [if_neg hstop]
  by_cases hlevel : s.decisionLevel = 0
  · have hsimplify := simplify_ok h hlevel i
    rw [if_pos hlevel]
    dsimp only
    by_cases hgo : (s.simplify i).2 = true
    · rw [if_pos hgo] at hsimplify ⊢
      exact reduce_branch_ok hG hsimplify.1 hsimplify.2 i
    · rw [if_neg hgo] at hsimplify ⊢
      exact answer_unsat hsimplify.1 hsimplify.2
  · rw [if_neg hlevel]
    exact reduce_branch_ok hG h hdone i

theorem SearchingOk.imports (h : SearchingOk (· = false) f g s) {i : Input}
    (hvalid : i.Valid s.toCore) :
    SearchingOk (· = false) f (g ++ i.imported s.toCore) (s.importAll i) := by
  unfold Input.imported Solver.importAll
  have hmore (new : Formula ℕ) : SearchingOk (· = false) f (g ++ new) s :=
    ⟨h.engine, h.database.imported new, h.assumed⟩
  split_ifs with hlevel
  · obtain ⟨hunits, hlevel', hvars⟩ :=
      (hmore (i.units.map (fun l => [l]) ++ i.imports.map clauseOf)).importUnitClauses hlevel
        hvalid.1 fun l hl => List.mem_append_right _
          (List.mem_append_left _ (List.mem_map_of_mem hl))
    refine (hunits.importClauses (fun c hc => ?_) fun c hc => ?_).1
    · obtain ⟨hrange, hdistinct⟩ := hvalid.2 c hc
      refine ⟨fun l hl => ?_, hdistinct⟩
      rw [hvars]
      exact hrange l hl
    · exact List.mem_append_right _ (List.mem_append_right _ (List.mem_map_of_mem hc))
  · exact hmore []

theorem turn_ok (h : SearchingOk (· = false) f g s) {i : Input} (hvalid : i.Valid s.toCore) :
    OutcomeOk (· = false) f (g ++ i.imported s.toCore) (s.turn i) := by
  have himports := h.imports hvalid
  unfold Solver.turn
  dsimp only
  generalize s.importAll i = t at himports ⊢
  obtain ⟨hf, hresult⟩ := propagateLoop_ok himports.engine
    (show t.nVars < t.nVars + 1 + t.qhead by omega)
  unfold Core.propagate
  generalize propagateLoop (t.nVars + 1) t.toCore none = r at hf hresult ⊢
  obtain ⟨u, confl⟩ := r
  cases confl with
  | some cr =>
    exact onConflict_ok
      (himports.database.of_frame hf himports.engine.trail hresult.trail hresult.reasons)
      (himports.assumed.of_frame hf) hresult
  | none =>
    obtain ⟨hengine, hdone⟩ := hresult
    exact noConflict_ok (G := (· = false)) rfl
      ⟨hengine, himports.database.of_frame hf himports.engine.trail hengine.trail hengine.reasons,
        himports.assumed.of_frame hf⟩ hdone i

/-- Clauses are learnt in conflicts only. -/
theorem noConflict_learns {t : Solver} (s : Solver) (i : Input) (c : Clause ℕ) :
    s.noConflict i ≠ .learnt t c := by
  have hbranch (u : Solver) : u.branch i ≠ .learnt t c := by
    unfold Solver.branch
    split
    · simp
    · simp
    · split <;> simp
  unfold Solver.noConflict
  dsimp only
  split_ifs
  all_goals first | exact hbranch _ | simp

end Painless.MiniSatTurns
