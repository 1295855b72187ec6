import Painless.MiniSatRuns
import Painless.UnitPropagation

/-!
What the callers of the MiniSat engine rely on, in every state that its calls can
reach. The clauses in use say what was added, up to what was imported; a turn
propagates all that follows by unit propagation; the clause that is learnt from a
conflict is false, turns around one literal of the current level and follows from
the clauses; the answers are right.
-/
namespace Painless.MiniSatAnswers

open Cnf PartialAssignment UnitPropagation MiniSatCore MiniSatTrail MiniSatWatches
open MiniSatPropagate MiniSatAnalyze MiniSatRedundant MiniSatLearnt MiniSatEngine
open MiniSatSearch MiniSatDatabase MiniSatTurns MiniSatRuns
open MiniSatCore.Core
open Transitions (Machine)

variable {G : Bool → Prop} {s : State}

/-- The clauses x ∨ y and x ∨ ¬ y, and what solve starts with. -/
def twoClauses : List Action :=
  [.newVar true, .newVar true, .addClause [(0, true), (1, true)],
    .addClause [(0, true), (1, false)], .solve []]

/-- A turn without imports; a decision is for the sign `sign`. -/
def plainTurn (sign : Bool) : Input where
  units := []
  imports := []
  stop := false
  interrupted := false
  simplify := false
  reduce := false
  sort := id
  sort_perm := fun crs => List.Perm.refl crs
  drop := fun _ => false
  random := none
  order := id
  order_perm := fun vs => List.Perm.refl vs
  sign := fun _ => sign

theorem importAll_plainTurn (t : Solver) (sign : Bool) : t.importAll (plainTurn sign) = t := by
  unfold Solver.importAll
  split_ifs <;> rfl

/-- The engine decides ¬ x. -/
def decideRun : List Action := twoClauses ++ [.turn (plainTurn false)]

/-- After the conflict x is true, and y is decided. -/
def answerRun : List Action :=
  decideRun ++ List.replicate 3 (.turn (plainTurn false))

theorem decideRun_some : (machine.run (init 2) decideRun).isSome := by decide +kernel

theorem answerRun_some : (machine.run (init 2) answerRun).isSome := by decide +kernel

def decided : State := (machine.run (init 2) decideRun).get decideRun_some

def answered : State := (machine.run (init 2) answerRun).get answerRun_some

/-- x and y are assumed, where ¬ x ∨ ¬ y was added. -/
def assumeRun : List Action :=
  [.newVar true, .newVar true, .addClause [(0, false), (1, false)],
    .solve [(0, true), (1, true)], .turn (plainTurn false), .turn (plainTurn false)]

theorem assumeRun_some : (machine.run (init 2) assumeRun).isSome := by decide +kernel

def failed : State := (machine.run (init 2) assumeRun).get assumeRun_some

/-- The clauses x and ¬ x. -/
def emptyRun : List Action := [.newVar true, .addClause [(0, true)], .addClause [(0, false)]]

theorem emptyRun_some : (machine.run (init 2) emptyRun).isSome := by decide +kernel

def contradictory : State := (machine.run (init 2) emptyRun).get emptyRun_some

theorem decided_reach : machine.Reach (fun _ _ => True) decided :=
  Machine.Reach.of_run ⟨2, rfl⟩ (Option.some_get decideRun_some).symm

theorem answered_reach : machine.Reach (fun _ _ => True) answered :=
  Machine.Reach.of_run ⟨2, rfl⟩ (Option.some_get answerRun_some).symm

theorem failed_reach : machine.Reach (fun _ _ => True) failed :=
  Machine.Reach.of_run ⟨2, rfl⟩ (Option.some_get assumeRun_some).symm

theorem contradictory_reach : machine.Reach (fun _ _ => True) contradictory :=
  Machine.Reach.of_run ⟨2, rfl⟩ (Option.some_get emptyRun_some).symm

/-! ### Invariants -/

theorem clauseHolds_of_tautology {c : Clause ℕ} (h : Tautology c) (σ : Assignment ℕ) :
    ClauseHolds σ c := by
  obtain ⟨l, hl, hneg⟩ := h
  by_cases hholds : LiteralHolds σ l
  · exact ⟨l, hl, hholds⟩
  · exact ⟨negate l, hneg, (literalHolds_negate σ l).mpr hholds⟩

/-- No read is out of bounds, and no assertion of the analysis fails. -/
theorem notStuck_of_reach (h : machine.Reach (fun _ _ => True) s) : s.pc ≠ .stuck :=
  (stateOk_of_reach h).notStuck

theorem notStuck_of_reach_answered : answered.pc ≠ .stuck := notStuck_of_reach answered_reach

theorem engine_of_reach (h : machine.Reach (fun _ _ => True) s) (hok : s.solver.ok = true) :
    TrailOk s.solver.toCore ∧ ReasonsOk s.solver.toCore ∧ CellsOk s.solver.toCore ∧
      WatchOk s.solver.toCore := by
  have hstate := stateOk_of_reach h
  cases hpc : s.pc with
  | idle =>
    obtain ⟨hengine, -, -⟩ := (hstate.idle hpc).sat hok
    exact ⟨hengine.trail, hengine.reasons, hengine.cells, hengine.watch⟩
  | searching =>
    have hengine := (hstate.searching hpc).engine
    exact ⟨hengine.trail, hengine.reasons, hengine.cells, hengine.watch⟩
  | stuck => exact absurd hpc hstate.notStuck

theorem engine_of_reach_answered : TrailOk answered.solver.toCore ∧
    ReasonsOk answered.solver.toCore ∧ CellsOk answered.solver.toCore ∧
    WatchOk answered.solver.toCore :=
  engine_of_reach answered_reach (by decide +kernel)

/-- The clauses in use and the literals of level 0 say what was added, up to what
was imported. -/
theorem models_of_reach (h : machine.Reach (fun _ _ => True) s) (hok : s.solver.ok = true)
    (σ : Assignment ℕ) :
    (FormulaHolds σ (s.formula ++ s.imported) → Models s.solver.toCore σ) ∧
      (Models s.solver.toCore σ → FormulaHolds σ s.formula) := by
  have hstate := stateOk_of_reach h
  have hdatabase : DatabaseOk s.formula s.imported s.solver := by
    cases hpc : s.pc with
    | idle => exact ((hstate.idle hpc).sat hok).2.1
    | searching => exact (hstate.searching hpc).database
    | stuck => exact absurd hpc hstate.notStuck
  refine ⟨hdatabase.implied σ, fun hmodels c hc => ?_⟩
  rcases hdatabase.represented c hc with htaut | ⟨l, hl, htrue, hzero⟩ | ⟨cr, hlive, -, -, hsub⟩
  · exact clauseHolds_of_tautology htaut σ
  · exact ⟨l, hl, hmodels.root l htrue hzero⟩
  · obtain ⟨l, hl, hholds⟩ := hmodels.clauses cr hlive
    exact ⟨l, hsub l hl, hholds⟩

theorem models_of_reach_answered :
    (FormulaHolds (fun _ => true) (answered.formula ++ answered.imported) →
        Models answered.solver.toCore fun _ => true) ∧
      (Models answered.solver.toCore (fun _ => true) →
        FormulaHolds (fun _ => true) answered.formula) :=
  models_of_reach answered_reach (by decide +kernel) fun _ => true

/-- Once addClause or a search without assumptions has failed, the clauses are
contradictory. -/
theorem unsat_of_reach (h : machine.Reach (fun _ _ => True) s) (hok : s.solver.ok = false) :
    ¬ Satisfiable (s.formula ++ s.imported) := by
  have hstate := stateOk_of_reach h
  rintro ⟨σ, hσ⟩
  cases hpc : s.pc with
  | idle => exact (hstate.idle hpc).unsat hok σ hσ
  | searching =>
    have htrue := (hstate.searching hpc).assumed.ok
    exact absurd (htrue.symm.trans hok) (by simp)
  | stuck => exact absurd hpc hstate.notStuck

theorem unsat_of_reach_contradictory :
    ¬ Satisfiable (contradictory.formula ++ contradictory.imported) :=
  unsat_of_reach contradictory_reach (by decide +kernel)

/-! ### Answers -/

/-- The model satisfies what was added, if its variables are decided, and the
assumptions. -/
theorem model_of_reach (h : machine.Reach (fun _ _ => True) s) (hpc : s.pc = .idle)
    (hanswer : s.answer = some (some true)) :
    (∀ c ∈ s.formula, (∀ l ∈ c, s.solver.decision l.1 = true) →
        ClauseTrue (modelValue s.solver) c) ∧
      ∀ p ∈ s.solver.assumptions, IsTrue (modelValue s.solver) p :=
  (stateOk_of_reach h).answer _ hanswer hpc

theorem model_of_reach_answered :
    (∀ c ∈ answered.formula, (∀ l ∈ c, answered.solver.decision l.1 = true) →
        ClauseTrue (modelValue answered.solver) c) ∧
      ∀ p ∈ answered.solver.assumptions, IsTrue (modelValue answered.solver) p :=
  model_of_reach answered_reach (by decide +kernel) (by decide +kernel)

/-- The final conflict is over the negated assumptions, and it follows from the
clauses: they do not hold together with the assumptions. -/
theorem conflict_of_reach (h : machine.Reach (fun _ _ => True) s) (hpc : s.pc = .idle)
    (hanswer : s.answer = some (some false)) :
    (∀ q ∈ s.solver.conflict, negate q ∈ s.solver.assumptions) ∧
      (∀ σ, FormulaHolds σ (s.formula ++ s.imported) → ClauseHolds σ s.solver.conflict) ∧
      ∀ σ, FormulaHolds σ (s.formula ++ s.imported) →
        ¬ ∀ p ∈ s.solver.assumptions, LiteralHolds σ p := by
  obtain ⟨hsub, hholds⟩ :
      (∀ q ∈ s.solver.conflict, negate q ∈ s.solver.assumptions) ∧
        ∀ σ, FormulaHolds σ (s.formula ++ s.imported) → ClauseHolds σ s.solver.conflict :=
    (stateOk_of_reach h).answer _ hanswer hpc
  refine ⟨hsub, hholds, fun σ hσ hassumed => ?_⟩
  obtain ⟨q, hq, hq'⟩ := hholds σ hσ
  exact (literalHolds_negate σ q).mp (hassumed _ (hsub q hq)) hq'

theorem conflict_of_reach_failed :
    (∀ q ∈ failed.solver.conflict, negate q ∈ failed.solver.assumptions) ∧
      (∀ σ, FormulaHolds σ (failed.formula ++ failed.imported) →
        ClauseHolds σ failed.solver.conflict) ∧
      ∀ σ, FormulaHolds σ (failed.formula ++ failed.imported) →
        ¬ ∀ p ∈ failed.solver.assumptions, LiteralHolds σ p :=
  conflict_of_reach failed_reach (by decide +kernel) (by decide +kernel)

/-- The clauses for the callback follow from those that were added and imported. -/
theorem exported_of_reach (h : machine.Reach (fun _ _ => True) s) {c : Clause ℕ}
    (hc : c ∈ s.exported) {σ : Assignment ℕ} (hσ : FormulaHolds σ (s.formula ++ s.imported)) :
    ClauseHolds σ c :=
  (stateOk_of_reach h).exported c hc σ hσ

theorem exported_of_reach_answered : ClauseHolds (fun _ => true) [(0, true)] :=
  exported_of_reach answered_reach (c := [(0, true)]) (by decide +kernel) (by decide +kernel)

/-! ### Propagation -/

/-- A clause in use, of one of the kinds `G`; `true` stands for the stale clauses, which
have come from the callback with a watch that was false already. -/
def InUse (G : Bool → Prop) (t : Core) (c : Clause ℕ) : Prop :=
  ∃ cr, Live t cr ∧ G (t.ca cr).stale ∧ (t.ca cr).lits = c

section Propagate

variable {t u : Core}

/-- The clauses of the reasons are those of the state before, up to the order of
their literals. -/
theorem derived_of_frame (hf : Frame t u) (hreasons : ReasonsOk u) :
    ∀ l ∈ u.trail, Derived (InUse (fun _ => True) t) (· ∈ t.trail) l := by
  refine derived_of_trail fun i l hi => ?_
  refine (hf.implied l (List.mem_of_getElem? hi)).imp_right fun hne => ?_
  obtain ⟨cr, hcr⟩ := Option.ne_none_iff_exists'.mp hne
  obtain ⟨hlive, hfirst, hbefore⟩ := hreasons i l cr hi hcr
  refine ⟨(t.ca cr).lits, ⟨cr, (hf.live_iff cr).mp hlive, trivial, rfl⟩, ?_, fun q hq hne => ?_⟩
  · rw [← (hf.cells cr).mem_iff, ← hfirst]
    exact List.mem_cons_self
  · have hq' : q ∈ (u.ca cr).lits := (hf.cells cr).mem_iff.mpr hq
    exact hbefore q ((List.mem_cons.mp hq').resolve_left fun heq => hne (heq.trans hfirst))

theorem refuted_of_conflict {cr : ℕ} (hf : Frame t u) (hconfl : ConflictOk G u cr) :
    Refuted (InUse (fun _ => True) t) (· ∈ t.trail) := by
  refine ⟨(t.ca cr).lits, ⟨cr, (hf.live_iff cr).mp hconfl.live, trivial, rfl⟩, fun q hq => ?_⟩
  exact derived_of_frame hf hconfl.reasons _
    (hconfl.allFalse q ((hf.cells cr).mem_iff.mpr hq))

/-- A clause in use whose literals but one are false has that one true. -/
theorem true_of_others (hengine : EngineOk G u) (hdone : u.qhead = u.trail.length) {cr : ℕ}
    (hlive : Live u cr) (hG : G (u.ca cr).stale) {l : Literal ℕ}
    (hothers : ∀ q ∈ (u.ca cr).lits, q ≠ l → negate q ∈ u.trail) :
    l ∈ (u.ca cr).lits ∧ l ∈ u.trail := by
  have hdistinct := hengine.cells.distinct cr hlive
  have hne : (u.ca cr).first ≠ (u.ca cr).second := by
    intro heq
    rw [Cell.lits, List.map_cons, List.nodup_cons] at hdistinct
    exact hdistinct.1 (heq ▸ List.mem_map_of_mem List.mem_cons_self)
  obtain ⟨a, hwatched, ha⟩ : ∃ a, Watched (u.ca cr) a ∧ a ≠ l := by
    by_cases hfirst : (u.ca cr).first = l
    · exact ⟨_, Or.inr rfl, fun hsecond => hne (hfirst.trans hsecond.symm)⟩
    · exact ⟨_, Or.inl rfl, hfirst⟩
  have hfalse := (hengine.trail.isFalse_iff a).mpr (hothers a hwatched.mem ha)
  obtain ⟨q, hq, htrue⟩ := hengine.watches_free hdone hlive hG hwatched hfalse
  have hmem := (hengine.trail.isTrue_iff q).mp htrue
  have hql : q = l := by
    by_contra hne
    exact hengine.trail.negate_notMem hmem (hothers q hq hne)
  subst hql
  exact ⟨hq, hmem⟩

/-- What propagate adds is derived; without a conflict nothing more is. -/
theorem propagate_derived (hengine : EngineOk G t) :
    (∀ l ∈ t.propagate.1.trail, Derived (InUse (fun _ => True) t) (· ∈ t.trail) l) ∧
      match t.propagate.2 with
      | none => (∀ l, Derived (InUse G t) (· ∈ t.trail) l → l ∈ t.propagate.1.trail) ∧
          ¬ Refuted (InUse G t) (· ∈ t.trail)
      | some _ => Refuted (InUse (fun _ => True) t) (· ∈ t.trail) := by
  obtain ⟨hf, hresult⟩ := propagateLoop_ok hengine (show t.nVars < t.nVars + 1 + t.qhead by omega)
  unfold Core.propagate
  generalize propagateLoop (t.nVars + 1) t none = r at hf hresult ⊢
  obtain ⟨u, confl⟩ := r
  cases confl with
  | some cr => exact ⟨derived_of_frame hf hresult.reasons, refuted_of_conflict hf hresult⟩
  | none =>
    obtain ⟨hu, hdone⟩ := hresult
    have hunit {c : Clause ℕ} {l : Literal ℕ} (hc : InUse G t c)
        (hothers : ∀ q ∈ c, q ≠ l → negate q ∈ u.trail) : l ∈ c ∧ l ∈ u.trail := by
      obtain ⟨cr, hlive, hG, rfl⟩ := hc
      rw [← hf.stale cr] at hG
      obtain ⟨hl, hmem⟩ := true_of_others hu hdone ((hf.live_iff cr).mpr hlive) hG
        fun q hq => hothers q ((hf.cells cr).mem_iff.mp hq)
      exact ⟨(hf.cells cr).mem_iff.mp hl, hmem⟩
    have hderived {l : Literal ℕ} (hl : Derived (InUse G t) (· ∈ t.trail) l) : l ∈ u.trail :=
      hl.mem_of_closed (fun l hl => hf.trail.subset hl) fun c hc l _ hothers => (hunit hc hothers).2
    refine ⟨derived_of_frame hf hu.reasons, fun l => hderived, ?_⟩
    rintro ⟨c, hc, hfalse⟩
    have hall (q : Literal ℕ) (hq : q ∈ c) : negate q ∈ u.trail := hderived (hfalse q hq)
    -- the first literal of the clause would be true
    obtain ⟨cr, -, -, hcr⟩ := id hc
    have hfirst : (t.ca cr).first ∈ c := by
      rw [← hcr]
      exact List.mem_cons_self
    exact hu.trail.negate_notMem (hunit hc fun q hq _ => hall q hq).2 (hall _ hfirst)

end Propagate

/-- The turn of a search propagates what follows from the clauses by unit propagation;
of the stale ones it may miss what follows. -/
theorem propagate_of_reach (h : machine.Reach (fun _ _ => True) s) (hpc : s.pc = .searching)
    {i : Input} (hvalid : i.Valid s.solver.toCore) {t : Core}
    (ht : t = (s.solver.importAll i).toCore) :
    (∀ l ∈ t.propagate.1.trail, Derived (InUse (fun _ => True) t) (· ∈ t.trail) l) ∧
      match t.propagate.2 with
      | none => (∀ l, Derived (InUse (· = false) t) (· ∈ t.trail) l → l ∈ t.propagate.1.trail) ∧
          ¬ Refuted (InUse (· = false) t) (· ∈ t.trail)
      | some _ => Refuted (InUse (fun _ => True) t) (· ∈ t.trail) := by
  have himports := ((stateOk_of_reach h).searching hpc).imports hvalid
  rw [ht]
  exact propagate_derived himports.engine

/-- The imported clause w ∨ z comes after ¬ w has been propagated, and z is missed; ¬ x
is decided, and y and z follow from the clauses x ∨ y and ¬ y ∨ z. -/
def staleRun : List Action :=
  List.replicate 4 (.newVar true) ++
    [.addClause [(3, false)], .addClause [(0, true), (1, true)],
      .addClause [(1, false), (2, true)], .solve [],
      .turn { plainTurn false with imports := [((3, true), (2, true), [])] }]

theorem staleRun_some : (machine.run (init 2) staleRun).isSome := by decide +kernel

def stale : State := (machine.run (init 2) staleRun).get staleRun_some

theorem stale_reach : machine.Reach (fun _ _ => True) stale :=
  Machine.Reach.of_run ⟨2, rfl⟩ (Option.some_get staleRun_some).symm

theorem propagate_of_reach_stale :
    stale.solver.trail = [(3, false), (0, false)] ∧
      stale.solver.propagate.1.trail = [(3, false), (0, false), (1, true), (2, true)] ∧
      (∀ l ∈ stale.solver.propagate.1.trail,
        Derived (InUse (fun _ => True) stale.solver.toCore) (· ∈ stale.solver.trail) l) ∧
      match stale.solver.propagate.2 with
      | none =>
        (∀ l, Derived (InUse (· = false) stale.solver.toCore) (· ∈ stale.solver.trail) l →
            l ∈ stale.solver.propagate.1.trail) ∧
          ¬ Refuted (InUse (· = false) stale.solver.toCore) (· ∈ stale.solver.trail)
      | some _ =>
        Refuted (InUse (fun _ => True) stale.solver.toCore) (· ∈ stale.solver.trail) := by
  refine ⟨by decide +kernel, by decide +kernel, propagate_of_reach (i := plainTurn false)
    stale_reach (by decide +kernel) ⟨?_, ?_⟩ (by rw [importAll_plainTurn])⟩
  · exact fun l hl => absurd hl List.not_mem_nil
  · exact fun c hc => absurd hc List.not_mem_nil

/-! ### Analysis -/

/-- The search for redundant literals ends at once where no literal of the reason
has to be looked into. -/
theorem litRedundantLoop_skip {t : Core} {m : Marks} {p : Literal ℕ} {left : Clause ℕ} {fuel : ℕ}
    (hfuel : left.length < fuel) (hleft : ∀ l ∈ left, Kept t m.seen l.1) :
    litRedundantLoop t fuel ⟨m, p, left, []⟩ = some (true, m.mark .removable p) := by
  induction left generalizing fuel with
  | nil =>
    obtain ⟨fuel, rfl⟩ := Nat.exists_eq_succ_of_ne_zero hfuel.ne'
    rfl
  | cons l left ih =>
    obtain ⟨fuel, rfl⟩ := Nat.exists_eq_succ_of_ne_zero (Nat.ne_zero_of_lt hfuel)
    obtain ⟨hl, hrest⟩ := List.forall_mem_cons.mp hleft
    have hskip : t.level l.1 = 0 ∨ m.seen l.1 = .source ∨ m.seen l.1 = .removable := hl
    unfold litRedundantLoop
    dsimp only
    rw [if_pos hskip]
    exact ih (Nat.lt_of_succ_lt_succ hfuel) hrest

theorem minimizeLocal_cons {t : Core} {m : Marks} {q : Literal ℕ} (rest : Clause ℕ)
    (h : t.reason q.1 = none ∨ ∃ l ∈ reasonTail t q.1, m.seen l.1 = .undef ∧ 0 < t.level l.1) :
    minimizeLocal t m (q :: rest) = q :: minimizeLocal t m rest :=
  List.filter_cons_of_pos (decide_eq_true h)

/-- What the reason alone shows to be redundant, the deep search finds too. -/
theorem minimizeDeep_sublist {t : Core} (htrail : TrailOk t) (hreasons : ReasonsOk t)
    {source : ℕ → Prop} {m₀ m m' : Marks} {lits kept : Clause ℕ}
    (htwo : ∀ v, m₀.seen v = .undef ∨ m₀.seen v = .source)
    (hsource : ∀ v, m₀.seen v = .source → source v) (hmarks : MarksOk t source m)
    (hlits : ∀ q ∈ lits, negate q ∈ t.trail ∧ source q.1)
    (hresult : minimizeDeep t m lits = some (m', kept)) :
    kept.Sublist (minimizeLocal t m₀ lits) := by
  induction lits generalizing m m' kept with
  | nil =>
    obtain ⟨rfl, rfl⟩ := Prod.mk.inj (Option.some.inj hresult)
    exact List.Sublist.refl _
  | cons q rest ih =>
    obtain ⟨⟨hq, hqsource⟩, hrest⟩ := List.forall_mem_cons.mp hlits
    unfold minimizeDeep at hresult
    by_cases hreason : t.reason q.1 = none
    · rw [if_pos hreason] at hresult
      obtain ⟨⟨m₂, kept₂⟩, hnext, heq⟩ := Option.map_eq_some_iff.mp hresult
      obtain ⟨-, rfl⟩ := Prod.mk.inj heq
      rw [minimizeLocal_cons rest (Or.inl hreason)]
      exact (ih hmarks hrest hnext).cons_cons q
    rw [if_neg hreason] at hresult
    obtain ⟨b, m₁, hsearch, hmarks₁, -, -⟩ :=
      litRedundant_ok htrail hreasons hmarks hq hreason hqsource
    rw [hsearch] at hresult
    cases b with
    | true =>
      refine (ih hmarks₁ hrest hresult).trans ?_
      unfold minimizeLocal
      exact (List.sublist_cons_self q rest).filter _
    | false =>
      obtain ⟨⟨m₂, kept₂⟩, hnext, heq⟩ := Option.map_eq_some_iff.mp hresult
      obtain ⟨-, rfl⟩ := Prod.mk.inj heq
      have hkeep : ∃ l ∈ reasonTail t q.1, m₀.seen l.1 = .undef ∧ 0 < t.level l.1 := by
        by_contra hnone
        have hskip : litRedundant t m q = some (true, m.mark .removable q) := by
          refine litRedundantLoop_skip ?_ fun l hl => ?_
          · unfold redundantFuel
            omega
          · rcases Nat.eq_zero_or_pos (t.level l.1) with hzero | hpos
            · exact Or.inl hzero
            · refine Or.inr (Or.inl ((hmarks.source l.1).mpr (hsource l.1 ?_)))
              exact (htwo l.1).resolve_left fun hundef => hnone ⟨l, hl, hundef, hpos⟩
        have hbool := (Prod.mk.inj (Option.some.inj (hsearch.symm.trans hskip))).1
        exact absurd hbool (by simp)
      rw [minimizeLocal_cons rest (Or.inr hkeep)]
      exact (ih hmarks₁ hrest hnext).cons_cons q

/-- The clause without minimization contains the one of ccmin_mode 1, which
contains the one of ccmin_mode 2; the asserting literal is the same. -/
theorem analyze_minimized {t : Core} (htrail : TrailOk t) (hreasons : ReasonsOk t) {confl : ℕ}
    (hfalse : ∀ q ∈ (t.ca confl).lits, negate q ∈ t.trail)
    (hcurrent : ∃ q ∈ (t.ca confl).lits, t.level q.1 = t.decisionLevel)
    (hlevel : 0 < t.decisionLevel) {seen : ℕ → Seen} (hseen : ∀ v, seen v = .undef) :
    ∃ p plain basic deep plainSeen basicSeen deepSeen,
      analyze t seen 0 confl = some ⟨p :: plain, backtrackLevel t plain, plainSeen⟩ ∧
      analyze t seen 1 confl = some ⟨p :: basic, backtrackLevel t basic, basicSeen⟩ ∧
      analyze t seen 2 confl = some ⟨p :: deep, backtrackLevel t deep, deepSeen⟩ ∧
      deep.Subperm basic ∧ basic.Subperm plain := by
  obtain ⟨hok, -⟩ := resolution_start htrail hfalse hseen
  have hpos := resolution_pos htrail hfalse hcurrent hlevel hseen
  obtain ⟨p, a, done, hresolve, hto, -⟩ := resolve_ok htrail hreasons hlevel hok
    le_rfl (show Resolved t _ fun _ => False from fun v hv => absurd hv id) hpos
  rw [List.take_length] at hresolve
  have htwo (v : ℕ) : a.seen v = .undef ∨ a.seen v = .source := by
    rw [hto.seen]
    split_ifs
    · exact Or.inr rfl
    · exact Or.inl rfl
  have hmarks := marks_start hto (negate p)
  have hlits : ∀ q ∈ a.learnt, negate q ∈ t.trail ∧ q.1 ∈ a.learnt.map Prod.fst :=
    fun q hq => ⟨(hto.learnt q hq).1, List.mem_map_of_mem hq⟩
  obtain ⟨m, deep, hdeep, -, -, -⟩ := minimizeDeep_ok htrail hreasons hmarks hlits
  have hsublist := minimizeDeep_sublist htrail hreasons htwo
    (fun v hv => (hmarks.source v).mp hv) hmarks hlits hdeep
  have hswap {c d : Clause ℕ} (h : c.Sublist d) : (swapMax t c).Subperm (swapMax t d) :=
    ((swapMax_perm t c).subperm.trans h.subperm).trans (swapMax_perm t d).symm.subperm
  unfold analyze
  rw [hresolve]
  refine ⟨negate p, swapMax t a.learnt,
    swapMax t (minimizeLocal t ⟨a.seen, negate p :: a.learnt⟩ a.learnt), swapMax t deep, _, _,
    m.toclear.foldl (fun seen l => Function.update seen l.1 .undef) m.seen, rfl, rfl, ?_,
    hswap hsublist, hswap List.filter_sublist⟩
  dsimp only
  rw [minimize, if_pos rfl, hdeep]

section Conflict

variable {u : Core} {confl : ℕ} (h : machine.Reach (fun _ _ => True) s) (hpc : s.pc = .searching)
  (hlevel : 0 < s.solver.decisionLevel) (hconfl : s.solver.propagate = (u, some confl))
include h hpc hconfl

/-- The false clause that a search has met. -/
theorem conflict_ok : Frame s.solver.toCore u ∧ ConflictOk (· = false) u confl := by
  have hengine := ((stateOk_of_reach h).searching hpc).engine
  obtain ⟨hf, hresult⟩ := propagateLoop_ok hengine
    (show s.solver.nVars < s.solver.nVars + 1 + s.solver.qhead by omega)
  rw [show propagateLoop (s.solver.nVars + 1) s.solver.toCore none = (u, some confl) from hconfl]
    at hf hresult
  exact ⟨hf, hresult⟩

include hlevel

/-- The clause that is learnt follows from the clauses, has one literal of the
current level and becomes unit after backtracking. -/
theorem analyze_of_reach (ccminMode : ℕ) :
    ∃ p others seen, analyze u s.solver.seen ccminMode confl =
        some ⟨p :: others, backtrackLevel u others, seen⟩ ∧
      (∀ v, seen v = .undef) ∧
      LearntOk u p others ∧
      (∀ σ, FormulaHolds σ (s.formula ++ s.imported) → ClauseHolds σ (p :: others)) ∧
      (u.cancelUntil (backtrackLevel u others)).assigns p.1 = none ∧
      ∀ q ∈ others, IsFalse (u.cancelUntil (backtrackLevel u others)).assigns q := by
  obtain ⟨hf, hok⟩ := conflict_ok h hpc hconfl
  have hsearching := (stateOk_of_reach h).searching hpc
  have hdatabase := hsearching.database.of_frame hf hsearching.engine.trail hok.trail hok.reasons
  have hpos : 0 < u.decisionLevel := by
    rw [hf.decisionLevel]
    exact hlevel
  obtain ⟨p, others, seen, hanalyze, hlearnt, hseen, hholds⟩ :=
    analyze_ok hok.trail hok.reasons hok.live hok.allFalse hok.current hpos hdatabase.seen ccminMode
  obtain ⟨hp, hothers, -⟩ := learnt_after_backtrack hok.trail hlearnt
  refine ⟨p, others, seen, hanalyze, hseen, hlearnt, fun σ hσ => ?_, hp, fun q hq => ?_⟩
  · exact hholds σ (hdatabase.implied σ hσ)
  · exact ((hok.trail.cancelUntil _).isFalse_iff q).mpr (hothers q hq)

/-- Minimization only drops literals, the deep one all that the basic one does. -/
theorem analyze_minimized_of_reach :
    ∃ p plain basic deep plainSeen basicSeen deepSeen,
      analyze u s.solver.seen 0 confl = some ⟨p :: plain, backtrackLevel u plain, plainSeen⟩ ∧
      analyze u s.solver.seen 1 confl = some ⟨p :: basic, backtrackLevel u basic, basicSeen⟩ ∧
      analyze u s.solver.seen 2 confl = some ⟨p :: deep, backtrackLevel u deep, deepSeen⟩ ∧
      deep.Subperm basic ∧ basic.Subperm plain := by
  obtain ⟨hf, hok⟩ := conflict_ok h hpc hconfl
  have hpos : 0 < u.decisionLevel := by
    rw [hf.decisionLevel]
    exact hlevel
  exact analyze_minimized hok.trail hok.reasons hok.allFalse hok.current hpos
    ((stateOk_of_reach h).searching hpc).database.seen

end Conflict

/-- g, d and e are decided, with d → a, d → b and b → c; then d ∧ a ∧ e → f and
g ∧ c ∧ e → ¬ f are in conflict. -/
def chainRun : List Action :=
  List.replicate 7 (.newVar true) ++
    [.addClause [(1, false), (2, true)], .addClause [(1, false), (3, true)],
      .addClause [(3, false), (4, true)],
      .addClause [(1, false), (2, false), (5, false), (6, true)],
      .addClause [(0, false), (4, false), (5, false), (6, false)], .solve []] ++
    List.replicate 3 (.turn (plainTurn true))

theorem chainRun_some : (machine.run (init 2) chainRun).isSome := by decide +kernel

def chained : State := (machine.run (init 2) chainRun).get chainRun_some

theorem chained_reach : machine.Reach (fun _ _ => True) chained :=
  Machine.Reach.of_run ⟨2, rfl⟩ (Option.some_get chainRun_some).symm

theorem chained_conflict : chained.solver.propagate = (chained.solver.propagate.1, some 3) :=
  Prod.ext rfl (by decide +kernel)

/-- The clause that is learnt with each ccmin_mode. -/
def learntOf (ccminMode : ℕ) : Option (Clause ℕ) :=
  (analyze chained.solver.propagate.1 chained.solver.seen ccminMode 3).map Analysis.learnt

theorem analyze_of_reach_chained :
    learntOf 2 = some [(5, false), (1, false), (0, false)] ∧
    ∃ p others seen, analyze chained.solver.propagate.1 chained.solver.seen 2 3 =
        some ⟨p :: others, backtrackLevel chained.solver.propagate.1 others, seen⟩ ∧
      (∀ v, seen v = .undef) ∧
      LearntOk chained.solver.propagate.1 p others ∧
      (∀ σ, FormulaHolds σ (chained.formula ++ chained.imported) → ClauseHolds σ (p :: others)) ∧
      (chained.solver.propagate.1.cancelUntil
        (backtrackLevel chained.solver.propagate.1 others)).assigns p.1 = none ∧
      ∀ q ∈ others, IsFalse (chained.solver.propagate.1.cancelUntil
        (backtrackLevel chained.solver.propagate.1 others)).assigns q :=
  ⟨by decide +kernel, analyze_of_reach chained_reach (by decide +kernel) (by decide +kernel)
    chained_conflict 2⟩

/-- ccmin_mode 1 drops ¬ a, and 2 also ¬ c. -/
theorem analyze_minimized_of_reach_chained :
    learntOf 0 = some [(5, false), (1, false), (2, false), (0, false), (4, false)] ∧
    learntOf 1 = some [(5, false), (1, false), (0, false), (4, false)] ∧
    learntOf 2 = some [(5, false), (1, false), (0, false)] ∧
    ∃ p plain basic deep plainSeen basicSeen deepSeen,
      analyze chained.solver.propagate.1 chained.solver.seen 0 3 =
        some ⟨p :: plain, backtrackLevel chained.solver.propagate.1 plain, plainSeen⟩ ∧
      analyze chained.solver.propagate.1 chained.solver.seen 1 3 =
        some ⟨p :: basic, backtrackLevel chained.solver.propagate.1 basic, basicSeen⟩ ∧
      analyze chained.solver.propagate.1 chained.solver.seen 2 3 =
        some ⟨p :: deep, backtrackLevel chained.solver.propagate.1 deep, deepSeen⟩ ∧
      deep.Subperm basic ∧ basic.Subperm plain :=
  ⟨by decide +kernel, by decide +kernel, by decide +kernel, analyze_minimized_of_reach
    chained_reach (by decide +kernel) (by decide +kernel) chained_conflict⟩

end Painless.MiniSatAnswers
