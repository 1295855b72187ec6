import Painless.MiniSatTurns

/-!
The runs of the MiniSat engine. Whatever is called in whatever order, no assertion
fails and no read is out of bounds; an answer l_True comes with a model of the
clauses that were added, an answer l_False with a reason among the assumptions, and
the clauses that are exported follow from those that were added and imported.
-/
namespace Painless.MiniSatRuns

open Cnf PartialAssignment MiniSatCore MiniSatTrail MiniSatWatches
open MiniSatPropagate MiniSatAnalyze MiniSatLearnt MiniSatEngine MiniSatSearch MiniSatDatabase
open MiniSatTurns
open MiniSatCore.Core
open MiniSatSearch.Solver (index)
open Transitions (Machine)

variable {G : Bool → Prop} {f g : Formula ℕ} {s : Solver}

/-! ### addClause -/

/-- Where neither literal is the other or its negation, the order is by variable. -/
theorem var_lt_of_index_le {p q : Literal ℕ} (h : index p ≤ index q) (hne : p ≠ q)
    (hneg : p ≠ negate q) : p.1 < q.1 := by
  obtain ⟨v, a⟩ := p
  obtain ⟨w, b⟩ := q
  unfold index at h
  unfold negate at hneg
  have hvar : v = w → a = b ∨ a = !b := fun _ => by cases a <;> cases b <;> simp
  have hle : v ≤ w := by
    simp only at h
    split_ifs at h <;> omega
  refine lt_of_le_of_ne hle fun heq => ?_
  have heq' : v = w := heq
  subst heq'
  rcases hvar rfl with rfl | rfl
  · exact hne rfl
  · exact hneg rfl

/-- What is left of a sorted clause. -/
structure Simplified (M : Partial ℕ) (prev : Option (Literal ℕ)) (ps lits : Clause ℕ) : Prop where
  sublist : lits.Sublist ps
  unassigned : ∀ l ∈ lits, M l.1 = none
  above : ∀ l ∈ lits, ∀ p, prev = some p → p.1 < l.1
  increasing : (lits.map Prod.fst).Pairwise (· < ·)
  dropped : ∀ l ∈ ps, l ∈ lits ∨ IsFalse M l ∨ prev = some l

theorem simplifyLits_spec {M : Partial ℕ} {ps : Clause ℕ} {prev : Option (Literal ℕ)}
    (hsorted : ps.Pairwise fun a b => index a ≤ index b)
    (hprev : ∀ p, prev = some p → ∀ q ∈ ps, index p ≤ index q) :
    match Solver.simplifyLits M prev ps with
    | none => ∃ l ∈ ps, IsTrue M l ∨ negate l ∈ ps ∨ prev = some (negate l)
    | some lits => Simplified M prev ps lits := by
  induction ps generalizing prev with
  | nil => exact ⟨List.Sublist.refl _, fun l hl => absurd hl List.not_mem_nil,
      fun l hl => absurd hl List.not_mem_nil, List.Pairwise.nil,
      fun l hl => absurd hl List.not_mem_nil⟩
  | cons q rest ih =>
    obtain ⟨hq, hrest⟩ := List.pairwise_cons.mp hsorted
    unfold Solver.simplifyLits
    by_cases htrue : IsTrue M q ∨ prev = some (negate q)
    · rw [if_pos htrue]
      exact ⟨q, List.mem_cons_self, htrue.imp_right Or.inr⟩
    rw [if_neg htrue]
    obtain ⟨hnot, hneg⟩ := not_or.mp htrue
    by_cases hkeep : ¬ IsFalse M q ∧ prev ≠ some q
    · have hnext := @ih (some q) hrest fun p hp => by
        rw [← Option.some.inj hp]
        exact hq
      rw [if_pos hkeep]
      cases hresult : Solver.simplifyLits M (some q) rest with
      | none =>
        rw [hresult] at hnext
        obtain ⟨l, hl, hcase⟩ := hnext
        refine ⟨l, List.mem_cons_of_mem q hl, hcase.imp_right fun hcase => Or.inl ?_⟩
        rcases hcase with hin | heq
        · exact List.mem_cons_of_mem q hin
        · rw [← Option.some.inj heq]
          exact List.mem_cons_self
      | some lits =>
        rw [hresult] at hnext
        have hlt {p : Literal ℕ} (hp : prev = some p) : p.1 < q.1 := by
          refine var_lt_of_index_le (hprev p hp q List.mem_cons_self) ?_ ?_
          · rintro rfl
            exact hkeep.2 hp
          · rintro rfl
            exact hneg hp
        refine ⟨hnext.sublist.cons_cons q, List.forall_mem_cons.mpr
          ⟨eq_none_of_not hnot hkeep.1, hnext.unassigned⟩, List.forall_mem_cons.mpr
          ⟨fun p hp => hlt hp, fun l hl p hp => (hlt hp).trans (hnext.above l hl q rfl)⟩,
          List.pairwise_cons.mpr ⟨fun v hv => ?_, hnext.increasing⟩, List.forall_mem_cons.mpr
          ⟨Or.inl List.mem_cons_self, fun l hl => ?_⟩⟩
        · obtain ⟨l, hl, rfl⟩ := List.mem_map.mp hv
          exact hnext.above l hl q rfl
        · rcases hnext.dropped l hl with hin | hfalse | heq
          · exact Or.inl (List.mem_cons_of_mem q hin)
          · exact Or.inr (Or.inl hfalse)
          · rw [← Option.some.inj heq]
            exact Or.inl List.mem_cons_self
    · have hnext := @ih prev hrest fun p hp r hr =>
        hprev p hp r (List.mem_cons_of_mem q hr)
      have hskip : IsFalse M q ∨ prev = some q := by
        by_contra hcontra
        obtain ⟨hfalse, hne⟩ := not_or.mp hcontra
        exact hkeep ⟨hfalse, hne⟩
      rw [if_neg hkeep]
      cases hresult : Solver.simplifyLits M prev rest with
      | none =>
        rw [hresult] at hnext
        obtain ⟨l, hl, hcase⟩ := hnext
        refine ⟨l, List.mem_cons_of_mem q hl, hcase.imp_right (Or.imp_left fun hin => ?_)⟩
        exact List.mem_cons_of_mem q hin
      | some lits =>
        rw [hresult] at hnext
        exact ⟨hnext.sublist.cons q, hnext.unassigned, hnext.above, hnext.increasing,
          List.forall_mem_cons.mpr ⟨Or.inr hskip, hnext.dropped⟩⟩

/-- The clause itself, not only what is left of it. -/
theorem simplifyLits_sorted (M : Partial ℕ) (ps : Clause ℕ) :
    match Solver.simplifyLits M none (ps.insertionSort fun a b => index a ≤ index b) with
    | none => Tautology ps ∨ ∃ l ∈ ps, IsTrue M l
    | some lits => (∀ l ∈ lits, l ∈ ps ∧ M l.1 = none) ∧ (lits.map Prod.fst).Nodup ∧
        ∀ l ∈ ps, l ∈ lits ∨ IsFalse M l := by
  have htotal : Std.Total fun a b : Literal ℕ => index a ≤ index b := ⟨fun a b => le_total _ _⟩
  have htrans : IsTrans (Literal ℕ) fun a b => index a ≤ index b := ⟨fun a b c => le_trans⟩
  have hperm := List.perm_insertionSort (fun a b : Literal ℕ => index a ≤ index b) ps
  have hspec := @simplifyLits_spec M _ none
    (List.pairwise_insertionSort (fun a b : Literal ℕ => index a ≤ index b) ps)
    fun p hp => absurd hp.symm (Option.some_ne_none p)
  cases hresult : Solver.simplifyLits M none (ps.insertionSort fun a b => index a ≤ index b) with
  | none =>
    rw [hresult] at hspec
    obtain ⟨l, hl, htrue | hneg | hbad⟩ := hspec
    · exact Or.inr ⟨l, hperm.mem_iff.mp hl, htrue⟩
    · exact Or.inl ⟨l, hperm.mem_iff.mp hl, hperm.mem_iff.mp hneg⟩
    · exact absurd hbad.symm (Option.some_ne_none _)
  | some lits =>
    rw [hresult] at hspec
    refine ⟨fun l hl => ⟨hperm.mem_iff.mp (hspec.sublist.subset hl), hspec.unassigned l hl⟩,
      hspec.increasing.imp fun hlt => hlt.ne, fun l hl => ?_⟩
    rcases hspec.dropped l (hperm.mem_iff.mpr hl) with hin | hfalse | hbad
    · exact Or.inl hin
    · exact Or.inr hfalse
    · exact absurd hbad.symm (Option.some_ne_none _)

theorem Unsat.mono {f f' g g' : Formula ℕ} (h : Unsat (f ++ g)) (hf : f ⊆ f') (hg : g ⊆ g') :
    Unsat (f' ++ g') := fun σ hσ => h σ (mono_formula hf hg hσ)

/-- A clause that is represented has been added. -/
theorem DatabaseOk.added {ps : Clause ℕ} (h : DatabaseOk f (g ++ [ps]) s)
    (hps : Represented s.toCore ps) : DatabaseOk (f ++ [ps]) g s := by
  refine { h with implied := fun σ hσ => h.implied σ ?_, represented := fun c hc => ?_ }
  · simp only [formulaHolds_append] at hσ ⊢
    tauto
  · rcases List.mem_append.mp hc with hc | hc
    · exact h.represented c hc
    · rw [List.mem_singleton.mp hc]
      exact hps

/-- At level 0 what is left of a clause holds where the clause does. -/
theorem holds_of_dropped {ps lits : Clause ℕ} (hengine : EngineOk G s.toCore)
    (hdatabase : DatabaseOk f g s) (hlevel : s.decisionLevel = 0)
    (hdropped : ∀ l ∈ ps, l ∈ lits ∨ IsFalse s.assigns l) {σ : Assignment ℕ}
    (hσ : FormulaHolds σ (f ++ (g ++ [ps]))) : ClauseHolds σ lits := by
  rw [← List.append_assoc, formulaHolds_append] at hσ
  obtain ⟨l, hl, hholds⟩ := hσ.2 ps (List.mem_singleton_self ps)
  refine ⟨l, (hdropped l hl).resolve_right fun hfalse => ?_, hholds⟩
  have hmem := (hengine.trail.isFalse_iff l).mp hfalse
  have hle := hengine.trail.level_le hmem
  rw [hlevel] at hle
  have hneg := (hdatabase.implied σ hσ.1).root (negate l) hmem (Nat.le_zero.mp hle)
  exact (literalHolds_negate σ l).mp hneg hholds

/-- A literal at level 0 is propagated at once. -/
theorem addUnit_ok {ps : Clause ℕ} {p : Literal ℕ} (hengine : EngineOk G s.toCore)
    (hdatabase : DatabaseOk f g s) (hlevel : s.decisionLevel = 0)
    (hp : p ∈ ps) (hnone : s.assigns p.1 = none) (hrange : p.1 < s.nVars)
    (hholds : ∀ σ, FormulaHolds σ (f ++ (g ++ [ps])) → LiteralHolds σ p) :
    IdleOk G (f ++ [ps]) g (s.addLits [p]).1 := by
  have hnext := uncheckedEnqueue_ok (o := none) hengine hnone hrange (fun _ => Or.inl hlevel)
    fun cr hcr => absurd hcr.symm (Option.some_ne_none cr)
  have hadded : DatabaseOk (f ++ [ps]) g (s.setCore (s.toCore.uncheckedEnqueue p none)) := by
    refine DatabaseOk.added
      ((hdatabase.imported [ps]).enqueue hengine.trail hnone fun _ => hholds) ?_
    exact Or.inr (Or.inl ⟨p, hp, List.mem_append_right _ (List.mem_singleton_self p),
      level_uncheckedEnqueue_self.trans hlevel⟩)
  obtain ⟨hf, hresult⟩ :=
    propagateLoop_ok hnext (show s.nVars < s.nVars + 1 + s.qhead by omega)
  unfold Solver.addLits Core.propagate
  show IdleOk G (f ++ [ps]) g { s with
    toCore := (propagateLoop (s.nVars + 1) (s.toCore.uncheckedEnqueue p none) none).1
    ok := (propagateLoop (s.nVars + 1) (s.toCore.uncheckedEnqueue p none) none).2.isNone }
  generalize propagateLoop (s.nVars + 1) (s.toCore.uncheckedEnqueue p none) none = r at hf hresult ⊢
  obtain ⟨t, confl⟩ := r
  have hlevel' : t.decisionLevel = 0 := hf.decisionLevel.trans hlevel
  cases confl with
  | none =>
    obtain ⟨ht, hdone⟩ := hresult
    refine ⟨hlevel', fun _ => ⟨ht, ?_, hdone⟩, fun hfalse => absurd hfalse (by simp)⟩
    exact { hadded.of_frame hf hnext.trail ht.trail ht.reasons with }
  | some cr =>
    refine ⟨hlevel', fun htrue => absurd htrue (by simp), fun _ => ?_⟩
    exact unsat_of_conflict (hadded.of_frame hf hnext.trail hresult.trail hresult.reasons) hresult
      hlevel'

theorem addLits_ok {ps lits : Clause ℕ} (hengine : EngineOk G s.toCore)
    (hdatabase : DatabaseOk f g s) (hlevel : s.decisionLevel = 0) (hok : s.ok = true)
    (hdone : s.qhead = s.trail.length) (hrange : InRange s.toCore ps)
    (hlits : ∀ l ∈ lits, l ∈ ps ∧ s.assigns l.1 = none) (hnodup : (lits.map Prod.fst).Nodup)
    (hdropped : ∀ l ∈ ps, l ∈ lits ∨ IsFalse s.assigns l) :
    IdleOk G (f ++ [ps]) g (s.addLits lits).1 := by
  have hholds (σ : Assignment ℕ) (hσ : FormulaHolds σ (f ++ (g ++ [ps]))) : ClauseHolds σ lits :=
    holds_of_dropped hengine hdatabase hlevel hdropped hσ
  match lits with
  | [] =>
    refine ⟨hlevel, fun htrue => absurd (show false = true from htrue) (by simp), fun _ σ hσ => ?_⟩
    refine not_clauseHolds_nil σ (hholds σ ?_)
    simp only [formulaHolds_append] at hσ ⊢
    tauto
  | [p] =>
    obtain ⟨hp, hnone⟩ := hlits p List.mem_cons_self
    refine addUnit_ok hengine hdatabase hlevel hp hnone (hrange p hp) fun σ hσ => ?_
    obtain ⟨q, hq, hq'⟩ := hholds σ hσ
    rwa [List.mem_singleton.mp hq] at hq'
  | p :: q :: rest =>
    have hfree {l : Literal ℕ} (hl : l ∈ p :: q :: rest) : ¬ FalseBefore s.toCore s.qhead l := by
      intro hfalse
      have hmem : negate l ∈ s.trail := FalseBefore.mem hfalse
      exact (hengine.trail.unassigned_iff l.1).mp (hlits l hl).2 (List.mem_map.mpr ⟨_, hmem, rfl⟩)
    have hnext : EngineOk G (s.allocAttach p q rest false false) :=
      allocAttach_ok hengine hnodup (fun l hl => hrange l (hlits l hl).1) fun _ =>
        ⟨hfree List.mem_cons_self, hfree (List.mem_cons_of_mem _ List.mem_cons_self)⟩
    refine ⟨hlevel, fun _ => ⟨hnext, ?_, hdone⟩, fun hfalse => ?_⟩
    · refine DatabaseOk.added ((hdatabase.imported [ps]).allocProblem hholds) ?_
      refine Or.inr (Or.inr ⟨s.caSize, live_allocAttach.mpr (Or.inr rfl), ?_⟩)
      show PartOf ((s.allocAttach p q rest false false).ca s.caSize) ps
      rw [ca_allocAttach_self]
      exact ⟨rfl, rfl, fun l hl => (hlits l hl).1⟩
    · exact absurd (hok.symm.trans hfalse) (by simp)

theorem addClause_ok (h : IdleOk G f g s) {ps : Clause ℕ} (hrange : InRange s.toCore ps) :
    IdleOk G (f ++ [ps]) g (s.addClause ps).1 := by
  unfold Solver.addClause
  by_cases hok : s.ok = false
  · rw [if_pos hok]
    refine ⟨h.level, fun htrue => absurd (hok.symm.trans htrue) (by simp), fun _ => ?_⟩
    exact Unsat.mono (h.unsat hok) (List.subset_append_left f [ps]) (List.Subset.refl g)
  have hok' : s.ok = true := (Bool.not_eq_false _).mp hok
  obtain ⟨hengine, hdatabase, hdone⟩ := h.sat hok'
  have hspec := simplifyLits_sorted s.assigns ps
  rw [if_neg hok]
  cases hresult : Solver.simplifyLits s.assigns none
      (ps.insertionSort fun a b => index a ≤ index b) with
  | some lits =>
    rw [hresult] at hspec
    obtain ⟨hlits, hnodup, hdropped⟩ := hspec
    exact addLits_ok hengine hdatabase h.level hok' hdone hrange hlits hnodup hdropped
  | none =>
    rw [hresult] at hspec
    refine ⟨h.level, fun _ => ⟨hengine, DatabaseOk.added (hdatabase.imported [ps]) ?_, hdone⟩,
      fun hfalse => absurd hfalse hok⟩
    refine hspec.imp_right fun ⟨l, hl, htrue⟩ => Or.inl ⟨l, hl, ?_⟩
    have hmem := (hengine.trail.isTrue_iff l).mp htrue
    have hle := hengine.trail.level_le hmem
    have hlevel : s.decisionLevel = 0 := h.level
    exact ⟨hmem, Nat.le_zero.mp (hlevel ▸ hle)⟩

/-! ### newVar -/

section NewVar

variable {dvar : Bool}

theorem vardata_newVar {v : ℕ} (hv : v < s.nVars) :
    (s.newVar dvar).vardata v = s.vardata v := Function.update_of_ne hv.ne _ _

theorem watches_newVar {p : Literal ℕ} (hp : p.1 < s.nVars) :
    (s.newVar dvar).watches p = s.watches p := by
  have hne (b : Bool) : p ≠ (s.nVars, b) := fun heq => hp.ne (congrArg Prod.fst heq)
  show Function.update (Function.update s.watches (s.nVars, true) []) (s.nVars, false) [] p = _
  rw [Function.update_of_ne (hne false), Function.update_of_ne (hne true)]

theorem mem_watches_newVar {p : Literal ℕ} {w : ImportedWatches.Watcher}
    (hw : w ∈ (s.newVar dvar).watches p) : w ∈ s.watches p := by
  have hw' : w ∈ Function.update (Function.update s.watches (s.nVars, true) [])
      (s.nVars, false) [] p := hw
  rw [Function.update_apply, Function.update_apply] at hw'
  split_ifs at hw' with hneg hpos
  · exact absurd hw' List.not_mem_nil
  · exact absurd hw' List.not_mem_nil
  · exact hw'

theorem assigns_newVar (htrail : TrailOk s.toCore) : (s.newVar dvar).assigns = s.assigns := by
  show Function.update s.assigns s.nVars none = s.assigns
  have hnone : s.assigns s.nVars = none := by
    rw [htrail.unassigned_iff]
    intro hmem
    obtain ⟨l, hl, hvar⟩ := List.mem_map.mp hmem
    exact absurd (htrail.inRange l hl) (by omega)
  rw [← hnone, Function.update_eq_self]

theorem newVar_engine (h : EngineOk G s.toCore) : EngineOk G (s.newVar dvar).toCore := by
  have hdata {l : Literal ℕ} (hl : l ∈ s.trail) :
      (s.newVar dvar).vardata l.1 = s.vardata l.1 := vardata_newVar (h.trail.inRange l hl)
  have hlevel {l : Literal ℕ} (hl : l ∈ s.trail) : (s.newVar dvar).level l.1 = s.level l.1 :=
    congrArg VarData.level (hdata hl)
  have hreason {l : Literal ℕ} (hl : l ∈ s.trail) : (s.newVar dvar).reason l.1 = s.reason l.1 :=
    congrArg VarData.reason (hdata hl)
  constructor
  · refine ⟨h.trail.nodup, ?_, fun l hl => Nat.lt_succ_of_lt (h.trail.inRange l hl), h.trail.sorted,
      h.trail.limsLe, h.trail.qheadLe, fun i l hi => ?_, fun i l hi hnone hpos => ?_⟩
    · rw [assigns_newVar h.trail]
      exact h.trail.assigned
    · rw [hlevel (List.mem_of_getElem? hi)]
      exact h.trail.levels i l hi
    · rw [hreason (List.mem_of_getElem? hi)] at hnone
      rw [hlevel (List.mem_of_getElem? hi)] at hpos ⊢
      exact h.trail.decided i l hi hnone hpos
  · intro i l cr hi hcr
    rw [hreason (List.mem_of_getElem? hi)] at hcr
    exact h.reasons i l cr hi hcr
  · exact ⟨h.cells.distinct, fun cr hcr l hl => Nat.lt_succ_of_lt (h.cells.inRange cr hcr l hl)⟩
  · constructor
    · intro cr hcr a ha
      rw [watches_newVar (p := negate a) (h.cells.inRange cr hcr a ha.mem)]
      exact h.watch.attached cr hcr a ha
    · exact fun p w hw => h.watch.known p w (mem_watches_newVar hw)
    · intro p w hw hlive
      obtain ⟨hwatched, hblocker⟩ := h.watch.watching p w (mem_watches_newVar hw) hlive
      refine ⟨hwatched, hblocker.imp_right fun hroot => ⟨hroot.1, ?_⟩⟩
      have hsame := hlevel hroot.1
      exact hsame.trans hroot.2
    · exact fun p w hw => h.watch.stale p w (mem_watches_newVar hw)
    · intro p
      by_cases hp : p.1 = s.nVars
      · have hnil : (s.newVar dvar).watches p = [] := by
          show Function.update (Function.update s.watches _ []) _ [] p = []
          obtain ⟨v, b⟩ := p
          obtain rfl : v = s.nVars := hp
          cases b with
          | false => exact Function.update_self _ _ _
          | true =>
            rw [Function.update_of_ne (by simp)]
            exact Function.update_self _ _ _
        rw [hnil]
        exact List.nodup_nil
      · have hsame : (s.newVar dvar).watches p = s.watches p := by
          have hne (b : Bool) : p ≠ (s.nVars, b) := fun heq => hp (congrArg Prod.fst heq)
          show Function.update (Function.update s.watches _ []) _ [] p = _
          rw [Function.update_of_ne (hne false), Function.update_of_ne (hne true)]
        rw [hsame]
        exact h.watch.once p
  · intro cr hcr hG a ha hfalse
    obtain ⟨t, ht, htrue, hle⟩ := h.watched cr hcr hG a ha hfalse
    refine ⟨t, ht, htrue, ?_⟩
    have hsame := hlevel (FalseBefore.mem (s := s.toCore) hfalse)
    rw [hlevel htrue]
    exact hle.trans hsame.ge

theorem newVar_database (htrail : TrailOk s.toCore) (h : DatabaseOk f g s) :
    DatabaseOk f g (s.newVar dvar) := by
  have hlevel {l : Literal ℕ} (hl : l ∈ s.trail) : (s.newVar dvar).level l.1 = s.level l.1 :=
    congrArg VarData.level (vardata_newVar (htrail.inRange l hl))
  have hdecision {v : ℕ} (hv : Function.update s.decision s.nVars dvar v = true) :
      (v = s.nVars ∧ dvar = true) ∨ s.decision v = true := by
    rw [Function.update_apply] at hv
    split_ifs at hv with heq
    · exact Or.inl ⟨heq, hv⟩
    · exact Or.inr hv
  have hself : Function.update s.decision s.nVars dvar s.nVars = dvar := Function.update_self _ _ _
  refine ⟨fun v => ?_, h.learnts, h.nodup, fun v hv hnone => ?_, fun v hv => ?_, fun v hv => ?_,
    fun σ hσ => ⟨(h.implied σ hσ).clauses, fun l hl hzero => ?_⟩, fun c hc => ?_⟩
  · show Function.update s.seen s.nVars .undef v = .undef
    rw [Function.update_apply]
    split_ifs
    · rfl
    · exact h.seen v
  · rw [assigns_newVar htrail] at hnone
    refine mem_insertVarOrder.mpr ?_
    rcases hdecision hv with ⟨rfl, hd⟩ | hold
    · exact Or.inr ⟨rfl, hself.trans hd⟩
    · exact Or.inl (h.heap v hold hnone)
  · rcases mem_insertVarOrder.mp hv with hold | ⟨rfl, -⟩
    · exact Nat.lt_succ_of_lt (h.heapRange v hold)
    · exact Nat.lt_succ_self _
  · rcases hdecision hv with ⟨rfl, -⟩ | hold
    · exact Nat.lt_succ_self _
    · exact Nat.lt_succ_of_lt (h.decisionRange v hold)
  · exact (h.implied σ hσ).root l hl ((hlevel hl).symm.trans hzero)
  · refine (h.represented c hc).imp_right (Or.imp_left ?_)
    rintro ⟨l, hl, htrue, hzero⟩
    exact ⟨l, hl, htrue, (hlevel htrue).trans hzero⟩

theorem newVar_ok (h : IdleOk G f g s) : IdleOk G f g (s.newVar dvar) := by
  refine ⟨h.level, fun hok => ?_, h.unsat⟩
  obtain ⟨hengine, hdatabase, hdone⟩ := h.sat hok
  exact ⟨newVar_engine hengine, newVar_database hengine.trail hdatabase, hdone⟩

end NewVar

/-! ### Runs -/

/-- What holds between the calls and the turns. -/
structure StateOk (G : Bool → Prop) (s : State) : Prop where
  notStuck : s.pc ≠ .stuck
  idle : s.pc = .idle → IdleOk G s.formula s.imported s.solver
  searching : s.pc = .searching → SearchingOk G s.formula s.imported s.solver
  exported : ∀ c ∈ s.exported, ∀ σ, FormulaHolds σ (s.formula ++ s.imported) → ClauseHolds σ c
  answer : ∀ status, s.answer = some status → s.pc = .idle →
    AnswerOk s.formula s.imported s.solver status

theorem stateOk_init (ccminMode : ℕ) : StateOk G (init ccminMode) := by
  have hdead {cr : ℕ} : ¬ Live emptyCore cr := fun h => Nat.not_lt_zero cr h.1
  have htrail : TrailOk emptyCore := by
    refine ⟨List.nodup_nil, fun v b => ?_, fun l hl => absurd hl List.not_mem_nil,
      List.Pairwise.nil, fun k hk => absurd hk List.not_mem_nil, le_rfl, fun i l hi => ?_,
      fun i l hi => ?_⟩
    · exact iff_of_false (Option.some_ne_none b).symm List.not_mem_nil
    all_goals exact absurd (List.mem_of_getElem? hi) List.not_mem_nil
  have hengine : EngineOk G emptyCore := by
    refine ⟨htrail, fun i l cr hi => absurd (List.mem_of_getElem? hi) List.not_mem_nil,
      ⟨fun cr hcr => absurd hcr hdead, fun cr hcr => absurd hcr hdead⟩,
      ⟨fun cr hcr => absurd hcr hdead, ?_, ?_, ?_, fun p => List.nodup_nil⟩,
      fun cr hcr => absurd hcr hdead⟩
    all_goals exact fun p w hw => absurd hw List.not_mem_nil
  refine ⟨fun hpc => Pc.noConfusion hpc, fun _ => ⟨rfl, fun _ => ⟨hengine, ?_, rfl⟩, fun hok => ?_⟩,
    fun hpc => Pc.noConfusion hpc, fun c hc => absurd hc List.not_mem_nil,
    fun status hanswer => absurd hanswer.symm (Option.some_ne_none status)⟩
  · refine ⟨fun v => rfl, fun cr hcr => absurd hcr List.not_mem_nil, List.nodup_nil,
      fun v hv => ?_, fun v hv => absurd hv List.not_mem_nil, fun v hv => ?_,
      fun σ _ => ⟨fun cr hcr => absurd hcr hdead, fun l hl => absurd hl List.not_mem_nil⟩,
      fun c hc => absurd hc List.not_mem_nil⟩
    · exact absurd (show false = true from hv) (by simp)
    · exact absurd (show false = true from hv) (by simp)
  · exact absurd (show true = false from hok) (by simp)

theorem stateOk_after {s : State} {o : Solver.Outcome} (hsearching : s.pc = .searching)
    (hexported : ∀ c ∈ s.exported, ∀ σ, FormulaHolds σ (s.formula ++ s.imported) →
      ClauseHolds σ c)
    (h : OutcomeOk G s.formula s.imported o) : StateOk G (s.after o) := by
  have hnotIdle : ¬ s.pc = .idle := by
    rw [hsearching]
    exact Pc.noConfusion
  have hnotStuck : s.pc ≠ .stuck := by
    rw [hsearching]
    exact Pc.noConfusion
  cases o with
  | next t =>
    exact ⟨hnotStuck, fun hidle => absurd hidle hnotIdle, fun _ => h, hexported,
      fun _ _ hidle => absurd hidle hnotIdle⟩
  | learnt t c =>
    obtain ⟨ht, hc⟩ := h
    refine ⟨hnotStuck, fun hidle => absurd hidle hnotIdle, fun _ => ht, fun d hd => ?_,
      fun _ _ hidle => absurd hidle hnotIdle⟩
    rcases List.mem_append.mp hd with hold | hnew
    · exact hexported d hold
    · rw [List.mem_singleton.mp hnew]
      exact hc
  | answer t status =>
    obtain ⟨hidle, hanswer⟩ := h
    refine ⟨fun hpc => Pc.noConfusion hpc, fun _ => hidle, fun hpc => Pc.noConfusion hpc,
      hexported, fun status' heq _ => ?_⟩
    obtain rfl := Option.some.inj heq
    exact hanswer
  | stuck => exact h.elim

/-- The search begins at level 0. -/
theorem searchingOk_solve (h : IdleOk G f g s) (hok : s.ok = true) {assumps : List (Literal ℕ)}
    (hrange : InRange s.toCore assumps) :
    SearchingOk G f g { s with assumptions := assumps, model := [], conflict := [] } := by
  obtain ⟨hengine, hdatabase, -⟩ := h.sat hok
  have hlevel : s.decisionLevel = 0 := h.level
  refine ⟨hengine, { hdatabase with },
    fun l hl _ hpos _ => ?_, fun i p hi _ => ?_, hrange, hok, rfl⟩
  · have hle := hengine.trail.level_le hl
    rw [hlevel] at hle
    exact absurd hpos (not_lt.mpr hle)
  · exact absurd (hi.trans_eq hlevel) (Nat.not_lt_zero i)

theorem exported_mono {s : State} (h : StateOk G s) {f g : Formula ℕ} (hf : s.formula ⊆ f)
    (hg : s.imported ⊆ g) :
    ∀ c ∈ s.exported, ∀ σ, FormulaHolds σ (f ++ g) → ClauseHolds σ c :=
  fun c hc σ hσ => h.exported c hc σ (mono_formula hf hg hσ)

theorem stateOk_step {s t : State} {a : Action} (h : StateOk (· = false) s)
    (hstep : step s a = some t) : StateOk (· = false) t := by
  cases a with
  | newVar dvar =>
    obtain ⟨hidle, rfl⟩ : s.pc = .idle ∧ _ = t := by
      simpa [step] using hstep
    refine ⟨h.notStuck, fun _ => newVar_ok (h.idle hidle), fun hpc => ?_, h.exported,
      fun status hanswer => absurd hanswer.symm (Option.some_ne_none status)⟩
    exact Pc.noConfusion (hidle.symm.trans hpc)
  | addClause ps =>
    obtain ⟨⟨hidle, hrange⟩, rfl⟩ : (s.pc = .idle ∧ InRange s.solver.toCore ps) ∧ _ = t := by
      simpa [step] using hstep
    refine ⟨h.notStuck, fun _ => addClause_ok (h.idle hidle) hrange, fun hpc => ?_,
      exported_mono h (List.subset_append_left _ _) (List.Subset.refl _),
      fun status hanswer => absurd hanswer.symm (Option.some_ne_none status)⟩
    exact Pc.noConfusion (hidle.symm.trans hpc)
  | solve assumps =>
    obtain ⟨⟨hidle, hrange⟩, rfl⟩ : (s.pc = .idle ∧ InRange s.solver.toCore assumps) ∧ _ = t := by
      simpa [step] using hstep
    unfold State.solve
    dsimp only
    split_ifs with hok
    · refine ⟨fun hpc => Pc.noConfusion hpc, fun hpc => Pc.noConfusion hpc,
        fun _ => searchingOk_solve (h.idle hidle) hok hrange, h.exported, fun status hanswer => ?_⟩
      exact absurd hanswer.symm (Option.some_ne_none status)
    · have hok' : s.solver.ok = false := (Bool.not_eq_true _).mp hok
      have hunsat := (h.idle hidle).unsat hok'
      refine ⟨h.notStuck, fun _ => ⟨(h.idle hidle).level, fun htrue => absurd htrue hok,
        fun _ => hunsat⟩, fun hpc => Pc.noConfusion (hidle.symm.trans hpc), h.exported,
        fun status hanswer _ => ?_⟩
      obtain rfl := Option.some.inj hanswer
      exact ⟨fun q hq => absurd hq List.not_mem_nil, fun σ hσ => absurd hσ (hunsat σ)⟩
  | turn i =>
    obtain ⟨⟨hsearching, hvalid⟩, rfl⟩ :
        (s.pc = .searching ∧ i.Valid s.solver.toCore) ∧ _ = t := by
      simpa [step] using hstep
    refine stateOk_after (s := { s with
      imported := s.imported ++ i.imported s.solver.toCore }) hsearching
      (exported_mono h (List.Subset.refl _) (List.subset_append_left _ _)) ?_
    exact turn_ok (h.searching hsearching) hvalid

/-- The watches are in order for all clauses but the stale ones. -/
theorem stateOk_of_reach {s : State} (h : machine.Reach (fun _ _ => True) s) :
    StateOk (· = false) s := by
  refine Machine.Reach.invariant (StateOk (· = false)) ?_ (fun s a t _ hs _ => stateOk_step hs) h
  rintro s ⟨ccminMode, rfl⟩
  exact stateOk_init ccminMode

end Painless.MiniSatRuns
