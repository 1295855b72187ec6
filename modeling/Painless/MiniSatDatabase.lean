import Painless.MiniSatEngine
import Painless.MiniSatSearch

/-!
What the lists and the heap of the MiniSat engine keep, and how its clauses stand
to those it was given. The clauses in use and the literals of level 0 follow from
the clauses that were added and imported; every clause that was added is true at
level 0, or a tautology, or some clause in use is a part of it.
-/
namespace Painless.MiniSatDatabase

open Cnf PartialAssignment ImplicationGraph MiniSatCore MiniSatTrail MiniSatWatches
open MiniSatPropagate MiniSatAnalyze MiniSatLearnt MiniSatEngine MiniSatSearch
open MiniSatCore.Core

/-- A clause of the problem whose literals are all in `c`. -/
def PartOf (d : Cell) (c : Clause ℕ) : Prop :=
  d.learnt = false ∧ d.stale = false ∧ ∀ l ∈ d.lits, l ∈ c

def Represented (s : Core) (c : Clause ℕ) : Prop :=
  Tautology c ∨ (∃ l ∈ c, l ∈ s.trail ∧ s.level l.1 = 0) ∨
    ∃ cr, Live s cr ∧ PartOf (s.ca cr) c

/-- `f` has been added, and `g` imported. -/
structure DatabaseOk (f g : Formula ℕ) (s : Solver) : Prop where
  seen : ∀ v, s.seen v = .undef
  learnts : ∀ cr ∈ s.learnts, Live s.toCore cr ∧ (s.ca cr).learnt = true
  nodup : s.learnts.Nodup
  heap : ∀ v, s.decision v = true → s.assigns v = none → v ∈ s.heap
  heapRange : ∀ v ∈ s.heap, v < s.nVars
  decisionRange : ∀ v, s.decision v = true → v < s.nVars
  implied : ∀ σ, FormulaHolds σ (f ++ g) → Models s.toCore σ
  represented : ∀ c ∈ f, Represented s.toCore c

variable {f g : Formula ℕ} {s : Solver}

/-! ### Propagation -/

/-- The entries that propagation adds at level 0 follow from the clauses. -/
theorem models_of_frame {s t : Core} (hf : Frame s t) (htrail : TrailOk t)
    (hreasons : ReasonsOk t) {σ : Assignment ℕ} (h : Models s σ) : Models t σ := by
  have hclauses : ∀ cr, Live t cr → ClauseHolds σ (t.ca cr).lits := by
    intro cr hcr
    obtain ⟨l, hl, hholds⟩ := h.clauses cr ((hf.live_iff cr).mp hcr)
    exact ⟨l, (hf.cells cr).mem_iff.mpr hl, hholds⟩
  refine ⟨hclauses, holds_of_closed (C := fun l => t.level l.1 = 0) fun i l hi hzero => ?_⟩
  have hl : l ∈ t.trail := List.mem_of_getElem? hi
  rcases hf.implied l hl with hold | hreason
  · exact Or.inl (h.root l hold ((hf.level hold).symm.trans hzero))
  · obtain ⟨cr, hcr⟩ := Option.ne_none_iff_exists'.mp hreason
    obtain ⟨-, -, htail⟩ := hreasons i l cr hi hcr
    have hexplained : Explained t (fun v => t.level v = 0) l.1 := by
      refine ⟨cr, hcr, fun q hq => ?_⟩
      obtain ⟨j, hj⟩ := List.mem_iff_getElem?.mp (htail q hq)
      have hlt := (List.getElem?_eq_some_iff.mp hj).1
      rw [List.length_take] at hlt
      rw [List.getElem?_take_of_lt (by omega)] at hj
      have hle := htrail.level_mono hj hi (by omega)
      rw [hzero] at hle
      exact Nat.le_zero.mp hle
    obtain ⟨k, hk, himplies⟩ := impliesIn_of_explained hreasons hi hexplained
    exact Or.inr ⟨_, hclauses k hk, himplies⟩

theorem represented_of_frame {s t : Core} (hf : Frame s t) {c : Clause ℕ}
    (h : Represented s c) : Represented t c := by
  refine h.imp_right (Or.imp ?_ ?_)
  · rintro ⟨l, hl, htrue, hzero⟩
    exact ⟨l, hl, hf.trail.subset htrue, (hf.level htrue).trans hzero⟩
  · rintro ⟨cr, hlive, hlearnt, hstale, hsub⟩
    refine ⟨cr, (hf.live_iff cr).mpr hlive, (hf.learnt cr).trans hlearnt,
      (hf.stale cr).trans hstale, fun l hl => ?_⟩
    exact hsub l ((hf.cells cr).mem_iff.mp hl)

theorem assigns_none_of_frame {s t : Core} (hf : Frame s t) (hs : TrailOk s) (ht : TrailOk t)
    {v : ℕ} (hv : t.assigns v = none) : s.assigns v = none := by
  rw [hs.unassigned_iff]
  rw [ht.unassigned_iff] at hv
  exact fun hmem => hv (List.map_subset Prod.fst hf.trail.subset hmem)

theorem DatabaseOk.of_frame (h : DatabaseOk f g s) {t : Core} (hf : Frame s.toCore t)
    (hs : TrailOk s.toCore) (htrail : TrailOk t) (hreasons : ReasonsOk t) :
    DatabaseOk f g (s.setCore t) := by
  constructor
  · exact h.seen
  · intro cr hcr
    obtain ⟨hlive, hlearnt⟩ := h.learnts cr hcr
    exact ⟨(hf.live_iff cr).mpr hlive, (hf.learnt cr).trans hlearnt⟩
  · exact h.nodup
  · exact fun v hdecision hnone =>
      h.heap v hdecision (assigns_none_of_frame hf hs htrail hnone)
  · intro v hv
    show v < t.nVars
    rw [hf.nVars]
    exact h.heapRange v hv
  · intro v hv
    show v < t.nVars
    rw [hf.nVars]
    exact h.decisionRange v hv
  · exact fun σ hσ => models_of_frame hf htrail hreasons (h.implied σ hσ)
  · exact fun c hc => represented_of_frame hf (h.represented c hc)

/-! ### Backtracking -/

theorem mem_insertVarOrder {decision : ℕ → Bool} {heap : List ℕ} {x v : ℕ} :
    v ∈ Solver.insertVarOrder decision heap x ↔ v ∈ heap ∨ (v = x ∧ decision x = true) := by
  unfold Solver.insertVarOrder
  split_ifs with hx
  · rw [List.mem_append, List.mem_singleton, and_iff_left hx.2]
  · refine (or_iff_left_of_imp ?_).symm
    rintro ⟨rfl, hdecision⟩
    by_contra hv
    exact hx ⟨hv, hdecision⟩

theorem mem_foldl_insertVarOrder {decision : ℕ → Bool} {ls : List (Literal ℕ)} {heap : List ℕ}
    {v : ℕ} :
    v ∈ ls.foldl (fun heap l => Solver.insertVarOrder decision heap l.1) heap ↔
      v ∈ heap ∨ (v ∈ ls.map Prod.fst ∧ decision v = true) := by
  induction ls generalizing heap with
  | nil => simp
  | cons l rest ih =>
    rw [List.foldl_cons, ih, mem_insertVarOrder, List.map_cons, List.mem_cons]
    by_cases hv : v = l.1
    · subst hv
      tauto
    · tauto

/-- The entries that are taken back are those of the higher levels. -/
theorem mem_undone {s : Core} (h : TrailOk s) (level : ℕ) (l : Literal ℕ) :
    l ∈ Solver.undone s level ↔ l ∈ s.trail ∧ level < s.level l.1 := by
  unfold Solver.undone
  cases hlim : s.trailLim[level]? with
  | none =>
    have hge : s.decisionLevel ≤ level := List.getElem?_eq_none_iff.mp hlim
    refine iff_of_false List.not_mem_nil fun hl => ?_
    have := h.level_le hl.1
    omega
  | some lim =>
    rw [List.mem_reverse]
    constructor
    · intro hl
      obtain ⟨i, hi⟩ := List.mem_iff_getElem?.mp hl
      rw [List.getElem?_drop] at hi
      refine ⟨List.mem_of_getElem? hi, ?_⟩
      by_contra hle
      have := (h.lt_lim_iff hlim hi).mpr (not_lt.mp hle)
      omega
    · rintro ⟨hl, hlevel⟩
      obtain ⟨i, hi⟩ := List.mem_iff_getElem?.mp hl
      have hge : lim ≤ i := by
        by_contra hlt
        have := (h.lt_lim_iff hlim hi).mp (not_le.mp hlt)
        omega
      refine List.mem_iff_getElem?.mpr ⟨i - lim, ?_⟩
      rw [List.getElem?_drop, Nat.add_sub_cancel' hge, hi]

theorem DatabaseOk.cancelUntil (h : DatabaseOk f g s) (htrail : TrailOk s.toCore) (level : ℕ) :
    DatabaseOk f g (s.cancelUntil level) := by
  have hkeep {l : Literal ℕ} (hl : l ∈ (s.toCore.cancelUntil level).trail) : l ∈ s.trail :=
    trail_cancelUntil_isPrefix.subset hl
  constructor
  · exact h.seen
  · intro cr hcr
    obtain ⟨hlive, hlearnt⟩ := h.learnts cr hcr
    refine ⟨live_cancelUntil.mpr hlive, ?_⟩
    show ((s.toCore.cancelUntil level).ca cr).learnt = true
    rw [cancelUntil_ca]
    exact hlearnt
  · exact h.nodup
  · intro v hdecision hnone
    show v ∈ (Solver.undone s.toCore level).foldl _ s.heap
    rw [mem_foldl_insertVarOrder]
    by_cases hold : s.assigns v = none
    · exact Or.inl (h.heap v hdecision hold)
    · rw [htrail.unassigned_iff, not_not] at hold
      obtain ⟨l, hl, rfl⟩ := List.mem_map.mp hold
      refine Or.inr ⟨List.mem_map.mpr ⟨l, (mem_undone htrail level l).mpr ⟨hl, ?_⟩, rfl⟩, hdecision⟩
      by_contra hle
      have hstays := (htrail.mem_cancelUntil level l).mpr ⟨hl, not_lt.mp hle⟩
      exact ((htrail.cancelUntil level).unassigned_iff l.1).mp hnone (List.mem_map_of_mem hstays)
  · intro v hv
    show v < (s.toCore.cancelUntil level).nVars
    rw [cancelUntil_nVars]
    rcases mem_foldl_insertVarOrder.mp hv with hv | ⟨hv, -⟩
    · exact h.heapRange v hv
    · obtain ⟨l, hl, rfl⟩ := List.mem_map.mp hv
      exact htrail.inRange l ((mem_undone htrail level l).mp hl).1
  · intro v hv
    show v < (s.toCore.cancelUntil level).nVars
    rw [cancelUntil_nVars]
    exact h.decisionRange v hv
  · intro σ hσ
    obtain ⟨hclauses, hroot⟩ := h.implied σ hσ
    refine ⟨fun cr hcr => ?_, fun l hl hzero => ?_⟩
    · show ClauseHolds σ ((s.toCore.cancelUntil level).ca cr).lits
      rw [cancelUntil_ca]
      exact hclauses cr (live_cancelUntil.mp hcr)
    · exact hroot l (hkeep hl) (level_cancelUntil.symm.trans hzero)
  · intro c hc
    refine (h.represented c hc).imp_right (Or.imp ?_ ?_)
    · rintro ⟨l, hl, htrue, hzero⟩
      refine ⟨l, hl, (htrail.mem_cancelUntil level l).mpr ⟨htrue, ?_⟩, ?_⟩
      · rw [hzero]
        exact Nat.zero_le level
      · exact level_cancelUntil.trans hzero
    · rintro ⟨cr, hlive, hpart⟩
      refine ⟨cr, live_cancelUntil.mpr hlive, ?_⟩
      show PartOf ((s.toCore.cancelUntil level).ca cr) c
      rw [cancelUntil_ca]
      exact hpart

/-! ### New entries and clauses -/

theorem mono_formula {f f' g g' : Formula ℕ} (hf : f ⊆ f') (hg : g ⊆ g') {σ : Assignment ℕ}
    (h : FormulaHolds σ (f' ++ g')) : FormulaHolds σ (f ++ g) := by
  rw [formulaHolds_append] at h ⊢
  exact ⟨fun c hc => h.1 c (hf hc), fun c hc => h.2 c (hg hc)⟩

/-- More has been imported. -/
theorem DatabaseOk.imported (h : DatabaseOk f g s) (new : Formula ℕ) :
    DatabaseOk f (g ++ new) s := by
  refine { h with implied := fun σ hσ => h.implied σ ?_ }
  exact mono_formula (List.Subset.refl f) (List.subset_append_left g new) hσ

theorem represented_enqueue {t : Core} (htrail : TrailOk t) {p : Literal ℕ} {o : Option ℕ}
    (hp : t.assigns p.1 = none) {c : Clause ℕ} (h : Represented t c) :
    Represented (t.uncheckedEnqueue p o) c := by
  refine h.imp_right (Or.imp_left ?_)
  rintro ⟨l, hl, htrue, hzero⟩
  exact ⟨l, hl, List.mem_append_left _ htrue, (level_uncheckedEnqueue htrail hp htrue).trans hzero⟩

/-- A new entry of level 0 has to follow from the clauses. -/
theorem DatabaseOk.enqueue (h : DatabaseOk f g s) (htrail : TrailOk s.toCore) {p : Literal ℕ}
    {o : Option ℕ} (hp : s.assigns p.1 = none)
    (hroot : s.decisionLevel = 0 → ∀ σ, FormulaHolds σ (f ++ g) → LiteralHolds σ p) :
    DatabaseOk f g (s.setCore (s.toCore.uncheckedEnqueue p o)) := by
  refine ⟨h.seen, h.learnts, h.nodup, fun v hdecision hnone => ?_, h.heapRange,
    h.decisionRange, fun σ hσ => ⟨(h.implied σ hσ).clauses, fun l hl hzero => ?_⟩,
    fun c hc => represented_enqueue htrail hp (h.represented c hc)⟩
  · refine h.heap v hdecision ?_
    have hupdate : Function.update s.assigns p.1 (some p.2) v = none := hnone
    rw [Function.update_apply] at hupdate
    split_ifs at hupdate
    exact hupdate
  · rcases List.mem_append.mp hl with hold | hnew
    · exact (h.implied σ hσ).root l hold ((level_uncheckedEnqueue htrail hp hold).symm.trans hzero)
    · obtain rfl := List.mem_singleton.mp hnew
      exact hroot (level_uncheckedEnqueue_self.symm.trans hzero) σ hσ

section Alloc

variable {a b : Literal ℕ} {rest : Clause ℕ} {learnt stale : Bool}

theorem models_allocAttach {t : Core} {σ : Assignment ℕ} (h : Models t σ)
    (hc : ClauseHolds σ (a :: b :: rest)) : Models (t.allocAttach a b rest learnt stale) σ := by
  refine ⟨fun cr hcr => ?_, h.root⟩
  rcases live_allocAttach.mp hcr with hold | rfl
  · rw [ca_allocAttach_of_live hold]
    exact h.clauses cr hold
  · rw [ca_allocAttach_self]
    exact hc

theorem represented_alloc {t : Core} {c : Clause ℕ} (h : Represented t c) :
    Represented (t.allocAttach a b rest learnt stale) c := by
  refine h.imp_right (Or.imp_right ?_)
  rintro ⟨cr, hlive, hpart⟩
  refine ⟨cr, live_allocAttach.mpr (Or.inl hlive), ?_⟩
  rw [ca_allocAttach_of_live hlive]
  exact hpart

/-- A learnt or imported clause. -/
theorem DatabaseOk.allocLearnt (h : DatabaseOk f g s)
    (hc : ∀ σ, FormulaHolds σ (f ++ g) → ClauseHolds σ (a :: b :: rest)) :
    DatabaseOk f g { s with
      toCore := s.allocAttach a b rest true stale
      learnts := s.learnts ++ [s.caSize] } := by
  refine ⟨h.seen, fun cr hcr => ?_, ?_, h.heap, h.heapRange, h.decisionRange,
    fun σ hσ => models_allocAttach (h.implied σ hσ) (hc σ hσ),
    fun c hc => represented_alloc (h.represented c hc)⟩
  · show Live (s.allocAttach a b rest true stale) cr ∧
      ((s.allocAttach a b rest true stale).ca cr).learnt = true
    rcases List.mem_append.mp hcr with hold | hnew
    · obtain ⟨hlive, hlearnt⟩ := h.learnts cr hold
      rw [ca_allocAttach_of_live hlive]
      exact ⟨live_allocAttach.mpr (Or.inl hlive), hlearnt⟩
    · rw [List.mem_singleton.mp hnew, ca_allocAttach_self]
      exact ⟨live_allocAttach.mpr (Or.inr rfl), rfl⟩
  · refine h.nodup.append (List.nodup_singleton _) (List.disjoint_singleton.mpr fun hin => ?_)
    exact lt_irrefl _ (h.learnts _ hin).1.1

/-- A clause of the problem. -/
theorem DatabaseOk.allocProblem (h : DatabaseOk f g s)
    (hc : ∀ σ, FormulaHolds σ (f ++ g) → ClauseHolds σ (a :: b :: rest)) :
    DatabaseOk f g { s with
      toCore := s.allocAttach a b rest false false
      clauses := s.clauses ++ [s.caSize] } := by
  refine ⟨h.seen, fun cr hcr => ?_, h.nodup, h.heap, h.heapRange, h.decisionRange,
    fun σ hσ => models_allocAttach (h.implied σ hσ) (hc σ hσ),
    fun c hc => represented_alloc (h.represented c hc)⟩
  show Live (s.allocAttach a b rest false false) cr ∧
    ((s.allocAttach a b rest false false).ca cr).learnt = true
  obtain ⟨hlive, hlearnt⟩ := h.learnts cr hcr
  rw [ca_allocAttach_of_live hlive]
  exact ⟨live_allocAttach.mpr (Or.inl hlive), hlearnt⟩

end Alloc

/-! ### Learnt clauses are removed -/

theorem DatabaseOk.of_cleans (h : DatabaseOk f g s) {t : Core} {kept crs : List ℕ}
    {G : Bool → Prop} (hperm : crs.Perm s.learnts)
    (hlist : ListCleaned G s.toCore crs t kept) :
    DatabaseOk f g { s with toCore := t, learnts := kept } := by
  have hclean := hlist.cleans
  refine ⟨h.seen, fun cr hcr => ?_, ?_, fun v hdecision hnone => ?_, fun v hv => ?_,
    fun v hv => ?_, fun σ hσ => hclean.models σ (h.implied σ hσ), fun c hc => ?_⟩
  · obtain ⟨hlive, hlearnt⟩ := h.learnts cr (hperm.subset (hlist.sublist.subset hcr))
    exact ⟨hlist.live cr hlive (Or.inl hcr), (hclean.learnt cr).trans hlearnt⟩
  · exact (hperm.nodup_iff.mpr h.nodup).sublist hlist.sublist
  · have hnone' : t.assigns v = none := hnone
    rw [hclean.assigns] at hnone'
    exact h.heap v hdecision hnone'
  · show v < t.nVars
    rw [hclean.nVars]
    exact h.heapRange v hv
  · show v < t.nVars
    rw [hclean.nVars]
    exact h.decisionRange v hv
  · refine (h.represented c hc).imp_right (Or.imp ?_ ?_)
    · rintro ⟨l, hl, htrue, hzero⟩
      refine ⟨l, hl, ?_, (hclean.level l.1).trans hzero⟩
      show l ∈ t.trail
      rw [hclean.trail]
      exact htrue
    · rintro ⟨cr, hlive, hpart⟩
      obtain ⟨hlive', hsame⟩ := hclean.problem cr hlive hpart.1
      refine ⟨cr, hlive', ?_⟩
      show PartOf (t.ca cr) c
      rw [hsame]
      exact hpart

end Painless.MiniSatDatabase
