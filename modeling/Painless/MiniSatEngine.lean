import Painless.MiniSatFinal

/-!
What the operations of the MiniSat engine besides propagation keep: backtracking,
new entries of the trail, new clauses, and the removal and trimming of learnt
clauses.
-/
namespace Painless.MiniSatEngine

open Cnf PartialAssignment ImplicationGraph MiniSatCore MiniSatTrail MiniSatWatches
open MiniSatPropagate MiniSatLearnt
open MiniSatCore.Core
open ImportedWatches (Watcher pushWatch attach mem_pushWatch)

variable {G : Bool → Prop} {s : Core}

/-! ### Backtracking -/

theorem live_cancelUntil {level cr : ℕ} : Live (s.cancelUntil level) cr ↔ Live s cr := by
  unfold Live
  rw [cancelUntil_ca, cancelUntil_caSize]

theorem level_cancelUntil {level v : ℕ} : (s.cancelUntil level).level v = s.level v := by
  unfold Core.level
  rw [cancelUntil_vardata]

theorem cellsOk_cancelUntil (h : CellsOk s) (level : ℕ) : CellsOk (s.cancelUntil level) := by
  constructor
  · intro cr hcr
    rw [cancelUntil_ca]
    exact h.distinct cr (live_cancelUntil.mp hcr)
  · intro cr hcr
    rw [cancelUntil_ca, cancelUntil_nVars]
    exact h.inRange cr (live_cancelUntil.mp hcr)

theorem watchOk_cancelUntil (htrail : TrailOk s) (h : WatchOk s) (level : ℕ) :
    WatchOk (s.cancelUntil level) := by
  constructor
  · intro cr hcr
    rw [cancelUntil_ca, cancelUntil_watches]
    exact h.attached cr (live_cancelUntil.mp hcr)
  · rw [cancelUntil_watches, cancelUntil_caSize]
    exact h.known
  · intro p w hw hlive
    rw [cancelUntil_watches] at hw
    rw [cancelUntil_ca]
    obtain ⟨hwatched, hblocker⟩ := h.watching p w hw (live_cancelUntil.mp hlive)
    refine ⟨hwatched, hblocker.imp_right fun hroot => ⟨?_, ?_⟩⟩
    · rw [htrail.mem_cancelUntil]
      exact ⟨hroot.1, hroot.2.trans_le (Nat.zero_le level)⟩
    · rw [level_cancelUntil]
      exact hroot.2
  · rw [cancelUntil_watches, cancelUntil_ca, cancelUntil_dirty]
    exact h.stale
  · rw [cancelUntil_watches]
    exact h.once

/-- A clause that is covered stays so as long as its false watch stays. -/
theorem watchedTo_cancelUntil (htrail : TrailOk s) {k level lim : ℕ} (h : WatchedTo G k s)
    (hlim : s.trailLim[level]? = some lim) (hk : lim ≤ k) :
    WatchedTo G lim (s.cancelUntil level) := by
  intro cr hcr hG a ha hfalse
  rw [cancelUntil_ca] at hG ha ⊢
  have hmem : negate a ∈ (s.cancelUntil level).trail := FalseBefore.mem hfalse
  obtain ⟨-, hlevel⟩ := (htrail.mem_cancelUntil level (negate a)).mp hmem
  have hbefore : FalseBefore s k a := by
    rw [cancelUntil_of_lim hlim] at hfalse
    exact (List.take_prefix_take_left hk).subset (List.mem_of_mem_take hfalse)
  obtain ⟨t, ht, htrue, hle⟩ := h cr (live_cancelUntil.mp hcr) hG a ha hbefore
  refine ⟨t, ht, (htrail.mem_cancelUntil level t).mpr ⟨htrue, hle.trans hlevel⟩, ?_⟩
  rw [level_cancelUntil, level_cancelUntil]
  exact hle

theorem engineOk_cancelUntil {k level : ℕ} (htrail : TrailOk s) (hreasons : ReasonsOk s)
    (hcells : CellsOk s) (hwatch : WatchOk s) (hwatched : WatchedTo G k s)
    (hlims : ∀ j ∈ s.trailLim, j ≤ k) (hlevel : level < s.decisionLevel) :
    EngineOk G (s.cancelUntil level) := by
  have hlim : s.trailLim[level]? = some s.trailLim[level] := List.getElem?_eq_getElem hlevel
  refine ⟨htrail.cancelUntil level, ReasonsOk.cancelUntil hreasons level,
    cellsOk_cancelUntil hcells level, watchOk_cancelUntil htrail hwatch level, ?_⟩
  have hqhead : (s.cancelUntil level).qhead = s.trailLim[level] := by
    rw [cancelUntil_of_lim hlim]
  rw [hqhead]
  exact watchedTo_cancelUntil htrail hwatched hlim (hlims _ (List.mem_of_getElem? hlim))

theorem cancelUntil_ok (h : EngineOk G s) (level : ℕ) :
    EngineOk G (s.cancelUntil level) := by
  rcases Nat.lt_or_ge level s.decisionLevel with hlt | hge
  · exact engineOk_cancelUntil h.trail h.reasons h.cells h.watch h.watched h.trail.limsLe hlt
  · rw [cancelUntil_of_le hge]
    exact h

theorem cancelUntil_conflict_ok {cr level : ℕ} (h : ConflictOk G s cr)
    (hlevel : level < s.decisionLevel) : EngineOk G (s.cancelUntil level) := by
  obtain ⟨k, hwatched, hlims⟩ := h.watched
  exact engineOk_cancelUntil h.trail h.reasons h.cells h.watch hwatched hlims hlevel

/-! ### New entries of the trail -/

theorem newDecisionLevel_ok (h : EngineOk G s) (hdone : s.qhead = s.trail.length) :
    EngineOk G s.newDecisionLevel :=
  ⟨h.trail.newDecisionLevel hdone, h.reasons, ⟨h.cells.distinct, h.cells.inRange⟩,
    { h.watch with }, h.watched⟩

section Enqueue

variable {p : Literal ℕ} {o : Option ℕ}

theorem vardata_uncheckedEnqueue (h : TrailOk s) (hp : s.assigns p.1 = none) {l : Literal ℕ}
    (hl : l ∈ s.trail) : (s.uncheckedEnqueue p o).vardata l.1 = s.vardata l.1 := by
  refine Function.update_of_ne (fun heq => ?_) _ _
  exact (h.unassigned_iff p.1).mp hp (heq ▸ List.mem_map_of_mem hl)

theorem level_uncheckedEnqueue (h : TrailOk s) (hp : s.assigns p.1 = none) {l : Literal ℕ}
    (hl : l ∈ s.trail) : (s.uncheckedEnqueue p o).level l.1 = s.level l.1 :=
  congrArg VarData.level (vardata_uncheckedEnqueue h hp hl)

theorem level_uncheckedEnqueue_self : (s.uncheckedEnqueue p o).level p.1 = s.decisionLevel :=
  congrArg VarData.level (Function.update_self p.1 _ s.vardata)

theorem reason_uncheckedEnqueue_self : (s.uncheckedEnqueue p o).reason p.1 = o :=
  congrArg VarData.reason (Function.update_self p.1 _ s.vardata)

theorem reasonsOk_uncheckedEnqueue (h : TrailOk s) (hreasons : ReasonsOk s)
    (hp : s.assigns p.1 = none)
    (hfrom : ∀ cr, o = some cr → Live s cr ∧ (s.ca cr).first = p ∧
      ∀ q ∈ (s.ca cr).tail, negate q ∈ s.trail) :
    ReasonsOk (s.uncheckedEnqueue p o) := by
  intro i l cr hi hreason
  have hi' : (s.trail ++ [p])[i]? = some l := hi
  show Live s cr ∧ (s.ca cr).first = l ∧ ∀ q ∈ (s.ca cr).tail, negate q ∈ (s.trail ++ [p]).take i
  rcases Nat.lt_or_ge i s.trail.length with hlt | hge
  · rw [List.getElem?_append_left hlt] at hi'
    have hsame := vardata_uncheckedEnqueue (o := o) h hp (List.mem_of_getElem? hi')
    have hold : s.reason l.1 = some cr := (congrArg VarData.reason hsame).symm.trans hreason
    rw [List.take_append_of_le_length hlt.le]
    exact hreasons i l cr hi' hold
  · rw [List.getElem?_append_right hge] at hi'
    obtain ⟨hzero, rfl⟩ := List.getElem?_eq_some_iff.mp hi'
    rw [List.length_singleton] at hzero
    obtain rfl : i = s.trail.length := by omega
    rw [List.getElem_singleton, reason_uncheckedEnqueue_self] at hreason
    rw [List.getElem_singleton, List.take_left]
    exact hfrom cr hreason

theorem watchOk_uncheckedEnqueue (h : TrailOk s) (hwatch : WatchOk s)
    (hp : s.assigns p.1 = none) : WatchOk (s.uncheckedEnqueue p o) := by
  refine { hwatch with watching := fun q w hw hlive => ?_ }
  obtain ⟨hwatched, hblocker⟩ := hwatch.watching q w hw hlive
  refine ⟨hwatched, hblocker.imp_right fun hroot => ⟨List.mem_append_left _ hroot.1, ?_⟩⟩
  exact (level_uncheckedEnqueue h hp hroot.1).trans hroot.2

theorem covered_uncheckedEnqueue (h : TrailOk s) (hp : s.assigns p.1 = none) {a : Literal ℕ}
    {c : Cell} (ha : negate a ∈ s.trail) (hcov : Covered s a c) :
    Covered (s.uncheckedEnqueue p o) a c := by
  obtain ⟨t, ht, htrue, hle⟩ := hcov
  refine ⟨t, ht, List.mem_append_left _ htrue, ?_⟩
  have hlevel := level_uncheckedEnqueue (o := o) h hp ha
  rw [level_uncheckedEnqueue h hp htrue]
  exact hle.trans hlevel.ge

theorem falseBefore_uncheckedEnqueue {k : ℕ} (hk : k ≤ s.trail.length) (l : Literal ℕ) :
    FalseBefore (s.uncheckedEnqueue p o) k l ↔ FalseBefore s k l := by
  show negate l ∈ (s.trail ++ [p]).take k ↔ _
  rw [List.take_append_of_le_length hk]
  exact Iff.rfl

theorem uncheckedEnqueue_ok (h : EngineOk G s) (hp : s.assigns p.1 = none)
    (hvar : p.1 < s.nVars)
    (hnone : o = none → s.decisionLevel = 0 ∨
      s.trailLim[s.decisionLevel - 1]? = some s.trail.length)
    (hsome : ∀ cr, o = some cr → Live s cr ∧ (s.ca cr).first = p ∧
      ∀ q ∈ (s.ca cr).tail, negate q ∈ s.trail) :
    EngineOk G (s.uncheckedEnqueue p o) := by
  refine ⟨h.trail.uncheckedEnqueue hp hvar hnone, reasonsOk_uncheckedEnqueue h.trail h.reasons hp
    hsome, ⟨h.cells.distinct, h.cells.inRange⟩, watchOk_uncheckedEnqueue h.trail h.watch hp, ?_⟩
  intro cr hcr hG a ha hfalse
  have hold := (falseBefore_uncheckedEnqueue h.trail.qheadLe a).mp hfalse
  exact covered_uncheckedEnqueue h.trail hp (FalseBefore.mem (s := s) hold)
    (h.watched cr hcr hG a ha hold)

end Enqueue

/-! ### New clauses -/

section AllocAttach

variable {a b : Literal ℕ} {rest : Clause ℕ} {learnt stale : Bool}

theorem ca_allocAttach (cr : ℕ) : (s.allocAttach a b rest learnt stale).ca cr =
    if cr = s.caSize then ⟨a, b, rest, learnt, false, stale⟩ else s.ca cr :=
  Function.update_apply _ _ _ _

theorem live_allocAttach {cr : ℕ} :
    Live (s.allocAttach a b rest learnt stale) cr ↔ Live s cr ∨ cr = s.caSize := by
  unfold Live
  rw [ca_allocAttach]
  show cr < s.caSize + 1 ∧ _ ↔ _
  split_ifs with hcr
  · subst hcr
    simp
  · simp only [hcr, or_false]
    refine and_congr_left fun _ => ?_
    omega

theorem ca_allocAttach_of_live {cr : ℕ} (h : Live s cr) :
    (s.allocAttach a b rest learnt stale).ca cr = s.ca cr := by
  rw [ca_allocAttach, if_neg h.1.ne]

theorem ca_allocAttach_self :
    (s.allocAttach a b rest learnt stale).ca s.caSize = ⟨a, b, rest, learnt, false, stale⟩ := by
  rw [ca_allocAttach, if_pos rfl]

theorem mem_watches_allocAttach {p : Literal ℕ} {w : Watcher} :
    w ∈ (s.allocAttach a b rest learnt stale).watches p ↔
      w ∈ s.watches p ∨ (p = negate a ∧ w = ⟨s.caSize, b⟩) ∨
        (p = negate b ∧ w = ⟨s.caSize, a⟩) := by
  show w ∈ attach s.watches s.caSize a b p ↔ _
  unfold attach
  rw [mem_pushWatch, mem_pushWatch, or_assoc]

theorem watches_allocAttach (hab : a ≠ b) (p : Literal ℕ) :
    (s.allocAttach a b rest learnt stale).watches p =
      if p = negate a then s.watches p ++ [⟨s.caSize, b⟩]
      else if p = negate b then s.watches p ++ [⟨s.caSize, a⟩]
      else s.watches p := by
  have hne : negate b ≠ negate a := fun heq => hab (MiniSatPropagate.negate_injective heq).symm
  show attach s.watches s.caSize a b p = _
  unfold attach pushWatch
  by_cases ha : p = negate a
  · rw [if_pos ha, Function.update_of_ne (by rw [ha]; exact hne.symm), ha, Function.update_self]
  · rw [if_neg ha]
    by_cases hb : p = negate b
    · rw [if_pos hb, hb, Function.update_self, Function.update_of_ne hne]
    · rw [if_neg hb, Function.update_of_ne hb, Function.update_of_ne ha]

theorem cellsOk_allocAttach (h : CellsOk s)
    (hdistinct : ((a :: b :: rest).map Prod.fst).Nodup)
    (hrange : ∀ l ∈ a :: b :: rest, l.1 < s.nVars) :
    CellsOk (s.allocAttach a b rest learnt stale) := by
  constructor
  · intro cr hcr
    rcases live_allocAttach.mp hcr with hold | rfl
    · rw [ca_allocAttach_of_live hold]
      exact h.distinct cr hold
    · rw [ca_allocAttach_self]
      exact hdistinct
  · intro cr hcr
    rcases live_allocAttach.mp hcr with hold | rfl
    · rw [ca_allocAttach_of_live hold]
      exact h.inRange cr hold
    · rw [ca_allocAttach_self]
      exact hrange

theorem watchOk_allocAttach (h : WatchOk s) (hab : a ≠ b) :
    WatchOk (s.allocAttach a b rest learnt stale) := by
  have hknown {p : Literal ℕ} {w : Watcher} (hw : w ∈ s.watches p) : w.cref ≠ s.caSize :=
    (h.known p w hw).ne
  have hca {p : Literal ℕ} {w : Watcher} (hw : w ∈ s.watches p) :
      (s.allocAttach a b rest learnt stale).ca w.cref = s.ca w.cref := by
    rw [ca_allocAttach, if_neg (hknown hw)]
  constructor
  · intro cr hcr l hl
    rcases live_allocAttach.mp hcr with hold | rfl
    · rw [ca_allocAttach_of_live hold] at hl
      obtain ⟨w, hw, hwcr⟩ := h.attached cr hold l hl
      exact ⟨w, mem_watches_allocAttach.mpr (Or.inl hw), hwcr⟩
    · rw [ca_allocAttach_self] at hl
      rcases hl with rfl | rfl
      · exact ⟨_, mem_watches_allocAttach.mpr (Or.inr (Or.inl ⟨rfl, rfl⟩)), rfl⟩
      · exact ⟨_, mem_watches_allocAttach.mpr (Or.inr (Or.inr ⟨rfl, rfl⟩)), rfl⟩
  · intro p w hw
    show w.cref < s.caSize + 1
    rcases mem_watches_allocAttach.mp hw with hw | ⟨-, rfl⟩ | ⟨-, rfl⟩
    · exact Nat.lt_succ_of_lt (h.known p w hw)
    · exact Nat.lt_succ_self _
    · exact Nat.lt_succ_self _
  · intro p w hw hlive
    rcases mem_watches_allocAttach.mp hw with hw | ⟨rfl, rfl⟩ | ⟨rfl, rfl⟩
    · rw [hca hw]
      obtain ⟨hwatched, hblocker⟩ :=
        h.watching p w hw ((live_allocAttach.mp hlive).resolve_right (hknown hw))
      exact ⟨hwatched, hblocker⟩
    · rw [ca_allocAttach_self, negate_negate]
      exact ⟨Or.inl rfl, Or.inl (List.mem_cons_of_mem _ List.mem_cons_self)⟩
    · rw [ca_allocAttach_self, negate_negate]
      exact ⟨Or.inr rfl, Or.inl List.mem_cons_self⟩
  · intro p w hw hremoved
    rcases mem_watches_allocAttach.mp hw with hw | ⟨-, rfl⟩ | ⟨-, rfl⟩
    · rw [hca hw] at hremoved
      exact h.stale p w hw hremoved
    · rw [ca_allocAttach_self] at hremoved
      exact absurd hremoved (by simp)
    · rw [ca_allocAttach_self] at hremoved
      exact absurd hremoved (by simp)
  · intro p
    have hfresh : s.caSize ∉ (s.watches p).map Watcher.cref := by
      intro hin
      obtain ⟨w, hw, hwcr⟩ := List.mem_map.mp hin
      exact hknown hw hwcr
    have hone (w : Watcher) (hw : w.cref = s.caSize) :
        ((s.watches p ++ [w]).map Watcher.cref).Nodup := by
      rw [List.map_append, List.map_singleton, hw]
      exact (h.once p).append (List.nodup_singleton _) (List.disjoint_singleton.mpr hfresh)
    rw [watches_allocAttach hab]
    split_ifs
    · exact hone _ rfl
    · exact hone _ rfl
    · exact h.once p

theorem allocAttach_ok (h : EngineOk G s)
    (hdistinct : ((a :: b :: rest).map Prod.fst).Nodup)
    (hrange : ∀ l ∈ a :: b :: rest, l.1 < s.nVars)
    (hfree : G stale → ¬ FalseBefore s s.qhead a ∧ ¬ FalseBefore s s.qhead b) :
    EngineOk G (s.allocAttach a b rest learnt stale) := by
  have hab : a ≠ b := by
    rintro rfl
    rw [List.map_cons, List.nodup_cons] at hdistinct
    exact hdistinct.1 List.mem_cons_self
  refine ⟨h.trail.congr rfl rfl rfl rfl rfl rfl, ?_, cellsOk_allocAttach h.cells hdistinct hrange,
    watchOk_allocAttach h.watch hab, ?_⟩
  · intro i l cr hi hreason
    obtain ⟨hlive, hfirst, htail⟩ := h.reasons i l cr hi hreason
    rw [ca_allocAttach_of_live hlive]
    exact ⟨live_allocAttach.mpr (Or.inl hlive), hfirst, htail⟩
  · intro cr hcr hG l hl hfalse
    rcases live_allocAttach.mp hcr with hold | rfl
    · rw [ca_allocAttach_of_live hold] at hG hl ⊢
      exact h.watched cr hold hG l hl hfalse
    · rw [ca_allocAttach_self] at hG hl
      obtain ⟨ha, hb⟩ := hfree hG
      rcases hl with rfl | rfl
      · exact absurd hfalse ha
      · exact absurd hfalse hb

/-- The learnt clause implies its first literal, which is true at the level of the
second one from then on. -/
theorem learn_ok (h : EngineOk G s) (ha : s.assigns a.1 = none)
    (hothers : ∀ q ∈ b :: rest, negate q ∈ s.trail) (hlevel : s.level b.1 = s.decisionLevel)
    (hdistinct : ((a :: b :: rest).map Prod.fst).Nodup)
    (hrange : ∀ l ∈ a :: b :: rest, l.1 < s.nVars) :
    EngineOk G ((s.allocAttach a b rest learnt stale).uncheckedEnqueue a (some s.caSize)) := by
  have hfree : False → ¬ FalseBefore s s.qhead a ∧ ¬ FalseBefore s s.qhead b := False.elim
  have hnone : EngineOk (fun _ => False) s :=
    ⟨h.trail, h.reasons, h.cells, h.watch, fun _ _ hG => hG.elim⟩
  have hadd := @allocAttach_ok _ _ _ _ _ learnt stale hnone hdistinct hrange hfree
  have hnext := uncheckedEnqueue_ok hadd (p := a) (o := some s.caSize) ha
    (hrange a List.mem_cons_self) (fun heq => absurd heq (Option.some_ne_none _)) fun cr hcr => by
      obtain rfl := Option.some.inj hcr
      rw [ca_allocAttach_self]
      exact ⟨live_allocAttach.mpr (Or.inr rfl), rfl, hothers⟩
  refine { hnext with watched := fun cr hcr hG l hl hfalse => ?_ }
  have hold : FalseBefore s s.qhead l :=
    (falseBefore_uncheckedEnqueue (p := a) (o := some s.caSize) h.trail.qheadLe l).mp hfalse
  have hlmem : negate l ∈ s.trail := FalseBefore.mem (s := s) hold
  rcases live_allocAttach.mp hcr with hlive | rfl
  · have hsame : ((s.allocAttach a b rest learnt stale).uncheckedEnqueue a (some s.caSize)).ca cr =
        s.ca cr := ca_allocAttach_of_live hlive
    rw [hsame] at hG hl ⊢
    have hcov := h.watched cr hlive hG l hl hold
    exact covered_uncheckedEnqueue (s := s.allocAttach a b rest learnt stale) hadd.trail ha
      hlmem hcov
  · have hself : ((s.allocAttach a b rest learnt stale).uncheckedEnqueue a (some s.caSize)).ca
        s.caSize = ⟨a, b, rest, learnt, false, stale⟩ := ca_allocAttach_self
    rw [hself] at hl ⊢
    refine ⟨a, List.mem_cons_self, List.mem_append_right _ (List.mem_singleton_self a), ?_⟩
    have hlast := level_uncheckedEnqueue_self (s := s.allocAttach a b rest learnt stale) (p := a)
      (o := some s.caSize)
    rw [hlast]
    rcases hl with rfl | rfl
    · rw [hlast]
    · have hsame := level_uncheckedEnqueue (s := s.allocAttach a l rest learnt stale)
        (o := some s.caSize) hadd.trail ha hlmem
      exact (hsame.trans hlevel).ge

end AllocAttach

/-! ### Learnt clauses are removed and trimmed -/

/-- The clauses of the problem stay, and so does what the clauses say. -/
structure Cleans (s t : Core) : Prop where
  nVars : t.nVars = s.nVars
  assigns : t.assigns = s.assigns
  trail : t.trail = s.trail
  trailLim : t.trailLim = s.trailLim
  qhead : t.qhead = s.qhead
  level : ∀ v, t.level v = s.level v
  reason : ∀ l ∈ s.trail, 0 < s.level l.1 → t.reason l.1 = s.reason l.1
  live : ∀ cr, Live t cr → Live s cr
  problem : ∀ cr, Live s cr → (s.ca cr).learnt = false → Live t cr ∧ t.ca cr = s.ca cr
  learnt : ∀ cr, (t.ca cr).learnt = (s.ca cr).learnt
  models : ∀ σ, Models s σ → Models t σ

namespace Cleans

theorem refl (s : Core) : Cleans s s :=
  ⟨rfl, rfl, rfl, rfl, rfl, fun _ => rfl, fun _ _ _ => rfl, fun _ h => h,
    fun _ h _ => ⟨h, rfl⟩, fun _ => rfl, fun _ h => h⟩

theorem trans {s t u : Core} (h : Cleans s t) (h' : Cleans t u) : Cleans s u where
  nVars := h'.nVars.trans h.nVars
  assigns := h'.assigns.trans h.assigns
  trail := h'.trail.trans h.trail
  trailLim := h'.trailLim.trans h.trailLim
  qhead := h'.qhead.trans h.qhead
  level v := (h'.level v).trans (h.level v)
  reason l hl hpos := by
    refine (h'.reason l (h.trail ▸ hl) ?_).trans (h.reason l hl hpos)
    rw [h.level]
    exact hpos
  live cr hcr := h.live cr (h'.live cr hcr)
  problem cr hcr hlearnt := by
    obtain ⟨hlive, hsame⟩ := h.problem cr hcr hlearnt
    obtain ⟨hlive', hsame'⟩ := h'.problem cr hlive (by rw [hsame]; exact hlearnt)
    exact ⟨hlive', hsame'.trans hsame⟩
  learnt cr := (h'.learnt cr).trans (h.learnt cr)
  models σ hσ := h'.models σ (h.models σ hσ)

end Cleans

section RemoveClause

variable {cr : ℕ}

theorem level_removeClause (v : ℕ) : (s.removeClause cr).level v = s.level v := by
  unfold Core.level Core.removeClause
  dsimp only
  split_ifs
  · rw [Function.update_apply]
    split_ifs with hv
    · rw [hv]
      rfl
    · rfl
  · rfl

theorem reason_removeClause (v : ℕ) : (s.removeClause cr).reason v =
    if s.Locked cr ∧ v = (s.ca cr).first.1 then none else s.reason v := by
  unfold Core.reason Core.removeClause
  dsimp only
  by_cases hlocked : s.Locked cr
  · rw [if_pos hlocked, Function.update_apply]
    by_cases hv : v = (s.ca cr).first.1
    · rw [if_pos hv, if_pos ⟨hlocked, hv⟩]
    · rw [if_neg hv, if_neg fun hand => hv hand.2]
  · rw [if_neg hlocked, if_neg fun hand => hlocked hand.1]

theorem ca_removeClause (k : ℕ) : (s.removeClause cr).ca k =
    if k = cr then { s.ca cr with removed := true } else s.ca k :=
  Function.update_apply _ _ _ _

theorem live_removeClause {k : ℕ} : Live (s.removeClause cr) k ↔ Live s k ∧ k ≠ cr := by
  unfold Live
  rw [ca_removeClause]
  show k < s.caSize ∧ _ ↔ _
  split_ifs with hk
  · simp [hk]
  · simp [hk]

theorem locked_of_reason (htrail : TrailOk s) (hreasons : ReasonsOk s) {l : Literal ℕ}
    (hl : l ∈ s.trail) (hreason : s.reason l.1 = some cr) :
    s.Locked cr ∧ l.1 = (s.ca cr).first.1 := by
  obtain ⟨i, hi⟩ := List.mem_iff_getElem?.mp hl
  obtain ⟨-, hfirst, -⟩ := hreasons i l cr hi hreason
  rw [← hfirst] at hl hreason ⊢
  exact ⟨⟨(htrail.isTrue_iff _).mpr hl, hreason⟩, rfl⟩

theorem dirty_removeClause (p : Literal ℕ) : (s.removeClause cr).dirty p = true ↔
    s.dirty p = true ∨ Watched (s.ca cr) (negate p) := by
  unfold Watched
  have hswap {a : Literal ℕ} : negate p = a ↔ p = negate a := by
    refine ⟨fun h => ?_, fun h => ?_⟩
    · rw [← h, negate_negate]
    · rw [h, negate_negate]
  rw [hswap, hswap]
  show Function.update (Function.update s.dirty _ true) _ true p = true ↔ _
  rw [Function.update_apply, Function.update_apply]
  split_ifs with hsecond hfirst
  · simp [hsecond]
  · simp [hfirst]
  · simp [hsecond, hfirst]

theorem removeClause_ok (h : EngineOk G s) (hlive : Live s cr)
    (hroot : ∀ l ∈ s.trail, s.reason l.1 = some cr → s.level l.1 = 0) :
    EngineOk G (s.removeClause cr) := by
  have hsame {k : ℕ} (hk : Live (s.removeClause cr) k) : (s.removeClause cr).ca k = s.ca k := by
    rw [ca_removeClause, if_neg (live_removeClause.mp hk).2]
  constructor
  · refine { h.trail with levels := fun i l hi => ?_, decided := fun i l hi hreason hpos => ?_ }
    · rw [level_removeClause]
      exact h.trail.levels i l hi
    · rw [level_removeClause] at hpos ⊢
      refine h.trail.decided i l hi ?_ hpos
      rw [reason_removeClause] at hreason
      split_ifs at hreason with hlocked
      · have hl : l ∈ s.trail := List.mem_of_getElem? hi
        have hold : s.reason l.1 = some cr := by
          rw [hlocked.2]
          exact hlocked.1.2
        exact absurd (hroot l hl hold) hpos.ne'
      · exact hreason
  · intro i l k hi hreason
    have hl : l ∈ s.trail := List.mem_of_getElem? hi
    rw [reason_removeClause] at hreason
    split_ifs at hreason with hlocked
    have hk : k ≠ cr := by
      rintro rfl
      exact hlocked (locked_of_reason h.trail h.reasons hl hreason)
    obtain ⟨hold, hfirst, htail⟩ := h.reasons i l k hi hreason
    rw [hsame (live_removeClause.mpr ⟨hold, hk⟩)]
    exact ⟨live_removeClause.mpr ⟨hold, hk⟩, hfirst, htail⟩
  · constructor
    · intro k hk
      rw [hsame hk]
      exact h.cells.distinct k (live_removeClause.mp hk).1
    · intro k hk
      rw [hsame hk]
      exact h.cells.inRange k (live_removeClause.mp hk).1
  · refine { h.watch with attached := ?_, watching := ?_, stale := ?_ }
    · intro k hk a ha
      rw [hsame hk] at ha
      exact h.watch.attached k (live_removeClause.mp hk).1 a ha
    · intro p w hw hk
      rw [hsame hk]
      obtain ⟨hwatched, hblocker⟩ := h.watch.watching p w hw (live_removeClause.mp hk).1
      refine ⟨hwatched, hblocker.imp_right fun hfalse => ⟨hfalse.1, ?_⟩⟩
      rw [level_removeClause]
      exact hfalse.2
    · intro p w hw hremoved
      rw [dirty_removeClause]
      by_cases hcr : w.cref = cr
      · subst hcr
        exact Or.inr (h.watch.watching p w hw hlive).1
      · rw [ca_removeClause, if_neg hcr] at hremoved
        exact Or.inl (h.watch.stale p w hw hremoved)
  · intro k hk hG a ha hfalse
    rw [hsame hk] at hG ha ⊢
    obtain ⟨t, ht, htrue, hle⟩ := h.watched k (live_removeClause.mp hk).1 hG a ha hfalse
    refine ⟨t, ht, htrue, ?_⟩
    rw [level_removeClause, level_removeClause]
    exact hle

theorem cleans_removeClause (hlearnt : (s.ca cr).learnt = true)
    (hroot : ∀ l ∈ s.trail, s.reason l.1 = some cr → s.level l.1 = 0) :
    Cleans s (s.removeClause cr) := by
  have hother {k : ℕ} (hk : k ≠ cr) : (s.removeClause cr).ca k = s.ca k := by
    rw [ca_removeClause, if_neg hk]
  refine ⟨rfl, rfl, rfl, rfl, rfl, level_removeClause, fun l hl hpos => ?_,
    fun k hk => (live_removeClause.mp hk).1, fun k hk hproblem => ?_, fun k => ?_,
    fun σ hσ => ⟨fun k hk => ?_, fun l hl hzero => ?_⟩⟩
  · rw [reason_removeClause, if_neg]
    rintro ⟨hlocked, hvar⟩
    refine hpos.ne' (hroot l hl ?_)
    rw [hvar]
    exact hlocked.2
  · have hne : k ≠ cr := by
      rintro rfl
      exact absurd (hlearnt.symm.trans hproblem) (by simp)
    exact ⟨live_removeClause.mpr ⟨hk, hne⟩, hother hne⟩
  · rw [ca_removeClause]
    split_ifs with hk
    · rw [hk]
    · rfl
  · obtain ⟨hlive, hne⟩ := live_removeClause.mp hk
    rw [hother hne]
    exact hσ.clauses k hlive
  · rw [level_removeClause] at hzero
    exact hσ.root l hl hzero

end RemoveClause

section Trim

variable {cr : ℕ} {rest : Clause ℕ}

/-- Trimming keeps the literals that are not false. -/
theorem trim_perm {M : Partial ℕ} {n : ℕ} {c : Clause ℕ} (hn : c.length ≤ n) :
    (trim M n c).Perm (c.filter fun l => ¬ IsFalse M l) := by
  induction n generalizing c with
  | zero =>
    rw [List.length_eq_zero_iff.mp (Nat.le_zero.mp hn)]
    exact List.Perm.refl _
  | succ n ih =>
    cases c with
    | nil => exact List.Perm.refl _
    | cons q rest =>
      rw [List.length_cons] at hn
      unfold trim
      split_ifs with hfalse
      · rw [List.filter_cons_of_neg (by simpa using hfalse)]
        cases hlast : rest.getLast? with
        | none =>
          rw [List.getLast?_eq_none_iff.mp hlast]
          exact List.Perm.refl _
        | some last =>
          have hsplit : rest = rest.dropLast ++ [last] := by
            obtain ⟨init, rfl⟩ := List.getLast?_eq_some_iff.mp hlast
            rw [List.dropLast_concat]
          have hlen : (last :: rest.dropLast).length ≤ n := by
            have := congrArg List.length hsplit
            rw [List.length_append, List.length_singleton] at this
            rw [List.length_cons]
            omega
          refine (ih hlen).trans (List.Perm.filter _ ?_)
          calc (last :: rest.dropLast).Perm (rest.dropLast ++ [last]) :=
                List.perm_append_singleton _ _ |>.symm
            _ = rest := hsplit.symm
      · rw [List.filter_cons_of_pos (by simpa using hfalse)]
        exact (ih (by omega)).cons q

/-- Literals that are false at level 0 are left out. -/
structure Shrinks (s : Core) (rest rest' : Clause ℕ) : Prop where
  subset : ∀ l ∈ rest', l ∈ rest
  nodup : (rest.map Prod.fst).Nodup → (rest'.map Prod.fst).Nodup
  dropped : ∀ l ∈ rest, l ∈ rest' ∨ RootFalse s l

theorem shrinks_trim (htrail : TrailOk s) (hlevel : s.decisionLevel = 0) (rest : Clause ℕ) :
    Shrinks s rest (trim s.assigns rest.length rest) := by
  have hperm := trim_perm (M := s.assigns) (le_refl rest.length)
  refine ⟨fun l hl => (List.mem_filter.mp (hperm.mem_iff.mp hl)).1, fun hnodup => ?_,
    fun l hl => ?_⟩
  · exact (hperm.map Prod.fst).nodup_iff.mpr (hnodup.sublist (List.filter_sublist.map _))
  · by_cases hfalse : IsFalse s.assigns l
    · have hmem := (htrail.isFalse_iff l).mp hfalse
      have hle := htrail.level_le hmem
      rw [hlevel] at hle
      exact Or.inr ⟨hmem, Nat.le_zero.mp hle⟩
    · exact Or.inl (hperm.mem_iff.mpr (List.mem_filter.mpr ⟨hl, by simpa using hfalse⟩))

theorem ca_setCell (c : Cell) (k : ℕ) :
    (s.setCell cr c).ca k = if k = cr then c else s.ca k := Function.update_apply _ _ _ _

variable {rest' : Clause ℕ}

theorem mem_lits_of_shrinks (hshrinks : Shrinks s (s.ca cr).rest rest') {l : Literal ℕ}
    (hl : l ∈ (s.ca cr).lits) :
    l ∈ (Cell.lits { s.ca cr with rest := rest' }) ∨ RootFalse s l := by
  rcases List.mem_cons.mp hl with rfl | hl
  · exact Or.inl List.mem_cons_self
  · rcases List.mem_cons.mp hl with rfl | hl
    · exact Or.inl (List.mem_cons_of_mem _ List.mem_cons_self)
    · exact (hshrinks.dropped l hl).imp_left fun hin =>
        List.mem_cons_of_mem _ (List.mem_cons_of_mem _ hin)

theorem lits_subset_of_shrinks (hshrinks : Shrinks s (s.ca cr).rest rest') {l : Literal ℕ}
    (hl : l ∈ (Cell.lits { s.ca cr with rest := rest' })) : l ∈ (s.ca cr).lits := by
  rcases List.mem_cons.mp hl with rfl | hl
  · exact List.mem_cons_self
  · refine List.mem_cons_of_mem _ ?_
    rcases List.mem_cons.mp hl with rfl | hl
    · exact List.mem_cons_self
    · exact List.mem_cons_of_mem _ (hshrinks.subset l hl)

theorem shrink_ok (h : EngineOk G s) (hshrinks : Shrinks s (s.ca cr).rest rest') :
    EngineOk G (s.setCell cr { s.ca cr with rest := rest' }) := by
  have hlive {k : ℕ} : Live (s.setCell cr { s.ca cr with rest := rest' }) k ↔ Live s k := by
    unfold Live
    rw [ca_setCell]
    split_ifs with hk
    · rw [hk]
      exact Iff.rfl
    · exact Iff.rfl
  constructor
  · exact h.trail.congr rfl rfl rfl rfl rfl rfl
  · intro i l k hi hreason
    obtain ⟨hk, hfirst, htail⟩ := h.reasons i l k hi hreason
    rw [hlive, ca_setCell]
    split_ifs with hcr
    · subst hcr
      refine ⟨hk, hfirst, List.forall_mem_cons.mpr ⟨htail _ List.mem_cons_self, fun q hq => ?_⟩⟩
      exact htail q (List.mem_cons_of_mem _ (hshrinks.subset q hq))
    · exact ⟨hk, hfirst, htail⟩
  · constructor
    · intro k hk
      have hold := h.cells.distinct k (hlive.mp hk)
      rw [ca_setCell]
      split_ifs with hcr
      · subst hcr
        simp only [Cell.lits, List.map_cons, List.nodup_cons] at hold ⊢
        have hsub {v : ℕ} (hv : v ∈ rest'.map Prod.fst) : v ∈ (s.ca k).rest.map Prod.fst := by
          obtain ⟨q, hq, rfl⟩ := List.mem_map.mp hv
          exact List.mem_map_of_mem (hshrinks.subset q hq)
        refine ⟨fun hin => hold.1 ?_, fun hin => hold.2.1 (hsub hin), hshrinks.nodup hold.2.2⟩
        exact (List.mem_cons.mp hin).elim (fun heq => List.mem_cons.mpr (Or.inl heq))
          fun hv => List.mem_cons_of_mem _ (hsub hv)
      · exact hold
    · intro k hk l hl
      rw [ca_setCell] at hl
      split_ifs at hl with hcr
      · subst hcr
        exact h.cells.inRange k (hlive.mp hk) l (lits_subset_of_shrinks hshrinks hl)
      · exact h.cells.inRange k (hlive.mp hk) l hl
  · have hwatched (k : ℕ) (a : Literal ℕ) :
        Watched ((s.setCell cr { s.ca cr with rest := rest' }).ca k) a ↔ Watched (s.ca k) a := by
      rw [ca_setCell]
      split_ifs with hcr
      · rw [hcr]
        exact Iff.rfl
      · exact Iff.rfl
    refine { h.watch with attached := ?_, watching := ?_, stale := ?_ }
    · intro k hk a ha
      exact h.watch.attached k (hlive.mp hk) a ((hwatched k a).mp ha)
    · intro p w hw hk
      obtain ⟨hold, hblocker⟩ := h.watch.watching p w hw (hlive.mp hk)
      refine ⟨(hwatched _ _).mpr hold, hblocker.elim (fun hin => ?_) Or.inr⟩
      rw [ca_setCell]
      split_ifs with hcr
      · rw [hcr] at hin
        exact mem_lits_of_shrinks hshrinks hin
      · exact Or.inl hin
    · intro p w hw hremoved
      rw [ca_setCell] at hremoved
      refine h.watch.stale p w hw ?_
      split_ifs at hremoved with hcr
      · rw [hcr]
        exact hremoved
      · exact hremoved
  · intro k hk hG a ha hfalse
    rw [ca_setCell] at hG ha ⊢
    split_ifs at hG ha ⊢ with hcr
    · subst hcr
      obtain ⟨t, ht, htrue, hle⟩ := h.watched k (hlive.mp hk) hG a ha hfalse
      refine ⟨t, (mem_lits_of_shrinks hshrinks ht).resolve_right fun hroot => ?_, htrue, hle⟩
      exact h.trail.negate_notMem htrue hroot.1
    · exact h.watched k (hlive.mp hk) hG a ha hfalse

theorem cleans_shrink (hlearnt : (s.ca cr).learnt = true)
    (hshrinks : Shrinks s (s.ca cr).rest rest') :
    Cleans s (s.setCell cr { s.ca cr with rest := rest' }) := by
  have hlive {k : ℕ} : Live (s.setCell cr { s.ca cr with rest := rest' }) k ↔ Live s k := by
    unfold Live
    rw [ca_setCell]
    split_ifs with hk
    · rw [hk]
      exact Iff.rfl
    · exact Iff.rfl
  refine ⟨rfl, rfl, rfl, rfl, rfl, fun _ => rfl, fun _ _ _ => rfl, fun k hk => hlive.mp hk,
    fun k hk hproblem => ⟨hlive.mpr hk, ?_⟩, fun k => ?_, fun σ hσ => ⟨fun k hk => ?_, hσ.root⟩⟩
  · rw [ca_setCell, if_neg]
    rintro rfl
    exact absurd (hlearnt.symm.trans hproblem) (by simp)
  · rw [ca_setCell]
    split_ifs with hk
    · rw [hk]
    · rfl
  · obtain ⟨l, hl, hholds⟩ := hσ.clauses k (hlive.mp hk)
    rw [ca_setCell]
    split_ifs with hcr
    · subst hcr
      refine ⟨l, (mem_lits_of_shrinks hshrinks hl).resolve_right fun hroot => ?_, hholds⟩
      exact (literalHolds_negate σ l).mp (hσ.root (negate l) hroot.1 hroot.2) hholds
    · exact ⟨l, hl, hholds⟩

end Trim

/-! ### The list of learnt clauses -/

/-- The learnt clauses `crs` have been gone through, of which `kept` stay. -/
structure ListCleaned (G : Bool → Prop) (s : Core) (crs : List ℕ) (t : Core) (kept : List ℕ) :
    Prop where
  engine : EngineOk G t
  cleans : Cleans s t
  sublist : kept.Sublist crs
  live : ∀ cr, Live s cr → cr ∈ kept ∨ cr ∉ crs → Live t cr

section ListCleaned

variable {cr : ℕ} {crs kept : List ℕ} {t u : Core}

theorem ListCleaned.goes (hcr : cr ∉ crs) (hclean : Cleans s t)
    (hlive : ∀ k, Live s k → k ≠ cr → Live t k) (h : ListCleaned G t crs u kept) :
    ListCleaned G s (cr :: crs) u kept := by
  refine ⟨h.engine, hclean.trans h.cleans, h.sublist.cons cr, fun k hk hmem => ?_⟩
  rcases hmem with hkept | hnot
  · refine h.live k (hlive k hk ?_) (Or.inl hkept)
    rintro rfl
    exact hcr (h.sublist.subset hkept)
  · rw [List.mem_cons, not_or] at hnot
    exact h.live k (hlive k hk hnot.1) (Or.inr hnot.2)

theorem ListCleaned.stays (hcr : cr ∉ crs) (hclean : Cleans s t)
    (hlive : ∀ k, Live s k → Live t k) (h : ListCleaned G t crs u kept) :
    ListCleaned G s (cr :: crs) u (cr :: kept) := by
  refine ⟨h.engine, hclean.trans h.cleans, h.sublist.cons_cons cr, fun k hk hmem => ?_⟩
  refine h.live k (hlive k hk) ?_
  by_cases hkcr : k = cr
  · exact Or.inr (hkcr ▸ hcr)
  · refine hmem.imp (fun hin => (List.mem_cons.mp hin).resolve_left hkcr) fun hnot hin => ?_
    exact hnot (List.mem_cons_of_mem cr hin)

theorem removeSatisfied_ok (h : EngineOk G s) (hlevel : s.decisionLevel = 0)
    (hnodup : crs.Nodup) (hcrs : ∀ cr ∈ crs, Live s cr ∧ (s.ca cr).learnt = true) :
    ListCleaned G s crs (s.removeSatisfied crs).1 (s.removeSatisfied crs).2 := by
  induction crs generalizing s with
  | nil => exact ⟨h, Cleans.refl s, List.Sublist.refl _, fun k hk _ => hk⟩
  | cons cr rest ih =>
    obtain ⟨hfresh, hrest⟩ := List.nodup_cons.mp hnodup
    obtain ⟨⟨hlive, hlearnt⟩, hothers⟩ := List.forall_mem_cons.mp hcrs
    have hne {k : ℕ} (hk : k ∈ rest) : k ≠ cr := fun heq => hfresh (heq ▸ hk)
    unfold Core.removeSatisfied
    split_ifs with hsat
    · have hroot : ∀ l ∈ s.trail, s.reason l.1 = some cr → s.level l.1 = 0 := by
        intro l hl _
        have := h.trail.level_le hl
        omega
      have hclean := cleans_removeClause hlearnt hroot
      refine ListCleaned.goes hfresh hclean
        (fun k hk hkcr => live_removeClause.mpr ⟨hk, hkcr⟩)
        (ih (removeClause_ok h hlive hroot) hlevel hrest fun k hk => ?_)
      obtain ⟨hk', hlearnt'⟩ := hothers k hk
      exact ⟨live_removeClause.mpr ⟨hk', hne hk⟩, (hclean.learnt k).trans hlearnt'⟩
    · have hshrinks := shrinks_trim h.trail hlevel (s.ca cr).rest
      have hclean := cleans_shrink hlearnt hshrinks
      have hkeep (k : ℕ) (hk : Live s k) : Live (s.setCell cr
          { s.ca cr with rest := trim s.assigns (s.ca cr).rest.length (s.ca cr).rest }) k := by
        refine ⟨hk.1, ?_⟩
        rw [ca_setCell]
        split_ifs with hkcr
        · exact hkcr ▸ hk.2
        · exact hk.2
      refine ListCleaned.stays hfresh hclean hkeep
        (ih (shrink_ok h hshrinks) hlevel hrest fun k hk => ?_)
      obtain ⟨hk', hlearnt'⟩ := hothers k hk
      exact ⟨hkeep k hk', (hclean.learnt k).trans hlearnt'⟩

theorem reduceDB_ok (h : EngineOk G s) (drop : ℕ → Bool)
    (hnodup : crs.Nodup) (hcrs : ∀ cr ∈ crs, Live s cr ∧ (s.ca cr).learnt = true) :
    ListCleaned G s crs (s.reduceDB drop crs).1 (s.reduceDB drop crs).2 := by
  induction crs generalizing s with
  | nil => exact ⟨h, Cleans.refl s, List.Sublist.refl _, fun k hk _ => hk⟩
  | cons cr rest ih =>
    obtain ⟨hfresh, hrest⟩ := List.nodup_cons.mp hnodup
    obtain ⟨⟨hlive, hlearnt⟩, hothers⟩ := List.forall_mem_cons.mp hcrs
    have hne {k : ℕ} (hk : k ∈ rest) : k ≠ cr := fun heq => hfresh (heq ▸ hk)
    unfold Core.reduceDB
    split_ifs with hdrop
    · -- no reason is removed
      have hroot : ∀ l ∈ s.trail, s.reason l.1 = some cr → s.level l.1 = 0 := fun l hl hreason =>
        absurd (locked_of_reason h.trail h.reasons hl hreason).1 hdrop.2.1
      have hclean := cleans_removeClause hlearnt hroot
      refine ListCleaned.goes hfresh hclean
        (fun k hk hkcr => live_removeClause.mpr ⟨hk, hkcr⟩)
        (ih (removeClause_ok h hlive hroot) hrest fun k hk => ?_)
      obtain ⟨hk', hlearnt'⟩ := hothers k hk
      exact ⟨live_removeClause.mpr ⟨hk', hne hk⟩, (hclean.learnt k).trans hlearnt'⟩
    · exact ListCleaned.stays hfresh (Cleans.refl s) (fun _ hk => hk) (ih h hrest hothers)

end ListCleaned

end Painless.MiniSatEngine
