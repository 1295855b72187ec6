import Painless.ImplicationGraph
import Painless.MiniSatCore
import Mathlib.Data.List.Perm.Subperm

/-!
The trail of the MiniSat engine: which variables are assigned, at which decision
level, and by which clause each literal was implied. Every literal that is not
the first of its level has a reason, whose other literals are false by earlier
entries.
-/
namespace Painless.MiniSatTrail

open Cnf PartialAssignment MiniSatCore
open MiniSatCore.Core

/-- The clause is in use. -/
def Live (s : Core) (cr : ℕ) : Prop := cr < s.caSize ∧ (s.ca cr).removed = false

/-- The assignment and the levels are those of the trail. Entries that have not
been propagated belong to the current level. -/
structure TrailOk (s : Core) : Prop where
  nodup : (s.trail.map Prod.fst).Nodup
  assigned : ∀ v b, s.assigns v = some b ↔ (v, b) ∈ s.trail
  inRange : ∀ l ∈ s.trail, l.1 < s.nVars
  sorted : s.trailLim.Pairwise (· ≤ ·)
  limsLe : ∀ k ∈ s.trailLim, k ≤ s.qhead
  qheadLe : s.qhead ≤ s.trail.length
  levels : ∀ (i : ℕ) l, s.trail[i]? = some l → s.level l.1 = s.trailLim.countP (· ≤ i)
  decided : ∀ (i : ℕ) l, s.trail[i]? = some l → s.reason l.1 = none → 0 < s.level l.1 →
    s.trailLim[s.level l.1 - 1]? = some i

/-- A reason starts with the literal that it implied; the others are false by
entries before it. -/
def ReasonsOk (s : Core) : Prop :=
  ∀ (i : ℕ) l cr, s.trail[i]? = some l → s.reason l.1 = some cr →
    Live s cr ∧ (s.ca cr).first = l ∧ ∀ q ∈ (s.ca cr).tail, negate q ∈ s.trail.take i

/-- The literal became false before the entry `k` of the trail. -/
def FalseBefore (s : Core) (k : ℕ) (l : Literal ℕ) : Prop := negate l ∈ s.trail.take k

namespace TrailOk

variable {s : Core} (h : TrailOk s)
include h

theorem isTrue_iff (l : Literal ℕ) : IsTrue s.assigns l ↔ l ∈ s.trail := h.assigned l.1 l.2

theorem isFalse_iff (l : Literal ℕ) : IsFalse s.assigns l ↔ negate l ∈ s.trail :=
  h.assigned l.1 (!l.2)

theorem unassigned_iff (v : ℕ) : s.assigns v = none ↔ v ∉ s.trail.map Prod.fst := by
  rw [← not_iff_not, not_not, List.mem_map, ← ne_eq, Option.ne_none_iff_exists']
  constructor
  · rintro ⟨b, hb⟩
    exact ⟨(v, b), (h.assigned v b).mp hb, rfl⟩
  · rintro ⟨⟨w, b⟩, hmem, rfl⟩
    exact ⟨b, (h.assigned _ b).mpr hmem⟩

theorem index_unique {i j : ℕ} {l m : Literal ℕ} (hi : s.trail[i]? = some l)
    (hj : s.trail[j]? = some m) (hvar : l.1 = m.1) : i = j := by
  have hlt : i < (s.trail.map Prod.fst).length := by
    rw [List.length_map]
    exact (List.getElem?_eq_some_iff.mp hi).1
  refine (List.getElem?_inj hlt h.nodup).mp ?_
  rw [List.getElem?_map, List.getElem?_map, hi, hj, Option.map_some, Option.map_some, hvar]

theorem negate_notMem {l : Literal ℕ} (hl : l ∈ s.trail) : negate l ∉ s.trail :=
  fun hn => ((h.isTrue_iff l).mpr hl).not_isFalse ((h.isFalse_iff l).mpr hn)

theorem level_le {l : Literal ℕ} (hl : l ∈ s.trail) : s.level l.1 ≤ s.decisionLevel := by
  obtain ⟨i, hi⟩ := List.mem_iff_getElem?.mp hl
  rw [h.levels i l hi]
  exact List.countP_le_length

theorem level_mono {i j : ℕ} {l m : Literal ℕ} (hi : s.trail[i]? = some l)
    (hj : s.trail[j]? = some m) (hij : i ≤ j) : s.level l.1 ≤ s.level m.1 := by
  rw [h.levels i l hi, h.levels j m hj]
  refine List.countP_mono_left fun k _ hk => ?_
  simp only [decide_eq_true_eq] at hk ⊢
  omega

/-- The entries from the last limit on are of the current level. -/
theorem level_current {i : ℕ} {l : Literal ℕ} (hi : s.trail[i]? = some l)
    (hlims : ∀ k ∈ s.trailLim, k ≤ i) : s.level l.1 = s.decisionLevel := by
  rw [h.levels i l hi]
  exact List.countP_eq_length.mpr fun k hk => by simpa using hlims k hk

theorem limsLe_length : ∀ k ∈ s.trailLim, k ≤ s.trail.length :=
  fun k hk => (h.limsLe k hk).trans h.qheadLe

theorem length_le : s.trail.length ≤ s.nVars := by
  rw [← List.length_map Prod.fst, ← List.length_range (n := s.nVars)]
  refine (List.subperm_of_subset h.nodup fun v hv => ?_).length_le
  obtain ⟨l, hl, rfl⟩ := List.mem_map.mp hv
  exact List.mem_range.mpr (h.inRange l hl)

/-! ### Operations -/

/-- Only the trail with its levels and reasons matters. -/
theorem congr {t : Core} (hvars : t.nVars = s.nVars) (hassigns : t.assigns = s.assigns)
    (hdata : t.vardata = s.vardata) (htrail : t.trail = s.trail)
    (hlims : t.trailLim = s.trailLim) (hqhead : t.qhead = s.qhead) : TrailOk t := by
  constructor
  · rw [htrail]
    exact h.nodup
  · rw [hassigns, htrail]
    exact h.assigned
  · rw [htrail, hvars]
    exact h.inRange
  · rw [hlims]
    exact h.sorted
  · rw [hlims, hqhead]
    exact h.limsLe
  · rw [hqhead, htrail]
    exact h.qheadLe
  · unfold Core.level
    rw [htrail, hdata, hlims]
    exact h.levels
  · unfold Core.level Core.reason
    rw [htrail, hdata, hlims]
    exact h.decided

theorem setQhead {k : ℕ} (hle : s.qhead ≤ k) (hk : k ≤ s.trail.length) :
    TrailOk { s with qhead := k } :=
  { h with
    limsLe := fun j hj => (h.limsLe j hj).trans hle
    qheadLe := hk }

theorem newDecisionLevel (hqhead : s.qhead = s.trail.length) :
    TrailOk s.newDecisionLevel := by
  have hkeep {i : ℕ} {l : Literal ℕ} (hi : s.trail[i]? = some l) :
      (s.trailLim ++ [s.trail.length]).countP (· ≤ i) = s.trailLim.countP (· ≤ i) := by
    have hlt := (List.getElem?_eq_some_iff.mp hi).1
    rw [List.countP_append, List.countP_singleton, if_neg (by simpa using hlt), Nat.add_zero]
  refine { h with sorted := ?_, limsLe := ?_, levels := ?_, decided := ?_ }
  · refine List.pairwise_append.mpr ⟨h.sorted, List.pairwise_singleton _ _, fun k hk j hj => ?_⟩
    rw [List.mem_singleton.mp hj]
    exact h.limsLe_length k hk
  · intro k hk
    rcases List.mem_append.mp hk with hk | hk
    · exact h.limsLe k hk
    · rw [List.mem_singleton.mp hk]
      exact hqhead.ge
  · exact fun i l hi => (h.levels i l hi).trans (hkeep hi).symm
  · intro i l hi hreason hlevel
    have hlim := h.decided i l hi hreason hlevel
    exact List.getElem?_append_left (List.getElem?_eq_some_iff.mp hlim).1 |>.trans hlim

theorem uncheckedEnqueue {p : Literal ℕ} {o : Option ℕ} (hp : s.assigns p.1 = none)
    (hvar : p.1 < s.nVars)
    (hfrom : o = none → s.decisionLevel = 0 ∨
      s.trailLim[s.decisionLevel - 1]? = some s.trail.length) :
    TrailOk (s.uncheckedEnqueue p o) := by
  have hnew : p.1 ∉ s.trail.map Prod.fst := (h.unassigned_iff p.1).mp hp
  have hlast {i : ℕ} {l : Literal ℕ} (hi : (s.trail ++ [p])[i]? = some l) :
      (s.trail[i]? = some l ∧ l.1 ≠ p.1) ∨ (i = s.trail.length ∧ l = p) := by
    rcases Nat.lt_or_ge i s.trail.length with hlt | hge
    · rw [List.getElem?_append_left hlt] at hi
      refine Or.inl ⟨hi, fun heq => hnew ?_⟩
      exact heq ▸ List.mem_map_of_mem (List.mem_of_getElem? hi)
    · rw [List.getElem?_append_right hge] at hi
      obtain ⟨hzero, hpl⟩ := List.getElem?_eq_some_iff.mp hi
      rw [List.length_singleton] at hzero
      rw [List.getElem_singleton] at hpl
      exact Or.inr ⟨by omega, hpl.symm⟩
  have hvardata {v : ℕ} (hv : v ≠ p.1) :
      (s.uncheckedEnqueue p o).vardata v = s.vardata v := Function.update_of_ne hv _ _
  have hself : (s.uncheckedEnqueue p o).vardata p.1 = ⟨o, s.decisionLevel⟩ :=
    Function.update_self _ _ _
  constructor
  · show ((s.trail ++ [p]).map Prod.fst).Nodup
    rw [List.map_append, List.map_singleton]
    exact h.nodup.append (List.nodup_singleton _) (List.disjoint_singleton.mpr hnew)
  · intro v b
    show Function.update s.assigns p.1 (some p.2) v = some b ↔ (v, b) ∈ s.trail ++ [p]
    rw [List.mem_append, List.mem_singleton]
    by_cases hv : v = p.1
    · subst hv
      have hnone : (p.1, b) ∉ s.trail := fun hmem =>
        hnew (List.mem_map.mpr ⟨_, hmem, rfl⟩)
      rw [Function.update_self, Option.some.injEq, or_iff_right hnone]
      exact ⟨fun hb => by rw [← hb], fun hb => (congrArg Prod.snd hb).symm⟩
    · rw [Function.update_of_ne hv, h.assigned]
      exact (or_iff_left fun heq => hv (congrArg Prod.fst heq)).symm
  · intro l hl
    rcases List.mem_append.mp hl with hl | hl
    · exact h.inRange l hl
    · rw [List.mem_singleton.mp hl]
      exact hvar
  · exact h.sorted
  · exact h.limsLe
  · show s.qhead ≤ (s.trail ++ [p]).length
    rw [List.length_append]
    exact Nat.le_add_right_of_le h.qheadLe
  · intro i l hi
    unfold Core.level
    rcases hlast hi with ⟨hold, hne⟩ | ⟨rfl, rfl⟩
    · rw [hvardata hne]
      exact h.levels i l hold
    · rw [hself]
      refine Eq.symm (List.countP_eq_length.mpr fun k hk => ?_)
      simpa using h.limsLe_length k hk
  · intro i l hi hreason hlevel
    unfold Core.reason at hreason
    unfold Core.level at hlevel ⊢
    rcases hlast hi with ⟨hold, hne⟩ | ⟨rfl, rfl⟩
    · rw [hvardata hne] at hreason hlevel ⊢
      exact h.decided i l hold hreason hlevel
    · rw [hself] at hreason hlevel ⊢
      exact (hfrom hreason).resolve_left (Nat.pos_iff_ne_zero.mp hlevel)

end TrailOk

/-! ### Backtracking -/

theorem foldl_unassign (M : Partial ℕ) (ls : List (Literal ℕ)) (v : ℕ) :
    ls.foldl (fun (M : Partial ℕ) l => Function.update M l.1 none) M v =
      if v ∈ ls.map Prod.fst then none else M v := by
  induction ls generalizing M with
  | nil => simp
  | cons l rest ih =>
    rw [List.foldl_cons, ih]
    by_cases hrest : v ∈ rest.map Prod.fst
    · simp [hrest]
    · by_cases hl : v = l.1
      · simp [hl]
      · simp [hrest, hl, Function.update_of_ne]

/-- In a sorted list the entries up to `i` come first. -/
theorem lt_countP_iff {lims : List ℕ} (hsorted : lims.Pairwise (· ≤ ·)) {k lim : ℕ}
    (hk : lims[k]? = some lim) (i : ℕ) : k < lims.countP (· ≤ i) ↔ lim ≤ i := by
  induction lims generalizing k with
  | nil => exact absurd hk (by simp)
  | cons first rest ih =>
    obtain ⟨hfirst, hrest⟩ := List.pairwise_cons.mp hsorted
    have hle : first ≤ lim := by
      cases k with
      | zero => exact (Option.some.inj hk).le
      | succ k => exact hfirst lim (List.mem_of_getElem? hk)
    by_cases hi : first ≤ i
    · rw [List.countP_cons_of_pos (by simpa using hi)]
      cases k with
      | zero =>
        obtain rfl := Option.some.inj hk
        exact iff_of_true (Nat.succ_pos _) hi
      | succ k => exact Nat.succ_lt_succ_iff.trans (ih hrest hk)
    · have hnone : (first :: rest).countP (· ≤ i) = 0 := by
        refine List.countP_eq_zero.mpr fun m hm => ?_
        rcases List.mem_cons.mp hm with rfl | hm
        · simpa using hi
        · have := hfirst m hm
          simp only [decide_eq_true_eq]
          omega
      rw [hnone]
      exact iff_of_false (Nat.not_lt_zero k) (by omega)

section CancelUntil

variable {s : Core} {level lim : ℕ}

theorem cancelUntil_of_le (h : s.decisionLevel ≤ level) : s.cancelUntil level = s := by
  unfold Core.cancelUntil
  rw [List.getElem?_eq_none h]

theorem cancelUntil_of_lim (h : s.trailLim[level]? = some lim) :
    s.cancelUntil level =
      { s with
        assigns := (s.trail.drop lim).foldl (fun M l => Function.update M l.1 none) s.assigns
        trail := s.trail.take lim
        trailLim := s.trailLim.take level
        qhead := lim } := by
  unfold Core.cancelUntil
  rw [h]

/-- Exactly the entries up to the level stay. -/
theorem TrailOk.lt_lim_iff (h : TrailOk s) (hlim : s.trailLim[level]? = some lim) {i : ℕ}
    {l : Literal ℕ} (hi : s.trail[i]? = some l) : i < lim ↔ s.level l.1 ≤ level := by
  rw [h.levels i l hi, ← not_iff_not, not_lt, not_le]
  exact (lt_countP_iff h.sorted hlim i).symm

theorem TrailOk.cancelUntil (h : TrailOk s) (level : ℕ) : TrailOk (s.cancelUntil level) := by
  rcases Nat.lt_or_ge level s.decisionLevel with hlt | hge
  · have hlim : s.trailLim[level]? = some s.trailLim[level] := List.getElem?_eq_getElem hlt
    generalize s.trailLim[level] = lim at hlim
    have hle : lim ≤ s.trail.length := h.limsLe_length lim (List.mem_of_getElem? hlim)
    have hold {i : ℕ} {l : Literal ℕ} (hi : (s.trail.take lim)[i]? = some l) :
        i < lim ∧ s.trail[i]? = some l := by
      have hil := (List.getElem?_eq_some_iff.mp hi).1
      rw [List.length_take] at hil
      have hlt : i < lim := by omega
      rw [List.getElem?_take_of_lt hlt] at hi
      exact ⟨hlt, hi⟩
    have hcount {i : ℕ} {l : Literal ℕ} (hlt : i < lim) (hi : s.trail[i]? = some l) :
        (s.trailLim.take level).countP (· ≤ i) = s.level l.1 := by
      have hrest : (s.trailLim.drop level).countP (· ≤ i) = 0 := by
        refine List.countP_eq_zero.mpr fun m hm => ?_
        obtain ⟨j, hj⟩ := List.mem_iff_getElem?.mp hm
        rw [List.getElem?_drop] at hj
        have hnot := (lt_countP_iff h.sorted hj i).not
        have hlevel := (h.lt_lim_iff hlim hi).mp hlt
        rw [h.levels i l hi] at hlevel
        simpa using hnot.mp (by omega)
      rw [h.levels i l hi, ← List.take_append_drop level s.trailLim, List.countP_append, hrest,
        List.take_append_drop, Nat.add_zero]
    rw [cancelUntil_of_lim hlim]
    constructor
    · exact h.nodup.sublist ((List.take_sublist lim s.trail).map Prod.fst)
    · intro v b
      show (s.trail.drop lim).foldl (fun (M : Partial ℕ) l => Function.update M l.1 none)
        s.assigns v = some b ↔ (v, b) ∈ s.trail.take lim
      rw [foldl_unassign]
      have hnodup := h.nodup
      rw [← List.take_append_drop lim s.trail, List.map_append, List.nodup_append'] at hnodup
      have hmem := h.assigned v b
      rw [← List.take_append_drop lim s.trail, List.mem_append] at hmem
      by_cases hv : v ∈ (s.trail.drop lim).map Prod.fst
      · rw [if_pos hv]
        refine iff_of_false (by simp) fun hkept => ?_
        exact hnodup.2.2 (List.mem_map.mpr ⟨_, hkept, rfl⟩) hv
      · rw [if_neg hv, hmem]
        exact or_iff_left fun hdrop => hv (List.mem_map.mpr ⟨_, hdrop, rfl⟩)
    · exact fun l hl => h.inRange l (List.mem_of_mem_take hl)
    · exact h.sorted.sublist (List.take_sublist _ _)
    · intro k hk
      obtain ⟨j, hj⟩ := List.mem_iff_getElem?.mp hk
      have hjlt := (List.getElem?_eq_some_iff.mp hj).1
      rw [List.length_take] at hjlt
      rw [List.getElem?_take_of_lt (by omega)] at hj
      have hcountLim := (lt_countP_iff h.sorted hlim lim).mpr le_rfl
      exact (lt_countP_iff h.sorted hj lim).mp (by omega)
    · show lim ≤ (s.trail.take lim).length
      rw [List.length_take]
      omega
    · intro i l hi
      obtain ⟨hlt, hi⟩ := hold hi
      exact (hcount hlt hi).symm
    · intro i l hi hreason hpos
      obtain ⟨hlt, hi⟩ := hold hi
      have hlevel := (h.lt_lim_iff hlim hi).mp hlt
      have hpos' : 0 < s.level l.1 := hpos
      show (s.trailLim.take level)[s.level l.1 - 1]? = some i
      rw [List.getElem?_take_of_lt (by omega)]
      exact h.decided i l hi hreason hpos
  · rw [cancelUntil_of_le hge]
    exact h

/-- Backtracking keeps exactly the entries up to the level. -/
theorem TrailOk.mem_cancelUntil (h : TrailOk s) (level : ℕ) (l : Literal ℕ) :
    l ∈ (s.cancelUntil level).trail ↔ l ∈ s.trail ∧ s.level l.1 ≤ level := by
  rcases Nat.lt_or_ge level s.decisionLevel with hlt | hge
  · have hlim : s.trailLim[level]? = some s.trailLim[level] := List.getElem?_eq_getElem hlt
    rw [cancelUntil_of_lim hlim]
    show l ∈ s.trail.take _ ↔ _
    constructor
    · intro hl
      obtain ⟨i, hi⟩ := List.mem_iff_getElem?.mp hl
      have hil := (List.getElem?_eq_some_iff.mp hi).1
      rw [List.length_take] at hil
      rw [List.getElem?_take_of_lt (by omega)] at hi
      exact ⟨List.mem_of_getElem? hi, (h.lt_lim_iff hlim hi).mp (by omega)⟩
    · rintro ⟨hl, hlevel⟩
      obtain ⟨i, hi⟩ := List.mem_iff_getElem?.mp hl
      have hlt := (h.lt_lim_iff hlim hi).mpr hlevel
      refine List.mem_iff_getElem?.mpr ⟨i, ?_⟩
      rw [List.getElem?_take_of_lt hlt, hi]
  · rw [cancelUntil_of_le hge]
    exact (and_iff_left_of_imp fun hl => (h.level_le hl).trans hge).symm

@[simp] theorem cancelUntil_ca : (s.cancelUntil level).ca = s.ca := by
  unfold Core.cancelUntil
  split <;> rfl

@[simp] theorem cancelUntil_caSize : (s.cancelUntil level).caSize = s.caSize := by
  unfold Core.cancelUntil
  split <;> rfl

@[simp] theorem cancelUntil_vardata : (s.cancelUntil level).vardata = s.vardata := by
  unfold Core.cancelUntil
  split <;> rfl

@[simp] theorem cancelUntil_nVars : (s.cancelUntil level).nVars = s.nVars := by
  unfold Core.cancelUntil
  split <;> rfl

@[simp] theorem cancelUntil_watches : (s.cancelUntil level).watches = s.watches := by
  unfold Core.cancelUntil
  split <;> rfl

@[simp] theorem cancelUntil_dirty : (s.cancelUntil level).dirty = s.dirty := by
  unfold Core.cancelUntil
  split <;> rfl

theorem trail_cancelUntil_isPrefix : (s.cancelUntil level).trail <+: s.trail := by
  unfold Core.cancelUntil
  split
  · exact List.prefix_refl _
  · exact List.take_prefix _ _

theorem cancelUntil_trailLim : (s.cancelUntil level).trailLim = s.trailLim.take level := by
  rcases Nat.lt_or_ge level s.decisionLevel with hlt | hge
  · rw [cancelUntil_of_lim (List.getElem?_eq_getElem hlt)]
  · rw [cancelUntil_of_le hge, List.take_of_length_le hge]

/-- All that is left has been propagated. -/
theorem cancelUntil_qhead (hlt : level < s.decisionLevel) (h : TrailOk s) :
    (s.cancelUntil level).qhead = (s.cancelUntil level).trail.length := by
  have hlim : s.trailLim[level]? = some s.trailLim[level] := List.getElem?_eq_getElem hlt
  rw [cancelUntil_of_lim hlim]
  exact (List.length_take_of_le (h.limsLe_length _ (List.mem_of_getElem? hlim))).symm

end CancelUntil

/-- An entry of a prefix is the entry of the whole. -/
theorem getElem?_of_isPrefix {pre whole : List (Literal ℕ)} (h : pre <+: whole) {i : ℕ}
    {l : Literal ℕ} (hi : pre[i]? = some l) : whole[i]? = some l := by
  obtain ⟨rest, rfl⟩ := h
  rw [List.getElem?_append_left (List.getElem?_eq_some_iff.mp hi).1]
  exact hi

theorem take_of_isPrefix {pre whole : List (Literal ℕ)} (h : pre <+: whole) {i : ℕ}
    (hi : i ≤ pre.length) : pre.take i = whole.take i := by
  obtain ⟨rest, rfl⟩ := h
  rw [List.take_append_of_le_length hi]

theorem ReasonsOk.cancelUntil {s : Core} (h : ReasonsOk s) (level : ℕ) :
    ReasonsOk (s.cancelUntil level) := by
  intro i l cr hi hreason
  have hpre := @trail_cancelUntil_isPrefix s level
  unfold Core.reason at hreason
  rw [cancelUntil_vardata] at hreason
  have hlt := (List.getElem?_eq_some_iff.mp hi).1
  obtain ⟨hlive, hfirst, htail⟩ := h i l cr (getElem?_of_isPrefix hpre hi) hreason
  unfold Live
  rw [cancelUntil_ca, cancelUntil_caSize, take_of_isPrefix hpre hlt.le]
  exact ⟨hlive, hfirst, htail⟩

end Painless.MiniSatTrail
