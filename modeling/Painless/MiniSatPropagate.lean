import Painless.MiniSatWatches

/-!
Unit propagation with two watched literals. The loop over the watchers of a
literal has visited the clauses of the list `kept` and is to visit those of
`rest`; only the latter may be without a true literal. Where propagate returns no
clause, every clause with a false watched literal has a true one, hence none is
false and none has one literal left. Where it returns a clause, all literals of
that clause are false, and one of them is of the current level.
-/
namespace Painless.MiniSatPropagate

open Cnf PartialAssignment MiniSatCore MiniSatTrail MiniSatWatches
open MiniSatCore.Core
open ImportedWatches (Watcher pushWatch attach mem_pushWatch)

/-- In the middle of the loop over the watchers of `p`. -/
structure LoopOk (G : Bool → Prop) (p : Literal ℕ) (s : Core) (kept rest : List Watcher) :
    Prop where
  trail : TrailOk s
  reasons : ReasonsOk s
  cells : CellsOk s
  watch : WatchOk (s.setWatches p (kept ++ rest))
  clean : s.dirty p = false
  propagated : ∃ i, s.qhead = i + 1 ∧ s.trail[i]? = some p ∧ ∀ k ∈ s.trailLim, k ≤ i
  covered : ∀ cr, Live s cr → G (s.ca cr).stale → ∀ a, Watched (s.ca cr) a →
    FalseBefore s s.qhead a → (a = negate p ∧ cr ∈ rest.map Watcher.cref) ∨
      Covered s a (s.ca cr)

theorem setWatches_apply (s : Core) (p q : Literal ℕ) (ws : List Watcher) :
    (s.setWatches p ws).watches q = if q = p then ws else s.watches q :=
  Function.update_apply _ _ _ _

theorem Frame.setWatches {s t : Core} (hf : Frame s t) (p : Literal ℕ) (ws ws' : List Watcher) :
    Frame (s.setWatches p ws) (t.setWatches p ws') := { hf with }

namespace LoopOk

variable {G : Bool → Prop} {p : Literal ℕ} {s : Core} {kept rest : List Watcher} {w : Watcher}

theorem mem (h : LoopOk G p s kept rest) : p ∈ s.trail := by
  obtain ⟨i, -, hi, -⟩ := h.propagated
  exact List.mem_of_getElem? hi

theorem level (h : LoopOk G p s kept rest) : s.level p.1 = s.decisionLevel := by
  obtain ⟨i, -, hi, hlims⟩ := h.propagated
  exact h.trail.level_current hi hlims

theorem head_mem : w ∈ (s.setWatches p (kept ++ w :: rest)).watches p := by
  rw [setWatches_apply, if_pos rfl]
  exact List.mem_append_right _ List.mem_cons_self

section Head

variable (h : LoopOk G p s kept (w :: rest))
include h

theorem head_live : Live s w.cref := by
  refine ⟨h.watch.known p w head_mem, ?_⟩
  by_contra hremoved
  have hdirty := h.watch.stale p w head_mem ((Bool.not_eq_false _).mp hremoved)
  exact absurd (hdirty.symm.trans h.clean) (by simp)

theorem head_watched : Watched (s.ca w.cref) (negate p) :=
  (h.watch.watching p w head_mem h.head_live).1

theorem head_blocker : w.blocker ∈ (s.ca w.cref).lits ∨ RootFalse s w.blocker :=
  (h.watch.watching p w head_mem h.head_live).2

/-- The variables of a clause are distinct. -/
theorem first_ne_second : (s.ca w.cref).first.1 ≠ (s.ca w.cref).second.1 := by
  have hnodup := h.cells.distinct _ h.head_live
  rw [Cell.lits, List.map_cons, List.nodup_cons] at hnodup
  exact fun heq => hnodup.1 (heq ▸ List.mem_map_of_mem List.mem_cons_self)

end Head

/-- The false literal is put in second place. -/
theorem turn (h : LoopOk G p s kept (w :: rest)) :
    Frame s (s.setCell w.cref ((s.ca w.cref).turn (negate p))) ∧
      LoopOk G p (s.setCell w.cref ((s.ca w.cref).turn (negate p))) kept (w :: rest) := by
  have hf : Frame s (s.setCell w.cref ((s.ca w.cref).turn (negate p))) :=
    Frame.setCell (turn_perm _ _ h.head_watched) (turn_learnt _ _) (turn_removed _ _)
      (turn_stale _ _)
  have hwatched (cr : ℕ) (a : Literal ℕ) :
      Watched ((s.setCell w.cref ((s.ca w.cref).turn (negate p))).ca cr) a ↔
        Watched (s.ca cr) a := by
    show Watched (Function.update s.ca w.cref _ cr) a ↔ _
    rw [Function.update_apply]
    split_ifs with hcr
    · rw [hcr]
      exact turn_watched _ _ _
    · exact Iff.rfl
  refine ⟨hf, ?_⟩
  constructor
  · exact h.trail.congr rfl rfl rfl rfl rfl rfl
  · refine ReasonsOk.of_frame h.reasons hf ?_ ?_
    · intro l hl cr hreason
      obtain ⟨i, hi⟩ := List.mem_iff_getElem?.mp hl
      obtain ⟨-, hfirst, -⟩ := h.reasons i l cr hi hreason
      show Function.update s.ca w.cref _ cr = _
      rw [Function.update_apply]
      split_ifs with hcr
      · -- a reason starts with a true literal
        subst hcr
        refine turn_of_ne fun heq => h.trail.negate_notMem h.mem ?_
        rw [← heq, hfirst]
        exact hl
      · rfl
    · intro i l cr hge hi
      exact absurd (List.getElem?_eq_some_iff.mp hi).1 (not_lt.mpr hge)
  · exact hf.cellsOk h.cells
  · exact h.watch.of_frame (Frame.setWatches hf p _ _) rfl rfl fun cr _ a => hwatched cr a
  · exact h.clean
  · exact h.propagated
  · intro cr hcr hG a ha hfalse
    rw [hf.stale] at hG
    refine (h.covered cr ((hf.live_iff cr).mp hcr) hG a ((hwatched cr a).mp ha) hfalse).imp_right ?_
    exact fun hcov => hcov.of_frame hf (FalseBefore.mem (s := s) hfalse) (hf.cells cr)

theorem covered_of_true (h : LoopOk G p s kept rest) {c : Cell} {t : Literal ℕ} (ht : t ∈ c.lits)
    (htrue : t ∈ s.trail) : Covered s (negate p) c := by
  refine ⟨t, ht, htrue, ?_⟩
  show s.level t.1 ≤ s.level p.1
  rw [h.level]
  exact h.trail.level_le htrue

/-- The blocker of a watcher may change. -/
theorem watch_replace (h : LoopOk G p s kept (w :: rest)) {w' : Watcher}
    (hcref : w'.cref = w.cref)
    (hblocker : w'.blocker ∈ (s.ca w.cref).lits ∨ RootFalse s w'.blocker) :
    WatchOk (s.setWatches p (kept ++ w' :: rest)) := by
  have hlist (q : Literal ℕ) : ((s.setWatches p (kept ++ w' :: rest)).watches q).map
      Watcher.cref = ((s.setWatches p (kept ++ w :: rest)).watches q).map Watcher.cref := by
    rw [setWatches_apply, setWatches_apply]
    split_ifs
    · simp [hcref]
    · rfl
  have hmem {q : Literal ℕ} {v : Watcher}
      (hv : v ∈ (s.setWatches p (kept ++ w' :: rest)).watches q) :
      (q = p ∧ v = w') ∨ v ∈ (s.setWatches p (kept ++ w :: rest)).watches q := by
    rw [setWatches_apply] at hv ⊢
    split_ifs at hv ⊢ with hq
    · simp only [List.mem_append, List.mem_cons] at hv ⊢
      tauto
    · exact Or.inr hv
  constructor
  · intro cr hcr a ha
    obtain ⟨v, hv, hvcr⟩ := h.watch.attached cr hcr a ha
    have hin : cr ∈ ((s.setWatches p (kept ++ w :: rest)).watches (negate a)).map
        Watcher.cref := List.mem_map.mpr ⟨v, hv, hvcr⟩
    rw [← hlist] at hin
    exact List.mem_map.mp hin
  · intro q v hv
    rcases hmem hv with ⟨-, rfl⟩ | hold
    · rw [hcref]
      exact h.head_live.1
    · exact h.watch.known q v hold
  · intro q v hv hlive
    rcases hmem hv with ⟨rfl, rfl⟩ | hold
    · rw [hcref]
      exact ⟨h.head_watched, hblocker⟩
    · exact h.watch.watching q v hold hlive
  · intro q v hv hremoved
    rcases hmem hv with ⟨rfl, rfl⟩ | hold
    · rw [hcref] at hremoved
      exact absurd (h.head_live.2.symm.trans hremoved) (by simp)
    · exact h.watch.stale q v hold hremoved
  · intro q
    rw [hlist]
    exact h.watch.once q

/-- The watcher of a clause with a true literal stays. -/
theorem keep (h : LoopOk G p s kept (w :: rest)) {w' : Watcher} (hcref : w'.cref = w.cref)
    (hblocker : w'.blocker ∈ (s.ca w.cref).lits ∨ RootFalse s w'.blocker)
    (htrue : ∃ t ∈ (s.ca w.cref).lits, t ∈ s.trail) : LoopOk G p s (kept ++ [w']) rest := by
  refine { h with watch := ?_, covered := ?_ }
  · rw [List.append_assoc, List.singleton_append]
    exact h.watch_replace hcref hblocker
  · intro cr hcr hG a ha hfalse
    rcases h.covered cr hcr hG a ha hfalse with ⟨rfl, hmem⟩ | hcov
    · rcases List.mem_cons.mp hmem with rfl | hrest
      · obtain ⟨t, ht, htrail⟩ := htrue
        exact Or.inr (h.covered_of_true ht htrail)
      · exact Or.inl ⟨rfl, hrest⟩
    · exact Or.inr hcov

end LoopOk

theorem negate_injective {l m : Literal ℕ} (h : negate l = negate m) : l = m := by
  rw [← negate_negate l, h, negate_negate]

/-- The clause of `w` gets the watch `q`, which is not false, in place of `p`. -/
structure Move (G : Bool → Prop) (p : Literal ℕ) (s : Core) (kept : List Watcher) (w : Watcher)
    (rest : List Watcher) (q : Literal ℕ) (others : Clause ℕ) (t : Core) : Prop where
  loop : LoopOk G p s kept (w :: rest)
  second : (s.ca w.cref).second = negate p
  found : newWatch s.assigns (negate p) (s.ca w.cref).rest = some (q, others)
  moved : t = { s.setCell w.cref { s.ca w.cref with second := q, rest := others } with
    watches := pushWatch s.watches (negate q) ⟨w.cref, (s.ca w.cref).first⟩ }

namespace Move

variable {G : Bool → Prop} {p : Literal ℕ} {s t : Core} {kept rest : List Watcher} {w : Watcher}
  {q : Literal ℕ} {others : Clause ℕ} (h : Move G p s kept w rest q others t)
include h

theorem perm : ((s.ca w.cref).second :: (s.ca w.cref).rest).Perm (q :: others) := by
  rw [h.second]
  exact (newWatch_some h.found).2.2.symm

theorem notMem : negate q ∉ s.trail := fun hmem =>
  (newWatch_some h.found).1 ((h.loop.trail.isFalse_iff q).mpr hmem)

/-- The variables of a clause are distinct. -/
theorem ne : q ≠ (s.ca w.cref).first ∧ q ≠ negate p ∧ (s.ca w.cref).first ≠ negate p := by
  have hqmem := (newWatch_some h.found).2.1
  have hnodup := h.loop.cells.distinct _ h.loop.head_live
  rw [Cell.lits, List.map_cons, List.map_cons, List.nodup_cons, List.nodup_cons] at hnodup
  refine ⟨?_, ?_, fun heq => h.loop.first_ne_second (by rw [h.second, heq])⟩
  · rintro rfl
    exact hnodup.1 (List.mem_cons_of_mem _ (List.mem_map_of_mem hqmem))
  · rintro rfl
    exact hnodup.2.1 (h.second ▸ List.mem_map_of_mem hqmem)

theorem frame : Frame s t := by
  have hlits : (Cell.lits { s.ca w.cref with second := q, rest := others }).Perm
      (s.ca w.cref).lits := h.perm.symm.cons _
  rw [h.moved]
  exact { Frame.setCell (s := s) hlits rfl rfl rfl with }

theorem cell (cr : ℕ) : t.ca cr =
    if cr = w.cref then { s.ca w.cref with second := q, rest := others } else s.ca cr := by
  rw [h.moved]
  exact Function.update_apply _ _ _ _

theorem cell_self : t.ca w.cref = { s.ca w.cref with second := q, rest := others } := by
  rw [h.cell, if_pos rfl]

theorem cell_of_ne {cr : ℕ} (hcr : cr ≠ w.cref) : t.ca cr = s.ca cr := by rw [h.cell, if_neg hcr]

/-! ### The lists of watchers -/

theorem mem_watches_of_ne {r : Literal ℕ} (hr : r ≠ p) (v : Watcher) :
    v ∈ (t.setWatches p (kept ++ rest)).watches r ↔
      v ∈ s.watches r ∨ (r = negate q ∧ v = ⟨w.cref, (s.ca w.cref).first⟩) := by
  rw [setWatches_apply, if_neg hr, h.moved]
  exact mem_pushWatch _ _ _ _ _

/-- No other watcher of `p` is one of this clause. -/
theorem once : w.cref ∉ (kept ++ rest).map Watcher.cref ∧
    ((kept ++ rest).map Watcher.cref).Nodup := by
  have honce := h.loop.watch.once p
  rw [setWatches_apply, if_pos rfl, List.map_append, List.map_cons, List.nodup_middle,
    List.nodup_cons, ← List.map_append] at honce
  exact honce

/-- A watcher is the new one or was there before. -/
theorem mem_cases {r : Literal ℕ} {v : Watcher}
    (hv : v ∈ (t.setWatches p (kept ++ rest)).watches r) :
    (r = negate q ∧ v = ⟨w.cref, (s.ca w.cref).first⟩) ∨
      (v ∈ (s.setWatches p (kept ++ w :: rest)).watches r ∧ (r = p → v.cref ≠ w.cref)) := by
  by_cases hr : r = p
  · subst hr
    rw [setWatches_apply, if_pos rfl] at hv
    refine Or.inr ⟨?_, fun _ heq => h.once.1 (List.mem_map.mpr ⟨v, hv, heq⟩)⟩
    rw [setWatches_apply, if_pos rfl]
    simp only [List.mem_append, List.mem_cons] at hv ⊢
    exact hv.imp_right Or.inr
  · rcases (h.mem_watches_of_ne hr v).mp hv with hv | hv
    · rw [setWatches_apply, if_neg hr]
      exact Or.inr ⟨hv, fun heq => absurd heq hr⟩
    · exact Or.inl hv

theorem mem_of_mem {r : Literal ℕ} {v : Watcher}
    (hv : v ∈ (s.setWatches p (kept ++ w :: rest)).watches r) (hne : v.cref ≠ w.cref ∨ r ≠ p) :
    v ∈ (t.setWatches p (kept ++ rest)).watches r := by
  rw [setWatches_apply] at hv
  by_cases hr : r = p
  · subst hr
    rw [if_pos rfl] at hv
    rw [setWatches_apply, if_pos rfl]
    have hvw : v ≠ w := fun heq => hne.elim (· (heq ▸ rfl)) (· rfl)
    simp only [List.mem_append, List.mem_cons] at hv ⊢
    exact hv.imp_right (Or.resolve_left · hvw)
  · rw [if_neg hr] at hv
    exact (h.mem_watches_of_ne hr v).mpr (Or.inl hv)

theorem attached (cr : ℕ) (hcr : Live (t.setWatches p (kept ++ rest)) cr) (a : Literal ℕ)
    (ha : Watched (t.ca cr) a) :
    ∃ v ∈ (t.setWatches p (kept ++ rest)).watches (negate a), v.cref = cr := by
  have hcr' : Live s cr := (h.frame.live_iff cr).mp hcr
  obtain ⟨-, hqp, hfirstp⟩ := h.ne
  by_cases heq : cr = w.cref
  · subst heq
    rw [h.cell_self] at ha
    rcases ha with rfl | rfl
    · obtain ⟨v, hv, hvcr⟩ := h.loop.watch.attached _ hcr' _ (Or.inl rfl)
      refine ⟨v, h.mem_of_mem hv (Or.inr fun hp => hfirstp ?_), hvcr⟩
      rw [← hp, negate_negate]
    · refine ⟨⟨w.cref, (s.ca w.cref).first⟩, ?_, rfl⟩
      refine (h.mem_watches_of_ne (fun hp => hqp ?_) _).mpr (Or.inr ⟨rfl, rfl⟩)
      rw [← hp, negate_negate]
  · rw [h.cell_of_ne heq] at ha
    obtain ⟨v, hv, hvcr⟩ := h.loop.watch.attached cr hcr' a ha
    exact ⟨v, h.mem_of_mem hv (Or.inl (hvcr ▸ heq)), hvcr⟩

theorem watching (r : Literal ℕ) (v : Watcher)
    (hv : v ∈ (t.setWatches p (kept ++ rest)).watches r) (hlive : Live t v.cref) :
    Watched (t.ca v.cref) (negate r) ∧
      (v.blocker ∈ (t.ca v.cref).lits ∨ RootFalse t v.blocker) := by
  have hlive' : Live s v.cref := (h.frame.live_iff _).mp hlive
  rcases h.mem_cases hv with ⟨rfl, rfl⟩ | ⟨hv, hne⟩
  · rw [h.cell_self, negate_negate]
    exact ⟨Or.inr rfl, Or.inl List.mem_cons_self⟩
  · obtain ⟨hwatched, hblocker⟩ := h.loop.watch.watching r v hv hlive'
    refine ⟨?_, hblocker.imp (h.frame.cells _).mem_iff.mpr (RootFalse.of_frame h.frame)⟩
    by_cases heq : v.cref = w.cref
    · rw [heq, h.cell_self]
      have hwatched' : Watched (s.ca v.cref) (negate r) := hwatched
      rw [heq] at hwatched'
      refine Or.inl (hwatched'.resolve_right fun hr => hne ?_ heq)
      exact negate_injective (hr.trans h.second)
    · rw [h.cell_of_ne heq]
      exact hwatched

theorem nodup_watches (r : Literal ℕ) :
    (((t.setWatches p (kept ++ rest)).watches r).map Watcher.cref).Nodup := by
  by_cases hr : r = p
  · subst hr
    rw [setWatches_apply, if_pos rfl]
    exact h.once.2
  · have hrs := h.loop.watch.once r
    rw [setWatches_apply, if_neg hr] at hrs
    rw [setWatches_apply, if_neg hr, h.moved]
    show ((pushWatch s.watches (negate q) _ r).map _).Nodup
    unfold pushWatch
    rw [Function.update_apply]
    split_ifs with hrq
    · subst hrq
      rw [List.map_append, List.map_singleton]
      refine hrs.append (List.nodup_singleton _) (List.disjoint_singleton.mpr fun hin => ?_)
      obtain ⟨v, hv, hvcr⟩ := List.mem_map.mp hin
      have hv' : v ∈ (s.setWatches p (kept ++ w :: rest)).watches (negate q) := by
        rwa [setWatches_apply, if_neg hr]
      have hwatched := (h.loop.watch.watching _ v hv' (hvcr ▸ h.loop.head_live)).1
      rw [hvcr, negate_negate] at hwatched
      exact hwatched.elim h.ne.1 fun heq => h.ne.2.1 (heq.trans h.second)
    · exact hrs

theorem watchOk : WatchOk (t.setWatches p (kept ++ rest)) := by
  refine ⟨h.attached, fun r v hv => ?_, h.watching, fun r v hv hremoved => ?_, h.nodup_watches⟩
  · show v.cref < t.caSize
    rw [h.frame.caSize]
    rcases h.mem_cases hv with ⟨-, rfl⟩ | ⟨hv, -⟩
    · exact h.loop.head_live.1
    · exact h.loop.watch.known r v hv
  · have hremoved' : (t.ca v.cref).removed = true := hremoved
    rw [h.frame.removed] at hremoved'
    rcases h.mem_cases hv with ⟨-, rfl⟩ | ⟨hv, -⟩
    · exact absurd (h.loop.head_live.2.symm.trans hremoved') (by simp)
    · have hdirty := h.loop.watch.stale r v hv hremoved'
      show t.dirty r = true
      rw [h.moved]
      exact hdirty

/-! ### The clauses -/

/-- The clause is no reason: its other literals are not false. -/
theorem reasonsOk : ReasonsOk t := by
  refine ReasonsOk.of_frame h.loop.reasons h.frame ?_ ?_
  · intro l hl cr hreason
    refine h.cell_of_ne fun hcr => h.notMem ?_
    obtain ⟨i, hi⟩ := List.mem_iff_getElem?.mp hl
    obtain ⟨-, -, htail⟩ := h.loop.reasons i l cr hi hreason
    rw [hcr] at htail
    exact List.mem_of_mem_take (htail q (List.mem_cons_of_mem _ (newWatch_some h.found).2.1))
  · intro i l cr hge hi
    rw [h.moved] at hi
    exact absurd (List.getElem?_eq_some_iff.mp hi).1 (not_lt.mpr hge)

theorem covered (cr : ℕ) (hcr : Live t cr) (hG : G (t.ca cr).stale) (a : Literal ℕ)
    (ha : Watched (t.ca cr) a) (hfalse : FalseBefore t t.qhead a) :
    (a = negate p ∧ cr ∈ rest.map Watcher.cref) ∨ Covered t a (t.ca cr) := by
  have hcr' : Live s cr := (h.frame.live_iff cr).mp hcr
  have hfalse' : FalseBefore s s.qhead a := by
    rw [h.moved] at hfalse
    exact hfalse
  have hcov (hcov : Covered s a (s.ca cr)) : Covered t a (t.ca cr) :=
    hcov.of_frame h.frame (FalseBefore.mem hfalse') (h.frame.cells _)
  rw [h.frame.stale] at hG
  by_cases heq : cr = w.cref
  · subst heq
    rw [h.cell_self] at ha
    rcases ha with rfl | rfl
    · refine Or.inr (hcov ?_)
      exact (h.loop.covered _ hcr' hG _ (Or.inl rfl) hfalse').resolve_left fun hbad =>
        h.ne.2.2 hbad.1
    · exact absurd (FalseBefore.mem hfalse') h.notMem
  · rw [h.cell_of_ne heq] at ha
    refine (h.loop.covered cr hcr' hG a ha hfalse').imp ?_ hcov
    exact fun ⟨hap, hmem⟩ => ⟨hap, (List.mem_cons.mp hmem).resolve_left heq⟩

theorem loopOk : LoopOk G p t kept rest := by
  refine ⟨?_, h.reasonsOk, h.frame.cellsOk h.loop.cells, h.watchOk, ?_, ?_, h.covered⟩
  · rw [h.moved]
    exact h.loop.trail.congr rfl rfl rfl rfl rfl rfl
  · rw [h.moved]
    exact h.loop.clean
  · rw [h.moved]
    exact h.loop.propagated

end Move

namespace LoopOk

variable {G : Bool → Prop} {p : Literal ℕ} {s : Core} {kept rest : List Watcher} {w : Watcher}

theorem mem_of_isFalse (h : LoopOk G p s kept rest) {l : Literal ℕ}
    (hl : IsFalse s.assigns l) : negate l ∈ s.trail := (h.trail.isFalse_iff l).mp hl

/-- The other literals of the clause are false: the first one is enqueued. -/
theorem enqueue (h : LoopOk G p s kept (w :: rest)) (hsecond : (s.ca w.cref).second = negate p)
    (hrest : ∀ q ∈ (s.ca w.cref).rest, IsFalse s.assigns q)
    (hfirst : s.assigns (s.ca w.cref).first.1 = none) {t : Core}
    (ht : t = s.uncheckedEnqueue (s.ca w.cref).first (some w.cref)) :
    Frame s t ∧ LoopOk G p t kept (w :: rest) := by
  have hlive := h.head_live
  have hnew := (h.trail.unassigned_iff _).mp hfirst
  have htrail : t.trail = s.trail ++ [(s.ca w.cref).first] := by
    rw [ht]
    rfl
  have hdata {v : ℕ} (hv : v ∈ s.trail.map Prod.fst) : t.vardata v = s.vardata v := by
    rw [ht]
    refine Function.update_of_ne ?_ _ _
    rintro rfl
    exact hnew hv
  have hreason : t.reason (s.ca w.cref).first.1 = some w.cref := by
    rw [ht]
    show (Function.update s.vardata _ _ _).reason = _
    rw [Function.update_self]
  have hf : Frame s t := by
    refine ⟨?_, ?_, ?_, ?_, fun l hl => hdata (List.mem_map_of_mem hl), ?_, ?_, ?_, ?_, ?_⟩
    · rw [ht]
      rfl
    · rw [ht]
      rfl
    · rw [ht]
      rfl
    · rw [htrail]
      exact List.prefix_append _ _
    · intro l hl
      rw [htrail, List.mem_append, List.mem_singleton] at hl
      refine hl.imp_right fun heq => ?_
      rw [heq, hreason]
      exact Option.some_ne_none _
    all_goals
      intro cr
      rw [ht]
      rfl
  have hca : t.ca = s.ca := by
    rw [ht]
    rfl
  refine ⟨hf, ?_⟩
  constructor
  · rw [ht]
    refine h.trail.uncheckedEnqueue hfirst ?_ fun hnone => absurd hnone (by simp)
    exact h.cells.inRange _ hlive _ List.mem_cons_self
  · refine ReasonsOk.of_frame h.reasons hf (fun l _ cr _ => by rw [hca]) ?_
    intro i l cr hge hi hcr
    rw [htrail, List.getElem?_append_right hge] at hi
    obtain ⟨hzero, hl⟩ := List.getElem?_eq_some_iff.mp hi
    rw [List.length_singleton] at hzero
    rw [List.getElem_singleton] at hl
    obtain rfl : i = s.trail.length := by omega
    subst hl
    obtain rfl : w.cref = cr := Option.some.inj (hreason.symm.trans hcr)
    rw [htrail, List.take_left, hf.live_iff, hca]
    refine ⟨hlive, rfl, List.forall_mem_cons.mpr ⟨?_, fun q hq => h.mem_of_isFalse (hrest q hq)⟩⟩
    rw [hsecond, negate_negate]
    exact h.mem
  · exact hf.cellsOk h.cells
  · refine h.watch.of_frame (Frame.setWatches hf p _ _) ?_ ?_ fun cr _ a => ?_
    · rw [ht]
      rfl
    · rw [ht]
      rfl
    · rw [ht]
      exact Iff.rfl
  · rw [ht]
    exact h.clean
  · obtain ⟨i, hq, hi, hlims⟩ := h.propagated
    refine ⟨i, ?_, getElem?_of_isPrefix hf.trail hi, ?_⟩
    · rw [ht]
      exact hq
    · rw [hf.trailLim]
      exact hlims
  · intro cr hcr hG a ha hfalse
    rw [hca] at hG ha ⊢
    have hqhead : t.qhead = s.qhead := by
      rw [ht]
      rfl
    rw [hqhead, FalseBefore.of_frame hf h.trail.qheadLe] at hfalse
    refine (h.covered cr ((hf.live_iff cr).mp hcr) hG a ha hfalse).imp_right fun hcov => ?_
    exact hcov.of_frame hf (FalseBefore.mem hfalse) (List.Perm.refl _)

end LoopOk

/-- A clause of the current level is false, and the clauses watched by entries
before that level are covered. -/
structure ConflictOk (G : Bool → Prop) (s : Core) (cr : ℕ) : Prop where
  trail : TrailOk s
  reasons : ReasonsOk s
  cells : CellsOk s
  watch : WatchOk s
  watched : ∃ k, WatchedTo G k s ∧ ∀ j ∈ s.trailLim, j ≤ k
  qhead : s.qhead = s.trail.length
  live : Live s cr
  allFalse : ∀ q ∈ (s.ca cr).lits, negate q ∈ s.trail
  current : ∃ q ∈ (s.ca cr).lits, s.level q.1 = s.decisionLevel

namespace LoopOk

variable {G : Bool → Prop} {p : Literal ℕ} {s : Core} {kept rest : List Watcher} {w : Watcher}

theorem conflict (h : LoopOk G p s kept (w :: rest))
    (hsecond : (s.ca w.cref).second = negate p)
    (hrest : ∀ q ∈ (s.ca w.cref).rest, IsFalse s.assigns q)
    (hfirst : IsFalse s.assigns (s.ca w.cref).first) {w' : Watcher} (hcref : w'.cref = w.cref)
    (hblocker : w'.blocker ∈ (s.ca w.cref).lits) :
    ConflictOk G ({ s with qhead := s.trail.length }.setWatches p (kept ++ w' :: rest))
      w'.cref := by
  obtain ⟨i, hqi, hi, hlims⟩ := h.propagated
  have hpi {j : ℕ} (hj : s.trail[j]? = some p) : j = i := h.trail.index_unique hj hi rfl
  have hle : i ≤ s.trail.length := (List.getElem?_eq_some_iff.mp hi).1.le
  constructor
  · exact (h.trail.setQhead h.trail.qheadLe le_rfl).congr rfl rfl rfl rfl rfl rfl
  · exact h.reasons
  · exact ⟨h.cells.distinct, h.cells.inRange⟩
  · exact { h.watch_replace hcref (Or.inl hblocker) with }
  · refine ⟨i, fun cr hcr hG a ha hfalse => ?_, hlims⟩
    have hbefore : FalseBefore s s.qhead a := by
      refine (List.take_prefix_take_left ?_).subset hfalse
      omega
    rcases h.covered cr hcr hG a ha hbefore with ⟨rfl, -⟩ | hcov
    · -- the entry p is not before itself
      have hpmem : p ∈ s.trail.take i := negate_negate p ▸ hfalse
      obtain ⟨j, hj⟩ := List.mem_iff_getElem?.mp hpmem
      have hji := (List.getElem?_eq_some_iff.mp hj).1
      rw [List.length_take] at hji
      rw [List.getElem?_take_of_lt (by omega)] at hj
      have := hpi hj
      omega
    · exact hcov
  · rfl
  · rw [hcref]
    exact h.head_live
  · rw [hcref]
    refine List.forall_mem_cons.mpr ⟨h.mem_of_isFalse hfirst, List.forall_mem_cons.mpr ⟨?_, ?_⟩⟩
    · show negate (s.ca w.cref).second ∈ s.trail
      rw [hsecond, negate_negate]
      exact h.mem
    · exact fun q hq => h.mem_of_isFalse (hrest q hq)
  · rw [hcref]
    refine ⟨(s.ca w.cref).second, List.mem_cons_of_mem _ List.mem_cons_self, ?_⟩
    show s.level (s.ca w.cref).second.1 = s.decisionLevel
    rw [hsecond]
    exact h.level

end LoopOk

/-! ### The loops -/

/-- Every clause of the kinds `G` is watched properly up to qhead. -/
structure EngineOk (G : Bool → Prop) (s : Core) : Prop where
  trail : TrailOk s
  reasons : ReasonsOk s
  cells : CellsOk s
  watch : WatchOk s
  watched : WatchedTo G s.qhead s

def VisitOk (G : Bool → Prop) (p : Literal ℕ) (s : Core) (kept rest : List Watcher) :
    Visit → Prop
  | .keep t w => Frame s t ∧ LoopOk G p t (kept ++ [w]) rest
  | .move t => Frame s t ∧ LoopOk G p t kept rest
  | .conflict t w => Frame s t ∧ ConflictOk G (t.setWatches p (kept ++ w :: rest)) w.cref

/-- Without a conflict `done` holds at the end. -/
def OutcomeOk (G : Bool → Prop) (s : Core) (done : Core → Prop) (r : Core × Option ℕ) : Prop :=
  Frame s r.1 ∧
    match r.2 with
    | none => EngineOk G r.1 ∧ done r.1
    | some cr => ConflictOk G r.1 cr

section Loops

variable {G : Bool → Prop} {p : Literal ℕ} {s : Core}

theorem visitTurned_ok {kept rest : List Watcher} {w : Watcher}
    (h : LoopOk G p s kept (w :: rest)) (hsecond : (s.ca w.cref).second = negate p)
    (hblocker : ¬ IsTrue s.assigns w.blocker) :
    VisitOk G p s kept rest (visitTurned s p w) := by
  have hmem : (s.ca w.cref).first ∈ (s.ca w.cref).lits := List.mem_cons_self
  unfold visitTurned
  dsimp only
  by_cases hfirst : (s.ca w.cref).first ≠ w.blocker ∧ IsTrue s.assigns (s.ca w.cref).first
  · rw [if_pos hfirst]
    refine ⟨Frame.refl s, h.keep rfl (Or.inl hmem) ⟨_, hmem, ?_⟩⟩
    exact (h.trail.isTrue_iff _).mp hfirst.2
  rw [if_neg hfirst]
  cases hnew : newWatch s.assigns (negate p) (s.ca w.cref).rest with
  | some r =>
    have hmove : Move G p s kept w rest r.1 r.2 _ := ⟨h, hsecond, hnew, rfl⟩
    exact ⟨hmove.frame, hmove.loopOk⟩
  | none =>
    have hrest := newWatch_none hnew
    dsimp only
    split_ifs with hfalse
    · exact ⟨{ Frame.refl s with }, h.conflict hsecond hrest hfalse rfl hmem⟩
    · have htrue : ¬ IsTrue s.assigns (s.ca w.cref).first := by
        intro htrue
        refine hfirst ⟨fun heq => hblocker ?_, htrue⟩
        rwa [← heq]
      obtain ⟨hf, hnext⟩ := h.enqueue hsecond hrest (eq_none_of_not htrue hfalse) rfl
      refine ⟨hf, hnext.keep rfl (Or.inl hmem) ⟨_, hmem, ?_⟩⟩
      exact List.mem_append_right _ (List.mem_singleton_self _)

theorem VisitOk.of_frame {t : Core} {kept rest : List Watcher} (hf : Frame s t) {v : Visit}
    (h : VisitOk G p t kept rest v) : VisitOk G p s kept rest v := by
  cases v with
  | keep u w => exact h.imp_left hf.trans
  | move u => exact h.imp_left hf.trans
  | conflict u w => exact h.imp_left hf.trans

theorem visit_ok {kept rest : List Watcher} {w : Watcher} (h : LoopOk G p s kept (w :: rest)) :
    VisitOk G p s kept rest (visit s p w) := by
  unfold visit
  split_ifs with hblocker
  · have htrue := (h.trail.isTrue_iff _).mp hblocker
    have hmem : w.blocker ∈ (s.ca w.cref).lits :=
      h.head_blocker.resolve_right fun hroot => h.trail.negate_notMem htrue hroot.1
    exact ⟨Frame.refl s, h.keep rfl (Or.inl hmem) ⟨_, hmem, htrue⟩⟩
  · obtain ⟨hf, hturn⟩ := h.turn
    refine VisitOk.of_frame hf (visitTurned_ok hturn ?_ hblocker)
    show (Function.update s.ca w.cref _ w.cref).second = _
    rw [Function.update_self]
    exact turn_second h.head_watched

theorem visitAll_ok {rest kept : List Watcher} (h : LoopOk G p s kept rest) :
    Frame s (visitAll p s kept rest).1 ∧
      match (visitAll p s kept rest).2.2 with
      | none => LoopOk G p (visitAll p s kept rest).1 (visitAll p s kept rest).2.1 []
      | some cr =>
        ConflictOk G ((visitAll p s kept rest).1.setWatches p (visitAll p s kept rest).2.1) cr := by
  induction rest generalizing s kept with
  | nil => exact ⟨Frame.refl s, h⟩
  | cons w rest ih =>
    have hvisit := visit_ok h
    unfold visitAll
    cases hv : visit s p w with
    | keep t w' =>
      rw [hv] at hvisit
      obtain ⟨hf, hnext⟩ := hvisit
      exact (ih hnext).imp_left hf.trans
    | move t =>
      rw [hv] at hvisit
      obtain ⟨hf, hnext⟩ := hvisit
      exact (ih hnext).imp_left hf.trans
    | conflict t w' =>
      rw [hv] at hvisit
      exact hvisit

/-! ### The list is cleaned -/

theorem lookup_eq (s : Core) (p : Literal ℕ) :
    s.lookup p = { s with
      watches := (s.lookup p).watches
      dirty := (s.lookup p).dirty } := by
  unfold Core.lookup
  split_ifs <;> rfl

theorem lookup_dirty_self (s : Core) (p : Literal ℕ) : (s.lookup p).dirty p = false := by
  unfold Core.lookup
  split_ifs with hdirty
  · exact Function.update_self _ _ _
  · exact (Bool.not_eq_true _).mp hdirty

/-- The watchers of removed clauses go. -/
theorem lookup_spec (s : Core) (p q : Literal ℕ) :
    ((s.lookup p).watches q = s.watches q ∧ (s.lookup p).dirty q = s.dirty q) ∨
      (s.lookup p).watches q = (s.watches q).filter fun w => !(s.ca w.cref).removed := by
  unfold Core.lookup
  split_ifs with hdirty
  · by_cases hq : q = p
    · subst hq
      exact Or.inr (Function.update_self _ _ _)
    · exact Or.inl ⟨Function.update_of_ne hq _ _, Function.update_of_ne hq _ _⟩
  · exact Or.inl ⟨rfl, rfl⟩

theorem Frame.lookup (s : Core) (p : Literal ℕ) : Frame s (s.lookup p) := by
  rw [lookup_eq]
  exact { Frame.refl s with }

theorem lookup_watchOk (h : WatchOk s) (p : Literal ℕ) : WatchOk (s.lookup p) := by
  have hf := Frame.lookup s p
  have hca : (s.lookup p).ca = s.ca := by rw [lookup_eq]
  have hsub {q : Literal ℕ} {w : Watcher} (hw : w ∈ (s.lookup p).watches q) :
      w ∈ s.watches q := by
    rcases lookup_spec s p q with ⟨hsame, -⟩ | hfilter
    · rwa [← hsame]
    · rw [hfilter] at hw
      exact (List.mem_filter.mp hw).1
  constructor
  · intro cr hcr a ha
    rw [hca] at ha
    obtain ⟨w, hw, rfl⟩ := h.attached cr ((hf.live_iff cr).mp hcr) a ha
    refine ⟨w, ?_, rfl⟩
    rcases lookup_spec s p (negate a) with ⟨hsame, -⟩ | hfilter
    · rwa [hsame]
    · rw [hfilter]
      refine List.mem_filter.mpr ⟨hw, ?_⟩
      rw [((hf.live_iff _).mp hcr).2]
      rfl
  · intro q w hw
    rw [hf.caSize]
    exact h.known q w (hsub hw)
  · intro q w hw hlive
    rw [hca]
    obtain ⟨hwatched, hblocker⟩ := h.watching q w (hsub hw) ((hf.live_iff _).mp hlive)
    exact ⟨hwatched, hblocker.imp_right (RootFalse.of_frame hf)⟩
  · intro q w hw hremoved
    rw [hca] at hremoved
    rcases lookup_spec s p q with ⟨hsame, hdirty⟩ | hfilter
    · rw [hdirty]
      rw [hsame] at hw
      exact h.stale q w hw hremoved
    · rw [hfilter] at hw
      have hkept := (List.mem_filter.mp hw).2
      rw [hremoved] at hkept
      exact absurd hkept (by simp)
  · intro q
    rcases lookup_spec s p q with ⟨hsame, -⟩ | hfilter
    · rw [hsame]
      exact h.once q
    · rw [hfilter]
      exact (h.once q).sublist (List.filter_sublist.map _)

/-- The literal at qhead is looked up. -/
theorem EngineOk.start (h : EngineOk G s) (hp : s.trail[s.qhead]? = some p) {t : Core}
    (ht : t = { s with qhead := s.qhead + 1 }.lookup p) :
    Frame s t ∧ LoopOk G p t [] (t.watches p) := by
  have hlt : s.qhead < s.trail.length := (List.getElem?_eq_some_iff.mp hp).1
  have hf : Frame s t := by
    rw [ht]
    exact { Frame.lookup { s with qhead := s.qhead + 1 } p with }
  have heq := lookup_eq { s with qhead := s.qhead + 1 } p
  rw [← ht] at heq
  have hnext : WatchOk { s with qhead := s.qhead + 1 } := { h.watch with }
  have hwatch : WatchOk t := by
    rw [ht]
    exact lookup_watchOk hnext p
  have hca : t.ca = s.ca := by rw [heq]
  have htrail : t.trail = s.trail := by rw [heq]
  have hqhead : t.qhead = s.qhead + 1 := by rw [heq]
  refine ⟨hf, ?_⟩
  constructor
  · refine (h.trail.setQhead (Nat.le_succ _) hlt).congr ?_ ?_ ?_ ?_ ?_ ?_ <;> rw [heq]
  · refine ReasonsOk.of_frame h.reasons hf (fun l _ cr _ => by rw [hca]) fun i l cr hge hi => ?_
    rw [htrail] at hi
    exact absurd (List.getElem?_eq_some_iff.mp hi).1 (not_lt.mpr hge)
  · exact hf.cellsOk h.cells
  · have hsame : t.setWatches p ([] ++ t.watches p) = t := by
      unfold Core.setWatches
      rw [List.nil_append, Function.update_eq_self]
    rw [hsame]
    exact hwatch
  · rw [ht]
    exact lookup_dirty_self _ p
  · refine ⟨s.qhead, hqhead, by rw [htrail, hp], ?_⟩
    rw [hf.trailLim]
    exact h.trail.limsLe
  · intro cr hcr hG a ha hfalse
    have hcr' := (hf.live_iff cr).mp hcr
    rw [hca] at hG ha ⊢
    unfold FalseBefore at hfalse
    rw [hqhead, htrail, List.take_add_one, hp, List.mem_append] at hfalse
    rcases hfalse with hbefore | hlast
    · refine Or.inr ((h.watched cr hcr' hG a ha hbefore).of_frame hf ?_ (List.Perm.refl _))
      exact FalseBefore.mem hbefore
    · have hap : negate a = p := List.mem_singleton.mp hlast
      refine Or.inl ⟨by rw [← hap, negate_negate], ?_⟩
      have hwatched : Watched (t.ca cr) a := by rwa [hca]
      obtain ⟨w, hw, hwcr⟩ := hwatch.attached cr hcr a hwatched
      rw [hap] at hw
      exact List.mem_map.mpr ⟨w, hw, hwcr⟩

/-- After the last watcher the clauses are covered up to the literal. -/
theorem LoopOk.finish {kept : List Watcher} (h : LoopOk G p s kept []) :
    EngineOk G (s.setWatches p kept) := by
  constructor
  · exact h.trail.congr rfl rfl rfl rfl rfl rfl
  · exact h.reasons
  · exact ⟨h.cells.distinct, h.cells.inRange⟩
  · have hwatch := h.watch
    rwa [List.append_nil] at hwatch
  · intro cr hcr hG a ha hfalse
    exact (h.covered cr hcr hG a ha hfalse).resolve_left fun hrest =>
      absurd hrest.2 List.not_mem_nil

theorem propagateLit_ok (h : EngineOk G s) (hp : s.trail[s.qhead]? = some p) :
    OutcomeOk G s (fun t => t.qhead = s.qhead + 1) (s.propagateLit p) := by
  obtain ⟨hf, hstart⟩ := h.start hp rfl
  obtain ⟨hf', hvisits⟩ := visitAll_ok hstart
  unfold Core.propagateLit
  dsimp only
  generalize visitAll p _ [] _ = r at hf' hvisits ⊢
  obtain ⟨t, kept, confl⟩ := r
  cases confl with
  | some cr => exact ⟨{ hf.trans hf' with }, hvisits⟩
  | none =>
    refine ⟨{ hf.trans hf' with }, hvisits.finish, ?_⟩
    obtain ⟨i, hqhead, hi, -⟩ := hvisits.propagated
    have hindex := hvisits.trail.index_unique hi (getElem?_of_isPrefix (hf.trans hf').trail hp) rfl
    rw [← hindex]
    exact hqhead

/-- The loop ends before its turns are used up. -/
theorem propagateLoop_ok {fuel : ℕ} (h : EngineOk G s) (hfuel : s.nVars < fuel + s.qhead) :
    OutcomeOk G s (fun t => t.qhead = t.trail.length) (propagateLoop fuel s none) := by
  have hle : s.qhead ≤ s.nVars := h.trail.qheadLe.trans h.trail.length_le
  induction fuel generalizing s with
  | zero => omega
  | succ fuel ih =>
    unfold propagateLoop
    cases hp : s.trail[s.qhead]? with
    | none =>
      refine ⟨Frame.refl s, h, le_antisymm h.trail.qheadLe ?_⟩
      exact List.getElem?_eq_none_iff.mp hp
    | some p =>
      have hlit := propagateLit_ok h hp
      dsimp only
      generalize s.propagateLit p = r at hlit ⊢
      obtain ⟨t, confl⟩ := r
      cases confl with
      | none =>
        obtain ⟨hf, ht, hqhead⟩ := hlit
        have hqhead : t.qhead = s.qhead + 1 := hqhead
        have hrest := ih ht (by rw [hf.nVars]; omega) (ht.trail.qheadLe.trans ht.trail.length_le)
        exact hrest.imp_left hf.trans
      | some cr =>
        -- qhead is at the end of the trail
        obtain ⟨hf, hconfl⟩ := hlit
        have hdone : t.trail[t.qhead]? = none := by
          rw [hconfl.qhead]
          exact List.getElem?_eq_none le_rfl
        have hstop : propagateLoop fuel t (some cr) = (t, some cr) := by
          cases fuel with
          | zero => rfl
          | succ fuel =>
            unfold propagateLoop
            rw [hdone]
        show OutcomeOk G s _ (propagateLoop fuel t (some cr))
        rw [hstop]
        exact ⟨hf, hconfl⟩

/-- Of a clause that is not true neither watch is false. -/
theorem EngineOk.watches_free (h : EngineOk G s) (hdone : s.qhead = s.trail.length) {cr : ℕ}
    (hcr : Live s cr) (hG : G (s.ca cr).stale) {a : Literal ℕ} (ha : Watched (s.ca cr) a)
    (hfalse : IsFalse s.assigns a) : ClauseTrue s.assigns (s.ca cr).lits := by
  have hbefore : FalseBefore s s.qhead a := by
    unfold FalseBefore
    rw [hdone, List.take_length]
    exact (h.trail.isFalse_iff a).mp hfalse
  obtain ⟨t, ht, htrue, -⟩ := h.watched cr hcr hG a ha hbefore
  exact ⟨t, ht, (h.trail.isTrue_iff t).mpr htrue⟩

end Loops

end Painless.MiniSatPropagate
