import Painless.MiniSatTrail

/-!
The watches of the MiniSat engine and the loop of propagate over the watchers of
one literal. A clause is found in the lists of its first two literals. Once one
of them has become false and has been propagated, the clause has a true literal
whose level is not higher, so that backtracking cannot leave the clause without
either.
-/
namespace Painless.MiniSatWatches

open Cnf PartialAssignment MiniSatCore MiniSatTrail
open MiniSatCore.Core
open ImportedWatches (Watcher pushWatch attach mem_pushWatch)

/-! ### Clauses -/

theorem turn_perm (c : Cell) (l : Literal ℕ) (h : l = c.first ∨ l = c.second) :
    (c.turn l).lits.Perm c.lits := by
  unfold Cell.turn
  split_ifs with hfirst
  · subst hfirst
    exact List.Perm.swap _ _ _
  · exact List.Perm.refl _

theorem turn_second {c : Cell} {l : Literal ℕ} (h : l = c.first ∨ l = c.second) :
    (c.turn l).second = l := by
  unfold Cell.turn
  split_ifs with hfirst
  · rfl
  · exact (h.resolve_left fun heq => hfirst heq.symm).symm

theorem turn_of_ne {c : Cell} {l : Literal ℕ} (h : c.first ≠ l) : c.turn l = c := if_neg h

@[simp] theorem turn_learnt (c : Cell) (l : Literal ℕ) : (c.turn l).learnt = c.learnt := by
  unfold Cell.turn
  split_ifs <;> rfl

@[simp] theorem turn_removed (c : Cell) (l : Literal ℕ) : (c.turn l).removed = c.removed := by
  unfold Cell.turn
  split_ifs <;> rfl

@[simp] theorem turn_stale (c : Cell) (l : Literal ℕ) : (c.turn l).stale = c.stale := by
  unfold Cell.turn
  split_ifs <;> rfl

theorem newWatch_none {M : Partial ℕ} {l : Literal ℕ} {rest : Clause ℕ}
    (h : newWatch M l rest = none) : ∀ q ∈ rest, IsFalse M q := by
  induction rest with
  | nil => exact fun q hq => absurd hq List.not_mem_nil
  | cons q rest ih =>
    unfold newWatch at h
    split_ifs at h with hfalse
    · exact List.forall_mem_cons.mpr ⟨hfalse, ih (Option.map_eq_none_iff.mp h)⟩

theorem newWatch_some {M : Partial ℕ} {l q : Literal ℕ} {rest rest' : Clause ℕ}
    (h : newWatch M l rest = some (q, rest')) :
    ¬ IsFalse M q ∧ q ∈ rest ∧ (q :: rest').Perm (l :: rest) := by
  induction rest generalizing rest' with
  | nil => exact absurd h (by simp [newWatch])
  | cons first rest ih =>
    unfold newWatch at h
    split_ifs at h with hfalse
    · obtain ⟨⟨q', others⟩, hothers, heq⟩ := Option.map_eq_some_iff.mp h
      obtain ⟨rfl, rfl⟩ := Prod.mk.inj heq
      obtain ⟨hnot, hmem, hperm⟩ := ih hothers
      refine ⟨hnot, List.mem_cons_of_mem _ hmem, ?_⟩
      calc (q' :: first :: others).Perm (first :: q' :: others) := List.Perm.swap _ _ _
        _ |>.Perm (first :: l :: rest) := hperm.cons first
        _ |>.Perm (l :: first :: rest) := List.Perm.swap _ _ _
    · obtain ⟨rfl, rfl⟩ := Prod.mk.inj (Option.some.inj h)
      exact ⟨hfalse, List.mem_cons_self, List.Perm.swap _ _ _⟩

/-! ### The invariants -/

/-- The literal is false at level 0. -/
def RootFalse (s : Core) (l : Literal ℕ) : Prop := negate l ∈ s.trail ∧ s.level l.1 = 0

/-- The clause has a true literal that became true at no higher level than the
given one became false. -/
def Covered (s : Core) (a : Literal ℕ) (c : Cell) : Prop :=
  ∃ t ∈ c.lits, t ∈ s.trail ∧ s.level t.1 ≤ s.level a.1

def Watched (c : Cell) (a : Literal ℕ) : Prop := a = c.first ∨ a = c.second

theorem Watched.mem {c : Cell} {a : Literal ℕ} (h : Watched c a) : a ∈ c.lits := by
  rcases h with rfl | rfl
  · exact List.mem_cons_self
  · exact List.mem_cons_of_mem _ List.mem_cons_self

theorem turn_watched (c : Cell) (l a : Literal ℕ) : Watched (c.turn l) a ↔ Watched c a := by
  unfold Watched Cell.turn
  split_ifs with hfirst
  · rw [← hfirst]
    exact or_comm
  · exact Iff.rfl

structure CellsOk (s : Core) : Prop where
  distinct : ∀ cr, Live s cr → ((s.ca cr).lits.map Prod.fst).Nodup
  inRange : ∀ cr, Live s cr → ∀ l ∈ (s.ca cr).lits, l.1 < s.nVars

/-- The watchers of a clause in use are found in the lists of its first two
literals, those of a removed one only in lists that are to be cleaned. -/
structure WatchOk (s : Core) : Prop where
  attached : ∀ cr, Live s cr → ∀ a, Watched (s.ca cr) a → ∃ w ∈ s.watches (negate a), w.cref = cr
  known : ∀ p, ∀ w ∈ s.watches p, w.cref < s.caSize
  watching : ∀ p, ∀ w ∈ s.watches p, Live s w.cref → Watched (s.ca w.cref) (negate p) ∧
    (w.blocker ∈ (s.ca w.cref).lits ∨ RootFalse s w.blocker)
  stale : ∀ p, ∀ w ∈ s.watches p, (s.ca w.cref).removed = true → s.dirty p = true
  once : ∀ p, ((s.watches p).map Watcher.cref).Nodup

/-- The clauses with a watched literal that is false by an entry before `k` have a true
literal. `G` says for which clauses, where `true` stands for the stale ones. -/
def WatchedTo (G : Bool → Prop) (k : ℕ) (s : Core) : Prop :=
  ∀ cr, Live s cr → G (s.ca cr).stale → ∀ a, Watched (s.ca cr) a → FalseBefore s k a →
    Covered s a (s.ca cr)

/-- Propagation adds entries to the trail and moves literals inside of clauses. -/
structure Frame (s t : Core) : Prop where
  nVars : t.nVars = s.nVars
  caSize : t.caSize = s.caSize
  trailLim : t.trailLim = s.trailLim
  trail : s.trail <+: t.trail
  vardata : ∀ l ∈ s.trail, t.vardata l.1 = s.vardata l.1
  implied : ∀ l ∈ t.trail, l ∈ s.trail ∨ t.reason l.1 ≠ none
  cells : ∀ cr, (t.ca cr).lits.Perm (s.ca cr).lits
  learnt : ∀ cr, (t.ca cr).learnt = (s.ca cr).learnt
  removed : ∀ cr, (t.ca cr).removed = (s.ca cr).removed
  stale : ∀ cr, (t.ca cr).stale = (s.ca cr).stale

namespace Frame

theorem refl (s : Core) : Frame s s :=
  ⟨rfl, rfl, rfl, List.prefix_refl _, fun _ _ => rfl, fun _ hl => Or.inl hl,
    fun _ => List.Perm.refl _, fun _ => rfl, fun _ => rfl, fun _ => rfl⟩

theorem trans {s t u : Core} (h : Frame s t) (h' : Frame t u) : Frame s u where
  nVars := h'.nVars.trans h.nVars
  caSize := h'.caSize.trans h.caSize
  trailLim := h'.trailLim.trans h.trailLim
  trail := h.trail.trans h'.trail
  vardata l hl := (h'.vardata l (h.trail.subset hl)).trans (h.vardata l hl)
  implied l hl := by
    rcases h'.implied l hl with hmid | hnew
    · refine (h.implied l hmid).imp_right fun hreason => ?_
      unfold Core.reason at hreason ⊢
      rwa [h'.vardata l hmid]
    · exact Or.inr hnew
  cells cr := (h'.cells cr).trans (h.cells cr)
  learnt cr := (h'.learnt cr).trans (h.learnt cr)
  removed cr := (h'.removed cr).trans (h.removed cr)
  stale cr := (h'.stale cr).trans (h.stale cr)

theorem live_iff {s t : Core} (h : Frame s t) (cr : ℕ) : Live t cr ↔ Live s cr := by
  unfold Live
  rw [h.caSize, h.removed]

theorem decisionLevel {s t : Core} (h : Frame s t) : t.decisionLevel = s.decisionLevel :=
  congrArg List.length h.trailLim

theorem level {s t : Core} (h : Frame s t) {l : Literal ℕ} (hl : l ∈ s.trail) :
    t.level l.1 = s.level l.1 := congrArg VarData.level (h.vardata l hl)

theorem reason {s t : Core} (h : Frame s t) {l : Literal ℕ} (hl : l ∈ s.trail) :
    t.reason l.1 = s.reason l.1 := congrArg VarData.reason (h.vardata l hl)

end Frame

theorem Frame.cellsOk {s t : Core} (h : Frame s t) (hs : CellsOk s) : CellsOk t := by
  constructor
  · intro cr hcr
    exact ((h.cells cr).map Prod.fst).nodup_iff.mpr (hs.distinct cr ((h.live_iff cr).mp hcr))
  · intro cr hcr l hl
    rw [h.nVars]
    exact hs.inRange cr ((h.live_iff cr).mp hcr) l ((h.cells cr).mem_iff.mp hl)

/-- One cell is replaced by another with the same literals. -/
theorem Frame.setCell {s : Core} {cr : ℕ} {c : Cell} (hlits : c.lits.Perm (s.ca cr).lits)
    (hlearnt : c.learnt = (s.ca cr).learnt) (hremoved : c.removed = (s.ca cr).removed)
    (hstale : c.stale = (s.ca cr).stale) : Frame s (s.setCell cr c) := by
  have hcell (k : ℕ) : (s.setCell cr c).ca k = if k = cr then c else s.ca k :=
    Function.update_apply _ _ _ _
  have hflag (flag : Cell → Bool) (hc : flag c = flag (s.ca cr)) (k : ℕ) :
      flag ((s.setCell cr c).ca k) = flag (s.ca k) := by
    rw [hcell]
    split_ifs with hk
    · rw [hk]
      exact hc
    · rfl
  refine ⟨rfl, rfl, rfl, List.prefix_refl _, fun _ _ => rfl, fun _ hl => Or.inl hl, fun k => ?_,
    hflag Cell.learnt hlearnt, hflag Cell.removed hremoved, hflag Cell.stale hstale⟩
  rw [hcell]
  split_ifs with hk
  · rw [hk]
    exact hlits
  · exact List.Perm.refl _

/-! ### What a frame keeps -/

theorem RootFalse.of_frame {s t : Core} (hf : Frame s t) {l : Literal ℕ} (h : RootFalse s l) :
    RootFalse t l := by
  refine ⟨hf.trail.subset h.1, ?_⟩
  exact (hf.level h.1).trans h.2

theorem Covered.of_frame {s t : Core} (hf : Frame s t) {a : Literal ℕ} {c d : Cell}
    (h : Covered s a c) (ha : negate a ∈ s.trail) (hperm : d.lits.Perm c.lits) :
    Covered t a d := by
  obtain ⟨l, hl, htrue, hle⟩ := h
  refine ⟨l, hperm.mem_iff.mpr hl, hf.trail.subset htrue, ?_⟩
  have hsame := hf.level ha
  rw [hf.level htrue]
  exact hle.trans hsame.ge

/-- The watches stay in order when no clause changes the two literals that it is
watched by. -/
theorem WatchOk.of_frame {s t : Core} (h : WatchOk s) (hf : Frame s t)
    (hwatches : t.watches = s.watches) (hdirty : t.dirty = s.dirty)
    (hsame : ∀ cr, Live s cr → ∀ a, Watched (t.ca cr) a ↔ Watched (s.ca cr) a) : WatchOk t := by
  constructor
  · intro cr hcr a ha
    rw [hwatches]
    exact h.attached cr ((hf.live_iff cr).mp hcr) a ((hsame cr ((hf.live_iff cr).mp hcr) a).mp ha)
  · rw [hwatches, hf.caSize]
    exact h.known
  · intro p w hw hlive
    rw [hwatches] at hw
    have hlive' := (hf.live_iff _).mp hlive
    obtain ⟨hwatched, hblocker⟩ := h.watching p w hw hlive'
    refine ⟨(hsame _ hlive' _).mpr hwatched, ?_⟩
    exact hblocker.imp (hf.cells _).mem_iff.mpr fun hfalse => hfalse.of_frame hf
  · intro p w hw hremoved
    rw [hwatches] at hw
    rw [hf.removed] at hremoved
    rw [hdirty]
    exact h.stale p w hw hremoved
  · rw [hwatches]
    exact h.once

/-- The reasons stay in order when their clauses do not change and the new
entries have good ones. -/
theorem ReasonsOk.of_frame {s t : Core} (h : ReasonsOk s) (hf : Frame s t)
    (hsame : ∀ l ∈ s.trail, ∀ cr, s.reason l.1 = some cr → t.ca cr = s.ca cr)
    (hnew : ∀ (i : ℕ) l cr, s.trail.length ≤ i → t.trail[i]? = some l →
      t.reason l.1 = some cr →
      Live t cr ∧ (t.ca cr).first = l ∧ ∀ q ∈ (t.ca cr).tail, negate q ∈ t.trail.take i) :
    ReasonsOk t := by
  intro i l cr hi hreason
  rcases Nat.lt_or_ge i s.trail.length with hlt | hge
  · have hold : s.trail[i]? = some l := by
      rw [← hi]
      obtain ⟨later, heq⟩ := hf.trail
      rw [← heq, List.getElem?_append_left hlt]
    have hmem := List.mem_of_getElem? hold
    rw [hf.reason hmem] at hreason
    obtain ⟨hlive, hfirst, htail⟩ := h i l cr hold hreason
    rw [hsame l hmem cr hreason, hf.live_iff, ← take_of_isPrefix hf.trail hlt.le]
    exact ⟨hlive, hfirst, htail⟩
  · exact hnew i l cr hge hi hreason

theorem FalseBefore.of_frame {s t : Core} (hf : Frame s t) {k : ℕ} (hk : k ≤ s.trail.length)
    (l : Literal ℕ) : FalseBefore t k l ↔ FalseBefore s k l := by
  unfold FalseBefore
  rw [take_of_isPrefix hf.trail hk]

theorem FalseBefore.mem {s : Core} {k : ℕ} {l : Literal ℕ} (h : FalseBefore s k l) :
    negate l ∈ s.trail := List.mem_of_mem_take h

end Painless.MiniSatWatches
