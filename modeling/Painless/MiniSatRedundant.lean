import Painless.MiniSatAnalyze
import Mathlib.Algebra.BigOperators.Group.List.Basic

/-!
The search for redundant literals in conflict analysis. A literal is redundant if
the others of its reason are of level 0, or in the clause, or redundant. Along
the explicit stack the entries of the trail go down, so no variable is met twice
on it, and a variable that has been looked into is marked. Hence the loop ends,
and the variables that are marked as removable are determined by those of the
clause.
-/
namespace Painless.MiniSatRedundant

open Cnf PartialAssignment MiniSatCore MiniSatTrail MiniSatWatches MiniSatAnalyze
open MiniSatCore.Core

/-- The variable needs no other literal in the clause. -/
def Kept (s : Core) (seen : ℕ → Seen) (v : ℕ) : Prop :=
  s.level v = 0 ∨ seen v = .source ∨ seen v = .removable

structure MarksOk (s : Core) (source : ℕ → Prop) (m : Marks) : Prop where
  source : ∀ v, m.seen v = .source ↔ source v
  removable : ∀ v, m.seen v = .removable → Explained s (Kept s m.seen) v
  cleared : ∀ v, m.seen v ≠ .undef → v ∈ m.toclear.map Prod.fst

/-- The literal is looked into, of whose reason the part `left` is left; `child`
is the literal that is looked into for it. -/
structure FrameOk (s : Core) (seen : ℕ → Seen) (child : Option (Literal ℕ)) (p : Literal ℕ)
    (left : Clause ℕ) : Prop where
  mem : negate p ∈ s.trail
  fresh : seen p.1 = .undef ∨ seen p.1 = .source
  part : ∃ before, reasonTail s p.1 = before ++ left ∧
    (∀ l ∈ before, Kept s seen l.1 ∨ child = some l) ∧ ∀ l, child = some l → l ∈ before
  reason : s.reason p.1 ≠ none

def StackOk (s : Core) (seen : ℕ → Seen) : Literal ℕ → List (Literal ℕ × Clause ℕ) → Prop
  | _, [] => True
  | p, (q, left) :: stack => FrameOk s seen (some p) q left ∧ StackOk s seen q stack

/-- The literal that the search began with. -/
def bottom : Literal ℕ → List (Literal ℕ × Clause ℕ) → Literal ℕ
  | p, [] => p
  | _, (q, _) :: stack => bottom q stack

/-! ### Marks -/

section Marks

variable {s : Core} {source : ℕ → Prop} {m : Marks}

theorem mark_seen (m : Marks) (value : Seen) (l : Literal ℕ) (v : ℕ) :
    (m.mark value l).seen v = if v = l.1 ∧ m.seen v = .undef then value else m.seen v := by
  unfold Marks.mark
  by_cases hl : m.seen l.1 = .undef
  · rw [if_pos hl]
    show Function.update m.seen l.1 value v = _
    rw [Function.update_apply]
    by_cases hv : v = l.1
    · subst hv
      rw [if_pos rfl, if_pos ⟨rfl, hl⟩]
    · rw [if_neg hv, if_neg fun h => hv h.1]
  · rw [if_neg hl, if_neg]
    rintro ⟨rfl, hundef⟩
    exact hl hundef

theorem mark_cleared {value : Seen} {l : Literal ℕ}
    (h : ∀ v, m.seen v ≠ .undef → v ∈ m.toclear.map Prod.fst) (v : ℕ)
    (hv : (m.mark value l).seen v ≠ .undef) :
    v ∈ (m.mark value l).toclear.map Prod.fst := by
  rw [mark_seen] at hv
  unfold Marks.mark
  by_cases hl : m.seen l.1 = .undef
  · rw [if_pos hl, List.map_append, List.mem_append, List.map_singleton, List.mem_singleton]
    by_cases hvl : v = l.1
    · exact Or.inr hvl
    · rw [if_neg fun hand => hvl hand.1] at hv
      exact Or.inl (h v hv)
  · rw [if_neg hl]
    refine h v fun hundef => ?_
    by_cases hvl : v = l.1
    · subst hvl
      exact hl hundef
    · rw [if_neg fun hand => hvl hand.1] at hv
      exact hv hundef

theorem Kept.mark {v : ℕ} (h : Kept s m.seen v) (value : Seen) (l : Literal ℕ) :
    Kept s (m.mark value l).seen v := by
  unfold Kept
  rw [mark_seen]
  rcases h with hzero | hsource | hremovable
  · exact Or.inl hzero
  · rw [hsource, if_neg fun hand => Seen.noConfusion hand.2]
    exact Or.inr (Or.inl rfl)
  · rw [hremovable, if_neg fun hand => Seen.noConfusion hand.2]
    exact Or.inr (Or.inr rfl)

theorem MarksOk.mark (h : MarksOk s source m) {value : Seen} {l : Literal ℕ}
    (hsource : value ≠ .source)
    (hvalue : value = .removable → Explained s (Kept s m.seen) l.1) :
    MarksOk s source (m.mark value l) := by
  constructor
  · intro v
    rw [mark_seen, ← h.source]
    split_ifs with hv
    · rw [hv.2]
      exact iff_of_false hsource Seen.noConfusion
    · exact Iff.rfl
  · intro v hv
    rw [mark_seen] at hv
    have hkept (w : ℕ) (hw : Kept s m.seen w) : Kept s (m.mark value l).seen w := hw.mark value l
    split_ifs at hv with hvl
    · rw [hvl.1]
      exact (hvalue hv).mono hkept
    · exact (h.removable v hv).mono hkept
  · exact mark_cleared h.cleared

theorem Kept.failed {v : ℕ} (h : Kept s m.seen v) (ls : List (Literal ℕ)) :
    Kept s (ls.foldl (Marks.mark · .failed) m).seen v := by
  induction ls generalizing m with
  | nil => exact h
  | cons l rest ih => exact ih (h.mark .failed l)

/-- The search has failed: all that has been looked into is marked. -/
theorem MarksOk.failed (h : MarksOk s source m) (ls : List (Literal ℕ)) :
    MarksOk s source (ls.foldl (Marks.mark · .failed) m) := by
  induction ls generalizing m with
  | nil => exact h
  | cons l rest ih =>
    exact ih (h.mark Seen.noConfusion fun heq => Seen.noConfusion heq)

end Marks

/-! ### The stack -/

section Stack

variable {s : Core} {seen : ℕ → Seen} {p : Literal ℕ} {left : Clause ℕ}
variable {stack : List (Literal ℕ × Clause ℕ)}

/-- The first literal became false before the second one. -/
def Earlier (s : Core) (l p : Literal ℕ) : Prop :=
  ∃ i j : ℕ, s.trail[i]? = some (negate l) ∧ s.trail[j]? = some (negate p) ∧ i < j

theorem Earlier.trans (htrail : TrailOk s) {l p q : Literal ℕ} (h : Earlier s l p)
    (h' : Earlier s p q) : Earlier s l q := by
  obtain ⟨i, j, hi, hj, hij⟩ := h
  obtain ⟨j', k, hj', hk, hjk⟩ := h'
  have := htrail.index_unique hj hj' rfl
  exact ⟨i, k, hi, hk, by omega⟩

theorem Earlier.ne (htrail : TrailOk s) {l p : Literal ℕ} (h : Earlier s l p) : l.1 ≠ p.1 := by
  intro heq
  obtain ⟨i, j, hi, hj, hij⟩ := h
  have := htrail.index_unique hi hj heq
  omega

theorem earlier_of_reason (hreasons : ReasonsOk s) (hp : negate p ∈ s.trail) {l : Literal ℕ}
    (hl : l ∈ reasonTail s p.1) : Earlier s l p := by
  obtain ⟨j, hj⟩ := List.mem_iff_getElem?.mp hp
  unfold reasonTail at hl
  cases hcr : s.reason p.1 with
  | none =>
    rw [hcr] at hl
    exact absurd hl List.not_mem_nil
  | some cr =>
    rw [hcr] at hl
    obtain ⟨-, -, htail⟩ := hreasons j (negate p) cr hj hcr
    obtain ⟨i, hi⟩ := List.mem_iff_getElem?.mp (htail l hl)
    have hij := (List.getElem?_eq_some_iff.mp hi).1
    rw [List.length_take] at hij
    rw [List.getElem?_take_of_lt (by omega)] at hi
    exact ⟨i, j, hi, hj, by omega⟩

theorem explained_of_reasonTail {C : ℕ → Prop} {v : ℕ} (hreason : s.reason v ≠ none)
    (h : ∀ q ∈ reasonTail s v, C q.1) : Explained s C v := by
  obtain ⟨cr, hcr⟩ := Option.ne_none_iff_exists'.mp hreason
  unfold reasonTail at h
  rw [hcr] at h
  exact ⟨cr, hcr, h⟩

theorem StackOk.earlier (htrail : TrailOk s) (hreasons : ReasonsOk s)
    (h : StackOk s seen p stack) : ∀ q ∈ stack.map Prod.fst, Earlier s p q := by
  induction stack generalizing p with
  | nil => exact fun q hq => absurd hq List.not_mem_nil
  | cons frame stack ih =>
    obtain ⟨hframe, hstack⟩ := h
    obtain ⟨before, hpart, -, hchild⟩ := hframe.part
    have hfirst : Earlier s p frame.1 := by
      refine earlier_of_reason hreasons hframe.mem ?_
      rw [hpart]
      exact List.mem_append_left _ (hchild p rfl)
    exact List.forall_mem_cons.mpr ⟨hfirst, fun q hq => hfirst.trans htrail (ih hstack q hq)⟩

/-- One more literal of the reason needs no other one in the clause. -/
theorem FrameOk.next {l : Literal ℕ} {child : Option (Literal ℕ)}
    (h : FrameOk s seen none p (l :: left)) (hl : Kept s seen l.1 ∨ child = some l)
    (hchild : ∀ q, child = some q → q = l) : FrameOk s seen child p left := by
  obtain ⟨before, hpart, hbefore, -⟩ := h.part
  refine { h with part := ⟨before ++ [l], by rw [hpart, List.append_cons], ?_, ?_⟩ }
  · intro q hq
    rcases List.mem_append.mp hq with hq | hq
    · exact Or.inl ((hbefore q hq).resolve_right (Option.some_ne_none q).symm)
    · rw [List.mem_singleton.mp hq]
      exact hl
  · intro q hq
    rw [hchild q hq]
    exact List.mem_append_right _ (List.mem_singleton_self l)

/-- A new literal is looked into. -/
theorem FrameOk.start (hp : negate p ∈ s.trail) (hreason : s.reason p.1 ≠ none)
    (hfresh : seen p.1 = .undef ∨ seen p.1 = .source) :
    FrameOk s seen none p (reasonTail s p.1) :=
  ⟨hp, hfresh, ⟨[], rfl, fun _ hl => absurd hl List.not_mem_nil,
    fun l hl => absurd hl.symm (Option.some_ne_none l)⟩, hreason⟩

theorem FrameOk.explained (h : FrameOk s seen none p []) : Explained s (Kept s seen) p.1 := by
  obtain ⟨before, hpart, hbefore, -⟩ := h.part
  refine explained_of_reasonTail h.reason fun q hq => ?_
  rw [hpart, List.append_nil] at hq
  exact (hbefore q hq).resolve_right (Option.some_ne_none q).symm

variable {m : Marks}

/-- The literal on top is marked as removable. -/
theorem StackOk.mark (htrail : TrailOk s) (hreasons : ReasonsOk s)
    (h : StackOk s m.seen p stack) {l : Literal ℕ} (hl : l = p ∨ Earlier s l p)  :
    StackOk s (m.mark .removable l).seen p stack := by
  induction stack generalizing p with
  | nil => trivial
  | cons frame stack ih =>
    have hearlier := h.earlier htrail hreasons frame.1 List.mem_cons_self
    obtain ⟨hframe, hstack⟩ := h
    have hlq : Earlier s l frame.1 := by
      rcases hl with rfl | hl
      · exact hearlier
      · exact hl.trans htrail hearlier
    refine ⟨{ hframe with fresh := ?_, part := ?_ }, ih hstack (Or.inr hlq)⟩
    · rw [mark_seen, if_neg fun hand => hlq.ne htrail hand.1.symm]
      exact hframe.fresh
    · obtain ⟨before, hpart, hbefore, hchild⟩ := hframe.part
      exact ⟨before, hpart, fun q hq => (hbefore q hq).imp_left (Kept.mark · _ l), hchild⟩

/-- The search goes on with the literal below. -/
theorem StackOk.pop {q : Literal ℕ} {below : Clause ℕ} (htrail : TrailOk s)
    (hreasons : ReasonsOk s) (h : StackOk s m.seen p ((q, below) :: stack))
    (hp : m.seen p.1 = .undef ∨ m.seen p.1 = .source) :
    FrameOk s (m.mark .removable p).seen none q below ∧
      StackOk s (m.mark .removable p).seen q stack := by
  have hkept : Kept s (m.mark .removable p).seen p.1 := by
    unfold Kept
    rw [mark_seen]
    rcases hp with hundef | hsource
    · rw [if_pos ⟨rfl, hundef⟩]
      exact Or.inr (Or.inr rfl)
    · rw [if_neg fun hand => Seen.noConfusion (hsource.symm.trans hand.2)]
      exact Or.inr (Or.inl hsource)
  obtain ⟨hframe, hstack⟩ := h.mark htrail hreasons (Or.inl rfl)
  obtain ⟨before, hpart, hbefore, -⟩ := hframe.part
  refine ⟨{ hframe with part := ⟨before, hpart, fun l hl => Or.inl ?_, ?_⟩ }, hstack⟩
  · refine (hbefore l hl).elim id fun heq => ?_
    rw [← Option.some.inj heq]
    exact hkept
  · exact fun l hl => absurd hl.symm (Option.some_ne_none l)

end Stack

/-! ### The loop -/

section Loop

variable {s : Core} {source : ℕ → Prop}

/-- The variables that may still be looked into. -/
def Open (s : Core) (r : Search) (F : List ℕ) : Prop :=
  ∀ l ∈ s.trail, r.seen l.1 = .undef → l.1 ≠ r.p.1 → (∀ q ∈ r.stack.map Prod.fst, l.1 ≠ q.1) →
    l.1 ∈ F

/-- What the loop has to go through: the literals that are left on the stack, and
the reasons of the variables in `F`. -/
def work (s : Core) (r : Search) (F : List ℕ) : ℕ :=
  r.left.length + 1 + (r.stack.map fun frame => frame.2.length + 1).sum +
    (F.map fun v => (reasonTail s v).length + 1).sum

/-- What holds at each turn of the loop. -/
structure SearchOk (s : Core) (source : ℕ → Prop) (r : Search) (F : List ℕ) : Prop where
  marks : MarksOk s source r.toMarks
  top : FrameOk s r.seen none r.p r.left
  stack : StackOk s r.seen r.p r.stack
  unvisited : Open s r F

section Push

variable {m : Marks} {p l : Literal ℕ} {left : Clause ℕ}
variable {stack : List (Literal ℕ × Clause ℕ)} {F : List ℕ}

theorem SearchOk.head_mem (h : SearchOk s source ⟨m, p, l :: left, stack⟩ F) :
    l ∈ reasonTail s p.1 := by
  obtain ⟨before, hpart, -, -⟩ := h.top.part
  rw [hpart]
  exact List.mem_append_right _ List.mem_cons_self

/-- No variable on the stack is met again. -/
theorem SearchOk.head_mem_open (h : SearchOk s source ⟨m, p, l :: left, stack⟩ F)
    (htrail : TrailOk s) (hreasons : ReasonsOk s) (hundef : m.seen l.1 = .undef) : l.1 ∈ F := by
  have hearlier : Earlier s l p := earlier_of_reason hreasons h.top.mem h.head_mem
  obtain ⟨i, -, hi, -⟩ := id hearlier
  refine h.unvisited (negate l) (List.mem_of_getElem? hi) hundef (hearlier.ne htrail) fun q hq => ?_
  exact (hearlier.trans htrail (h.stack.earlier htrail hreasons q hq)).ne htrail

theorem SearchOk.push (h : SearchOk s source ⟨m, p, l :: left, stack⟩ F)
    (hreasons : ReasonsOk s) (hundef : m.seen l.1 = .undef)
    (hreason : s.reason l.1 ≠ none) :
    SearchOk s source ⟨m, l, reasonTail s l.1, (p, left) :: stack⟩ (F.erase l.1) := by
  obtain ⟨i, -, hi, -⟩ := earlier_of_reason hreasons h.top.mem h.head_mem
  have hbelow : FrameOk s m.seen (some l) p left :=
    h.top.next (Or.inr rfl) fun q hq => (Option.some.inj hq).symm
  refine ⟨h.marks, FrameOk.start (List.mem_of_getElem? hi) hreason (Or.inl hundef),
    ⟨hbelow, h.stack⟩, ?_⟩
  intro k hk hseen hne hstack
  obtain ⟨hp, hrest⟩ := List.forall_mem_cons.mp hstack
  exact (List.mem_erase_of_ne hne).mpr (h.unvisited k hk hseen hp hrest)

theorem work_push (hl : l.1 ∈ F) :
    work s ⟨m, l, reasonTail s l.1, (p, left) :: stack⟩ (F.erase l.1) <
      work s ⟨m, p, l :: left, stack⟩ F := by
  have hsum := List.sum_map_erase (fun v => (reasonTail s v).length + 1) hl
  simp only [work, List.length_cons, List.map_cons, List.sum_cons]
  omega

end Push

theorem SearchOk.pop {m : Marks} {p q : Literal ℕ} {below : Clause ℕ}
    {stack : List (Literal ℕ × Clause ℕ)} {F : List ℕ}
    (h : SearchOk s source ⟨m, p, [], (q, below) :: stack⟩ F) (htrail : TrailOk s)
    (hreasons : ReasonsOk s) : SearchOk s source ⟨m.mark .removable p, q, below, stack⟩ F := by
  obtain ⟨hframe, hrest⟩ := h.stack.pop htrail hreasons h.top.fresh
  refine ⟨h.marks.mark Seen.noConfusion fun _ => h.top.explained, hframe, hrest, ?_⟩
  intro k hk hseen hne hstack
  rw [mark_seen] at hseen
  split_ifs at hseen with hmarked
  refine h.unvisited k hk hseen (fun hkp => hmarked ⟨hkp, hseen⟩) ?_
  exact List.forall_mem_cons.mpr ⟨hne, hstack⟩

theorem litRedundantLoop_ok (htrail : TrailOk s) (hreasons : ReasonsOk s) {fuel : ℕ}
    {r : Search} {F : List ℕ} (h : SearchOk s source r F) (hfuel : work s r F ≤ fuel) :
    ∃ b m, litRedundantLoop s fuel r = some (b, m) ∧ MarksOk s source m ∧
      (∀ v, Kept s r.seen v → Kept s m.seen v) ∧
      (b = true → Explained s (Kept s m.seen) (bottom r.p r.stack).1) := by
  induction fuel generalizing r F with
  | zero =>
    unfold work at hfuel
    omega
  | succ fuel ih =>
    obtain ⟨m, p, left, stack⟩ := r
    have hfailed (ls : List (Literal ℕ)) (q : Literal ℕ) :
        ∃ b m', some (false, ls.foldl (Marks.mark · .failed) m) = some (b, m') ∧
          MarksOk s source m' ∧ (∀ v, Kept s m.seen v → Kept s m'.seen v) ∧
          (b = true → Explained s (Kept s m'.seen) q.1) :=
      ⟨false, _, rfl, h.marks.failed ls, fun _ hv => hv.failed ls, fun h => Bool.noConfusion h⟩
    unfold litRedundantLoop
    cases left with
    | cons l left =>
      dsimp only
      by_cases hkept : s.level l.1 = 0 ∨ m.seen l.1 = .source ∨ m.seen l.1 = .removable
      · -- the literal needs nothing
        rw [if_pos hkept]
        have hnext : FrameOk s m.seen none p left := h.top.next (Or.inl hkept) fun q hq =>
          absurd hq.symm (Option.some_ne_none q)
        refine ih (r := ⟨m, p, left, stack⟩) { h with top := hnext } ?_
        simp only [work, List.length_cons] at hfuel ⊢
        omega
      · rw [if_neg hkept]
        cases hreason : s.reason l.1 with
        | none => exact hfailed _ _
        | some cr =>
          dsimp only
          by_cases hfail : m.seen l.1 = .failed
          · rw [if_pos hfail]
            exact hfailed _ _
          · rw [if_neg hfail]
            have hundef : m.seen l.1 = .undef := by
              cases hvalue : m.seen l.1 with
              | undef => rfl
              | source => exact absurd (Or.inr (Or.inl hvalue)) hkept
              | removable => exact absurd (Or.inr (Or.inr hvalue)) hkept
              | failed => exact absurd hvalue hfail
            have htail : (s.ca cr).tail = reasonTail s l.1 := by
              unfold reasonTail
              rw [hreason]
            have hpush := h.push hreasons hundef (by rw [hreason]; exact Option.some_ne_none cr)
            have hless : work s ⟨m, l, reasonTail s l.1, (p, left) :: stack⟩ (F.erase l.1) <
                work s ⟨m, p, l :: left, stack⟩ F :=
              work_push (h.head_mem_open htrail hreasons hundef)
            rw [htail]
            exact ih hpush (by omega)
    | nil =>
      dsimp only
      have hexplained := h.top.explained
      cases stack with
      | nil =>
        refine ⟨true, _, rfl, h.marks.mark Seen.noConfusion fun _ => hexplained,
          fun _ hv => hv.mark .removable p, fun _ => ?_⟩
        exact hexplained.mono fun _ hv => hv.mark .removable p
      | cons frame stack =>
        have hless : work s ⟨m.mark .removable p, frame.1, frame.2, stack⟩ F ≤ fuel := by
          simp only [work, List.map_cons, List.sum_cons, List.length_nil] at hfuel ⊢
          omega
        obtain ⟨b, m', hresult, hok, hmono, hb⟩ := ih (h.pop htrail hreasons) hless
        exact ⟨b, m', hresult, hok, fun v hv => hmono v (hv.mark .removable p), hb⟩

/-- The search ends for every literal of the clause; a literal for which it
succeeds is determined by the others. -/
theorem litRedundant_ok (htrail : TrailOk s) (hreasons : ReasonsOk s) {m : Marks}
    (hmarks : MarksOk s source m) {p : Literal ℕ} (hp : negate p ∈ s.trail)
    (hreason : s.reason p.1 ≠ none) (hsource : source p.1) :
    ∃ b m', litRedundant s m p = some (b, m') ∧ MarksOk s source m' ∧
      (∀ v, Kept s m.seen v → Kept s m'.seen v) ∧
      (b = true → Explained s (Kept s m'.seen) p.1) := by
  refine litRedundantLoop_ok htrail hreasons (F := List.range s.nVars) ⟨hmarks,
    FrameOk.start hp hreason (Or.inr ((hmarks.source p.1).mpr hsource)), trivial, ?_⟩ ?_
  · exact fun l hl _ _ _ => List.mem_range.mpr (htrail.inRange l hl)
  · exact le_rfl

end Loop

end Painless.MiniSatRedundant
