import Painless.MiniSatPropagate
import Mathlib.Algebra.Ring.Nat

/-!
Conflict analysis of the MiniSat engine. The false literals of the conflict are
replaced by those of the reasons, from the end of the trail on, until one literal
of the current level is left. A literal of a lower level is then dropped if its
reasons lead to other literals of the clause only; the search for them keeps an
explicit stack and remembers what it has found. A final conflict is traced back
to the decisions in the same way.
-/
namespace Painless.MiniSatAnalyze

open Cnf PartialAssignment MiniSatCore MiniSatTrail MiniSatWatches MiniSatPropagate
open MiniSatCore.Core

/-- The values of `seen`. -/
inductive Seen where
  | undef
  | source
  | removable
  | failed
deriving DecidableEq

/-! ### Resolution -/

structure Resolution where
  seen : ℕ → Seen
  pathC : ℕ
  /-- out_learnt without the room for the asserting literal -/
  learnt : Clause ℕ

def visitLit (s : Core) (a : Resolution) (q : Literal ℕ) : Resolution :=
  if a.seen q.1 = .undef ∧ 0 < s.level q.1 then
    let seen := Function.update a.seen q.1 .source
    if s.decisionLevel ≤ s.level q.1 then { a with seen := seen, pathC := a.pathC + 1 }
    else { a with seen := seen, learnt := a.learnt ++ [q] }
  else a

/-- `seen[var(p)] = 0; pathC--` -/
def Resolution.take (a : Resolution) (p : Literal ℕ) : Resolution :=
  { a with seen := Function.update a.seen p.1 .undef, pathC := a.pathC - 1 }

/-- The trail from its end on; no result stands for a read before its beginning
and for a literal that should have a reason. -/
def resolve (s : Core) : List (Literal ℕ) → Resolution → Option (Literal ℕ × Resolution)
  | [], _ => none
  | p :: earlier, a =>
    if a.seen p.1 = .undef then resolve s earlier a
    else if (a.take p).pathC = 0 then some (p, a.take p)
    else
      match s.reason p.1 with
      | none => none
      | some confl => resolve s earlier ((s.ca confl).tail.foldl (visitLit s) (a.take p))

/-! ### Minimization -/

/-- What litRedundant remembers: `seen` and analyze_toclear. -/
structure Marks where
  seen : ℕ → Seen
  toclear : List (Literal ℕ)

def Marks.mark (m : Marks) (value : Seen) (l : Literal ℕ) : Marks :=
  if m.seen l.1 = .undef then
    { seen := Function.update m.seen l.1 value, toclear := m.toclear ++ [l] }
  else m

/-- The literal `p` and those of its reason that are left, over the stack. -/
structure Search extends Marks where
  p : Literal ℕ
  left : Clause ℕ
  stack : List (Literal ℕ × Clause ℕ)

def litRedundantLoop (s : Core) : ℕ → Search → Option (Bool × Marks)
  | 0, _ => none
  | fuel + 1, r =>
    match r.left with
    | l :: left =>
      if s.level l.1 = 0 ∨ r.seen l.1 = .source ∨ r.seen l.1 = .removable then
        litRedundantLoop s fuel { r with left := left }
      else
        match s.reason l.1 with
        | none => some (false, (r.stack.reverse.map Prod.fst ++ [r.p]).foldl
            (Marks.mark · .failed) r.toMarks)
        | some cr =>
          if r.seen l.1 = .failed then
            some (false, (r.stack.reverse.map Prod.fst ++ [r.p]).foldl
              (Marks.mark · .failed) r.toMarks)
          else
            litRedundantLoop s fuel
              { r with p := l, left := (s.ca cr).tail, stack := (r.p, left) :: r.stack }
    | [] =>
      let m := r.toMarks.mark .removable r.p
      match r.stack with
      | [] => some (true, m)
      | (p, left) :: stack => litRedundantLoop s fuel ⟨m, p, left, stack⟩

/-- The literals of the reason after the first one. -/
def reasonTail (s : Core) (v : ℕ) : Clause ℕ :=
  match s.reason v with
  | none => []
  | some cr => (s.ca cr).tail

/-- Every variable is looked into once. -/
def redundantFuel (s : Core) (p : Literal ℕ) : ℕ :=
  (reasonTail s p.1).length + 1 +
    ((List.range s.nVars).map fun v => (reasonTail s v).length + 1).sum

def litRedundant (s : Core) (m : Marks) (p : Literal ℕ) : Option (Bool × Marks) :=
  litRedundantLoop s (redundantFuel s p) ⟨m, p, reasonTail s p.1, []⟩

/-- With ccmin_mode 2 the literals from the second on that are not redundant. -/
def minimizeDeep (s : Core) : Marks → Clause ℕ → Option (Marks × Clause ℕ)
  | m, [] => some (m, [])
  | m, q :: rest =>
    if s.reason q.1 = none then
      (minimizeDeep s m rest).map fun r => (r.1, q :: r.2)
    else
      match litRedundant s m q with
      | none => none
      | some (true, m) => minimizeDeep s m rest
      | some (false, m) => (minimizeDeep s m rest).map fun r => (r.1, q :: r.2)

/-- With ccmin_mode 1 only the reason itself is looked at. -/
def minimizeLocal (s : Core) (m : Marks) (lits : Clause ℕ) : Clause ℕ :=
  lits.filter fun q => s.reason q.1 = none ∨
    ∃ l ∈ reasonTail s q.1, m.seen l.1 = .undef ∧ 0 < s.level l.1

def minimize (s : Core) (ccminMode : ℕ) (m : Marks) (lits : Clause ℕ) :
    Option (Marks × Clause ℕ) :=
  if ccminMode = 2 then minimizeDeep s m lits
  else if ccminMode = 1 then some (m, minimizeLocal s m lits)
  else some (m, lits)

/-! ### The learnt clause -/

/-- The index of the first literal of the highest level, from the literal `i` on;
`best` is the one found so far. -/
def maxLevel (s : Core) : ℕ → Literal ℕ → ℕ → Clause ℕ → ℕ
  | max, _, _, [] => max
  | max, best, i, q :: rest =>
    if s.level best.1 < s.level q.1 then maxLevel s i q (i + 1) rest
    else maxLevel s max best (i + 1) rest

/-- The literal of the highest level is put first. -/
def swapMax (s : Core) : Clause ℕ → Clause ℕ
  | [] => []
  | q :: rest =>
    match maxLevel s 0 q 1 rest with
    | 0 => q :: rest
    | i + 1 => rest.getD i q :: rest.set i q

/-- out_btlevel, for the literals from the second on. -/
def backtrackLevel (s : Core) : Clause ℕ → ℕ
  | [] => 0
  | q :: _ => s.level q.1

structure Analysis where
  learnt : Clause ℕ
  btlevel : ℕ
  seen : ℕ → Seen

def analyze (s : Core) (seen : ℕ → Seen) (ccminMode : ℕ) (confl : ℕ) : Option Analysis :=
  match resolve s s.trail.reverse ((s.ca confl).lits.foldl (visitLit s) ⟨seen, 0, []⟩) with
  | none => none
  | some (p, a) =>
    match minimize s ccminMode ⟨a.seen, negate p :: a.learnt⟩ a.learnt with
    | none => none
    | some (m, lits) =>
      let others := swapMax s lits
      some
        { learnt := negate p :: others
          btlevel := backtrackLevel s others
          seen := m.toclear.foldl (fun seen l => Function.update seen l.1 .undef) m.seen }

/-! ### The final conflict -/

/-- IntSet::insert -/
def insertLit (conflict : Clause ℕ) (l : Literal ℕ) : Clause ℕ :=
  if l ∈ conflict then conflict else conflict ++ [l]

/-- The entries from the end of the trail on, down to those of level 0. -/
def analyzeFinalLoop (s : Core) : List (Literal ℕ) → (ℕ → Seen) → Clause ℕ →
    (ℕ → Seen) × Clause ℕ
  | [], seen, conflict => (seen, conflict)
  | l :: earlier, seen, conflict =>
    if seen l.1 = .undef then analyzeFinalLoop s earlier seen conflict
    else
      match s.reason l.1 with
      | none =>
        analyzeFinalLoop s earlier (Function.update seen l.1 .undef)
          (insertLit conflict (negate l))
      | some cr =>
        let seen := (s.ca cr).tail.foldl
          (fun seen q => if 0 < s.level q.1 then Function.update seen q.1 .source else seen) seen
        analyzeFinalLoop s earlier (Function.update seen l.1 .undef) conflict

def analyzeFinal (s : Core) (seen : ℕ → Seen) (p : Literal ℕ) : (ℕ → Seen) × Clause ℕ :=
  match s.trailLim with
  | [] => (seen, [p])
  | lim :: _ =>
    let r := analyzeFinalLoop s (s.trail.drop lim).reverse
      (Function.update seen p.1 .source) [p]
    (Function.update r.1 p.1 .undef, r.2)

/-! ### The first unique implication point -/

/-- The variable is of level 0, or it has been seen, or it has been replaced by
its reason. -/
def Reached (s : Core) (seen : ℕ → Seen) (done : ℕ → Prop) (v : ℕ) : Prop :=
  s.level v = 0 ∨ seen v ≠ .undef ∨ done v

/-- The variable has a reason whose others are in the set. -/
def Explained (s : Core) (C : ℕ → Prop) (v : ℕ) : Prop :=
  ∃ cr, s.reason v = some cr ∧ ∀ q ∈ (s.ca cr).tail, C q.1

theorem Explained.mono {s : Core} {C D : ℕ → Prop} {v : ℕ} (h : Explained s C v)
    (hsub : ∀ w, C w → D w) : Explained s D v := by
  obtain ⟨cr, hcr, htail⟩ := h
  exact ⟨cr, hcr, fun q hq => hsub _ (htail q hq)⟩

def Pending (s : Core) (seen : ℕ → Seen) (l : Literal ℕ) : Prop :=
  seen l.1 = .source ∧ s.level l.1 = s.decisionLevel

instance (s : Core) (seen : ℕ → Seen) (l : Literal ℕ) : Decidable (Pending s seen l) :=
  inferInstanceAs (Decidable (_ ∧ _))

/-- Among the first `n` entries of the trail, pathC of the current level are to be
looked at. -/
structure ResolutionOk (s : Core) (n : ℕ) (a : Resolution) : Prop where
  twoValued : ∀ v, a.seen v = .undef ∨ a.seen v = .source
  count : a.pathC = (s.trail.take n).countP fun l => Pending s a.seen l
  source : ∀ v, a.seen v = .source →
    (s.level v = s.decisionLevel ∧ v ∈ (s.trail.take n).map Prod.fst) ∨
      v ∈ a.learnt.map Prod.fst
  learnt : ∀ q ∈ a.learnt, negate q ∈ s.trail ∧ 0 < s.level q.1 ∧
    s.level q.1 < s.decisionLevel ∧ a.seen q.1 = .source
  nodup : (a.learnt.map Prod.fst).Nodup

/-- One more entry satisfies the condition. -/
theorem countP_add_count {xs : List (Literal ℕ)} {p p' : Literal ℕ → Prop} [DecidablePred p]
    [DecidablePred p'] {x : Literal ℕ} (hx : ¬ p x)
    (h : ∀ y ∈ xs, p' y ↔ p y ∨ y = x) :
    xs.countP (p' ·) = xs.countP (p ·) + xs.count x := by
  induction xs with
  | nil => rfl
  | cons y rest ih =>
    obtain ⟨hy, hrest⟩ := List.forall_mem_cons.mp h
    rw [List.countP_cons, List.countP_cons, List.count_cons, ih hrest]
    by_cases hyx : y = x
    · subst hyx
      simp [hy, hx]
      omega
    · by_cases hpy : p y <;> simp [hy, hyx, hpy]
      omega

section Resolve

variable {s : Core} {n : ℕ} {a : Resolution}

theorem visitLit_seen_ne (q : Literal ℕ) {v : ℕ} (h : a.seen v ≠ .undef) :
    (visitLit s a q).seen v ≠ .undef := by
  have hupdate : Function.update a.seen q.1 .source v ≠ .undef := by
    rw [Function.update_apply]
    split_ifs
    · exact Seen.noConfusion
    · exact h
  unfold visitLit
  split_ifs
  · exact hupdate
  · exact hupdate
  · exact h

theorem visitLit_reached (q : Literal ℕ) (done : ℕ → Prop) :
    Reached s (visitLit s a q).seen done q.1 := by
  have hupdate : Function.update a.seen q.1 .source q.1 ≠ .undef := by
    rw [Function.update_self]
    exact Seen.noConfusion
  unfold visitLit
  split_ifs with hnew
  · exact Or.inr (Or.inl hupdate)
  · exact Or.inr (Or.inl hupdate)
  · rcases Nat.eq_zero_or_pos (s.level q.1) with hzero | hpos
    · exact Or.inl hzero
    · exact Or.inr (Or.inl fun hundef => hnew ⟨hundef, hpos⟩)

theorem seen_update {v w : ℕ} :
    Function.update a.seen w .source v = .source ↔ a.seen v = .source ∨ v = w := by
  rw [Function.update_apply]
  split_ifs with hv
  · simp [hv]
  · simp [hv]

theorem pending_update {w : ℕ} {l : Literal ℕ} :
    Pending s (Function.update a.seen w .source) l ↔
      Pending s a.seen l ∨ (l.1 = w ∧ s.level l.1 = s.decisionLevel) := by
  unfold Pending
  rw [seen_update, or_and_right]

theorem visitLit_ok (htrail : TrailOk s) (h : ResolutionOk s n a) {q : Literal ℕ}
    (hq : negate q ∈ s.trail.take n) : ResolutionOk s n (visitLit s a q) := by
  have hmem : negate q ∈ s.trail := List.mem_of_mem_take hq
  have hle := htrail.level_le hmem
  have htwo (v : ℕ) : Function.update a.seen q.1 .source v = .undef ∨
      Function.update a.seen q.1 .source v = .source := by
    rw [Function.update_apply]
    split_ifs
    · exact Or.inr rfl
    · exact h.twoValued v
  unfold visitLit
  split_ifs with hnew hlevel
  · have hcur : s.level q.1 = s.decisionLevel := le_antisymm hle hlevel
    refine { h with twoValued := htwo, count := ?_, source := ?_, learnt := ?_ }
    · have hnodup : (s.trail.take n).Nodup :=
        (List.Nodup.of_map _ htrail.nodup).sublist (List.take_sublist _ _)
      have hcount : (s.trail.take n).countP
          (fun l => Pending s (Function.update a.seen q.1 .source) l) =
            (s.trail.take n).countP (fun l => Pending s a.seen l) +
              (s.trail.take n).count (negate q) := by
        refine countP_add_count (fun hpending => ?_) fun l hl => ?_
        · exact absurd (hnew.1.symm.trans hpending.1) Seen.noConfusion
        · have hvar : l.1 = q.1 ↔ l = negate q := by
            refine ⟨fun heq => ?_, fun heq => heq ▸ rfl⟩
            exact List.inj_on_of_nodup_map htrail.nodup (List.mem_of_mem_take hl) hmem heq
          rw [pending_update, hvar, and_iff_left_of_imp (a := l = negate q)]
          rintro rfl
          exact hcur
      rw [List.count_eq_one_of_mem hnodup hq] at hcount
      exact (congrArg (· + 1) h.count).trans hcount.symm
    · intro v hv
      rcases seen_update.mp hv with hold | rfl
      · exact h.source v hold
      · exact Or.inl ⟨hcur, List.mem_map.mpr ⟨_, hq, rfl⟩⟩
    · intro r hr
      obtain ⟨hr, hpos, hlt, hsource⟩ := h.learnt r hr
      exact ⟨hr, hpos, hlt, seen_update.mpr (Or.inl hsource)⟩
  · have hfresh : q.1 ∉ a.learnt.map Prod.fst := by
      intro hin
      obtain ⟨r, hr, hvar⟩ := List.mem_map.mp hin
      obtain ⟨-, -, -, hsource⟩ := h.learnt r hr
      rw [hvar] at hsource
      exact absurd (hnew.1.symm.trans hsource) Seen.noConfusion
    refine { h with twoValued := htwo, count := ?_, source := ?_, learnt := ?_, nodup := ?_ }
    · rw [h.count]
      refine List.countP_congr fun l _ => ?_
      rw [decide_eq_true_eq, decide_eq_true_eq, pending_update]
      refine (or_iff_left fun hl => hlevel ?_).symm
      rw [← hl.1]
      exact hl.2.ge
    · intro v hv
      rw [List.map_append, List.mem_append, List.map_singleton, List.mem_singleton]
      rcases seen_update.mp hv with hold | rfl
      · exact (h.source v hold).imp_right Or.inl
      · exact Or.inr (Or.inr rfl)
    · intro r hr
      rcases List.mem_append.mp hr with hr | hr
      · obtain ⟨hr, hpos, hlt, hsource⟩ := h.learnt r hr
        exact ⟨hr, hpos, hlt, seen_update.mpr (Or.inl hsource)⟩
      · rw [List.mem_singleton.mp hr]
        exact ⟨hmem, hnew.2, not_le.mp hlevel, seen_update.mpr (Or.inr rfl)⟩
    · rw [List.map_append, List.map_singleton]
      exact h.nodup.append (List.nodup_singleton _) (List.disjoint_singleton.mpr hfresh)
  · exact h

/-- All literals of a clause are looked at. -/
theorem foldl_visitLit_ok (htrail : TrailOk s) {qs : Clause ℕ} (h : ResolutionOk s n a)
    (hqs : ∀ q ∈ qs, negate q ∈ s.trail.take n) :
    ResolutionOk s n (qs.foldl (visitLit s) a) ∧
      (∀ v, a.seen v ≠ .undef → (qs.foldl (visitLit s) a).seen v ≠ .undef) ∧
      ∀ q ∈ qs, ∀ done, Reached s (qs.foldl (visitLit s) a).seen done q.1 := by
  induction qs generalizing a with
  | nil => exact ⟨h, fun _ hv => hv, fun q hq => absurd hq List.not_mem_nil⟩
  | cons q rest ih =>
    obtain ⟨hq, hrest⟩ := List.forall_mem_cons.mp hqs
    obtain ⟨hok, hmono, hreached⟩ := ih (visitLit_ok htrail h hq) hrest
    refine ⟨hok, fun v hv => hmono v (visitLit_seen_ne q hv), ?_⟩
    refine List.forall_mem_cons.mpr ⟨fun done => ?_, hreached⟩
    exact (visitLit_reached q done).imp_right (Or.imp_left (hmono q.1))

/-- The variables that have been replaced by their reasons. -/
def Resolved (s : Core) (a : Resolution) (done : ℕ → Prop) : Prop :=
  ∀ v, done v → Explained s (Reached s a.seen done) v

theorem ResolutionOk.exists_pending (h : ResolutionOk s n a) (hpos : 0 < a.pathC) :
    ∃ l ∈ s.trail.take n, Pending s a.seen l := by
  rw [h.count, List.countP_pos_iff] at hpos
  obtain ⟨l, hl, hpending⟩ := hpos
  exact ⟨l, hl, of_decide_eq_true hpending⟩

/-- An entry that has not been seen is passed over. -/
theorem ResolutionOk.skip (h : ResolutionOk s (n + 1) a) {p : Literal ℕ}
    (hp : s.trail[n]? = some p) (hundef : a.seen p.1 = .undef) : ResolutionOk s n a := by
  have htake : s.trail.take (n + 1) = s.trail.take n ++ [p] := by
    rw [List.take_add_one, hp]
    rfl
  have hnot : ¬ Pending s a.seen p := fun hpending =>
    absurd (hundef.symm.trans hpending.1) Seen.noConfusion
  refine { h with count := ?_, source := ?_ }
  · rw [h.count, htake, List.countP_append, List.countP_singleton, if_neg (by simpa using hnot),
      Nat.add_zero]
  · intro v hv
    refine (h.source v hv).imp_left (And.imp_right fun hmem => ?_)
    rw [htake, List.map_append, List.mem_append, List.map_singleton, List.mem_singleton] at hmem
    refine hmem.resolve_right fun heq => ?_
    rw [heq, hundef] at hv
    exact Seen.noConfusion hv

/-- The last entry that has been seen is of the current level. -/
theorem ResolutionOk.last_current (h : ResolutionOk s (n + 1) a) (htrail : TrailOk s)
    (hpos : 0 < a.pathC) {p : Literal ℕ} (hp : s.trail[n]? = some p) :
    s.level p.1 = s.decisionLevel := by
  obtain ⟨l, hl, -, hcur⟩ := h.exists_pending hpos
  obtain ⟨i, hi⟩ := List.mem_iff_getElem?.mp hl
  have hin := (List.getElem?_eq_some_iff.mp hi).1
  rw [List.length_take] at hin
  rw [List.getElem?_take_of_lt (by omega)] at hi
  refine le_antisymm (htrail.level_le (List.mem_of_getElem? hp)) ?_
  rw [← hcur]
  exact htrail.level_mono hi hp (by omega)

/-- The last entry that has been seen is taken out. -/
theorem ResolutionOk.take (h : ResolutionOk s (n + 1) a) (htrail : TrailOk s)
    {p : Literal ℕ} (hp : s.trail[n]? = some p) (hseen : a.seen p.1 = .source)
    (hcur : s.level p.1 = s.decisionLevel) :
    ResolutionOk s n (a.take p) := by
  have htake : s.trail.take (n + 1) = s.trail.take n ++ [p] := by
    rw [List.take_add_one, hp]
    rfl
  have hsource {v : ℕ} (hv : Function.update a.seen p.1 .undef v = .source) :
      a.seen v = .source ∧ v ≠ p.1 := by
    rw [Function.update_apply] at hv
    split_ifs at hv with heq
    exact ⟨hv, heq⟩
  have hother {v : ℕ} (hv : a.seen v = .source) (hne : v ≠ p.1) :
      Function.update a.seen p.1 .undef v = .source := by
    rwa [Function.update_of_ne hne]
  have hbefore {l : Literal ℕ} (hl : l ∈ s.trail.take n) : l.1 ≠ p.1 := by
    intro heq
    obtain ⟨i, hi⟩ := List.mem_iff_getElem?.mp hl
    have hin := (List.getElem?_eq_some_iff.mp hi).1
    rw [List.length_take] at hin
    rw [List.getElem?_take_of_lt (by omega)] at hi
    have := htrail.index_unique hi hp heq
    omega
  constructor
  · intro v
    show Function.update a.seen p.1 .undef v = _ ∨ Function.update a.seen p.1 .undef v = _
    rw [Function.update_apply]
    split_ifs
    · exact Or.inl rfl
    · exact h.twoValued v
  · have hpending : Pending s a.seen p := ⟨hseen, hcur⟩
    show a.pathC - 1 = _
    rw [h.count, htake, List.countP_append, List.countP_singleton,
      if_pos (decide_eq_true hpending), Nat.add_sub_cancel]
    refine List.countP_congr fun l hl => ?_
    rw [decide_eq_true_eq, decide_eq_true_eq]
    exact and_congr_left fun _ => ⟨fun hl' => hother hl' (hbefore hl), fun hl' => (hsource hl').1⟩
  · intro v hv
    obtain ⟨hv, hne⟩ := hsource hv
    refine (h.source v hv).imp_left (And.imp_right fun hmem => ?_)
    rw [htake, List.map_append, List.mem_append, List.map_singleton, List.mem_singleton] at hmem
    exact hmem.resolve_right hne
  · intro q hq
    obtain ⟨hmem, hpos, hlt, hq⟩ := h.learnt q hq
    refine ⟨hmem, hpos, hlt, hother hq fun heq => hlt.ne ?_⟩
    rw [heq, hcur]
  · exact h.nodup

/-- While another literal of the current level is to be looked at, the last one
has a reason. -/
theorem ResolutionOk.reason_ne_none (h : ResolutionOk s n a) (htrail : TrailOk s)
    (hpos : 0 < a.pathC) {p : Literal ℕ} (hp : s.trail[n]? = some p)
    (hcur : s.level p.1 = s.decisionLevel) (hlevel : 0 < s.decisionLevel) :
    s.reason p.1 ≠ none := by
  intro hnone
  have hlim := htrail.decided n p hp hnone (hcur ▸ hlevel)
  obtain ⟨l, hl, -, hlcur⟩ := h.exists_pending hpos
  obtain ⟨i, hi⟩ := List.mem_iff_getElem?.mp hl
  have hin := (List.getElem?_eq_some_iff.mp hi).1
  rw [List.length_take] at hin
  rw [List.getElem?_take_of_lt (by omega)] at hi
  -- the entry i < n is of the current level too, which begins at n
  rw [htrail.levels i l hi, Core.decisionLevel, List.countP_eq_length] at hlcur
  have := hlcur n (List.mem_of_getElem? hlim)
  simp only [decide_eq_true_eq] at this
  omega

/-- What is left when one literal of the current level remains. -/
structure ResolvedTo (s : Core) (done : ℕ → Prop) (p : Literal ℕ) (a : Resolution) : Prop where
  mem : p ∈ s.trail
  current : s.level p.1 = s.decisionLevel
  taken : done p.1
  resolved : ∀ v, done v → v ≠ p.1 → Explained s (Reached s a.seen done) v
  seen : ∀ v, a.seen v = if v ∈ a.learnt.map Prod.fst then .source else .undef
  learnt : ∀ q ∈ a.learnt, negate q ∈ s.trail ∧ 0 < s.level q.1 ∧ s.level q.1 < s.decisionLevel
  nodup : (a.learnt.map Prod.fst).Nodup

theorem ResolutionOk.resolvedTo (h : ResolutionOk s n a) (hzero : a.pathC = 0)
    {p : Literal ℕ} (hp : p ∈ s.trail) (hcur : s.level p.1 = s.decisionLevel)
    {done : ℕ → Prop}
    (hdone : ∀ v, done v → Explained s (Reached s a.seen fun w => done w ∨ w = p.1) v) :
    ResolvedTo s (fun w => done w ∨ w = p.1) p a := by
  have hsource {v : ℕ} : a.seen v = .source ↔ v ∈ a.learnt.map Prod.fst := by
    constructor
    · intro hv
      refine (h.source v hv).resolve_left ?_
      rintro ⟨hlevel, hmem⟩
      obtain ⟨l, hl, rfl⟩ := List.mem_map.mp hmem
      rw [h.count] at hzero
      exact List.countP_eq_zero.mp hzero l hl (decide_eq_true ⟨hv, hlevel⟩)
    · intro hv
      obtain ⟨q, hq, rfl⟩ := List.mem_map.mp hv
      obtain ⟨-, -, -, hseen⟩ := h.learnt q hq
      exact hseen
  refine ⟨hp, hcur, Or.inr rfl, fun v hv hne => hdone v (hv.resolve_right hne), fun v => ?_, ?_,
    h.nodup⟩
  · split_ifs with hv
    · exact hsource.mpr hv
    · exact (h.twoValued v).resolve_right fun hseen => hv (hsource.mp hseen)
  · intro q hq
    obtain ⟨hmem, hpos, hlt, -⟩ := h.learnt q hq
    exact ⟨hmem, hpos, hlt⟩

theorem ResolutionOk.foldl_pos (h : ResolutionOk s n a) (htrail : TrailOk s) {qs : Clause ℕ}
    (hqs : ∀ q ∈ qs, negate q ∈ s.trail.take n) (hpos : 0 < a.pathC) :
    0 < (qs.foldl (visitLit s) a).pathC := by
  obtain ⟨hok, hmono, -⟩ := foldl_visitLit_ok htrail h hqs
  obtain ⟨l, hl, hsource, hcur⟩ := h.exists_pending hpos
  rw [hok.count, List.countP_pos_iff]
  refine ⟨l, hl, decide_eq_true ⟨(hok.twoValued l.1).resolve_left (hmono l.1 ?_), hcur⟩⟩
  rw [hsource]
  exact Seen.noConfusion

theorem resolve_ok (htrail : TrailOk s) (hreasons : ReasonsOk s) (hlevel : 0 < s.decisionLevel)
    {done : ℕ → Prop} (h : ResolutionOk s n a) (hn : n ≤ s.trail.length)
    (hresolved : Resolved s a done) (hpos : 0 < a.pathC) :
    ∃ p b done', resolve s (s.trail.take n).reverse a = some (p, b) ∧ ResolvedTo s done' p b ∧
      ∀ v, Reached s a.seen done v → Reached s b.seen done' v := by
  induction n generalizing a done with
  | zero =>
    obtain ⟨l, hl, -⟩ := h.exists_pending hpos
    rw [List.take_zero] at hl
    exact absurd hl List.not_mem_nil
  | succ n ih =>
    have hp : s.trail[n]? = some s.trail[n] := List.getElem?_eq_getElem hn
    generalize s.trail[n] = p at hp
    have hreverse : (s.trail.take (n + 1)).reverse = p :: (s.trail.take n).reverse := by
      rw [List.take_add_one, hp, List.reverse_append]
      rfl
    rw [hreverse]
    unfold resolve
    rcases h.twoValued p.1 with hundef | hsource
    · rw [if_pos hundef]
      exact ih (h.skip hp hundef) (by omega) hresolved hpos
    have hcur := h.last_current htrail hpos hp
    have htaken := h.take htrail hp hsource hcur
    rw [if_neg (by rw [hsource]; exact Seen.noConfusion)]
    -- the variable of p is among the replaced ones from here on
    have hreached (v : ℕ) (hv : Reached s a.seen done v) :
        Reached s (a.take p).seen (fun w => done w ∨ w = p.1) v := by
      rcases hv with hzero | hseen | hdone
      · exact Or.inl hzero
      · by_cases hvp : v = p.1
        · exact Or.inr (Or.inr (Or.inr hvp))
        · refine Or.inr (Or.inl ?_)
          show Function.update a.seen p.1 .undef v ≠ .undef
          rwa [Function.update_of_ne hvp]
      · exact Or.inr (Or.inr (Or.inl hdone))
    split_ifs with hzero
    · exact ⟨p, a.take p, _, rfl, htaken.resolvedTo hzero (List.mem_of_getElem? hp) hcur
        fun v hv => (hresolved v hv).mono hreached, hreached⟩
    · have hpos' : 0 < (a.take p).pathC := Nat.pos_of_ne_zero hzero
      obtain ⟨cr, hcr⟩ := Option.ne_none_iff_exists'.mp
        (htaken.reason_ne_none htrail hpos' hp hcur hlevel)
      rw [hcr]
      obtain ⟨-, -, htail⟩ := hreasons n p cr hp hcr
      obtain ⟨hok, hmono, hvisited⟩ := foldl_visitLit_ok htrail htaken htail
      have hnext (v : ℕ) (hv : Reached s (a.take p).seen (fun w => done w ∨ w = p.1) v) :
          Reached s ((s.ca cr).tail.foldl (visitLit s) (a.take p)).seen
            (fun w => done w ∨ w = p.1) v :=
        hv.imp_right (Or.imp_left (hmono v))
      have hdone : Resolved s ((s.ca cr).tail.foldl (visitLit s) (a.take p))
          (fun w => done w ∨ w = p.1) := by
        rintro v (hv | rfl)
        · exact (hresolved v hv).mono fun w hw => hnext w (hreached w hw)
        · exact ⟨cr, hcr, fun q hq => hvisited q hq _⟩
      obtain ⟨q, c, done', hresult, hto, hlater⟩ :=
        ih hok (by omega) hdone (htaken.foldl_pos htrail htail hpos')
      exact ⟨q, c, done', hresult, hto, fun v hv => hlater v (hnext v (hreached v hv))⟩

end Resolve

end Painless.MiniSatAnalyze
