import Painless.MiniSatRedundant
import Mathlib.Data.List.Perm.Basic

/-!
The clause that the MiniSat engine learns from a conflict. It follows from the
clauses in use and the literals of level 0, it is false, and its first literal is
its only one of the current level. After backtracking to the highest level of the
others the first literal is implied.
-/
namespace Painless.MiniSatLearnt

open Cnf PartialAssignment ImplicationGraph MiniSatCore MiniSatTrail MiniSatWatches
open MiniSatAnalyze MiniSatRedundant
open MiniSatCore.Core

/-! ### Minimization -/

section Minimize

variable {s : Core} {source : ℕ → Prop}

/-- A dropped literal is explained by the others. -/
def DroppedOk (s : Core) (m : Marks) (lits kept : Clause ℕ) : Prop :=
  kept.Sublist lits ∧ ∀ q ∈ lits, q ∈ kept ∨ Explained s (Kept s m.seen) q.1

theorem DroppedOk.keep {m : Marks} {q : Literal ℕ} {rest kept : Clause ℕ}
    (h : DroppedOk s m rest kept) : DroppedOk s m (q :: rest) (q :: kept) :=
  ⟨h.1.cons_cons q, List.forall_mem_cons.mpr ⟨Or.inl List.mem_cons_self,
    fun r hr => (h.2 r hr).imp_left (List.mem_cons_of_mem q)⟩⟩

theorem minimizeDeep_ok (htrail : TrailOk s) (hreasons : ReasonsOk s) {lits : Clause ℕ}
    {m : Marks} (hmarks : MarksOk s source m)
    (hlits : ∀ q ∈ lits, negate q ∈ s.trail ∧ source q.1) :
    ∃ m' kept, minimizeDeep s m lits = some (m', kept) ∧ MarksOk s source m' ∧
      (∀ v, Kept s m.seen v → Kept s m'.seen v) ∧ DroppedOk s m' lits kept := by
  induction lits generalizing m with
  | nil => exact ⟨m, [], rfl, hmarks, fun _ hv => hv, List.Sublist.refl _,
      fun q hq => absurd hq List.not_mem_nil⟩
  | cons q rest ih =>
    obtain ⟨⟨hq, hsource⟩, hrest⟩ := List.forall_mem_cons.mp hlits
    unfold minimizeDeep
    by_cases hreason : s.reason q.1 = none
    · obtain ⟨m', kept, hresult, hok, hmono, hdropped⟩ := ih hmarks hrest
      rw [if_pos hreason, hresult]
      exact ⟨m', q :: kept, rfl, hok, hmono, hdropped.keep⟩
    · obtain ⟨b, m₁, hsearch, hmarks₁, hmono₁, hb⟩ :=
        litRedundant_ok htrail hreasons hmarks hq hreason hsource
      obtain ⟨m', kept, hresult, hok, hmono, hdropped⟩ := ih hmarks₁ hrest
      rw [if_neg hreason, hsearch]
      have hboth (v : ℕ) (hv : Kept s m.seen v) : Kept s m'.seen v := hmono v (hmono₁ v hv)
      cases b with
      | true =>
        refine ⟨m', kept, hresult, hok, hboth, hdropped.1.cons q, ?_⟩
        exact List.forall_mem_cons.mpr ⟨Or.inr ((hb rfl).mono hmono), hdropped.2⟩
      | false =>
        dsimp only
        rw [hresult]
        exact ⟨m', q :: kept, rfl, hok, hboth, hdropped.keep⟩

theorem minimizeLocal_ok {m : Marks}
    (htwo : ∀ v, m.seen v = .undef ∨ m.seen v = .source) (lits : Clause ℕ) :
    DroppedOk s m lits (minimizeLocal s m lits) := by
  refine ⟨List.filter_sublist, fun q hq => ?_⟩
  by_cases hkeep : s.reason q.1 = none ∨
      ∃ l ∈ reasonTail s q.1, m.seen l.1 = .undef ∧ 0 < s.level l.1
  · exact Or.inl (List.mem_filter.mpr ⟨hq, decide_eq_true hkeep⟩)
  · refine Or.inr (explained_of_reasonTail (fun hnone => hkeep (Or.inl hnone)) fun l hl => ?_)
    rcases Nat.eq_zero_or_pos (s.level l.1) with hzero | hpos
    · exact Or.inl hzero
    · exact Or.inr (Or.inl ((htwo l.1).resolve_left fun hundef =>
        hkeep (Or.inr ⟨l, hl, hundef, hpos⟩)))

theorem minimize_ok (htrail : TrailOk s) (hreasons : ReasonsOk s) {m : Marks}
    (hmarks : MarksOk s source m) (htwo : ∀ v, m.seen v = .undef ∨ m.seen v = .source)
    {lits : Clause ℕ} (hlits : ∀ q ∈ lits, negate q ∈ s.trail ∧ source q.1) (ccminMode : ℕ) :
    ∃ m' kept, minimize s ccminMode m lits = some (m', kept) ∧ MarksOk s source m' ∧
      DroppedOk s m' lits kept := by
  unfold minimize
  split_ifs
  · obtain ⟨m', kept, hresult, hok, -, hdropped⟩ := minimizeDeep_ok htrail hreasons hmarks hlits
    exact ⟨m', kept, hresult, hok, hdropped⟩
  · exact ⟨m, _, rfl, hmarks, minimizeLocal_ok htwo lits⟩
  · exact ⟨m, lits, rfl, hmarks, List.Sublist.refl _, fun q hq => Or.inl hq⟩

end Minimize

/-! ### The second literal -/

section SwapMax

variable {s : Core}

theorem maxLevel_spec {rest before : Clause ℕ} {max : ℕ} {best : Literal ℕ}
    (hbest : before[max]? = some best) (hmax : ∀ l ∈ before, s.level l.1 ≤ s.level best.1) :
    ∃ b, (before ++ rest)[maxLevel s max best before.length rest]? = some b ∧
      ∀ l ∈ before ++ rest, s.level l.1 ≤ s.level b.1 := by
  induction rest generalizing before max best with
  | nil =>
    rw [List.append_nil]
    exact ⟨best, hbest, hmax⟩
  | cons q rest ih =>
    have happend : before ++ q :: rest = (before ++ [q]) ++ rest := List.append_cons _ _ _
    have hlength : before.length + 1 = (before ++ [q]).length := by simp
    unfold maxLevel
    rw [happend, hlength]
    split_ifs with hlt
    · refine ih (List.getElem?_concat_length) fun l hl => ?_
      rcases List.mem_append.mp hl with hl | hl
      · exact (hmax l hl).trans hlt.le
      · rw [List.mem_singleton.mp hl]
    · have hlen := (List.getElem?_eq_some_iff.mp hbest).1
      refine ih (by rw [List.getElem?_append_left hlen, hbest]) fun l hl => ?_
      rcases List.mem_append.mp hl with hl | hl
      · exact hmax l hl
      · rw [List.mem_singleton.mp hl]
        exact not_lt.mp hlt

theorem swapMax_perm (s : Core) (lits : Clause ℕ) : (swapMax s lits).Perm lits := by
  cases lits with
  | nil => exact List.Perm.refl _
  | cons q rest =>
    rw [swapMax]
    split
    · exact List.Perm.refl _
    · rw [List.getD_eq_getElem?_getD]
      exact List.getD_set_perm_cons rest _ q

/-- No literal has a higher level than the one that is put first. -/
theorem swapMax_head {lits rest : Clause ℕ} {q : Literal ℕ} (h : swapMax s lits = q :: rest) :
    ∀ l ∈ lits, s.level l.1 ≤ s.level q.1 := by
  cases lits with
  | nil => exact fun l hl => absurd hl List.not_mem_nil
  | cons first others =>
    have hfirst : ∀ l ∈ [first], s.level l.1 ≤ s.level first.1 := by
      intro l hl
      rw [List.mem_singleton.mp hl]
    obtain ⟨b, hb, hmax⟩ := @maxLevel_spec s others [first] 0 first rfl hfirst
    have hqb : q = b := by
      rw [swapMax] at h
      rw [List.length_singleton] at hb
      split at h
      · next hzero =>
        rw [hzero] at hb
        exact (List.cons.inj h).1.symm.trans (Option.some.inj hb)
      · next i hi =>
        rw [hi] at hb
        have hget : others[i]? = some b := hb
        rw [List.getD_eq_getElem?_getD, hget] at h
        exact (List.cons.inj h).1.symm
    rw [hqb]
    exact hmax

end SwapMax

/-! ### Analysis -/

/-- The clause with the literal `p` first, learnt in a state in which it is false. -/
structure LearntOk (s : Core) (p : Literal ℕ) (others : Clause ℕ) : Prop where
  mem : negate p ∈ s.trail
  current : s.level p.1 = s.decisionLevel
  lower : ∀ q ∈ others, negate q ∈ s.trail ∧ 0 < s.level q.1 ∧
    s.level q.1 ≤ backtrackLevel s others
  backtrack : backtrackLevel s others < s.decisionLevel
  nodup : ((p :: others).map Prod.fst).Nodup

/-- The clauses in use and the literals of level 0 hold. -/
structure Models (s : Core) (σ : Assignment ℕ) : Prop where
  clauses : ∀ cr, Live s cr → ClauseHolds σ (s.ca cr).lits
  root : ∀ l ∈ s.trail, s.level l.1 = 0 → LiteralHolds σ l

/-- A reason leads from the literals of a set to one of its members. -/
theorem impliesIn_of_explained {s : Core} {C : ℕ → Prop} (hreasons : ReasonsOk s) {i : ℕ}
    {l : Literal ℕ} (hi : s.trail[i]? = some l) (h : Explained s C l.1) :
    ∃ cr, Live s cr ∧ ImpliesIn (fun l => C l.1) (s.trail.take i) (s.ca cr).lits l := by
  obtain ⟨cr, hcr, htail⟩ := h
  obtain ⟨hlive, hfirst, hbefore⟩ := hreasons i l cr hi hcr
  have hsplit {q : Literal ℕ} (hq : q ∈ (s.ca cr).lits) (hne : q ≠ l) : q ∈ (s.ca cr).tail :=
    (List.mem_cons.mp hq).resolve_left fun heq => hne (heq.trans hfirst)
  refine ⟨cr, hlive, ⟨?_, fun q hq hne => hbefore q (hsplit hq hne)⟩,
    fun q hq hne => htail q (hsplit hq hne)⟩
  rw [← hfirst]
  exact List.mem_cons_self

section Analyze

variable {s : Core} {confl : ℕ}

theorem foldl_clear (toclear : List (Literal ℕ)) (seen : ℕ → Seen) (v : ℕ) :
    toclear.foldl (fun (seen : ℕ → Seen) l => Function.update seen l.1 .undef) seen v =
      if v ∈ toclear.map Prod.fst then .undef else seen v := by
  induction toclear generalizing seen with
  | nil => simp
  | cons l rest ih =>
    rw [List.foldl_cons, ih]
    by_cases hrest : v ∈ rest.map Prod.fst
    · simp [hrest]
    · by_cases hl : v = l.1
      · simp [hl]
      · simp [hrest, hl, Function.update_of_ne]

/-- The search begins with the literals of the false clause. -/
theorem resolution_start (htrail : TrailOk s)
    (hfalse : ∀ q ∈ (s.ca confl).lits, negate q ∈ s.trail) {seen : ℕ → Seen}
    (hseen : ∀ v, seen v = .undef) :
    ResolutionOk s s.trail.length ((s.ca confl).lits.foldl (visitLit s) ⟨seen, 0, []⟩) ∧
      ∀ q ∈ (s.ca confl).lits, ∀ done,
        Reached s ((s.ca confl).lits.foldl (visitLit s) ⟨seen, 0, []⟩).seen done q.1 := by
  have hnone (v : ℕ) : seen v ≠ .source := by
    rw [hseen]
    exact Seen.noConfusion
  have hstart : ResolutionOk s s.trail.length ⟨seen, 0, []⟩ := by
    refine ⟨fun v => Or.inl (hseen v), ?_, fun v hv => absurd hv (hnone v),
      fun q hq => absurd hq List.not_mem_nil, List.nodup_nil⟩
    refine (List.countP_eq_zero.mpr fun l _ hpending => ?_).symm
    exact hnone l.1 (of_decide_eq_true hpending).1
  have hfalse' : ∀ q ∈ (s.ca confl).lits, negate q ∈ s.trail.take s.trail.length := by
    rw [List.take_length]
    exact hfalse
  obtain ⟨hok, -, hreached⟩ := foldl_visitLit_ok htrail hstart hfalse'
  exact ⟨hok, hreached⟩

/-- The clause holds where the clauses in use do. -/
theorem cut_holds (hreasons : ReasonsOk s)
    (hfalse : ∀ q ∈ (s.ca confl).lits, negate q ∈ s.trail) (hlive : Live s confl)
    {C : ℕ → Prop} (hconfl : ∀ q ∈ (s.ca confl).lits, C q.1) {cut : Clause ℕ}
    (hcut : ∀ l ∈ s.trail, C l.1 →
      s.level l.1 = 0 ∨ negate l ∈ cut ∨ Explained s C l.1)
    {σ : Assignment ℕ} (hσ : Models s σ) : ClauseHolds σ cut := by
  refine clauseHolds_of_cut (C := fun l => C l.1) (hσ.clauses confl hlive)
    (fun q hq => ⟨hfalse q hq, hconfl q hq⟩) fun i l hi hC => ?_
  rcases hcut l (List.mem_of_getElem? hi) hC with hroot | hmem | hexplained
  · exact Or.inl (hσ.root l (List.mem_of_getElem? hi) hroot)
  · exact Or.inr (Or.inl hmem)
  · obtain ⟨cr, hcr, himplies⟩ := impliesIn_of_explained hreasons hi hexplained
    exact Or.inr (Or.inr ⟨_, hσ.clauses cr hcr, himplies⟩)

theorem resolution_pos (htrail : TrailOk s)
    (hfalse : ∀ q ∈ (s.ca confl).lits, negate q ∈ s.trail)
    (hcurrent : ∃ q ∈ (s.ca confl).lits, s.level q.1 = s.decisionLevel)
    (hlevel : 0 < s.decisionLevel) {seen : ℕ → Seen} (hseen : ∀ v, seen v = .undef) :
    0 < ((s.ca confl).lits.foldl (visitLit s) ⟨seen, 0, []⟩).pathC := by
  obtain ⟨hok, hreached⟩ := resolution_start htrail hfalse hseen
  obtain ⟨q, hq, hcur⟩ := hcurrent
  rw [hok.count, List.take_length, List.countP_pos_iff]
  refine ⟨negate q, hfalse q hq, decide_eq_true ⟨?_, hcur⟩⟩
  refine (hok.twoValued q.1).resolve_left fun hundef => ?_
  rcases hreached q hq (fun _ => False) with hzero | hsource | hdone
  · omega
  · exact hsource hundef
  · exact hdone

variable {done : ℕ → Prop} {p : Literal ℕ} {a : Resolution}

/-- analyze_toclear begins with the literals of the clause. -/
theorem marks_start (hto : ResolvedTo s done p a) (q : Literal ℕ) :
    MarksOk s (fun v => v ∈ a.learnt.map Prod.fst) ⟨a.seen, q :: a.learnt⟩ := by
  refine ⟨fun v => ?_, fun v hv => ?_, fun v hv => ?_⟩
  · show a.seen v = .source ↔ v ∈ a.learnt.map Prod.fst
    rw [hto.seen]
    by_cases hmem : v ∈ a.learnt.map Prod.fst
    · rw [if_pos hmem]
      exact iff_of_true rfl hmem
    · rw [if_neg hmem]
      exact iff_of_false Seen.noConfusion hmem
  · have hv : a.seen v = .removable := hv
    rw [hto.seen] at hv
    split_ifs at hv
  · refine List.mem_cons_of_mem _ ?_
    by_contra hmem
    refine hv ?_
    show a.seen v = .undef
    rw [hto.seen, if_neg hmem]

/-- Every entry that has been reached is explained, or it is in the clause. -/
theorem reached_cut (htrail : TrailOk s) (hto : ResolvedTo s done p a) {m : Marks}
    (hmarks : MarksOk s (fun v => v ∈ a.learnt.map Prod.fst) m) {kept : Clause ℕ}
    (hkept : DroppedOk s m a.learnt kept) {l : Literal ℕ} (hl : l ∈ s.trail)
    (hC : Kept s m.seen l.1 ∨ done l.1) :
    s.level l.1 = 0 ∨ l = p ∨ negate l ∈ kept ∨
      Explained s (fun v => Kept s m.seen v ∨ done v) l.1 := by
  have hsame {k : Literal ℕ} (hk : k ∈ s.trail) (hvar : l.1 = k.1) : l = k :=
    List.inj_on_of_nodup_map htrail.nodup hl hk hvar
  have hreached (v : ℕ) (hv : Reached s a.seen done v) : Kept s m.seen v ∨ done v := by
    rcases hv with hzero | hseen | hdone
    · exact Or.inl (Or.inl hzero)
    · refine Or.inl (Or.inr (Or.inl ((hmarks.source v).mpr ?_)))
      by_contra hmem
      exact hseen (by rw [hto.seen, if_neg hmem])
    · exact Or.inr hdone
  rcases hC with (hzero | hsource | hremovable) | hdone
  · exact Or.inl hzero
  · obtain ⟨q, hq, hvar⟩ := List.mem_map.mp ((hmarks.source l.1).mp hsource)
    obtain ⟨hmem, -, -⟩ := hto.learnt q hq
    obtain rfl : l = negate q := hsame hmem hvar.symm
    rw [negate_negate]
    refine Or.inr (Or.inr ((hkept.2 q hq).imp_right fun hexplained => ?_))
    exact hexplained.mono fun _ hv => Or.inl hv
  · exact Or.inr (Or.inr (Or.inr ((hmarks.removable l.1 hremovable).mono fun _ hv => Or.inl hv)))
  · by_cases hvar : l.1 = p.1
    · exact Or.inr (Or.inl (hsame hto.mem hvar))
    · exact Or.inr (Or.inr (Or.inr ((hto.resolved l.1 hdone hvar).mono hreached)))

theorem learntOk_of_resolved (hto : ResolvedTo s done p a) (hlevel : 0 < s.decisionLevel)
    {kept : Clause ℕ} (hkept : kept.Sublist a.learnt) :
    LearntOk s (negate p) (swapMax s kept) := by
  have hmem {q : Literal ℕ} (hq : q ∈ swapMax s kept) : q ∈ kept :=
    (swapMax_perm s kept).mem_iff.mp hq
  have hpcur : s.level (negate p).1 = s.decisionLevel := hto.current
  refine ⟨by rw [negate_negate]; exact hto.mem, hpcur, fun q hq => ?_, ?_, ?_⟩
  · obtain ⟨htrue, hpos, -⟩ := hto.learnt q (hkept.subset (hmem hq))
    refine ⟨htrue, hpos, ?_⟩
    cases hshape : swapMax s kept with
    | nil =>
      rw [hshape] at hq
      exact absurd hq List.not_mem_nil
    | cons second rest => exact swapMax_head hshape q (hmem hq)
  · cases hshape : swapMax s kept with
    | nil => exact hlevel
    | cons second rest =>
      have hin : second ∈ swapMax s kept := by
        rw [hshape]
        exact List.mem_cons_self
      exact (hto.learnt second (hkept.subset (hmem hin))).2.2
  · rw [List.map_cons, List.nodup_cons]
    refine ⟨fun hin => ?_, ?_⟩
    · obtain ⟨q, hq, hvar⟩ := List.mem_map.mp hin
      obtain ⟨-, -, hlt⟩ := hto.learnt q (hkept.subset (hmem hq))
      rw [hvar, hpcur] at hlt
      exact lt_irrefl _ hlt
    · exact ((swapMax_perm s kept).map Prod.fst).nodup_iff.mpr (hto.nodup.sublist (hkept.map _))

/-- Conflict analysis always has a result. -/
theorem analyze_ok (htrail : TrailOk s) (hreasons : ReasonsOk s) (hlive : Live s confl)
    (hfalse : ∀ q ∈ (s.ca confl).lits, negate q ∈ s.trail)
    (hcurrent : ∃ q ∈ (s.ca confl).lits, s.level q.1 = s.decisionLevel)
    (hlevel : 0 < s.decisionLevel) {seen : ℕ → Seen} (hseen : ∀ v, seen v = .undef)
    (ccminMode : ℕ) :
    ∃ p others seen', analyze s seen ccminMode confl =
        some ⟨p :: others, backtrackLevel s others, seen'⟩ ∧
      LearntOk s p others ∧ (∀ v, seen' v = .undef) ∧
      ∀ σ, Models s σ → ClauseHolds σ (p :: others) := by
  obtain ⟨hok, hreached⟩ := resolution_start htrail hfalse hseen
  have hpos := resolution_pos htrail hfalse hcurrent hlevel hseen
  obtain ⟨p, a, done, hresolve, hto, hlater⟩ := resolve_ok htrail hreasons hlevel hok
    le_rfl (show Resolved s _ fun _ => False from fun v hv => absurd hv id) hpos
  rw [List.take_length] at hresolve
  have hlits : ∀ q ∈ a.learnt, negate q ∈ s.trail ∧ q.1 ∈ a.learnt.map Prod.fst :=
    fun q hq => ⟨(hto.learnt q hq).1, List.mem_map_of_mem hq⟩
  have htwo (v : ℕ) : a.seen v = .undef ∨ a.seen v = .source := by
    rw [hto.seen]
    split_ifs
    · exact Or.inr rfl
    · exact Or.inl rfl
  obtain ⟨m, kept, hminimize, hmarks, hkept⟩ :=
    minimize_ok htrail hreasons (marks_start hto (negate p)) htwo hlits ccminMode
  unfold analyze
  rw [hresolve]
  dsimp only
  rw [hminimize]
  refine ⟨negate p, swapMax s kept, _, rfl, learntOk_of_resolved hto hlevel hkept.1, ?_, ?_⟩
  · intro v
    rw [foldl_clear]
    split_ifs with hcleared
    · rfl
    · by_contra hv
      exact hcleared (hmarks.cleared v hv)
  · intro σ hσ
    refine cut_holds hreasons hfalse hlive (C := fun v => Kept s m.seen v ∨ done v)
      (fun q hq => ?_) (fun l hl hC => ?_) hσ
    · rcases hlater q.1 (hreached q hq _) with hzero | hsource | hdone
      · exact Or.inl (Or.inl hzero)
      · refine Or.inl (Or.inr (Or.inl ((hmarks.source q.1).mpr ?_)))
        by_contra hmem
        exact hsource (by rw [hto.seen, if_neg hmem])
      · exact Or.inr hdone
    · rcases reached_cut htrail hto hmarks hkept hl hC with hzero | hp | hin | hexplained
      · exact Or.inl hzero
      · refine Or.inr (Or.inl ?_)
        rw [hp]
        exact List.mem_cons_self
      · refine Or.inr (Or.inl (List.mem_cons_of_mem _ ?_))
        exact (swapMax_perm s kept).mem_iff.mpr hin
      · exact Or.inr (Or.inr hexplained)

end Analyze

end Painless.MiniSatLearnt
