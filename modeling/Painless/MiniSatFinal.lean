import Painless.MiniSatLearnt

/-!
The final conflict of the MiniSat engine. A false assumption is traced back
through the reasons to decisions. The clause of their negations follows from the
clauses in use.
-/
namespace Painless.MiniSatFinal

open Cnf PartialAssignment ImplicationGraph MiniSatCore MiniSatTrail MiniSatWatches
open MiniSatAnalyze MiniSatLearnt
open MiniSatCore.Core

/-- The literal is traced, or its variable is of level 0, or it is to be traced
among the `k` entries above level 0. -/
structure TraceOk (s : Core) (p : Literal ℕ) (lim k : ℕ) (done : ℕ → Prop) (seen : ℕ → Seen)
    (conflict : Clause ℕ) : Prop where
  untraced : ∀ v, seen v ≠ .undef →
    (v = p.1 ∧ s.level v = 0) ∨ v ∈ ((s.trail.drop lim).take k).map Prod.fst
  traced : ∀ v, done v → Explained s (Reached s seen done) v ∨
    ∃ l ∈ s.trail, l.1 = v ∧ negate l ∈ conflict
  decisions : ∀ q ∈ conflict, q = p ∨
    (negate q ∈ s.trail ∧ s.reason q.1 = none ∧ 0 < s.level q.1)
  mem : p ∈ conflict

theorem mem_insertLit (conflict : Clause ℕ) (l q : Literal ℕ) :
    q ∈ insertLit conflict l ↔ q ∈ conflict ∨ q = l := by
  unfold insertLit
  split_ifs with hl
  · exact (or_iff_left_of_imp fun heq => heq ▸ hl).symm
  · rw [List.mem_append, List.mem_singleton]

section Trace

variable {s : Core} {p : Literal ℕ} {lim k : ℕ} {done : ℕ → Prop} {seen : ℕ → Seen}
variable {conflict : Clause ℕ}

/-- The entries above level 0 are those from the first limit on. -/
theorem lim_le_of_level_pos (htrail : TrailOk s) (hlim : s.trailLim.head? = some lim) {i : ℕ}
    {l : Literal ℕ} (hi : s.trail[i]? = some l) (hpos : 0 < s.level l.1) : lim ≤ i := by
  rw [htrail.levels i l hi] at hpos
  rw [List.head?_eq_getElem?] at hlim
  exact (lt_countP_iff htrail.sorted hlim i).mp hpos

theorem level_pos_of_lim_le (htrail : TrailOk s) (hlim : s.trailLim.head? = some lim) {i : ℕ}
    {l : Literal ℕ} (hi : s.trail[i]? = some l) (hle : lim ≤ i) : 0 < s.level l.1 := by
  rw [htrail.levels i l hi]
  rw [List.head?_eq_getElem?] at hlim
  exact (lt_countP_iff htrail.sorted hlim i).mpr hle

/-- The literals of the reason that are above level 0. -/
def seeTail (s : Core) (seen : ℕ → Seen) (qs : Clause ℕ) : ℕ → Seen :=
  qs.foldl (fun seen q => if 0 < s.level q.1 then Function.update seen q.1 .source else seen) seen

theorem seeTail_spec (seen : ℕ → Seen) (qs : Clause ℕ) (v : ℕ) :
    seeTail s seen qs v ≠ .undef ↔
      seen v ≠ .undef ∨ (v ∈ qs.map Prod.fst ∧ 0 < s.level v) := by
  induction qs generalizing seen with
  | nil => simp [seeTail]
  | cons q rest ih =>
    unfold seeTail at ih ⊢
    rw [List.foldl_cons, ih, List.map_cons, List.mem_cons]
    by_cases hpos : 0 < s.level q.1
    · rw [if_pos hpos, Function.update_apply]
      by_cases hv : v = q.1
      · subst hv
        simp [hpos]
      · simp [hv]
    · rw [if_neg hpos]
      have hnot : ¬ (v = q.1 ∧ 0 < s.level v) := by
        rintro ⟨rfl, hlt⟩
        exact hpos hlt
      tauto

/-- An entry that has not been seen is passed over. -/
theorem TraceOk.skip (h : TraceOk s p lim (k + 1) done seen conflict) {l : Literal ℕ}
    (hl : (s.trail.drop lim)[k]? = some l) (hundef : seen l.1 = .undef) :
    TraceOk s p lim k done seen conflict := by
  refine { h with untraced := fun v hv => ?_ }
  refine (h.untraced v hv).imp_right fun hmem => ?_
  rw [List.take_add_one, hl, List.map_append, List.mem_append] at hmem
  refine hmem.resolve_right fun heq => hv ?_
  rw [List.mem_singleton.mp heq]
  exact hundef

/-- An entry is traced to the literals of its reason, or it goes to the conflict. -/
theorem TraceOk.trace (h : TraceOk s p lim (k + 1) done seen conflict) (htrail : TrailOk s)
    (hlim : s.trailLim.head? = some lim) {l : Literal ℕ}
    (hl : (s.trail.drop lim)[k]? = some l) {seen' : ℕ → Seen} {conflict' : Clause ℕ}
    (hseen' : ∀ v, seen' v ≠ .undef → (seen v ≠ .undef ∧ v ≠ l.1) ∨
      v ∈ ((s.trail.drop lim).take k).map Prod.fst)
    (hkeep : ∀ v, seen v ≠ .undef → v ≠ l.1 → seen' v ≠ .undef)
    (hexplained : Explained s (fun v => s.level v = 0 ∨ seen' v ≠ .undef) l.1 ∨
      negate l ∈ conflict')
    (hsub : ∀ q ∈ conflict, q ∈ conflict')
    (hconflict : ∀ q ∈ conflict', q ∈ conflict ∨
      (q = negate l ∧ s.reason q.1 = none)) :
    TraceOk s p lim k (fun v => done v ∨ v = l.1) seen' conflict' := by
  have hindex : s.trail[lim + k]? = some l := by
    rw [← hl, List.getElem?_drop]
  have hreached (v : ℕ) (hv : Reached s seen done v) :
      Reached s seen' (fun v => done v ∨ v = l.1) v := by
    rcases hv with hzero | hsource | hdone
    · exact Or.inl hzero
    · by_cases hvl : v = l.1
      · exact Or.inr (Or.inr (Or.inr hvl))
      · exact Or.inr (Or.inl (hkeep v hsource hvl))
    · exact Or.inr (Or.inr (Or.inl hdone))
  constructor
  · intro v hv
    rcases hseen' v hv with ⟨hold, hne⟩ | hmem
    · refine (h.untraced v hold).imp_right fun hmem => ?_
      rw [List.take_add_one, hl, List.map_append, List.mem_append] at hmem
      exact hmem.resolve_right fun heq => hne (List.mem_singleton.mp heq)
    · exact Or.inr hmem
  · rintro v (hv | rfl)
    · refine (h.traced v hv).imp (fun hold => hold.mono hreached) ?_
      rintro ⟨q, hq, hvar, hin⟩
      exact ⟨q, hq, hvar, hsub _ hin⟩
    · refine hexplained.imp (fun hnew => hnew.mono fun w hw => Or.imp_right Or.inl hw) fun hin => ?_
      exact ⟨l, List.mem_of_getElem? hindex, rfl, hin⟩
  · intro q hq
    rcases hconflict q hq with hold | ⟨rfl, hreason⟩
    · exact h.decisions q hold
    · refine Or.inr ⟨?_, hreason, ?_⟩
      · rw [negate_negate]
        exact List.mem_of_getElem? hindex
      · have hpos := level_pos_of_lim_le htrail hlim hindex (Nat.le_add_right lim k)
        exact hpos
  · exact hsub p h.mem

theorem clear_ne_undef {v w : ℕ} :
    Function.update seen w .undef v ≠ .undef ↔ seen v ≠ .undef ∧ v ≠ w := by
  rw [Function.update_apply]
  split_ifs with hv
  · simp [hv]
  · simp [hv]

theorem TraceOk.decision (h : TraceOk s p lim (k + 1) done seen conflict) (htrail : TrailOk s)
    (hlim : s.trailLim.head? = some lim) {l : Literal ℕ}
    (hl : (s.trail.drop lim)[k]? = some l) (hreason : s.reason l.1 = none) :
    TraceOk s p lim k (fun v => done v ∨ v = l.1) (Function.update seen l.1 .undef)
      (insertLit conflict (negate l)) := by
  refine h.trace htrail hlim hl (fun v hv => Or.inl (clear_ne_undef.mp hv))
    (fun v hv hne => clear_ne_undef.mpr ⟨hv, hne⟩)
    (Or.inr ((mem_insertLit _ _ _).mpr (Or.inr rfl)))
    (fun q hq => (mem_insertLit _ _ _).mpr (Or.inl hq)) fun q hq => ?_
  refine ((mem_insertLit _ _ _).mp hq).imp_right fun heq => ⟨heq, ?_⟩
  rw [heq]
  exact hreason

theorem TraceOk.implied (h : TraceOk s p lim (k + 1) done seen conflict) (htrail : TrailOk s)
    (hreasons : ReasonsOk s) (hlim : s.trailLim.head? = some lim) {l : Literal ℕ}
    (hl : (s.trail.drop lim)[k]? = some l) {cr : ℕ} (hreason : s.reason l.1 = some cr) :
    TraceOk s p lim k (fun v => done v ∨ v = l.1)
      (Function.update (seeTail s seen (s.ca cr).tail) l.1 .undef) conflict := by
  have hindex : s.trail[lim + k]? = some l := by
    rw [← hl, List.getElem?_drop]
  obtain ⟨-, -, htail⟩ := hreasons _ l cr hindex hreason
  -- the others of the reason are earlier entries
  have hearlier {q : Literal ℕ} (hq : q ∈ (s.ca cr).tail) : q.1 ≠ l.1 ∧
      (0 < s.level q.1 → q.1 ∈ ((s.trail.drop lim).take k).map Prod.fst) := by
    obtain ⟨i, hi⟩ := List.mem_iff_getElem?.mp (htail q hq)
    have hlt := (List.getElem?_eq_some_iff.mp hi).1
    rw [List.length_take] at hlt
    rw [List.getElem?_take_of_lt (by omega)] at hi
    refine ⟨fun heq => ?_, fun hpos => ?_⟩
    · have := htrail.index_unique hi hindex heq
      omega
    · have hle := lim_le_of_level_pos htrail hlim hi hpos
      refine List.mem_map.mpr ⟨negate q, List.mem_iff_getElem?.mpr ⟨i - lim, ?_⟩, rfl⟩
      rw [List.getElem?_take_of_lt (by omega), List.getElem?_drop, Nat.add_sub_cancel' hle]
      exact hi
  have hseen {v : ℕ} : Function.update (seeTail s seen (s.ca cr).tail) l.1 .undef v ≠ .undef ↔
      (seen v ≠ .undef ∨ (v ∈ (s.ca cr).tail.map Prod.fst ∧ 0 < s.level v)) ∧ v ≠ l.1 := by
    rw [clear_ne_undef, seeTail_spec]
  refine h.trace htrail hlim hl (fun v hv => ?_) (fun v hv hne => hseen.mpr ⟨Or.inl hv, hne⟩)
    (Or.inl ⟨cr, hreason, fun q hq => ?_⟩) (fun q hq => hq) fun q hq => Or.inl hq
  · obtain ⟨hv | ⟨hv, hpos⟩, hne⟩ := hseen.mp hv
    · exact Or.inl ⟨hv, hne⟩
    · obtain ⟨q, hq, rfl⟩ := List.mem_map.mp hv
      exact Or.inr ((hearlier hq).2 hpos)
  · rcases Nat.eq_zero_or_pos (s.level q.1) with hzero | hpos
    · exact Or.inl hzero
    · exact Or.inr (hseen.mpr ⟨Or.inr ⟨List.mem_map_of_mem hq, hpos⟩, (hearlier hq).1⟩)

theorem analyzeFinalLoop_ok (htrail : TrailOk s) (hreasons : ReasonsOk s)
    (hlim : s.trailLim.head? = some lim) (hk : lim + k ≤ s.trail.length)
    (h : TraceOk s p lim k done seen conflict) :
    ∃ done', TraceOk s p lim 0 done'
        (analyzeFinalLoop s ((s.trail.drop lim).take k).reverse seen conflict).1
        (analyzeFinalLoop s ((s.trail.drop lim).take k).reverse seen conflict).2 ∧
      ∀ v, seen v ≠ .undef ∨ done v → 0 < s.level v → done' v := by
  induction k generalizing done seen conflict with
  | zero =>
    rw [List.take_zero]
    refine ⟨done, h, fun v hv hpos => hv.elim (fun hseen => ?_) id⟩
    rcases h.untraced v hseen with ⟨-, hzero⟩ | hmem
    · omega
    · rw [List.take_zero] at hmem
      exact absurd hmem List.not_mem_nil
  | succ k ih =>
    have hlt : k < (s.trail.drop lim).length := by
      rw [List.length_drop]
      omega
    have hl : (s.trail.drop lim)[k]? = some (s.trail.drop lim)[k] := List.getElem?_eq_getElem hlt
    generalize (s.trail.drop lim)[k] = l at hl
    have hreverse : ((s.trail.drop lim).take (k + 1)).reverse =
        l :: ((s.trail.drop lim).take k).reverse := by
      rw [List.take_add_one, hl, List.reverse_append]
      rfl
    rw [hreverse]
    unfold analyzeFinalLoop
    split_ifs with hundef
    · exact ih (by omega) (h.skip hl hundef)
    · -- what was seen is still to be traced, or it is l
      have hlater {seen' : ℕ → Seen} (hkeep : ∀ v, seen v ≠ .undef → v ≠ l.1 → seen' v ≠ .undef)
          {v : ℕ} (hv : seen v ≠ .undef ∨ done v) :
          seen' v ≠ .undef ∨ (done v ∨ v = l.1) := by
        by_cases hvl : v = l.1
        · exact Or.inr (Or.inr hvl)
        · exact hv.imp (fun hseen => hkeep v hseen hvl) Or.inl
      cases hreason : s.reason l.1 with
      | none =>
        obtain ⟨done', hok, hdone⟩ := ih (by omega) (h.decision htrail hlim hl hreason)
        refine ⟨done', hok, fun v hv => hdone v (hlater (fun w hw hne => ?_) hv)⟩
        exact clear_ne_undef.mpr ⟨hw, hne⟩
      | some cr =>
        obtain ⟨done', hok, hdone⟩ := ih (by omega) (h.implied htrail hreasons hlim hl hreason)
        refine ⟨done', hok, fun v hv => hdone v (hlater (fun w hw hne => ?_) hv)⟩
        exact clear_ne_undef.mpr ⟨(seeTail_spec _ _ w).mpr (Or.inl hw), hne⟩

/-- The decisions that are left determine the literal. -/
theorem TraceOk.holds (h : TraceOk s p lim 0 done seen conflict) (htrail : TrailOk s)
    (hreasons : ReasonsOk s) (hp : p ∈ s.trail) (hdone : 0 < s.level p.1 → done p.1)
    {σ : Assignment ℕ} (hσ : Models s σ) : ClauseHolds σ conflict := by
  by_contra hfalse
  have hpfalse : LiteralHolds σ (negate p) := by
    rw [literalHolds_negate]
    exact fun hholds => hfalse ⟨p, h.mem, hholds⟩
  have hconfl : ClauseHolds σ [negate p] := ⟨negate p, List.mem_singleton_self _, hpfalse⟩
  refine hfalse (@clauseHolds_of_cut _ s.trail (fun l => Reached s seen done l.1) _ _ _ hconfl
    ?_ ?_)
  · intro q hq
    rw [List.mem_singleton.mp hq, negate_negate]
    refine ⟨hp, ?_⟩
    rcases Nat.eq_zero_or_pos (s.level p.1) with hzero | hpos
    · exact Or.inl hzero
    · exact Or.inr (Or.inr (hdone hpos))
  · intro i l hi hC
    have hl := List.mem_of_getElem? hi
    rcases hC with hzero | hseen | hl'
    · exact Or.inl (hσ.root l hl hzero)
    · rcases h.untraced l.1 hseen with ⟨-, hzero⟩ | hmem
      · exact Or.inl (hσ.root l hl hzero)
      · rw [List.take_zero] at hmem
        exact absurd hmem List.not_mem_nil
    · rcases h.traced l.1 hl' with hexplained | ⟨m, hm, hvar, hin⟩
      · obtain ⟨cr, hcr, himplies⟩ := impliesIn_of_explained hreasons hi hexplained
        exact Or.inr (Or.inr ⟨_, hσ.clauses cr hcr, himplies⟩)
      · obtain rfl := List.inj_on_of_nodup_map htrail.nodup hm hl hvar
        exact Or.inr (Or.inl hin)

theorem analyzeFinal_ok (htrail : TrailOk s) (hreasons : ReasonsOk s) (hp : p ∈ s.trail)
    (hseen : ∀ v, seen v = .undef) :
    (∀ v, (analyzeFinal s seen p).1 v = .undef) ∧
      (∀ q ∈ (analyzeFinal s seen p).2, q = p ∨
        (negate q ∈ s.trail ∧ s.reason q.1 = none ∧ 0 < s.level q.1)) ∧
      ∀ σ, Models s σ → ClauseHolds σ (analyzeFinal s seen p).2 := by
  obtain ⟨i, hi⟩ := List.mem_iff_getElem?.mp hp
  unfold analyzeFinal
  cases hlims : s.trailLim with
  | nil =>
    refine ⟨hseen, fun q hq => Or.inl (List.mem_singleton.mp hq), fun σ hσ => ?_⟩
    refine ⟨p, List.mem_singleton_self p, hσ.root p hp ?_⟩
    rw [htrail.levels i p hi, hlims]
    rfl
  | cons lim lims =>
    have hlim : s.trailLim.head? = some lim := by
      rw [hlims]
      rfl
    have hle : lim ≤ s.trail.length := by
      refine htrail.limsLe_length lim ?_
      rw [hlims]
      exact List.mem_cons_self
    have hseen' (v : ℕ) : Function.update seen p.1 .source v ≠ .undef ↔ v = p.1 := by
      rw [Function.update_apply]
      split_ifs with hv
      · exact iff_of_true Seen.noConfusion hv
      · exact iff_of_false (not_not.mpr (hseen v)) hv
    have hfull : (s.trail.drop lim).take (s.trail.length - lim) = s.trail.drop lim := by
      refine List.take_of_length_le ?_
      rw [List.length_drop]
    have hstart : TraceOk s p lim (s.trail.length - lim) (fun _ => False)
        (Function.update seen p.1 .source) [p] := by
      refine ⟨fun v hv => ?_, fun v hv => absurd hv id,
        fun q hq => Or.inl (List.mem_singleton.mp hq), List.mem_singleton_self p⟩
      obtain rfl := (hseen' v).mp hv
      rcases Nat.eq_zero_or_pos (s.level p.1) with hzero | hpos
      · exact Or.inl ⟨rfl, hzero⟩
      · have hlow := lim_le_of_level_pos htrail hlim hi hpos
        rw [hfull]
        refine Or.inr (List.mem_map.mpr ⟨p, List.mem_iff_getElem?.mpr ⟨i - lim, ?_⟩, rfl⟩)
        rw [List.getElem?_drop, Nat.add_sub_cancel' hlow, hi]
    obtain ⟨done, hok, hdone⟩ := analyzeFinalLoop_ok htrail hreasons hlim (by omega) hstart
    rw [hfull] at hok
    dsimp only
    refine ⟨fun v => ?_, hok.decisions, fun σ hσ => ?_⟩
    · by_contra hv
      obtain ⟨hv, hne⟩ := clear_ne_undef.mp hv
      rcases hok.untraced v hv with ⟨heq, -⟩ | hmem
      · exact hne heq
      · rw [List.take_zero] at hmem
        exact absurd hmem List.not_mem_nil
    · exact hok.holds htrail hreasons hp (hdone p.1 (Or.inl ((hseen' p.1).mpr rfl))) hσ

end Trace

end Painless.MiniSatFinal
