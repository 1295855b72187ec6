import Painless.EliminationHistory
import Mathlib.Data.List.Perm.Subperm

/-!
The subsumption test of SimpSolver. Clauses are compared literal by literal, after
a look at their sizes and at the bits of their variables; one literal may have the
opposite sign. The test decides what it is to decide, and what is done with its
answer keeps what the clauses say.
-/
namespace Painless.Subsumption

open Cnf PartialAssignment EliminationStack EliminationHistory

/-! ### The test -/

/-- calcAbstraction: a bit for each variable. -/
def abstraction (c : Clause ℕ) : BitVec 32 :=
  c.foldl (fun abs l => abs ||| (1#32 <<< (l.1 % 32))) 0#32

/-- The search for `p` in the other clause, or for its negation while `ret` is
lit_Undef; `none` is lit_Error. -/
def search (p : Literal ℕ) (ret : Option (Literal ℕ)) : Clause ℕ → Option (Option (Literal ℕ))
  | [] => none
  | q :: rest =>
    if p = q then some ret
    else if ret = none ∧ p = negate q then some (some p)
    else search p ret rest

def subsumesLoop (d : Clause ℕ) : Option (Literal ℕ) → Clause ℕ → Option (Option (Literal ℕ))
  | ret, [] => some ret
  | ret, p :: rest => (search p ret d).bind fun ret => subsumesLoop d ret rest

/-- Clause::subsumes: `some none` is lit_Undef, and `none` is lit_Error. -/
def subsumes (c d : Clause ℕ) : Option (Option (Literal ℕ)) :=
  if d.length < c.length ∨ abstraction c &&& ~~~ abstraction d ≠ 0#32 then none
  else subsumesLoop d none c

/-- What a turn of backwardSubsumptionCheck makes of the clauses `c` and `d`. -/
def checkCandidate (c d : Clause ℕ) : Formula ℕ :=
  match subsumes c d with
  | none => [c, d]
  | some none => [c]
  | some (some l) => [c, d.erase (negate l)]

variable {c d : Clause ℕ} {l p : Literal ℕ}

/-! ### The bits of the variables -/

theorem getLsbD_abstraction (c : Clause ℕ) (i : ℕ) :
    (abstraction c).getLsbD i = decide (∃ l ∈ c, l.1 % 32 = i) := by
  have hfold (c : Clause ℕ) : ∀ abs : BitVec 32,
      (c.foldl (fun abs l => abs ||| (1#32 <<< (l.1 % 32))) abs).getLsbD i =
        (abs.getLsbD i || decide (∃ l ∈ c, l.1 % 32 = i)) := by
    induction c with
    | nil =>
      intro abs
      simp
    | cons q rest ih =>
      intro abs
      have hlt : q.1 % 32 < 32 := Nat.mod_lt _ (by decide)
      have hbit : (1#32 <<< (q.1 % 32)).getLsbD i = decide (q.1 % 32 = i) := by
        rw [BitVec.getLsbD_shiftLeft, BitVec.getLsbD_one]
        by_cases hi : q.1 % 32 = i
        · subst hi
          simp [hlt]
        · rw [decide_eq_false hi]
          by_cases hlow : i < q.1 % 32
          · simp [hlow]
          · have hne : i - q.1 % 32 ≠ 0 := by omega
            simp [hne]
      rw [List.foldl_cons, ih, BitVec.getLsbD_or, hbit, Bool.or_assoc]
      refine congrArg _ ?_
      rw [← Bool.decide_or]
      refine decide_eq_decide.mpr ?_
      simp only [List.mem_cons, exists_eq_or_imp]
  have h := hfold c 0#32
  rw [BitVec.getLsbD_zero, Bool.false_or] at h
  exact h

/-- The test of the bits lets all pass that could succeed. -/
theorem abstraction_le (h : ∀ l ∈ c, ∃ q ∈ d, q.1 = l.1) :
    abstraction c &&& ~~~ abstraction d = 0#32 := by
  refine BitVec.eq_of_getLsbD_eq fun i hi => ?_
  rw [BitVec.getLsbD_and, BitVec.getLsbD_not, getLsbD_abstraction, getLsbD_abstraction,
    BitVec.getLsbD_zero, decide_eq_true hi, Bool.true_and]
  by_cases hc : ∃ l ∈ c, l.1 % 32 = i
  · obtain ⟨l, hl, hbit⟩ := hc
    obtain ⟨q, hq, hvar⟩ := h l hl
    have hd : ∃ q ∈ d, q.1 % 32 = i := ⟨q, hq, by rw [hvar]; exact hbit⟩
    rw [decide_eq_true hd, Bool.not_true, Bool.and_false]
  · rw [decide_eq_false hc, Bool.false_and]

theorem length_le_of_vars (hc : (c.map Prod.fst).Nodup) (h : ∀ l ∈ c, ∃ q ∈ d, q.1 = l.1) :
    c.length ≤ d.length := by
  have hsub : c.map Prod.fst ⊆ d.map Prod.fst := fun v hv => by
    obtain ⟨l, hl, rfl⟩ := List.mem_map.mp hv
    obtain ⟨q, hq, hvar⟩ := h l hl
    exact List.mem_map.mpr ⟨q, hq, hvar⟩
  simpa only [List.length_map] using (List.subperm_of_subset hc hsub).length_le

theorem subsumes_eq_loop (hc : (c.map Prod.fst).Nodup) (h : ∀ l ∈ c, ∃ q ∈ d, q.1 = l.1) :
    subsumes c d = subsumesLoop d none c := by
  unfold subsumes
  rw [if_neg]
  rintro (hlength | hbits)
  · exact absurd (length_le_of_vars hc h) (not_le.mpr hlength)
  · exact hbits (abstraction_le h)

theorem loop_of_subsumes {r : Option (Literal ℕ)} (h : subsumes c d = some r) :
    subsumesLoop d none c = some r := by
  unfold subsumes at h
  split_ifs at h
  exact h

/-! ### The loops -/

/-- A clause has a literal or its negation, and not both. -/
theorem search_spec (hd : (d.map Prod.fst).Nodup) (ret : Option (Literal ℕ)) :
    search p ret d =
      if p ∈ d then some ret else if ret = none ∧ negate p ∈ d then some (some p) else none := by
  induction d with
  | nil => simp [search]
  | cons q rest ih =>
    rw [List.map_cons, List.nodup_cons] at hd
    have hvar {l : Literal ℕ} (hl : l ∈ rest) : l.1 ≠ q.1 :=
      fun heq => hd.1 (heq ▸ List.mem_map_of_mem hl)
    unfold search
    by_cases hpq : p = q
    · subst hpq
      rw [if_pos rfl, if_pos List.mem_cons_self]
    rw [if_neg hpq]
    by_cases hneg : p = negate q
    · subst hneg
      have hrest : negate q ∉ rest := fun hmem => hvar hmem rfl
      have hmem : negate q ∉ q :: rest := fun h => (List.mem_cons.mp h).elim hpq hrest
      have hback : negate (negate q) ∈ q :: rest := by
        rw [negate_negate]
        exact List.mem_cons_self
      rw [if_neg hmem, ih hd.2, if_neg hrest]
      have hnot : negate (negate q) ∉ rest := fun h => hvar h rfl
      by_cases hret : ret = none
      · rw [if_pos ⟨hret, rfl⟩, if_pos ⟨hret, hback⟩]
      · rw [if_neg fun h => hret h.1, if_neg fun h => hret h.1, if_neg fun h => hret h.1]
    · have hneg' : negate p ≠ q := fun h => hneg (by rw [← h, negate_negate])
      rw [if_neg fun h => hneg h.2, ih hd.2]
      simp only [List.mem_cons, hpq, hneg', false_or]

section Cons

variable (hd : (d.map Prod.fst).Nodup) (rest : Clause ℕ)
include hd

theorem loop_cons_mem (ret : Option (Literal ℕ)) (hp : p ∈ d) :
    subsumesLoop d ret (p :: rest) = subsumesLoop d ret rest := by
  rw [subsumesLoop, search_spec hd, if_pos hp, Option.bind_some]

theorem loop_cons_negate (hp : p ∉ d) (hneg : negate p ∈ d) :
    subsumesLoop d none (p :: rest) = subsumesLoop d (some p) rest := by
  rw [subsumesLoop, search_spec hd, if_neg hp, if_pos ⟨rfl, hneg⟩, Option.bind_some]

theorem loop_cons_error (hp : p ∉ d) (hneg : negate p ∉ d) :
    subsumesLoop d none (p :: rest) = none := by
  rw [subsumesLoop, search_spec hd, if_neg hp, if_neg fun h => hneg h.2, Option.bind_none]

end Cons

/-- Once a literal has the opposite sign, the others have to be the same. -/
theorem loop_some (hd : (d.map Prod.fst).Nodup) (l : Literal ℕ) :
    subsumesLoop d (some l) c = if ∀ q ∈ c, q ∈ d then some (some l) else none := by
  induction c with
  | nil => simp [subsumesLoop]
  | cons p rest ih =>
    by_cases hp : p ∈ d
    · rw [loop_cons_mem hd rest (some l) hp, ih]
      simp only [List.forall_mem_cons, hp, true_and]
    · rw [subsumesLoop, search_spec hd, if_neg hp, if_neg (by simp), Option.bind_none, if_neg]
      exact fun h => hp (h p List.mem_cons_self)

theorem loop_undef_iff (hd : (d.map Prod.fst).Nodup) :
    subsumesLoop d none c = some none ↔ ∀ q ∈ c, q ∈ d := by
  induction c with
  | nil => simp [subsumesLoop]
  | cons p rest ih =>
    rw [List.forall_mem_cons]
    by_cases hp : p ∈ d
    · rw [loop_cons_mem hd rest none hp, ih, and_iff_right hp]
    · refine iff_of_false ?_ fun h => hp h.1
      by_cases hneg : negate p ∈ d
      · rw [loop_cons_negate hd rest hp hneg, loop_some hd]
        split_ifs <;> simp
      · rw [loop_cons_error hd rest hp hneg]
        exact (Option.some_ne_none none).symm

theorem loop_lit_iff (hc : (c.map Prod.fst).Nodup) (hd : (d.map Prod.fst).Nodup) :
    subsumesLoop d none c = some (some l) ↔
      l ∈ c ∧ negate l ∈ d ∧ ∀ q ∈ c, q ≠ l → q ∈ d := by
  induction c with
  | nil => simp [subsumesLoop]
  | cons p rest ih =>
    rw [List.map_cons, List.nodup_cons] at hc
    rw [List.mem_cons, List.forall_mem_cons]
    by_cases hp : p ∈ d
    · have hpl : negate l ∈ d → l ≠ p := fun hneg heq => not_tautology hd ⟨p, hp, heq ▸ hneg⟩
      rw [loop_cons_mem hd rest none hp, ih hc.2]
      constructor
      · rintro ⟨hl, hneg, hothers⟩
        exact ⟨Or.inr hl, hneg, fun _ => hp, hothers⟩
      · rintro ⟨hl, hneg, -, hothers⟩
        exact ⟨hl.resolve_left (hpl hneg), hneg, hothers⟩
    by_cases hneg : negate p ∈ d
    · rw [loop_cons_negate hd rest hp hneg, loop_some hd]
      have hne {q : Literal ℕ} (hq : q ∈ rest) : q ≠ p := by
        rintro rfl
        exact hc.1 (List.mem_map_of_mem hq)
      constructor
      · intro h
        split_ifs at h with hall
        obtain rfl : p = l := Option.some.inj (Option.some.inj h)
        exact ⟨Or.inl rfl, hneg, fun hself => absurd rfl hself, fun q hq _ => hall q hq⟩
      · rintro ⟨-, -, hfirst, hothers⟩
        obtain rfl : p = l := by
          by_contra hpl
          exact hp (hfirst hpl)
        rw [if_pos fun q hq => hothers q hq (hne hq)]
    · rw [loop_cons_error hd rest hp hneg]
      refine iff_of_false (Option.some_ne_none _).symm ?_
      rintro ⟨-, hnl, hfirst, -⟩
      by_cases hpl : p = l
      · exact hneg (hpl ▸ hnl)
      · exact hp (hfirst hpl)

/-! ### The answer -/

theorem subsumes_undef (hc : (c.map Prod.fst).Nodup) (hd : (d.map Prod.fst).Nodup) :
    subsumes c d = some none ↔ ∀ q ∈ c, q ∈ d := by
  refine ⟨fun h => (loop_undef_iff hd).mp (loop_of_subsumes h), fun h => ?_⟩
  rw [subsumes_eq_loop hc fun q hq => ⟨q, h q hq, rfl⟩]
  exact (loop_undef_iff hd).mpr h

theorem subsumes_lit (hc : (c.map Prod.fst).Nodup) (hd : (d.map Prod.fst).Nodup) :
    subsumes c d = some (some l) ↔ l ∈ c ∧ negate l ∈ d ∧ ∀ q ∈ c, q ≠ l → q ∈ d := by
  refine ⟨fun h => (loop_lit_iff hc hd).mp (loop_of_subsumes h), fun h => ?_⟩
  rw [subsumes_eq_loop hc fun q hq => ?_]
  · exact (loop_lit_iff hc hd).mpr h
  · by_cases hql : q = l
    · exact ⟨negate l, h.2.1, by rw [hql]; rfl⟩
    · exact ⟨q, h.2.2 q hq hql, rfl⟩

/-- The answer is lit_Undef for a part of the other clause, a literal where only this
one has the opposite sign there, and lit_Error otherwise. -/
theorem subsumes_iff (hc : (c.map Prod.fst).Nodup) (hd : (d.map Prod.fst).Nodup) :
    (subsumes c d = some none ↔ ∀ q ∈ c, q ∈ d) ∧
      (∀ l, subsumes c d = some (some l) ↔
        l ∈ c ∧ negate l ∈ d ∧ ∀ q ∈ c, q ≠ l → q ∈ d) ∧
      (subsumes c d = none ↔ ¬ (∀ q ∈ c, q ∈ d) ∧
        ¬ ∃ l ∈ c, negate l ∈ d ∧ ∀ q ∈ c, q ≠ l → q ∈ d) := by
  have hundef := subsumes_undef hc hd
  refine ⟨hundef, fun l => subsumes_lit hc hd, ?_⟩
  constructor
  · intro h
    refine ⟨fun hall => ?_, fun ⟨l, hl⟩ => ?_⟩
    · exact Option.some_ne_none _ ((hundef.mpr hall).symm.trans h)
    · exact Option.some_ne_none _ (((subsumes_lit hc hd).mpr hl).symm.trans h)
  · rintro ⟨hpart, hlit⟩
    match hresult : subsumes c d with
    | none => rfl
    | some none => exact absurd (hundef.mp hresult) hpart
    | some (some l) => exact absurd ⟨l, (subsumes_lit hc hd).mp hresult⟩ hlit

/-- x ∨ ¬ z is x ∨ y ∨ z in part, but for the sign of z. -/
theorem subsumes_iff_three :
    subsumes [(0, true), (2, false)] [(0, true), (33, true), (2, true)] =
      some (some (2, false)) :=
  ((subsumes_iff (by decide) (by decide)).2.1 (2, false)).mpr
    ⟨by decide, by decide, by decide⟩

/-! ### The clauses -/

def Distinct (f : Formula ℕ) : Prop := ∀ e ∈ f, (e.map Prod.fst).Nodup

instance (f : Formula ℕ) : Decidable (Distinct f) := inferInstanceAs (Decidable (∀ e ∈ f, _))

/-- A turn of backwardSubsumptionCheck, for any clause of the queue and any candidate. -/
def Turn (f g : Formula ℕ) : Prop :=
  ∃ c d rest, f.Perm (c :: d :: rest) ∧ g = checkCandidate c d ++ rest

theorem strengthened_holds {σ : Assignment ℕ} (hc : (c.map Prod.fst).Nodup) (hl : l ∈ c)
    (hothers : ∀ q ∈ c, q ≠ l → q ∈ d) (hcσ : ClauseHolds σ c) (hdσ : ClauseHolds σ d) :
    ClauseHolds σ (d.erase (negate l)) := by
  obtain ⟨q, hq, hholds⟩ := hdσ
  by_cases hql : q = negate l
  · -- then another literal of `c` holds, and `d` has it
    subst hql
    obtain ⟨p, hp, hp'⟩ := hcσ
    have hpl : p ≠ l := by
      rintro rfl
      exact (literalHolds_negate σ p).mp hholds hp'
    refine ⟨p, (List.mem_erase_of_ne fun heq => hpl ?_).mpr (hothers p hp hpl), hp'⟩
    exact eq_of_var hc hp hl (by rw [heq]; rfl)
  · exact ⟨q, (List.mem_erase_of_ne hql).mpr hq, hholds⟩

theorem checkCandidate_holds {σ : Assignment ℕ} (hc : (c.map Prod.fst).Nodup)
    (hd : (d.map Prod.fst).Nodup) (hcσ : ClauseHolds σ c) (hdσ : ClauseHolds σ d) :
    FormulaHolds σ (checkCandidate c d) := by
  unfold checkCandidate
  match hresult : subsumes c d with
  | none => simpa [FormulaHolds] using ⟨hcσ, hdσ⟩
  | some none => simpa [FormulaHolds] using hcσ
  | some (some l) =>
    obtain ⟨hl, -, hothers⟩ := (subsumes_lit hc hd).mp hresult
    have hstronger := strengthened_holds hc hl hothers hcσ hdσ
    simpa [FormulaHolds] using ⟨hcσ, hstronger⟩

theorem checkCandidate_true {M : Partial ℕ} (hc : (c.map Prod.fst).Nodup)
    (hd : (d.map Prod.fst).Nodup) (hM : FormulaTrue M (checkCandidate c d)) :
    ClauseTrue M c ∧ ClauseTrue M d := by
  unfold checkCandidate at hM
  match hresult : subsumes c d with
  | none =>
    rw [hresult] at hM
    exact ⟨hM c (by simp), hM d (by simp)⟩
  | some none =>
    rw [hresult] at hM
    have hcM := hM c (by simp)
    exact ⟨hcM, hcM.subset fun q hq => (subsumes_undef hc hd).mp hresult q hq⟩
  | some (some l) =>
    rw [hresult] at hM
    refine ⟨hM c (by simp), ?_⟩
    exact (hM (d.erase (negate l)) (by simp)).subset List.erase_subset

theorem mem_checkCandidate {e : Clause ℕ} (he : e ∈ checkCandidate c d) :
    e.Sublist c ∨ e.Sublist d := by
  unfold checkCandidate at he
  split at he
  · rcases List.mem_pair.mp he with rfl | rfl
    · exact Or.inl (List.Sublist.refl e)
    · exact Or.inr (List.Sublist.refl e)
  · exact Or.inl (List.mem_singleton.mp he ▸ List.Sublist.refl e)
  · rcases List.mem_pair.mp he with rfl | rfl
    · exact Or.inl (List.Sublist.refl e)
    · exact Or.inr List.erase_sublist

section Turns

variable {f g : Formula ℕ}

theorem Distinct.turn (hf : Distinct f) (h : Turn f g) : Distinct g := by
  obtain ⟨c, d, rest, hperm, rfl⟩ := h
  have hmem {e : Clause ℕ} (he : e ∈ c :: d :: rest) : (e.map Prod.fst).Nodup :=
    hf e (hperm.mem_iff.mpr he)
  intro e he
  rcases List.mem_append.mp he with he | he
  · rcases mem_checkCandidate he with hsub | hsub
    · exact (hmem (by simp)).sublist (hsub.map Prod.fst)
    · exact (hmem (by simp)).sublist (hsub.map Prod.fst)
  · exact hmem (by simp [he])

theorem turn_holds {σ : Assignment ℕ} (hf : Distinct f) (h : Turn f g) (hσ : FormulaHolds σ f) :
    FormulaHolds σ g := by
  obtain ⟨c, d, rest, hperm, rfl⟩ := h
  have hmem {e : Clause ℕ} (he : e ∈ c :: d :: rest) : e ∈ f := hperm.mem_iff.mpr he
  refine (formulaHolds_append σ _ _).mpr ⟨?_, fun e he => hσ e (hmem (by simp [he]))⟩
  exact checkCandidate_holds (hf c (hmem (by simp))) (hf d (hmem (by simp)))
    (hσ c (hmem (by simp))) (hσ d (hmem (by simp)))

theorem turn_true {M : Partial ℕ} (hf : Distinct f) (h : Turn f g) (hM : FormulaTrue M g) :
    FormulaTrue M f := by
  obtain ⟨c, d, rest, hperm, rfl⟩ := h
  have hmem {e : Clause ℕ} (he : e ∈ c :: d :: rest) : e ∈ f := hperm.mem_iff.mpr he
  obtain ⟨hchecked, hrest⟩ := formulaTrue_append.mp hM
  obtain ⟨hcM, hdM⟩ :=
    checkCandidate_true (hf c (hmem (by simp))) (hf d (hmem (by simp))) hchecked
  intro e he
  rcases List.mem_cons.mp (hperm.mem_iff.mp he) with rfl | he
  · exact hcM
  rcases List.mem_cons.mp he with rfl | he
  · exact hdM
  · exact hrest e he

/-- However many clauses are removed and strengthened, and in whatever order, the
models stay the same, and the run is one of the changes between eliminations. -/
theorem backwardSubsumption_history {n : ℕ} {f₀ : Formula ℕ} {gone : List ℕ} {calls : List Call}
    (h : History n f₀ f gone calls) (hf : Distinct f) (hrun : Relation.ReflTransGen Turn f g) :
    History n f₀ g gone calls ∧ Distinct g ∧ ∀ σ, FormulaHolds σ g ↔ FormulaHolds σ f := by
  induction hrun with
  | refl => exact ⟨h, hf, fun σ => Iff.rfl⟩
  | tail _ hturn ih =>
    obtain ⟨hhistory, hdistinct, hmodels⟩ := ih
    refine ⟨?_, hdistinct.turn hturn, fun σ => Iff.trans ?_ (hmodels σ)⟩
    · exact hhistory.change (fun σ => turn_holds hdistinct hturn)
        fun M _ => turn_true hdistinct hturn
    · refine ⟨fun hσ => ?_, turn_holds hdistinct hturn⟩
      exact formulaTrue_some.mp (turn_true hdistinct hturn (formulaTrue_some.mpr hσ))

/-- x ∨ ¬ z takes z from x ∨ y ∨ z, and what is left of it, x ∨ y, nothing more. -/
theorem backwardSubsumption_history_strengthened :
    History 3 [[(0, true), (2, false)], [(0, true), (1, true), (2, true)]]
      [[(0, true), (2, false)], [(0, true), (1, true)]] [] [] :=
  (backwardSubsumption_history History.start (by decide)
    (Relation.ReflTransGen.single ⟨_, _, [], List.Perm.refl _, by decide⟩)).1

end Turns

end Painless.Subsumption
