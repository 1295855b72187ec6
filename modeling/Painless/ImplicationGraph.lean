import Painless.Cnf
import Mathlib.Data.List.Basic

/-!
Literals in the order in which they became true, where a clause may have implied
a literal from those before it. A set of entries is determined by those of its
members that no clause implies: an assignment that satisfies the clauses and
these members satisfies all the others, and it is false to none of them. Cuts
through a conflict give clauses that are true wherever the clauses are.
-/
namespace Painless.ImplicationGraph

open Cnf

variable {V : Type*}

/-- The clause implies the literal from those of the list. -/
structure Implies (before : List (Literal V)) (c : Clause V) (l : Literal V) : Prop where
  mem : l ∈ c
  others : ∀ q ∈ c, q ≠ l → negate q ∈ before

/-- In the set, the clause implies the literal from members of the set. -/
structure ImpliesIn (C : Literal V → Prop) (before : List (Literal V)) (c : Clause V)
    (l : Literal V) : Prop extends Implies before c l where
  closed : ∀ q ∈ c, q ≠ l → C (negate q)

theorem literalHolds_of_others {c : Clause V} {l : Literal V} {σ : Assignment V}
    (hc : ClauseHolds σ c) (hothers : ∀ q ∈ c, q ≠ l → LiteralHolds σ (negate q)) :
    LiteralHolds σ l := by
  obtain ⟨q, hq, hholds⟩ := hc
  by_cases heq : q = l
  · rwa [← heq]
  · exact absurd hholds ((literalHolds_negate σ q).mp (hothers q hq heq))

/-- A member of the set holds if each does that no true clause implies. -/
theorem holds_of_closed {trail : List (Literal V)} {C : Literal V → Prop} {σ : Assignment V}
    (hclosed : ∀ (i : ℕ) l, trail[i]? = some l → C l →
      LiteralHolds σ l ∨ ∃ c, ClauseHolds σ c ∧ ImpliesIn C (trail.take i) c l) :
    ∀ l ∈ trail, C l → LiteralHolds σ l := by
  have hindex : ∀ (i : ℕ) l, trail[i]? = some l → C l → LiteralHolds σ l := by
    intro i
    induction i using Nat.strong_induction_on with
    | h i ih =>
      intro l hl hC
      rcases hclosed i l hl hC with hholds | ⟨c, hc, himplies⟩
      · exact hholds
      · refine literalHolds_of_others hc fun q hq hne => ?_
        obtain ⟨j, hj, hget⟩ := List.getElem_of_mem (himplies.others q hq hne)
        have hlt : j < i := lt_of_lt_of_le hj (List.length_take_le i trail)
        refine ih j hlt _ ?_ (himplies.closed q hq hne)
        rw [← hget, List.getElem_take]
        exact List.getElem?_eq_getElem _
  intro l hl hC
  obtain ⟨i, hi, rfl⟩ := List.getElem_of_mem hl
  exact hindex i _ (List.getElem?_eq_getElem hi) hC

/-- The cut below a false clause: where the clauses are true, one of the literals
of the cut is. -/
theorem clauseHolds_of_cut {trail : List (Literal V)} {C : Literal V → Prop}
    {σ : Assignment V} {confl cut : Clause V} (hconfl : ClauseHolds σ confl)
    (hmem : ∀ q ∈ confl, negate q ∈ trail ∧ C (negate q))
    (hclosed : ∀ (i : ℕ) l, trail[i]? = some l → C l →
      LiteralHolds σ l ∨ negate l ∈ cut ∨
        ∃ c, ClauseHolds σ c ∧ ImpliesIn C (trail.take i) c l) :
    ClauseHolds σ cut := by
  by_contra hcut
  obtain ⟨q, hq, hholds⟩ := hconfl
  obtain ⟨htrail, hC⟩ := hmem q hq
  refine (literalHolds_negate σ q).mp (holds_of_closed ?_ _ htrail hC) hholds
  intro i l hl hCl
  rcases hclosed i l hl hCl with h | h | h
  · exact Or.inl h
  · refine Or.inl ?_
    by_contra hl'
    exact hcut ⟨negate l, h, (literalHolds_negate σ l).mpr hl'⟩
  · exact Or.inr h

end Painless.ImplicationGraph
