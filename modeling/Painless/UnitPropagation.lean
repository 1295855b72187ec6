import Painless.ImplicationGraph

/-!
What unit propagation derives from some clauses and some literals, in whatever
order it goes. A trail on which every later entry is implied by a clause holds only
such literals; a set that no clause extends holds all of them.
-/
namespace Painless.UnitPropagation

open Cnf ImplicationGraph

variable {V : Type*}

inductive Derived (F : Clause V → Prop) (S : Literal V → Prop) : Literal V → Prop
  | start {l : Literal V} (hl : S l) : Derived F S l
  | unit {c : Clause V} {l : Literal V} (hc : F c) (hl : l ∈ c)
      (hothers : ∀ q ∈ c, q ≠ l → Derived F S (negate q)) : Derived F S l

variable {F : Clause V → Prop} {S : Literal V → Prop}

/-- A clause all of whose literals are derived to be false. -/
def Refuted (F : Clause V → Prop) (S : Literal V → Prop) : Prop :=
  ∃ c, F c ∧ ∀ q ∈ c, Derived F S (negate q)

theorem derived_of_trail {trail : List (Literal V)}
    (h : ∀ (i : ℕ) l, trail[i]? = some l → S l ∨ ∃ c, F c ∧ Implies (trail.take i) c l) :
    ∀ l ∈ trail, Derived F S l := by
  have hindex : ∀ (i : ℕ) l, trail[i]? = some l → Derived F S l := by
    intro i
    induction i using Nat.strong_induction_on with
    | h i ih =>
      intro l hl
      rcases h i l hl with hS | ⟨c, hc, himplies⟩
      · exact .start hS
      · refine .unit hc himplies.mem fun q hq hne => ?_
        obtain ⟨j, hj, hget⟩ := List.getElem_of_mem (himplies.others q hq hne)
        refine ih j (lt_of_lt_of_le hj (List.length_take_le i trail)) _ ?_
        rw [← hget, List.getElem_take]
        exact List.getElem?_eq_getElem _
  intro l hl
  obtain ⟨i, hi, rfl⟩ := List.getElem_of_mem hl
  exact hindex i _ (List.getElem?_eq_getElem hi)

/-- The derived literals are the least set that no clause extends. -/
theorem Derived.mem_of_closed {T : Literal V → Prop} {l : Literal V} (hl : Derived F S l)
    (hstart : ∀ l, S l → T l)
    (hclosed : ∀ c, F c → ∀ l ∈ c, (∀ q ∈ c, q ≠ l → T (negate q)) → T l) : T l := by
  induction hl with
  | start hl => exact hstart _ hl
  | unit hc hl _ ih => exact hclosed _ hc _ hl ih

end Painless.UnitPropagation
