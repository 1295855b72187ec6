import Painless.Cnf
import Mathlib.Logic.Function.Basic

/-!
Partial assignments, and the reconstruction of the variables that a preprocessor
has removed from a formula. A reconstruction stack is run from its newest entry
to its oldest: an entry sets a literal, always or where the rest of a removed
clause is false.
-/
namespace Painless.PartialAssignment

open Cnf

variable {V : Type*}

abbrev Partial (V : Type*) := V → Option Bool

def IsTrue (M : Partial V) (l : Literal V) : Prop := M l.1 = some l.2

def IsFalse (M : Partial V) (l : Literal V) : Prop := M l.1 = some (!l.2)

def ClauseTrue (M : Partial V) (c : Clause V) : Prop := ∃ l ∈ c, IsTrue M l

def ClauseFalse (M : Partial V) (c : Clause V) : Prop := ∀ l ∈ c, IsFalse M l

def FormulaTrue (M : Partial V) (f : Formula V) : Prop := ∀ c ∈ f, ClauseTrue M c

instance (M : Partial V) (l : Literal V) : Decidable (IsTrue M l) :=
  inferInstanceAs (Decidable (_ = _))

instance (M : Partial V) (l : Literal V) : Decidable (IsFalse M l) :=
  inferInstanceAs (Decidable (_ = _))

instance (M : Partial V) (c : Clause V) : Decidable (ClauseTrue M c) :=
  inferInstanceAs (Decidable (∃ l ∈ c, IsTrue M l))

instance (M : Partial V) (c : Clause V) : Decidable (ClauseFalse M c) :=
  inferInstanceAs (Decidable (∀ l ∈ c, IsFalse M l))

instance (M : Partial V) (f : Formula V) : Decidable (FormulaTrue M f) :=
  inferInstanceAs (Decidable (∀ c ∈ f, ClauseTrue M c))

theorem isTrue_negate {M : Partial V} {l : Literal V} :
    IsTrue M (negate l) ↔ IsFalse M l := Iff.rfl

theorem isFalse_negate {M : Partial V} {l : Literal V} :
    IsFalse M (negate l) ↔ IsTrue M l := by
  simp [IsFalse, IsTrue, negate]

theorem IsTrue.not_isFalse {M : Partial V} {l : Literal V} (h : IsTrue M l) :
    ¬ IsFalse M l := by
  intro hfalse
  have hb := Option.some.inj (h.symm.trans hfalse)
  cases hl : l.2 <;> simp [hl] at hb

theorem isTrue_or_isFalse {M : Partial V} {l : Literal V} (h : M l.1 ≠ none) :
    IsTrue M l ∨ IsFalse M l := by
  obtain ⟨b, hb⟩ := Option.ne_none_iff_exists'.mp h
  rw [IsTrue, IsFalse, hb]
  cases b <;> cases l.2 <;> simp

theorem eq_none_of_not {M : Partial V} {l : Literal V} (htrue : ¬ IsTrue M l)
    (hfalse : ¬ IsFalse M l) : M l.1 = none := by
  by_contra h
  exact (isTrue_or_isFalse h).elim htrue hfalse

theorem clauseTrue_congr {M N : Partial V} {c : Clause V}
    (h : ∀ l ∈ c, M l.1 = N l.1) : ClauseTrue M c ↔ ClauseTrue N c := by
  constructor
  · rintro ⟨l, hl, htrue⟩
    exact ⟨l, hl, (h l hl).symm.trans htrue⟩
  · rintro ⟨l, hl, htrue⟩
    exact ⟨l, hl, (h l hl).trans htrue⟩

theorem clauseFalse_congr {M N : Partial V} {c : Clause V}
    (h : ∀ l ∈ c, M l.1 = N l.1) : ClauseFalse M c ↔ ClauseFalse N c := by
  constructor
  · exact fun hc l hl => (h l hl).symm.trans (hc l hl)
  · exact fun hc l hl => (h l hl).trans (hc l hl)

theorem formulaTrue_append {M : Partial V} {f g : Formula V} :
    FormulaTrue M (f ++ g) ↔ FormulaTrue M f ∧ FormulaTrue M g := by
  simp only [FormulaTrue, List.mem_append, or_imp, forall_and]

theorem formulaTrue_cons {M : Partial V} {c : Clause V} {f : Formula V} :
    FormulaTrue M (c :: f) ↔ ClauseTrue M c ∧ FormulaTrue M f := by
  simp only [FormulaTrue, List.mem_cons, forall_eq_or_imp]

theorem FormulaTrue.subset {M : Partial V} {f g : Formula V} (hf : FormulaTrue M f)
    (h : g ⊆ f) : FormulaTrue M g := fun c hc => hf c (h hc)

theorem ClauseTrue.subset {M : Partial V} {c d : Clause V} (hc : ClauseTrue M c)
    (h : c ⊆ d) : ClauseTrue M d := by
  obtain ⟨l, hl, htrue⟩ := hc
  exact ⟨l, h hl, htrue⟩

/-- A clause that is assigned completely is true or false. -/
theorem clauseTrue_of_total {M : Partial V} {c : Clause V}
    (htotal : ∀ l ∈ c, M l.1 ≠ none) (h : ¬ ClauseFalse M c) : ClauseTrue M c := by
  simp only [ClauseFalse, not_forall] at h
  obtain ⟨l, hl, hfalse⟩ := h
  exact ⟨l, hl, (isTrue_or_isFalse (htotal l hl)).resolve_right hfalse⟩

/-- The true literal of a clause, past the literals known to be false. -/
theorem ClauseTrue.filter {M : Partial V} {c : Clause V} {p : Literal V → Bool}
    (hc : ClauseTrue M c) (h : ∀ l ∈ c, p l = false → IsFalse M l) :
    ClauseTrue M (c.filter p) := by
  obtain ⟨l, hl, htrue⟩ := hc
  refine ⟨l, List.mem_filter.mpr ⟨hl, ?_⟩, htrue⟩
  by_contra hp
  exact htrue.not_isFalse (h l hl ((Bool.not_eq_true _).mp hp))

/-! ### Total assignments -/

/-- The unassigned variables are set to false. -/
def complete (M : Partial V) : Assignment V := fun v => (M v).getD false

theorem literalHolds_complete {M : Partial V} {l : Literal V} (h : IsTrue M l) :
    LiteralHolds (complete M) l := by
  rw [LiteralHolds, complete, show M l.1 = some l.2 from h]
  rfl

theorem formulaHolds_complete {M : Partial V} {f : Formula V} (h : FormulaTrue M f) :
    FormulaHolds (complete M) f := by
  intro c hc
  obtain ⟨l, hl, htrue⟩ := h c hc
  exact ⟨l, hl, literalHolds_complete htrue⟩

/-! ### Tautologies -/

def Tautology (c : Clause V) : Prop := ∃ l ∈ c, negate l ∈ c

instance [DecidableEq V] (c : Clause V) : Decidable (Tautology c) :=
  inferInstanceAs (Decidable (∃ l ∈ c, negate l ∈ c))

theorem not_tautology_of_subset {c d : Clause V} (hd : ¬ Tautology d) (h : c ⊆ d) :
    ¬ Tautology c := by
  rintro ⟨l, hl, hnegate⟩
  exact hd ⟨l, h hl, h hnegate⟩

/-- The literal is set always, or where the rest of its clause is false. -/
inductive Entry (V : Type*) where
  | always (l : Literal V)
  | ifFalse (l : Literal V) (rest : Clause V)

namespace Entry

def literal : Entry V → Literal V
  | .always l => l
  | .ifFalse l _ => l

def rest : Entry V → Clause V
  | .always _ => []
  | .ifFalse _ rest => rest

/-- The clause that an entry makes true if its rest is false. -/
def clause : Entry V → Option (Clause V)
  | .always _ => none
  | .ifFalse l rest => some (l :: rest)

variable [DecidableEq V]

def apply (e : Entry V) (M : Partial V) : Partial V :=
  if ClauseFalse M e.rest then Function.update M e.literal.1 (some e.literal.2) else M

theorem apply_always (l : Literal V) (M : Partial V) :
    (Entry.always l).apply M = Function.update M l.1 (some l.2) :=
  if_pos fun _ h => absurd h List.not_mem_nil

theorem apply_ifFalse (l : Literal V) (rest : Clause V) (M : Partial V) :
    (Entry.ifFalse l rest).apply M =
      if ClauseFalse M rest then Function.update M l.1 (some l.2) else M := rfl

theorem apply_of_ne (e : Entry V) (M : Partial V) {v : V} (h : e.literal.1 ≠ v) :
    e.apply M v = M v := by
  unfold apply
  split
  · exact Function.update_of_ne h.symm ..
  · rfl

theorem apply_self_ne_none (e : Entry V) {M : Partial V} {v : V} (h : M v ≠ none) :
    e.apply M v ≠ none := by
  by_cases hv : e.literal.1 = v
  · unfold apply
    split
    · rw [hv, Function.update_self]
      simp
    · exact h
  · rwa [apply_of_ne e M hv]

end Entry

/-- The removed clauses of a stack. -/
def saved (es : List (Entry V)) : Formula V := es.filterMap Entry.clause

theorem saved_append (es fs : List (Entry V)) : saved (es ++ fs) = saved es ++ saved fs :=
  List.filterMap_append

variable [DecidableEq V]

def reconstruct : List (Entry V) → Partial V → Partial V
  | [], M => M
  | e :: es, M => reconstruct es (e.apply M)

theorem reconstruct_append (es fs : List (Entry V)) (M : Partial V) :
    reconstruct (es ++ fs) M = reconstruct fs (reconstruct es M) := by
  induction es generalizing M with
  | nil => rfl
  | cons e es ih => exact ih (e.apply M)

theorem reconstruct_of_ne {es : List (Entry V)} {M : Partial V} {v : V}
    (h : ∀ e ∈ es, e.literal.1 ≠ v) : reconstruct es M v = M v := by
  induction es generalizing M with
  | nil => rfl
  | cons e es ih =>
    rw [List.forall_mem_cons] at h
    exact (ih h.2).trans (e.apply_of_ne M h.1)

/-- Nothing that is assigned becomes unassigned. -/
theorem reconstruct_ne_none {es : List (Entry V)} {M : Partial V} {v : V}
    (h : M v ≠ none) : reconstruct es M v ≠ none := by
  induction es generalizing M with
  | nil => exact h
  | cons e es ih => exact ih (e.apply_self_ne_none h)

/-- The clauses of one literal: it is set if the rest of one of them is false. -/
theorem reconstruct_group (x : Literal V) {rests : List (Clause V)}
    (h : ∀ rest ∈ rests, ∀ l ∈ rest, l.1 ≠ x.1) (M : Partial V) :
    reconstruct (rests.map (.ifFalse x)) M x.1 =
      if ∃ rest ∈ rests, ClauseFalse M rest then some x.2 else M x.1 := by
  induction rests generalizing M with
  | nil => simp [reconstruct]
  | cons rest rests ih =>
    rw [List.forall_mem_cons] at h
    have hsame : ∀ r ∈ rests,
        (ClauseFalse ((Entry.ifFalse x rest).apply M) r ↔ ClauseFalse M r) := by
      intro r hr
      refine clauseFalse_congr fun l hl => Entry.apply_of_ne _ M ?_
      exact (h.2 r hr l hl).symm
    have hrests : (∃ r ∈ rests, ClauseFalse ((Entry.ifFalse x rest).apply M) r) ↔
        ∃ r ∈ rests, ClauseFalse M r :=
      exists_congr fun r => and_congr_right fun hr => hsame r hr
    rw [List.map_cons, reconstruct, ih h.2, if_congr hrests rfl rfl]
    simp only [List.mem_cons, exists_eq_or_imp]
    by_cases hrest : ClauseFalse M rest
    · have happly : (Entry.ifFalse x rest).apply M x.1 = some x.2 := by
        rw [Entry.apply_ifFalse, if_pos hrest, Function.update_self]
      rw [happly, ite_self, if_pos (Or.inl hrest)]
    · have happly : (Entry.ifFalse x rest).apply M = M := by
        rw [Entry.apply_ifFalse, if_neg hrest]
      rw [happly]
      simp only [hrest, false_or]

end Painless.PartialAssignment
