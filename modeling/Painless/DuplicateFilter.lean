import Mathlib.Algebra.Ring.Int.Defs
import Mathlib.Data.Finset.Basic
import Mathlib.Data.List.Nodup
import Painless.MachineIntegers

/-!
The duplicate filter: exact on unit clauses, a Bloom filter with four positions
on the others. A clause that has been registered is refused ever after, whatever
is registered in between, so the clauses that one filter admits are pairwise
different and none of them had been registered before.
-/
namespace Painless.DuplicateFilter

open MachineIntegers

def NUM_BITS : ℕ := 26843543

def NUM_PRIMES : ℤ := 12

def primes : List ℕ :=
  [2038072819, 2038073287, 2038073761, 2038074317, 2038072823, 2038073321, 2038073767,
    2038074319, 2038072847, 2038073341, 2038073789, 2038074329]

/-- `which * lit` is a product of two `int`, and `lit * primes[..]` one of 32-bit
unsigned numbers. -/
def literalHash (which lit : ℤ) : ℕ :=
  unsignedOf
    (lit * (primes.getD (Int.tmod (intOf (which * lit)) NUM_PRIMES).natAbs 0 : ℕ))

/-- The first literal is skipped. -/
def commutativeHashFunction (cls : List ℤ) (which : ℤ) : ℕ :=
  ((cls.drop 1).foldl (fun res lit => res ^^^ literalHash which lit) 0) % NUM_BITS

structure ClauseFilter where
  s1 : Finset ℕ
  unitSet : Finset ℤ

def ClauseFilter.empty : ClauseFilter := ⟨∅, ∅⟩

def positions (cls : List ℤ) : Finset ℕ :=
  {commutativeHashFunction cls 1, commutativeHashFunction cls 2,
    commutativeHashFunction cls 3, commutativeHashFunction cls 4}

namespace ClauseFilter

/-- Whether the clause is new to the filter, and the filter afterwards. -/
def registerClause (f : ClauseFilter) : List ℤ → Bool × ClauseFilter
  | [lit] =>
    if lit ∈ f.unitSet then (false, f) else (true, { f with unitSet := insert lit f.unitSet })
  | cls =>
    if positions cls ⊆ f.s1 then (false, f) else (true, { f with s1 := positions cls ∪ f.s1 })

/-- The filter refuses the clause. -/
def Registered (f : ClauseFilter) (cls : List ℤ) : Prop := (f.registerClause cls).1 = false

instance (f : ClauseFilter) (cls : List ℤ) : Decidable (f.Registered cls) :=
  inferInstanceAs (Decidable (_ = _))

theorem registerClause_unit (f : ClauseFilter) (lit : ℤ) :
    f.registerClause [lit] = if lit ∈ f.unitSet then (false, f) else
      (true, { f with unitSet := insert lit f.unitSet }) := rfl

theorem registerClause_of_length {cls : List ℤ} (h : cls.length ≠ 1) (f : ClauseFilter) :
    f.registerClause cls = if positions cls ⊆ f.s1 then (false, f) else
      (true, { f with s1 := positions cls ∪ f.s1 }) := by
  match cls, h with
  | [], _ => rfl
  | _ :: _ :: _, _ => rfl

theorem registered_unit (f : ClauseFilter) (lit : ℤ) :
    f.Registered [lit] ↔ lit ∈ f.unitSet := by
  rw [Registered, registerClause_unit]
  split_ifs with h <;> simp [h]

theorem registered_of_length {cls : List ℤ} (h : cls.length ≠ 1) (f : ClauseFilter) :
    f.Registered cls ↔ positions cls ⊆ f.s1 := by
  rw [Registered, registerClause_of_length h]
  split_ifs with hs <;> simp [hs]

/-- The bits and the units of a filter are only ever added to. -/
theorem subset_registerClause (f : ClauseFilter) (cls : List ℤ) :
    f.s1 ⊆ (f.registerClause cls).2.s1 ∧ f.unitSet ⊆ (f.registerClause cls).2.unitSet := by
  unfold registerClause
  split <;> split_ifs <;> simp

theorem Registered.mono {f g : ClauseFilter} (hs : f.s1 ⊆ g.s1) (hu : f.unitSet ⊆ g.unitSet)
    {cls : List ℤ} (h : f.Registered cls) : g.Registered cls := by
  by_cases hlen : cls.length = 1
  · obtain ⟨lit, rfl⟩ := List.length_eq_one_iff.mp hlen
    exact (registered_unit g lit).mpr (hu ((registered_unit f lit).mp h))
  · exact (registered_of_length hlen g).mpr (((registered_of_length hlen f).mp h).trans hs)

theorem Registered.register {f : ClauseFilter} {cls : List ℤ} (h : f.Registered cls)
    (other : List ℤ) : (f.registerClause other).2.Registered cls :=
  h.mono (subset_registerClause f other).1 (subset_registerClause f other).2

theorem registered_self (f : ClauseFilter) (cls : List ℤ) :
    (f.registerClause cls).2.Registered cls := by
  by_cases hlen : cls.length = 1
  · obtain ⟨lit, rfl⟩ := List.length_eq_one_iff.mp hlen
    rw [registered_unit, registerClause_unit]
    split_ifs with h <;> simp [h]
  · rw [registered_of_length hlen, registerClause_of_length hlen]
    split_ifs with h
    · exact h
    · exact Finset.subset_union_left

end ClauseFilter

section Admission

open ClauseFilter

variable {C : Type*} (lits : C → List ℤ)

/-- The clauses that the filter takes for new, each at its turn. -/
def sift : ClauseFilter → List C → List C × ClauseFilter
  | f, [] => ([], f)
  | f, cls :: rest =>
    let answer := f.registerClause (lits cls)
    let more := sift answer.2 rest
    (if answer.1 then cls :: more.1 else more.1, more.2)

variable {lits}

theorem sift_sublist (f : ClauseFilter) (cs : List C) : (sift lits f cs).1.Sublist cs := by
  induction cs generalizing f with
  | nil => exact List.Sublist.refl _
  | cons c rest ih =>
    unfold sift
    dsimp only
    split_ifs
    · exact (ih _).cons_cons c
    · exact (ih _).cons c

theorem ClauseFilter.Registered.sift {f : ClauseFilter} {cls : List ℤ}
    (h : f.Registered cls) (cs : List C) : (sift lits f cs).2.Registered cls := by
  induction cs generalizing f with
  | nil => exact h
  | cons c rest ih => exact ih (h.register (lits c))

/-- Whatever was presented is registered, admitted or not. -/
theorem registered_sift (f : ClauseFilter) {cs : List C} {c : C} (hc : c ∈ cs) :
    (sift lits f cs).2.Registered (lits c) := by
  induction cs generalizing f with
  | nil => simp at hc
  | cons d rest ih =>
    rcases List.mem_cons.mp hc with rfl | hc
    · exact (registered_self f (lits c)).sift rest
    · exact ih _ hc

theorem not_registered_of_sift {f : ClauseFilter} {cs : List C} {c : C}
    (hc : c ∈ (sift lits f cs).1) : ¬ f.Registered (lits c) := by
  induction cs generalizing f with
  | nil => simp [sift] at hc
  | cons d rest ih =>
    have hrest (h : c ∈ (sift lits (f.registerClause (lits d)).2 rest).1) :
        ¬ f.Registered (lits c) := fun hreg => ih h (hreg.register (lits d))
    unfold sift at hc
    dsimp only at hc
    split_ifs at hc with hanswer
    · rcases List.mem_cons.mp hc with rfl | hc
      · simp [Registered, hanswer]
      · exact hrest hc
    · exact hrest hc

theorem sift_nodup (f : ClauseFilter) (cs : List C) :
    ((sift lits f cs).1.map lits).Nodup := by
  induction cs generalizing f with
  | nil => exact List.nodup_nil
  | cons c rest ih =>
    unfold sift
    dsimp only
    split_ifs
    · refine List.nodup_cons.mpr ⟨fun hmem => ?_, ih _⟩
      obtain ⟨d, hd, heq⟩ := List.mem_map.mp hmem
      exact not_registered_of_sift hd (heq ▸ registered_self f (lits c))
    · exact ih _

theorem sift_append (f : ClauseFilter) (cs ds : List C) :
    sift lits f (cs ++ ds) = ((sift lits f cs).1 ++ (sift lits (sift lits f cs).2 ds).1,
      (sift lits (sift lits f cs).2 ds).2) := by
  induction cs generalizing f with
  | nil => rfl
  | cons c rest ih =>
    simp only [List.cons_append, sift, ih]
    split_ifs <;> rfl

end Admission

end Painless.DuplicateFilter
