import Mathlib.Data.Multiset.ZeroCons
import Mathlib.Data.Set.Basic
import Mathlib.Logic.Relation

/-!
Searching a space by division: a multiset of regions still to be searched, each
of which may be divided by a property of its points, or closed once no goal
point lies in it. The goal points stay covered by the open regions, so a search
with no region left has shown that there is no goal point.
-/
namespace Painless.SearchCover

variable {A : Type*} {goal : Set A}

/-- Every goal point lies in a region that is still open. -/
def Covers (goal : Set A) (regions : Multiset (Set A)) : Prop :=
  ∀ a ∈ goal, ∃ r ∈ regions, a ∈ r

inductive Step (goal : Set A) : Multiset (Set A) → Multiset (Set A) → Prop
  | divide (r p : Set A) (rest : Multiset (Set A)) :
      Step goal (r ::ₘ rest) ((r ∩ p) ::ₘ (r ∩ pᶜ) ::ₘ rest)
  | close (r : Set A) (rest : Multiset (Set A)) (hr : ∀ a ∈ goal, a ∉ r) :
      Step goal (r ::ₘ rest) rest

theorem covers_root {root : Set A} (h : goal ⊆ root) : Covers goal {root} := by
  intro a ha
  exact ⟨root, Multiset.mem_singleton_self root, h ha⟩

theorem Covers.divide {r : Set A} {rest : Multiset (Set A)}
    (h : Covers goal (r ::ₘ rest)) (p : Set A) :
    Covers goal ((r ∩ p) ::ₘ (r ∩ pᶜ) ::ₘ rest) := by
  intro a ha
  obtain ⟨q, hq, haq⟩ := h a ha
  rcases Multiset.mem_cons.mp hq with rfl | hrest
  · by_cases hp : a ∈ p
    · exact ⟨q ∩ p, by simp, haq, hp⟩
    · exact ⟨q ∩ pᶜ, by simp, haq, hp⟩
  · exact ⟨q, by simp [hrest], haq⟩

theorem Covers.close {r : Set A} {rest : Multiset (Set A)}
    (h : Covers goal (r ::ₘ rest)) (hr : ∀ a ∈ goal, a ∉ r) :
    Covers goal rest := by
  intro a ha
  obtain ⟨q, hq, haq⟩ := h a ha
  rcases Multiset.mem_cons.mp hq with rfl | hrest
  · exact absurd haq (hr a ha)
  · exact ⟨q, hrest, haq⟩

theorem Covers.step {m m' : Multiset (Set A)} (h : Covers goal m)
    (hs : Step goal m m') : Covers goal m' := by
  cases hs with
  | divide r p rest => exact h.divide p
  | close r rest hr => exact h.close hr

theorem Covers.steps {m m' : Multiset (Set A)} (h : Covers goal m)
    (hs : Relation.ReflTransGen (Step goal) m m') : Covers goal m' := by
  induction hs with
  | refl => exact h
  | tail _ hstep ih => exact ih.step hstep

/-- A search that has closed its last region has refuted the goal. -/
theorem Covers.exhausted (h : Covers goal 0) : goal = ∅ := by
  apply Set.eq_empty_of_forall_notMem
  intro a ha
  obtain ⟨r, hr, _⟩ := h a ha
  exact Multiset.notMem_zero r hr

end Painless.SearchCover
