import Mathlib.Algebra.BigOperators.Group.Multiset.Basic
import Mathlib.Data.Multiset.AddSub
import Mathlib.Logic.Function.Basic

/-!
Reference-counted cells. A program's calls to its reference counter are kept as
a list, apart from the program's data, and run on a heap of counters. The heap
that counts a multiset of holders is the one in which every counter is the
number of its holders; the rules below say how the calls move from one such
heap to the next.
-/
namespace Painless.RefCount

variable {P : Type*} [DecidableEq P]

/-- The counters of the live cells, and whether a freed cell has been used. -/
structure Heap (P : Type*) where
  nbRefs : P → Option ℤ
  fault : Bool

inductive Call (P : Type*)
  | alloc (p : P)
  | increase (p : P) (refs : ℕ)
  | release (p : P)

/-- One call. An allocation is only possible at an address that is not live;
the other two calls are a fault there. -/
def Call.run (h : Heap P) : Call P → Option (Heap P)
  | .alloc p =>
    match h.nbRefs p with
    | none => some { h with nbRefs := Function.update h.nbRefs p (some 1) }
    | some _ => none
  | .increase p refs =>
    match h.nbRefs p with
    | none => some { h with fault := true }
    | some n => some { h with nbRefs := Function.update h.nbRefs p (some (n + refs)) }
  | .release p =>
    match h.nbRefs p with
    | none => some { h with fault := true }
    | some n =>
      some { h with
        nbRefs := Function.update h.nbRefs p (if n - 1 ≤ 0 then none else some (n - 1)) }

def runCalls : Heap P → List (Call P) → Option (Heap P)
  | h, [] => some h
  | h, c :: rest => (c.run h).bind fun h' => runCalls h' rest

theorem runCalls_append (h : Heap P) (cs ds : List (Call P)) :
    runCalls h (cs ++ ds) = (runCalls h cs).bind fun h' => runCalls h' ds := by
  induction cs generalizing h with
  | nil => rfl
  | cons c rest ih =>
    simp only [List.cons_append, runCalls, Option.bind_assoc]
    exact congrArg _ (funext fun h' => ih h')

/-- New cells have one reference, and the live cells keep theirs. -/
theorem nbRefs_of_allocs {ps : List P} {h h' : Heap P}
    (hrun : runCalls h (ps.map Call.alloc) = some h') :
    (∀ p ∈ ps, h'.nbRefs p = some 1) ∧
      ∀ p n, h.nbRefs p = some n → h'.nbRefs p = some n := by
  induction ps generalizing h with
  | nil =>
    obtain rfl : h = h' := Option.some.inj hrun
    simp
  | cons q rest ih =>
    obtain ⟨g, hg, hrest⟩ := Option.bind_eq_some_iff.mp hrun
    cases hq : h.nbRefs q with
    | some n => simp [Call.run, hq] at hg
    | none =>
      obtain ⟨hnew, hkeep⟩ := ih hrest
      obtain rfl : { h with nbRefs := Function.update h.nbRefs q (some 1) } = g := by
        simpa [Call.run, hq] using hg
      refine ⟨fun p hp => ?_, fun p n hp => ?_⟩
      · rcases List.mem_cons.mp hp with rfl | hp
        · exact hkeep p 1 (Function.update_self ..)
        · exact hnew p hp
      · have hne : p ≠ q := by
          rintro rfl
          simp [hq] at hp
        refine hkeep p n ?_
        dsimp only
        rw [Function.update_of_ne hne, hp]

/-- The heap in which every counter is the number of holders of its cell. -/
def counting (held : Multiset P) : Heap P where
  nbRefs p := if held.count p = 0 then none else some (held.count p)
  fault := false

theorem counting_nbRefs_of_notMem {held : Multiset P} {p : P} (hp : p ∉ held) :
    (counting held).nbRefs p = none := by
  simp [counting, hp]

theorem counting_nbRefs_of_mem {held : Multiset P} {p : P} (hp : p ∈ held) :
    (counting held).nbRefs p = some (held.count p : ℤ) := by
  simp [counting, hp]

/-- The calls take the heap that counts `held` to the one that counts `held'`. -/
def Moves (calls : List (Call P)) (held held' : Multiset P) : Prop :=
  runCalls (counting held) calls = some (counting held')

namespace Moves

theorem nil (held : Multiset P) : Moves [] held held := rfl

theorem of_eq {cs : List (Call P)} {m₁ m₂ n₁ n₂ : Multiset P} (h : Moves cs m₁ m₂)
    (h₁ : n₁ = m₁) (h₂ : m₂ = n₂) : Moves cs n₁ n₂ := by
  rw [h₁, ← h₂]
  exact h

theorem append {cs ds : List (Call P)} {m₁ m₂ m₃ : Multiset P} (hcs : Moves cs m₁ m₂)
    (hds : Moves ds m₂ m₃) : Moves (cs ++ ds) m₁ m₃ := by
  unfold Moves at *
  rw [runCalls_append, hcs, Option.bind_some, hds]

theorem alloc {p : P} {m : Multiset P} (hp : p ∉ m) : Moves [.alloc p] m (p ::ₘ m) := by
  have hcells : Function.update (counting m).nbRefs p (some 1) =
      (counting (p ::ₘ m)).nbRefs := by
    funext q
    rcases eq_or_ne q p with rfl | hq
    · simp [counting, Multiset.count_eq_zero_of_notMem hp]
    · simp [counting, hq]
  simp only [Moves, runCalls, Call.run, counting_nbRefs_of_notMem hp, Option.bind_some]
  exact congrArg some (congrArg (Heap.mk · false) hcells)

theorem increase {p : P} {m : Multiset P} (hp : p ∈ m) (refs : ℕ) :
    Moves [.increase p refs] m (Multiset.replicate refs p + m) := by
  have hcells : Function.update (counting m).nbRefs p (some ((m.count p : ℤ) + refs)) =
      (counting (Multiset.replicate refs p + m)).nbRefs := by
    funext q
    rcases eq_or_ne q p with rfl | hq
    · have hm : q ∈ Multiset.replicate refs q + m := Multiset.mem_add.mpr (.inr hp)
      rw [Function.update_self, counting_nbRefs_of_mem hm, Multiset.count_add,
        Multiset.count_replicate_self]
      push_cast
      rw [add_comm]
    · have hr : q ∉ Multiset.replicate refs p := fun h => hq (Multiset.eq_of_mem_replicate h)
      simp [counting, hq, hr]
  simp only [Moves, runCalls, Call.run, counting_nbRefs_of_mem hp, Option.bind_some]
  exact congrArg some (congrArg (Heap.mk · false) hcells)

theorem release (p : P) (m : Multiset P) : Moves [.release p] (p ::ₘ m) m := by
  have hcells : Function.update (counting (p ::ₘ m)).nbRefs p
      (if ((p ::ₘ m).count p : ℤ) - 1 ≤ 0 then none else some (((p ::ₘ m).count p : ℤ) - 1)) =
      (counting m).nbRefs := by
    funext q
    rcases eq_or_ne q p with rfl | hq
    · by_cases hm : q ∈ m
      · have hpos : 0 < m.count q := Multiset.count_pos.mpr hm
        rw [Function.update_self, counting_nbRefs_of_mem hm, Multiset.count_cons_self,
          if_neg (by omega)]
        simp
      · rw [Function.update_self, counting_nbRefs_of_notMem hm, Multiset.count_cons_self,
          Multiset.count_eq_zero_of_notMem hm, if_pos (by omega)]
    · simp [counting, hq]
  simp only [Moves, runCalls, Call.run,
    counting_nbRefs_of_mem (Multiset.mem_cons_self p m), Option.bind_some]
  exact congrArg some (congrArg (Heap.mk · false) hcells)

/-- Every cell of a list that is held already gets one more holder. -/
theorem increaseAll {ps : List P} {m : Multiset P} (hps : ∀ p ∈ ps, p ∈ m) :
    Moves (ps.map (Call.increase · 1)) m (↑ps + m) := by
  induction ps generalizing m with
  | nil => simpa using nil m
  | cons p rest ih =>
    have hp : Moves [.increase p 1] m (p ::ₘ m) := by
      simpa using increase (hps p List.mem_cons_self) 1
    have hrest : Moves (rest.map (Call.increase · 1)) (p ::ₘ m) (↑rest + p ::ₘ m) :=
      ih fun q hq => Multiset.mem_cons_of_mem (hps q (List.mem_cons_of_mem p hq))
    have h := hp.append hrest
    rwa [← Multiset.cons_coe, Multiset.cons_add, ← Multiset.add_cons]

theorem releaseAll (ps : List P) (m : Multiset P) :
    Moves (ps.map Call.release) (↑ps + m) m := by
  induction ps with
  | nil => simpa using nil m
  | cons p rest ih =>
    rw [← Multiset.cons_coe, Multiset.cons_add]
    exact (release p (↑rest + m)).append ih

/-- A run of allocations that the heap allows finds all its addresses free. -/
theorem of_allocs {ps : List P} {m : Multiset P} {h : Heap P}
    (hrun : runCalls (counting m) (ps.map Call.alloc) = some h) :
    Moves (ps.map Call.alloc) m (↑ps + m) := by
  induction ps generalizing m with
  | nil => simpa using nil m
  | cons p rest ih =>
    by_cases hp : p ∈ m
    · simp [runCalls, Call.run, counting_nbRefs_of_mem hp] at hrun
    have hhead := alloc hp
    have htail : runCalls (counting (p ::ₘ m)) (rest.map Call.alloc) = some h := by
      have happ := runCalls_append (counting m) [Call.alloc p] (rest.map Call.alloc)
      rw [hhead, Option.bind_some] at happ
      rw [← happ]
      exact hrun
    have h' := hhead.append (ih htail)
    rwa [← Multiset.cons_coe, Multiset.cons_add, ← Multiset.add_cons]

end Moves

end Painless.RefCount
