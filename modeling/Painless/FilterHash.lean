import Mathlib.Data.Finset.Card
import Painless.DuplicateFilter
import Painless.Transitions
import Painless.XorFold

/-!
The hash of the duplicate filter. It was written for arrays that start with a
glue word and skips their first entry, which in the arrays of the callers is a
literal. So the first literal of a clause does not count, every other one does,
and a clause is recognized in another order only where its first literal stays
the first.
-/
namespace Painless.FilterHash

open DuplicateFilter ClauseFilter XorFold

/-- The positions that `registerClause` tests, in its order. -/
def hashPositions (cls : List ℤ) : List ℕ :=
  [commutativeHashFunction cls 1, commutativeHashFunction cls 2,
    commutativeHashFunction cls 3, commutativeHashFunction cls 4]

theorem mem_positions (cls : List ℤ) (h : ℕ) : h ∈ positions cls ↔ h ∈ hashPositions cls := by
  simp [positions, hashPositions]

theorem positions_congr {cls cls' : List ℤ} (h : hashPositions cls = hashPositions cls') :
    positions cls = positions cls' := by
  ext k
  rw [mem_positions, mem_positions, h]

theorem card_positions (cls : List ℤ) : (positions cls).card ≤ 4 := Finset.card_le_four

theorem hash_cons (which lit : ℤ) (rest : List ℤ) :
    commutativeHashFunction (lit :: rest) which =
      xorFold (literalHash which) rest % NUM_BITS := by
  rw [commutativeHashFunction, List.drop_one, List.tail_cons, foldl_xor, Nat.zero_xor]

/-- The hash is that of all literals with the first one taken out again. -/
theorem hash_ofFn {n : ℕ} (lits : Fin (n + 1) → ℤ) (which : ℤ) :
    commutativeHashFunction (List.ofFn lits) which =
      (xorFold (literalHash which) (List.ofFn lits) ^^^ literalHash which (lits 0)) %
        NUM_BITS := by
  rw [List.ofFn_succ, hash_cons, xorFold_cons, Nat.xor_comm, ← Nat.xor_assoc, Nat.xor_self,
    Nat.zero_xor]

/-- Five literals whose hashes differ in their low bits only. -/
def closeLits : Finset ℤ := {-397, -338, -24, 290, 349}

theorem closeLits_close : ∀ u ∈ closeLits, ∀ v ∈ closeLits, u ≠ v →
    literalHash 1 u ≠ literalHash 1 v ∧ literalHash 1 u ^^^ literalHash 1 v < NUM_BITS := by
  decide +kernel

theorem closeLits_small : ∀ u ∈ closeLits, u ≠ 0 ∧ u.natAbs < 398 := by decide

theorem closeLits_distinct :
    ∀ u ∈ closeLits, ∀ v ∈ closeLits, u ≠ v → u.natAbs ≠ v.natAbs := by decide

/-- Whatever else is in a clause, one of the five literals brings it to a
position that the clause `cls` has not set. -/
theorem exists_closeLit (r : ℕ) (cls : List ℤ) :
    ∃ u ∈ closeLits, (r ^^^ literalHash 1 u) % NUM_BITS ∉ positions cls := by
  have hcard : (positions cls).card < closeLits.card :=
    Nat.lt_of_le_of_lt (card_positions cls) (by decide)
  exact exists_place (literalHash 1) closeLits_close r hcard

theorem not_registered {cls cls' : List ℤ} (hlen : 2 ≤ cls.length)
    (hlen' : cls'.length = cls.length)
    (h : commutativeHashFunction cls' 1 ∉ positions cls) :
    ¬ (ClauseFilter.empty.registerClause cls).2.Registered cls' := by
  have hpos : commutativeHashFunction cls' 1 ∈ positions cls' := Finset.mem_insert_self _ _
  rw [registered_of_length (by omega), registerClause_of_length (by omega)]
  intro hsub
  split_ifs at hsub with hset
  · exact Finset.notMem_empty _ (hsub hpos)
  · rw [ClauseFilter.empty, Finset.union_empty] at hsub
    exact h (hsub hpos)

section Literals

/-- A literal in the clause `cls` can be replaced so that the positions change
and a fresh filter that has `cls` takes the new clause, exactly where it is not
the first one. -/
theorem literal_counts_iff (cls : List ℤ) (hcls : 2 ≤ cls.length) (j : ℕ)
    (hj : j < cls.length) :
    ((∃ lit ≠ 0, hashPositions (cls.set j lit) ≠ hashPositions cls) ∧
      ∃ lit ≠ 0, ¬ (ClauseFilter.empty.registerClause cls).2.Registered (cls.set j lit)) ↔
        j ≠ 0 := by
  obtain ⟨first, rest, rfl⟩ := List.exists_cons_of_length_pos (Nat.lt_of_lt_of_le (by omega) hcls)
  constructor
  · rintro ⟨⟨lit, -, hne⟩, -⟩ rfl
    apply hne
    rw [List.set_cons_zero, hashPositions, hash_cons, hash_cons, hash_cons, hash_cons,
      hashPositions, hash_cons, hash_cons, hash_cons, hash_cons]
  · intro hj0
    obtain ⟨k, rfl⟩ := Nat.exists_eq_succ_of_ne_zero hj0
    have hk : k < rest.length := Nat.lt_of_succ_lt_succ hj
    obtain ⟨lit, hlit, hfree⟩ := exists_closeLit
      (xorFold (literalHash 1) rest ^^^ literalHash 1 rest[k]) (first :: rest)
    have hhash : commutativeHashFunction ((first :: rest).set (k + 1) lit) 1 ∉
        positions (first :: rest) := by
      rwa [List.set_cons_succ, hash_cons, xorFold_set _ hk]
    have hzero := (closeLits_small lit hlit).1
    refine ⟨⟨lit, hzero, fun heq => hhash ?_⟩, lit, hzero, ?_⟩
    · rw [← positions_congr heq]
      exact Finset.mem_insert_self _ _
    · exact not_registered hcls (List.length_set ..) hhash

theorem literal_counts_second :
    (∃ lit ≠ 0, hashPositions ([1, 2].set 1 lit) ≠ hashPositions [1, 2]) ∧
      ∃ lit ≠ 0, ¬ (ClauseFilter.empty.registerClause [1, 2]).2.Registered ([1, 2].set 1 lit) :=
  (literal_counts_iff [1, 2] (by decide) 1 (by decide)).mpr (by decide)

/-- No replacement of the first literal of `1 2` changes a position or is taken
for new. -/
theorem first_literal_ignored :
    ¬ (∃ lit ≠ 0, hashPositions ([1, 2].set 0 lit) ≠ hashPositions [1, 2]) ∧
      ¬ ∃ lit ≠ 0,
        ¬ (ClauseFilter.empty.registerClause [1, 2]).2.Registered ([1, 2].set 0 lit) := by
  have hsame (lit : ℤ) : hashPositions (lit :: [2]) = hashPositions [1, 2] := by
    rw [hashPositions, hash_cons, hash_cons, hash_cons, hash_cons, hashPositions, hash_cons,
      hash_cons, hash_cons, hash_cons]
  constructor
  · rintro ⟨lit, -, hne⟩
    exact hne (hsame lit)
  · rintro ⟨lit, -, hnew⟩
    have hreg := registered_self ClauseFilter.empty [1, 2]
    rw [registered_of_length (by decide), ← positions_congr (hsame lit)] at hreg
    exact hnew ((registered_of_length (by simp) _).mpr hreg)

end Literals

section Orders

variable {n : ℕ}

/-- Literals of pairwise different variables. -/
structure IsClause (lits : Fin n → ℤ) : Prop where
  nonzero : ∀ i, lits i ≠ 0
  distinct : Function.Injective fun i => (lits i).natAbs

/-- Once a clause has been registered, whatever is registered after it, the
clause with its literals permuted by `σ` is refused. -/
def OrderIndependent (σ : Equiv.Perm (Fin n)) : Prop :=
  ∀ (f : ClauseFilter) (lits : Fin n → ℤ), IsClause lits → ∀ later : List (List ℤ),
    (sift id (f.registerClause (List.ofFn lits)).2 later).2.Registered (List.ofFn (lits ∘ σ))

theorem hash_perm (lits : Fin (n + 1) → ℤ) (σ : Equiv.Perm (Fin (n + 1))) (which : ℤ) :
    commutativeHashFunction (List.ofFn (lits ∘ σ)) which =
      (xorFold (literalHash which) (List.ofFn lits) ^^^ literalHash which (lits (σ 0))) %
        NUM_BITS := by
  rw [hash_ofFn, xorFold_perm _ (σ.ofFn_comp_perm lits), Function.comp_apply]

theorem positions_perm (lits : Fin (n + 1) → ℤ) {σ : Equiv.Perm (Fin (n + 1))} (h : σ 0 = 0) :
    positions (List.ofFn (lits ∘ σ)) = positions (List.ofFn lits) := by
  have hsame (which : ℤ) : commutativeHashFunction (List.ofFn (lits ∘ σ)) which =
      commutativeHashFunction (List.ofFn lits) which := by
    rw [hash_perm, hash_ofFn, h]
  simp only [positions, hsame]

/-- The clause with the literal `a` in front and `b` at `k`, and elsewhere
variables that the five literals do not use. -/
def swapped (k : Fin (n + 1)) (a b : ℤ) : Fin (n + 1) → ℤ :=
  Function.update (Function.update (fun i => 398 + (i : ℤ)) 0 a) k b

theorem swapped_apply (k : Fin (n + 1)) (a b : ℤ) (i : Fin (n + 1)) :
    swapped k a b i = if i = k then b else if i = 0 then a else 398 + (i : ℤ) := by
  rw [swapped, Function.update_apply, Function.update_apply]

theorem swapped_isClause {k : Fin (n + 1)} {a b : ℤ} (ha : a ∈ closeLits) (hb : b ∈ closeLits)
    (hne : a ≠ b) : IsClause (swapped k a b) := by
  obtain ⟨ha0, hasmall⟩ := closeLits_small a ha
  obtain ⟨hb0, hbsmall⟩ := closeLits_small b hb
  have hab := closeLits_distinct a ha b hb hne
  constructor
  · intro i
    rw [swapped_apply]
    split_ifs <;> omega
  · intro i j hij
    dsimp only at hij
    rw [swapped_apply, swapped_apply] at hij
    apply Fin.ext
    split_ifs at hij <;> omega

/-- What the literals elsewhere contribute to the hash. -/
def elsewhere (k : Fin (n + 1)) (which : ℤ) : ℕ :=
  xorFold (literalHash which) (List.ofFn fun i : Fin (n + 1) => 398 + (i : ℤ)) ^^^
    literalHash which (398 + ((0 : Fin (n + 1)) : ℤ)) ^^^ literalHash which (398 + (k : ℤ))

theorem swapped_fold {k : Fin (n + 1)} (hk : k ≠ 0) (which a b : ℤ) :
    xorFold (literalHash which) (List.ofFn (swapped k a b)) =
      elsewhere k which ^^^ literalHash which a ^^^ literalHash which b := by
  rw [swapped, xorFold_update, xorFold_update, Function.update_of_ne hk, elsewhere]
  ac_rfl

theorem swapped_hash {k : Fin (n + 1)} (hk : k ≠ 0) (which a b : ℤ) :
    commutativeHashFunction (List.ofFn (swapped k a b)) which =
      (elsewhere k which ^^^ literalHash which b) % NUM_BITS := by
  rw [hash_ofFn, swapped_fold hk, swapped_apply, if_neg hk.symm, if_pos rfl,
    Nat.xor_right_comm, Nat.xor_xor_cancel_right]

theorem swapped_hash_perm {σ : Equiv.Perm (Fin (n + 1))} (hσ : σ 0 ≠ 0) (which a b : ℤ) :
    commutativeHashFunction (List.ofFn (swapped (σ 0) a b ∘ σ)) which =
      (elsewhere (σ 0) which ^^^ literalHash which a) % NUM_BITS := by
  rw [hash_perm, swapped_fold hσ, swapped_apply, if_pos rfl, Nat.xor_xor_cancel_right]

/-- A clause is recognized in the order given by `σ`, for every filter and all
literals, exactly where `σ` leaves the first literal in its place. -/
theorem order_independent_iff (σ : Equiv.Perm (Fin (n + 2))) :
    OrderIndependent σ ↔ σ 0 = 0 := by
  constructor
  · intro hall
    by_contra hσ
    have hb : (290 : ℤ) ∈ closeLits := by decide
    obtain ⟨a, ha, hfree⟩ := exists_closeLit (elsewhere (σ 0) 1)
      (List.ofFn (swapped (σ 0) (-397) 290))
    -- the positions of the registered clause do not depend on its first literal
    have hsame : positions (List.ofFn (swapped (σ 0) (-397) 290)) =
        positions (List.ofFn (swapped (σ 0) a 290)) := by
      simp only [positions, swapped_hash hσ]
    have hne : a ≠ 290 := by
      rintro rfl
      rw [← swapped_hash hσ 1 (-397)] at hfree
      exact hfree (Finset.mem_insert_self _ _)
    rw [hsame, ← swapped_hash_perm hσ 1 a 290] at hfree
    refine not_registered ?_ ?_ hfree (hall ClauseFilter.empty _ (swapped_isClause ha hb hne) [])
    · simp
    · simp
  · intro hσ f lits _ later
    apply Registered.sift
    have hreg := registered_self f (List.ofFn lits)
    rw [registered_of_length (by simp)] at hreg ⊢
    rwa [positions_perm lits hσ]

/-- The clause `2 1` is taken for new after the clause `1 2`. -/
theorem swap_not_recognized :
    [2, 1].Perm [1, (2 : ℤ)] ∧
      ¬ (ClauseFilter.empty.registerClause [1, 2]).2.Registered [2, 1] := by
  decide +kernel

end Orders

end Painless.FilterHash
