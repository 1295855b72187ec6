import Mathlib.Data.Finset.Card
import Mathlib.Data.List.FinRange
import Mathlib.Data.Nat.Bitwise
import Mathlib.Data.Nat.ModEq
import Mathlib.Logic.Function.Basic

/-!
Hashes that are an exclusive or over a collection, reduced modulo a table size.
The fold does not depend on the order, and one entry can be exchanged for
another in it. Entries whose hashes are close to each other never meet in the
table, so enough of them reach a place that is not taken.
-/
namespace Painless.XorFold

variable {C : Type*} (hash : C → ℕ)

def xorFold (l : List C) : ℕ := l.foldr (fun c res => hash c ^^^ res) 0

@[simp] theorem xorFold_nil : xorFold hash [] = 0 := rfl

@[simp] theorem xorFold_cons (c : C) (l : List C) :
    xorFold hash (c :: l) = hash c ^^^ xorFold hash l := rfl

theorem foldl_xor (l : List C) (start : ℕ) :
    l.foldl (fun res c => res ^^^ hash c) start = start ^^^ xorFold hash l := by
  induction l generalizing start with
  | nil => rw [List.foldl_nil, xorFold_nil, Nat.xor_zero]
  | cons c l ih => rw [List.foldl_cons, ih, xorFold_cons, Nat.xor_assoc]

theorem xorFold_perm {l l' : List C} (h : l.Perm l') : xorFold hash l = xorFold hash l' := by
  induction h with
  | nil => rfl
  | cons c _ ih => rw [xorFold_cons, xorFold_cons, ih]
  | swap c d l =>
    rw [xorFold_cons, xorFold_cons, xorFold_cons, xorFold_cons, ← Nat.xor_assoc,
      ← Nat.xor_assoc, Nat.xor_comm (hash c)]
  | trans _ _ ih₁ ih₂ => exact ih₁.trans ih₂

theorem xor_cancel (x a y : ℕ) : (x ^^^ a) ^^^ (a ^^^ y) = x ^^^ y := by
  rw [Nat.xor_assoc, ← Nat.xor_assoc a, Nat.xor_self, Nat.zero_xor]

theorem xorFold_set {l : List C} {i : ℕ} (hi : i < l.length) (c : C) :
    xorFold hash (l.set i c) = xorFold hash l ^^^ hash l[i] ^^^ hash c := by
  induction l generalizing i with
  | nil => simp at hi
  | cons d l ih =>
    cases i with
    | zero =>
      rw [List.set_cons_zero, xorFold_cons, xorFold_cons, List.getElem_cons_zero,
        Nat.xor_comm (hash d), Nat.xor_assoc (xorFold hash l), Nat.xor_self, Nat.xor_zero,
        Nat.xor_comm]
    | succ i =>
      rw [List.set_cons_succ, xorFold_cons, ih (Nat.lt_of_succ_lt_succ hi), xorFold_cons,
        List.getElem_cons_succ, Nat.xor_assoc, Nat.xor_assoc, Nat.xor_assoc]

theorem ofFn_update {n : ℕ} (f : Fin n → C) (i : Fin n) (c : C) :
    List.ofFn (Function.update f i c) = (List.ofFn f).set i c := by
  apply List.ext_getElem
  · simp
  · intro k hk _
    rw [List.getElem_ofFn, List.getElem_set, List.getElem_ofFn]
    split_ifs with h
    · rw [show (⟨k, by simpa using hk⟩ : Fin n) = i from Fin.ext h.symm, Function.update_self]
    · exact Function.update_of_ne (fun heq => h (congrArg Fin.val heq).symm) _ _

theorem xorFold_update {n : ℕ} (f : Fin n → C) (i : Fin n) (c : C) :
    xorFold hash (List.ofFn (Function.update f i c)) =
      xorFold hash (List.ofFn f) ^^^ hash (f i) ^^^ hash c := by
  rw [ofFn_update, xorFold_set hash (by simp), List.getElem_ofFn]

section Table

theorem xor_le_add (a b : ℕ) : a ^^^ b ≤ a + b := by
  induction a using Nat.strongRecOn generalizing b with
  | ind a ih =>
    rcases Nat.eq_zero_or_pos a with rfl | ha
    · rw [Nat.zero_xor, Nat.zero_add]
    · have hhalf := ih (a / 2) (by omega) (b / 2)
      have hdiv : (a ^^^ b) / 2 = a / 2 ^^^ b / 2 := Nat.xor_div_two
      have hmod : (a ^^^ b) % 2 = (a + b) % 2 := Nat.xor_mod_two_eq
      omega

/-- Two hashes that differ in low bits only stay apart modulo `m`, whatever
else goes into the fold. -/
theorem xor_mod_ne {m u v : ℕ} (hne : u ≠ v) (hclose : u ^^^ v < m) (r : ℕ) :
    (r ^^^ u) % m ≠ (r ^^^ v) % m := by
  have hback : (u ^^^ v) ^^^ (r ^^^ v) = r ^^^ u := by
    rw [Nat.xor_comm r v, xor_cancel, Nat.xor_comm]
  have hforth : (u ^^^ v) ^^^ (r ^^^ u) = r ^^^ v := by
    rw [Nat.xor_comm r u, Nat.xor_comm u v, xor_cancel, Nat.xor_comm]
  have hle := xor_le_add (u ^^^ v) (r ^^^ v)
  have hge := xor_le_add (u ^^^ v) (r ^^^ u)
  rw [hback] at hle
  rw [hforth] at hge
  have hnear : |((r ^^^ v : ℕ) : ℤ) - (r ^^^ u : ℕ)| < m := by
    rw [abs_lt]
    omega
  intro hmod
  exact hne (Nat.xor_right_injective (Nat.ModEq.eq_of_abs_lt hmod hnear))

/-- One of the entries in `s` reaches a place that is not taken. -/
theorem exists_place [DecidableEq C] {m : ℕ} {s : Finset C}
    (hs : ∀ u ∈ s, ∀ v ∈ s, u ≠ v → hash u ≠ hash v ∧ hash u ^^^ hash v < m) (r : ℕ)
    {taken : Finset ℕ} (hcard : taken.card < s.card) :
    ∃ u ∈ s, (r ^^^ hash u) % m ∉ taken := by
  have hinj : Set.InjOn (fun u => (r ^^^ hash u) % m) s := by
    intro u hu v hv heq
    by_contra hne
    obtain ⟨hdiff, hclose⟩ := hs u hu v hv hne
    exact xor_mod_ne hdiff hclose r heq
  rw [← Finset.card_image_of_injOn hinj] at hcard
  obtain ⟨place, hplace, hfree⟩ := Finset.exists_mem_notMem_of_card_lt_card hcard
  obtain ⟨u, hu, rfl⟩ := Finset.mem_image.mp hplace
  exact ⟨u, hu, hfree⟩

end Table

end Painless.XorFold
