import Mathlib.Data.Nat.Log
import Mathlib.Tactic.Ring

/-!
The sequence of the restarts of MiniSat. The function luby finds the exponent of an
index with two loops; the sequence itself is made of blocks, each of them twice the
block before and one more exponent. The loops end, they give the sequence, and for
an index x with x + 1 < 2 ^ 31 none of their numbers leaves int.
-/
namespace Painless.LubySequence

/-! ### The loops -/

/-- The first loop: the subsequence that contains the index. -/
def findSubsequence (x size seq : ℕ) : ℕ × ℕ :=
  if size < x + 1 then findSubsequence x (2 * size + 1) (seq + 1) else (size, seq)
termination_by x + 1 - size

/-- The second loop. There is no result after a division by zero, and none where seq
would become negative. -/
def descend (size : ℕ) : ℕ → ℕ → Option ℕ
  | seq, x =>
    if size - 1 = x then some seq
    else
      match seq with
      | 0 => none
      | seq + 1 =>
        if (size - 1) / 2 = 0 then none
        else descend ((size - 1) / 2) seq (x % ((size - 1) / 2))

/-- The exponent of luby. -/
def luby (x : ℕ) : Option ℕ :=
  let found := findSubsequence x 1 0
  descend found.1 found.2 x

/-! ### The sequence -/

def block : ℕ → List ℕ
  | 0 => []
  | k + 1 => block k ++ block k ++ [k]

theorem length_block (k : ℕ) : (block k).length + 1 = 2 ^ k := by
  induction k with
  | zero => rfl
  | succ k ih =>
    rw [block, List.length_append, List.length_append, List.length_singleton, pow_succ]
    omega

theorem block_mono {k m : ℕ} (h : k ≤ m) : block k <+: block m := by
  induction m, h using Nat.le_induction with
  | base => exact List.prefix_refl _
  | succ m _ ih =>
    refine ih.trans ⟨block m ++ [m], ?_⟩
    rw [block, List.append_assoc]

theorem block_last (k : ℕ) : (block (k + 1))[2 * (block k).length]? = some k := by
  have hlength : 2 * (block k).length = (block k ++ block k).length := by
    rw [List.length_append]
    omega
  rw [block, hlength, List.getElem?_concat_length]

/-- The two copies of the block before. -/
theorem block_copies {k x : ℕ} (h : x < 2 * (block k).length) :
    (block (k + 1))[x]? = (block k)[x % (block k).length]? := by
  have hlt : x < (block k ++ block k).length := by
    rw [List.length_append]
    omega
  rw [block, List.getElem?_append_left hlt]
  by_cases hfirst : x < (block k).length
  · rw [List.getElem?_append_left hfirst, Nat.mod_eq_of_lt hfirst]
  · have hsecond : x - (block k).length < (block k).length := by omega
    rw [List.getElem?_append_right (not_lt.mp hfirst), Nat.mod_eq_sub_mod (not_lt.mp hfirst),
      Nat.mod_eq_of_lt hsecond]

/-! ### The loops give the sequence -/

/-- The size is the length of a block, which the next turn halves. -/
theorem descend_spec {k x : ℕ} (h : x < (block (k + 1)).length) :
    descend (block (k + 1)).length k x = (block (k + 1))[x]? := by
  induction k generalizing x with
  | zero =>
    obtain rfl : x = 0 := Nat.lt_one_iff.mp h
    rfl
  | succ k ih =>
    have hlength := length_block (k + 1 + 1)
    have hlength' := length_block (k + 1)
    rw [pow_succ] at hlength
    have hhalf : ((block (k + 1 + 1)).length - 1) / 2 = (block (k + 1)).length := by omega
    have hpos : 0 < (block (k + 1)).length := List.length_pos_of_mem
      (List.mem_append_right _ (List.mem_singleton_self k))
    unfold descend
    by_cases hlast : (block (k + 1 + 1)).length - 1 = x
    · have hx : x = 2 * (block (k + 1)).length := by omega
      rw [if_pos hlast, hx, block_last]
    · have hx : x < 2 * (block (k + 1)).length := by omega
      rw [if_neg hlast, hhalf]
      dsimp only
      rw [if_neg hpos.ne', ih (Nat.mod_lt x hpos), block_copies hx]

theorem findSubsequence_spec (x : ℕ) (k : ℕ) :
    ∃ m, x < (block (m + 1)).length ∧
      findSubsequence x (block (k + 1)).length k = ((block (m + 1)).length, m) := by
  obtain ⟨n, hn⟩ : ∃ n, x + 1 - (block (k + 1)).length = n := ⟨_, rfl⟩
  induction n using Nat.strong_induction_on generalizing k with
  | h n ih =>
    have hnext : (block (k + 1 + 1)).length = 2 * (block (k + 1)).length + 1 := by
      have hlength := length_block (k + 1 + 1)
      have hlength' := length_block (k + 1)
      rw [pow_succ] at hlength
      omega
    unfold findSubsequence
    split_ifs with hsize
    · rw [← hnext]
      exact ih _ (by omega) (k + 1) rfl
    · exact ⟨k, by omega, rfl⟩

theorem luby_of_block {k x e : ℕ} (h : (block k)[x]? = some e) : luby x = some e := by
  obtain ⟨m, hx, hfound⟩ := findSubsequence_spec x 0
  have hluby : luby x = some ((block (m + 1))[x]) := by
    unfold luby
    rw [show findSubsequence x 1 0 = _ from hfound, ← List.getElem?_eq_getElem hx]
    exact descend_spec hx
  obtain ⟨hk, rfl⟩ := List.getElem?_eq_some_iff.mp h
  rw [hluby]
  -- one of the blocks is the beginning of the other one
  rcases le_total k (m + 1) with hle | hle
  · rw [(block_mono hle).getElem hk]
  · rw [(block_mono hle).getElem hx]

theorem luby_last (k : ℕ) : luby (2 * (block k).length) = some k := luby_of_block (block_last k)

theorem lt_of_mem_block {k e : ℕ} (h : e ∈ block k) : e < k := by
  induction k with
  | zero => exact absurd h List.not_mem_nil
  | succ k ih =>
    rw [block, List.mem_append, List.mem_append, List.mem_singleton] at h
    rcases h with (h | h) | rfl
    · exact Nat.lt_succ_of_lt (ih h)
    · exact Nat.lt_succ_of_lt (ih h)
    · exact Nat.lt_succ_self e

/-- Before the end of a block all exponents are smaller. -/
theorem exists_luby_lt {k x : ℕ} (h : x < 2 * (block k).length) : ∃ e, luby x = some e ∧ e < k := by
  have hpos : 0 < (block k).length := by omega
  have hget := List.getElem?_eq_getElem (Nat.mod_lt x hpos)
  exact ⟨_, luby_of_block ((block_copies h).trans hget), lt_of_mem_block (List.getElem_mem _)⟩

/-- The sizes of the first loop grow up to the last one, which is found. -/
theorem findSubsequence_lt {n x size seq : ℕ} (hx : x + 1 < 2 ^ n) (hsize : ∃ m, size + 1 = 2 ^ m)
    (hlt : size < 2 ^ n) : (findSubsequence x size seq).1 < 2 ^ n := by
  obtain ⟨d, hd⟩ : ∃ d, x + 1 - size = d := ⟨_, rfl⟩
  induction d using Nat.strong_induction_on generalizing size seq with
  | h d ih =>
    unfold findSubsequence
    split_ifs with hnext
    · obtain ⟨m, hm⟩ := hsize
      have hdouble : 2 * size + 1 + 1 = 2 ^ (m + 1) := by
        rw [pow_succ]
        omega
      have hmn : m < n := by
        refine (Nat.pow_lt_pow_iff_right (Nat.one_lt_two)).mp ?_
        omega
      have hle := Nat.pow_le_pow_right Nat.two_pos (Nat.succ_le_of_lt hmn)
      exact ih _ (by omega) ⟨m + 1, hdouble⟩ (by rw [Nat.succ_eq_add_one] at hle; omega) rfl
    · exact hlt

/-- Up to the end of a block the exponents are those of the block; where x + 1 is an
int, so is the greatest size. -/
theorem luby_eq_block (k : ℕ) : (List.range (2 ^ k - 1)).map luby = (block k).map some ∧
    ∀ x, x + 1 < 2 ^ 31 → (findSubsequence x 1 0).1 < 2 ^ 31 := by
  have hlength := length_block k
  refine ⟨List.ext_getElem? fun x => ?_, fun x hx =>
    findSubsequence_lt hx ⟨1, rfl⟩ (Nat.one_lt_two_pow (by decide))⟩
  rw [List.getElem?_map, List.getElem?_map]
  by_cases hx : x < (block k).length
  · have hget := List.getElem?_eq_getElem hx
    rw [List.getElem?_range (by omega), hget, Option.map_some, Option.map_some,
      luby_of_block hget]
  · rw [List.getElem?_eq_none (not_lt.mp hx), List.getElem?_eq_none]
    · rfl
    · rw [List.length_range]
      omega

example : block 3 = [0, 0, 1, 0, 0, 1, 2] := rfl

end Painless.LubySequence
