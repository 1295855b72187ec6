import Mathlib.Data.Nat.Notation
import Mathlib.Order.Lattice
import Mathlib.Order.Defs.LinearOrder
import Mathlib.Data.List.Basic

/-!
The order of a binary heap in a list: no entry is smaller than the one at its
parent's index. Where it fails at one index only, the entry there changes places
with its parent or with its smaller child, and what fails has moved.
-/
namespace Painless.BinaryHeap

def left (i : ℕ) : ℕ := i * 2 + 1

def right (i : ℕ) : ℕ := (i + 1) * 2

def parent (i : ℕ) : ℕ := (i - 1) / 2

theorem parent_lt {i : ℕ} (h : 0 < i) : parent i < i := by
  unfold parent
  omega

theorem parent_eq_iff {i c : ℕ} (hc : 0 < c) : parent c = i ↔ c = left i ∨ c = right i := by
  unfold parent left right
  omega

theorem lt_left (i : ℕ) : i < left i := by
  unfold left
  omega

theorem lt_right (i : ℕ) : i < right i := by
  unfold right
  omega

variable {K P : Type*} [LinearOrder P] (key : K → P)

/-- The entry at the first index is not above the one at the second. -/
def Le (l : List K) (i j : ℕ) : Prop :=
  ∀ y z, l[i]? = some y → l[j]? = some z → key y ≤ key z

/-- The entries at the indices in `E` are in order with their parents. -/
def OrderedAt (E : ℕ → Prop) (l : List K) : Prop :=
  ∀ j, 0 < j → E j → Le key l (parent j) j

abbrev Ordered (l : List K) : Prop := OrderedAt key (fun _ => True) l

variable {key} {E : ℕ → Prop} {l l' : List K}

theorem Le.trans {i j k : ℕ} (h : Le key l i j) (h' : Le key l j k) (hj : j < l.length) :
    Le key l i k := fun y z hy hz =>
  (h y l[j] hy (List.getElem?_eq_getElem hj)).trans (h' l[j] z (List.getElem?_eq_getElem hj) hz)

/-- The first entry is a least one. -/
theorem Ordered.le_of_root (h : Ordered key l) {j : ℕ} (hj : j < l.length) : Le key l 0 j := by
  induction j using Nat.strongRecOn with
  | _ j ih =>
    rcases Nat.eq_zero_or_pos j with rfl | hpos
    · intro y z hy hz
      rw [Option.some.inj (hy.symm.trans hz)]
    · have hparent := parent_lt hpos
      have hlength : parent j < l.length := Nat.lt_trans hparent hj
      exact (ih (parent j) hparent hlength).trans (h j hpos trivial) hlength

/-! ### An exchange -/

/-- Two entries have changed places. -/
structure Swapped (l l' : List K) (i p : ℕ) : Prop where
  ne : i ≠ p
  first : l'[i]? = l[p]?
  second : l'[p]? = l[i]?
  other : ∀ j, j ≠ i → j ≠ p → l'[j]? = l[j]?

theorem swapped_set {i p : ℕ} {x y : K} (hne : i ≠ p) (hx : l[i]? = some x)
    (hy : l[p]? = some y) : Swapped l ((l.set i y).set p x) i p := by
  have hi : i < l.length := (List.getElem?_eq_some_iff.mp hx).1
  have hp : p < l.length := (List.getElem?_eq_some_iff.mp hy).1
  refine ⟨hne, ?_, ?_, fun j hji hjp => ?_⟩
  · rw [List.getElem?_set_ne hne.symm, List.getElem?_set_self hi, hy]
  · rw [List.getElem?_set_self (by rwa [List.length_set]), hx]
  · rw [List.getElem?_set_ne hjp.symm, List.getElem?_set_ne hji.symm]

/-! ### Upwards -/

/-- The order holds but for the entry at `i`, and the entries below it are in
order with its parent. -/
structure UpReady (key : K → P) (l : List K) (i : ℕ) : Prop where
  other : OrderedAt key (· ≠ i) l
  grand : 0 < i → ∀ c, 0 < c → parent c = i → Le key l (parent i) c

theorem UpReady.done {i : ℕ} (h : UpReady key l i) (hi : 0 < i → Le key l (parent i) i) :
    Ordered key l := by
  intro j hj _
  by_cases hji : j = i
  · rw [hji]
    exact hi (hji ▸ hj)
  · exact h.other j hj hji

/-- The entry goes up. -/
theorem UpReady.move {i : ℕ} {x y : K} (h : UpReady key l i) (hi : 0 < i)
    (hswap : Swapped l l' i (parent i)) (hx : l[i]? = some x) (hy : l[parent i]? = some y)
    (hlt : key x < key y) : UpReady key l' (parent i) := by
  have hparent := parent_lt hi
  have hyi : l'[i]? = some y := hswap.first.trans hy
  have hxp : l'[parent i]? = some x := hswap.second.trans hx
  constructor
  · intro j hj hjp a b ha hb
    by_cases hji : j = i
    · subst hji
      rw [hxp] at ha
      rw [hyi] at hb
      obtain rfl := Option.some.inj ha
      obtain rfl := Option.some.inj hb
      exact hlt.le
    · rw [hswap.other j hji hjp] at hb
      by_cases hpi : parent j = i
      · rw [hpi, hyi] at ha
        obtain rfl := Option.some.inj ha
        exact h.grand hi j hj hpi y b hy hb
      · by_cases hpp : parent j = parent i
        · rw [hpp, hxp] at ha
          obtain rfl := Option.some.inj ha
          exact hlt.le.trans (h.other j hj hji y b (hpp ▸ hy) hb)
        · rw [hswap.other (parent j) hpi hpp] at ha
          exact h.other j hj hji a b ha hb
  · intro hp c hc hcp a b ha hb
    have hpp : parent (parent i) < parent i := parent_lt hp
    rw [hswap.other _ (by omega) (by omega)] at ha
    have habove := h.other (parent i) hp (by omega) a y ha hy
    by_cases hci : c = i
    · rw [hci, hyi] at hb
      obtain rfl := Option.some.inj hb
      exact habove
    · have hlt : parent c < c := parent_lt hc
      rw [hswap.other c hci (by omega)] at hb
      exact habove.trans (h.other c hc hci y b (hcp ▸ hy) hb)

/-! ### Downwards -/

/-- The order holds at the indices in `E` but for the children of `i`, which are
in order with the parent of `i`. -/
structure DownReady (key : K → P) (E : ℕ → Prop) (l : List K) (i : ℕ) : Prop where
  other : OrderedAt key (fun j => E j ∧ parent j ≠ i) l
  grand : 0 < i → E i → ∀ c, 0 < c → parent c = i → Le key l (parent i) c
  below : ∀ c, 0 < c → i ≤ parent c → E c

theorem DownReady.done {i : ℕ} (h : DownReady key E l i)
    (hi : ∀ c, 0 < c → parent c = i → Le key l i c) : OrderedAt key E l := by
  intro j hj hE
  by_cases hji : parent j = i
  · rw [hji]
    exact hi j hj hji
  · exact h.other j hj ⟨hE, hji⟩

/-- The entry goes down to the smaller one of its children. -/
theorem DownReady.move {i c : ℕ} {x y : K} (h : DownReady key E l i) (hc : 0 < c)
    (hci : parent c = i) (hswap : Swapped l l' i c) (hx : l[i]? = some x) (hy : l[c]? = some y)
    (hle : key y ≤ key x) (hleast : ∀ d, 0 < d → parent d = i → Le key l c d) :
    DownReady key E l' c := by
  have hlt : i < c := hci ▸ parent_lt hc
  have hyi : l'[i]? = some y := hswap.first.trans hy
  have hxc : l'[c]? = some x := hswap.second.trans hx
  constructor
  · intro j hj hE a b ha hb
    obtain ⟨hE, hjc⟩ := hE
    by_cases hpi : parent j = i
    · rw [hpi, hyi] at ha
      obtain rfl := Option.some.inj ha
      by_cases hjeq : j = c
      · rw [hjeq, hxc] at hb
        obtain rfl := Option.some.inj hb
        exact hle
      · have hji : j ≠ i := fun heq => by
          have := parent_lt hj
          omega
        rw [hswap.other j hji hjeq] at hb
        exact hleast j hj hpi y b hy hb
    · rw [hswap.other (parent j) hpi hjc] at ha
      by_cases hji : j = i
      · subst hji
        rw [hyi] at hb
        obtain rfl := Option.some.inj hb
        exact h.grand hj hE c hc hci a y ha hy
      · have hjne : j ≠ c := fun heq => hpi (heq ▸ hci)
        rw [hswap.other j hji hjne] at hb
        exact h.other j hj ⟨hE, hpi⟩ a b ha hb
  · intro _ _ d hd hdc a b ha hb
    have hdlt : parent d < d := parent_lt hd
    rw [hci, hyi] at ha
    obtain rfl := Option.some.inj ha
    rw [hswap.other d (by omega) (by omega)] at hb
    exact h.other d hd ⟨h.below d hd (by omega), by omega⟩ y b (hdc ▸ hy) hb
  · intro d hd hdc
    exact h.below d hd (by omega)

end Painless.BinaryHeap
