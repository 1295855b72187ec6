import Painless.BinaryHeap
import Painless.Transitions
import Mathlib.Logic.Function.Basic
import Mathlib.Data.Option.Basic
import Mathlib.Data.List.Nodup
import Mathlib.Order.Nat

/-!
The heap of MiniSat with the place of every key. The keys are in order by a
priority, which the caller may change for one key at a time and then tell by
decrease, increase or update. Every operation keeps the order and the places, and
reads and writes only inside the heap and the map of the indices.
-/
namespace Painless.MiniSatHeap

open BinaryHeap
open Transitions (Machine)

/-- The map of the indices has an entry for every key whose number is less than its
size. No index stands for a negative one. -/
structure Heap (K : Type*) where
  heap : List K
  indices : K → Option ℕ
  /-- MkIndex -/
  index : K → ℕ
  size : ℕ

variable {K P : Type*} [DecidableEq K] [LinearOrder P] (key : K → P)

namespace Heap

def empty (index : K → ℕ) : Heap K := ⟨[], fun _ => none, index, 0⟩

/-- IntMap::has, which every access of the map asserts -/
def has (h : Heap K) (k : K) : Prop := h.index k < h.size

instance (h : Heap K) (k : K) : Decidable (h.has k) := inferInstanceAs (Decidable (_ < _))

/-- What is read of the map. -/
def entry (h : Heap K) (k : K) : Option ℕ := if h.has k then h.indices k else none

def inHeap (h : Heap K) (k : K) : Prop := (h.entry k).isSome

instance (h : Heap K) (k : K) : Decidable (h.inHeap k) :=
  inferInstanceAs (Decidable (_ = true))

/-- indices.reserve(k, -1) -/
def reserve (h : Heap K) (k : K) : Heap K :=
  { h with indices := h.entry, size := max h.size (h.index k + 1) }

/-- heap[i] = x; indices[x] = i; -/
def place (h : Heap K) (x : K) (i : ℕ) : Heap K :=
  { h with heap := h.heap.set i x, indices := Function.update h.indices x (some i) }

/-- The end of a percolation, with what the access of the map asserts. -/
def put (h : Heap K) (x : K) (i : ℕ) : Option (Heap K) :=
  if h.has x then some (h.place x i) else none

/-- The loop of percolateUp; x is the key that was at the first index. -/
def percolateUpLoop (x : K) (h : Heap K) (i : ℕ) : Option (Heap K) :=
  if _ : i = 0 then h.put x i
  else
    match h.heap[parent i]? with
    | none => none
    | some y =>
      if key x < key y then
        if h.has y then percolateUpLoop x (h.place y i) (parent i) else none
      else h.put x i
termination_by i
decreasing_by exact parent_lt (Nat.pos_of_ne_zero ‹_›)

def percolateUp (h : Heap K) (i : ℕ) : Option (Heap K) :=
  h.heap[i]?.bind fun x => percolateUpLoop key x h i

/-- The child that percolateDown looks at. -/
def smallerChild (l : List K) (i : ℕ) : Option (ℕ × K) :=
  l[left i]?.map fun a =>
    match l[right i]? with
    | none => (left i, a)
    | some b => if key b < key a then (right i, b) else (left i, a)

omit [DecidableEq K] in
theorem smallerChild_some {l : List K} {i : ℕ} {c : ℕ × K} (h : smallerChild key l i = some c) :
    (c.1 = left i ∨ c.1 = right i) ∧ l[c.1]? = some c.2 := by
  obtain ⟨a, ha, rfl⟩ := Option.map_eq_some_iff.mp h
  cases hb : l[right i]? with
  | none => exact ⟨Or.inl rfl, ha⟩
  | some b =>
    dsimp only
    split_ifs
    · exact ⟨Or.inr rfl, hb⟩
    · exact ⟨Or.inl rfl, ha⟩

omit [DecidableEq K] in
theorem smallerChild_lt {l : List K} {i : ℕ} {c : ℕ × K} (h : smallerChild key l i = some c) :
    i < c.1 ∧ c.1 < l.length := by
  obtain ⟨hside, hget⟩ := smallerChild_some key h
  refine ⟨?_, (List.getElem?_eq_some_iff.mp hget).1⟩
  rcases hside with heq | heq <;> rw [heq]
  · exact lt_left i
  · exact lt_right i

/-- The loop of percolateDown. -/
def percolateDownLoop (x : K) (h : Heap K) (i : ℕ) : Option (Heap K) :=
  match _hc : smallerChild key h.heap i with
  | none => h.put x i
  | some c =>
    if key c.2 < key x then
      if h.has c.2 then percolateDownLoop x (h.place c.2 i) c.1 else none
    else h.put x i
termination_by h.heap.length - i
decreasing_by
  obtain ⟨hlt, hlength⟩ := smallerChild_lt key _hc
  simp only [place, List.length_set]
  omega

def percolateDown (h : Heap K) (i : ℕ) : Option (Heap K) :=
  h.heap[i]?.bind fun x => percolateDownLoop key x h i

def decrease (h : Heap K) (k : K) : Option (Heap K) := (h.entry k).bind (percolateUp key h)

def increase (h : Heap K) (k : K) : Option (Heap K) := (h.entry k).bind (percolateDown key h)

/-- A new last key. -/
def push (h : Heap K) (k : K) : Heap K :=
  { h with
    heap := h.heap ++ [k]
    indices := Function.update h.indices k (some h.heap.length) }

def insert (h : Heap K) (k : K) : Option (Heap K) :=
  let h := h.reserve k
  if h.inHeap k then none else percolateUp key (h.push k) h.heap.length

def update (h : Heap K) (k : K) : Option (Heap K) :=
  match h.entry k with
  | none => h.insert key k
  | some i =>
    (percolateUp key h i).bind fun h => (h.entry k).bind (percolateDown key h)

/-- The end of remove and of removeMin: the last key goes to the index that has
become free. -/
def fill (h : Heap K) (k : K) (i : ℕ) (last : K) : Heap K :=
  { h with
    heap := (h.heap.set i last).dropLast
    indices := Function.update (Function.update h.indices last (some i)) k none }

def remove (h : Heap K) (k : K) : Option (Heap K) :=
  (h.entry k).bind fun i =>
    if i < h.heap.length - 1 then
      h.heap.getLast?.bind fun last =>
        if h.has last then percolateDown key (h.fill k i last) i else none
    else
      some { h with heap := h.heap.dropLast, indices := Function.update h.indices k none }

def removeMin (h : Heap K) : Option (K × Heap K) :=
  match h.heap[0]?, h.heap.getLast? with
  | some x, some last =>
    if h.has last ∧ h.has x then
      let h := h.fill x 0 last
      if 1 < h.heap.length then (percolateDown key h 0).map fun h => (x, h) else some (x, h)
    else none
  | _, _ => none

def forget (indices : K → Option ℕ) (ks : List K) : K → Option ℕ :=
  ks.foldl (fun indices k => Function.update indices k none) indices

def clear (h : Heap K) : Option (Heap K) :=
  if ∀ k ∈ h.heap, h.has k then
    some { h with heap := [], indices := forget h.indices h.heap }
  else none

/-- The first loop of build. -/
def pushAll (h : Heap K) : List K → Option (Heap K)
  | [] => some h
  | k :: ks => if h.has k then pushAll (h.push k) ks else none

/-- The second loop of build, downwards from the index before `n`. -/
def heapify (h : Heap K) : ℕ → Option (Heap K)
  | 0 => some h
  | n + 1 => (percolateDown key h n).bind fun h => heapify h n

def build (h : Heap K) (ns : List K) : Option (Heap K) :=
  h.clear.bind fun h => (h.pushAll ns).bind fun h => h.heapify key (h.heap.length / 2)

end Heap

/-! ### The places -/

/-- Every key is where its index says, and nowhere else. -/
def Places (h : Heap K) : Prop := ∀ k i, h.entry k = some i ↔ h.heap[i]? = some k

structure HeapOk (h : Heap K) : Prop where
  places : Places h
  ordered : Ordered key h.heap

/-- The heaps have the same keys, and the map of the first has not lost an entry. -/
structure SameKeys (h t : Heap K) : Prop where
  inHeap : ∀ k, t.inHeap k ↔ h.inHeap k
  has : ∀ k, h.has k → t.has k

variable {key} {h t : Heap K}

omit [DecidableEq K] in
theorem SameKeys.refl (h : Heap K) : SameKeys h h := ⟨fun _ => Iff.rfl, fun _ => id⟩

omit [DecidableEq K] in
theorem SameKeys.trans {u : Heap K} (hst : SameKeys h t) (htu : SameKeys t u) : SameKeys h u :=
  ⟨fun k => (htu.inHeap k).trans (hst.inHeap k), fun k hk => htu.has k (hst.has k hk)⟩

omit [DecidableEq K] in
theorem Heap.has_of_entry {k : K} {i : ℕ} (h : t.entry k = some i) : t.has k := by
  by_contra hk
  unfold Heap.entry at h
  rw [if_neg hk] at h
  exact absurd h.symm (Option.some_ne_none i)

/-- A write to the map. -/
theorem Heap.entry_update (h : Heap K) (l : List K) {x : K} (hx : h.has x) (v : Option ℕ) :
    ({ h with heap := l, indices := Function.update h.indices x v } : Heap K).entry =
      Function.update h.entry x v := by
  funext k
  show (if h.has k then Function.update h.indices x v k else none) = _
  rw [Function.update_apply, Function.update_apply]
  by_cases hkx : k = x
  · rw [if_pos hkx, if_pos hkx, hkx, if_pos hx]
  · rw [if_neg hkx, if_neg hkx]
    rfl

omit [DecidableEq K] in
theorem Places.index (hplaces : Places h) {k : K} (hk : h.inHeap k) :
    ∃ i, h.entry k = some i ∧ h.heap[i]? = some k := by
  obtain ⟨i, hi⟩ := Option.isSome_iff_exists.mp hk
  exact ⟨i, hi, (hplaces k i).mp hi⟩

omit [DecidableEq K] in
theorem Places.inHeap_iff (hplaces : Places h) {k : K} : h.inHeap k ↔ k ∈ h.heap := by
  constructor
  · intro hk
    obtain ⟨i, -, hget⟩ := hplaces.index hk
    exact List.mem_of_getElem? hget
  · intro hk
    obtain ⟨i, hi⟩ := List.mem_iff_getElem?.mp hk
    exact Option.isSome_iff_exists.mpr ⟨i, (hplaces k i).mpr hi⟩

omit [DecidableEq K] in
theorem Places.has (hplaces : Places h) {k : K} {i : ℕ} (hk : h.heap[i]? = some k) : h.has k :=
  Heap.has_of_entry ((hplaces k i).mpr hk)

omit [DecidableEq K] in
theorem Places.eq_of_getElem? (hplaces : Places h) {k : K} {i j : ℕ} (hi : h.heap[i]? = some k)
    (hj : h.heap[j]? = some k) : i = j :=
  Option.some.inj (((hplaces k i).mpr hi).symm.trans ((hplaces k j).mpr hj))

omit [DecidableEq K] in
theorem Places.nodup (hplaces : Places h) : h.heap.Nodup := by
  rw [List.nodup_iff_getElem?_ne_getElem?]
  intro i j hij hj heq
  have hget := List.getElem?_eq_getElem hj
  exact hij.ne (hplaces.eq_of_getElem? (heq.trans hget) hget)

omit [DecidableEq K] in
theorem SameKeys.perm (hsame : SameKeys h t) (hh : Places h) (ht : Places t) :
    t.heap.Perm h.heap := by
  rw [List.perm_ext_iff_of_nodup ht.nodup hh.nodup]
  intro k
  rw [← ht.inHeap_iff, ← hh.inHeap_iff]
  exact hsame.inHeap k

namespace Heap

theorem entry_place {x : K} (hx : h.has x) (i : ℕ) :
    (h.place x i).entry = Function.update h.entry x (some i) :=
  h.entry_update _ hx _

theorem place_self (hplaces : Places h) {x : K} {i : ℕ} (hx : h.heap[i]? = some x) :
    h.place x i = h := by
  obtain ⟨hi, rfl⟩ := List.getElem?_eq_some_iff.mp hx
  have hentry := (hplaces _ i).mpr hx
  have hindex : h.indices h.heap[i] = some i := by
    rwa [entry, if_pos (has_of_entry hentry)] at hentry
  unfold place
  rw [List.set_getElem_self, ← hindex, Function.update_eq_self]

theorem put_some {x : K} {i : ℕ} (hplaces : Places (h.place x i)) (hi : i < h.heap.length) :
    h.put x i = some (h.place x i) :=
  if_pos (hplaces.has (List.getElem?_set_self hi))

theorem heap_place_place (x y : K) (i p : ℕ) :
    ((h.place y i).place x p).heap = ((h.place x i).heap.set i y).set p x := by
  simp only [place, List.set_set]

theorem entry_place_place {x y : K} (hne : x ≠ y) (hx : h.has x) (hy : h.has y) (i p : ℕ) :
    ((h.place y i).place x p).entry =
      Function.update (Function.update (h.place x i).entry y (some i)) x (some p) := by
  rw [@entry_place K _ (h.place y i) x hx, entry_place hy, entry_place hx,
    Function.update_comm hne, Function.update_idem]

end Heap

/-- The key of the hole and the key at another index change places. -/
theorem Places.move {x y : K} {i p : ℕ} (hplaces : Places (h.place x i))
    (hi : i < h.heap.length) (hne : i ≠ p) (hy : (h.place x i).heap[p]? = some y) :
    Swapped (h.place x i).heap ((h.place y i).place x p).heap i p ∧
      Places ((h.place y i).place x p) ∧
      SameKeys (h.place x i) ((h.place y i).place x p) := by
  have hx : (h.place x i).heap[i]? = some x := List.getElem?_set_self hi
  have hswap : Swapped (h.place x i).heap ((h.place y i).place x p).heap i p := by
    rw [Heap.heap_place_place]
    exact swapped_set hne hx hy
  have hxy : x ≠ y := by
    rintro rfl
    exact hne (hplaces.eq_of_getElem? hx hy)
  have hentries := @Heap.entry_place_place K _ h x y hxy (hplaces.has hx) (hplaces.has hy) i p
  refine ⟨hswap, fun k j => ?_, fun k => ?_, fun _ hk => hk⟩
  · rw [hentries, Function.update_apply, Function.update_apply]
    by_cases hji : j = i
    · rw [hji, hswap.first, hy]
      split_ifs with hkx hky
      · simp [hkx, hne.symm, hxy.symm]
      · simp [hky]
      · rw [hplaces k i, hx]
        simp [Ne.symm hkx, Ne.symm hky]
    · by_cases hjp : j = p
      · rw [hjp, hswap.second, hx]
        split_ifs with hkx hky
        · simp [hkx]
        · simp [hne, Ne.symm hkx]
        · rw [hplaces k p, hy]
          simp [Ne.symm hkx, Ne.symm hky]
      · rw [hswap.other j hji hjp]
        split_ifs with hkx hky
        · rw [← hplaces k j, (hplaces k i).mpr (hkx ▸ hx)]
          simp [Ne.symm hjp, Ne.symm hji]
        · rw [← hplaces k j, (hplaces k p).mpr (hky ▸ hy)]
          simp [Ne.symm hjp, Ne.symm hji]
        · exact hplaces k j
  · unfold Heap.inHeap
    rw [hentries, Function.update_apply, Function.update_apply]
    split_ifs with hkx hky
    · simp [hkx, (hplaces x i).mpr hx]
    · simp [hky, (hplaces y p).mpr hy]
    · exact Iff.rfl

/-! ### Percolation -/

theorem percolateUpLoop_spec {x : K} {i : ℕ} (hi : i < h.heap.length)
    (hplaces : Places (h.place x i)) (hready : UpReady key (h.place x i).heap i) :
    ∃ t, Heap.percolateUpLoop key x h i = some t ∧ HeapOk key t ∧ SameKeys (h.place x i) t := by
  induction i using Nat.strongRecOn generalizing h with
  | _ i ih =>
    rw [Heap.percolateUpLoop]
    by_cases hzero : i = 0
    · rw [dif_pos hzero]
      exact ⟨_, Heap.put_some hplaces hi,
        ⟨hplaces, hready.done fun hpos => absurd hzero (by omega)⟩, SameKeys.refl _⟩
    rw [dif_neg hzero]
    have hpos := Nat.pos_of_ne_zero hzero
    have hparent := parent_lt hpos
    have hlength : parent i < h.heap.length := by omega
    have hx : (h.place x i).heap[i]? = some x := List.getElem?_set_self hi
    have hy : (h.place x i).heap[parent i]? = some h.heap[parent i] := by
      show (h.heap.set i x)[parent i]? = _
      rw [List.getElem?_set_ne (by omega), List.getElem?_eq_getElem hlength]
    rw [List.getElem?_eq_getElem hlength]
    dsimp only
    generalize h.heap[parent i] = y at hy ⊢
    by_cases hlt : key x < key y
    · rw [if_pos hlt, if_pos (show h.has y from hplaces.has hy)]
      obtain ⟨hswap, hplaces', hsame⟩ := hplaces.move hi (by omega) hy
      obtain ⟨t, ht, hok, hsame'⟩ := ih (parent i) hparent (h := h.place y i)
        (by simpa [Heap.place] using hlength) hplaces' (hready.move hpos hswap hx hy hlt)
      exact ⟨t, ht, hok, hsame.trans hsame'⟩
    · rw [if_neg hlt]
      refine ⟨_, Heap.put_some hplaces hi, ⟨hplaces, hready.done fun _ a b ha hb => ?_⟩,
        SameKeys.refl _⟩
      obtain rfl := Option.some.inj (hy.symm.trans ha)
      obtain rfl := Option.some.inj (hx.symm.trans hb)
      exact not_lt.mp hlt

theorem percolateUp_spec {i : ℕ} (hi : i < h.heap.length) (hplaces : Places h)
    (hready : UpReady key h.heap i) :
    ∃ t, h.percolateUp key i = some t ∧ HeapOk key t ∧ SameKeys h t := by
  have hx := List.getElem?_eq_getElem hi
  have hself := Heap.place_self hplaces hx
  unfold Heap.percolateUp
  rw [hx, Option.bind_some]
  have hspec := @percolateUpLoop_spec K P _ _ key h h.heap[i] i hi
  rw [hself] at hspec
  exact hspec hplaces hready

omit [DecidableEq K] in
/-- No child is smaller than the one that is looked at. -/
theorem smallerChild_le {l : List K} {i : ℕ} {c : ℕ × K}
    (hc : Heap.smallerChild key l i = some c) {d : ℕ} (hd : 0 < d) (hdi : parent d = i) :
    Le key l c.1 d := by
  obtain ⟨a, ha, rfl⟩ := Option.map_eq_some_iff.mp hc
  intro y z hy hz
  rcases (parent_eq_iff hd).mp hdi with rfl | rfl
  · obtain rfl := Option.some.inj (ha.symm.trans hz)
    cases hb : l[right i]? with
    | none =>
      rw [hb] at hy
      exact (Option.some.inj (ha.symm.trans hy)).symm ▸ le_rfl
    | some b =>
      rw [hb] at hy
      dsimp only at hy
      split_ifs at hy with hlt
      · obtain rfl := Option.some.inj (hb.symm.trans hy)
        exact hlt.le
      · exact (Option.some.inj (ha.symm.trans hy)).symm ▸ le_rfl
  · rw [hz] at hy
    dsimp only at hy
    split_ifs at hy with hlt
    · exact (Option.some.inj (hz.symm.trans hy)).symm ▸ le_rfl
    · obtain rfl := Option.some.inj (ha.symm.trans hy)
      exact not_lt.mp hlt

omit [DecidableEq K] in
theorem smallerChild_none {l : List K} {i : ℕ} (hc : Heap.smallerChild key l i = none) {d : ℕ}
    (hd : 0 < d) (hdi : parent d = i) : l[d]? = none := by
  have hlength : l.length ≤ left i :=
    List.getElem?_eq_none_iff.mp (Option.map_eq_none_iff.mp hc)
  rw [List.getElem?_eq_none_iff]
  have hright : left i ≤ right i := by
    unfold left right
    omega
  rcases (parent_eq_iff hd).mp hdi with rfl | rfl <;> omega

theorem smallerChild_place {x : K} {i : ℕ} :
    Heap.smallerChild key (h.place x i).heap i = Heap.smallerChild key h.heap i := by
  have hleft : (h.heap.set i x)[left i]? = h.heap[left i]? :=
    List.getElem?_set_ne (lt_left i).ne
  have hright : (h.heap.set i x)[right i]? = h.heap[right i]? :=
    List.getElem?_set_ne (lt_right i).ne
  unfold Heap.smallerChild Heap.place
  rw [hleft, hright]

theorem percolateDownLoop_spec {E : ℕ → Prop} {x : K} {i n : ℕ} (hn : h.heap.length - i = n)
    (hi : i < h.heap.length) (hplaces : Places (h.place x i))
    (hready : DownReady key E (h.place x i).heap i) :
    ∃ t, Heap.percolateDownLoop key x h i = some t ∧ Places t ∧ OrderedAt key E t.heap ∧
      SameKeys (h.place x i) t := by
  induction n using Nat.strongRecOn generalizing h i with
  | _ n ih =>
    have hx : (h.place x i).heap[i]? = some x := List.getElem?_set_self hi
    rw [Heap.percolateDownLoop]
    split
    case h_1 hnone =>
      refine ⟨_, Heap.put_some hplaces hi, hplaces, hready.done fun d hd hdi a b ha hb => ?_,
        SameKeys.refl _⟩
      rw [smallerChild_none (smallerChild_place.trans hnone) hd hdi] at hb
      exact absurd hb.symm (Option.some_ne_none b)
    case h_2 c hc =>
      obtain ⟨hlt, hlength⟩ := Heap.smallerChild_lt key hc
      have hc' := (@smallerChild_place K P _ _ key h x i).trans hc
      obtain ⟨hside, hy⟩ := Heap.smallerChild_some key hc'
      have hpos : 0 < c.1 := Nat.zero_lt_of_lt hlt
      have hparent : parent c.1 = i := (parent_eq_iff hpos).mpr hside
      have hleast (d : ℕ) (hd : 0 < d) (hdi : parent d = i) : Le key (h.place x i).heap c.1 d :=
        smallerChild_le hc' hd hdi
      by_cases hkey : key c.2 < key x
      · rw [if_pos hkey, if_pos (show h.has c.2 from hplaces.has hy)]
        obtain ⟨hswap, hplaces', hsame⟩ := hplaces.move hi hlt.ne hy
        have hlength' : (h.place c.2 i).heap.length = h.heap.length := by simp [Heap.place]
        obtain ⟨t, ht, hp, ho, hsame'⟩ := ih (h.heap.length - c.1) (by omega)
          (h := h.place c.2 i) (by rw [hlength']) (by rwa [hlength']) hplaces'
          (hready.move hpos hparent hswap hx hy hkey.le hleast)
        exact ⟨t, ht, hp, ho, hsame.trans hsame'⟩
      · rw [if_neg hkey]
        refine ⟨_, Heap.put_some hplaces hi, hplaces,
          hready.done fun d hd hdi a b ha hb => ?_, SameKeys.refl _⟩
        obtain rfl := Option.some.inj (hx.symm.trans ha)
        exact (not_lt.mp hkey).trans (hleast d hd hdi c.2 b hy hb)

theorem percolateDown_spec {E : ℕ → Prop} {i : ℕ} (hi : i < h.heap.length) (hplaces : Places h)
    (hready : DownReady key E h.heap i) :
    ∃ t, h.percolateDown key i = some t ∧ Places t ∧ OrderedAt key E t.heap ∧ SameKeys h t := by
  have hx := List.getElem?_eq_getElem hi
  have hself := Heap.place_self hplaces hx
  unfold Heap.percolateDown
  rw [hx, Option.bind_some]
  have hspec := @percolateDownLoop_spec K P _ _ key h E h.heap[i] i _ rfl hi
  rw [hself] at hspec
  exact hspec hplaces hready

/-! ### One key has changed its priority -/

section Priority

variable {key' : K → P} {k : K}

/-- No other key has changed its priority. -/
def OnlyAt (key key' : K → P) (k : K) : Prop := ∀ j, j ≠ k → key' j = key j

omit [DecidableEq K] in
theorem HeapOk.le_of_ne (hok : HeapOk key h) (honly : OnlyAt key key' k) {i j m : ℕ}
    (hi : h.heap[i]? = some k) (hj : j ≠ i) (hm : m ≠ i) (hle : Le key h.heap j m) :
    Le key' h.heap j m := by
  intro y z hy hz
  have hyk : y ≠ k := fun heq => hj (hok.places.eq_of_getElem? (heq ▸ hy) hi)
  have hzk : z ≠ k := fun heq => hm (hok.places.eq_of_getElem? (heq ▸ hz) hi)
  rw [honly y hyk, honly z hzk]
  exact hle y z hy hz

omit [DecidableEq K] in
/-- The entries below the key are in order with the one above it. -/
theorem HeapOk.grand (hok : HeapOk key h) (honly : OnlyAt key key' k) {i : ℕ}
    (hi : h.heap[i]? = some k) (hpos : 0 < i) (c : ℕ) (hc : 0 < c) (hci : parent c = i) :
    Le key' h.heap (parent i) c := by
  have hparent := parent_lt hpos
  have hlt := parent_lt hc
  refine hok.le_of_ne honly hi (by omega) (by omega) ?_
  have habove : Le key h.heap i c := by
    rw [← hci]
    exact hok.ordered c hc trivial
  exact (hok.ordered i hpos trivial).trans habove (List.getElem?_eq_some_iff.mp hi).1

omit [DecidableEq K] in
theorem upReady_of_le (hok : HeapOk key h) (honly : OnlyAt key key' k) (hle : key' k ≤ key k)
    {i : ℕ} (hi : h.heap[i]? = some k) : UpReady key' h.heap i := by
  refine ⟨fun j hj hji => ?_, hok.grand honly hi⟩
  by_cases hpi : parent j = i
  · intro y z hy hz
    obtain rfl := Option.some.inj (hi.symm.trans (hpi ▸ hy))
    have hzk : z ≠ k := fun heq => hji (hok.places.eq_of_getElem? (heq ▸ hz) hi)
    rw [honly z hzk]
    exact hle.trans (hok.ordered j hj trivial k z hy hz)
  · exact hok.le_of_ne honly hi hpi hji (hok.ordered j hj trivial)

omit [DecidableEq K] in
theorem downReady_of_le (hok : HeapOk key h) (honly : OnlyAt key key' k) (hle : key k ≤ key' k)
    {i : ℕ} (hi : h.heap[i]? = some k) : DownReady key' (fun _ => True) h.heap i := by
  refine ⟨fun j hj hji => ?_, fun hpos _ => hok.grand honly hi hpos, fun _ _ _ => trivial⟩
  by_cases heq : j = i
  · intro y z hy hz
    obtain rfl := Option.some.inj (hi.symm.trans (heq ▸ hz))
    have hyk : y ≠ k := fun hyk => hji.2 (hok.places.eq_of_getElem? (hyk ▸ hy) hi)
    rw [honly y hyk]
    exact (hok.ordered j hj trivial y k hy hz).trans hle
  · exact hok.le_of_ne honly hi hji.2 heq (hok.ordered j hj trivial)

theorem decrease_ok (hok : HeapOk key h) (hk : h.inHeap k) (honly : OnlyAt key key' k)
    (hle : key' k ≤ key k) : ∃ t, h.decrease key' k = some t ∧ HeapOk key' t ∧ SameKeys h t := by
  obtain ⟨i, hindex, hi⟩ := hok.places.index hk
  unfold Heap.decrease
  rw [hindex, Option.bind_some]
  exact percolateUp_spec (List.getElem?_eq_some_iff.mp hi).1 hok.places
    (upReady_of_le hok honly hle hi)

theorem increase_ok (hok : HeapOk key h) (hk : h.inHeap k) (honly : OnlyAt key key' k)
    (hle : key k ≤ key' k) : ∃ t, h.increase key' k = some t ∧ HeapOk key' t ∧ SameKeys h t := by
  obtain ⟨i, hindex, hi⟩ := hok.places.index hk
  unfold Heap.increase
  rw [hindex, Option.bind_some]
  obtain ⟨t, ht, hplaces, hordered, hsame⟩ := percolateDown_spec
    (List.getElem?_eq_some_iff.mp hi).1 hok.places (downReady_of_le hok honly hle hi)
  exact ⟨t, ht, ⟨hplaces, hordered⟩, hsame⟩

/-- Where the entry is in order with its parent nothing goes up. -/
theorem percolateUp_eq {i : ℕ} (hplaces : Places h) (hi : i < h.heap.length)
    (hle : 0 < i → Le key h.heap (parent i) i) : h.percolateUp key i = some h := by
  have hx := List.getElem?_eq_getElem hi
  have hself := Heap.place_self hplaces hx
  unfold Heap.percolateUp
  rw [hx, Option.bind_some, Heap.percolateUpLoop]
  have hput : h.put h.heap[i] i = some h := by
    rw [Heap.put_some (by rwa [hself]) hi, hself]
  split_ifs with hzero
  · exact hput
  · have hpos := Nat.pos_of_ne_zero hzero
    have hlength : parent i < h.heap.length := Nat.lt_trans (parent_lt hpos) hi
    have hy := List.getElem?_eq_getElem hlength
    rw [hy]
    dsimp only
    rw [if_neg (not_lt.mpr (hle hpos _ _ hy hx)), hput]

theorem entry_push (hk : h.has k) :
    (h.push k).entry = Function.update h.entry k (some h.heap.length) := h.entry_update _ hk _

theorem places_push (hplaces : Places h) (hk : h.has k) (hnone : h.entry k = none) :
    Places (h.push k) := by
  intro j i
  show (h.push k).entry j = some i ↔ (h.heap ++ [k])[i]? = some j
  rw [entry_push hk, Function.update_apply]
  rcases Nat.lt_trichotomy i h.heap.length with hlt | rfl | hgt
  · rw [List.getElem?_append_left hlt, ← hplaces j i]
    split_ifs with hjk
    · rw [hjk, hnone]
      simp [(Nat.ne_of_lt hlt).symm]
    · exact Iff.rfl
  · rw [List.getElem?_concat_length]
    split_ifs with hjk
    · simp [hjk]
    · refine iff_of_false (fun heq => ?_) (fun heq => hjk (Option.some.inj heq).symm)
      have hget := (hplaces j _).mp heq
      exact absurd (List.getElem?_eq_some_iff.mp hget).1 (Nat.lt_irrefl _)
  · have hout : (h.heap ++ [k])[i]? = none := by
      rw [List.getElem?_eq_none_iff, List.length_append, List.length_singleton]
      exact hgt
    rw [hout]
    split_ifs with hjk
    · simp [Nat.ne_of_lt hgt]
    · refine iff_of_false (fun heq => ?_) (fun heq => by simp at heq)
      have hget := (hplaces j i).mp heq
      exact absurd (List.getElem?_eq_some_iff.mp hget).1 (Nat.lt_asymm hgt)

omit [DecidableEq K] in
theorem entry_reserve : (h.reserve k).entry = h.entry := by
  funext j
  show (if h.index j < max h.size (h.index k + 1) then h.entry j else none) = h.entry j
  split_ifs with hj
  · rfl
  · exact (if_neg fun hhas : h.has j => hj (hhas.trans_le (le_max_left _ _))).symm

omit [DecidableEq K] in
theorem has_reserve : (h.reserve k).has k := le_max_right h.size _

omit [DecidableEq K] in
theorem has_reserve_of_has {j : K} (hj : h.has j) : (h.reserve k).has j :=
  hj.trans_le (le_max_left _ _)

theorem insert_ok (hok : HeapOk key h) (hk : ¬ h.inHeap k) :
    ∃ t, h.insert key k = some t ∧ HeapOk key t ∧ (∀ j, t.inHeap j ↔ h.inHeap j ∨ j = k) ∧
      t.has k ∧ ∀ j, h.has j → t.has j := by
  have hentry := @entry_reserve K h k
  have hreserved : Places (h.reserve k) := fun j i => by
    rw [hentry]
    exact hok.places j i
  have hout : ¬ (h.reserve k).inHeap k := by rwa [Heap.inHeap, hentry]
  have hnone : (h.reserve k).entry k = none := Option.not_isSome_iff_eq_none.mp hout
  have hplaces := places_push hreserved has_reserve hnone
  have hlength (j : ℕ) (hj : 0 < j) (hjl : j ≠ h.heap.length) :
      Le key (h.heap ++ [k]) (parent j) j := by
    intro y z hy hz
    have hparent := parent_lt hj
    have hlt := (List.getElem?_eq_some_iff.mp hz).1
    rw [List.length_append, List.length_singleton] at hlt
    rw [List.getElem?_append_left (by omega)] at hy hz
    exact hok.ordered j hj trivial y z hy hz
  have hready : UpReady key (h.heap ++ [k]) h.heap.length := by
    refine ⟨fun j hj hjl => hlength j hj hjl, fun _ c hc hcl a b _ hb => ?_⟩
    have hlt := (List.getElem?_eq_some_iff.mp hb).1
    have hparent := parent_lt hc
    rw [List.length_append, List.length_singleton] at hlt
    omega
  unfold Heap.insert
  dsimp only
  rw [if_neg hout]
  obtain ⟨t, ht, hok', hsame⟩ := percolateUp_spec (h := (h.reserve k).push k)
    (i := h.heap.length) (by simp [Heap.push, Heap.reserve]) hplaces hready
  have hkeeps {j : K} (hj : (h.reserve k).has j) : t.has j := hsame.has j hj
  refine ⟨t, ht, hok', fun j => (hsame.inHeap j).trans ?_, hkeeps has_reserve,
    fun j hj => hkeeps (has_reserve_of_has hj)⟩
  unfold Heap.inHeap
  rw [entry_push has_reserve, hentry, Function.update_apply]
  split_ifs with hjk
  · simp [hjk]
  · simp [hjk]

/-- update tells of any change. -/
theorem update_ok (hok : HeapOk key h) (honly : OnlyAt key key' k) :
    ∃ t, h.update key' k = some t ∧ HeapOk key' t ∧ ∀ j, t.inHeap j ↔ h.inHeap j ∨ j = k := by
  unfold Heap.update
  cases hindex : h.entry k with
  | none =>
    have hout : ¬ h.inHeap k := by
      unfold Heap.inHeap
      simp [hindex]
    have hne (y : K) (i : ℕ) (hy : h.heap[i]? = some y) : y ≠ k := by
      rintro rfl
      exact hout (hok.places.inHeap_iff.mpr (List.mem_of_getElem? hy))
    have hok' : HeapOk key' h := by
      refine ⟨hok.places, fun j hj _ y z hy hz => ?_⟩
      rw [honly y (hne y _ hy), honly z (hne z _ hz)]
      exact hok.ordered j hj trivial y z hy hz
    obtain ⟨t, ht, htok, hkeys, -⟩ := insert_ok hok' hout
    exact ⟨t, ht, htok, hkeys⟩
  | some i =>
    have hi := (hok.places k i).mp hindex
    have hlength := (List.getElem?_eq_some_iff.mp hi).1
    have hkeys {t : Heap K} (hsame : SameKeys h t) (j : K) :
        t.inHeap j ↔ h.inHeap j ∨ j = k := by
      rw [hsame.inHeap j]
      refine ⟨Or.inl, Or.rec id ?_⟩
      rintro rfl
      exact Option.isSome_iff_exists.mpr ⟨i, hindex⟩
    dsimp only
    rcases le_total (key' k) (key k) with hle | hle
    · obtain ⟨u, hu, huok, husame⟩ :=
        percolateUp_spec hlength hok.places (upReady_of_le hok honly hle hi)
      rw [hu, Option.bind_some]
      have huk : u.inHeap k :=
        (husame.inHeap k).mpr (Option.isSome_iff_exists.mpr ⟨i, hindex⟩)
      obtain ⟨t, ht, htok, htsame⟩ := increase_ok huok huk (fun _ _ => rfl) le_rfl
      exact ⟨t, ht, htok, hkeys (husame.trans htsame)⟩
    · have hready := downReady_of_le hok honly hle hi
      have hstays : h.percolateUp key' i = some h := by
        refine percolateUp_eq hok.places hlength fun hpos => ?_
        have hparent := parent_lt hpos
        exact hready.other i hpos ⟨trivial, by omega⟩
      rw [hstays, Option.bind_some, hindex, Option.bind_some]
      obtain ⟨t, ht, hplaces, hordered, hsame⟩ := percolateDown_spec hlength hok.places hready
      exact ⟨t, ht, ⟨hplaces, hordered⟩, hkeys hsame⟩

end Priority

/-! ### Removal -/

section Removal

variable {k last : K} {i : ℕ}

theorem getElem?_fill (hi : i < h.heap.length) (j : ℕ) :
    (h.fill k i last).heap[j]? =
      if j < h.heap.length - 1 then if j = i then some last else h.heap[j]? else none := by
  unfold Heap.fill
  dsimp only
  rw [List.getElem?_dropLast, List.length_set]
  split_ifs with hj hji
  · rw [hji, List.getElem?_set_self hi]
  · exact List.getElem?_set_ne (Ne.symm hji)
  · rfl

theorem entry_fill (hk : h.has k) (hlast : h.has last) :
    (h.fill k i last).entry =
      Function.update (Function.update h.entry last (some i)) k none := by
  have hfilled := Heap.entry_update
    { h with indices := Function.update h.indices last (some i) } (h.heap.set i last).dropLast
    (show Heap.has { h with indices := _ } k from hk) none
  rw [h.entry_update h.heap hlast (some i)] at hfilled
  exact hfilled

omit [DecidableEq K] in
theorem Places.has_last (hplaces : Places h) (hlast : h.heap.getLast? = some last) :
    h.has last := by
  rw [List.getLast?_eq_getElem?] at hlast
  exact hplaces.has hlast

theorem places_fill (hplaces : Places h) (hk : h.heap[i]? = some k)
    (hlast : h.heap.getLast? = some last) : Places (h.fill k i last) := by
  have hentry := @entry_fill K _ h k last i (hplaces.has hk) (hplaces.has_last hlast)
  have hi := (List.getElem?_eq_some_iff.mp hk).1
  rw [List.getLast?_eq_getElem?] at hlast
  intro a j
  rw [getElem?_fill hi]
  rw [hentry, Function.update_apply, Function.update_apply]
  by_cases hak : a = k
  · rw [if_pos hak, hak]
    refine iff_of_false (by simp) fun heq => ?_
    split_ifs at heq with hj hji
    · have := hplaces.eq_of_getElem? (Option.some.inj heq ▸ hlast) hk
      omega
    · exact hji (hplaces.eq_of_getElem? heq hk)
  rw [if_neg hak]
  by_cases hal : a = last
  · rw [if_pos hal, hal]
    have hne : i ≠ h.heap.length - 1 := by
      rintro rfl
      exact hak (hal.trans (Option.some.inj (hlast.symm.trans hk)))
    constructor
    · intro heq
      obtain rfl := Option.some.inj heq
      rw [if_pos (by omega), if_pos rfl]
    · intro heq
      split_ifs at heq with hj hji
      · rw [hji]
      · have := hplaces.eq_of_getElem? heq hlast
        omega
  · rw [if_neg hal, hplaces a j]
    split_ifs with hj hji
    · rw [hji, hk]
      simp [Ne.symm hak, Ne.symm hal]
    · exact Iff.rfl
    · refine iff_of_false (fun heq => ?_) (by simp)
      have hlt := (List.getElem?_eq_some_iff.mp heq).1
      obtain rfl : j = h.heap.length - 1 := by omega
      exact hal (Option.some.inj (heq.symm.trans hlast))

theorem inHeap_fill (hplaces : Places h) (hk : h.heap[i]? = some k)
    (hlast : h.heap.getLast? = some last) (a : K) :
    (h.fill k i last).inHeap a ↔ h.inHeap a ∧ a ≠ k := by
  have hmem : h.inHeap last := hplaces.inHeap_iff.mpr (List.mem_of_getLast? hlast)
  show ((h.fill k i last).entry a).isSome ↔ _
  rw [entry_fill (hplaces.has hk) (hplaces.has_last hlast), Function.update_apply,
    Function.update_apply]
  split_ifs with hak hal
  · simp [hak]
  · rw [hal] at hak ⊢
    simp [hmem, hak]
  · exact (and_iff_left hak).symm

/-- The order outside of the index that was filled. -/
theorem le_fill (hi : i < h.heap.length) {j m : ℕ} (hj : j ≠ i) (hm : m ≠ i)
    (hle : Le key h.heap j m) : Le key (h.fill k i last).heap j m := by
  intro y z hy hz
  rw [getElem?_fill hi] at hy hz
  split_ifs at hy
  split_ifs at hz
  exact hle y z hy hz

theorem removeMin_ok (hok : HeapOk key h) (hne : h.heap ≠ []) :
    ∃ x t, h.removeMin key = some (x, t) ∧ h.inHeap x ∧ (∀ k, h.inHeap k → key x ≤ key k) ∧
      HeapOk key t ∧ (∀ k, t.inHeap k ↔ h.inHeap k ∧ k ≠ x) ∧ ∀ k, h.has k → t.has k := by
  have hpos : 0 < h.heap.length := List.length_pos_iff.mpr hne
  have hx := List.getElem?_eq_getElem hpos
  have hlast := List.getLast?_eq_some_getLast hne
  have hleast (k : K) (hk : h.inHeap k) : key h.heap[0] ≤ key k := by
    obtain ⟨j, -, hj⟩ := hok.places.index hk
    exact hok.ordered.le_of_root (List.getElem?_eq_some_iff.mp hj).1 _ _ hx hj
  have hmem : h.inHeap h.heap[0] := hok.places.inHeap_iff.mpr (List.getElem_mem hpos)
  unfold Heap.removeMin
  rw [hx, hlast]
  dsimp only
  generalize h.heap[0] = x at hx hleast hmem ⊢
  generalize h.heap.getLast hne = last at hlast ⊢
  have hplaces := places_fill hok.places hx hlast
  have hkeys := @inHeap_fill K _ h x last 0 hok.places hx hlast
  rw [if_pos ⟨hok.places.has_last hlast, hok.places.has hx⟩]
  split_ifs with hsize
  · have hready : DownReady key (fun _ => True) (h.fill x 0 last).heap 0 := by
      refine ⟨fun j hj hpj => ?_, fun hpos => absurd hpos (Nat.lt_irrefl 0), fun _ _ _ => trivial⟩
      exact le_fill hpos hpj.2 (by omega) (hok.ordered j hj trivial)
    obtain ⟨t, ht, hplaces', hordered, hsame⟩ :=
      percolateDown_spec (Nat.zero_lt_of_lt hsize) hplaces hready
    rw [ht]
    exact ⟨x, t, rfl, hmem, hleast, ⟨hplaces', hordered⟩,
      fun k => (hsame.inHeap k).trans (hkeys k), hsame.has⟩
  · refine ⟨x, _, rfl, hmem, hleast, ⟨hplaces, fun j hj _ y z _ hz => ?_⟩, hkeys, fun _ => id⟩
    have hlt := (List.getElem?_eq_some_iff.mp hz).1
    omega

theorem Heap.eq_of_put {x : K} (ht : h.put x i = some t) : t = h.place x i := by
  unfold Heap.put at ht
  split_ifs at ht
  exact (Option.some.inj ht).symm

/-- Percolation leaves alone what is before its index. -/
theorem getElem?_percolateDownLoop {x : K} {n j : ℕ} (hn : h.heap.length - i = n) (hj : j < i)
    (ht : Heap.percolateDownLoop key x h i = some t) : t.heap[j]? = h.heap[j]? := by
  induction n using Nat.strongRecOn generalizing h i with
  | _ n ih =>
    have hplace (y : K) : (h.place y i).heap[j]? = h.heap[j]? := List.getElem?_set_ne (by omega)
    rw [Heap.percolateDownLoop] at ht
    split at ht
    · rw [Heap.eq_of_put ht]
      exact hplace x
    case h_2 c hc =>
      obtain ⟨hlt, hlength⟩ := Heap.smallerChild_lt key hc
      have hlength' : (h.place c.2 i).heap.length = h.heap.length := by simp [Heap.place]
      split_ifs at ht
      · exact (ih (h.heap.length - c.1) (by omega) (by rw [hlength']) (by omega) ht).trans
          (hplace c.2)
      · rw [Heap.eq_of_put ht]
        exact hplace x

theorem getElem?_percolateDownLoop_self {x : K} (hi : i < h.heap.length)
    (ht : Heap.percolateDownLoop key x h i = some t) :
    t.heap[i]? = some x ∨
      ∃ c y, 0 < c ∧ parent c = i ∧ h.heap[c]? = some y ∧ key y < key x ∧
        t.heap[i]? = some y := by
  have hplace (y : K) : (h.place y i).heap[i]? = some y := List.getElem?_set_self hi
  rw [Heap.percolateDownLoop] at ht
  split at ht
  · rw [Heap.eq_of_put ht]
    exact Or.inl (hplace x)
  case h_2 c hc =>
    obtain ⟨hlt, -⟩ := Heap.smallerChild_lt key hc
    obtain ⟨hside, hy⟩ := Heap.smallerChild_some key hc
    have hpos := Nat.zero_lt_of_lt hlt
    split_ifs at ht with hkey
    · refine Or.inr ⟨c.1, c.2, hpos, (parent_eq_iff hpos).mpr hside, hy, hkey, ?_⟩
      exact (getElem?_percolateDownLoop rfl hlt ht).trans (hplace c.2)
    · rw [Heap.eq_of_put ht]
      exact Or.inl (hplace x)

/-- The last key is to come below one that it must not be below. -/
def Misplaced (key : K → P) (h : Heap K) (i : ℕ) : Prop :=
  0 < i ∧ i < h.heap.length - 1 ∧ ∃ y z, h.heap[parent i]? = some y ∧
    h.heap.getLast? = some z ∧ key z < key y

/-- After the last key has gone down from the index that was filled, it is in order
with its parent unless it was to go up. -/
theorem ordered_percolateDown_fill (hok : HeapOk key h) (hi : i < h.heap.length - 1)
    (hlast : h.heap.getLast? = some last)
    (ht : (h.fill k i last).percolateDown key i = some t)
    (hordered : OrderedAt key (· ≠ i) t.heap) : Ordered key t.heap ↔ ¬ Misplaced key h i := by
  have hlength : i < h.heap.length := by omega
  have hentry (j : ℕ) (hj : j ≠ i) (y : K) (hy : (h.fill k i last).heap[j]? = some y) :
      h.heap[j]? = some y := by
    rw [getElem?_fill hlength, if_neg hj] at hy
    split_ifs at hy
    exact hy
  have hself : (h.fill k i last).heap[i]? = some last := by
    rw [getElem?_fill hlength, if_pos hi, if_pos rfl]
  unfold Heap.percolateDown at ht
  rw [hself, Option.bind_some] at ht
  have hparent (hpos : 0 < i) : t.heap[parent i]? = h.heap[parent i]? := by
    have hlt := parent_lt hpos
    rw [getElem?_percolateDownLoop rfl hlt ht, getElem?_fill hlength, if_pos (by omega),
      if_neg (by omega)]
  have hcases := getElem?_percolateDownLoop_self (List.getElem?_eq_some_iff.mp hself).1 ht
  -- what comes up is in order with the parent of the key that was there
  have habove (hpos : 0 < i) {c : ℕ} {y : K} (hc : 0 < c) (hci : parent c = i)
      (hy : (h.fill k i last).heap[c]? = some y) : Le key h.heap (parent i) c :=
    hok.grand (fun _ _ => rfl) (List.getElem?_eq_getElem hlength) hpos c hc hci
  constructor
  · rintro hall ⟨hpos, -, y, z, hy, hz, hlt⟩
    obtain rfl := Option.some.inj (hlast.symm.trans hz)
    rcases hcases with hstays | ⟨c, w, hc, hci, hw, hless, hcame⟩
    · exact absurd (hall i hpos trivial y last ((hparent hpos).trans hy) hstays) (not_le.mpr hlt)
    · have hle := hall i hpos trivial y w ((hparent hpos).trans hy) hcame
      have hlt' := parent_lt hc
      have hle' := habove hpos hc hci hw y w hy (hentry c (by omega) w hw)
      exact absurd (hle'.trans_lt hless) (not_lt.mpr hlt.le)
  · intro hnot j hj _
    by_cases hji : j = i
    · subst hji
      intro y z hy hz
      rw [hparent hj] at hy
      rcases hcases with hstays | ⟨c, w, hc, hci, hw, hless, hcame⟩
      · obtain rfl := Option.some.inj (hstays.symm.trans hz)
        by_contra hlt
        exact hnot ⟨hj, hi, y, last, hy, hlast, not_le.mp hlt⟩
      · obtain rfl := Option.some.inj (hcame.symm.trans hz)
        have hlt' := parent_lt hc
        exact habove hj hc hci hw y w hy (hentry c (by omega) w hw)
    · exact hordered j hj hji

/-- remove only goes down: the heap is in order afterwards unless the last key
should have gone up. -/
theorem remove_ok (hok : HeapOk key h) (hk : h.entry k = some i) :
    ∃ t, h.remove key k = some t ∧ Places t ∧ (∀ a, t.inHeap a ↔ h.inHeap a ∧ a ≠ k) ∧
      (Ordered key t.heap ↔ ¬ Misplaced key h i) := by
  have hget := (hok.places k i).mp hk
  have hi := (List.getElem?_eq_some_iff.mp hget).1
  have hne : h.heap ≠ [] := List.length_pos_iff.mp (Nat.zero_lt_of_lt hi)
  have hlast := List.getLast?_eq_some_getLast hne
  generalize h.heap.getLast hne = last at hlast
  have hplaces := places_fill hok.places hget hlast
  have hkeys := @inHeap_fill K _ h k last i hok.places hget hlast
  unfold Heap.remove
  rw [hk, Option.bind_some]
  split_ifs with hsize
  · have hready : DownReady key (· ≠ i) (h.fill k i last).heap i := by
      refine ⟨fun j hj hE => le_fill hi hE.2 hE.1 (hok.ordered j hj trivial),
        fun _ hE => absurd rfl hE, fun c hc hle => ?_⟩
      have hlt := parent_lt hc
      omega
    have hself : (h.fill k i last).heap[i]? = some last := by
      rw [getElem?_fill hi, if_pos hsize, if_pos rfl]
    obtain ⟨t, ht, htplaces, htordered, hsame⟩ :=
      percolateDown_spec (List.getElem?_eq_some_iff.mp hself).1 hplaces hready
    rw [hlast, Option.bind_some, if_pos (hok.places.has_last hlast)]
    exact ⟨t, ht, htplaces, fun a => (hsame.inHeap a).trans (hkeys a),
      ordered_percolateDown_fill hok hsize hlast ht htordered⟩
  · obtain rfl : i = h.heap.length - 1 := by omega
    rw [List.getLast?_eq_getElem?] at hlast
    obtain rfl := Option.some.inj (hlast.symm.trans hget)
    have heq : { h with
        heap := h.heap.dropLast, indices := Function.update h.indices last none } =
        h.fill last (h.heap.length - 1) last := by
      have hself := Heap.place_self hok.places hget
      unfold Heap.fill
      rw [Function.update_idem, show h.heap.set (h.heap.length - 1) last = h.heap from
        congrArg Heap.heap hself]
    rw [heq]
    refine ⟨_, rfl, hplaces, hkeys, iff_of_true (fun j hj _ y z hy hz => ?_) fun hmis => ?_⟩
    · rw [← heq] at hy hz
      have hdrop {m : ℕ} {w : K} (hw : h.heap.dropLast[m]? = some w) : h.heap[m]? = some w := by
        rw [List.getElem?_dropLast] at hw
        split_ifs at hw
        exact hw
      exact hok.ordered j hj trivial y z (hdrop hy) (hdrop hz)
    · exact hsize hmis.2.1

end Removal

/-! ### build and clear -/

theorem forget_apply (indices : K → Option ℕ) (ks : List K) (k : K) :
    Heap.forget indices ks k = if k ∈ ks then none else indices k := by
  unfold Heap.forget
  induction ks generalizing indices with
  | nil => simp
  | cons a ks ih =>
    rw [List.foldl_cons, ih, Function.update_apply]
    by_cases hks : k ∈ ks
    · simp [hks]
    · by_cases hka : k = a <;> simp [hks, hka]

omit [DecidableEq K] in
theorem ordered_of_nil (hnil : h.heap = []) : Ordered key h.heap := by
  intro j _ _ y z hy _
  rw [hnil] at hy
  exact absurd hy.symm (Option.some_ne_none y)

theorem clear_spec (hplaces : Places h) :
    ∃ t, h.clear = some t ∧ t.heap = [] ∧ Places t ∧ ∀ k, h.has k → t.has k := by
  refine ⟨_, if_pos fun k hk => ?_, rfl, fun k i => ?_, fun _ => id⟩
  · obtain ⟨i, hi⟩ := List.mem_iff_getElem?.mp hk
    exact hplaces.has hi
  · refine iff_of_false (fun heq => ?_) (fun heq => absurd heq.symm (Option.some_ne_none k))
    have hhas := Heap.has_of_entry heq
    have hforget : Heap.forget h.indices h.heap k = some i := (if_pos hhas).symm.trans heq
    rw [forget_apply] at hforget
    split_ifs at hforget with hk
    have hentry : h.entry k = some i := (if_pos hhas).trans hforget
    exact hk (List.mem_of_getElem? ((hplaces k i).mp hentry))

omit [DecidableEq K] in
theorem empty_ok (index : K → ℕ) : HeapOk key (Heap.empty index) := by
  refine ⟨fun k i => iff_of_false (fun heq => ?_) fun heq => ?_, ordered_of_nil rfl⟩
  · exact absurd (Heap.has_of_entry heq) (Nat.not_lt_zero _)
  · exact absurd heq.symm (Option.some_ne_none k)

theorem pushAll_spec {ns : List K} (hplaces : Places h) (hnodup : (h.heap ++ ns).Nodup)
    (hhas : ∀ k ∈ ns, h.has k) :
    ∃ t, h.pushAll ns = some t ∧ Places t ∧ t.heap = h.heap ++ ns ∧ ∀ k, h.has k → t.has k := by
  induction ns generalizing h with
  | nil => exact ⟨h, rfl, hplaces, (List.append_nil _).symm, fun _ => id⟩
  | cons k ns ih =>
    rw [List.append_cons] at hnodup ⊢
    obtain ⟨hk, hhas⟩ := List.forall_mem_cons.mp hhas
    have hout : k ∉ h.heap := by
      intro hk
      have hleft := (List.nodup_append.mp hnodup).1
      exact (List.nodup_append.mp hleft).2.2 k hk k (List.mem_singleton_self k) rfl
    have hnone : h.entry k = none :=
      Option.not_isSome_iff_eq_none.mp fun hsome => hout (hplaces.inHeap_iff.mp hsome)
    unfold Heap.pushAll
    rw [if_pos hk]
    exact ih (places_push hplaces hk hnone) hnodup hhas

theorem heapify_spec {n : ℕ} (hn : n ≤ h.heap.length) (hplaces : Places h)
    (hordered : OrderedAt key (fun j => n ≤ parent j) h.heap) :
    ∃ t, h.heapify key n = some t ∧ HeapOk key t ∧ SameKeys h t := by
  induction n generalizing h with
  | zero => exact ⟨h, rfl, ⟨hplaces, fun j hj _ => hordered j hj (Nat.zero_le _)⟩, SameKeys.refl h⟩
  | succ n ih =>
    have hready : DownReady key (fun j => n ≤ parent j) h.heap n := by
      refine ⟨fun j hj hE => hordered j hj (by omega), fun hpos hE => ?_, fun c _ hle => hle⟩
      have hlt := parent_lt hpos
      omega
    obtain ⟨u, hu, huplaces, huordered, husame⟩ := percolateDown_spec (by omega) hplaces hready
    have hlength : n ≤ u.heap.length := by
      rw [(husame.perm hplaces huplaces).length_eq]
      omega
    obtain ⟨t, ht, htok, htsame⟩ := ih hlength huplaces huordered
    refine ⟨t, ?_, htok, husame.trans htsame⟩
    unfold Heap.heapify
    rw [hu, Option.bind_some, ht]

/-- Floyd's construction. The map must have the keys already. -/
theorem build_ok {ns : List K} (hplaces : Places h) (hnodup : ns.Nodup)
    (hhas : ∀ k ∈ ns, h.has k) :
    ∃ t, h.build key ns = some t ∧ HeapOk key t ∧ (∀ k, t.inHeap k ↔ k ∈ ns) ∧
      ∀ k, h.has k → t.has k := by
  obtain ⟨c, hc, hnil, hcplaces, hckeeps⟩ := clear_spec hplaces
  obtain ⟨p, hp, hpushed, hheap, hpkeeps⟩ := @pushAll_spec K _ c ns hcplaces
    (by rwa [hnil, List.nil_append]) (fun k hk => hckeeps k (hhas k hk))
  rw [hnil, List.nil_append] at hheap
  obtain ⟨t, ht, hok, hsame⟩ := @heapify_spec K P _ _ key p (p.heap.length / 2)
    (by omega) hpushed fun j hj hE y z _ hz => by
      have hlt := (List.getElem?_eq_some_iff.mp hz).1
      unfold parent at hE
      omega
  refine ⟨t, ?_, hok, fun k => (hsame.inHeap k).trans ?_,
    fun k hk => hsame.has k (hpkeeps k (hckeeps k hk))⟩
  · unfold Heap.build
    rw [hc, Option.bind_some, hp, Option.bind_some, ht]
  · rw [hpushed.inHeap_iff, hheap]

/-! ### Runs -/

section Runs

variable (K P) in
/-- The heap with the priorities, which are the caller's. -/
structure State where
  heap : Heap K
  key : K → P

variable (K P) in
/-- The caller has set the priority of the key before it tells the heap. -/
inductive Op
  | insert (k : K)
  | decrease (k : K) (p : P)
  | increase (k : K) (p : P)
  | update (k : K) (p : P)
  | remove (k : K)
  | removeMin
  | build (ns : List K)
  | clear

def step (s : State K P) : Op K P → Option (State K P)
  | .insert k => (s.heap.insert s.key k).map fun h => ⟨h, s.key⟩
  | .decrease k p =>
    let key := Function.update s.key k p
    (s.heap.decrease key k).map fun h => ⟨h, key⟩
  | .increase k p =>
    let key := Function.update s.key k p
    (s.heap.increase key k).map fun h => ⟨h, key⟩
  | .update k p =>
    let key := Function.update s.key k p
    (s.heap.update key k).map fun h => ⟨h, key⟩
  | .remove k => (s.heap.remove s.key k).map fun h => ⟨h, s.key⟩
  | .removeMin => (s.heap.removeMin s.key).map fun r => ⟨r.2, s.key⟩
  | .build ns => (s.heap.build s.key ns).map fun h => ⟨h, s.key⟩
  | .clear => s.heap.clear.map fun h => ⟨h, s.key⟩

/-- What the caller has to see to. Of remove the heap itself asserts only that the
key is there, and of build that the map has the keys, which insert has put in. -/
def Promise (s : State K P) : Op K P → Prop
  | .insert k => ¬ s.heap.inHeap k
  | .decrease k p => s.heap.inHeap k ∧ p ≤ s.key k
  | .increase k p => s.heap.inHeap k ∧ s.key k ≤ p
  | .update _ _ => True
  | .remove k => ∃ i, s.heap.entry k = some i ∧ ¬ Misplaced s.key s.heap i
  | .removeMin => s.heap.heap ≠ []
  | .build ns => ns.Nodup ∧ ∀ k ∈ ns, s.heap.has k
  | .clear => True

variable (K P) in
def machine : Machine (State K P) (Op K P) where
  Init := fun s => ∃ index, s.heap = Heap.empty index
  step := step

omit [LinearOrder P] in
theorem onlyAt_update (key : K → P) (k : K) (p : P) : OnlyAt key (Function.update key k p) k :=
  fun _ hj => Function.update_of_ne hj _ _

theorem step_ok {s : State K P} (hok : HeapOk s.key s.heap) {op : Op K P} (h : Promise s op) :
    ∃ t, step s op = some t ∧ HeapOk t.key t.heap := by
  have hself (k : K) (p : P) : Function.update s.key k p k = p := Function.update_self _ _ _
  cases op with
  | insert k =>
    obtain ⟨t, ht, htok, -⟩ := insert_ok hok h
    exact ⟨_, Option.map_eq_some_iff.mpr ⟨t, ht, rfl⟩, htok⟩
  | decrease k p =>
    obtain ⟨t, ht, htok, -⟩ :=
      decrease_ok hok h.1 (onlyAt_update s.key k p) ((hself k p).trans_le h.2)
    exact ⟨_, Option.map_eq_some_iff.mpr ⟨t, ht, rfl⟩, htok⟩
  | increase k p =>
    obtain ⟨t, ht, htok, -⟩ :=
      increase_ok hok h.1 (onlyAt_update s.key k p) (h.2.trans_eq (hself k p).symm)
    exact ⟨_, Option.map_eq_some_iff.mpr ⟨t, ht, rfl⟩, htok⟩
  | update k p =>
    obtain ⟨t, ht, htok, -⟩ := update_ok hok (onlyAt_update s.key k p)
    exact ⟨_, Option.map_eq_some_iff.mpr ⟨t, ht, rfl⟩, htok⟩
  | remove k =>
    obtain ⟨i, hi, hmis⟩ := h
    obtain ⟨t, ht, hplaces, -, hordered⟩ := remove_ok hok hi
    exact ⟨_, Option.map_eq_some_iff.mpr ⟨t, ht, rfl⟩, hplaces, hordered.mpr hmis⟩
  | removeMin =>
    obtain ⟨x, t, ht, -, -, htok, -⟩ := removeMin_ok hok h
    exact ⟨_, Option.map_eq_some_iff.mpr ⟨(x, t), ht, rfl⟩, htok⟩
  | build ns =>
    obtain ⟨t, ht, htok, -⟩ := build_ok (P := P) hok.places h.1 h.2
    exact ⟨_, Option.map_eq_some_iff.mpr ⟨t, ht, rfl⟩, htok⟩
  | clear =>
    obtain ⟨t, ht, hnil, hplaces, -⟩ := clear_spec hok.places
    exact ⟨_, Option.map_eq_some_iff.mpr ⟨t, ht, rfl⟩, hplaces, ordered_of_nil hnil⟩

theorem ok_of_reach {s : State K P} (h : (machine K P).Reach Promise s) :
    HeapOk s.key s.heap := by
  refine Machine.Reach.invariant (fun s => HeapOk s.key s.heap) (fun s hs => ?_)
    (fun s op t _ hok hpromise hstep => ?_) h
  · obtain ⟨index, hs⟩ := hs
    rw [hs]
    exact empty_ok index
  · obtain ⟨u, hu, huok⟩ := step_ok hok hpromise
    obtain rfl := Option.some.inj (hu.symm.trans hstep)
    exact huok

/-- No assertion fails and no read is out of bounds, the first key is a least one,
and remove leaves the heap in order unless the last key should have gone up. -/
theorem calls_of_reach {s : State K P} (h : (machine K P).Reach Promise s) :
    HeapOk s.key s.heap ∧ (∀ op, Promise s op → (step s op).isSome) ∧
      (∀ x t, s.heap.removeMin s.key = some (x, t) →
        s.heap.inHeap x ∧ ∀ k, s.heap.inHeap k → s.key x ≤ s.key k) ∧
      ∀ k i, s.heap.entry k = some i → ∃ t, s.heap.remove s.key k = some t ∧ Places t ∧
        (∀ j, t.inHeap j ↔ s.heap.inHeap j ∧ j ≠ k) ∧
        (Ordered s.key t.heap ↔ ¬ Misplaced s.key s.heap i) := by
  have hok := ok_of_reach h
  refine ⟨hok, fun op hpromise => ?_, fun x t hremove => ?_, fun k i hi => remove_ok hok hi⟩
  · obtain ⟨t, ht, -⟩ := step_ok hok hpromise
    exact Option.isSome_iff_exists.mpr ⟨t, ht⟩
  · have hne : s.heap.heap ≠ [] := by
      intro hnil
      unfold Heap.removeMin at hremove
      rw [hnil] at hremove
      exact absurd hremove.symm (Option.some_ne_none (x, t))
    obtain ⟨y, u, hu, hy, hleast, -, -⟩ := removeMin_ok hok hne
    obtain ⟨rfl, -⟩ := Prod.mk.inj (Option.some.inj (hu.symm.trans hremove))
    exact ⟨hy, hleast⟩

end Runs

/-! ### Six keys -/

def noKeys : State ℕ ℕ := ⟨Heap.empty id, id⟩

/-- With the largest key the map gets entries for all of them. -/
def largest : Op ℕ ℕ := .insert 12

theorem largest_some : (step noKeys largest).isSome := by decide +kernel

def oneKey : State ℕ ℕ := (step noKeys largest).get largest_some

def fillHeap : Op ℕ ℕ := .build [1, 10, 2, 11, 12, 3]

theorem fillHeap_some : (step oneKey fillHeap).isSome := by decide +kernel

/-- The last key, 3, belongs above 10, which is above 11 and 12. -/
def sixKeys : State ℕ ℕ := (step oneKey fillHeap).get fillHeap_some

theorem sixKeys_reach : (machine ℕ ℕ).Reach Promise sixKeys := by
  have hinsert : Promise noKeys largest := by
    show ¬ (Heap.empty id).inHeap 12
    decide
  have hbuild : Promise oneKey fillHeap := by
    show [1, 10, 2, 11, 12, 3].Nodup ∧ ∀ k ∈ [1, 10, 2, 11, 12, 3], oneKey.heap.has k
    decide +kernel
  have hstart : (machine ℕ ℕ).Init noKeys := ⟨id, rfl⟩
  exact .step (.step (.init hstart) hinsert (Option.some_get largest_some).symm) hbuild
    (Option.some_get fillHeap_some).symm

theorem calls_of_reach_sixKeys :
    HeapOk sixKeys.key sixKeys.heap ∧ (∀ op, Promise sixKeys op → (step sixKeys op).isSome) ∧
      (∀ x t, sixKeys.heap.removeMin sixKeys.key = some (x, t) →
        sixKeys.heap.inHeap x ∧ ∀ k, sixKeys.heap.inHeap k → sixKeys.key x ≤ sixKeys.key k) ∧
      ∀ k i, sixKeys.heap.entry k = some i →
        ∃ t, sixKeys.heap.remove sixKeys.key k = some t ∧ Places t ∧
          (∀ j, t.inHeap j ↔ sixKeys.heap.inHeap j ∧ j ≠ k) ∧
          (Ordered sixKeys.key t.heap ↔ ¬ Misplaced sixKeys.key sixKeys.heap i) :=
  calls_of_reach sixKeys_reach

end Painless.MiniSatHeap
