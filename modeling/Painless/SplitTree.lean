import Mathlib.Data.List.Nodup
import Mathlib.Data.List.Perm.Basic
import Mathlib.Data.List.Count

/-!
Trees of sub-problems. Each leaf is a sub-problem with an owner and the number
of times it has been reported refuted; an inner node is a sub-problem that was
split on a label. A sub-problem is refuted as soon as it or one it was split
from has been reported, so both leaves of a split keep the reports of the leaf.
-/
namespace Painless.SplitTree

inductive Tree (O L : Type*) where
  | leaf (owner : O) (reports : ℕ)
  | node (label : L) (left right : Tree O L)

variable {O L : Type*}

def leaves : Tree O L → List (O × ℕ)
  | .leaf owner reports => [(owner, reports)]
  | .node _ left right => leaves left ++ leaves right

def owners (t : Tree O L) : List O := (leaves t).map Prod.fst

/-- The number of leaves that have not been refuted. -/
def openLeaves (t : Tree O L) : ℕ := (leaves t).countP fun leaf => leaf.2 = 0

/-- No leaf has been reported twice. -/
def ReportedOnce (t : Tree O L) : Prop := ∀ leaf ∈ leaves t, leaf.2 ≤ 1

/-- The leaf of an owner and the leaves before and after it. -/
theorem exists_leaf {t : Tree O L} {owner : O} (hnodup : (owners t).Nodup)
    (hmem : owner ∈ owners t) :
    ∃ before reports after, leaves t = before ++ (owner, reports) :: after ∧
      (∀ leaf ∈ before, leaf.1 ≠ owner) ∧ ∀ leaf ∈ after, leaf.1 ≠ owner := by
  obtain ⟨⟨o, reports⟩, hleaf, rfl⟩ := List.mem_map.mp hmem
  obtain ⟨before, after, hsplit⟩ := List.append_of_mem hleaf
  rw [owners, hsplit, List.map_append, List.map_cons, List.nodup_append'] at hnodup
  obtain ⟨-, hafter, hdisjoint⟩ := hnodup
  refine ⟨before, reports, after, hsplit, ?_, ?_⟩
  · intro leaf hl heq
    exact hdisjoint (List.mem_map_of_mem hl) (by simp [heq])
  · intro leaf hl heq
    have hnot := (List.nodup_cons.mp hafter).1
    rw [← heq] at hnot
    exact hnot (List.mem_map_of_mem hl)

variable [DecidableEq O]

/-- The leaf of the owner has been refuted. -/
def isRefuted (t : Tree O L) (owner : O) : Bool :=
  (leaves t).any fun leaf => leaf.1 = owner ∧ leaf.2 ≠ 0

/-- The owner reports its leaf refuted. -/
def report (owner : O) : Tree O L → Tree O L
  | .leaf o reports => .leaf o (if o = owner then reports + 1 else reports)
  | .node label left right => .node label (report owner left) (report owner right)

/-- The owner keeps one half of its leaf, a new owner gets the other. -/
def split (owner new : O) (label : L) : Tree O L → Tree O L
  | .leaf o reports =>
    if o = owner then .node label (.leaf o reports) (.leaf new reports)
    else .leaf o reports
  | .node label' left right =>
    .node label' (split owner new label left) (split owner new label right)

theorem leaves_report (owner : O) (t : Tree O L) :
    leaves (report owner t) =
      (leaves t).map fun leaf => (leaf.1, if leaf.1 = owner then leaf.2 + 1 else leaf.2) := by
  induction t with
  | leaf o reports => rfl
  | node label left right ihl ihr =>
    simp only [report, leaves, List.map_append, ihl, ihr]

theorem leaves_split (owner new : O) (label : L) (t : Tree O L) :
    leaves (split owner new label t) =
      (leaves t).flatMap fun leaf =>
        if leaf.1 = owner then [leaf, (new, leaf.2)] else [leaf] := by
  induction t with
  | leaf o reports =>
    by_cases h : o = owner <;> simp [split, leaves, h]
  | node label' left right ihl ihr =>
    simp only [split, leaves, List.flatMap_append, ihl, ihr]

@[simp] theorem owners_report (owner : O) (t : Tree O L) :
    owners (report owner t) = owners t := by
  simp only [owners, leaves_report, List.map_map]
  rfl

theorem isRefuted_report_of_ne {owner v : O} (hv : v ≠ owner) (t : Tree O L) :
    isRefuted (report owner t) v = isRefuted t v := by
  unfold isRefuted
  rw [leaves_report, List.any_map]
  congr 1
  funext leaf
  by_cases hleaf : leaf.1 = v
  · have hne : leaf.1 ≠ owner := fun h => hv (hleaf.symm.trans h)
    simp [hne]
  · simp [hleaf]

theorem isRefuted_split_of_ne {new v : O} (hv : v ≠ new) (owner : O) (label : L) (t : Tree O L) :
    isRefuted (split owner new label t) v = isRefuted t v := by
  unfold isRefuted
  rw [leaves_split, List.any_flatMap]
  congr 1
  funext leaf
  split_ifs
  · simp [hv.symm]
  · simp

theorem mem_owners_of_isRefuted {t : Tree O L} {owner : O} (h : isRefuted t owner = true) :
    owner ∈ owners t := by
  obtain ⟨leaf, hleaf, hrefuted⟩ := List.any_eq_true.mp h
  have howner : leaf.1 = owner := (of_decide_eq_true hrefuted).1
  exact howner ▸ List.mem_map_of_mem hleaf

/-! ### The leaf of one owner -/

section OneLeaf
variable {t : Tree O L} {owner new : O} {label : L} {reports : ℕ}
  {before after : List (O × ℕ)} (ht : leaves t = before ++ (owner, reports) :: after)
  (hbefore : ∀ leaf ∈ before, leaf.1 ≠ owner) (hafter : ∀ leaf ∈ after, leaf.1 ≠ owner)
include ht hbefore hafter

theorem isRefuted_eq : isRefuted t owner = decide (reports ≠ 0) := by
  have hnone : ∀ l : List (O × ℕ), (∀ leaf ∈ l, leaf.1 ≠ owner) →
      l.any (fun leaf => leaf.1 = owner ∧ leaf.2 ≠ 0) = false := by
    intro l hl
    rw [List.any_eq_false]
    intro leaf hleaf
    simp [hl leaf hleaf]
  rw [isRefuted, ht, List.any_append, List.any_cons, hnone before hbefore,
    hnone after hafter]
  simp

theorem leaves_report_eq :
    leaves (report owner t) = before ++ (owner, reports + 1) :: after := by
  have hsame : ∀ l : List (O × ℕ), (∀ leaf ∈ l, leaf.1 ≠ owner) →
      l.map (fun leaf => (leaf.1, if leaf.1 = owner then leaf.2 + 1 else leaf.2)) = l := by
    intro l hl
    refine (List.map_congr_left fun leaf hleaf => ?_).trans (List.map_id l)
    simp [hl leaf hleaf]
  rw [leaves_report, ht, List.map_append, List.map_cons, hsame before hbefore,
    hsame after hafter]
  simp

theorem leaves_split_eq : leaves (split owner new label t) =
    before ++ (owner, reports) :: (new, reports) :: after := by
  have hsame : ∀ l : List (O × ℕ), (∀ leaf ∈ l, leaf.1 ≠ owner) →
      l.flatMap (fun leaf => if leaf.1 = owner then [leaf, (new, leaf.2)] else [leaf]) =
        l := by
    intro l hl
    induction l with
    | nil => rfl
    | cons leaf rest ih =>
      rw [List.flatMap_cons, ih fun l hmem => hl l (List.mem_cons_of_mem _ hmem),
        if_neg (hl leaf List.mem_cons_self)]
      rfl
  rw [leaves_split, ht, List.flatMap_append, List.flatMap_cons, hsame before hbefore,
    hsame after hafter]
  simp

end OneLeaf

section Owner
variable {t : Tree O L} {owner : O} (hnodup : (owners t).Nodup) (hmem : owner ∈ owners t)
include hnodup hmem

/-- The first report of a leaf closes it, a further one changes nothing. -/
theorem openLeaves_report :
    openLeaves (report owner t) + (if isRefuted t owner then 0 else 1) = openLeaves t := by
  obtain ⟨before, reports, after, ht, hbefore, hafter⟩ := exists_leaf hnodup hmem
  rw [isRefuted_eq ht hbefore hafter, openLeaves, openLeaves,
    leaves_report_eq ht hbefore hafter, ht]
  simp only [List.countP_append, List.countP_cons]
  by_cases h : reports = 0
  · simp [h]
    omega
  · simp [h]

/-- The split of an open leaf adds one, that of a refuted leaf adds none. -/
theorem openLeaves_split (new : O) (label : L) :
    openLeaves (split owner new label t) =
      openLeaves t + (if isRefuted t owner then 0 else 1) := by
  obtain ⟨before, reports, after, ht, hbefore, hafter⟩ := exists_leaf hnodup hmem
  rw [isRefuted_eq ht hbefore hafter, openLeaves, openLeaves,
    leaves_split_eq ht hbefore hafter, ht]
  simp only [List.countP_append, List.countP_cons]
  by_cases h : reports = 0
  · simp [h]
    omega
  · simp [h]

theorem openLeaves_pos (hopen : isRefuted t owner = false) : 0 < openLeaves t := by
  have h := openLeaves_report hnodup hmem
  rw [hopen] at h
  simp only [Bool.false_eq_true, if_false] at h
  omega

theorem reportedOnce_report (ht : ReportedOnce t) (hopen : isRefuted t owner = false) :
    ReportedOnce (report owner t) := by
  obtain ⟨before, reports, after, hleaves, hbefore, hafter⟩ := exists_leaf hnodup hmem
  rw [isRefuted_eq hleaves hbefore hafter] at hopen
  have hzero : reports = 0 := by simpa using hopen
  intro leaf hleaf
  rw [leaves_report_eq hleaves hbefore hafter] at hleaf
  rw [ReportedOnce, hleaves] at ht
  simp only [List.mem_append, List.mem_cons] at hleaf ht
  rcases hleaf with h | rfl | h
  · exact ht leaf (Or.inl h)
  · simp [hzero]
  · exact ht leaf (Or.inr (Or.inr h))

theorem reportedOnce_split (ht : ReportedOnce t) (new : O) (label : L) :
    ReportedOnce (split owner new label t) := by
  obtain ⟨before, reports, after, hleaves, hbefore, hafter⟩ := exists_leaf hnodup hmem
  intro leaf hleaf
  rw [leaves_split_eq hleaves hbefore hafter] at hleaf
  rw [ReportedOnce, hleaves] at ht
  simp only [List.mem_append, List.mem_cons] at hleaf ht
  rcases hleaf with h | rfl | rfl | h
  · exact ht leaf (Or.inl h)
  · exact ht (owner, reports) (Or.inr (Or.inl rfl))
  · exact ht (owner, reports) (Or.inr (Or.inl rfl))
  · exact ht leaf (Or.inr (Or.inr h))

theorem owners_split (new : O) (label : L) :
    (owners (split owner new label t)).Perm (new :: owners t) := by
  obtain ⟨before, reports, after, hleaves, hbefore, hafter⟩ := exists_leaf hnodup hmem
  rw [owners, owners, leaves_split_eq hleaves hbefore hafter, hleaves]
  simp only [List.map_append, List.map_cons]
  have hmiddle : ∀ l r : List O, (l ++ owner :: new :: r).Perm (new :: (l ++ owner :: r)) := by
    intro l r
    have h : ((l ++ [owner]) ++ new :: r).Perm (new :: ((l ++ [owner]) ++ r)) :=
      List.perm_middle
    simpa using h
  exact hmiddle _ _

end Owner

end Painless.SplitTree
