import Painless.ClauseCommunicator
import Mathlib.Tactic.Ring

/-!
The sharing groups of the ranks. Every rank computes the bounds of its own group
from its rank, the number of ranks and shr-group. The groups are consecutive
blocks of shr-group ranks, of which the last may be shorter, or one block of all
ranks where shr-group is zero; so the ranks agree on them.
-/
namespace Painless.SharingGroups

open ClauseCommunicator

/-! ### Blocks of integers -/

section Blocks
variable {i j g : ℤ}

/-- A block of width `g` contains the integers with the same quotient. -/
theorem block_contains (hg : 0 < g) : i / g * g ≤ i ∧ i < i / g * g + g := by
  have hlower := Int.ediv_mul_le i (b := g) (by omega)
  have hupper := Int.lt_ediv_add_one_mul_self i hg
  rw [add_mul, one_mul] at hupper
  exact ⟨hlower, hupper⟩

theorem block_le_of_lt (hg : 0 < g) (h : i / g < j / g) : i / g * g + g ≤ j / g * g := by
  have hstep : (i / g + 1) * g ≤ j / g * g := Int.mul_le_mul_of_nonneg_right h hg.le
  rw [add_mul, one_mul] at hstep
  exact hstep

/-- Two blocks are the same, or one of them ends before the other starts. -/
theorem blocks_apart (hg : 0 < g) (i j : ℤ) :
    i / g = j / g ∨ i / g * g + g ≤ j / g * g ∨ j / g * g + g ≤ i / g * g := by
  rcases lt_trichotomy (i / g) (j / g) with hlt | heq | hgt
  · exact Or.inr (Or.inl (block_le_of_lt hg hlt))
  · exact Or.inl heq
  · exact Or.inr (Or.inr (block_le_of_lt hg hgt))

end Blocks

/-! ### The bounds of init -/

variable {P : Type*}

/-- The communicator of this rank after init, whatever it has exchanged since. -/
def Initialized (rank size g : ℤ) (comm : MpiComm P) : Prop := comm.init rank size g = comm

theorem initialized_init (rank size g : ℤ) (comm : MpiComm P) :
    Initialized rank size g (comm.init rank size g) := by
  unfold Initialized MpiComm.init
  split_ifs <;> rfl

def InGroup (comm : MpiComm P) (r : ℤ) : Prop :=
  comm.clsShrLowerRank ≤ r ∧ r < comm.clsShrUpperRank

section Bounds
variable {rank size g : ℤ} {comm : MpiComm P}

theorem Initialized.rank_eq (h : Initialized rank size g comm) : comm.rank = rank := by
  rw [← h]
  unfold MpiComm.init
  split_ifs <;> rfl

theorem Initialized.bounds_zero (h : Initialized rank size 0 comm) :
    comm.clsShrLowerRank = 0 ∧ comm.clsShrUpperRank = size := by
  rw [← h]
  exact ⟨rfl, rfl⟩

/-- The last group ends with the last rank. -/
theorem Initialized.bounds_pos (h : Initialized rank size g comm) (hg : 0 < g)
    (hrank : 0 ≤ rank) :
    comm.clsShrLowerRank = rank / g * g ∧
      comm.clsShrUpperRank = min (rank / g * g + g) size := by
  have hdiv : rank.tdiv g = rank / g := Int.tdiv_eq_ediv_of_nonneg hrank
  rw [← h, MpiComm.init, if_pos hg.ne']
  refine ⟨by rw [← hdiv], ?_⟩
  show (if rank.tdiv g * g + g > size then size else rank.tdiv g * g + g) = _
  rw [hdiv]
  split_ifs <;> omega

theorem Initialized.contains (h : Initialized rank size g comm) (hg : 0 ≤ g)
    (hrank : 0 ≤ rank) (hsize : rank < size) :
    0 ≤ comm.clsShrLowerRank ∧ InGroup comm rank ∧ comm.clsShrUpperRank ≤ size := by
  unfold InGroup
  rcases hg.eq_or_lt with rfl | hpos
  · obtain ⟨hlower, hupper⟩ := h.bounds_zero
    omega
  · obtain ⟨hlower, hupper⟩ := h.bounds_pos hpos hrank
    obtain ⟨hle, hlt⟩ := block_contains (i := rank) hpos
    have hnonneg : 0 ≤ rank / g * g := Int.mul_nonneg (Int.ediv_nonneg hrank hg) hg
    omega

/-- No intermediate value leaves the range of an int, as long as there are no
more than 2^30 ranks. -/
theorem init_in_range (hg : 0 < g) (hgmax : g < 2 ^ 31) (hrank : 0 ≤ rank)
    (hmax : rank < 2 ^ 30) :
    0 ≤ rank.tdiv g * g ∧ rank.tdiv g * g + g < 2 ^ 31 := by
  rw [Int.tdiv_eq_ediv_of_nonneg hrank]
  obtain ⟨hle, -⟩ := block_contains (i := rank) hg
  refine ⟨Int.mul_nonneg (Int.ediv_nonneg hrank hg.le) hg.le, ?_⟩
  by_cases hsmall : rank < g
  · rw [Int.ediv_eq_zero_of_lt hrank hsmall]
    omega
  · omega

end Bounds

/-! ### The groups of two ranks -/

def SameGroup (comm other : MpiComm P) : Prop :=
  comm.clsShrLowerRank = other.clsShrLowerRank ∧ comm.clsShrUpperRank = other.clsShrUpperRank

section Pair
variable {i j size g : ℤ} {ci cj : MpiComm P}

theorem groups_apart (hci : Initialized i size g ci) (hcj : Initialized j size g cj)
    (hg : 0 ≤ g) (hi : 0 ≤ i) (hj : 0 ≤ j) :
    SameGroup ci cj ∨ ∀ r, ¬ (InGroup ci r ∧ InGroup cj r) := by
  unfold SameGroup InGroup
  rcases hg.eq_or_lt with rfl | hpos
  · obtain ⟨hlowerI, hupperI⟩ := hci.bounds_zero
    obtain ⟨hlowerJ, hupperJ⟩ := hcj.bounds_zero
    left
    omega
  · obtain ⟨hlowerI, hupperI⟩ := hci.bounds_pos hpos hi
    obtain ⟨hlowerJ, hupperJ⟩ := hcj.bounds_pos hpos hj
    rcases blocks_apart hpos i j with heq | hlt | hgt
    · left
      rw [heq] at hlowerI hupperI
      omega
    · right
      intro r
      omega
    · right
      intro r
      omega

/-- A rank is in the group of another exactly if that one is in its group. -/
theorem inGroup_comm (hci : Initialized i size g ci) (hcj : Initialized j size g cj)
    (hg : 0 ≤ g) (hi : 0 ≤ i ∧ i < size) (hj : 0 ≤ j ∧ j < size) :
    InGroup ci j ↔ InGroup cj i := by
  obtain ⟨-, hown, -⟩ := hci.contains hg hi.1 hi.2
  obtain ⟨-, hother, -⟩ := hcj.contains hg hj.1 hj.2
  rcases groups_apart hci hcj hg hi.1 hj.1 with ⟨hlower, hupper⟩ | hapart
  · unfold InGroup at hown hother ⊢
    omega
  · refine ⟨fun h => absurd ⟨h, hother⟩ (hapart j), fun h => absurd ⟨hown, h⟩ (hapart i)⟩

end Pair

/-! ### The messages -/

theorem mem_targets_iff (comm : MpiComm P) (t : ℤ) :
    t ∈ targets comm ↔ InGroup comm t ∧ t ≠ comm.rank := by
  unfold targets InGroup
  simp only [List.mem_filter, List.mem_map, List.bind_eq_flatMap, List.mem_flatMap,
    List.pure_def, List.mem_singleton, List.mem_range, decide_eq_true_eq]
  constructor
  · rintro ⟨⟨k, ⟨n, hn, rfl⟩, rfl⟩, hne⟩
    omega
  · rintro ⟨⟨hlower, hupper⟩, hne⟩
    refine ⟨⟨t - comm.clsShrLowerRank, ⟨(t - comm.clsShrLowerRank).toNat, ?_, ?_⟩, ?_⟩, hne⟩
    · omega
    · omega
    · omega

/-- Where something has been selected, it is sent to all targets. -/
theorem sent_iff {litPerRound : ℤ} {comm : MpiComm P} {e : Export P}
    (h : exportLearnedClauses litPerRound comm = some e)
    (hselected : exportSelection litPerRound comm ≠ []) (t : ℤ) :
    (∃ m ∈ e.sent, m.target = t) ↔ InGroup comm t ∧ t ≠ comm.rank := by
  rw [← mem_targets_iff]
  unfold exportLearnedClauses exportSelected at h
  rw [if_neg hselected] at h
  dsimp only at h
  split_ifs at h
  obtain rfl := Option.some.inj h
  simp only [List.mem_map, exists_exists_and_eq_and, exists_eq_right]
  exact Iff.rfl

/-- Where nothing has been selected, nothing is sent. -/
theorem sent_eq_nil {litPerRound : ℤ} {comm : MpiComm P} {e : Export P}
    (h : exportLearnedClauses litPerRound comm = some e)
    (hselected : exportSelection litPerRound comm = []) : e.sent = [] := by
  unfold exportLearnedClauses exportSelected at h
  rw [if_pos hselected] at h
  obtain rfl := Option.some.inj h
  rfl

/-- The groups of the ranks are the same or disjoint and each rank is in exactly
one of them; whoever sends to a rank is sent to by it, and no message goes to
its sender or to a rank that does not exist. -/
theorem groups_partition_ranks (size g : ℤ) (hg : 0 ≤ g) (comm : ℤ → MpiComm P)
    (hinit : ∀ r, 0 ≤ r → r < size → Initialized r size g (comm r))
    (i j : ℤ) (hi : 0 ≤ i ∧ i < size) (hj : 0 ≤ j ∧ j < size) :
    (0 ≤ (comm i).clsShrLowerRank ∧ InGroup (comm i) i ∧ (comm i).clsShrUpperRank ≤ size) ∧
    (SameGroup (comm i) (comm j) ∨ ∀ r, ¬ (InGroup (comm i) r ∧ InGroup (comm j) r)) ∧
    (∃! group : ℤ × ℤ, (∃ r, (0 ≤ r ∧ r < size) ∧
        group = ((comm r).clsShrLowerRank, (comm r).clsShrUpperRank)) ∧
      group.1 ≤ i ∧ i < group.2) ∧
    (∀ litI litJ ei ej, exportLearnedClauses litI (comm i) = some ei →
      exportLearnedClauses litJ (comm j) = some ej → exportSelection litI (comm i) ≠ [] →
      exportSelection litJ (comm j) ≠ [] →
      ((∃ m ∈ ei.sent, m.target = j) ↔ ∃ m ∈ ej.sent, m.target = i)) ∧
    ∀ lit e, exportLearnedClauses lit (comm i) = some e →
      ∀ m ∈ e.sent, m.target ≠ i ∧ 0 ≤ m.target ∧ m.target < size := by
  have hci := hinit i hi.1 hi.2
  have hcj := hinit j hj.1 hj.2
  have hcontains := hci.contains hg hi.1 hi.2
  refine ⟨hcontains, groups_apart hci hcj hg hi.1 hj.1, ?_, ?_, ?_⟩
  · refine ⟨_, ⟨⟨i, hi, rfl⟩, hcontains.2.1⟩, ?_⟩
    rintro group ⟨⟨r, hr, rfl⟩, hmem⟩
    have hapart := groups_apart (hinit r hr.1 hr.2) hci hg hr.1 hi.1
    obtain ⟨hlower, hupper⟩ := hapart.resolve_right fun hno => hno i ⟨hmem, hcontains.2.1⟩
    exact Prod.ext hlower hupper
  · intro litI litJ ei ej hei hej hselI hselJ
    rw [sent_iff hei hselI, sent_iff hej hselJ, hci.rank_eq, hcj.rank_eq,
      inGroup_comm hci hcj hg hi hj, ne_comm]
  · intro lit e he m hm
    by_cases hselected : exportSelection lit (comm i) = []
    · rw [sent_eq_nil he hselected] at hm
      exact absurd hm (by simp)
    · obtain ⟨⟨hlower, hupper⟩, hne⟩ := (sent_iff he hselected m.target).mp ⟨m, hm, rfl⟩
      rw [hci.rank_eq] at hne
      have hrange := hcontains
      exact ⟨hne, by omega, by omega⟩

/-- Three ranks in groups of two: the last group has one rank. -/
theorem groups_partition_three :
    (∃! group : ℤ × ℤ, (∃ r : ℤ, (0 ≤ r ∧ r < 3) ∧
        group = (((MpiComm.fresh (P := ℕ) (fun _ => 0) fun _ => 0).init r 3 2).clsShrLowerRank,
          ((MpiComm.fresh (P := ℕ) (fun _ => 0) fun _ => 0).init r 3 2).clsShrUpperRank)) ∧
      group.1 ≤ 2 ∧ 2 < group.2) :=
  (groups_partition_ranks 3 2 (by omega)
    (fun r => (MpiComm.fresh (P := ℕ) (fun _ => 0) fun _ => 0).init r 3 2)
    (fun r _ _ => initialized_init r 3 2 _) 2 0 (by omega) (by omega)).2.2.1

end Painless.SharingGroups
