import Mathlib.Data.List.Basic
import Mathlib.Data.List.GetD
import Mathlib.Tactic.Ring
import Painless.SharedClauses

/-!
The clause database of the sharing strategies and of the communicator. One
bucket for each clause size, capped at 1000 literals; a selection takes whole
buckets, shortest clauses first, while they fit in the literal budget, and then
as many clauses of a bucket as still fit. Every clause of the database before a
selection is selected or stays, and the selection never exceeds its budget.
-/
namespace Painless.SharedDatabase

open RefCount SharedClauses

variable {P : Type*}

/-- Bucket `i` is for the clauses of size `i + 1`. -/
abbrev Buckets (P : Type*) := List (List (LearnedClause P))

structure BucketOk (i : ℕ) (bucket : List (LearnedClause P)) : Prop where
  sized : ∀ c ∈ bucket, c.size = i + 1
  capped : bucket.length * (i + 1) < 1000

/-- The buckets from number `i` on. -/
def WellFormed (i : ℕ) (clauses : Buckets P) : Prop :=
  ∀ k bucket, clauses[k]? = some bucket → BucketOk (i + k) bucket

structure ClauseDatabase (P : Type*) where
  clauses : Buckets P
  wellFormed : WellFormed 0 clauses

theorem BucketOk.nil (i : ℕ) : BucketOk i ([] : List (LearnedClause P)) := by
  constructor <;> simp

theorem BucketOk.sublist {i : ℕ} {b b' : List (LearnedClause P)} (h : BucketOk i b)
    (hb : b'.Sublist b) : BucketOk i b' where
  sized c hc := h.sized c (hb.subset hc)
  capped := lt_of_le_of_lt (Nat.mul_le_mul_right _ hb.length_le) h.capped

theorem WellFormed.nil (i : ℕ) : WellFormed i ([] : Buckets P) := by
  intro k bucket h
  simp at h

theorem wellFormed_cons (i : ℕ) (bucket : List (LearnedClause P)) (rest : Buckets P) :
    WellFormed i (bucket :: rest) ↔ BucketOk i bucket ∧ WellFormed (i + 1) rest := by
  constructor
  · intro h
    refine ⟨h 0 bucket rfl, fun k b hb => ?_⟩
    rw [Nat.add_assoc, Nat.add_comm 1 k]
    exact h (k + 1) b hb
  · rintro ⟨hb, hrest⟩ k b hk
    cases k with
    | zero =>
      obtain rfl : bucket = b := by simpa using hk
      exact hb
    | succ k =>
      have h := hrest k b (by simpa using hk)
      rwa [Nat.add_assoc, Nat.add_comm 1 k] at h

def ClauseDatabase.empty : ClauseDatabase P := ⟨[], WellFormed.nil 0⟩

/-- The loop of `addClause` that makes room for the bucket of size `clsSize`. -/
def grow (clsSize : ℕ) (clauses : Buckets P) : Buckets P :=
  clauses ++ List.replicate (clsSize - clauses.length) []

theorem grow_wellFormed {clauses : Buckets P} (h : WellFormed 0 clauses) (clsSize : ℕ) :
    WellFormed 0 (grow clsSize clauses) := by
  intro k bucket hk
  unfold grow at hk
  rcases Nat.lt_or_ge k clauses.length with hlt | hge
  · rw [List.getElem?_append_left hlt] at hk
    exact h k bucket hk
  · rw [List.getElem?_append_right hge, List.getElem?_replicate] at hk
    split at hk
    · obtain rfl : [] = bucket := by simpa using hk
      exact BucketOk.nil _
    · simp at hk

theorem lt_length_grow (clauses : Buckets P) {clsSize : ℕ} (h : 0 < clsSize) :
    clsSize - 1 < (grow clsSize clauses).length := by
  simp only [grow, List.length_append, List.length_replicate]
  omega

@[simp] theorem grow_flatten (clauses : Buckets P) (clsSize : ℕ) :
    (grow clsSize clauses).flatten = clauses.flatten := by
  simp [grow]

/-- The bucket that is to take a clause, and whether it has room for one more. -/
def bucketFor (clauses : Buckets P) (clause : LearnedClause P) : List (LearnedClause P) :=
  (grow clause.size clauses).getD (clause.size - 1) []

def HasRoom (clauses : Buckets P) (clause : LearnedClause P) : Prop :=
  ((bucketFor clauses clause).length + 1) * clause.size < 1000

instance (clauses : Buckets P) (clause : LearnedClause P) :
    Decidable (HasRoom clauses clause) :=
  inferInstanceAs (Decidable (_ < _))

/-- The clause put at the back of its bucket. -/
def pushClause (clauses : Buckets P) (clause : LearnedClause P) : Buckets P :=
  (grow clause.size clauses).set (clause.size - 1) (bucketFor clauses clause ++ [clause])

theorem getElem_bucketFor (clauses : Buckets P) (clause : LearnedClause P) :
    (grow clause.size clauses)[clause.size - 1]? = some (bucketFor clauses clause) := by
  have hlt := lt_length_grow clauses clause.size_pos
  rw [List.getElem?_eq_getElem hlt, bucketFor, List.getD_eq_getElem _ _ hlt]

theorem pushClause_wellFormed {clauses : Buckets P} (h : WellFormed 0 clauses)
    {clause : LearnedClause P} (hroom : HasRoom clauses clause) :
    WellFormed 0 (pushClause clauses clause) := by
  have hpos : clause.size - 1 + 1 = clause.size := Nat.sub_add_cancel clause.size_pos
  have hgrow := grow_wellFormed h clause.size
  intro k bucket hk
  unfold pushClause at hk
  rcases eq_or_ne k (clause.size - 1) with rfl | hne
  · rw [List.getElem?_set_self (lt_length_grow clauses clause.size_pos)] at hk
    obtain rfl := Option.some.inj hk
    have hold := hgrow _ _ (getElem_bucketFor clauses clause)
    simp only [Nat.zero_add] at hold ⊢
    refine ⟨fun c hc => ?_, ?_⟩
    · rcases List.mem_append.mp hc with hc | hc
      · exact hold.sized c hc
      · rw [List.mem_singleton.mp hc, hpos]
    · rw [List.length_append, List.length_singleton, hpos]
      exact hroom
  · rw [List.getElem?_set_ne hne.symm] at hk
    exact hgrow k bucket hk

theorem set_flatten_perm {l : Buckets P} {k : ℕ} {bucket : List (LearnedClause P)}
    (h : l[k]? = some bucket) (c : LearnedClause P) :
    (l.set k (bucket ++ [c])).flatten.Perm (c :: l.flatten) := by
  induction l generalizing k with
  | nil => simp at h
  | cons b rest ih =>
    cases k with
    | zero =>
      obtain rfl : b = bucket := by simpa using h
      simp only [List.set_cons_zero, List.flatten_cons, List.append_assoc]
      exact List.perm_middle
    | succ k =>
      have hrest := ih (by simpa using h)
      simp only [List.set_cons_succ, List.flatten_cons]
      exact (hrest.append_left b).trans List.perm_middle

theorem pushClause_perm (clauses : Buckets P) (clause : LearnedClause P) :
    (pushClause clauses clause).flatten.Perm (clause :: clauses.flatten) := by
  have h := set_flatten_perm (getElem_bucketFor clauses clause) clause
  rwa [grow_flatten] at h

/-- A clause whose bucket is full is given back to the clause manager. -/
def ClauseDatabase.addClause (db : ClauseDatabase P) (clause : LearnedClause P) :
    ClauseDatabase P × List (Call P) :=
  if h : HasRoom db.clauses clause then
    (⟨pushClause db.clauses clause, pushClause_wellFormed db.wellFormed h⟩, [])
  else
    (⟨grow clause.size db.clauses, grow_wellFormed db.wellFormed clause.size⟩,
      [releaseClause clause.toClauseExchange])

structure Selection (P : Type*) where
  selectedCls : List (LearnedClause P)
  used : ℕ
  selectCount : ℕ
  clauses : Buckets P

/-- The loop of `giveSelection` from bucket `i` on, with `used` literals taken. -/
def giveFrom (totalSize : ℕ) : ℕ → ℕ → Buckets P → Selection P
  | _, used, [] => ⟨[], used, 0, []⟩
  | i, used, bucket :: rest =>
    let clsSize := i + 1
    let left := totalSize - used
    if left < clsSize then
      ⟨[], used, 0, bucket :: rest⟩
    else if clsSize * bucket.length ≤ left then
      let more := giveFrom totalSize (i + 1) (used + clsSize * bucket.length) rest
      ⟨bucket ++ more.selectedCls, more.used, bucket.length + more.selectCount,
        [] :: more.clauses⟩
    else
      -- the clauses are popped from the back of the bucket one by one
      let nCls := left / clsSize
      let more := giveFrom totalSize (i + 1) (used + clsSize * nCls) rest
      ⟨bucket.reverse.take nCls ++ more.selectedCls, more.used, nCls + more.selectCount,
        bucket.take (bucket.length - nCls) :: more.clauses⟩

theorem giveFrom_wellFormed (totalSize : ℕ) {i : ℕ} {clauses : Buckets P}
    (h : WellFormed i clauses) (used : ℕ) :
    WellFormed i (giveFrom totalSize i used clauses).clauses := by
  induction clauses generalizing i used with
  | nil => exact WellFormed.nil i
  | cons bucket rest ih =>
    obtain ⟨hb, hrest⟩ := (wellFormed_cons i bucket rest).mp h
    unfold giveFrom
    dsimp only
    split_ifs
    · exact h
    · exact (wellFormed_cons _ _ _).mpr ⟨BucketOk.nil i, ih hrest _⟩
    · exact (wellFormed_cons _ _ _).mpr ⟨hb.sublist (List.take_sublist _ _), ih hrest _⟩

def ClauseDatabase.giveSelection (db : ClauseDatabase P) (totalSize : ℕ) :
    Selection P := giveFrom totalSize 0 0 db.clauses

def ClauseDatabase.afterSelection (db : ClauseDatabase P) (totalSize : ℕ) :
    ClauseDatabase P :=
  ⟨(db.giveSelection totalSize).clauses, giveFrom_wellFormed totalSize db.wellFormed 0⟩

/-- A bucket is what is popped from its back and what stays. -/
theorem pop_perm (bucket : List (LearnedClause P)) (n : ℕ) :
    (bucket.reverse.take n ++ bucket.take (bucket.length - n)).Perm bucket := by
  rw [List.take_reverse]
  refine List.Perm.trans ?_ (List.Perm.of_eq (List.take_append_drop (bucket.length - n) bucket))
  exact ((List.reverse_perm _).append_right _).trans List.perm_append_comm

theorem append_swap_perm {C : Type*} (a b c d : List C) :
    ((a ++ b) ++ (c ++ d)).Perm ((a ++ c) ++ (b ++ d)) := by
  simp only [List.append_assoc]
  refine List.Perm.append_left a ?_
  simp only [← List.append_assoc]
  exact List.Perm.append_right d List.perm_append_comm

theorem giveFrom_perm (totalSize i used : ℕ) (clauses : Buckets P) :
    ((giveFrom totalSize i used clauses).selectedCls ++
      (giveFrom totalSize i used clauses).clauses.flatten).Perm clauses.flatten := by
  induction clauses generalizing i used with
  | nil => exact List.Perm.refl _
  | cons bucket rest ih =>
    unfold giveFrom
    dsimp only
    split_ifs
    · exact List.Perm.refl _
    · simp only [List.flatten_cons, List.nil_append, List.append_assoc]
      exact (ih _ _).append_left bucket
    · simp only [List.flatten_cons]
      exact (append_swap_perm _ _ _ _).trans ((pop_perm bucket _).append (ih (i + 1) _))

theorem giveFrom_selectCount (totalSize i used : ℕ) (clauses : Buckets P) :
    (giveFrom totalSize i used clauses).selectCount =
      (giveFrom totalSize i used clauses).selectedCls.length := by
  induction clauses generalizing i used with
  | nil => rfl
  | cons bucket rest ih =>
    unfold giveFrom
    dsimp only
    split_ifs with h₁ h₂
    · rfl
    · simp [ih]
    · have hn : (totalSize - used) / (i + 1) ≤ bucket.length := by
        refine Nat.div_le_of_le_mul ?_
        omega
      simp [ih, Nat.min_eq_left hn]

/-- The budget is never exceeded, and every clause taken from bucket `i` on
accounts for at least `i + 1` of the literals used. -/
theorem giveFrom_used {totalSize used : ℕ} (hused : used ≤ totalSize) (i : ℕ)
    (clauses : Buckets P) :
    (giveFrom totalSize i used clauses).used ≤ totalSize ∧
      used + (i + 1) * (giveFrom totalSize i used clauses).selectCount ≤
        (giveFrom totalSize i used clauses).used := by
  induction clauses generalizing i used with
  | nil => simpa [giveFrom] using hused
  | cons bucket rest ih =>
    unfold giveFrom
    dsimp only
    split_ifs with h₁ h₂
    · simpa using hused
    · have hfits : used + (i + 1) * bucket.length ≤ totalSize := by omega
      obtain ⟨hle, hcount⟩ := ih hfits (i + 1)
      refine ⟨hle, ?_⟩
      rw [Nat.add_mul (i + 1) 1] at hcount
      dsimp only
      rw [Nat.mul_add]
      omega
    · have hn := Nat.mul_div_le (totalSize - used) (i + 1)
      have hfits : used + (i + 1) * ((totalSize - used) / (i + 1)) ≤ totalSize := by omega
      obtain ⟨hle, hcount⟩ := ih hfits (i + 1)
      refine ⟨hle, ?_⟩
      rw [Nat.add_mul (i + 1) 1] at hcount
      dsimp only
      rw [Nat.mul_add]
      omega

def litCount (clauses : List (LearnedClause P)) : ℕ := (clauses.map fun c => c.size).sum

@[simp] theorem litCount_append (cs ds : List (LearnedClause P)) :
    litCount (cs ++ ds) = litCount cs + litCount ds := by
  simp [litCount]

theorem BucketOk.litCount {i : ℕ} {bucket cs : List (LearnedClause P)} (h : BucketOk i bucket)
    (hcs : ∀ c ∈ cs, c ∈ bucket) : litCount cs = (i + 1) * cs.length := by
  have hconst : cs.map (fun c => c.size) = List.replicate cs.length (i + 1) :=
    List.map_eq_replicate_iff.mpr fun c hc => h.sized c (hcs c hc)
  rw [SharedDatabase.litCount, hconst, List.sum_replicate_nat, Nat.mul_comm]

theorem giveFrom_litCount {totalSize i : ℕ} {clauses : Buckets P} (h : WellFormed i clauses)
    (used : ℕ) : (giveFrom totalSize i used clauses).used =
      used + litCount (giveFrom totalSize i used clauses).selectedCls := by
  induction clauses generalizing i used with
  | nil => simp [giveFrom, litCount]
  | cons bucket rest ih =>
    obtain ⟨hb, hrest⟩ := (wellFormed_cons i bucket rest).mp h
    unfold giveFrom
    dsimp only
    split_ifs with h₁ h₂
    · simp [litCount]
    · rw [ih hrest, litCount_append, hb.litCount fun c hc => hc]
      ring
    · have hn : (totalSize - used) / (i + 1) ≤ bucket.length := by
        refine Nat.div_le_of_le_mul ?_
        omega
      have hpopped : litCount (bucket.reverse.take ((totalSize - used) / (i + 1))) =
          (i + 1) * ((totalSize - used) / (i + 1)) := by
        rw [hb.litCount fun c hc => List.mem_reverse.mp (List.mem_of_mem_take hc),
          List.length_take, List.length_reverse, Nat.min_eq_left hn]
      rw [ih hrest, litCount_append, hpopped]
      ring

section Contents

variable (db : ClauseDatabase P)

def ClauseDatabase.contents (db : ClauseDatabase P) : Multiset (LearnedClause P) :=
  ↑db.clauses.flatten

@[simp] theorem contents_empty : (ClauseDatabase.empty : ClauseDatabase P).contents = 0 := rfl

theorem contents_addClause_le (clause : LearnedClause P) :
    (db.addClause clause).1.contents ≤ clause ::ₘ db.contents := by
  unfold ClauseDatabase.addClause ClauseDatabase.contents
  split_ifs
  · exact le_of_eq (Multiset.coe_eq_coe.mpr (pushClause_perm db.clauses clause))
  · simp only [grow_flatten]
    exact Multiset.le_cons_self _ _

theorem contents_afterSelection (totalSize : ℕ) :
    ↑(db.giveSelection totalSize).selectedCls + (db.afterSelection totalSize).contents =
      db.contents :=
  Multiset.coe_eq_coe.mpr (giveFrom_perm totalSize 0 0 db.clauses)

end Contents

section Holders

variable (db : ClauseDatabase P)

def ClauseDatabase.held (db : ClauseDatabase P) : Multiset P := ptrs (upcast db.clauses.flatten)

@[simp] theorem held_empty : (ClauseDatabase.empty : ClauseDatabase P).held = 0 := rfl

theorem upcast_perm {cs ds : List (LearnedClause P)} (h : cs.Perm ds) :
    ptrs (upcast cs) = ptrs (upcast ds) :=
  ptrs_perm (h.map _)

/-- The reference that comes with the clause stays with the database, or is
given back. -/
theorem addClause_moves [DecidableEq P] (clause : LearnedClause P) (m : Multiset P) :
    Moves (db.addClause clause).2 (clause.ptr ::ₘ db.held + m)
      ((db.addClause clause).1.held + m) := by
  unfold ClauseDatabase.addClause
  split_ifs with hroom
  · have hheld := upcast_perm (pushClause_perm db.clauses clause)
    simp only [ClauseDatabase.held, hheld, upcast_cons, ptrs_cons]
    exact Moves.nil _
  · simp only [ClauseDatabase.held, grow_flatten, Multiset.cons_add]
    exact Moves.release _ _

theorem held_afterSelection (totalSize : ℕ) :
    ptrs (upcast (db.giveSelection totalSize).selectedCls) +
      (db.afterSelection totalSize).held = db.held := by
  have h := upcast_perm (giveFrom_perm totalSize 0 0 db.clauses)
  rwa [upcast_append, ptrs_append] at h

end Holders

end Painless.SharedDatabase
