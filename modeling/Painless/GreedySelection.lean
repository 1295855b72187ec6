import Painless.MachineIntegers
import Painless.SharedDatabase

/-!
`giveSelection` in the arithmetic of the machine, where the literals used are
an `int`, the budget an `unsigned` and a bucket's size a `size_t`. The capped
buckets keep every number small: no subtraction wraps, and the selection is the
greedy one, which takes shortest clauses first and leaves none that still fits.
-/
namespace Painless.GreedySelection

open MachineIntegers SharedClauses SharedDatabase

variable {P : Type*}

/-- The `size_t` that `x` is converted to. -/
def sizeOf (x : ℤ) : ℕ := (x % 2 ^ 64).toNat

theorem sizeOf_nat {n : ℕ} (h : n < 2 ^ 64) : sizeOf n = n := by
  unfold sizeOf
  omega

/-- `wrapped` says whether a subtraction `totalSize - used` has wrapped. -/
structure IntSelection (P : Type*) where
  selectedCls : List (LearnedClause P)
  used : ℤ
  selectCount : ℤ
  clauses : Buckets P
  wrapped : Bool

/-- The loop of `giveSelection` from bucket `i` on. -/
def giveLoop (totalSize : ℕ) : ℕ → ℤ → ℤ → Buckets P → IntSelection P
  | _, used, selectCount, [] => ⟨[], used, selectCount, [], false⟩
  | i, used, selectCount, bucket :: rest =>
    let clsSize := i + 1
    let left := unsignedOf (totalSize - used)
    let wraps := decide ((totalSize : ℤ) < used)
    if left < clsSize then
      ⟨[], used, selectCount, bucket :: rest, wraps⟩
    else if sizeOf (clsSize * bucket.length : ℕ) ≤ left then
      let more := giveLoop totalSize (i + 1) (intOf (used + (clsSize * bucket.length : ℕ)))
        (intOf (selectCount + bucket.length)) rest
      ⟨bucket ++ more.selectedCls, more.used, more.selectCount, [] :: more.clauses,
        wraps || more.wrapped⟩
    else
      let nCls := left / clsSize
      let more := giveLoop totalSize (i + 1) (intOf (used + (clsSize * nCls : ℕ)))
        (intOf (selectCount + nCls)) rest
      ⟨bucket.reverse.take nCls ++ more.selectedCls, more.used, more.selectCount,
        bucket.take (bucket.length - nCls) :: more.clauses, wraps || more.wrapped⟩

def giveSelection (db : ClauseDatabase P) (totalSize : UInt32) : IntSelection P :=
  giveLoop totalSize.toNat 0 0 0 db.clauses

/-- What a bucket can hold, and what the buckets before number `i` can. -/
theorem bucket_room {i used : ℕ} {bucket : List (LearnedClause P)} (h : BucketOk i bucket)
    (hused : used ≤ 999 * min i 999) :
    (i + 1) * bucket.length < 1000 ∧ bucket.length ≤ (i + 1) * bucket.length ∧
      used + (i + 1) * bucket.length ≤ 999 * min (i + 1) 999 := by
  have hcap : (i + 1) * bucket.length < 1000 := by
    rw [Nat.mul_comm]
    exact h.capped
  have hle : bucket.length ≤ (i + 1) * bucket.length :=
    Nat.le_mul_of_pos_left bucket.length i.succ_pos
  refine ⟨hcap, hle, ?_⟩
  rcases Nat.lt_or_ge i 999 with hi | hi
  · omega
  · have hempty : bucket.length = 0 := by
      by_contra hne
      have hpos : 1 ≤ bucket.length := Nat.pos_of_ne_zero hne
      have hbig : (i + 1) * 1 ≤ (i + 1) * bucket.length := Nat.mul_le_mul_left (i + 1) hpos
      omega
    rw [hempty, Nat.mul_zero]
    omega

/-- The machine's loop computes what the loop on unbounded numbers does. -/
theorem giveLoop_eq {totalSize : ℕ} (htotal : totalSize < 2 ^ 32) {i : ℕ} {clauses : Buckets P}
    (h : WellFormed i clauses) (used selectCount : ℕ) (hused : used ≤ totalSize)
    (hbound : used ≤ 999 * min i 999) (hcount : selectCount ≤ used) :
    giveLoop totalSize i used selectCount clauses =
      ⟨(giveFrom totalSize i used clauses).selectedCls, (giveFrom totalSize i used clauses).used,
        (selectCount + (giveFrom totalSize i used clauses).selectCount : ℕ),
        (giveFrom totalSize i used clauses).clauses, false⟩ := by
  induction clauses generalizing i used selectCount with
  | nil => rfl
  | cons bucket rest ih =>
    obtain ⟨hb, hrest⟩ := (wellFormed_cons i bucket rest).mp h
    obtain ⟨hcap, hlen, hroom⟩ := bucket_room hb hbound
    have hwraps : decide ((totalSize : ℤ) < used) = false := by
      apply decide_eq_false
      omega
    have hsize : sizeOf ((i + 1) * bucket.length : ℕ) = (i + 1) * bucket.length :=
      sizeOf_nat (by omega)
    -- taking `n` clauses of the bucket leaves both counters small
    have htake (n : ℕ) (hn : n ≤ bucket.length) (hfits : (i + 1) * n ≤ totalSize - used) :
        giveLoop totalSize (i + 1) (intOf (used + ((i + 1) * n : ℕ))) (intOf (selectCount + n))
            rest = ⟨(giveFrom totalSize (i + 1) (used + (i + 1) * n) rest).selectedCls,
          (giveFrom totalSize (i + 1) (used + (i + 1) * n) rest).used,
          (selectCount + (n + (giveFrom totalSize (i + 1) (used + (i + 1) * n) rest).selectCount)
            : ℕ), (giveFrom totalSize (i + 1) (used + (i + 1) * n) rest).clauses, false⟩ := by
      have hmul : (i + 1) * n ≤ (i + 1) * bucket.length := Nat.mul_le_mul_left (i + 1) hn
      have hle : n ≤ (i + 1) * n := Nat.le_mul_of_pos_left n i.succ_pos
      have hnew := ih hrest (used + (i + 1) * n) (selectCount + n) (by omega) (by omega)
        (by omega)
      rw [← Nat.cast_add, ← Nat.cast_add, intOf_nat (by omega), intOf_nat (by omega), hnew,
        Nat.add_assoc]
    unfold giveLoop giveFrom
    dsimp only
    rw [unsignedOf_sub htotal hused, hsize, hwraps]
    split_ifs with hsmall hwhole
    · rfl
    · rw [htake bucket.length (Nat.le_refl _) hwhole]
      rfl
    · have hn : (totalSize - used) / (i + 1) ≤ bucket.length := by
        refine Nat.div_le_of_le_mul ?_
        omega
      rw [htake _ hn (Nat.mul_div_le _ _)]
      rfl

theorem giveSelection_eq (db : ClauseDatabase P) (totalSize : UInt32) :
    giveSelection db totalSize =
      ⟨(db.giveSelection totalSize.toNat).selectedCls, (db.giveSelection totalSize.toNat).used,
        (db.giveSelection totalSize.toNat).selectCount,
        (db.giveSelection totalSize.toNat).clauses, false⟩ := by
  have h := giveLoop_eq totalSize.toNat_lt db.wellFormed 0 0 (Nat.zero_le _) (Nat.zero_le _)
    (Nat.le_refl 0)
  rwa [Nat.zero_add] at h

section Greedy

theorem lt_size {i : ℕ} {clauses : Buckets P} (h : WellFormed i clauses) :
    ∀ c ∈ clauses.flatten, i < c.size := by
  induction clauses generalizing i with
  | nil => simp
  | cons bucket rest ih =>
    obtain ⟨hb, hrest⟩ := (wellFormed_cons i bucket rest).mp h
    intro c hc
    rw [List.flatten_cons, List.mem_append] at hc
    rcases hc with hc | hc
    · have hsize := hb.sized c hc
      omega
    · have hlater := ih hrest c hc
      omega

/-- Without room for a clause of the next bucket the loop takes nothing more. -/
theorem giveFrom_full {totalSize used i : ℕ} (h : totalSize - used < i + 1)
    (clauses : Buckets P) : giveFrom totalSize i used clauses = ⟨[], used, 0, clauses⟩ := by
  cases clauses with
  | nil => rfl
  | cons bucket rest => simp only [giveFrom, if_pos h]

/-- Part of a bucket is taken only where what is left of the budget is then
too small for any clause that stays. -/
theorem left_lt (totalSize used i : ℕ) :
    totalSize - (used + (i + 1) * ((totalSize - used) / (i + 1))) < i + 1 := by
  have hdiv := Nat.div_add_mod (totalSize - used) (i + 1)
  have hmod : (totalSize - used) % (i + 1) < i + 1 := Nat.mod_lt _ i.succ_pos
  omega

theorem giveFrom_shortest {totalSize i : ℕ} {clauses : Buckets P} (h : WellFormed i clauses)
    (used : ℕ) : ∀ c ∈ (giveFrom totalSize i used clauses).clauses.flatten,
      ∀ d ∈ (giveFrom totalSize i used clauses).selectedCls, d.size ≤ c.size := by
  induction clauses generalizing i used with
  | nil => simp [giveFrom]
  | cons bucket rest ih =>
    obtain ⟨hb, hrest⟩ := (wellFormed_cons i bucket rest).mp h
    unfold giveFrom
    dsimp only
    split_ifs with hsmall hwhole
    · simp
    · intro c hc d hd
      rw [List.flatten_cons, List.nil_append] at hc
      rcases List.mem_append.mp hd with hd | hd
      · have hsize := hb.sized d hd
        have hlater := lt_size (giveFrom_wellFormed totalSize hrest _) c hc
        omega
      · exact ih hrest _ c hc d hd
    · intro c hc d hd
      rw [giveFrom_full (by have := left_lt totalSize used i; omega)] at hc hd
      have hfirst : d ∈ bucket := by
        rw [List.append_nil] at hd
        exact List.mem_reverse.mp (List.mem_of_mem_take hd)
      have hsize := hb.sized d hfirst
      rw [List.flatten_cons] at hc
      rcases List.mem_append.mp hc with hc | hc
      · rw [hb.sized c (List.mem_of_mem_take hc), hsize]
      · have hlater := lt_size hrest c hc
        omega

theorem giveFrom_maximal (totalSize : ℕ) {i : ℕ} {clauses : Buckets P} (h : WellFormed i clauses)
    (used : ℕ) : ∀ c ∈ (giveFrom totalSize i used clauses).clauses.flatten,
      totalSize - (giveFrom totalSize i used clauses).used < c.size := by
  induction clauses generalizing i used with
  | nil => simp [giveFrom]
  | cons bucket rest ih =>
    obtain ⟨hb, hrest⟩ := (wellFormed_cons i bucket rest).mp h
    have hall := lt_size h
    unfold giveFrom
    dsimp only
    split_ifs with hsmall hwhole
    · intro c hc
      have hsize := hall c hc
      dsimp only
      omega
    · intro c hc
      rw [List.flatten_cons, List.nil_append] at hc
      exact ih hrest _ c hc
    · have hleft := left_lt totalSize used i
      intro c hc
      rw [giveFrom_full (by omega)] at hc ⊢
      have hsize : i < c.size := by
        rw [List.flatten_cons] at hc
        rcases List.mem_append.mp hc with hc | hc
        · exact hall c (List.mem_append_left _ (List.mem_of_mem_take hc))
        · exact hall c (List.mem_append_right _ hc)
      dsimp only
      omega

/-- The shortest clauses first, as many as the budget allows, on every path
through the loop. -/
theorem selection_greedy (db : ClauseDatabase P) (totalSize : UInt32) :
    (giveSelection db totalSize).used = litCount (giveSelection db totalSize).selectedCls ∧
      (giveSelection db totalSize).used ≤ totalSize.toNat ∧
      (giveSelection db totalSize).wrapped = false ∧
      (giveSelection db totalSize).selectCount =
        (giveSelection db totalSize).selectedCls.length ∧
      (∀ c ∈ (giveSelection db totalSize).clauses.flatten,
        ∀ d ∈ (giveSelection db totalSize).selectedCls, d.size ≤ c.size) ∧
      ∀ c ∈ (giveSelection db totalSize).clauses.flatten,
        (totalSize.toNat : ℤ) - (giveSelection db totalSize).used < c.size := by
  have hcount := giveFrom_selectCount totalSize.toNat 0 0 db.clauses
  have hlits : (giveFrom totalSize.toNat 0 0 db.clauses).used =
      0 + litCount (giveFrom totalSize.toNat 0 0 db.clauses).selectedCls :=
    giveFrom_litCount db.wellFormed 0
  have hused := (giveFrom_used (Nat.zero_le totalSize.toNat) 0 db.clauses).1
  have hmax := giveFrom_maximal totalSize.toNat db.wellFormed 0
  rw [Nat.zero_add] at hlits
  rw [giveSelection_eq]
  refine ⟨congrArg Nat.cast hlits, Int.ofNat_le.mpr hused, rfl, congrArg Nat.cast hcount,
    giveFrom_shortest db.wellFormed 0, fun c hc => ?_⟩
  have hleft := hmax c hc
  change (totalSize.toNat : ℤ) - (giveFrom totalSize.toNat 0 0 db.clauses).used < c.size
  omega

end Greedy

section Databases

/-- The database after the call. -/
def afterSelection (db : ClauseDatabase P) (totalSize : UInt32) : ClauseDatabase P where
  clauses := (giveSelection db totalSize).clauses
  wellFormed := by
    rw [giveSelection_eq]
    exact giveFrom_wellFormed totalSize.toNat db.wellFormed 0

/-- Every clause of the database is selected or stays. -/
theorem contents_selection (db : ClauseDatabase P) (totalSize : UInt32) :
    ↑(giveSelection db totalSize).selectedCls + (afterSelection db totalSize).contents =
      db.contents := by
  have h := contents_afterSelection db totalSize.toNat
  have hcls : (giveSelection db totalSize).selectedCls =
      (db.giveSelection totalSize.toNat).selectedCls := by rw [giveSelection_eq]
  have hrest : (giveSelection db totalSize).clauses =
      (db.giveSelection totalSize.toNat).clauses := by rw [giveSelection_eq]
  rw [hcls, ← h]
  unfold afterSelection ClauseDatabase.afterSelection ClauseDatabase.contents
  dsimp only
  rw [hrest]

end Databases

end Painless.GreedySelection
