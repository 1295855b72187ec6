import Painless.GreedySelection

/-!
The history of a clause database: the calls made on it from the empty one on,
the clauses that it gave back to the clause manager and the selections that it
returned. Every clause passed to it waits in the bucket for its size, or was
released because that bucket was full, or was returned by one selection.
-/
namespace Painless.DatabaseHistory

open RefCount SharedClauses SharedDatabase GreedySelection

inductive DatabaseCall (P : Type*)
  | addClause (clause : LearnedClause P)
  | giveSelection (totalSize : UInt32)

variable {P : Type*}

/-- The clauses that the calls pass to `addClause`, in the order of the calls. -/
def passed (calls : List (DatabaseCall P)) : List (LearnedClause P) :=
  calls.filterMap fun
    | .addClause clause => some clause
    | .giveSelection _ => none

/-- `addClause` releases a clause whose bucket is full. -/
def refused (db : ClauseDatabase P) (clause : LearnedClause P) : List (LearnedClause P) :=
  if HasRoom db.clauses clause then [] else [clause]

def releases (clauses : List (LearnedClause P)) : List (Call P) :=
  clauses.map fun c => releaseClause c.toClauseExchange

theorem addClause_releases (db : ClauseDatabase P) (clause : LearnedClause P) :
    (db.addClause clause).2 = releases (refused db clause) := by
  unfold ClauseDatabase.addClause refused
  split_ifs <;> rfl

theorem addClause_contents (db : ClauseDatabase P) (clause : LearnedClause P) :
    (db.addClause clause).1.contents + ↑(refused db clause) = clause ::ₘ db.contents := by
  unfold ClauseDatabase.addClause refused ClauseDatabase.contents
  split_ifs
  · rw [Multiset.coe_nil, Multiset.add_zero]
    exact Multiset.coe_eq_coe.mpr (pushClause_perm db.clauses clause)
  · rw [grow_flatten, Multiset.coe_singleton, Multiset.add_comm, Multiset.singleton_add]

/-- `log` holds the calls to the clause manager, `released` the clauses that
were the reason for them. -/
structure History (P : Type*) where
  db : ClauseDatabase P
  log : List (Call P)
  released : List (LearnedClause P)
  returned : List (List (LearnedClause P))

def History.empty : History P := ⟨ClauseDatabase.empty, [], [], []⟩

def History.call (h : History P) : DatabaseCall P → History P
  | .addClause clause =>
    { h with
      db := (h.db.addClause clause).1
      log := h.log ++ (h.db.addClause clause).2
      released := h.released ++ refused h.db clause }
  | .giveSelection totalSize =>
    { h with
      db := afterSelection h.db totalSize
      returned := h.returned ++ [(giveSelection h.db totalSize).selectedCls] }

def history (calls : List (DatabaseCall P)) : History P := calls.foldl History.call History.empty

structure Accounted (clauses : List (LearnedClause P)) (h : History P) : Prop where
  log_eq : h.log = releases h.released
  shared : h.db.contents + (h.released : Multiset (LearnedClause P)) +
    (h.returned.flatten : Multiset (LearnedClause P)) = clauses

theorem Accounted.empty : Accounted [] (History.empty : History P) where
  log_eq := rfl
  shared := rfl

theorem Accounted.call {clauses : List (LearnedClause P)} {h : History P}
    (hacc : Accounted clauses h) (c : DatabaseCall P) :
    Accounted (clauses ++ passed [c]) (h.call c) := by
  have hshared := hacc.shared
  cases c with
  | addClause clause =>
    have hadd := addClause_contents h.db clause
    constructor
    · simp only [History.call, hacc.log_eq, addClause_releases, releases, List.map_append]
    · change (h.db.addClause clause).1.contents +
        ((h.released ++ refused h.db clause : List _) : Multiset (LearnedClause P)) +
          (h.returned.flatten : Multiset (LearnedClause P)) = (clauses ++ [clause] : List _)
      rw [← Multiset.coe_add, ← Multiset.coe_add, ← hshared, Multiset.coe_singleton]
      calc (h.db.addClause clause).1.contents + (↑h.released + ↑(refused h.db clause)) +
            ↑h.returned.flatten
          = ((h.db.addClause clause).1.contents + ↑(refused h.db clause)) + ↑h.released +
            ↑h.returned.flatten := by ac_rfl
        _ = ({clause} + h.db.contents) + ↑h.released + ↑h.returned.flatten := by
            rw [hadd, Multiset.singleton_add]
        _ = h.db.contents + ↑h.released + ↑h.returned.flatten + {clause} := by ac_rfl
  | giveSelection totalSize =>
    have hsel := contents_selection h.db totalSize
    constructor
    · exact hacc.log_eq
    · change (afterSelection h.db totalSize).contents +
        (h.released : Multiset (LearnedClause P)) +
          ((h.returned ++ [(giveSelection h.db totalSize).selectedCls]).flatten :
            Multiset (LearnedClause P)) = (clauses ++ [] : List _)
      rw [List.flatten_append, List.flatten_singleton, ← Multiset.coe_add, List.append_nil,
        ← hshared, ← hsel]
      ac_rfl

theorem Accounted.calls {clauses : List (LearnedClause P)} {h : History P}
    (hacc : Accounted clauses h) (calls : List (DatabaseCall P)) :
    Accounted (clauses ++ passed calls) (calls.foldl History.call h) := by
  induction calls generalizing clauses h with
  | nil => rwa [passed, List.filterMap_nil, List.append_nil]
  | cons c rest ih =>
    have hrest := ih (hacc.call c)
    rwa [List.append_assoc, passed, passed, ← List.filterMap_append] at hrest

theorem history_accounted (calls : List (DatabaseCall P)) :
    Accounted (passed calls) (history calls) := by
  have h := Accounted.empty.calls calls
  rwa [List.nil_append] at h

/-- The bucket for the clauses of size `size`. -/
def bucketOf (db : ClauseDatabase P) (size : ℕ) : List (LearnedClause P) :=
  db.clauses.getD (size - 1) []

section Counts

variable [DecidableEq P]

/-- A clause is in no bucket but the one for its size. -/
theorem count_flatten {i : ℕ} {clauses : Buckets P} (h : WellFormed i clauses)
    {c : LearnedClause P} (hc : i < c.size) :
    clauses.flatten.count c = (clauses.getD (c.size - 1 - i) []).count c := by
  induction clauses generalizing i with
  | nil => simp
  | cons bucket rest ih =>
    obtain ⟨hb, hrest⟩ := (wellFormed_cons i bucket rest).mp h
    rw [List.flatten_cons, List.count_append]
    rcases Nat.lt_or_ge (i + 1) c.size with hlater | hhere
    · have hout : bucket.count c = 0 := by
        apply List.count_eq_zero_of_not_mem
        intro hmem
        have hsize := hb.sized c hmem
        omega
      have hnext : c.size - 1 - i = c.size - 1 - (i + 1) + 1 := by omega
      rw [hout, Nat.zero_add, ih hrest hlater, hnext, List.getD_cons_succ]
    · have hout : rest.flatten.count c = 0 := by
        apply List.count_eq_zero_of_not_mem
        intro hmem
        have hsize := lt_size hrest c hmem
        omega
      have hfirst : c.size - 1 - i = 0 := by omega
      rw [hout, Nat.add_zero, hfirst, List.getD_cons_zero]

theorem count_contents (db : ClauseDatabase P) (c : LearnedClause P) :
    db.contents.count c = (bucketOf db c.size).count c := by
  have h := count_flatten db.wellFormed c.size_pos
  rw [Nat.sub_zero] at h
  exact (Multiset.coe_count _ _).trans h

theorem history_count (calls : List (DatabaseCall P)) (c : LearnedClause P) :
    (bucketOf (history calls).db c.size).count c + (history calls).released.count c +
      (history calls).returned.flatten.count c = (passed calls).count c := by
  have h := congrArg (Multiset.count c) (history_accounted calls).shared
  rwa [Multiset.count_add, Multiset.count_add, count_contents, Multiset.coe_count,
    Multiset.coe_count, Multiset.coe_count] at h

/-- What is in a list of lists once is in one of them. -/
theorem count_flatten_eq_one {C : Type*} [DecidableEq C] {ls : List (List C)} {c : C}
    (h : ls.flatten.count c = 1) : ∃ before l after, ls = before ++ l :: after ∧
      l.count c = 1 ∧ ∀ other ∈ before ++ after, c ∉ other := by
  have hmem : c ∈ ls.flatten := List.count_pos_iff.mp (by omega)
  obtain ⟨l, hl, hc⟩ := List.mem_flatten.mp hmem
  obtain ⟨before, after, rfl⟩ := List.append_of_mem hl
  have hpos := List.count_pos_iff.mpr hc
  rw [List.flatten_append, List.flatten_cons, List.count_append, List.count_append] at h
  refine ⟨before, l, after, rfl, by omega, fun other hother hin => ?_⟩
  have hrest : c ∈ before.flatten ++ after.flatten := by
    rw [← List.flatten_append]
    exact List.mem_flatten.mpr ⟨other, hother, hin⟩
  have hcount := List.count_pos_iff.mpr hrest
  rw [List.count_append] at hcount
  omega

/-- After any calls on the empty database: the buckets are sorted by size and
capped, every clause passed waits in its bucket, was released or was returned,
as many times as it was passed, and what was passed once is in one of the three
situations. -/
theorem clauses_accounted (calls : List (DatabaseCall P)) :
    (∀ i bucket, (history calls).db.clauses[i]? = some bucket →
      (∀ c ∈ bucket, c.size = i + 1) ∧ litCount bucket < 1000) ∧
    (history calls).log = releases (history calls).released ∧
    (∀ c, (bucketOf (history calls).db c.size).count c + (history calls).released.count c +
      (history calls).returned.flatten.count c = (passed calls).count c) ∧
    ∀ c, (passed calls).count c = 1 →
      ((bucketOf (history calls).db c.size).count c = 1 ∧ c ∉ (history calls).released ∧
        ∀ selection ∈ (history calls).returned, c ∉ selection) ∨
      ((history calls).released.count c = 1 ∧ c ∉ bucketOf (history calls).db c.size ∧
        ∀ selection ∈ (history calls).returned, c ∉ selection) ∨
      (c ∉ bucketOf (history calls).db c.size ∧ c ∉ (history calls).released ∧
        ∃ before selection after, (history calls).returned = before ++ selection :: after ∧
          selection.count c = 1 ∧ ∀ other ∈ before ++ after, c ∉ other) := by
  refine ⟨fun i bucket hi => ?_, (history_accounted calls).log_eq, history_count calls,
    fun c hc => ?_⟩
  · have hb := (history calls).db.wellFormed i bucket hi
    rw [Nat.zero_add] at hb
    refine ⟨hb.sized, ?_⟩
    rw [hb.litCount fun c hc => hc, Nat.mul_comm]
    exact hb.capped
  · have hsum := history_count calls c
    rw [hc] at hsum
    have hnone {l : List (LearnedClause P)} (hl : l.count c = 0) : c ∉ l :=
      List.count_eq_zero.mp hl
    have hnever (hl : (history calls).returned.flatten.count c = 0) :
        ∀ selection ∈ (history calls).returned, c ∉ selection := by
      intro selection hsel hmem
      exact hnone hl (List.mem_flatten.mpr ⟨selection, hsel, hmem⟩)
    rcases Nat.eq_zero_or_pos ((bucketOf (history calls).db c.size).count c) with hin | hin
    · rcases Nat.eq_zero_or_pos ((history calls).released.count c) with hout | hout
      · right; right
        exact ⟨hnone hin, hnone hout, count_flatten_eq_one (by omega)⟩
      · right; left
        exact ⟨by omega, hnone hin, hnever (by omega)⟩
    · left
      exact ⟨by omega, hnone (by omega), hnever (by omega)⟩

end Counts

end Painless.DatabaseHistory
