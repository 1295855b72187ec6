import Painless.AllocatedArray
import Painless.SharedClauses
import Painless.Transitions

/-!
The import callbacks of Lingeling and the two arrays through which they hand
units and clauses to the engine. An array that is found too small is reallocated
to 1.6 times the number of literals, which the test of the clause array bounds
with one more cell for the final 0 and the new size does not. That is enough all
the same, since no array is ever smaller than 100 cells.
-/
namespace Painless.LingelingImport

open RefCount SharedClauses AllocatedArray Transitions

variable {P : Type*}

/-- What the callbacks use of a solver; every clause has a literal. -/
structure Lingeling (P : Type*) where
  unitsToImport : List (LearnedClause P)
  clausesToImport : List (LearnedClause P)
  unitsBufferSize : ℕ
  clsBufferSize : ℕ
  unitsBuffer : Cells ℤ
  clsBuffer : Cells ℤ

namespace Lingeling

/-- Both constructors allocate arrays of their own. -/
def new : Lingeling P where
  unitsToImport := []
  clausesToImport := []
  unitsBufferSize := 100
  clsBufferSize := 100
  unitsBuffer := malloc 100
  clsBuffer := malloc 100

def addLearnedClause (lp : Lingeling P) (clause : LearnedClause P) : Lingeling P :=
  if clause.size = 1 then { lp with unitsToImport := lp.unitsToImport ++ [clause] }
  else { lp with clausesToImport := lp.clausesToImport ++ [clause] }

/-- The reallocation in consumeUnits; `1.6 * n` is truncated. -/
def growUnits (lp : Lingeling P) (n : ℕ) : Lingeling P :=
  if n ≥ lp.unitsBufferSize then
    { lp with
      unitsBufferSize := 8 * n / 5
      unitsBuffer := realloc lp.unitsBuffer (8 * n / 5) }
  else lp

/-- The reallocation in consumeCls. -/
def growCls (lp : Lingeling P) (size : ℕ) : Lingeling P :=
  if size + 1 ≥ lp.clsBufferSize then
    { lp with
      clsBufferSize := 8 * size / 5
      clsBuffer := realloc lp.clsBuffer (8 * size / 5) }
  else lp

end Lingeling

/-- `cls->lits[0]` -/
def firstLit (cls : LearnedClause P) : ℤ :=
  cls.lits.head (List.ne_nil_of_length_pos (cls.size_eq ▸ cls.size_pos))

/-- What consumeUnits leaves. `*start` and `*end` are given as offsets in
unitsBuffer, `written` are the writes to it. -/
structure Units (P : Type*) where
  lp : Lingeling P
  start : ℕ
  stop : ℕ
  written : List (ℕ × ℤ)
  calls : List (Call P)

/-- There is no result if a write goes outside of the array. -/
def consumeUnits (lp : Lingeling P) : Option (Units P) :=
  let tmp := getClauses lp.unitsToImport
  let lp := { lp with unitsToImport := tmp.2 }
  if tmp.1.isEmpty then some ⟨lp, 0, 0, [], []⟩
  else
    let lp := lp.growUnits tmp.1.length
    let written := copyTo 0 (tmp.1.map firstLit)
    (writes lp.unitsBuffer written).map fun cells =>
      ⟨{ lp with unitsBuffer := cells }, 0, tmp.1.length, written,
        tmp.1.map fun cls => releaseClause cls.toClauseExchange⟩

/-- What consumeCls leaves. `*clause` is an offset in clsBuffer, or NULL; in
that case nothing is assigned to `*glue`. -/
structure Imported (P : Type*) where
  lp : Lingeling P
  clause : Option ℕ
  glue : Option ℤ
  written : List (ℕ × ℤ)
  calls : List (Call P)

def consumeCls (lp : Lingeling P) : Option (Imported P) :=
  match lp.clausesToImport with
  | [] => some ⟨lp, none, none, [], []⟩
  | cls :: rest =>
    let lp := Lingeling.growCls { lp with clausesToImport := rest } cls.size
    let written := copyTo 0 cls.lits ++ [(cls.size, 0)]
    (writes lp.clsBuffer written).map fun cells =>
      ⟨{ lp with clsBuffer := cells }, some 0, cls.lbd, written,
        [releaseClause cls.toClauseExchange]⟩

inductive Action (P : Type*)
  /-- another thread hands a clause over -/
  | addLearnedClause (clause : LearnedClause P)
  | consumeUnits
  | consumeCls

def step (lp : Lingeling P) : Action P → Option (Lingeling P)
  | .addLearnedClause clause => some (lp.addLearnedClause clause)
  | .consumeUnits => (consumeUnits lp).map Units.lp
  | .consumeCls => (consumeCls lp).map Imported.lp

def machine (P : Type*) : Machine (Lingeling P) (Action P) where
  Init lp := lp = Lingeling.new
  step := step

/-! ### The arrays -/

/-- The recorded sizes are those of the arrays, and not below the first ones. -/
structure Sized (lp : Lingeling P) : Prop where
  units : lp.unitsBuffer.length = lp.unitsBufferSize
  cls : lp.clsBuffer.length = lp.clsBufferSize
  unitsLarge : 100 ≤ lp.unitsBufferSize
  clsLarge : 100 ≤ lp.clsBufferSize

/-- No array of the first solver is larger than that of the second. -/
structure NotShrunk (lp lp' : Lingeling P) : Prop where
  units : lp.unitsBufferSize ≤ lp'.unitsBufferSize
  cls : lp.clsBufferSize ≤ lp'.clsBufferSize

theorem sized_new : Sized (Lingeling.new : Lingeling P) where
  units := length_malloc 100
  cls := length_malloc 100
  unitsLarge := Nat.le_refl 100
  clsLarge := Nat.le_refl 100

/-- The new size is no smaller than the old one and above the number that the
array was too small for, whether the test has asked for one more cell or not. -/
theorem grown_size {n size extra : ℕ} (hlarge : 100 ≤ size) (hextra : extra ≤ 1)
    (hfull : size ≤ n + extra) : size ≤ 8 * n / 5 ∧ n < 8 * n / 5 := by
  omega

section Growing
variable {lp : Lingeling P}

theorem Sized.addLearnedClause (h : Sized lp) (clause : LearnedClause P) :
    Sized (lp.addLearnedClause clause) ∧ NotShrunk lp (lp.addLearnedClause clause) := by
  unfold Lingeling.addLearnedClause
  split_ifs
  · exact ⟨{ h with }, Nat.le_refl _, Nat.le_refl _⟩
  · exact ⟨{ h with }, Nat.le_refl _, Nat.le_refl _⟩

theorem Sized.growUnits (h : Sized lp) (n : ℕ) :
    Sized (lp.growUnits n) ∧ NotShrunk lp (lp.growUnits n) ∧
      n < (lp.growUnits n).unitsBufferSize := by
  unfold Lingeling.growUnits
  split_ifs with hfull
  · obtain ⟨hgrown, hroom⟩ := grown_size h.unitsLarge (Nat.zero_le 1) hfull
    exact ⟨{ h with units := length_realloc _ _, unitsLarge := h.unitsLarge.trans hgrown },
      ⟨hgrown, Nat.le_refl _⟩, hroom⟩
  · exact ⟨h, ⟨Nat.le_refl _, Nat.le_refl _⟩, by omega⟩

/-- There is a cell left for the final 0. -/
theorem Sized.growCls (h : Sized lp) (size : ℕ) :
    Sized (lp.growCls size) ∧ NotShrunk lp (lp.growCls size) ∧
      size < (lp.growCls size).clsBufferSize := by
  unfold Lingeling.growCls
  split_ifs with hfull
  · obtain ⟨hgrown, hroom⟩ := grown_size h.clsLarge (Nat.le_refl 1) hfull
    exact ⟨{ h with cls := length_realloc _ _, clsLarge := h.clsLarge.trans hgrown },
      ⟨Nat.le_refl _, hgrown⟩, hroom⟩
  · exact ⟨h, ⟨Nat.le_refl _, Nat.le_refl _⟩, by omega⟩

end Growing

/-! ### The callbacks -/

/-- The writes stay inside of unitsBuffer, and the cells from `*start` to `*end`
are the units that were dequeued, in order. -/
structure UnitsOk (lp : Lingeling P) (r : Units P) : Prop where
  sized : Sized r.lp
  grown : NotShrunk lp r.lp
  inBounds : ∀ w ∈ r.written, w.1 < r.lp.unitsBufferSize
  dequeued : (r.stop : ℤ) - r.start = lp.unitsToImport.length - r.lp.unitsToImport.length
  content : (r.lp.unitsBuffer.drop r.start).take (r.stop - r.start) =
    lp.unitsToImport.map fun cls => some (firstLit cls)

/-- The writes stay inside of clsBuffer, and its cells are the literals of the
clause that was dequeued and a 0. -/
structure ImportedOk (lp : Lingeling P) (r : Imported P) : Prop where
  sized : Sized r.lp
  grown : NotShrunk lp r.lp
  inBounds : ∀ w ∈ r.written, w.1 < r.lp.clsBufferSize
  content : ∀ cls rest, lp.clausesToImport = cls :: rest →
    r.clause = some 0 ∧ r.lp.clsBuffer.take (cls.size + 1) = (cls.lits ++ [0]).map some

theorem growUnits_unitsToImport (lp : Lingeling P) (n : ℕ) :
    (lp.growUnits n).unitsToImport = lp.unitsToImport := by
  unfold Lingeling.growUnits
  split_ifs <;> rfl

theorem consumeUnits_spec {lp : Lingeling P} (h : Sized lp) :
    ∃ r, consumeUnits lp = some r ∧ UnitsOk lp r := by
  unfold consumeUnits
  rw [getClauses_eq]
  dsimp only
  by_cases hempty : lp.unitsToImport = []
  · rw [hempty, List.isEmpty_nil, if_pos rfl]
    refine ⟨_, rfl, { h with }, ⟨Nat.le_refl _, Nat.le_refl _⟩, ?_, ?_, ?_⟩
    · exact fun w hw => absurd hw List.not_mem_nil
    · rw [hempty]
      rfl
    · rw [hempty]
      rfl
  · have hdrained : Sized { lp with unitsToImport := [] } := { h with }
    obtain ⟨hsized, hgrown, hroom⟩ := hdrained.growUnits lp.unitsToImport.length
    have hqueue := growUnits_unitsToImport { lp with unitsToImport := [] } lp.unitsToImport.length
    generalize Lingeling.growUnits { lp with unitsToImport := [] } lp.unitsToImport.length = grown
      at hsized hgrown hroom hqueue ⊢
    have hlength : (lp.unitsToImport.map firstLit).length = lp.unitsToImport.length :=
      List.length_map _
    have hfits : (lp.unitsToImport.map firstLit).length ≤ grown.unitsBuffer.length := by
      rw [hsized.units]
      omega
    obtain ⟨cells, hwrites, hcells, htake⟩ := writes_first hfits
    rw [if_neg (by simpa using hempty), hwrites]
    refine ⟨_, rfl, { hsized with units := hcells.trans hsized.units }, { hgrown with },
      fun w hw => ?_, ?_, ?_⟩
    · have hbounds := mem_copyTo hw
      show w.1 < grown.unitsBufferSize
      omega
    · dsimp only
      rw [hqueue, List.length_nil]
    · dsimp only
      rw [List.drop_zero, Nat.sub_zero, ← hlength, htake, List.map_map]
      rfl

/-- The literals and the final 0 are written to consecutive cells. -/
theorem copyTo_terminated (cls : LearnedClause P) :
    copyTo 0 cls.lits ++ [(cls.size, 0)] = copyTo 0 (cls.lits ++ [0]) := by
  rw [copyTo_append, cls.size_eq, Nat.zero_add]
  rfl

theorem consumeCls_spec {lp : Lingeling P} (h : Sized lp) :
    ∃ r, consumeCls lp = some r ∧ ImportedOk lp r := by
  unfold consumeCls
  split
  case h_1 hempty =>
    refine ⟨_, rfl, h, ⟨Nat.le_refl _, Nat.le_refl _⟩, ?_, ?_⟩
    · exact fun w hw => absurd hw List.not_mem_nil
    · intro cls rest hqueue
      rw [hempty] at hqueue
      cases hqueue
  case h_2 cls rest hqueue =>
    have hdequeued : Sized { lp with clausesToImport := rest } := { h with }
    obtain ⟨hsized, hgrown, hroom⟩ := hdequeued.growCls cls.size
    dsimp only
    generalize Lingeling.growCls { lp with clausesToImport := rest } cls.size = grown
      at hsized hgrown hroom ⊢
    have hlength : (cls.lits ++ [0]).length = cls.size + 1 := by
      rw [List.length_append, List.length_singleton, cls.size_eq]
    rw [copyTo_terminated]
    have hfits : (cls.lits ++ [0]).length ≤ grown.clsBuffer.length := by
      rw [hsized.cls]
      omega
    obtain ⟨cells, hwrites, hcells, htake⟩ := writes_first hfits
    rw [hwrites]
    refine ⟨_, rfl, { hsized with cls := hcells.trans hsized.cls }, { hgrown with },
      fun w hw => ?_, ?_⟩
    · have hbounds := mem_copyTo hw
      show w.1 < grown.clsBufferSize
      omega
    · intro cls' rest' hqueue'
      obtain ⟨rfl, rfl⟩ := List.cons.inj (hqueue.symm.trans hqueue')
      refine ⟨rfl, ?_⟩
      rw [← hlength]
      exact htake

/-! ### Every run -/

/-- Every step has a result, in which the arrays have kept their recorded sizes
or grown. -/
theorem step_sized {lp : Lingeling P} (h : Sized lp) (a : Action P) :
    ∃ lp', step lp a = some lp' ∧ Sized lp' ∧ NotShrunk lp lp' := by
  cases a with
  | addLearnedClause clause =>
    obtain ⟨hsized, hgrown⟩ := h.addLearnedClause clause
    exact ⟨_, rfl, hsized, hgrown⟩
  | consumeUnits =>
    obtain ⟨r, hr, hok⟩ := consumeUnits_spec h
    exact ⟨r.lp, by rw [step, hr, Option.map_some], hok.sized, hok.grown⟩
  | consumeCls =>
    obtain ⟨r, hr, hok⟩ := consumeCls_spec h
    exact ⟨r.lp, by rw [step, hr, Option.map_some], hok.sized, hok.grown⟩

theorem run_sized {lp : Lingeling P} (h : Sized lp) (as : List (Action P)) :
    ∃ lp', (machine P).run lp as = some lp' ∧ Sized lp' ∧ NotShrunk lp lp' := by
  induction as generalizing lp with
  | nil => exact ⟨lp, rfl, h, Nat.le_refl _, Nat.le_refl _⟩
  | cons a rest ih =>
    obtain ⟨lp₁, hstep, hsized, hgrown⟩ := step_sized h a
    obtain ⟨lp₂, hrun, hend, hrest⟩ := ih hsized
    refine ⟨lp₂, ?_, hend, hgrown.units.trans hrest.units, hgrown.cls.trans hrest.cls⟩
    rw [Machine.run_cons, show (machine P).step lp a = some lp₁ from hstep, Option.bind_some]
    exact hrun

/-- After any sequence of callbacks, with any clauses handed over in between,
the recorded sizes are those of the arrays, they never shrink from there on, and
the next callback of either kind stays inside of its array. -/
theorem import_arrays_suffice (as : List (Action P)) :
    ∃ lp, (machine P).run Lingeling.new as = some lp ∧ Sized lp ∧
      (∀ later, ∃ lp', (machine P).run lp later = some lp' ∧ NotShrunk lp lp') ∧
      (∃ r, consumeUnits lp = some r ∧ UnitsOk lp r) ∧
      ∃ r, consumeCls lp = some r ∧ ImportedOk lp r := by
  obtain ⟨lp, hrun, hsized, -⟩ := run_sized sized_new as
  refine ⟨lp, hrun, hsized, fun later => ?_, consumeUnits_spec hsized, consumeCls_spec hsized⟩
  obtain ⟨lp', hlater, -, hgrown⟩ := run_sized hsized later
  exact ⟨lp', hlater, hgrown⟩

end Painless.LingelingImport
