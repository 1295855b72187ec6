import Painless.DuplicateFilter
import Painless.MachineIntegers
import Painless.SharedDatabase

/-!
The part of the communicator that exchanges clauses between the ranks. Local
clauses pass the external filter into a database; a selection of it is written
into the export buffer, clause after clause with a separator, and sent to the
other ranks of the sharing group. The words of a received message are split
again, and the clauses the same filter takes for new are queued for import.
-/
namespace Painless.ClauseCommunicator

open RefCount SharedClauses SharedDatabase DuplicateFilter
open MachineIntegers (intOf)

variable {P : Type*}

structure MpiComm (P : Type*) where
  rank : ℤ
  size : ℤ
  clsShrLowerRank : ℤ
  clsShrUpperRank : ℤ
  externalFilter : ClauseFilter
  clausesToImport : List (ClauseExchange P)
  clausesToExport : ClauseDatabase P
  importBuf : ℕ → ℤ
  exportBuf : ℕ → ℤ

/-- An int given where an unsigned is expected. -/
def toUnsigned (n : ℤ) : ℕ := if 0 ≤ n then n.toNat else (2 ^ 32 + n).toNat

/-- The communicator before `init`; malloc leaves any words in its buffers. -/
def MpiComm.fresh (importBuf exportBuf : ℕ → ℤ) : MpiComm P where
  rank := -1
  size := -1
  clsShrLowerRank := -1
  clsShrUpperRank := -1
  externalFilter := ClauseFilter.empty
  clausesToImport := []
  clausesToExport := ClauseDatabase.empty
  importBuf := importBuf
  exportBuf := exportBuf

def MpiComm.init (rank size sharingGroupSize : ℤ) (comm : MpiComm P) : MpiComm P :=
  if sharingGroupSize ≠ 0 then
    let lower := rank.tdiv sharingGroupSize * sharingGroupSize
    let upper := lower + sharingGroupSize
    { comm with
      rank := rank
      size := size
      clsShrLowerRank := lower
      clsShrUpperRank := if upper > size then size else upper }
  else
    { comm with rank := rank, size := size, clsShrLowerRank := 0, clsShrUpperRank := size }

/-- The length of both buffers, for the value of shr-lit: the product of two
`int`. -/
def clauseBufLimit (litPerRound : ℤ) : ℤ := intOf (litPerRound * 2)

/-! ### Export -/

/-- The loop of `addClausesToExternal`. -/
def addToExternal : MpiComm P → List (LearnedClause P) → MpiComm P × List (Call P)
  | comm, [] => (comm, [])
  | comm, cls :: rest =>
    let answer := comm.externalFilter.registerClause cls.lits
    let comm := { comm with externalFilter := answer.2 }
    if answer.1 then
      let added := comm.clausesToExport.addClause cls
      let more := addToExternal { comm with clausesToExport := added.1 } rest
      (more.1, increaseClause cls.toClauseExchange :: added.2 ++ more.2)
    else
      addToExternal comm rest

def addClausesToExternal (comm : MpiComm P) (clauses : List (LearnedClause P)) :
    MpiComm P × List (Call P) :=
  if comm.size = 1 then (comm, []) else addToExternal comm clauses

def getClausesFromExternal (comm : MpiComm P) : List (ClauseExchange P) × MpiComm P :=
  ((getClauses comm.clausesToImport).1,
    { comm with clausesToImport := (getClauses comm.clausesToImport).2 })

/-- The export buffer while it is filled, and the indices written so far. -/
structure Filling where
  idx : ℕ
  exportBuf : ℕ → ℤ
  written : List ℕ

namespace Filling

def put (w : Filling) (word : ℤ) : Filling where
  idx := w.idx + 1
  exportBuf := Function.update w.exportBuf w.idx word
  written := w.written ++ [w.idx]

def putClause (w : Filling) (cls : LearnedClause P) : Filling :=
  (cls.lits.foldl put w).put 0

/-- The length word is written last. -/
def close (w : Filling) : Filling where
  idx := w.idx - 1
  exportBuf := Function.update w.exportBuf 0 ((w.idx - 1 : ℕ) : ℤ)
  written := w.written ++ [0]

end Filling

def fillExportBuf (exportBuf : ℕ → ℤ) (selected : List (LearnedClause P)) : Filling :=
  (selected.foldl Filling.putClause ⟨1, exportBuf, []⟩).close

structure Message where
  target : ℤ
  payload : ℕ → ℤ

/-- The ranks of the sharing group but the own one, in the order of the loop. -/
def targets (comm : MpiComm P) : List ℤ :=
  ((List.range (comm.clsShrUpperRank - comm.clsShrLowerRank).toNat).map
    fun i => comm.clsShrLowerRank + (i : ℤ)).filter (· ≠ comm.rank)

structure Export (P : Type*) where
  comm : MpiComm P
  sent : List Message
  calls : List (Call P)

/-- What `exportLearnedClauses` does with its selection; `none` where its
assertion fails. -/
def exportSelected (litPerRound : ℤ) (comm : MpiComm P) (selected : List (LearnedClause P)) :
    Option (Export P) :=
  if selected = [] then some ⟨comm, [], []⟩
  else
    let w := fillExportBuf comm.exportBuf selected
    if (w.idx : ℤ) < clauseBufLimit litPerRound then
      some ⟨{ comm with exportBuf := w.exportBuf },
        (targets comm).map fun target => ⟨target, w.exportBuf⟩,
        (upcast selected).map releaseClause⟩
    else none

/-- The clauses `exportLearnedClauses` takes out of the database. -/
def exportSelection (litPerRound : ℤ) (comm : MpiComm P) : List (LearnedClause P) :=
  (comm.clausesToExport.giveSelection (toUnsigned litPerRound)).selectedCls

def exportLearnedClauses (litPerRound : ℤ) (comm : MpiComm P) : Option (Export P) :=
  exportSelected litPerRound
    { comm with
      clausesToExport := comm.clausesToExport.afterSelection (toUnsigned litPerRound) }
    (exportSelection litPerRound comm)

/-! ### Import -/

/-- The state of the loop of `handleReceivedClauses`, with the literals
presented to the filter and the clauses queued so far. -/
structure Decoding (P : Type*) where
  comm : MpiComm P
  tmp : List ℤ
  presented : List (List ℤ)
  queued : List (ClauseExchange P)

/-- One round of the loop; `malloc k` is the address of allocation `k`. -/
def decodeWord (malloc : ℕ → P) (d : Decoding P) (word : ℤ) : Decoding P :=
  if word ≠ 0 then
    { d with tmp := d.tmp ++ [word] }
  else
    let answer := d.comm.externalFilter.registerClause d.tmp
    let comm := { d.comm with externalFilter := answer.2 }
    if answer.1 = false then
      { d with comm := comm, tmp := [], presented := d.presented ++ [d.tmp] }
    else
      let cls : ClauseExchange P :=
        ⟨malloc d.queued.length, none, -1, d.tmp.length, d.tmp, rfl⟩
      { comm := { comm with clausesToImport := comm.clausesToImport ++ [cls] }
        tmp := []
        presented := d.presented ++ [d.tmp]
        queued := d.queued ++ [cls] }

/-- The words of a buffer from 1 to its length word. -/
def bufferWords (clsBuf : ℕ → ℤ) : List ℤ :=
  (List.range (clsBuf 0).toNat).map fun i => clsBuf (i + 1)

/-- `none` where the assertion on the length word fails. -/
def handleReceivedClauses (malloc : ℕ → P) (clsBuf : ℕ → ℤ) (size : ℤ) (comm : MpiComm P) :
    Option (Decoding P) :=
  if clsBuf 0 < size then
    some ((bufferWords clsBuf).foldl (decodeWord malloc) ⟨comm, [], [], []⟩)
  else none

/-- A received message overwrites the import buffer as far as it reaches. -/
def MPI_Recv (litPerRound : ℤ) (payload importBuf : ℕ → ℤ) : ℕ → ℤ :=
  fun i => if (i : ℤ) < clauseBufLimit litPerRound then payload i else importBuf i

/-- `receiveIncomingMsg` with CLAUSE_TAG. -/
def receiveClauses (litPerRound : ℤ) (malloc : ℕ → P) (payload : ℕ → ℤ) (comm : MpiComm P) :
    Option (Decoding P) :=
  let importBuf := MPI_Recv litPerRound payload comm.importBuf
  handleReceivedClauses malloc importBuf (clauseBufLimit litPerRound)
    { comm with importBuf := importBuf }

/-! ### What the export does to the database and the filter -/

section Frames

variable (comm : MpiComm P) (clauses : List (LearnedClause P))

/-- The local clauses the filter takes for new. -/
def registered : List (LearnedClause P) :=
  if comm.size = 1 then []
  else (sift (fun c : LearnedClause P => c.lits) comm.externalFilter clauses).1

theorem addToExternal_filter : (addToExternal comm clauses).1.externalFilter =
    (sift (fun c : LearnedClause P => c.lits) comm.externalFilter clauses).2 := by
  induction clauses generalizing comm with
  | nil => rfl
  | cons cls rest ih =>
    unfold addToExternal
    dsimp only
    split_ifs <;> simp only [ih, sift]

theorem addToExternal_import :
    (addToExternal comm clauses).1.clausesToImport = comm.clausesToImport := by
  induction clauses generalizing comm with
  | nil => rfl
  | cons cls rest ih =>
    unfold addToExternal
    dsimp only
    split_ifs <;> simp only [ih]

/-- Only clauses the filter takes for new come into the database, and a full
bucket may turn them away again. -/
theorem addToExternal_contents :
    (addToExternal comm clauses).1.clausesToExport.contents ≤
      ↑(sift (fun c : LearnedClause P => c.lits) comm.externalFilter clauses).1 +
        comm.clausesToExport.contents := by
  induction clauses generalizing comm with
  | nil => simp [addToExternal, sift]
  | cons cls rest ih =>
    unfold addToExternal
    dsimp only
    split_ifs with hanswer
    · refine (ih _).trans ?_
      simp only [sift, hanswer, if_true, ← Multiset.cons_coe, Multiset.cons_add]
      rw [← Multiset.add_cons]
      exact Multiset.add_le_add_left (contents_addClause_le _ cls)
    · refine (ih _).trans (le_of_eq ?_)
      simp [sift, hanswer]

@[simp] theorem addClausesToExternal_import :
    (addClausesToExternal comm clauses).1.clausesToImport = comm.clausesToImport := by
  unfold addClausesToExternal
  split_ifs
  · rfl
  · exact addToExternal_import comm clauses

/-- What a call leaves in the filter and the database, whichever rank it is on. -/
theorem addClausesToExternal_spec :
    (addClausesToExternal comm clauses).1.clausesToExport.contents ≤
        ↑(registered comm clauses) + comm.clausesToExport.contents ∧
      (∀ l, comm.externalFilter.Registered l →
        (addClausesToExternal comm clauses).1.externalFilter.Registered l) ∧
      ∀ c ∈ registered comm clauses,
        ¬ comm.externalFilter.Registered c.lits ∧
          (addClausesToExternal comm clauses).1.externalFilter.Registered c.lits := by
  unfold addClausesToExternal registered
  split_ifs
  · simp
  · refine ⟨addToExternal_contents comm clauses, fun l hl => ?_, fun c hc => ⟨?_, ?_⟩⟩
    · rw [addToExternal_filter]
      exact hl.sift clauses
    · exact @not_registered_of_sift _ (fun c : LearnedClause P => c.lits) _ _ c hc
    · rw [addToExternal_filter]
      exact @registered_sift _ (fun c : LearnedClause P => c.lits) _ _ c
        ((sift_sublist _ _).subset hc)

theorem registered_nodup :
    ((registered comm clauses).map fun c => c.lits).Nodup := by
  unfold registered
  split_ifs
  · exact List.nodup_nil
  · exact sift_nodup _ _

theorem exportLearnedClauses_spec {litPerRound : ℤ} {comm : MpiComm P} {e : Export P}
    (h : exportLearnedClauses litPerRound comm = some e) :
    e.comm.externalFilter = comm.externalFilter ∧
      e.comm.clausesToImport = comm.clausesToImport ∧
      e.comm.clausesToExport = comm.clausesToExport.afterSelection (toUnsigned litPerRound) ∧
      e.calls = (upcast (exportSelection litPerRound comm)).map releaseClause := by
  unfold exportLearnedClauses exportSelected at h
  dsimp only at h
  split_ifs at h with hnil hidx
  · obtain rfl := Option.some.inj h
    simp [hnil]
  · obtain rfl := Option.some.inj h
    simp

theorem getClausesFromExternal_eq : getClausesFromExternal comm =
    (comm.clausesToImport, { comm with clausesToImport := [] }) := by
  rw [getClausesFromExternal, getClauses_eq]

end Frames

/-! ### What the decoder queues -/

/-- Where a decoder that started with `comm` has got to. -/
structure Decoded (malloc : ℕ → P) (comm : MpiComm P) (d : Decoding P) : Prop where
  filter : d.comm.externalFilter = (sift id comm.externalFilter d.presented).2
  queued_lits : d.queued.map ClauseExchange.lits = (sift id comm.externalFilter d.presented).1
  queued_ptr : d.queued.map ClauseExchange.ptr = (List.range d.queued.length).map malloc
  queued_from : ∀ c ∈ d.queued, c.fromId = -1
  toImport : d.comm.clausesToImport = comm.clausesToImport ++ d.queued
  toExport : d.comm.clausesToExport = comm.clausesToExport

theorem Decoded.start (malloc : ℕ → P) (comm : MpiComm P) :
    Decoded malloc comm ⟨comm, [], [], []⟩ := by
  constructor <;> simp [sift]

theorem Decoded.word {malloc : ℕ → P} {comm : MpiComm P} {d : Decoding P}
    (h : Decoded malloc comm d) (word : ℤ) : Decoded malloc comm (decodeWord malloc d word) := by
  unfold decodeWord
  dsimp only
  split_ifs with hword hanswer
  · exact { h with }
  · constructor
    case filter => simp only [sift_append, sift, id, ← h.filter]
    case queued_lits => simp [sift_append, sift, ← h.filter, hanswer, h.queued_lits]
    case queued_ptr => exact h.queued_ptr
    case queued_from => exact h.queued_from
    case toImport => exact h.toImport
    case toExport => exact h.toExport
  · constructor
    case filter => simp only [sift_append, sift, id, ← h.filter]
    case queued_lits => simp [sift_append, sift, ← h.filter, hanswer, h.queued_lits]
    case queued_ptr => simp [List.range_succ, h.queued_ptr]
    case queued_from =>
      intro c hc
      rcases List.mem_append.mp hc with hc | hc
      · exact h.queued_from c hc
      · rw [List.mem_singleton.mp hc]
    case toImport => simp [h.toImport]
    case toExport => exact h.toExport

theorem Decoded.words {malloc : ℕ → P} {comm : MpiComm P} {d : Decoding P}
    (h : Decoded malloc comm d) (words : List ℤ) :
    Decoded malloc comm (words.foldl (decodeWord malloc) d) := by
  induction words generalizing d with
  | nil => exact h
  | cons word rest ih => exact ih (h.word word)

theorem receiveClauses_decoded {litPerRound : ℤ} {malloc : ℕ → P} {payload : ℕ → ℤ}
    {comm : MpiComm P} {d : Decoding P}
    (h : receiveClauses litPerRound malloc payload comm = some d) : Decoded malloc comm d := by
  unfold receiveClauses handleReceivedClauses at h
  dsimp only at h
  split at h
  · obtain rfl := Option.some.inj h
    exact { (Decoded.start malloc _).words _ with }
  · simp at h

/-! ### References -/

section References

variable (comm : MpiComm P)

def MpiComm.held (comm : MpiComm P) : Multiset P :=
  comm.clausesToExport.held + ptrs comm.clausesToImport

theorem held_getClausesFromExternal :
    ptrs (getClausesFromExternal comm).1 + (getClausesFromExternal comm).2.held =
      comm.held := by
  rw [getClausesFromExternal_eq]
  simp [MpiComm.held, add_comm]

variable [DecidableEq P] (m : Multiset P)

/-- A clause for export is held by its sender meanwhile. -/
theorem addToExternal_moves (clauses : List (LearnedClause P))
    (h : ∀ c ∈ clauses, c.ptr ∈ m) :
    Moves (addToExternal comm clauses).2 (comm.held + m)
      ((addToExternal comm clauses).1.held + m) := by
  induction clauses generalizing comm with
  | nil => exact Moves.nil _
  | cons cls rest ih =>
    have hrest : ∀ c ∈ rest, c.ptr ∈ m := fun c hc => h c (List.mem_cons_of_mem _ hc)
    unfold addToExternal
    dsimp only
    split_ifs
    · have hinc : Moves [increaseClause cls.toClauseExchange] (comm.held + m)
          (ptrs [cls.toClauseExchange] + (comm.held + m)) := by
        refine @increase_clauses _ _ [cls.toClauseExchange] _ fun c hc => ?_
        rw [List.mem_singleton.mp hc]
        exact Multiset.mem_add.mpr (.inr (h cls List.mem_cons_self))
      have hadd := addClause_moves comm.clausesToExport cls (ptrs comm.clausesToImport + m)
      refine (hinc.append (hadd.of_eq ?_ ?_)).append (ih _ hrest)
      · simp only [MpiComm.held, ptrs_cons, ptrs_nil, Multiset.cons_add, zero_add, add_assoc]
      · simp only [MpiComm.held, add_assoc]
    · exact ih { comm with externalFilter := _ } hrest

theorem addClausesToExternal_moves (clauses : List (LearnedClause P))
    (h : ∀ c ∈ clauses, c.ptr ∈ m) :
    Moves (addClausesToExternal comm clauses).2 (comm.held + m)
      ((addClausesToExternal comm clauses).1.held + m) := by
  unfold addClausesToExternal
  split_ifs
  · exact Moves.nil _
  · exact addToExternal_moves comm m clauses h

theorem exportLearnedClauses_moves {litPerRound : ℤ} {comm : MpiComm P} {e : Export P}
    (h : exportLearnedClauses litPerRound comm = some e) :
    Moves e.calls (comm.held + m) (e.comm.held + m) := by
  obtain ⟨-, himport, hexport, hcalls⟩ := exportLearnedClauses_spec h
  have hsplit := held_afterSelection comm.clausesToExport (toUnsigned litPerRound)
  rw [hcalls]
  refine (release_clauses (upcast (exportSelection litPerRound comm)) _).of_eq ?_ rfl
  rw [MpiComm.held, MpiComm.held, himport, hexport, ← hsplit, add_assoc, add_assoc, add_assoc]
  rfl

theorem Decoded.moves {malloc : ℕ → P} {comm : MpiComm P} {d : Decoding P}
    (hd : Decoded malloc comm d) {heap : Heap P}
    (hrun : runCalls (counting (comm.held + m)) (d.queued.map allocClause) = some heap) :
    Moves (d.queued.map allocClause) (comm.held + m) (d.comm.held + m) := by
  have hallocs : d.queued.map allocClause =
      (d.queued.map ClauseExchange.ptr).map Call.alloc := by
    rw [List.map_map]
    rfl
  rw [hallocs] at hrun ⊢
  refine (Moves.of_allocs hrun).of_eq rfl ?_
  rw [MpiComm.held, MpiComm.held, hd.toImport, hd.toExport, ptrs_append]
  change ptrs d.queued + _ = _
  ac_rfl

end References

end Painless.ClauseCommunicator
