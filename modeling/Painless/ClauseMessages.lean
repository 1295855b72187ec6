import Painless.ClauseCommunicator
import Painless.GreedySelection

/-!
The CLAUSE message. The export buffer holds a length word and then the literals
of every clause with a separator after them, over whatever was in it before; a
receiver splits the words at the separators. The buffer has room for twice the
literals of a selection, which leaves one word too few for a selection of unit
clauses that uses up the whole budget, and none where that number is no `int`.
-/
namespace Painless.ClauseMessages

open RefCount SharedClauses SharedDatabase DuplicateFilter ClauseCommunicator
open MachineIntegers
open GreedySelection (giveFrom_maximal)

variable {P : Type*}

/-- The words after the length word. -/
def clauseWords (selected : List (LearnedClause P)) : List ℤ :=
  selected.flatMap fun c => c.lits ++ [0]

theorem length_clauseWords (selected : List (LearnedClause P)) :
    (clauseWords selected).length = litCount selected + selected.length := by
  induction selected with
  | nil => rfl
  | cons c rest ih =>
    simp only [clauseWords, litCount] at ih ⊢
    simp only [List.flatMap_cons, List.length_append, ih, List.map_cons, List.sum_cons,
      List.length_cons, List.length_nil, c.size_eq]
    omega

/-! ### Filling the buffer -/

theorem foldl_putClause (w : Filling) (selected : List (LearnedClause P)) :
    selected.foldl Filling.putClause w = (clauseWords selected).foldl Filling.put w := by
  induction selected generalizing w with
  | nil => rfl
  | cons c rest ih =>
    rw [List.foldl_cons, ih]
    simp only [clauseWords, List.flatMap_cons, List.foldl_append]
    rfl

@[simp] theorem put_idx (w : Filling) (word : ℤ) : (w.put word).idx = w.idx + 1 := rfl

@[simp] theorem put_written (w : Filling) (word : ℤ) :
    (w.put word).written = w.written ++ [w.idx] := rfl

theorem foldl_put_idx (w : Filling) (words : List ℤ) :
    (words.foldl Filling.put w).idx = w.idx + words.length := by
  induction words generalizing w with
  | nil => rfl
  | cons word rest ih =>
    rw [List.foldl_cons, ih, put_idx, List.length_cons]
    omega

theorem foldl_put_written (w : Filling) (words : List ℤ) (i : ℕ) :
    i ∈ (words.foldl Filling.put w).written ↔
      i ∈ w.written ∨ w.idx ≤ i ∧ i < w.idx + words.length := by
  induction words generalizing w with
  | nil =>
    refine ⟨Or.inl, ?_⟩
    rintro (h | ⟨hle, hlt⟩)
    · exact h
    · exact absurd hlt (Nat.not_lt.mpr hle)
  | cons word rest ih =>
    rw [List.foldl_cons, ih, put_written, put_idx, List.mem_append, or_assoc]
    refine or_congr_right ?_
    simp only [List.mem_singleton, List.length_cons]
    omega

theorem foldl_put_below (w : Filling) (words : List ℤ) {i : ℕ} (h : i < w.idx) :
    (words.foldl Filling.put w).exportBuf i = w.exportBuf i := by
  induction words generalizing w with
  | nil => rfl
  | cons word rest ih =>
    rw [List.foldl_cons, ih _ (Nat.lt_succ_of_lt h)]
    exact Function.update_of_ne (Nat.ne_of_lt h) _ _

theorem foldl_put_word (w : Filling) (words : List ℤ) {i : ℕ} (h : i < words.length) :
    (words.foldl Filling.put w).exportBuf (w.idx + i) = words[i] := by
  induction words generalizing w i with
  | nil => simp at h
  | cons word rest ih =>
    rw [List.foldl_cons]
    cases i with
    | zero =>
      rw [foldl_put_below _ _ (Nat.lt_succ_self _)]
      exact Function.update_self ..
    | succ i =>
      have hword := ih (w.put word) (Nat.lt_of_succ_lt_succ h)
      rw [List.getElem_cons_succ, ← hword]
      exact congrArg _ (by simp only [Filling.put]; omega)

section Filled

variable (exportBuf : ℕ → ℤ) (selected : List (LearnedClause P))

theorem fill_idx : (fillExportBuf exportBuf selected).idx = (clauseWords selected).length := by
  simp [fillExportBuf, Filling.close, foldl_putClause, foldl_put_idx]

theorem fill_written (i : ℕ) : i ∈ (fillExportBuf exportBuf selected).written ↔
    i ≤ (clauseWords selected).length := by
  simp only [fillExportBuf, Filling.close, foldl_putClause, List.mem_append,
    foldl_put_written, List.mem_singleton, List.not_mem_nil, false_or]
  omega

theorem fill_length : (fillExportBuf exportBuf selected).exportBuf 0 =
    (clauseWords selected).length := by
  simp [fillExportBuf, Filling.close, foldl_putClause, foldl_put_idx]

theorem fill_word {i : ℕ} (h : i < (clauseWords selected).length) :
    (fillExportBuf exportBuf selected).exportBuf (i + 1) = (clauseWords selected)[i] := by
  rw [fillExportBuf, foldl_putClause, Filling.close]
  dsimp only
  rw [Function.update_of_ne (Nat.add_one_ne_zero i), Nat.add_comm i 1]
  exact foldl_put_word ⟨1, exportBuf, []⟩ _ h

/-- What a receiver with any import buffer finds after the length word. -/
theorem bufferWords_received {litPerRound : ℤ} (importBuf : ℕ → ℤ)
    (hfit : ((clauseWords selected).length : ℤ) < clauseBufLimit litPerRound) :
    bufferWords (MPI_Recv litPerRound (fillExportBuf exportBuf selected).exportBuf importBuf) =
      clauseWords selected := by
  have hread (i : ℕ) (hi : i ≤ (clauseWords selected).length) :
      MPI_Recv litPerRound (fillExportBuf exportBuf selected).exportBuf importBuf i =
        (fillExportBuf exportBuf selected).exportBuf i :=
    if_pos (by omega)
  refine List.ext_getElem ?_ fun i hi hi' => ?_
  · simp [bufferWords, hread, fill_length]
  · simp only [bufferWords, List.getElem_map, List.getElem_range]
    rw [hread _ hi', fill_word _ _ hi']

end Filled

/-! ### Splitting the words -/

theorem decode_literals (malloc : ℕ → P) (d : Decoding P) {lits : List ℤ}
    (h : ∀ l ∈ lits, l ≠ 0) :
    lits.foldl (decodeWord malloc) d = { d with tmp := d.tmp ++ lits } := by
  induction lits generalizing d with
  | nil => simp
  | cons l rest ih =>
    have hl : l ≠ 0 := h l List.mem_cons_self
    rw [List.foldl_cons, ih _ fun l hl => h l (List.mem_cons_of_mem _ hl), decodeWord, if_pos hl]
    simp

theorem decode_separator (malloc : ℕ → P) (d : Decoding P) :
    (decodeWord malloc d 0).presented = d.presented ++ [d.tmp] ∧
      (decodeWord malloc d 0).tmp = [] := by
  simp only [decodeWord, ne_eq, not_true_eq_false, if_false]
  split_ifs <;> simp

theorem decode_clauses (malloc : ℕ → P) {d : Decoding P} (htmp : d.tmp = [])
    {selected : List (LearnedClause P)} (h : ∀ c ∈ selected, ∀ l ∈ c.lits, l ≠ 0) :
    ((clauseWords selected).foldl (decodeWord malloc) d).presented =
      d.presented ++ selected.map fun c => c.lits := by
  induction selected generalizing d with
  | nil => simp [clauseWords]
  | cons c rest ih =>
    have hlits := decode_literals malloc d (h c List.mem_cons_self)
    obtain ⟨hpresented, hempty⟩ :=
      decode_separator malloc { d with tmp := d.tmp ++ c.lits }
    have hrest := ih hempty fun c hc => h c (List.mem_cons_of_mem _ hc)
    simp only [clauseWords, List.flatMap_cons, List.foldl_append, hlits] at hrest ⊢
    rw [List.foldl_cons, List.foldl_nil, hrest, hpresented]
    simp [htmp]

/-- What the receiver makes of the clauses of a message. -/
structure SplitBack (receiver : MpiComm P) (selected : List (LearnedClause P))
    (d : Decoding P) : Prop where
  /-- the literals given to registerClause, call after call -/
  presented : d.presented = selected.map fun c => c.lits
  queued : d.queued.map ClauseExchange.lits =
    (sift id receiver.externalFilter (selected.map fun c => c.lits)).1
  appended : d.comm.clausesToImport = receiver.clausesToImport ++ d.queued
  fields : ∀ c ∈ d.queued, c.size = c.lits.length ∧ c.fromId = -1

theorem received_presented {litPerRound : ℤ} {malloc : ℕ → P} {exportBuf : ℕ → ℤ}
    {selected : List (LearnedClause P)} {receiver : MpiComm P} {d : Decoding P}
    (hlits : ∀ c ∈ selected, ∀ l ∈ c.lits, l ≠ 0)
    (hfit : ((clauseWords selected).length : ℤ) < clauseBufLimit litPerRound)
    (hd : receiveClauses litPerRound malloc (fillExportBuf exportBuf selected).exportBuf receiver =
      some d) : d.presented = selected.map fun c => c.lits := by
  unfold receiveClauses handleReceivedClauses at hd
  dsimp only at hd
  split at hd
  · rw [bufferWords_received _ _ _ hfit] at hd
    rw [← Option.some.inj hd, decode_clauses malloc rfl hlits, List.nil_append]
  · exact absurd hd (by simp)

/-- The buffer `exportLearnedClauses` writes and sends is split back into the
selected clauses; those the filter takes for new are queued, each with the one
reference of its allocation. -/
theorem clause_message_round_trip [DecidableEq P] (litPerRound : ℤ)
    (sender receiver : MpiComm P) (malloc : ℕ → P) (selected : List (LearnedClause P))
    (hlits : ∀ c ∈ selected, ∀ l ∈ c.lits, l ≠ 0)
    (hfit : ((litCount selected + selected.length : ℕ) : ℤ) < clauseBufLimit litPerRound) :
    ∃ e, exportSelected litPerRound sender selected = some e ∧
      (selected = [] → e.sent = []) ∧
      (∀ message ∈ e.sent, message.payload = e.comm.exportBuf) ∧
      (selected ≠ [] →
        ∃ d, receiveClauses litPerRound malloc e.comm.exportBuf receiver = some d ∧
          SplitBack receiver selected d ∧
          ∀ heap heap', runCalls heap (d.queued.map allocClause) = some heap' →
            ∀ c ∈ d.queued, heap'.nbRefs c.ptr = some 1) := by
  rw [← length_clauseWords] at hfit
  rcases eq_or_ne selected [] with rfl | hne
  · exact ⟨⟨sender, [], []⟩, rfl, fun _ => rfl, by simp, fun h => absurd rfl h⟩
  · have hidx : ((fillExportBuf sender.exportBuf selected).idx : ℤ) <
        clauseBufLimit litPerRound := by rwa [fill_idx]
    refine ⟨_, (if_neg hne).trans (if_pos hidx), fun h => absurd h hne, ?_, fun _ => ?_⟩
    · intro message hm
      obtain ⟨target, -, rfl⟩ := List.mem_map.mp hm
      rfl
    · have hlength : MPI_Recv litPerRound (fillExportBuf sender.exportBuf selected).exportBuf
          receiver.importBuf 0 < clauseBufLimit litPerRound := by
        unfold MPI_Recv
        rw [if_pos (by omega), fill_length]
        exact hfit
      obtain ⟨d, hd⟩ : ∃ d, receiveClauses litPerRound malloc
          (fillExportBuf sender.exportBuf selected).exportBuf receiver = some d :=
        ⟨_, if_pos hlength⟩
      have hdecoded := receiveClauses_decoded hd
      have hpresented := received_presented hlits hfit hd
      refine ⟨d, hd, ⟨hpresented, ?_, hdecoded.toImport, ?_⟩, ?_⟩
      · rw [← hpresented]
        exact hdecoded.queued_lits
      · exact fun c hc => ⟨c.size_eq, hdecoded.queued_from c hc⟩
      · intro heap heap' hrun c hc
        have hallocs : d.queued.map allocClause =
            (d.queued.map ClauseExchange.ptr).map Call.alloc := by
          rw [List.map_map]
          rfl
        rw [hallocs] at hrun
        exact (nbRefs_of_allocs hrun).1 _ (List.mem_map_of_mem hc)

/-- A clause with the given literals, learned by solver 0. -/
def learned (ptr : ℕ) (lits : List ℤ) (h : 0 < lits.length) : LearnedClause ℕ where
  ptr := ptr
  lbd := some 2
  fromId := 0
  size := lits.length
  lits := lits
  size_eq := rfl
  size_pos := h

theorem clause_message_two_clauses :
    ∃ e d, exportSelected 3 (MpiComm.fresh (fun _ => 0) fun _ => 9)
        [learned 0 [5] (by decide), learned 1 [1, -2] (by decide)] = some e ∧
      receiveClauses 3 id e.comm.exportBuf (MpiComm.fresh (fun _ => 4) fun _ => 0) = some d ∧
      d.presented = [[5], [1, -2]] := by
  obtain ⟨e, he, -, -, hback⟩ := clause_message_round_trip 3
    (MpiComm.fresh (fun _ => 0) fun _ => 9) (MpiComm.fresh (fun _ => 4) fun _ => 0) id
    [learned 0 [5] (by decide), learned 1 [1, -2] (by decide)] (by decide) (by decide +kernel)
  obtain ⟨d, hd, hsplit, -⟩ := hback (by simp)
  exact ⟨e, d, he, hd, hsplit.presented⟩

/-! ### The size of the buffer -/

/-- The unit clauses of a database. -/
def unitClauses (db : ClauseDatabase P) : List (LearnedClause P) := db.clauses.headD []

/-- An export writes inside the buffer only, and its assertion holds. -/
def ExportInBounds (litPerRound : ℤ) (comm : MpiComm P) : Prop :=
  exportSelection litPerRound comm ≠ [] →
    let w := fillExportBuf comm.exportBuf (exportSelection litPerRound comm)
    (∀ i ∈ w.written, (i : ℤ) < clauseBufLimit litPerRound) ∧
      (w.idx : ℤ) < clauseBufLimit litPerRound

theorem unitClauses_lt (db : ClauseDatabase P) : (unitClauses db).length < 1000 := by
  obtain ⟨clauses, hwf⟩ := db
  cases clauses with
  | nil => simp [unitClauses]
  | cons bucket rest =>
    have hcap := (hwf 0 bucket rfl).capped
    simpa [unitClauses] using hcap

theorem unitClauses_of_empty {db : ClauseDatabase P} (h : db.contents = 0) :
    unitClauses db = [] := by
  have hflat : db.clauses.flatten = [] := (Multiset.coe_eq_zero _).mp h
  cases hc : db.clauses with
  | nil => rw [unitClauses, hc, List.headD_nil]
  | cons bucket rest =>
    rw [unitClauses, hc, List.headD_cons]
    exact List.flatten_eq_nil_iff.mp hflat bucket (by rw [hc]; exact List.mem_cons_self)

/-- Literals and separators fill twice the budget just where the budget can be
spent on unit clauses alone: every other clause saves half a word a literal. -/
theorem selection_words_lt_iff (clauses : Buckets P) {totalSize : ℕ} (hpos : 0 < totalSize) :
    (giveFrom totalSize 0 0 clauses).used + (giveFrom totalSize 0 0 clauses).selectCount <
      2 * totalSize ↔ (clauses.headD []).length < totalSize := by
  cases clauses with
  | nil => simp [giveFrom, hpos]
  | cons bucket rest =>
    have hroom : ¬ totalSize - 0 < 0 + 1 := by omega
    rw [giveFrom, if_neg hroom]
    simp only [List.headD_cons, Nat.zero_add, Nat.one_mul, Nat.sub_zero, Nat.div_one]
    split_ifs with hall
    · obtain ⟨hle, hcount⟩ := giveFrom_used hall 1 rest
      dsimp only
      omega
    · obtain ⟨-, hcount⟩ := giveFrom_used (le_refl totalSize) 1 rest
      dsimp only
      omega

theorem exportSelection_words (litPerRound : ℤ) (comm : MpiComm P) :
    (clauseWords (exportSelection litPerRound comm)).length =
      (giveFrom (toUnsigned litPerRound) 0 0 comm.clausesToExport.clauses).used +
        (giveFrom (toUnsigned litPerRound) 0 0 comm.clausesToExport.clauses).selectCount := by
  rw [giveFrom_litCount comm.clausesToExport.wellFormed, giveFrom_selectCount, Nat.zero_add]
  exact length_clauseWords _

theorem clauseBufLimit_eq {litPerRound : ℤ} (hpos : 1 ≤ litPerRound)
    (hsmall : litPerRound < 2 ^ 30) : clauseBufLimit litPerRound = litPerRound * 2 := by
  unfold clauseBufLimit
  exact intOf_eq (by omega) (by omega)

/-- From 2^30 on twice the budget is no `int` any more, and the product wraps. -/
theorem clauseBufLimit_neg {litPerRound : ℤ} (hlarge : 2 ^ 30 ≤ litPerRound)
    (hint : litPerRound < 2 ^ 31) : clauseBufLimit litPerRound < 0 := by
  unfold clauseBufLimit intOf
  rw [Int.bmod_def]
  split_ifs <;> omega

theorem toUnsigned_of_pos {litPerRound : ℤ} (hpos : 1 ≤ litPerRound) :
    ((toUnsigned litPerRound : ℕ) : ℤ) = litPerRound := by
  unfold toUnsigned
  split_ifs <;> omega

theorem exportSelection_fits_iff {litPerRound : ℤ} (hpos : 1 ≤ litPerRound)
    (hsmall : litPerRound < 2 ^ 30) (comm : MpiComm P) :
    ((clauseWords (exportSelection litPerRound comm)).length : ℤ) <
      clauseBufLimit litPerRound ↔
        ((unitClauses comm.clausesToExport).length : ℤ) < litPerRound := by
  have hsize := toUnsigned_of_pos hpos
  have hunsigned : 0 < toUnsigned litPerRound := by omega
  have hwords := selection_words_lt_iff comm.clausesToExport.clauses hunsigned
  rw [← exportSelection_words] at hwords
  rw [clauseBufLimit_eq hpos hsmall]
  unfold unitClauses
  omega

/-- The cap of the buckets leaves no clause of 1000 literals or more in. -/
theorem size_lt {db : ClauseDatabase P} {c : LearnedClause P} (hc : c ∈ db.contents) :
    c.size < 1000 := by
  obtain ⟨bucket, hbucket, hmem⟩ := List.mem_flatten.mp (Multiset.mem_coe.mp hc)
  obtain ⟨k, hk⟩ := List.mem_iff_getElem?.mp hbucket
  have hok := db.wellFormed k bucket hk
  have hpos : 1 ≤ bucket.length := List.length_pos_of_mem hmem
  have hcap : 1 * (0 + k + 1) ≤ bucket.length * (0 + k + 1) := Nat.mul_le_mul_right _ hpos
  have hsize := hok.sized c hmem
  have hlt := hok.capped
  omega

/-- A budget above the cap is not left unused by a database that holds a clause. -/
theorem selection_eq_nil_iff {totalSize : ℕ} (hlarge : 1000 ≤ totalSize)
    (db : ClauseDatabase P) :
    (db.giveSelection totalSize).selectedCls = [] ↔ db.contents = 0 := by
  have hsplit := contents_afterSelection db totalSize
  constructor
  · intro hnil
    rw [hnil, Multiset.coe_nil, zero_add] at hsplit
    have hlits : (db.giveSelection totalSize).used =
        0 + litCount (db.giveSelection totalSize).selectedCls :=
      giveFrom_litCount db.wellFormed 0
    have hused : (db.giveSelection totalSize).used = 0 := by
      rw [hlits, hnil]
      rfl
    refine Multiset.eq_zero_of_forall_notMem fun c hc => ?_
    have hsize := size_lt hc
    rw [← hsplit] at hc
    have hleft : totalSize - (db.giveSelection totalSize).used < c.size :=
      giveFrom_maximal totalSize db.wellFormed 0 c hc
    omega
  · intro hzero
    rw [hzero] at hsplit
    have hle : (↑(db.giveSelection totalSize).selectedCls : Multiset (LearnedClause P)) ≤ 0 :=
      hsplit ▸ Multiset.le_add_right _ _
    exact (Multiset.coe_eq_zero _).mp (Multiset.le_zero.mp hle)

theorem inBounds_of_fits {litPerRound : ℤ} {comm : MpiComm P}
    (h : ((clauseWords (exportSelection litPerRound comm)).length : ℤ) <
      clauseBufLimit litPerRound) : ExportInBounds litPerRound comm := by
  unfold ExportInBounds
  simp only [fill_written, fill_idx]
  exact fun _ => ⟨fun i hi => by omega, h⟩

/-- From a budget of 1000 literals on, the cap of the database keeps the unit
clauses below it. -/
theorem inBounds_of_large {litPerRound : ℤ} (hlarge : 1000 ≤ litPerRound)
    (hsmall : litPerRound < 2 ^ 30) (comm : MpiComm P) : ExportInBounds litPerRound comm := by
  have hcap := unitClauses_lt comm.clausesToExport
  exact inBounds_of_fits ((exportSelection_fits_iff (by omega) hsmall comm).mpr (by omega))

/-- Where twice the budget wraps, there is no room for any clause. -/
theorem inBounds_wrapped_iff {litPerRound : ℤ} (hlarge : 2 ^ 30 ≤ litPerRound)
    (hint : litPerRound < 2 ^ 31) (comm : MpiComm P) :
    ExportInBounds litPerRound comm ↔ comm.clausesToExport.contents = 0 := by
  have hlimit := clauseBufLimit_neg hlarge hint
  have hpos : 1 ≤ litPerRound := by omega
  have hunsigned := toUnsigned_of_pos hpos
  have hnil : exportSelection litPerRound comm = [] ↔ comm.clausesToExport.contents = 0 :=
    selection_eq_nil_iff (by omega) comm.clausesToExport
  rw [← hnil]
  refine ⟨fun h => ?_, fun h hne => absurd h hne⟩
  by_contra hne
  have hidx := (h hne).2
  omega

theorem inBounds_small_iff {litPerRound : ℤ} (hpos : 1 ≤ litPerRound)
    (hsmall : litPerRound < 2 ^ 30) (comm : MpiComm P) :
    ExportInBounds litPerRound comm ↔
      ((unitClauses comm.clausesToExport).length : ℤ) < litPerRound := by
  rw [← exportSelection_fits_iff hpos hsmall comm]
  refine ⟨fun h => ?_, inBounds_of_fits⟩
  rcases eq_or_ne (exportSelection litPerRound comm) [] with hnil | hne
  · rw [hnil, clauseBufLimit_eq hpos hsmall]
    simp only [clauseWords, List.flatMap_nil, List.length_nil]
    omega
  · have hidx := (h hne).2
    rwa [fill_idx] at hidx

/-- The buffer is large enough exactly where there is nothing to export, or
where its length is an `int` and the database holds fewer unit clauses than the
budget has literals. -/
theorem export_in_bounds_iff (litPerRound : ℤ) (hpos : 1 ≤ litPerRound)
    (hint : litPerRound < 2 ^ 31) (comm : MpiComm P) :
    ExportInBounds litPerRound comm ↔
      comm.clausesToExport.contents = 0 ∨
        litPerRound < 2 ^ 30 ∧
          ((unitClauses comm.clausesToExport).length : ℤ) < litPerRound := by
  rcases lt_or_ge litPerRound (2 ^ 30) with hsmall | hlarge
  · rw [inBounds_small_iff hpos hsmall, and_iff_right hsmall]
    refine ⟨Or.inr, fun h => h.elim (fun hzero => ?_) id⟩
    rw [unitClauses_of_empty hzero]
    exact hpos
  · rw [inBounds_wrapped_iff hlarge hint]
    exact ⟨Or.inl, fun h => h.resolve_right fun h' => absurd h'.1 (by omega)⟩

theorem export_in_bounds_two : ExportInBounds 2
    { (MpiComm.fresh (fun _ => 0) fun _ => 0 : MpiComm ℕ) with
      clausesToExport := (ClauseDatabase.empty.addClause (learned 0 [5] (by decide))).1 } :=
  (export_in_bounds_iff 2 (by decide) (by decide) _).mpr (Or.inr (by decide))

/-- A budget of one literal and one unit clause: index 2 of a buffer of length 2. -/
theorem export_overflows : ¬ ExportInBounds 1
    { (MpiComm.fresh (fun _ => 0) fun _ => 0 : MpiComm ℕ) with
      clausesToExport := (ClauseDatabase.empty.addClause (learned 0 [5] (by decide))).1 } := by
  intro h
  exact absurd (h (by decide)).2 (by decide +kernel)

end Painless.ClauseMessages
