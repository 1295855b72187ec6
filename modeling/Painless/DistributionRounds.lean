import Painless.SharingStrategies

/-!
DistributionSharing, the strategy of the distributed portfolio. There is one
filter for each solver and one for the rank. A round puts what the solvers have
learned through the filters into a database, gives a selection of it to the
communicator, and hands the selection together with the clauses imported from
the other ranks to the solvers whose filters take them for new.
-/
namespace Painless.DistributionRounds

open RefCount SharedClauses SharedDatabase DuplicateFilter ClauseCommunicator
open SharingStrategies

variable {S P : Type*}

/-- The filters are a vector of `nFilters`, read below that only. -/
structure DistributionSharing (P : Type*) where
  database : ClauseDatabase P
  solverFilters : ℕ → ClauseFilter
  nFilters : ℕ
  localFilter : ClauseFilter

def DistributionSharing.fresh : DistributionSharing P where
  database := ClauseDatabase.empty
  solverFilters := fun _ => ClauseFilter.empty
  nFilters := 0
  localFilter := ClauseFilter.empty

/-- The clauses learned by solver `i`, through its filter and, where that takes
the clause for new, the local filter. -/
def collectClauses (i : ℕ) :
    DistributionSharing P → List (LearnedClause P) → DistributionSharing P × List (Call P)
  | d, [] => (d, [])
  | d, cls :: rest =>
    let own := (d.solverFilters i).registerClause cls.lits
    let d := { d with solverFilters := Function.update d.solverFilters i own.2 }
    if own.1 then
      let all := d.localFilter.registerClause cls.lits
      let d := { d with localFilter := all.2 }
      if all.1 then
        let added := d.database.addClause cls
        let more := collectClauses i { d with database := added.1 } rest
        (more.1, added.2 ++ more.2)
      else
        let more := collectClauses i d rest
        (more.1, releaseClause cls.toClauseExchange :: more.2)
    else
      let more := collectClauses i d rest
      (more.1, releaseClause cls.toClauseExchange :: more.2)

/-- The loop over `from`. -/
def collectLoop [DecidableEq S] : ℕ → List S → DistributionSharing P → (S → SolverQueues P) →
    DistributionSharing P × Outcome S P
  | _, [], d, queues => (d, ⟨queues, [], []⟩)
  | i, producer :: rest, d, queues =>
    let got := (queues producer).getLearnedClauses
    let kept := collectClauses i d got.1
    let more := collectLoop (i + 1) rest kept.1 (Function.update queues producer got.2)
    (more.1, ⟨more.2.queues, kept.2 ++ more.2.calls, .collected i got.1 :: more.2.log⟩)

/-- The clauses of `tmp` for solver `i`, and its filter afterwards. The id in the
clause is compared with the place of the solver. -/
def clausesToAdd (i : ℕ) : ClauseFilter → List (ClauseExchange P) →
    List (ClauseExchange P) × ClauseFilter
  | f, [] => ([], f)
  | f, cls :: rest =>
    if cls.fromId ≠ i then
      let answer := f.registerClause cls.lits
      let more := clausesToAdd i answer.2 rest
      (if answer.1 then cls :: more.1 else more.1, more.2)
    else
      clausesToAdd i f rest

/-- The loop over `to`. -/
def deliverLoop [DecidableEq S] (tmp : List (ClauseExchange P)) : ℕ → List S →
    DistributionSharing P → (S → SolverQueues P) → DistributionSharing P × Outcome S P
  | _, [], d, queues => (d, ⟨queues, [], []⟩)
  | i, consumer :: rest, d, queues =>
    let chosen := clausesToAdd i (d.solverFilters i) tmp
    let more := deliverLoop tmp (i + 1) rest
      { d with solverFilters := Function.update d.solverFilters i chosen.2 }
      (Function.update queues consumer ((queues consumer).addLearnedClauses chosen.1))
    (more.1, ⟨more.2.queues, chosen.1.map increaseClause ++ more.2.calls,
      .handed i chosen.1 :: more.2.log⟩)

/-- call_once: only the first round of the process makes filters. -/
def makeFilters (filterFlag : Bool) (nSolvers : ℕ) (d : DistributionSharing P) :
    DistributionSharing P :=
  if filterFlag then d else { d with nFilters := d.nFilters + nSolvers }

structure DistributionOutcome (S P : Type*) extends Outcome S P where
  sharing : DistributionSharing P
  comm : MpiComm P

/-- `none` where one of the two assertions fails. -/
def distributionSharing [DecidableEq S] (literalPerRound : ℤ) (filterFlag : Bool)
    (producers consumers : List S) (d : DistributionSharing P) (comm : MpiComm P)
    (queues : S → SolverQueues P) : Option (DistributionOutcome S P) :=
  let d := makeFilters filterFlag consumers.length d
  if producers.length = consumers.length ∧ d.nFilters = consumers.length then
    let collected := collectLoop 0 producers d queues
    let budget := toUnsigned literalPerRound
    let selection := (collected.1.database.giveSelection budget).selectedCls
    let d := { collected.1 with database := collected.1.database.afterSelection budget }
    let exported := addClausesToExternal comm selection
    let imported := getClausesFromExternal exported.1
    let tmp := upcast selection ++ imported.1
    let delivered := deliverLoop tmp 0 consumers d collected.2.queues
    some
      { queues := delivered.2.queues
        calls := collected.2.calls ++ exported.2 ++ delivered.2.calls ++ tmp.map releaseClause
        log := collected.2.log ++ .selected 0 selection :: delivered.2.log
        sharing := delivered.1
        comm := imported.2 }
  else none

theorem clausesToAdd_subset (i : ℕ) (f : ClauseFilter) (tmp : List (ClauseExchange P)) :
    (clausesToAdd i f tmp).1 ⊆ tmp := by
  induction tmp generalizing f with
  | nil => exact List.Subset.refl _
  | cons cls rest ih =>
    unfold clausesToAdd
    dsimp only
    split_ifs
    · exact List.cons_subset_cons cls (ih _)
    · exact List.subset_cons_of_subset cls (ih _)
    · exact List.subset_cons_of_subset cls (ih _)

theorem deliverLoop_database [DecidableEq S] (tmp : List (ClauseExchange P)) (i : ℕ)
    (consumers : List S) (d : DistributionSharing P) (queues : S → SolverQueues P) :
    (deliverLoop tmp i consumers d queues).1.database = d.database := by
  induction consumers generalizing i d queues with
  | nil => rfl
  | cons consumer rest ih => exact ih _ _ _

theorem collectClauses_nFilters (i : ℕ) (d : DistributionSharing P)
    (clauses : List (LearnedClause P)) :
    (collectClauses i d clauses).1.nFilters = d.nFilters := by
  induction clauses generalizing d with
  | nil => rfl
  | cons cls rest ih =>
    unfold collectClauses
    dsimp only
    split_ifs <;> rw [ih]

theorem collectLoop_nFilters [DecidableEq S] (i : ℕ) (producers : List S)
    (d : DistributionSharing P) (queues : S → SolverQueues P) :
    (collectLoop i producers d queues).1.nFilters = d.nFilters := by
  induction producers generalizing i d queues with
  | nil => rfl
  | cons producer rest ih =>
    unfold collectLoop
    dsimp only
    rw [ih, collectClauses_nFilters]

theorem deliverLoop_nFilters [DecidableEq S] (tmp : List (ClauseExchange P)) (i : ℕ)
    (consumers : List S) (d : DistributionSharing P) (queues : S → SolverQueues P) :
    (deliverLoop tmp i consumers d queues).1.nFilters = d.nFilters := by
  induction consumers generalizing i d queues with
  | nil => rfl
  | cons consumer rest ih => exact ih _ _ _

/-- A round leaves the filters that it found or made, if the assertions hold. -/
theorem distributionSharing_nFilters [DecidableEq S] {literalPerRound : ℤ} {filterFlag : Bool}
    {producers consumers : List S} {d : DistributionSharing P} {comm : MpiComm P}
    {queues : S → SolverQueues P} {out : DistributionOutcome S P}
    (h : distributionSharing literalPerRound filterFlag producers consumers d comm queues =
      some out) :
    out.sharing.nFilters = (makeFilters filterFlag consumers.length d).nFilters := by
  unfold distributionSharing at h
  dsimp only at h
  split_ifs at h
  obtain rfl := Option.some.inj h
  rw [deliverLoop_nFilters]
  exact collectLoop_nFilters ..

/-- The two assertions of doSharing. -/
theorem distributionSharing_isSome_iff [DecidableEq S] (literalPerRound : ℤ) (filterFlag : Bool)
    (producers consumers : List S) (d : DistributionSharing P) (comm : MpiComm P)
    (queues : S → SolverQueues P) :
    (distributionSharing literalPerRound filterFlag producers consumers d comm queues).isSome =
        true ↔
      producers.length = consumers.length ∧
        (makeFilters filterFlag consumers.length d).nFilters = consumers.length := by
  unfold distributionSharing
  dsimp only
  split_ifs with h
  · exact ⟨fun _ => h, fun _ => rfl⟩
  · exact ⟨fun hsome => by simp at hsome, fun h' => absurd h' h⟩

theorem makeFilters_database (filterFlag : Bool) (nSolvers : ℕ) (d : DistributionSharing P) :
    (makeFilters filterFlag nSolvers d).database = d.database := by
  unfold makeFilters
  split_ifs <;> rfl

/-! ### References -/

section References

variable [DecidableEq S] [Fintype S] [DecidableEq P] (m : Multiset P)

theorem collectClauses_moves (i : ℕ) (d : DistributionSharing P)
    (clauses : List (LearnedClause P)) :
    Moves (collectClauses i d clauses).2 (ptrs (upcast clauses) + d.database.held + m)
      ((collectClauses i d clauses).1.database.held + m) := by
  induction clauses generalizing d with
  | nil => exact (Moves.nil _).of_eq (by simp [collectClauses]) rfl
  | cons cls rest ih =>
    have hrelease (d' : DistributionSharing P) (hd' : d'.database = d.database) :
        Moves (releaseClause cls.toClauseExchange :: (collectClauses i d' rest).2)
          (ptrs (upcast (cls :: rest)) + d.database.held + m)
          ((collectClauses i d' rest).1.database.held + m) := by
      have hhead := Moves.release cls.ptr (ptrs (upcast rest) + d.database.held + m)
      refine (hhead.of_eq ?_ ?_).append (ih d')
      · simp only [upcast_cons, ptrs_cons, Multiset.cons_add]
      · rw [hd']
    unfold collectClauses
    dsimp only
    split_ifs
    · have hadd := addClause_moves d.database cls (ptrs (upcast rest) + m)
      refine (hadd.of_eq ?_ ?_).append (ih _)
      · simp only [upcast_cons, ptrs_cons, Multiset.cons_add]
        ac_rfl
      · dsimp only
        ac_rfl
    · exact hrelease _ rfl
    · exact hrelease _ rfl

theorem collectLoop_moves (i : ℕ) (producers : List S) (d : DistributionSharing P)
    (queues : S → SolverQueues P) :
    Moves (collectLoop i producers d queues).2.calls (heldBy queues + d.database.held + m)
      (heldBy (collectLoop i producers d queues).2.queues +
        (collectLoop i producers d queues).1.database.held + m) := by
  induction producers generalizing i d queues with
  | nil => exact Moves.nil _
  | cons producer rest ih =>
    unfold collectLoop
    dsimp only
    generalize hgot : (queues producer).getLearnedClauses = got
    have htake := heldBy_take (hgot ▸ (queues producer).held_getLearnedClauses)
    have hkept := collectClauses_moves
      (heldBy (Function.update queues producer got.2) + m) i d got.1
    refine (hkept.of_eq ?_ ?_).append (ih _ _ _)
    · rw [htake]
      ac_rfl
    · ac_rfl

theorem deliverLoop_moves (tmp : List (ClauseExchange P)) (i : ℕ) (consumers : List S)
    (d : DistributionSharing P) (queues : S → SolverQueues P)
    (htmp : ∀ c ∈ tmp, c.ptr ∈ m) :
    Moves (deliverLoop tmp i consumers d queues).2.calls (heldBy queues + m)
      (heldBy (deliverLoop tmp i consumers d queues).2.queues + m) := by
  induction consumers generalizing i d queues with
  | nil => exact Moves.nil _
  | cons consumer rest ih =>
    unfold deliverLoop
    dsimp only
    generalize hchosen : clausesToAdd i (d.solverFilters i) tmp = chosen
    have hsub : chosen.1 ⊆ tmp := hchosen ▸ clausesToAdd_subset i (d.solverFilters i) tmp
    have hinc : Moves (chosen.1.map increaseClause) (heldBy queues + m)
        (ptrs chosen.1 + (heldBy queues + m)) :=
      increase_clauses fun c hc => Multiset.mem_add.mpr (.inr (htmp c (hsub hc)))
    refine (hinc.of_eq rfl ?_).append (ih _ _ _)
    rw [heldBy_add, add_assoc]

theorem distributionSharing_moves {literalPerRound : ℤ} {filterFlag : Bool}
    {producers consumers : List S} {d : DistributionSharing P} {comm : MpiComm P}
    {queues : S → SolverQueues P} {r : DistributionOutcome S P}
    (h : distributionSharing literalPerRound filterFlag producers consumers d comm queues =
      some r) :
    Moves r.calls (heldBy queues + d.database.held + comm.held + m)
      (heldBy r.queues + r.sharing.database.held + r.comm.held + m) := by
  unfold distributionSharing at h
  dsimp only at h
  split_ifs at h
  obtain rfl := Option.some.inj h
  generalize hd₀ : makeFilters filterFlag consumers.length d = d₀
  have hdatabase : d₀.database = d.database := hd₀ ▸ makeFilters_database _ _ d
  generalize hcollected : collectLoop 0 producers d₀ queues = collected
  generalize hselection :
    (collected.1.database.giveSelection (toUnsigned literalPerRound)).selectedCls = selection
  generalize hafter :
    collected.1.database.afterSelection (toUnsigned literalPerRound) = after
  generalize hexported : addClausesToExternal comm selection = exported
  generalize himported : getClausesFromExternal exported.1 = imported
  generalize htmp : upcast selection ++ imported.1 = tmp
  have hcollect := collectLoop_moves (comm.held + m) 0 producers d₀ queues
  have hsplit := held_afterSelection collected.1.database (toUnsigned literalPerRound)
  have hexport := addClausesToExternal_moves comm
    (heldBy collected.2.queues + ptrs (upcast selection) + after.held + m) selection
    fun c hc => by
      have hmem : c.ptr ∈ ptrs (upcast selection) := mem_ptrs (List.mem_map_of_mem hc)
      simp [hmem]
  have himport := held_getClausesFromExternal exported.1
  have hdeliver := deliverLoop_moves (ptrs tmp + after.held + imported.2.held + m) tmp 0
    consumers { collected.1 with database := after } collected.2.queues
    fun c hc => by simp [mem_ptrs hc]
  have hkeep := deliverLoop_database tmp 0 consumers { collected.1 with database := after }
    collected.2.queues
  rw [hselection, hafter] at hsplit
  rw [hcollected, hdatabase, ← hsplit] at hcollect
  rw [hexported, ← himport, himported] at hexport
  generalize deliverLoop tmp 0 consumers { collected.1 with database := after }
    collected.2.queues = delivered at hdeliver hkeep ⊢
  have hrelease := release_clauses tmp
    (heldBy delivered.2.queues + after.held + imported.2.held + m)
  dsimp only
  rw [hkeep]
  refine (((hcollect.of_eq ?_ ?_).append (hexport.of_eq rfl ?_)).append hdeliver).append
    (hrelease.of_eq ?_ rfl)
  · ac_rfl
  · ac_rfl
  · rw [← htmp, ptrs_append]
    ac_rfl
  · ac_rfl

end References

end Painless.DistributionRounds
