import Mathlib.Data.Fintype.Basic
import Painless.SharingSystem

/-!
Reference counting over the whole sharing pipeline. Every operation moves the
heap that counts the container entries before it to the one that counts them
after it, so no operation uses, frees or keeps a clause wrongly.
-/
namespace Painless.ReferenceCounts

open RefCount SharedClauses SharedDatabase ClauseCommunicator SharingStrategies
open DistributionRounds SharingSystem Transitions

variable {S I P : Type*} [Fintype S] [Fintype I]

/-- The entries of the solver queues, of the databases of the sharers, and of
clausesToExport and clausesToImport. -/
def entries (store : Store S I P) : Multiset P :=
  heldBy store.queues + ∑ i, (store.strategy i).held + store.comm.held

variable [DecidableEq S] [DecidableEq I] [DecidableEq P]

theorem doSharing_moves {setup : Setup S I} {i : I} {store : Store S I P}
    {r : Store S I P × List (Call P)} (h : doSharing setup i store = some r) :
    Moves r.2 (entries store) (entries r.1) := by
  obtain ⟨rest, hold, hnew⟩ := sum_split Strategy.held store.strategy i
  unfold doSharing at h
  cases hstrategy : store.strategy i with
  | simple =>
    simp only [hstrategy] at h hold
    obtain rfl := Option.some.inj h
    have hround := simpleSharing_moves setup.id (rest + store.comm.held) (setup.consumers i) 0
      (setup.producers i) store.queues
    refine hround.of_eq ?_ ?_
    · rw [entries, hold, Strategy.held, zero_add, add_assoc]
    · simp only [entries, Store.finish, hnew]
      rw [Strategy.held, zero_add, add_assoc]
  | hordeSat database =>
    simp only [hstrategy] at h hold
    obtain ⟨out, hout, rfl⟩ := Option.map_eq_some_iff.mp h
    unfold hordeSatSharing at hout
    split_ifs at hout
    obtain rfl := Option.some.inj hout
    have hround := hordeSatLoop_moves setup.id (rest + store.comm.held) setup.shrLit
      (setup.consumers i) 0 (setup.producers i) database store.queues
    refine hround.of_eq ?_ ?_
    · rw [entries, hold, Strategy.held]
      ac_rfl
    · simp only [entries, Store.finish, hnew]
      rw [Strategy.held]
      ac_rfl
  | distribution sharing =>
    simp only [hstrategy] at h hold
    obtain ⟨out, hout, rfl⟩ := Option.map_eq_some_iff.mp h
    have hround := distributionSharing_moves rest hout
    refine hround.of_eq ?_ ?_
    · rw [entries, hold, Strategy.held]
      ac_rfl
    · simp only [entries, Store.finish, hnew]
      rw [Strategy.held]
      ac_rfl

omit [DecidableEq I] [DecidableEq P] in
theorem entries_give {store : Store S I P} {s : S} {q : SolverQueues P} {given : Multiset P}
    (h : q.held = given + (store.queues s).held) :
    entries (store.withQueues s q) = given + entries store := by
  simp only [entries, Store.withQueues, heldBy_give h, add_assoc]

omit [DecidableEq I] [DecidableEq P] in
theorem entries_take {store : Store S I P} {s : S} {q : SolverQueues P} {taken : Multiset P}
    (h : taken + q.held = (store.queues s).held) :
    entries store = taken + entries (store.withQueues s q) := by
  simp only [entries, Store.withQueues, heldBy_take h, add_assoc]

omit [DecidableEq I] in
/-- A solver releases the clauses that it takes from its queues. -/
theorem release_taken {store : Store S I P} {s : S} {q : SolverQueues P}
    (taken : List (ClauseExchange P)) (h : ptrs taken + q.held = (store.queues s).held) :
    Moves (taken.map releaseClause) (entries store) (entries (store.withQueues s q)) :=
  (release_clauses taken _).of_eq (entries_take h) rfl

theorem effect_moves {setup : Setup S I} {a : Action S I P} {store : Store S I P}
    {r : Store S I P × List (Call P)} {heap : Heap P}
    (h : effect setup store a = some r)
    (hrun : runCalls (counting (entries store)) r.2 = some heap) :
    Moves r.2 (entries store) (entries r.1) := by
  cases a with
  | exportClause s clause =>
    obtain rfl := Option.some.inj h
    have halloc := @Moves.of_allocs _ _ [clause.ptr] _ _ hrun
    refine halloc.of_eq rfl (Eq.symm (entries_give ?_))
    simp only [SolverQueues.held, upcast_append, ptrs_append]
    change _ + {clause.ptr} + _ + _ = {clause.ptr} + _
    ac_rfl
  | doSharing i => exact doSharing_moves h
  | exportLearnedClauses =>
    obtain ⟨e, he, rfl⟩ := Option.map_eq_some_iff.mp h
    have hmoves := exportLearnedClauses_moves
      (heldBy store.queues + ∑ i, (store.strategy i).held) he
    exact hmoves.of_eq (add_comm _ _) (add_comm _ _)
  | receiveClauses malloc payload =>
    obtain ⟨d, hd, rfl⟩ := Option.map_eq_some_iff.mp h
    rw [entries, add_comm] at hrun
    have hmoves := (receiveClauses_decoded hd).moves _ hrun
    exact hmoves.of_eq (add_comm _ _) (add_comm _ _)
  | importUnit s =>
    simp only [effect, importUnit] at h
    split at h
    · obtain rfl := Option.some.inj h
      exact Moves.nil _
    · rename_i cls rest hqueue
      obtain rfl := Option.some.inj h
      refine release_taken [cls] ?_
      simp only [SolverQueues.held, hqueue]
      change ptrs [cls] + (_ + ptrs rest + _) = _ + (ptrs [cls] + ptrs rest) + _
      ac_rfl
  | importUnits s =>
    obtain rfl := Option.some.inj h
    simp only [getClauses_eq]
    refine release_taken (store.queues s).unitsToImport ?_
    simp only [SolverQueues.held, ptrs_nil, add_zero]
    ac_rfl
  | importClause s =>
    simp only [effect, importClause] at h
    split at h
    · obtain rfl := Option.some.inj h
      exact Moves.nil _
    · rename_i cls rest hqueue
      obtain rfl := Option.some.inj h
      refine release_taken [cls] ?_
      simp only [SolverQueues.held, hqueue]
      change ptrs [cls] + (_ + ptrs rest) = _ + (ptrs [cls] + ptrs rest)
      ac_rfl

theorem counting_step {setup : Setup S I} {s t : State S I P} {a : Action S I P}
    (h : s.heap = counting (entries s.store)) (ht : step setup s a = some t) :
    t.heap = counting (entries t.store) := by
  obtain ⟨r, hr, hrest⟩ := Option.bind_eq_some_iff.mp ht
  obtain ⟨heap, hheap, rfl⟩ := Option.map_eq_some_iff.mp hrest
  rw [h] at hheap
  have hmoves := effect_moves hr hheap
  rw [Moves, hheap] at hmoves
  exact Option.some.inj hmoves

omit [DecidableEq S] [DecidableEq I] in
theorem counting_start {s : State S I P} (h : Start s) :
    s.heap = counting (entries s.store) := by
  have hqueues : heldBy s.store.queues = 0 :=
    Finset.sum_eq_zero fun t _ => by rw [h.queues t]; rfl
  have hstrategies : ∑ i, (s.store.strategy i).held = 0 := by
    refine Finset.sum_eq_zero fun i _ => ?_
    have hfresh := h.strategy i
    cases hi : s.store.strategy i with
    | simple => rfl
    | hordeSat database =>
      rw [hi] at hfresh
      rw [Strategy.held, show database = _ from hfresh, held_empty]
    | distribution sharing =>
      rw [hi] at hfresh
      rw [Strategy.held, show sharing = _ from hfresh]
      rfl
  obtain ⟨importBuf, exportBuf, rank, size, group, hcomm⟩ := h.comm
  have hheld : s.store.comm.held = 0 := by
    rw [hcomm, MpiComm.init]
    split_ifs <;> rfl
  rw [h.heap, entries, hqueues, hstrategies, hheld]
  rfl

/-- In every state between operations the counter of a live clause is the number
of container entries that hold it, a clause is live just where some container
holds it, and no operation has used or freed a freed clause. -/
theorem references_counted (setup : Setup S I) (s : State S I P)
    (h : (machine setup).Reach (fun _ _ => True) s) (p : P) :
    (p ∈ entries s.store → s.heap.nbRefs p = some ((entries s.store).count p : ℤ)) ∧
      (p ∉ entries s.store → s.heap.nbRefs p = none) ∧ s.heap.fault = false := by
  have hcounting : s.heap = counting (entries s.store) :=
    h.invariant (fun t => t.heap = counting (entries t.store)) (fun _ => counting_start)
      fun _ _ _ _ ht _ hstep => counting_step ht hstep
  rw [hcounting]
  exact ⟨counting_nbRefs_of_mem, counting_nbRefs_of_notMem, rfl⟩

/-- Three solvers that share with each other. -/
def trioSetup : Setup (Fin 3) Unit where
  id s := (s : ℕ)
  producers _ := [0, 1, 2]
  consumers _ := [0, 1, 2]
  shrLit := 10

def trioStart : State (Fin 3) Unit ℕ where
  store :=
    { queues := fun _ => SolverQueues.empty
      strategy := fun _ => .hordeSat ClauseDatabase.empty
      filterFlag := false
      comm := (MpiComm.fresh (fun _ => 0) fun _ => 0).init 0 1 0
      log := fun _ => [] }
  heap := counting 0

theorem trioStart_init : (machine trioSetup).Init trioStart where
  queues _ := rfl
  strategy _ := rfl
  filterFlag := rfl
  comm := ⟨_, _, 0, 1, 0, rfl⟩
  log _ := rfl
  heap := rfl

/-- Solver 0 learns the unit clause 5, and the others are to import it. -/
def trioRun : List (Action (Fin 3) Unit ℕ) := [.exportClause 0 (unitClause 7 5), .doSharing ()]

theorem trio_some : ((machine trioSetup).run trioStart trioRun).isSome := rfl

def trioShared : State (Fin 3) Unit ℕ := ((machine trioSetup).run trioStart trioRun).get trio_some

/-- The clause is held by two queues, and counted twice. -/
theorem references_counted_trio : (entries trioShared.store).count 7 = 2 ∧
    trioShared.heap.nbRefs 7 = some 2 ∧ trioShared.heap.fault = false := by
  have hcount : (entries trioShared.store).count 7 = 2 := by decide +kernel
  have hmem : 7 ∈ entries trioShared.store := Multiset.count_pos.mp (by omega)
  have hreach := Machine.Reach.of_run trioStart_init (Option.some_get trio_some).symm
  obtain ⟨hcounted, -, hfault⟩ := references_counted trioSetup trioShared hreach 7
  refine ⟨hcount, ?_, hfault⟩
  rw [hcounted hmem, hcount]
  rfl

end Painless.ReferenceCounts
