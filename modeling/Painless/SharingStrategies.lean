import Mathlib.Algebra.BigOperators.Group.Finset.Piecewise
import Mathlib.Algebra.Order.Group.Multiset
import Painless.ClauseCommunicator

/-!
The buffers of the solvers and the two sharing strategies without filters. A
round collects what the producers have learned and hands clauses to the
consumers: all of them at once (SimpleSharing), or a selection within a literal
budget from a database that outlives the round (HordeSatSharing). A round is
given with the references it takes and gives back and with a log of what went
from and to the solvers, which are numbered by their place in the vectors. How
many clauses a solver produces is left open, so increaseClauseProduction and
the statistics have no part here.
-/
namespace Painless.SharingStrategies

open RefCount SharedClauses SharedDatabase ClauseCommunicator

/-- The buffers of a solver. -/
structure SolverQueues (P : Type*) where
  clausesToExport : List (LearnedClause P)
  unitsToImport : List (ClauseExchange P)
  clausesToImport : List (ClauseExchange P)

inductive Event (P : Type*)
  /-- `getLearnedClauses` of `from[i]` -/
  | collected (i : ℕ) (clauses : List (LearnedClause P))
  /-- `giveSelection` in the iteration of `from[i]` -/
  | selected (i : ℕ) (clauses : List (LearnedClause P))
  /-- `addLearnedClauses` of `to[j]` -/
  | handed (j : ℕ) (clauses : List (ClauseExchange P))

/-- What a part of a round leaves to the solvers, with the calls to the clause
manager and the events, each in order. -/
structure Outcome (S P : Type*) where
  queues : S → SolverQueues P
  calls : List (Call P)
  log : List (Event P)

variable {S P : Type*}

namespace SolverQueues

def empty : SolverQueues P := ⟨[], [], []⟩

def addLearnedClause (q : SolverQueues P) (clause : ClauseExchange P) : SolverQueues P :=
  if clause.size = 1 then { q with unitsToImport := q.unitsToImport ++ [clause] }
  else { q with clausesToImport := q.clausesToImport ++ [clause] }

def addLearnedClauses (q : SolverQueues P) (clauses : List (ClauseExchange P)) :
    SolverQueues P := clauses.foldl addLearnedClause q

def getLearnedClauses (q : SolverQueues P) : List (LearnedClause P) × SolverQueues P :=
  ((getClauses q.clausesToExport).1,
    { q with clausesToExport := (getClauses q.clausesToExport).2 })

def held (q : SolverQueues P) : Multiset P :=
  ptrs (upcast q.clausesToExport) + ptrs q.unitsToImport + ptrs q.clausesToImport

theorem getLearnedClauses_eq (q : SolverQueues P) :
    q.getLearnedClauses = (q.clausesToExport, { q with clausesToExport := [] }) := by
  rw [getLearnedClauses, getClauses_eq]

theorem held_getLearnedClauses (q : SolverQueues P) :
    ptrs (upcast q.getLearnedClauses.1) + q.getLearnedClauses.2.held = q.held := by
  rw [getLearnedClauses_eq]
  simp [held, add_assoc]

theorem held_addLearnedClause (q : SolverQueues P) (c : ClauseExchange P) :
    (q.addLearnedClause c).held = c.ptr ::ₘ q.held := by
  unfold addLearnedClause
  split_ifs
  · simp only [held, ptrs_append, ptrs_cons, ptrs_nil]
    rw [Multiset.add_cons, add_zero, Multiset.add_cons, Multiset.cons_add]
  · simp only [held, ptrs_append, ptrs_cons, ptrs_nil]
    rw [Multiset.add_cons, add_zero, Multiset.add_cons]

theorem held_addLearnedClauses (q : SolverQueues P) (cs : List (ClauseExchange P)) :
    (q.addLearnedClauses cs).held = ptrs cs + q.held := by
  induction cs generalizing q with
  | nil => simp [addLearnedClauses]
  | cons c rest ih =>
    have hrest := ih (q.addLearnedClause c)
    rw [held_addLearnedClause, Multiset.add_cons, ← Multiset.cons_add] at hrest
    rw [ptrs_cons]
    exact hrest

end SolverQueues

/-- What a family of containers holds, one of them apart. -/
theorem sum_split {ι X : Type*} [DecidableEq ι] [Fintype ι] (held : X → Multiset P)
    (f : ι → X) (i : ι) :
    ∃ rest, (∑ j, held (f j) = held (f i) + rest) ∧
      ∀ x, ∑ j, held (Function.update f i x j) = held x + rest := by
  have hupdate (x : X) : ∑ j, held (Function.update f i x j) =
      held x + ∑ j ∈ Finset.univ \ {i}, held (f j) := by
    have hfun : (fun j => held (Function.update f i x j)) =
        Function.update (fun j => held (f j)) i (held x) :=
      funext fun j => Function.apply_update (fun _ => held) f i x j
    rw [hfun, Finset.sum_update_of_mem (Finset.mem_univ i)]
  refine ⟨_, ?_, hupdate⟩
  rw [← hupdate (f i), Function.update_eq_self]

section Rounds

variable [DecidableEq S] (id : S → ℤ)

/-- The loop over `to` in SimpleSharing and HordeSatSharing: `tmp` goes to every
consumer with another id than the producer. -/
def handOver (producer : S) (tmp : List (ClauseExchange P)) :
    ℕ → List S → (S → SolverQueues P) → Outcome S P
  | _, [], queues => ⟨queues, [], []⟩
  | j, consumer :: rest, queues =>
    if id producer ≠ id consumer then
      let more := handOver producer tmp (j + 1) rest
        (Function.update queues consumer ((queues consumer).addLearnedClauses tmp))
      ⟨more.queues, tmp.map increaseClause ++ more.calls, .handed j tmp :: more.log⟩
    else
      handOver producer tmp (j + 1) rest queues

/-- `SimpleSharing::doSharing` from `from[i]` on. -/
def simpleSharing (consumers : List S) : ℕ → List S → (S → SolverQueues P) → Outcome S P
  | _, [], queues => ⟨queues, [], []⟩
  | i, producer :: rest, queues =>
    let got := (queues producer).getLearnedClauses
    let tmp := upcast got.1
    let given := handOver id producer tmp 0 consumers (Function.update queues producer got.2)
    let more := simpleSharing consumers (i + 1) rest given.queues
    ⟨more.queues, given.calls ++ tmp.map releaseClause ++ more.calls,
      .collected i got.1 :: given.log ++ more.log⟩

def addAll : ClauseDatabase P → List (LearnedClause P) → ClauseDatabase P × List (Call P)
  | database, [] => (database, [])
  | database, clause :: rest =>
    let added := database.addClause clause
    let more := addAll added.1 rest
    (more.1, added.2 ++ more.2)

/-- `HordeSatSharing::doSharing` from `from[i]` on; `giveSelection` takes its
budget as an unsigned. -/
def hordeSatLoop (literalPerRound : ℤ) (consumers : List S) :
    ℕ → List S → ClauseDatabase P → (S → SolverQueues P) →
      ClauseDatabase P × Outcome S P
  | _, [], database, queues => (database, ⟨queues, [], []⟩)
  | i, producer :: rest, database, queues =>
    let got := (queues producer).getLearnedClauses
    let added := addAll database got.1
    let selection := (added.1.giveSelection (toUnsigned literalPerRound)).selectedCls
    let tmp := upcast selection
    let given := handOver id producer tmp 0 consumers (Function.update queues producer got.2)
    let more := hordeSatLoop literalPerRound consumers (i + 1) rest
      (added.1.afterSelection (toUnsigned literalPerRound)) given.queues
    (more.1, ⟨more.2.queues,
      added.2 ++ given.calls ++ tmp.map releaseClause ++ more.2.calls,
      .collected i got.1 :: .selected i selection :: given.log ++ more.2.log⟩)

/-- With a budget of zero the percentage of the budget used is a division by
zero, in the first iteration. -/
def hordeSatSharing (literalPerRound : ℤ) (producers consumers : List S)
    (database : ClauseDatabase P) (queues : S → SolverQueues P) :
    Option (ClauseDatabase P × Outcome S P) :=
  if literalPerRound = 0 ∧ producers ≠ [] then none
  else some (hordeSatLoop id literalPerRound consumers 0 producers database queues)

/-! ### References -/

variable [Fintype S]

def heldBy (queues : S → SolverQueues P) : Multiset P := ∑ s, (queues s).held

theorem heldBy_take {queues : S → SolverQueues P} {s : S} {q : SolverQueues P}
    {taken : Multiset P} (h : taken + q.held = (queues s).held) :
    heldBy queues = taken + heldBy (Function.update queues s q) := by
  obtain ⟨rest, hold, hnew⟩ := sum_split SolverQueues.held queues s
  rw [heldBy, heldBy, hold, hnew, ← h, add_assoc]

theorem heldBy_give {queues : S → SolverQueues P} {s : S} {q : SolverQueues P}
    {given : Multiset P} (h : q.held = given + (queues s).held) :
    heldBy (Function.update queues s q) = given + heldBy queues := by
  obtain ⟨rest, hold, hnew⟩ := sum_split SolverQueues.held queues s
  rw [heldBy, heldBy, hold, hnew, h, add_assoc]

theorem heldBy_add (queues : S → SolverQueues P) (s : S) (cs : List (ClauseExchange P)) :
    heldBy (Function.update queues s ((queues s).addLearnedClauses cs)) =
      ptrs cs + heldBy queues :=
  heldBy_give (SolverQueues.held_addLearnedClauses _ cs)

variable [DecidableEq P] (m : Multiset P)

theorem handOver_moves (producer : S) (tmp : List (ClauseExchange P)) (j : ℕ)
    (consumers : List S) (queues : S → SolverQueues P) (htmp : ∀ c ∈ tmp, c.ptr ∈ m) :
    Moves (handOver id producer tmp j consumers queues).calls (heldBy queues + m)
      (heldBy (handOver id producer tmp j consumers queues).queues + m) := by
  induction consumers generalizing j queues with
  | nil => exact Moves.nil _
  | cons consumer rest ih =>
    unfold handOver
    dsimp only
    split_ifs
    · have hinc : Moves (tmp.map increaseClause) (heldBy queues + m)
          (ptrs tmp + (heldBy queues + m)) :=
        increase_clauses fun c hc => Multiset.mem_add.mpr (.inr (htmp c hc))
      refine (hinc.of_eq rfl ?_).append (ih _ _)
      rw [heldBy_add, add_assoc]
    · exact ih _ _

theorem simpleSharing_moves (consumers : List S) (i : ℕ) (producers : List S)
    (queues : S → SolverQueues P) :
    Moves (simpleSharing id consumers i producers queues).calls (heldBy queues + m)
      (heldBy (simpleSharing id consumers i producers queues).queues + m) := by
  induction producers generalizing i queues with
  | nil => exact Moves.nil _
  | cons producer rest ih =>
    unfold simpleSharing
    dsimp only
    generalize hgot : (queues producer).getLearnedClauses = got
    have htake := heldBy_take (hgot ▸ (queues producer).held_getLearnedClauses)
    have hgiven := handOver_moves id (ptrs (upcast got.1) + m) producer (upcast got.1) 0
      consumers (Function.update queues producer got.2)
      fun c hc => Multiset.mem_add.mpr (.inl (mem_ptrs hc))
    refine ((hgiven.of_eq ?_ ?_).append (release_clauses (upcast got.1) _)).append (ih _ _)
    · rw [htake]
      ac_rfl
    · ac_rfl

theorem addAll_moves (database : ClauseDatabase P) (clauses : List (LearnedClause P)) :
    Moves (addAll database clauses).2 (ptrs (upcast clauses) + database.held + m)
      ((addAll database clauses).1.held + m) := by
  induction clauses generalizing database with
  | nil => exact (Moves.nil _).of_eq (by simp [addAll]) rfl
  | cons clause rest ih =>
    have hadd := addClause_moves database clause (ptrs (upcast rest) + m)
    refine (hadd.of_eq ?_ ?_).append (ih _)
    · simp only [upcast_cons, ptrs_cons, Multiset.cons_add]
      ac_rfl
    · ac_rfl

theorem hordeSatLoop_moves (literalPerRound : ℤ) (consumers : List S) (i : ℕ)
    (producers : List S) (database : ClauseDatabase P) (queues : S → SolverQueues P) :
    Moves (hordeSatLoop id literalPerRound consumers i producers database queues).2.calls
      (heldBy queues + database.held + m)
      (heldBy (hordeSatLoop id literalPerRound consumers i producers database queues).2.queues +
        (hordeSatLoop id literalPerRound consumers i producers database queues).1.held + m) := by
  induction producers generalizing i database queues with
  | nil => exact Moves.nil _
  | cons producer rest ih =>
    unfold hordeSatLoop
    dsimp only
    generalize hgot : (queues producer).getLearnedClauses = got
    generalize hadded : addAll database got.1 = added
    have htake := heldBy_take (hgot ▸ (queues producer).held_getLearnedClauses)
    have hadd := addAll_moves (heldBy (Function.update queues producer got.2) + m) database got.1
    rw [hadded] at hadd
    have hsplit := held_afterSelection added.1 (toUnsigned literalPerRound)
    generalize hsel : (added.1.giveSelection (toUnsigned literalPerRound)).selectedCls = sel
      at hsplit ⊢
    have hgiven := handOver_moves id
      (ptrs (upcast sel) + (added.1.afterSelection (toUnsigned literalPerRound)).held + m)
      producer (upcast sel) 0 consumers (Function.update queues producer got.2)
      fun c hc => Multiset.mem_add.mpr (.inl (Multiset.mem_add.mpr (.inl (mem_ptrs hc))))
    refine (((hadd.of_eq ?_ ?_).append (hgiven.of_eq rfl ?_)).append
      (release_clauses (upcast sel) _)).append (ih _ _ _)
    · rw [htake]
      ac_rfl
    · rw [← hsplit]
      ac_rfl
    · ac_rfl

end Rounds

end Painless.SharingStrategies
