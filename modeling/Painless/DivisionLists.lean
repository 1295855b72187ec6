import Painless.DivideAndConquer
import Mathlib.Data.List.Perm.Basic
import Mathlib.Data.List.Nodup

/-!
The invariant of the four lists of the divide-and-conquer strategy. The pairs
of a splitting worker and the idle slave reserved for it are not recorded, so
the invariant is about the lists as a whole: together they hold every slave
exactly once, the two splitting lists have one length, and nWorkers counts the
active workers. It holds after the master's start-up and every critical section
preserves it, in any order.
-/
namespace Painless.DivisionLists

open DivideAndConquer Transitions

variable {W : Type*} {cfg : Config W}

/-- All slaves, in the order the four lists are read. -/
def everySlave (l : SlaveLists W) : List W :=
  l.overs ++ l.workers ++ l.workersSplitting ++ l.oversSplitting

structure ListsInvariant (cfg : Config W) (l : SlaveLists W) : Prop where
  perm : (everySlave l).Perm cfg.slaves
  pairs : l.workersSplitting.length = l.oversSplitting.length
  count : l.nWorkers = l.workers.length + l.workersSplitting.length

namespace ListsInvariant

variable {l : SlaveLists W}

theorem nodup_everySlave (h : ListsInvariant cfg l) : (everySlave l).Nodup :=
  h.perm.nodup_iff.mpr cfg.nodup

/-- No list repeats a slave, and no two lists share one. -/
theorem nodup_lists (h : ListsInvariant cfg l) :
    (l.overs.Nodup ∧ l.workers.Nodup ∧ l.workersSplitting.Nodup ∧
      l.oversSplitting.Nodup) ∧
    (l.overs.Disjoint l.workers ∧ l.overs.Disjoint l.workersSplitting ∧
      l.overs.Disjoint l.oversSplitting ∧ l.workers.Disjoint l.workersSplitting ∧
      l.workers.Disjoint l.oversSplitting ∧
      l.workersSplitting.Disjoint l.oversSplitting) := by
  have hnodup := h.nodup_everySlave
  simp only [everySlave, List.nodup_append', List.disjoint_append_left] at hnodup
  tauto

theorem mem_slaves (h : ListsInvariant cfg l) (w : W) :
    w ∈ cfg.slaves ↔
      w ∈ l.overs ∨ w ∈ l.workers ∨ w ∈ l.workersSplitting ∨ w ∈ l.oversSplitting := by
  rw [← h.perm.mem_iff]
  simp only [everySlave, List.mem_append, or_assoc]

/-- A worker that is to split has an idle slave waiting for some worker. -/
theorem oversSplitting_ne_nil (h : ListsInvariant cfg l) {w : W}
    (hw : w ∈ l.workersSplitting) : l.oversSplitting ≠ [] := by
  intro hnil
  have hlength := h.pairs
  rw [hnil, List.length_nil, List.length_eq_zero_iff] at hlength
  rw [hlength] at hw
  exact List.not_mem_nil hw

/-- The idle slave of a pending division is not active. -/
theorem not_active_of_oversSplitting (h : ListsInvariant cfg l) {w : W}
    (hw : w ∈ l.oversSplitting) : w ∉ l.workers ∧ w ∉ l.workersSplitting := by
  obtain ⟨-, -, -, -, -, hworkers, hsplitting⟩ := h.nodup_lists
  exact ⟨fun hm => hworkers hm hw, fun hm => hsplitting hm hw⟩

end ListsInvariant

variable [DecidableEq W]

/-! ### One step -/

theorem invariant_startUp {s : State W} (h : startUp cfg = some s) :
    ListsInvariant cfg s.toSlaveLists := by
  obtain ⟨first, rest, hslaves, hlists, _, _⟩ := startUp_spec h
  rw [hlists]
  refine ⟨?_, rfl, rfl⟩
  simp only [everySlave, hslaves, List.append_nil]
  exact List.perm_append_singleton first rest

theorem invariant_handOver {s t : State W} (hs : ListsInvariant cfg s.toSlaveLists)
    (h : handOver s = some t) : ListsInvariant cfg t.toSlaveLists := by
  obtain ⟨overSlave, overs, worker, workers, hovers, hworkers, hlists, _, _⟩ := handOver_spec h
  obtain ⟨_, -, -, hoverSplitting, hworkerSplitting, -, -⟩ := hs.nodup_lists
  have hworker : worker ∉ s.workersSplitting :=
    fun hmem => hworkerSplitting (by simp [hworkers]) hmem
  have hover : overSlave ∉ s.oversSplitting :=
    fun hmem => hoverSplitting (by simp [hovers]) hmem
  rw [hlists, addOnceToVectorTail_of_notMem hworker, addOnceToVectorTail_of_notMem hover]
  refine ⟨List.Perm.trans ?_ hs.perm, ?_, ?_⟩
  · rw [List.perm_iff_count]
    intro w
    simp only [everySlave, hovers, hworkers, List.count_append, List.count_cons,
      List.count_nil]
    omega
  · have hpairs := hs.pairs
    simp only [List.length_append, List.length_singleton]
    omega
  · have hcount := hs.count
    rw [hworkers, List.length_cons] at hcount
    simp only [List.length_append, List.length_singleton]
    push_cast at hcount ⊢
    omega

theorem invariant_joinUnknown {s t : State W} {current : W} {var : ℤ}
    (hs : ListsInvariant cfg s.toSlaveLists) (hcurrent : current ∈ s.workersSplitting)
    (h : joinUnknown cfg s current var = some t) : ListsInvariant cfg t.toSlaveLists := by
  obtain ⟨overSlave, oversSplitting, hovers, hlists, _, _⟩ := joinUnknown_spec h
  have herase := List.perm_cons_erase hcurrent
  rw [hlists]
  refine ⟨List.Perm.trans ?_ hs.perm, ?_, ?_⟩
  · rw [List.perm_iff_count]
    intro w
    have hw := herase.count_eq w
    simp only [everySlave, removeFromVector, hovers, List.count_append, List.count_cons,
      List.count_nil] at hw ⊢
    omega
  · have hpairs := hs.pairs
    rw [herase.length_eq, hovers, List.length_cons, List.length_cons] at hpairs
    exact Nat.succ.inj hpairs
  · have hcount := hs.count
    rw [herase.length_eq, List.length_cons] at hcount
    simp only [removeFromVector, List.length_append, List.length_cons, List.length_nil]
    push_cast at hcount ⊢
    omega

theorem invariant_joinUnsat {s t : State W} {current : W}
    (hs : ListsInvariant cfg s.toSlaveLists) (hcurrent : Active s current)
    (h : joinUnsat cfg s current = some t) : ListsInvariant cfg t.toSlaveLists := by
  obtain ⟨_, hoversWorkers, hoversSplitting, hoversOver, -, -, hsplitting⟩ :=
    hs.nodup_lists
  obtain ⟨hcases, -, -⟩ := joinUnsat_spec h
  rcases hcases with ⟨hmem, overSlave, oversSplitting, hovers, hlists⟩ | ⟨hnot, hlists⟩
  · -- the division is cancelled: both go back to the idle slaves
    have hover : overSlave ∉ s.overs := fun hm => hoversOver hm (by simp [hovers])
    have hne : current ≠ overSlave := by
      rintro rfl
      exact hsplitting hmem (by simp [hovers])
    have hidle : current ∉ overSlave :: s.overs := by
      simp only [List.mem_cons, not_or]
      exact ⟨hne, fun hm => hoversSplitting hm hmem⟩
    have herase := List.perm_cons_erase hmem
    rw [hlists, addOnceToVectorHead_of_notMem hover, addOnceToVectorTail_of_notMem hidle]
    refine ⟨List.Perm.trans ?_ hs.perm, ?_, ?_⟩
    · rw [List.perm_iff_count]
      intro w
      have hw := herase.count_eq w
      simp only [everySlave, removeFromVector, hovers, List.count_append,
        List.count_cons, List.count_nil] at hw ⊢
      omega
    · have hpairs := hs.pairs
      rw [herase.length_eq, hovers, List.length_cons, List.length_cons] at hpairs
      exact Nat.succ.inj hpairs
    · have hcount := hs.count
      rw [herase.length_eq, List.length_cons] at hcount
      simp only [removeFromVector]
      push_cast at hcount ⊢
      omega
  · -- the worker leaves the running workers
    have hmem : current ∈ s.workers := hcurrent.resolve_right hnot
    have hidle : current ∉ s.overs := fun hm => hoversWorkers hm hmem
    have herase := List.perm_cons_erase hmem
    rw [hlists, addOnceToVectorTail_of_notMem hidle]
    refine ⟨List.Perm.trans ?_ hs.perm, hs.pairs, ?_⟩
    · rw [List.perm_iff_count]
      intro w
      have hw := herase.count_eq w
      simp only [everySlave, removeFromVector, List.count_append, List.count_cons,
        List.count_nil] at hw ⊢
      omega
    · have hcount := hs.count
      rw [herase.length_eq, List.length_cons] at hcount
      simp only [removeFromVector]
      push_cast at hcount ⊢
      omega

theorem invariant_step {s t : State W} {a : Action W}
    (hs : ListsInvariant cfg s.toSlaveLists) (hreports : Reports s a)
    (h : step cfg s a = some t) : ListsInvariant cfg t.toSlaveLists := by
  cases a with
  | handOver => exact invariant_handOver hs h
  | joinUnknown current var => exact invariant_joinUnknown hs hreports h
  | joinUnsat current => exact invariant_joinUnsat hs hreports h

/-! ### The active workers -/

/-- A worker handed over for a division stays active, with its cube. -/
theorem handOver_active {s t : State W} (hlists : ListsInvariant cfg s.toSlaveLists)
    (h : handOver s = some t) :
    (t.workers ++ t.workersSplitting).Perm (s.workers ++ s.workersSplitting) := by
  obtain ⟨overSlave, overs, worker, workers, -, hworkers, hl, -, -⟩ := handOver_spec h
  obtain ⟨-, -, -, -, hdisjoint, -, -⟩ := hlists.nodup_lists
  have hworker : worker ∉ s.workersSplitting :=
    fun hmem => hdisjoint (by simp [hworkers]) hmem
  rw [hl, hworkers, addOnceToVectorTail_of_notMem hworker, ← List.append_assoc]
  exact (List.perm_append_singleton worker _)

/-- A split replaces the worker by itself and the idle slave. -/
theorem joinUnknown_active {s t : State W} {current : W} {var : ℤ}
    (hlists : ListsInvariant cfg s.toSlaveLists) (hcurrent : current ∈ s.workersSplitting)
    (h : joinUnknown cfg s current var = some t) :
    ∃ overSlave rest others, s.oversSplitting = overSlave :: rest ∧
      overSlave ≠ current ∧ current ∉ others ∧ overSlave ∉ others ∧
      (s.workers ++ s.workersSplitting).Perm (current :: others) ∧
      (t.workers ++ t.workersSplitting).Perm (current :: overSlave :: others) ∧
      t.cubes = halveCubes s.cubes current overSlave var ∧
      t.given = Function.update (Function.update s.given current (t.cubes current))
        overSlave (t.cubes overSlave) := by
  obtain ⟨overSlave, rest, hovers, hl, hcubes, hgiven⟩ := joinUnknown_spec h
  obtain ⟨⟨-, -, hnodup, -⟩, -, -, -, hdisjoint, -, -⟩ := hlists.nodup_lists
  have hover := hlists.not_active_of_oversSplitting (w := overSlave) (by simp [hovers])
  have hne : overSlave ≠ current := fun heq => hover.2 (heq ▸ hcurrent)
  have herase := List.perm_cons_erase hcurrent
  refine ⟨overSlave, rest, s.workers ++ s.workersSplitting.erase current, hovers, hne,
    ?_, ?_, ?_, ?_, hcubes hne, hgiven⟩
  · rw [List.mem_append, not_or]
    exact ⟨fun hm => hdisjoint hm hcurrent, hnodup.not_mem_erase⟩
  · rw [List.mem_append, not_or]
    exact ⟨hover.1, fun hm => hover.2 (List.mem_of_mem_erase hm)⟩
  · exact (herase.append_left s.workers).trans List.perm_middle
  · rw [hl, removeFromVector, List.perm_iff_count]
    intro w
    simp only [List.count_append, List.count_cons, List.count_nil]
    omega

/-- A worker that reports UNSAT is the only one that stops being active. -/
theorem joinUnsat_active {s t : State W} {current : W} (hcurrent : Active s current)
    (h : joinUnsat cfg s current = some t) :
    (s.workers ++ s.workersSplitting).Perm
      (current :: (t.workers ++ t.workersSplitting)) := by
  obtain ⟨⟨hmem, overSlave, rest, -, hl⟩ | ⟨hnot, hl⟩, -, -⟩ := joinUnsat_spec h
  · rw [hl]
    exact ((List.perm_cons_erase hmem).append_left s.workers).trans List.perm_middle
  · have hmem : current ∈ s.workers := hcurrent.resolve_right hnot
    rw [hl]
    exact (List.perm_cons_erase hmem).append_right s.workersSplitting

/-- The slaves that do not call join keep their place among the active workers
and among those that are to split. -/
theorem others_stay {s t : State W} {a : Action W} (hlists : ListsInvariant cfg s.toSlaveLists)
    (hreports : Reports s a) (h : step cfg s a = some t) {w : W}
    (hw : a.current ≠ some w) :
    (Active s w → Active t w) ∧ (w ∈ s.workersSplitting → w ∈ t.workersSplitting) := by
  cases a with
  | handOver =>
    refine ⟨fun hactive => ?_, fun hmem => ?_⟩
    · exact List.mem_append.mp
        ((handOver_active hlists h).mem_iff.mpr (List.mem_append.mpr hactive))
    · obtain ⟨overSlave, overs, worker, workers, -, -, hl, -, -⟩ := handOver_spec h
      rw [hl]
      dsimp only [addOnceToVectorTail]
      split
      · exact hmem
      · exact List.mem_append_left _ hmem
  | joinUnknown current var =>
    have hne : w ≠ current := fun heq => hw (congrArg some heq.symm)
    refine ⟨fun hactive => ?_, fun hmem => ?_⟩
    · obtain ⟨overSlave, rest, others, -, -, -, -, hbefore, hafter, -, -⟩ :=
        joinUnknown_active hlists hreports h
      have hmem := hbefore.mem_iff.mp (List.mem_append.mpr hactive)
      have hothers := (List.mem_cons.mp hmem).resolve_left hne
      exact List.mem_append.mp (hafter.mem_iff.mpr (by simp [hothers]))
    · obtain ⟨overSlave, rest, -, hl, -, -⟩ := joinUnknown_spec h
      rw [hl]
      exact (List.mem_erase_of_ne hne).mpr hmem
  | joinUnsat current =>
    have hne : w ≠ current := fun heq => hw (congrArg some heq.symm)
    refine ⟨fun hactive => ?_, fun hmem => ?_⟩
    · have hmem := (joinUnsat_active hreports h).mem_iff.mp (List.mem_append.mpr hactive)
      exact List.mem_append.mp ((List.mem_cons.mp hmem).resolve_left hne)
    · obtain ⟨⟨-, overSlave, rest, -, hl⟩ | ⟨-, hl⟩, -, -⟩ := joinUnsat_spec h
      · rw [hl]
        exact (List.mem_erase_of_ne hne).mpr hmem
      · rw [hl]
        exact hmem

/-! ### Every run -/

theorem invariant_reach {s : State W} (hs : (machine cfg).Reach Reports s) :
    ListsInvariant cfg s.toSlaveLists :=
  hs.invariant (fun s => ListsInvariant cfg s.toSlaveLists)
    (fun _ h => invariant_startUp h)
    (fun _ _ _ _ hinv hok h => invariant_step hinv hok h)

/-- In every reachable state the four vectors have no duplicates, are pairwise
disjoint and hold exactly the slaves, the splitting vectors have one length and
nWorkers is the number of active workers. -/
theorem lists_partition_slaves (cfg : Config W) (s : State W)
    (hs : (machine cfg).Reach Reports s) :
    (s.overs.Nodup ∧ s.workers.Nodup ∧ s.workersSplitting.Nodup ∧
      s.oversSplitting.Nodup) ∧
    (s.overs.Disjoint s.workers ∧ s.overs.Disjoint s.workersSplitting ∧
      s.overs.Disjoint s.oversSplitting ∧ s.workers.Disjoint s.workersSplitting ∧
      s.workers.Disjoint s.oversSplitting ∧
      s.workersSplitting.Disjoint s.oversSplitting) ∧
    (∀ w, w ∈ cfg.slaves ↔ w ∈ s.overs ∨ w ∈ s.workers ∨
      w ∈ s.workersSplitting ∨ w ∈ s.oversSplitting) ∧
    s.workersSplitting.length = s.oversSplitting.length ∧
    s.nWorkers = s.workers.length + s.workersSplitting.length := by
  have hinv := invariant_reach hs
  obtain ⟨hnodup, hdisjoint⟩ := hinv.nodup_lists
  exact ⟨hnodup, hdisjoint, hinv.mem_slaves, hinv.pairs, hinv.count⟩

theorem nodup_twoSlaves : ([0, 1] : List (Fin 2)).Nodup := by decide

theorem ownSolver_inj (a b : Fin 2) (x : SolverId) (ha : some (a : ℕ) = some x)
    (hb : some (b : ℕ) = some x) : a = b := by
  rw [← hb, Option.some.injEq] at ha
  exact Fin.ext ha

theorem ownSolver_lt (w : Fin 2) (x : SolverId) (h : some (w : ℕ) = some x) : x < 2 := by
  obtain rfl := Option.some.inj h
  exact w.isLt

/-- Two slaves in copy-mode 1, each with its own solver. -/
def twoSlaves : Config (Fin 2) where
  slaves := [0, 1]
  nodup := nodup_twoSlaves
  actualCube := []
  cloneStrategy := 1
  nSharers := 0
  solverType := .lingeling
  solver w := some w
  currentIdSolver := 2
  solverOwned := ownSolver_inj
  solverFresh := ownSolver_lt

/-- The state after the first slave has been asked to split and has split. -/
def afterSplit : State (Fin 2) :=
  ((startUp twoSlaves).bind fun s =>
    (machine twoSlaves).run s [.handOver, .joinUnknown 0 5]).get (by decide)

theorem afterSplit_reach : (machine twoSlaves).Reach Reports afterSplit := by
  have hinit : (machine twoSlaves).Init ((startUp twoSlaves).get (by decide)) :=
    (Option.some_get _).symm
  exact (Machine.Reach.init hinit).run [.handOver, .joinUnknown 0 5] (by decide) rfl

theorem lists_partition_two_slaves : afterSplit.nWorkers = 2 := by
  have h := lists_partition_slaves twoSlaves afterSplit afterSplit_reach
  exact h.2.2.2.2.trans (by decide)

end Painless.DivisionLists
