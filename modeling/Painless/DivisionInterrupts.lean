import Painless.DivisionLists

/-!
The interrupt flags of the slaves under the critical sections. A slave that is
not active has its flag set, so its thread waits at the head of its loop. As no
two slaves share a solver, the solver of a worker that the master has not asked
to split carries no interrupt request.
-/
namespace Painless.DivisionInterrupts

open DivideAndConquer DivisionLists

variable {W : Type*} {cfg : Config W}

/-- No two slaves share a solver, and SolverFactory's counter is above all
solvers in use. -/
structure SolversOwned (s : State W) : Prop where
  owned : ∀ a b x, s.solver a = some x → s.solver b = some x → a = b
  fresh : ∀ w x, s.solver w = some x → x < s.currentIdSolver

def IdleInterrupted (s : State W) : Prop := ∀ w, ¬ Active s w → s.interrupt w = true

def WorkersClear (s : State W) : Prop :=
  ∀ w ∈ s.workers, ∀ x, s.solver w = some x → s.stopSolver x = false

theorem SolversOwned.of_frame {s t : State W} (hs : SolversOwned s)
    (hsolver : ∀ w x, t.solver w = some x → s.solver w = some x)
    (hid : s.currentIdSolver ≤ t.currentIdSolver) : SolversOwned t := by
  refine ⟨?_, ?_⟩
  · intro a b x ha hb
    exact hs.owned a b x (hsolver a x ha) (hsolver b x hb)
  · intro w x hx
    exact (hs.fresh w x (hsolver w x hx)).trans_le hid

variable [DecidableEq W]

/-! ### The flags after each operation -/

section Flags
variable (s : State W) (w : W)

@[simp] theorem setInterrupt_solver : (s.setInterrupt w).solver = s.solver := rfl

@[simp] theorem setInterrupt_currentIdSolver :
    (s.setInterrupt w).currentIdSolver = s.currentIdSolver := rfl

theorem setInterrupt_interrupt (v : W) :
    (s.setInterrupt w).interrupt v = (decide (v = w) || s.interrupt v) := by
  by_cases h : v = w <;> simp [State.setInterrupt, h]

theorem setInterrupt_stopSolver (x : SolverId) :
    (s.setInterrupt w).stopSolver x =
      (decide (s.solver w = some x) || s.stopSolver x) := by
  unfold State.setInterrupt
  cases hw : s.solver w with
  | none => simp
  | some y =>
    by_cases h : x = y
    · simp [h]
    · simp [h, Ne.symm h]

@[simp] theorem unsetInterrupt_solver : (s.unsetInterrupt w).solver = s.solver := by
  unfold State.unsetInterrupt
  split <;> rfl

@[simp] theorem unsetInterrupt_currentIdSolver :
    (s.unsetInterrupt w).currentIdSolver = s.currentIdSolver := by
  unfold State.unsetInterrupt
  split <;> rfl

theorem unsetInterrupt_interrupt {v : W} (h : v ≠ w) :
    (s.unsetInterrupt w).interrupt v = s.interrupt v := by
  unfold State.unsetInterrupt
  split
  · exact Function.update_of_ne h _ _
  · rfl

theorem unsetInterrupt_stopSolver (x : SolverId) :
    (s.unsetInterrupt w).stopSolver x =
      (!decide (s.solver w = some x) && s.stopSolver x) := by
  unfold State.unsetInterrupt
  cases hw : s.solver w with
  | none => simp
  | some y =>
    by_cases h : x = y
    · simp [h]
    · simp [h, Ne.symm h]

@[simp] theorem solve_solver (cube : List ℤ) : (s.solve w cube).solver = s.solver := by
  simp [State.solve]

@[simp] theorem solve_currentIdSolver (cube : List ℤ) :
    (s.solve w cube).currentIdSolver = s.currentIdSolver := by
  simp [State.solve]

theorem solve_interrupt (cube : List ℤ) {v : W} (h : v ≠ w) :
    (s.solve w cube).interrupt v = s.interrupt v :=
  unsetInterrupt_interrupt _ w h

theorem solve_stopSolver (cube : List ℤ) (x : SolverId) :
    (s.solve w cube).stopSolver x = (!decide (s.solver w = some x) && s.stopSolver x) :=
  unsetInterrupt_stopSolver _ w x

end Flags

theorem launchHalves_solver (s : State W) (current overSlave : W) (var : ℤ) :
    (launchHalves s current overSlave var).solver = s.solver := by
  simp [launchHalves]

theorem launchHalves_currentIdSolver (s : State W) (current overSlave : W) (var : ℤ) :
    (launchHalves s current overSlave var).currentIdSolver = s.currentIdSolver := by
  simp [launchHalves]

theorem launchHalves_interrupt (s : State W) (current overSlave : W) (var : ℤ) {v : W}
    (hcurrent : v ≠ current) (hover : v ≠ overSlave) :
    (launchHalves s current overSlave var).interrupt v = s.interrupt v := by
  rw [launchHalves, solve_interrupt _ _ _ hover, solve_interrupt _ _ _ hcurrent]

/-- Both halves start without an interrupt request, the others keep theirs. -/
theorem launchHalves_stopSolver (s : State W) (current overSlave : W) (var : ℤ)
    (x : SolverId) :
    (launchHalves s current overSlave var).stopSolver x =
      (!decide (s.solver overSlave = some x) &&
        (!decide (s.solver current = some x) && s.stopSolver x)) := by
  simp only [launchHalves, solve_stopSolver, solve_solver]

/-- A clone gets a number no solver has, and no interrupt request. -/
theorem cloneSolver_flags {s t : State W} {overSlave : W}
    (h : State.cloneSolver cfg s overSlave = some t) :
    t.interrupt = s.interrupt ∧ s.currentIdSolver ≤ t.currentIdSolver ∧
      (∀ w, w ≠ overSlave → t.solver w = s.solver w) ∧
      (∀ x, t.solver overSlave = some x → x = s.currentIdSolver ∧ x < t.currentIdSolver) ∧
      ∀ x, x < s.currentIdSolver → t.stopSolver x = s.stopSolver x := by
  unfold State.cloneSolver at h
  split at h
  · split at h
    · obtain rfl := Option.some.inj h
      refine ⟨rfl, Nat.le_succ _, fun w hw => Function.update_of_ne hw _ _, ?_, ?_⟩
      · intro x hx
        simp at hx
      · exact fun x _ => rfl
    · exact absurd h (by simp)
  · obtain rfl := Option.some.inj h
    refine ⟨rfl, Nat.le_succ _, fun w hw => Function.update_of_ne hw _ _, ?_, ?_⟩
    · intro x hx
      simp only [Function.update_self, Option.some.injEq] at hx
      exact ⟨hx.symm, hx ▸ Nat.lt_succ_self _⟩
    · exact fun x hx => Function.update_of_ne (Nat.ne_of_lt hx) _ _

theorem dropSolver_flags (s : State W) (current : W) :
    (s.dropSolver cfg current).interrupt = s.interrupt ∧
      (s.dropSolver cfg current).stopSolver = s.stopSolver ∧
      (s.dropSolver cfg current).currentIdSolver = s.currentIdSolver ∧
      ∀ w x, (s.dropSolver cfg current).solver w = some x → s.solver w = some x := by
  unfold State.dropSolver
  split
  · exact ⟨rfl, rfl, rfl, fun w x h => h⟩
  · refine ⟨rfl, rfl, rfl, fun w x h => ?_⟩
    by_cases hw : w = current
    · simp [hw] at h
    · simpa [hw] using h

theorem leaveWorkers_flags {s t : State W} {current : W}
    (h : leaveWorkers s current = some t) :
    t.interrupt = s.interrupt ∧ t.stopSolver = s.stopSolver ∧
      t.currentIdSolver = s.currentIdSolver ∧ t.solver = s.solver := by
  unfold leaveWorkers at h
  split at h
  · obtain ⟨⟨overSlave, rest⟩, -, rfl⟩ := Option.map_eq_some_iff.mp h
    exact ⟨rfl, rfl, rfl, rfl⟩
  · obtain rfl := Option.some.inj h
    exact ⟨rfl, rfl, rfl, rfl⟩

theorem leaveWorkers_calls {s t : State W} {current : W}
    (h : leaveWorkers s current = some t) :
    t.calls = s.calls ∧ t.nWorkers = s.nWorkers := by
  unfold leaveWorkers at h
  split at h
  · obtain ⟨p, -, rfl⟩ := Option.map_eq_some_iff.mp h
    exact ⟨rfl, rfl⟩
  · obtain rfl := Option.some.inj h
    exact ⟨rfl, rfl⟩

/-- A worker that reports UNSAT interrupts itself. -/
theorem joinUnsat_flags {s t : State W} {current : W}
    (h : joinUnsat cfg s current = some t) :
    (∀ v, t.interrupt v = (decide (v = current) || s.interrupt v)) ∧
      (∀ x, t.stopSolver x = (decide (s.solver current = some x) || s.stopSolver x)) ∧
      t.currentIdSolver = s.currentIdSolver ∧
      ∀ w x, t.solver w = some x → s.solver w = some x := by
  obtain ⟨u, hu, ht⟩ := joinUnsat_eq h
  obtain ⟨hinterrupt, hstop, hid, hsolver⟩ := leaveWorkers_flags hu
  refine ⟨fun v => ?_, fun x => ?_, ?_, fun w x hx => ?_⟩
  · have hi : t.interrupt v = (decide (v = current) || u.interrupt v) := by
      rcases ht with rfl | rfl
      · exact setInterrupt_interrupt _ current v
      · rw [(dropSolver_flags _ current).1]
        exact setInterrupt_interrupt _ current v
    rw [hi, hinterrupt]
  · have hs : t.stopSolver x = (decide (u.solver current = some x) || u.stopSolver x) := by
      rcases ht with rfl | rfl
      · exact setInterrupt_stopSolver _ current x
      · rw [(dropSolver_flags _ current).2.1]
        exact setInterrupt_stopSolver _ current x
    rw [hs, hsolver, hstop]
  · rw [← hid]
    rcases ht with rfl | rfl
    · rfl
    · exact (dropSolver_flags _ current).2.2.1
  · rw [← hsolver]
    rcases ht with rfl | rfl
    · exact hx
    · have hkept := (dropSolver_flags _ current).2.2.2 w x hx
      exact hkept

/-! ### The flags through the critical sections -/

theorem SolversOwned.clone {s t : State W} {overSlave : W} (hs : SolversOwned s)
    (h : State.cloneSolver cfg s overSlave = some t) : SolversOwned t := by
  obtain ⟨-, hid, hsame, hnew, -⟩ := cloneSolver_flags h
  have hother : ∀ w x, w ≠ overSlave → t.solver w = some x → x < s.currentIdSolver := by
    intro w x hw hx
    rw [hsame w hw] at hx
    exact hs.fresh w x hx
  refine ⟨?_, ?_⟩
  · intro a b x ha hb
    by_cases hao : a = overSlave <;> by_cases hbo : b = overSlave
    · rw [hao, hbo]
    · subst hao
      exact absurd (hnew x ha).1 (hother b x hbo hb).ne
    · subst hbo
      exact absurd (hnew x hb).1 (hother a x hao ha).ne
    · rw [hsame a hao] at ha
      rw [hsame b hbo] at hb
      exact hs.owned a b x ha hb
  · intro w x hx
    by_cases hw : w = overSlave
    · subst hw
      exact (hnew x hx).2
    · exact (hother w x hw hx).trans_le hid

theorem owned_setInterrupt {s : State W} (hs : SolversOwned s) (w : W) :
    SolversOwned (s.setInterrupt w) :=
  hs.of_frame (fun _ _ h => h) (Nat.le_refl _)

theorem owned_joinUnknown {s t : State W} {current : W} {var : ℤ}
    (hs : SolversOwned s) (h : joinUnknown cfg s current var = some t) :
    SolversOwned t := by
  obtain ⟨overSlave, rest, x, u, -, -, hu, rfl⟩ := joinUnknown_eq h
  have hsu : SolversOwned u := by
    rcases hu with rfl | hclone
    · exact hs.of_frame (fun _ _ h => h) (Nat.le_refl _)
    · refine SolversOwned.clone ?_ hclone
      exact hs.of_frame (fun _ _ h => h) (Nat.le_refl _)
  refine hsu.of_frame ?_ (launchHalves_currentIdSolver u current overSlave var).ge
  intro w y hy
  rwa [launchHalves_solver] at hy

theorem owned_step {s t : State W} {a : Action W} (hs : SolversOwned s)
    (h : step cfg s a = some t) : SolversOwned t := by
  cases a with
  | handOver =>
    obtain ⟨overSlave, overs, worker, workers, -, -, rfl⟩ := handOver_eq h
    exact hs.of_frame (fun _ _ h => h) (Nat.le_refl _)
  | joinUnknown current var => exact owned_joinUnknown hs h
  | joinUnsat current =>
    obtain ⟨-, -, hid, hsolver⟩ := joinUnsat_flags h
    exact hs.of_frame hsolver hid.ge

theorem owned_startUp {s : State W} (h : startUp cfg = some s) : SolversOwned s := by
  unfold startUp at h
  obtain ⟨⟨first, rest⟩, -, rfl⟩ := Option.map_eq_some_iff.mp h
  refine ⟨?_, ?_⟩
  · simpa using cfg.solverOwned
  · simpa using cfg.solverFresh

theorem idle_startUp {s : State W} (h : startUp cfg = some s) : IdleInterrupted s := by
  unfold startUp at h
  obtain ⟨⟨first, rest⟩, -, rfl⟩ := Option.map_eq_some_iff.mp h
  intro w hw
  have hne : w ≠ first := by
    rintro rfl
    exact hw (Or.inl (by simp))
  exact solve_interrupt _ first _ hne

theorem clear_startUp {s : State W} (h : startUp cfg = some s) : WorkersClear s := by
  unfold startUp at h
  obtain ⟨⟨first, rest⟩, -, rfl⟩ := Option.map_eq_some_iff.mp h
  intro w _ x _
  dsimp only
  rw [solve_stopSolver, Bool.and_false]

theorem idle_setInterrupt {s : State W} (hs : IdleInterrupted s) (w : W) :
    IdleInterrupted (s.setInterrupt w) := by
  intro v hv
  rw [setInterrupt_interrupt, hs v hv, Bool.or_true]

theorem idle_step {s t : State W} {a : Action W} (hlists : ListsInvariant cfg s.toSlaveLists)
    (hs : IdleInterrupted s) (hreports : Reports s a) (h : step cfg s a = some t) :
    IdleInterrupted t := by
  intro v hv
  cases a with
  | handOver =>
    have hidle : ¬ Active s v := by
      intro hactive
      have hmem := (handOver_active hlists h).mem_iff.mpr (List.mem_append.mpr hactive)
      exact hv (List.mem_append.mp hmem)
    obtain ⟨overSlave, overs, worker, workers, -, -, rfl⟩ := handOver_eq h
    rw [setInterrupt_interrupt]
    exact (congrArg _ (hs v hidle)).trans (Bool.or_true _)
  | joinUnknown current var =>
    obtain ⟨overSlave, rest, others, hovers, -, -, -, hbefore, hafter, -, -⟩ :=
      joinUnknown_active hlists hreports h
    obtain ⟨overSlave', rest', x, u, hovers', -, hu, rfl⟩ := joinUnknown_eq h
    obtain ⟨rfl, -⟩ : overSlave = overSlave' ∧ rest = rest' := by
      rw [hovers] at hovers'
      exact List.cons.inj hovers'
    have hnot : v ∉ current :: overSlave :: others := fun hmem =>
      hv (List.mem_append.mp (hafter.mem_iff.mpr hmem))
    simp only [List.mem_cons, not_or] at hnot
    have hidle : ¬ Active s v := by
      intro hactive
      have hmem := hbefore.mem_iff.mp (List.mem_append.mpr hactive)
      simp only [List.mem_cons, hnot, or_self] at hmem
    have hflag : u.interrupt = s.interrupt := by
      rcases hu with rfl | hclone
      · rfl
      · exact (cloneSolver_flags hclone).1
    rw [launchHalves_interrupt _ _ _ _ hnot.1 hnot.2.1, hflag]
    exact hs v hidle
  | joinUnsat current =>
    have hflag := (joinUnsat_flags h).1 v
    by_cases hcurrent : v = current
    · rw [hflag, decide_eq_true hcurrent, Bool.true_or]
    · have hidle : ¬ Active s v := by
        intro hactive
        have hmem := (joinUnsat_active hreports h).mem_iff.mp (List.mem_append.mpr hactive)
        exact hv (List.mem_append.mp ((List.mem_cons.mp hmem).resolve_left hcurrent))
      rw [hflag, hs v hidle, Bool.or_true]

/-- The master interrupts only the worker it takes out of the running ones. -/
theorem clear_handOver {s t : State W} (hlists : ListsInvariant cfg s.toSlaveLists)
    (howned : SolversOwned s) (hs : WorkersClear s) (h : handOver s = some t) :
    WorkersClear t := by
  obtain ⟨⟨-, hnodup, -, -⟩, -⟩ := hlists.nodup_lists
  obtain ⟨overSlave, overs, worker, workers, -, hworkers, rfl⟩ := handOver_eq h
  rw [hworkers] at hnodup
  intro w hw x hx
  have hne : worker ≠ w := by
    rintro rfl
    exact (List.nodup_cons.mp hnodup).1 hw
  have hsolver : s.solver worker ≠ some x := fun hwx => hne (howned.owned _ _ x hwx hx)
  have hclear : s.stopSolver x = false := hs w (by simp [hworkers]; exact Or.inr hw) x hx
  rw [setInterrupt_stopSolver]
  simp only [hsolver, decide_false, Bool.false_or, hclear]

theorem clear_joinUnknown {s t : State W} {current : W} {var : ℤ}
    (hlists : ListsInvariant cfg s.toSlaveLists) (howned : SolversOwned s)
    (hs : WorkersClear s) (h : joinUnknown cfg s current var = some t) :
    WorkersClear t := by
  obtain ⟨overSlave, rest, y, u, hovers, -, hu, rfl⟩ := joinUnknown_eq h
  have hover := hlists.not_active_of_oversSplitting (w := overSlave) (by simp [hovers])
  have hworkers : (launchHalves u current overSlave var).workers =
      s.workers ++ [current, overSlave] := by
    obtain ⟨overSlave', rest', hovers', hl, -, -⟩ := joinUnknown_spec h
    rw [hl]
    rw [hovers] at hovers'
    rw [(List.cons.inj hovers').1]
  intro w hw x hx
  rw [launchHalves_solver] at hx
  rw [launchHalves_stopSolver]
  by_cases hwover : w = overSlave
  · subst hwover
    simp only [hx, decide_true, Bool.not_true, Bool.false_and]
  · by_cases hwcurrent : w = current
    · subst hwcurrent
      simp only [hx, decide_true, Bool.not_true, Bool.false_and, Bool.and_false]
    · -- a worker that takes no part in the split keeps its solver and its flag
      have hmem : w ∈ s.workers := by
        rw [hworkers] at hw
        simpa [hwover, hwcurrent] using hw
      have hclear : u.stopSolver x = false := by
        rcases hu with rfl | hclone
        · exact hs w hmem x hx
        · obtain ⟨-, -, hsame, -, hstop⟩ := cloneSolver_flags hclone
          rw [hsame w hwover] at hx
          rw [hstop x (howned.fresh w x hx)]
          exact hs w hmem x hx
      rw [hclear, Bool.and_false, Bool.and_false]

theorem clear_joinUnsat {s t : State W} {current : W}
    (hlists : ListsInvariant cfg s.toSlaveLists) (howned : SolversOwned s)
    (hcurrent : Active s current) (hs : WorkersClear s)
    (h : joinUnsat cfg s current = some t) : WorkersClear t := by
  have hnodup : (s.workers ++ s.workersSplitting).Nodup := by
    obtain ⟨⟨-, hw, hsp, -⟩, -, -, -, hdisjoint, -, -⟩ := hlists.nodup_lists
    exact List.nodup_append'.mpr ⟨hw, hsp, hdisjoint⟩
  have hactive := joinUnsat_active hcurrent h
  rw [hactive.nodup_iff, List.nodup_cons, List.mem_append, not_or] at hnodup
  obtain ⟨-, hstop, -, hsolver⟩ := joinUnsat_flags h
  intro w hw x hx
  have hx' := hsolver w x hx
  have hne : s.solver current ≠ some x := by
    intro hcx
    obtain rfl := howned.owned _ _ x hcx hx'
    exact hnodup.1.1 hw
  have hmem : w ∈ s.workers := by
    obtain ⟨⟨-, overSlave, rest, -, hl⟩ | ⟨-, hl⟩, -, -⟩ := joinUnsat_spec h
    · rwa [hl] at hw
    · rw [hl] at hw
      exact List.mem_of_mem_erase hw
  rw [hstop, hs w hmem x hx', decide_eq_false hne, Bool.false_or]

theorem clear_step {s t : State W} {a : Action W} (hlists : ListsInvariant cfg s.toSlaveLists)
    (howned : SolversOwned s) (hs : WorkersClear s) (hreports : Reports s a)
    (h : step cfg s a = some t) : WorkersClear t := by
  cases a with
  | handOver => exact clear_handOver hlists howned hs h
  | joinUnknown current var => exact clear_joinUnknown hlists howned hs h
  | joinUnsat current => exact clear_joinUnsat hlists howned hreports hs h

end Painless.DivisionInterrupts
