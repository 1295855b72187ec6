import Painless.WorkerHandshake

/-!
What setInterrupt followed by waitInterrupt gives the controlling thread. The
worker stays out of its solver until the next unsetInterrupt or solve exactly
if it was not between its test of the flag, or its wakeup, and
waitInterruptLock when waitInterrupt took that lock, and if it is not woken
without a signal afterwards.
-/
namespace Painless.ExclusiveAccess

open Transitions WorkerHandshake

/-- The worker has passed the flag, but does not hold waitInterruptLock yet. -/
def inGap : WorkerPc → Bool
  | .woken => true
  | .unlockInterrupt => true
  | .lockWait => true
  | _ => false

/-- waitInterrupt has taken its lock after a setInterrupt, and the controlling
thread has not let the worker go on since. -/
def Holding (s : State) : Prop :=
  s.exclusive = true ∨ (s.asked = true ∧ s.controller = .waitUnlock)

def SolverExclusive (s : State) : Prop := s.exclusive = true → s.worker ≠ .solving

/-- waitInterrupt does not take its lock while the worker is in the gap, and no
wait ends without a signal once it has. -/
def Handshake (s : State) : Action → Prop
  | .control => s.controller = .waitLock → s.asked = true → inGap s.worker = false
  | .wakeSpuriously => ¬ Holding s
  | _ => True

instance (s : State) : Decidable (Holding s) := inferInstanceAs (Decidable (_ ∨ _))

instance (s : State) : ∀ a, Decidable (Handshake s a)
  | .control => inferInstanceAs (Decidable (_ → _ → _))
  | .wakeSpuriously => inferInstanceAs (Decidable (¬ _))
  | .work | .call _ | .endRun => inferInstanceAs (Decidable True)

/-! ### The locks -/

def workerHoldsInterrupt : WorkerPc → Bool
  | .test => true
  | .wait => true
  | .unlockInterrupt => true
  | _ => false

def workerHoldsWait : WorkerPc → Bool
  | .solving => true
  | .unlockWait => true
  | _ => false

def controllerHoldsInterrupt : ControllerPc → Bool
  | .signal => true
  | .signalUnlock => true
  | _ => false

/-- The controlling thread is letting the worker go on. -/
def revoking : ControllerPc → Bool
  | .setCube _ => true
  | .unsetSolver => true
  | .unsetFlag => true
  | .signalLock => true
  | .signal => true
  | .signalUnlock => true
  | _ => false

/-- Who holds a lock, from the places of both threads. -/
def owner (worker controller : Bool) : Option Thread :=
  if worker then some .worker else if controller then some .controller else none

structure LocksInvariant (s : State) : Prop where
  interruptLock : s.interruptLock =
    owner (workerHoldsInterrupt s.worker) (controllerHoldsInterrupt s.controller)
  interruptOne : workerHoldsInterrupt s.worker = true →
    controllerHoldsInterrupt s.controller = false
  waitLock : s.waitInterruptLock =
    owner (workerHoldsWait s.worker) (decide (s.controller = .waitUnlock))
  waitOne : workerHoldsWait s.worker = true → s.controller ≠ .waitUnlock
  asked : s.asked = true → s.interrupt = true ∧ revoking s.controller = false
  exclusive : s.exclusive = true → s.asked = true
  setting : s.controller = .setSolver → s.interrupt = true

theorem owner_eq_none {worker controller : Bool} :
    owner worker controller = none ↔ worker = false ∧ controller = false := by
  cases worker <;> cases controller <;> simp [owner]

/-- The worker does not hold the lock that the controlling thread holds. -/
theorem LocksInvariant.worker_free {s : State} (hs : LocksInvariant s)
    (h : controllerHoldsInterrupt s.controller = true) :
    workerHoldsInterrupt s.worker = false := by
  refine Bool.eq_false_iff.mpr fun hw => ?_
  rw [hs.interruptOne hw] at h
  cases h

/-- The worker moves, and takes or releases no lock. -/
theorem LocksInvariant.moveWorker {s : State} (hs : LocksInvariant s) (p : WorkerPc)
    (hinterrupt : workerHoldsInterrupt p = workerHoldsInterrupt s.worker)
    (hwait : workerHoldsWait p = workerHoldsWait s.worker) :
    LocksInvariant { s with worker := p } := by
  refine ⟨?_, ?_, ?_, ?_, hs.asked, hs.exclusive, hs.setting⟩
  · rw [hinterrupt]
    exact hs.interruptLock
  · rw [hinterrupt]
    exact hs.interruptOne
  · rw [hwait]
    exact hs.waitLock
  · rw [hwait]
    exact hs.waitOne

/-- The worker takes or releases interruptLock. -/
theorem LocksInvariant.workerInterrupt {s : State} (hs : LocksInvariant s)
    (p : WorkerPc) (hcontroller : controllerHoldsInterrupt s.controller = false)
    (hwait : workerHoldsWait p = workerHoldsWait s.worker) :
    LocksInvariant { s with
      interruptLock := owner (workerHoldsInterrupt p) false
      worker := p } := by
  refine ⟨?_, fun _ => hcontroller, ?_, ?_, hs.asked, hs.exclusive, hs.setting⟩
  · rw [hcontroller]
  · rw [hwait]
    exact hs.waitLock
  · rw [hwait]
    exact hs.waitOne

/-- The worker takes or releases waitInterruptLock. -/
theorem LocksInvariant.workerWait {s : State} (hs : LocksInvariant s)
    (p : WorkerPc) (hcontroller : s.controller ≠ .waitUnlock)
    (hinterrupt : workerHoldsInterrupt p = workerHoldsInterrupt s.worker) :
    LocksInvariant { s with
      waitInterruptLock := owner (workerHoldsWait p) false
      worker := p } := by
  refine ⟨?_, ?_, ?_, fun _ => hcontroller, hs.asked, hs.exclusive, hs.setting⟩
  · rw [hinterrupt]
    exact hs.interruptLock
  · rw [hinterrupt]
    exact hs.interruptOne
  · rw [decide_eq_false hcontroller]

theorem locks_work {s t : State} (hs : LocksInvariant s) (h : work s = some t) :
    LocksInvariant t := by
  have hfree : s.interruptLock = none → controllerHoldsInterrupt s.controller = false := by
    intro hnone
    rw [hs.interruptLock, owner_eq_none] at hnone
    exact hnone.2
  have hfreeWait : s.waitInterruptLock = none → s.controller ≠ .waitUnlock := by
    intro hnone
    rw [hs.waitLock, owner_eq_none] at hnone
    exact of_decide_eq_false hnone.2
  cases hp : s.worker with
  | loop | test =>
    simp only [work, hp, Option.some.injEq] at h
    subst h
    refine hs.moveWorker _ ?_ ?_ <;> rw [hp] <;> split <;> rfl
  | lockInterrupt =>
    simp only [work, hp] at h
    split at h
    case isTrue hnone =>
      obtain rfl := Option.some.inj h
      exact hs.workerInterrupt .test (hfree hnone) (by rw [hp]; rfl)
    case isFalse => exact absurd h (by simp)
  | wait =>
    have hcontroller := hs.interruptOne (by rw [hp]; rfl)
    simp only [work, hp, Option.some.injEq] at h
    subst h
    exact hs.workerInterrupt .waiting hcontroller (by rw [hp]; rfl)
  | woken =>
    simp only [work, hp] at h
    split at h
    case isTrue hnone =>
      obtain rfl := Option.some.inj h
      exact hs.workerInterrupt .unlockInterrupt (hfree hnone) (by rw [hp]; rfl)
    case isFalse => exact absurd h (by simp)
  | unlockInterrupt =>
    have hcontroller := hs.interruptOne (by rw [hp]; rfl)
    simp only [work, hp, Option.some.injEq] at h
    subst h
    exact hs.workerInterrupt .lockWait hcontroller (by rw [hp]; rfl)
  | lockWait =>
    simp only [work, hp] at h
    split at h
    case isTrue hnone =>
      obtain rfl := Option.some.inj h
      exact hs.workerWait .solving (hfreeWait hnone) (by rw [hp]; rfl)
    case isFalse => exact absurd h (by simp)
  | solving =>
    simp only [work, hp, Option.some.injEq] at h
    subst h
    exact hs.moveWorker .unlockWait (by rw [hp]; rfl) (by rw [hp]; rfl)
  | unlockWait =>
    have hcontroller := hs.waitOne (by rw [hp]; rfl)
    simp only [work, hp, Option.some.injEq] at h
    subst h
    exact hs.workerWait .joining hcontroller (by rw [hp]; rfl)
  | joining =>
    simp only [work, hp, Option.some.injEq] at h
    subst h
    exact hs.moveWorker .loop (by rw [hp]; rfl) (by rw [hp]; rfl)
  | waiting | exited => simp [work, hp] at h

/-- The controlling thread moves, and takes or releases no lock. -/
theorem LocksInvariant.moveController {s t : State} (hs : LocksInvariant s)
    (hworker : t.worker = s.worker) (hlock : t.interruptLock = s.interruptLock)
    (hwaitLock : t.waitInterruptLock = s.waitInterruptLock)
    (hinterrupt : controllerHoldsInterrupt t.controller =
      controllerHoldsInterrupt s.controller)
    (hwait : s.controller ≠ .waitUnlock) (hwait' : t.controller ≠ .waitUnlock)
    (hasked : t.asked = true → t.interrupt = true ∧ revoking t.controller = false)
    (hexclusive : t.exclusive = true → t.asked = true)
    (hsetting : t.controller = .setSolver → t.interrupt = true) : LocksInvariant t := by
  refine ⟨?_, ?_, ?_, fun _ => hwait', hasked, hexclusive, hsetting⟩
  · rw [hlock, hworker, hinterrupt]
    exact hs.interruptLock
  · rw [hworker, hinterrupt]
    exact hs.interruptOne
  · rw [hwaitLock, hworker, hs.waitLock, decide_eq_false hwait, decide_eq_false hwait']

theorem locks_call {s : State} (hs : LocksInvariant s) (hidle : s.controller = .idle)
    (c : Call) : LocksInvariant (call s c) := by
  cases c with
  | setInterrupt | waitInterrupt =>
    refine hs.moveController rfl rfl rfl (by rw [hidle]; rfl) (by simp [hidle])
      (by simp [call]) ?_ hs.exclusive (by simp [call])
    exact fun ha => ⟨(hs.asked ha).1, rfl⟩
  | unsetInterrupt | solve =>
    refine hs.moveController rfl rfl rfl (by rw [hidle]; rfl) (by simp [hidle])
      (by simp [call]) ?_ ?_ ?_ <;> simp [call]

/-- Nothing holds waitInterruptLock while the controlling thread takes it or
gives it back. -/
theorem LocksInvariant.control_wait {s t : State} (hs : LocksInvariant s)
    (hworker : workerHoldsWait s.worker = false)
    (hinterrupt : controllerHoldsInterrupt s.controller = false)
    (hinterrupt' : controllerHoldsInterrupt t.controller = false)
    (hsame : t.worker = s.worker) (hlock : t.interruptLock = s.interruptLock)
    (hwait : t.waitInterruptLock = owner false (decide (t.controller = .waitUnlock)))
    (hasked : t.asked = true → t.interrupt = true ∧ revoking t.controller = false)
    (hexclusive : t.exclusive = true → t.asked = true)
    (hsetting : t.controller ≠ .setSolver) : LocksInvariant t := by
  refine ⟨?_, fun _ => hinterrupt', ?_, ?_, hasked, hexclusive,
    fun h => absurd h hsetting⟩
  · rw [hlock, hsame, hinterrupt', hs.interruptLock, hinterrupt]
  · rw [hwait, hsame, hworker]
  · rw [hsame, hworker]
    exact fun hf => by cases hf

/-- The controlling thread takes or gives back interruptLock, while it lets the
worker go on. -/
theorem LocksInvariant.control_signal {s t : State} (hs : LocksInvariant s)
    (hworker : workerHoldsInterrupt s.worker = false) (hasked : s.asked = false)
    (hwait : s.controller ≠ .waitUnlock) (hwait' : t.controller ≠ .waitUnlock)
    (hinterrupt : workerHoldsInterrupt t.worker = workerHoldsInterrupt s.worker)
    (hholds : workerHoldsWait t.worker = workerHoldsWait s.worker)
    (hlock : t.interruptLock = owner false (controllerHoldsInterrupt t.controller))
    (hwaitLock : t.waitInterruptLock = s.waitInterruptLock)
    (hsame : t.asked = s.asked) (hexclusive : t.exclusive = s.exclusive)
    (hsetting : t.controller ≠ .setSolver) : LocksInvariant t := by
  refine ⟨?_, ?_, ?_, fun _ => hwait', ?_, ?_, fun h => absurd h hsetting⟩
  · rw [hlock, hinterrupt, hworker]
  · rw [hinterrupt, hworker]
    exact fun hf => by cases hf
  · rw [hwaitLock, hholds, hs.waitLock, decide_eq_false hwait, decide_eq_false hwait']
  · rw [hsame, hasked]
    exact fun hf => by cases hf
  · rw [hsame, hexclusive]
    exact hs.exclusive

/-- The controller gets the lock only when the worker does not hold it. -/
theorem LocksInvariant.control_waitLock {s t : State} (hs : LocksInvariant s)
    (hp : s.controller = .waitLock) (h : WorkerHandshake.control s = some t) :
    workerHoldsWait s.worker = false ∧
      t = { s with waitInterruptLock := some .controller, controller := .waitUnlock } := by
  simp only [WorkerHandshake.control, hp] at h
  split at h
  case isFalse => exact absurd h (by simp)
  case isTrue hnone =>
    rw [hs.waitLock, owner_eq_none] at hnone
    exact ⟨hnone.1, (Option.some.inj h).symm⟩

theorem locks_control {s t : State} (hs : LocksInvariant s)
    (h : WorkerHandshake.control s = some t) : LocksInvariant t := by
  have hrevoking : revoking s.controller = true → s.asked = false := by
    intro hr
    refine (Bool.not_eq_true _).mp fun ha => ?_
    rw [(hs.asked ha).2] at hr
    cases hr
  cases hp : s.controller with
  | setFlag =>
    simp only [WorkerHandshake.control, hp, Option.some.injEq] at h
    subst h
    exact hs.moveController rfl rfl rfl (by rw [hp]; rfl) (by simp [hp]) (by simp)
      (fun _ => ⟨rfl, rfl⟩) hs.exclusive (fun _ => rfl)
  | setSolver =>
    simp only [WorkerHandshake.control, hp, Option.some.injEq] at h
    subst h
    exact hs.moveController rfl rfl rfl (by rw [hp]; rfl) (by simp [hp]) (by simp)
      (fun _ => ⟨hs.setting hp, rfl⟩) (fun _ => rfl) (by simp)
  | waitLock =>
    obtain ⟨hworker, rfl⟩ := hs.control_waitLock hp h
    exact hs.control_wait hworker (by rw [hp]; rfl) rfl rfl rfl rfl
      (fun ha => ⟨(hs.asked ha).1, rfl⟩) hs.exclusive (by simp)
  | waitUnlock =>
    have hworker : workerHoldsWait s.worker = false :=
      (Bool.not_eq_true _).mp fun hw => hs.waitOne hw hp
    simp only [WorkerHandshake.control, hp, Option.some.injEq] at h
    subst h
    exact hs.control_wait hworker (by rw [hp]; rfl) rfl rfl rfl rfl
      (fun ha => ⟨(hs.asked ha).1, rfl⟩) (fun ha => ha) (by simp)
  | setCube | unsetSolver | unsetFlag =>
    have hasked := hrevoking (by rw [hp]; rfl)
    simp only [WorkerHandshake.control, hp, Option.some.injEq] at h
    subst h
    refine hs.moveController rfl rfl rfl (by rw [hp]; rfl) (by simp [hp]) (by simp)
      (fun ha => ?_) hs.exclusive (by simp)
    simp [hasked] at ha
  | signalLock =>
    have hasked := hrevoking (by rw [hp]; rfl)
    simp only [WorkerHandshake.control, hp] at h
    split at h
    case isFalse => exact absurd h (by simp)
    case isTrue hnone =>
      obtain rfl := Option.some.inj h
      rw [hs.interruptLock, owner_eq_none] at hnone
      exact hs.control_signal hnone.1 hasked (by simp [hp]) (by simp) rfl rfl rfl rfl rfl
        rfl (by simp)
  | signal =>
    have hasked := hrevoking (by rw [hp]; rfl)
    have hworker : workerHoldsInterrupt s.worker = false := hs.worker_free (by rw [hp]; rfl)
    have hlock : s.interruptLock = some .controller := by
      rw [hs.interruptLock, hworker, hp]
      rfl
    simp only [WorkerHandshake.control, hp, Option.some.injEq] at h
    subst h
    refine hs.control_signal hworker hasked (by simp [hp]) (by simp) ?_ ?_ hlock rfl rfl
      rfl (by simp)
    · by_cases hw : s.worker = .waiting <;> simp [hw, workerHoldsInterrupt]
    · by_cases hw : s.worker = .waiting <;> simp [hw, workerHoldsWait]
  | signalUnlock =>
    have hasked := hrevoking (by rw [hp]; rfl)
    have hworker : workerHoldsInterrupt s.worker = false := hs.worker_free (by rw [hp]; rfl)
    simp only [WorkerHandshake.control, hp, Option.some.injEq] at h
    subst h
    exact hs.control_signal hworker hasked (by simp [hp]) (by simp) rfl rfl rfl rfl rfl
      rfl (by simp)
  | idle => simp [WorkerHandshake.control, hp] at h

theorem locks_step {s t : State} {a : Action} (hs : LocksInvariant s)
    (h : step s a = some t) : LocksInvariant t := by
  cases a with
  | work => exact locks_work hs h
  | wakeSpuriously =>
    simp only [step] at h
    split at h
    case isTrue hwaiting =>
      obtain rfl := Option.some.inj h
      exact hs.moveWorker .woken (by rw [hwaiting]; rfl) (by rw [hwaiting]; rfl)
    case isFalse => exact absurd h (by simp)
  | call c =>
    simp only [step] at h
    split at h
    case isTrue hidle =>
      obtain rfl := Option.some.inj h
      exact locks_call hs hidle c
    case isFalse => exact absurd h (by simp)
  | control => exact locks_control hs h
  | endRun =>
    obtain rfl := Option.some.inj h
    exact { hs with }

theorem locks_reach {ok : State → Action → Prop} {s : State} (hs : machine.Reach ok s) :
    LocksInvariant s := by
  refine hs.invariant LocksInvariant ?_ (fun _ _ _ _ hinv _ h => locks_step hinv h)
  rintro s rfl
  exact ⟨rfl, by simp [start, workerHoldsInterrupt], rfl,
    by simp [start, workerHoldsWait], by simp [start], by simp [start], by simp [start]⟩

/-! ### The worker stays out -/

/-- While the controlling thread has the solver for itself, the worker is on the
far side of its test of the flag. -/
def StaysOut (s : State) : Prop :=
  Holding s → inGap s.worker = false ∧ workerHoldsWait s.worker = false

theorem holding_asked {s : State} (hs : LocksInvariant s) (h : Holding s) :
    s.asked = true := h.elim hs.exclusive And.left

theorem staysOut_work {s t : State} (hlocks : LocksInvariant s) (hs : StaysOut s)
    (h : work s = some t) : StaysOut t := by
  intro hholding
  have hframe : t.exclusive = s.exclusive ∧ t.asked = s.asked ∧
      t.controller = s.controller := by
    unfold work at h
    split at h
    all_goals
      first
        | (obtain rfl := Option.some.inj h; exact ⟨rfl, rfl, rfl⟩)
        | (split at h <;> simp at h; subst h; exact ⟨rfl, rfl, rfl⟩)
        | simp at h
  have hbefore : Holding s := by
    rw [Holding, hframe.1, hframe.2.1, hframe.2.2] at hholding
    exact hholding
  have hinterrupt := (hlocks.asked (holding_asked hlocks hbefore)).1
  obtain ⟨hgap, hwait⟩ := hs hbefore
  cases hp : s.worker with
  | loop =>
    simp only [work, hp, Option.some.injEq] at h
    subst h
    dsimp only
    split <;> exact ⟨rfl, rfl⟩
  | lockInterrupt =>
    simp only [work, hp] at h
    split at h
    · obtain rfl := Option.some.inj h
      exact ⟨rfl, rfl⟩
    · exact absurd h (by simp)
  | test =>
    -- the flag is still set, so the worker waits
    simp only [work, hp, hinterrupt, Option.some.injEq] at h
    subst h
    exact ⟨rfl, rfl⟩
  | wait | joining =>
    simp only [work, hp, Option.some.injEq] at h
    subst h
    exact ⟨rfl, rfl⟩
  | woken | unlockInterrupt | lockWait => simp [hp, inGap] at hgap
  | solving | unlockWait => simp [hp, workerHoldsWait] at hwait
  | waiting | exited => simp [work, hp] at h

theorem staysOut_control {s t : State} (hlocks : LocksInvariant s) (hs : StaysOut s)
    (hok : Handshake s .control) (h : WorkerHandshake.control s = some t) :
    StaysOut t := by
  intro hholding
  have hrevoking : revoking s.controller = true → ¬ s.exclusive = true := by
    intro hr he
    rw [(hlocks.asked (hlocks.exclusive he)).2] at hr
    cases hr
  cases hp : s.controller with
  | setFlag | setSolver =>
    simp only [WorkerHandshake.control, hp, Option.some.injEq] at h
    subst h
    exact hs (Or.inl (hholding.resolve_right (by simp)))
  | waitLock =>
    obtain ⟨hworker, rfl⟩ := hlocks.control_waitLock hp h
    exact ⟨hok hp (hholding.elim hlocks.exclusive And.left), hworker⟩
  | waitUnlock =>
    simp only [WorkerHandshake.control, hp, Option.some.injEq] at h
    subst h
    have hasked : s.asked = true := hholding.elim id And.left
    exact hs (Or.inr ⟨hasked, hp⟩)
  | setCube | unsetSolver | unsetFlag | signal | signalUnlock =>
    have hnot := hrevoking (by rw [hp]; rfl)
    simp only [WorkerHandshake.control, hp, Option.some.injEq] at h
    subst h
    exact absurd (hholding.resolve_right (by simp)) hnot
  | signalLock =>
    have hnot := hrevoking (by rw [hp]; rfl)
    simp only [WorkerHandshake.control, hp] at h
    split at h
    · obtain rfl := Option.some.inj h
      exact absurd (hholding.resolve_right (by simp)) hnot
    · exact absurd h (by simp)
  | idle => simp [WorkerHandshake.control, hp] at h

theorem staysOut_step {s t : State} {a : Action} (hlocks : LocksInvariant s)
    (hs : StaysOut s) (hok : Handshake s a) (h : step s a = some t) : StaysOut t := by
  cases a with
  | work => exact staysOut_work hlocks hs h
  | wakeSpuriously =>
    simp only [step] at h
    split at h
    · obtain rfl := Option.some.inj h
      exact fun hholding => absurd hholding hok
    · exact absurd h (by simp)
  | call c =>
    simp only [step] at h
    split at h
    · obtain rfl := Option.some.inj h
      intro hholding
      cases c with
      | setInterrupt | waitInterrupt =>
        exact hs (Or.inl (hholding.resolve_right (by simp [call])))
      | unsetInterrupt | solve => simp [Holding, call] at hholding
    · exact absurd h (by simp)
  | control => exact staysOut_control hlocks hs hok h
  | endRun =>
    obtain rfl := Option.some.inj h
    exact hs

theorem staysOut_reach {s : State} (hs : machine.Reach Handshake s) : StaysOut s := by
  refine hs.invariant StaysOut ?_ ?_
  · rintro s rfl
    exact fun _ => ⟨rfl, rfl⟩
  · intro s a t hr hinv hok h
    exact staysOut_step (locks_reach hr) hinv hok h

theorem StaysOut.exclusive {s : State} (hs : StaysOut s) : SolverExclusive s := by
  intro he hp
  have hwait := (hs (Or.inl he)).2
  rw [hp] at hwait
  cases hwait

/-! ### The worker in the gap enters -/

/-- Some continuation that meets the condition breaks the exclusive access. -/
def Enters (s : State) : Prop :=
  ∃ as u, machine.Meets Handshake s as ∧ machine.run s as = some u ∧ ¬ SolverExclusive u

theorem Enters.step {s t : State} {a : Action} (ha : Handshake s a)
    (h : WorkerHandshake.step s a = some t) (ht : Enters t) : Enters s := by
  obtain ⟨as, u, hmeets, hrun, hu⟩ := ht
  refine ⟨a :: as, u, ⟨ha, fun t' ht' => ?_⟩, ?_, hu⟩
  · obtain rfl : t = t' := Option.some.inj (h.symm.trans ht')
    exact hmeets
  · rw [Machine.run_cons]
    exact (congrArg (fun x => x.bind fun t => machine.run t as) h).trans hrun

theorem lockWait_enters {s : State} (he : s.exclusive = true)
    (hfree : s.waitInterruptLock = none) (hp : s.worker = .lockWait) : Enters s := by
  refine Enters.step (t := { s with
    waitInterruptLock := some .worker, worker := .solving }) (a := .work) trivial ?_ ?_
  · simp only [WorkerHandshake.step, work, hp, hfree, if_true]
  · exact ⟨[], _, trivial, rfl, fun h => h he rfl⟩

theorem unlockInterrupt_enters {s : State} (he : s.exclusive = true)
    (hfree : s.waitInterruptLock = none) (hp : s.worker = .unlockInterrupt) :
    Enters s := by
  refine Enters.step (t := { s with interruptLock := none, worker := .lockWait })
    (a := .work) trivial ?_ (lockWait_enters he hfree rfl)
  simp only [WorkerHandshake.step, work, hp]

theorem woken_enters {s : State} (he : s.exclusive = true)
    (hfree : s.waitInterruptLock = none) (hlock : s.interruptLock = none)
    (hp : s.worker = .woken) : Enters s := by
  refine Enters.step (t := { s with
    interruptLock := some .worker, worker := .unlockInterrupt }) (a := .work) trivial ?_
    (unlockInterrupt_enters he hfree rfl)
  simp only [WorkerHandshake.step, work, hp, hlock, if_true]

/-- Once waitInterrupt has let go of its lock, a worker in the gap enters its
solver. -/
theorem exclusive_gap_enters {s : State} (hs : LocksInvariant s)
    (he : s.exclusive = true) (hc : s.controller ≠ .waitUnlock)
    (hgap : inGap s.worker = true) : Enters s := by
  have hwait : workerHoldsWait s.worker = false := by
    cases hp : s.worker <;> simp [hp, inGap, workerHoldsWait] at hgap ⊢
  have hfree : s.waitInterruptLock = none := by
    rw [hs.waitLock, hwait, decide_eq_false hc]
    rfl
  cases hp : s.worker with
  | woken =>
    have hcontroller : controllerHoldsInterrupt s.controller = false := by
      have hr := (hs.asked (hs.exclusive he)).2
      cases hq : s.controller <;> simp [hq, revoking, controllerHoldsInterrupt] at hr ⊢
    have hlock : s.interruptLock = none := by
      rw [hs.interruptLock, hp, hcontroller]
      rfl
    exact woken_enters he hfree hlock hp
  | unlockInterrupt => exact unlockInterrupt_enters he hfree hp
  | lockWait => exact lockWait_enters he hfree hp
  | _ => simp [hp, inGap] at hgap

theorem gap_enters {s : State} (hs : LocksInvariant s) (hholding : Holding s)
    (hgap : inGap s.worker = true) : Enters s := by
  by_cases hc : s.controller = .waitUnlock
  · have hasked := holding_asked hs hholding
    have hstep : WorkerHandshake.step s .control = some { s with
        waitInterruptLock := none, controller := .idle, exclusive := s.asked } := by
      simp only [WorkerHandshake.step, WorkerHandshake.control, hc]
    refine Enters.step (a := .control) ?_ hstep ?_
    · exact fun hf => by simp [hc] at hf
    · exact exclusive_gap_enters (locks_step hs hstep) hasked (by simp) hgap
  · have he : s.exclusive = true := hholding.resolve_right fun h => hc h.2
    exact exclusive_gap_enters hs he hc hgap

theorem broken_enters {s t : State} {a : Action} (hs : LocksInvariant s)
    (hbad : ¬ Handshake s a) (h : step s a = some t) : Enters t := by
  have ht := locks_step hs h
  cases a with
  | control =>
    simp only [Handshake, not_forall, Bool.not_eq_false] at hbad
    obtain ⟨hc, hasked, hgap⟩ := hbad
    simp only [step, WorkerHandshake.control, hc] at h
    split at h
    · obtain rfl := Option.some.inj h
      exact gap_enters ht (Or.inr ⟨hasked, rfl⟩) hgap
    · exact absurd h (by simp)
  | wakeSpuriously =>
    simp only [Handshake, not_not] at hbad
    simp only [step] at h
    split at h
    · obtain rfl := Option.some.inj h
      exact gap_enters ht hbad rfl
    · exact absurd h (by simp)
  | _ => exact absurd trivial hbad

/-- In a run that meets the condition the worker is never in its solver between
the return of waitInterrupt and the next unsetInterrupt or solve. A step meets
the condition exactly if this stays so in every continuation that does. -/
theorem exclusive_access_iff (s t : State) (a : Action)
    (hs : machine.Reach Handshake s) (h : step s a = some t) :
    SolverExclusive s ∧
    (Handshake s a ↔ ∀ as u, machine.Meets Handshake t as → machine.run t as = some u →
      SolverExclusive u) := by
  refine ⟨(staysOut_reach hs).exclusive, ?_, ?_⟩
  · intro hok as u hmeets hrun
    have ht : machine.Reach Handshake t := hs.step hok h
    exact (staysOut_reach (ht.run as hmeets hrun)).exclusive
  · intro hall
    by_contra hbad
    obtain ⟨as, u, hmeets, hrun, hu⟩ := broken_enters (locks_reach hs) hbad h
    exact hu (hall as u hmeets hrun)

/-- The worker is launched on a cube and interrupted while it solves. It leaves
the solver and waits on interruptCond before waitInterrupt is called. -/
def launched : List Action :=
  [.work, .work, .work, .work, .call (.solve [5]), .control, .control, .control, .control,
    .control, .control, .work, .work, .work, .call .setInterrupt, .control, .control,
    .work, .work, .work, .work, .work, .work, .work, .call .waitInterrupt, .control,
    .control]

/-- waitInterrupt has returned and the worker is parked. -/
def interrupted : State := (machine.run start launched).get (by decide)

theorem interrupted_reach : machine.Reach Handshake interrupted :=
  (Machine.Reach.init rfl).run launched (by decide) rfl

theorem exclusive_access_interrupted :
    interrupted.exclusive = true ∧ interrupted.worker = .waiting ∧
      interrupted.worker ≠ .solving := by
  have hexclusive : interrupted.exclusive = true := by decide
  exact ⟨hexclusive, by decide,
    (exclusive_access_iff interrupted _ .endRun interrupted_reach rfl).1 hexclusive⟩

/-- The worker reads the flag before it is set again. -/
def race : List Action :=
  [.call (.solve []), .control, .control, .control, .control, .control, .control, .work,
    .work, .work, .call .setInterrupt, .control, .control, .call .waitInterrupt, .control,
    .control, .work, .work]

/-- After setInterrupt and waitInterrupt have returned, a worker that read the
flag before they were called is in its solver. -/
theorem wait_returns_too_early :
    ∃ s, machine.Reach (fun _ _ => True) s ∧ s.exclusive = true ∧ s.worker = .solving := by
  refine ⟨(machine.run start race).get (by decide), ?_, by decide, by decide⟩
  exact (Machine.Reach.init rfl).run race (by decide) (Option.some_get (by decide)).symm

end Painless.ExclusiveAccess
