import Painless.DivisionInterrupts
import Painless.DivisionThreads

/-!
A worker that comes back with UNKNOWN takes the idle slave at the head of
oversSplitting. While the strategy is not ending, only the master's interrupt
can make a solver answer UNKNOWN, and the master reserves an idle slave first.
The winner, however, interrupts every slave before it sets globalEnding. A
running worker that it stops and that tests globalEnding in between goes on to
split without a partner; the runs without such a test have none of these.
-/
namespace Painless.DivisionPartner

open DivideAndConquer DivisionInterrupts DivisionLists DivisionThreads
open SolverInterface Transitions

variable {W : Type*}

/-- A thread from the start of solver->solve to the section of join. -/
def working : Pc → Bool
  | .solving => true
  | .returned _ _ => true
  | .calling _ _ => true
  | _ => false

/-- The solver has answered UNKNOWN. -/
def stopped : Pc → Bool
  | .returned .unknown _ => true
  | _ => false

/-- The thread is about to split. -/
def splitting : Pc → Bool
  | .calling .unknown _ => true
  | _ => false

/-- The thread is the winner, interrupting the slaves. -/
def winning : Pc → Bool
  | .interrupting _ _ _ => true
  | _ => false

/-- A worker about to split was asked to, and an idle slave is reserved. -/
def HasPartner (s : Threads W) : Prop :=
  ∀ w, splitting (s.pc w) = true →
    w ∈ s.strategy.workersSplitting ∧ s.strategy.oversSplitting ≠ []

/-- Between strategyEnding and globalEnding, no worker that the master has not
asked to split passes the test of SequentialWorker::join with UNKNOWN. -/
def StopsInTime (s : Threads W) : DivisionThreads.Action W → Prop
  | .worker w => stopped (s.pc w) = true → s.strategyEnding = true →
      s.globalEnding = false → w ∉ s.strategy.workers
  | _ => True

structure ThreadsInvariant (cfg : Config W) (s : Threads W) : Prop where
  lists : ListsInvariant cfg s.strategy.toSlaveLists
  owned : SolversOwned s.strategy
  idle : IdleInterrupted s.strategy
  clear : s.strategyEnding = false → s.globalEnding = false → WorkersClear s.strategy
  active : ∀ w, working (s.pc w) = true → Active s.strategy w
  asked : ∀ w, stopped (s.pc w) = true →
    w ∈ s.strategy.workersSplitting ∨ s.strategyEnding = true ∨ s.globalEnding = true
  split : ∀ w, splitting (s.pc w) = true → w ∈ s.strategy.workersSplitting
  winner : ∀ w, winning (s.pc w) = true → s.strategyEnding = true
  expired : s.timeout ≠ none → s.globalEnding = true

theorem ThreadsInvariant.hasPartner {cfg : Config W} {s : Threads W}
    (hs : ThreadsInvariant cfg s) : HasPartner s :=
  fun w hw => ⟨hs.split w hw, hs.lists.oversSplitting_ne_nil (hs.split w hw)⟩

/-- The master's steps that leave the lists alone. -/
theorem ThreadsInvariant.setMaster {cfg : Config W} {s : Threads W}
    (hs : ThreadsInvariant cfg s) (master : MasterPc) :
    ThreadsInvariant cfg { s with master := master } :=
  { hs with }

variable [DecidableEq W] {cfg : Config W}

/-! ### The three kinds of steps -/

/-- A step that moves one thread and leaves the strategy alone. -/
theorem ThreadsInvariant.goto {s t : Threads W} (hs : ThreadsInvariant cfg s) (w : W)
    (p : Pc) (hstrategy : t.strategy = s.strategy)
    (hpc : t.pc = Function.update s.pc w p) (htimeout : t.timeout = s.timeout)
    (hending : s.strategyEnding = true → t.strategyEnding = true)
    (hglobal : s.globalEnding = true → t.globalEnding = true)
    (hactive : working p = true → Active s.strategy w)
    (hasked : stopped p = true → w ∈ s.strategy.workersSplitting ∨
      t.strategyEnding = true ∨ t.globalEnding = true)
    (hsplit : splitting p = true → w ∈ s.strategy.workersSplitting)
    (hwinner : winning p = true → t.strategyEnding = true) :
    ThreadsInvariant cfg t := by
  refine ⟨hstrategy ▸ hs.lists, hstrategy ▸ hs.owned, hstrategy ▸ hs.idle,
    ?_, ?_, ?_, ?_, ?_, ?_⟩
  · intro he hg
    rw [hstrategy]
    refine hs.clear ?_ ?_
    · exact Bool.eq_false_of_not_eq_true fun h => by simp [hending h] at he
    · exact Bool.eq_false_of_not_eq_true fun h => by simp [hglobal h] at hg
  · rw [hpc, hstrategy]
    exact forall_goto (P := fun v q => working q = true → Active s.strategy v) hs.active hactive
  · rw [hpc, hstrategy]
    exact forall_goto (P := fun v q => stopped q = true → v ∈ s.strategy.workersSplitting ∨
        t.strategyEnding = true ∨ t.globalEnding = true)
      (fun v hv => (hs.asked v hv).imp_right (Or.imp hending hglobal)) hasked
  · rw [hpc, hstrategy]
    exact forall_goto (P := fun v q => splitting q = true → v ∈ s.strategy.workersSplitting)
      hs.split hsplit
  · rw [hpc]
    exact forall_goto (P := fun _ q => winning q = true → t.strategyEnding = true)
      (fun v hv => hending (hs.winner v hv)) hwinner
  · rw [htimeout]
    exact fun h => hglobal (hs.expired h)

theorem stopped_eq_false {p : Pc} (hp : working p = false) : stopped p = false := by
  cases p <;> simp [stopped, working] at hp ⊢

theorem splitting_eq_false {p : Pc} (hp : working p = false) : splitting p = false := by
  cases p <;> simp [splitting, working] at hp ⊢

/-- The thread moves to a place outside solving and joining. -/
theorem ThreadsInvariant.leave {s t : Threads W} (hs : ThreadsInvariant cfg s) (w : W)
    (p : Pc) (hp : working p = false) (hstrategy : t.strategy = s.strategy)
    (hpc : t.pc = Function.update s.pc w p) (htimeout : t.timeout = s.timeout)
    (hending : s.strategyEnding = true → t.strategyEnding = true)
    (hglobal : s.globalEnding = true → t.globalEnding = true)
    (hwinner : winning p = true → t.strategyEnding = true) :
    ThreadsInvariant cfg t := by
  refine hs.goto w p hstrategy hpc htimeout hending hglobal ?_ ?_ ?_ hwinner
  · simp [hp]
  · simp [stopped_eq_false hp]
  · simp [splitting_eq_false hp]

/-- A slave is interrupted by the winner or after the timeout. -/
theorem ThreadsInvariant.interrupt {s : Threads W} (hs : ThreadsInvariant cfg s) (v : W)
    (hending : s.strategyEnding = true ∨ s.globalEnding = true) :
    ThreadsInvariant cfg { s with strategy := s.strategy.setInterrupt v } := by
  refine { hs with
    owned := owned_setInterrupt hs.owned v
    idle := idle_setInterrupt hs.idle v
    clear := ?_ }
  intro he hg
  rw [he, hg] at hending
  simp at hending

/-- A critical section on the lists. Its caller leaves join, an idle slave made
active may start to solve, and the other threads stay where they are. -/
theorem ThreadsInvariant.section {s t : Threads W} (hs : ThreadsInvariant cfg s)
    (a : DivideAndConquer.Action W) (hreports : Reports s.strategy a)
    (h : DivideAndConquer.step cfg s.strategy a = some t.strategy)
    (hending : t.strategyEnding = s.strategyEnding)
    (hglobal : t.globalEnding = s.globalEnding) (htimeout : t.timeout = s.timeout)
    (hpc : ∀ v, (t.pc v = s.pc v ∧ a.current ≠ some v) ∨
      (t.pc v = .solving ∧ Active t.strategy v) ∨
      (working (t.pc v) = false ∧ winning (t.pc v) = false)) :
    ThreadsInvariant cfg t := by
  have hstay := fun v hv => others_stay (w := v) hs.lists hreports h hv
  refine ⟨invariant_step hs.lists hreports h, owned_step hs.owned h,
    idle_step hs.lists hs.idle hreports h, ?_, ?_, ?_, ?_, ?_, ?_⟩
  · intro he hg
    exact clear_step hs.lists hs.owned (hs.clear (hending ▸ he) (hglobal ▸ hg)) hreports h
  · intro v hv
    rcases hpc v with ⟨hold, hne⟩ | ⟨-, hactive⟩ | ⟨hp, -⟩
    · exact (hstay v hne).1 (hs.active v (hold ▸ hv))
    · exact hactive
    · simp [hp] at hv
  · intro v hv
    rw [hending, hglobal]
    rcases hpc v with ⟨hold, hne⟩ | ⟨hp, -⟩ | ⟨hp, -⟩
    · exact (hs.asked v (hold ▸ hv)).imp_left (hstay v hne).2
    · simp [hp, stopped] at hv
    · simp [stopped_eq_false hp] at hv
  · intro v hv
    rcases hpc v with ⟨hold, hne⟩ | ⟨hp, -⟩ | ⟨hp, -⟩
    · exact (hstay v hne).2 (hs.split v (hold ▸ hv))
    · simp [hp, splitting] at hv
    · simp [splitting_eq_false hp] at hv
  · intro v hv
    rw [hending]
    rcases hpc v with ⟨hold, -⟩ | ⟨hp, -⟩ | ⟨-, hp⟩
    · exact hs.winner v (hold ▸ hv)
    · simp [hp, winning] at hv
    · simp [hp] at hv
  · rw [htimeout, hglobal]
    exact hs.expired

/-! ### One step -/

theorem invariant_start {s : Threads W} (h : (DivisionThreads.machine cfg).Init s) :
    ThreadsInvariant cfg s := by
  obtain ⟨strategy, hstart, rfl⟩ := h
  refine ⟨invariant_startUp hstart, owned_startUp hstart, idle_startUp hstart,
    fun _ _ => clear_startUp hstart, ?_, ?_, ?_, ?_, fun hne => absurd rfl hne⟩
  all_goals
    intro w hw
    cases hw

/-- join(UNSAT): the thread closes its cube. -/
theorem invariant_close {s : Threads W} {w : W} {strategy : State W} {p : Pc}
    (hs : ThreadsInvariant cfg s) (hw : working (s.pc w) = true)
    (h : joinUnsat cfg s.strategy w = some strategy) (hp : working p = false)
    (hwinning : winning p = false) :
    ThreadsInvariant cfg (Threads.goto { s with strategy := strategy } w p) := by
  refine hs.section (.joinUnsat w) (hs.active w hw) h rfl rfl rfl fun v => ?_
  by_cases hv : v = w
  · right; right
    simp only [Threads.goto, hv, Function.update_self, hp, hwinning, and_self]
  · left
    exact ⟨Function.update_of_ne hv _ _, fun heq => hv (Option.some.inj heq).symm⟩

theorem invariant_worker {s t : Threads W} {w : W} (hs : ThreadsInvariant cfg s)
    (hok : StopsInTime s (.worker w)) (h : stepWorker cfg s w = some t) :
    ThreadsInvariant cfg t := by
  cases hp : s.pc w with
  | top =>
    simp only [stepWorker, hp, Option.some.injEq] at h
    subst h
    refine hs.leave w _ ?_ rfl rfl rfl id id ?_ <;> split <;> simp [working, winning]
  | ready =>
    simp only [stepWorker, hp, Option.some.injEq] at h
    subst h
    cases hflag : s.strategy.interrupt w with
    | true => exact hs.leave w .blocked rfl rfl rfl rfl id id (fun hf => by cases hf)
    | false =>
      -- a slave that is not active would be interrupted
      have hactive : Active s.strategy w := by
        by_contra hidle
        rw [hs.idle w hidle] at hflag
        exact absurd hflag (by simp)
      refine hs.goto w .solving rfl rfl rfl id id (fun _ => hactive) ?_ ?_ ?_
      all_goals exact fun hf => by cases hf
  | blocked => simp [stepWorker, hp] at h
  | solving => simp [stepWorker, hp] at h
  | done => simp [stepWorker, hp] at h
  | returned res model =>
    simp only [stepWorker, hp, Option.some.injEq] at h
    subst h
    cases hglobal : s.globalEnding with
    | true => exact hs.leave w .top rfl rfl rfl rfl id id (fun hf => by cases hf)
    | false =>
      have hactive : Active s.strategy w := hs.active w (by rw [hp]; rfl)
      refine hs.goto w (.calling res model) rfl rfl rfl id id (fun _ => hactive)
        (fun hf => by cases hf) ?_ (fun hf => by cases hf)
      intro hsplit
      have hstopped : stopped (s.pc w) = true := by
        rw [hp]
        cases res
        · cases hsplit
        · cases hsplit
        · rfl
      rcases hs.asked w hstopped with hasked | hending | hending
      · exact hasked
      · exact hactive.resolve_left (hok hstopped hending hglobal)
      · rw [hglobal] at hending
        cases hending
  | calling res model =>
    have hworking : working (s.pc w) = true := by rw [hp]; rfl
    cases res with
    | sat =>
      simp only [stepWorker, hp, Option.some.injEq] at h
      subst h
      exact hs.leave w _ rfl rfl rfl rfl id id (fun hf => by cases hf)
    | unsat =>
      simp only [stepWorker, hp] at h
      obtain ⟨strategy, hjoin, rfl⟩ := Option.map_eq_some_iff.mp h
      exact invariant_close hs hworking hjoin (by split <;> rfl) (by split <;> rfl)
    | unknown => simp [stepWorker, hp] at h
  | finishing res model =>
    simp only [stepWorker, hp] at h
    split at h
    · exact absurd h (by simp)
    · split at h
      · obtain rfl := Option.some.inj h
        exact hs.leave w _ rfl rfl rfl rfl id id (fun hf => by cases hf)
      · obtain rfl := Option.some.inj h
        exact hs.leave w _ rfl rfl rfl rfl (fun _ => rfl) id (fun _ => rfl)
  | interrupting i res model =>
    have hending : s.strategyEnding = true := hs.winner w (by rw [hp]; rfl)
    simp only [stepWorker, hp] at h
    split at h
    · obtain rfl := Option.some.inj h
      exact (hs.interrupt _ (Or.inl hending)).leave w _ rfl rfl rfl rfl id id
        (fun _ => hending)
    · obtain rfl := Option.some.inj h
      exact hs.leave w _ rfl rfl rfl rfl id id (fun hf => by cases hf)
  | publishing res model =>
    simp only [stepWorker, hp, Option.some.injEq] at h
    subst h
    exact hs.leave w _ rfl rfl rfl rfl id (fun _ => rfl) (fun hf => by cases hf)
  | storing res model =>
    simp only [stepWorker, hp, Option.some.injEq] at h
    subst h
    exact hs.leave w _ rfl rfl rfl rfl id id (fun hf => by cases hf)

theorem invariant_answer {s t : Threads W} {w : W} {res : SatResult} {model : List ℤ}
    (hs : ThreadsInvariant cfg s) (h : answer s w res model = some t) :
    ThreadsInvariant cfg t := by
  unfold answer at h
  split at h
  case h_2 => exact absurd h (by simp)
  case h_1 x hp hsolver =>
    have hactive : Active s.strategy w := hs.active w (by rw [hp]; rfl)
    split at h
    case isTrue => exact absurd h (by simp)
    case isFalse hflag =>
      obtain rfl := Option.some.inj h
      refine hs.goto w _ rfl rfl rfl id id (fun _ => hactive) ?_
        (fun hf => by cases hf) (fun hf => by cases hf)
      intro hstopped
      have hunknown : res = .unknown := by
        cases res
        · cases hstopped
        · cases hstopped
        · rfl
      by_cases hending : s.strategyEnding = true ∨ s.globalEnding = true
      · exact Or.inr hending
      · -- nothing has interrupted a running worker yet
        simp only [not_or, Bool.not_eq_true] at hending
        refine Or.inl (hactive.resolve_left fun hmem => hflag ⟨hunknown, ?_⟩)
        exact hs.clear hending.1 hending.2 w hmem x hsolver

/-- join(UNKNOWN): the worker and the idle slave at the head go on. -/
theorem invariant_split {s t : Threads W} {w : W} {var : ℤ}
    (hs : ThreadsInvariant cfg s) (h : split cfg s w var = some t) :
    ThreadsInvariant cfg t := by
  obtain ⟨model, overSlave, rest, hp, hovers, hjoin, hending, hglobal, htimeout, hpc⟩ :=
    split_spec h
  have hw : w ∈ s.strategy.workersSplitting := hs.split w (by rw [hp]; rfl)
  have hactive : Active t.strategy overSlave := by
    obtain ⟨overSlave', rest', hovers', hl, -, -⟩ := joinUnknown_spec hjoin
    rw [hovers] at hovers'
    obtain ⟨rfl, -⟩ := List.cons.inj hovers'
    exact Or.inl (by simp [hl])
  refine hs.section (.joinUnknown w var) hw hjoin hending hglobal htimeout fun v => ?_
  rcases hpc v with ⟨hsame, hne⟩ | ⟨-, htop⟩ | ⟨rfl, hsolving⟩
  · exact Or.inl ⟨hsame, fun heq => hne (Option.some.inj heq).symm⟩
  · right; right
    simp only [htop, working, winning, and_self]
  · exact Or.inr (Or.inl ⟨hsolving, hactive⟩)

theorem invariant_master {s t : Threads W} {a : DivisionThreads.Action W}
    (hs : ThreadsInvariant cfg s) (h : stepMaster s a = some t) :
    ThreadsInvariant cfg t := by
  rcases stepMaster_cases h with ⟨strategy, -, hhand, rfl⟩ | ⟨master, rfl⟩
  · exact hs.section .handOver trivial hhand rfl rfl rfl
      (fun v => Or.inl ⟨rfl, by simp [DivideAndConquer.Action.current]⟩)
  · exact hs.setMaster master

theorem invariant_expire {s t : Threads W} (hs : ThreadsInvariant cfg s)
    (h : stepTimeout cfg s .expire = some t) : ThreadsInvariant cfg t := by
  simp only [stepTimeout] at h
  split at h
  · obtain rfl := Option.some.inj h
    exact { hs with
      clear := fun _ hg => absurd hg (by simp)
      asked := fun w _ => Or.inr (Or.inr rfl)
      expired := fun _ => rfl }
  · exact absurd h (by simp)

theorem invariant_expireInterrupt {s t : Threads W} (hs : ThreadsInvariant cfg s)
    (h : stepTimeout cfg s .expireInterrupt = some t) : ThreadsInvariant cfg t := by
  simp only [stepTimeout] at h
  split at h
  case h_1 i htimeout =>
    obtain ⟨v, -, rfl⟩ := Option.map_eq_some_iff.mp h
    have hglobal : s.globalEnding = true := hs.expired (by rw [htimeout]; simp)
    have hstep := hs.interrupt v (Or.inr hglobal)
    exact { hstep with expired := fun _ => hglobal }
  case h_2 => exact absurd h (by simp)

theorem invariant_threadStep {s t : Threads W} {a : DivisionThreads.Action W}
    (hs : ThreadsInvariant cfg s) (hok : StopsInTime s a)
    (h : DivisionThreads.step cfg s a = some t) : ThreadsInvariant cfg t := by
  cases a with
  | masterTest | masterHandOver | masterSleep | masterLeave =>
    simp only [DivisionThreads.step] at h
    exact invariant_master hs h
  | worker w => exact invariant_worker hs hok h
  | answer w res model => exact invariant_answer hs h
  | split w var => exact invariant_split hs h
  | expire => exact invariant_expire hs h
  | expireInterrupt => exact invariant_expireInterrupt hs h

/-! ### Every run -/

theorem invariant_threads {s : Threads W}
    (hs : (DivisionThreads.machine cfg).Reach StopsInTime s) : ThreadsInvariant cfg s :=
  hs.invariant (ThreadsInvariant cfg) (fun _ h => invariant_start h)
    (fun _ _ _ _ hinv hok h => invariant_threadStep hinv hok h)

/-- A running worker that is stopped by the winner and passes the test splits
without a partner. -/
theorem not_hasPartner {s t : Threads W} {a : DivisionThreads.Action W}
    (hs : ThreadsInvariant cfg s) (h : DivisionThreads.step cfg s a = some t)
    (hbad : ¬ StopsInTime s a) : ¬ HasPartner t := by
  cases a with
  | worker w =>
    simp only [StopsInTime, not_forall, not_not] at hbad
    obtain ⟨hstopped, -, hglobal, hmem⟩ := hbad
    cases hp : s.pc w with
    | returned res model =>
      cases res with
      | unknown =>
        simp only [DivisionThreads.step, stepWorker, hp, hglobal, Option.some.injEq] at h
        subst h
        intro hpartner
        have hsplitting := (hpartner w (by simp [Threads.goto, splitting])).1
        obtain ⟨-, -, -, -, hdisjoint, -, -⟩ := hs.lists.nodup_lists
        exact hdisjoint hmem hsplitting
      | sat => simp [hp, stopped] at hstopped
      | unsat => simp [hp, stopped] at hstopped
    | _ => simp [hp, stopped] at hstopped
  | _ => exact absurd trivial hbad

/-- In a run in which no running worker passes the test of globalEnding with
UNKNOWN between the winner's strategyEnding and globalEnding, every worker
about to split has been asked to and has a partner; a step of the other kind
ends without one. -/
theorem split_has_partner_iff (cfg : Config W) (s t : Threads W)
    (a : DivisionThreads.Action W) (hs : (DivisionThreads.machine cfg).Reach StopsInTime s)
    (h : DivisionThreads.step cfg s a = some t) :
    HasPartner s ∧ (HasPartner t ↔ StopsInTime s a) := by
  have hinv := invariant_threads hs
  refine ⟨hinv.hasPartner, ?_, ?_⟩
  · intro hpartner
    by_contra hbad
    exact not_hasPartner hinv h hbad hpartner
  · intro hok
    exact (invariant_threadStep hinv hok h).hasPartner

/-- The first slave splits; both halves are being solved. -/
def splitRun : List (DivisionThreads.Action (Fin 2)) :=
  [.worker 0, .worker 0, .masterTest, .masterHandOver, .answer 0 .unknown [], .worker 0,
    .split 0 5, .worker 0, .worker 0, .worker 1, .worker 1]

/-- The first slave then answers SAT and interrupts both slaves. -/
def winnerRun : List (DivisionThreads.Action (Fin 2)) :=
  [.answer 0 .sat [5], .worker 0, .worker 0, .worker 0, .worker 0, .worker 0]

def splitStart : Threads (Fin 2) := ((startUp twoSlaves).map start).get (by decide)

/-- The first slave's solver has answered UNKNOWN. -/
def splitAnswered : Threads (Fin 2) :=
  ((DivisionThreads.machine twoSlaves).run splitStart (splitRun.take 5)).get (by decide)

/-- The first slave is about to split. -/
def aboutToSplit : Threads (Fin 2) :=
  ((DivisionThreads.machine twoSlaves).run splitStart (splitRun.take 6)).get (by decide)

def bothSolving : Threads (Fin 2) :=
  ((DivisionThreads.machine twoSlaves).run splitStart splitRun).get (by decide)

def winnerInterrupts : Threads (Fin 2) :=
  ((DivisionThreads.machine twoSlaves).run bothSolving
    (winnerRun ++ [.answer 1 .unknown [], .worker 1])).get (by decide)

instance (s : Threads (Fin 2)) : ∀ a, Decidable (StopsInTime s a)
  | .worker _ => inferInstanceAs (Decidable (_ → _ → _ → _))
  | .masterTest | .masterHandOver | .masterSleep | .masterLeave | .answer _ _ _
  | .split _ _ | .expire | .expireInterrupt => inferInstanceAs (Decidable True)

theorem splitStart_init : (DivisionThreads.machine twoSlaves).Init splitStart :=
  ⟨(startUp twoSlaves).get (by decide), (Option.some_get _).symm, rfl⟩

theorem splitAnswered_reach :
    (DivisionThreads.machine twoSlaves).Reach StopsInTime splitAnswered :=
  (Machine.Reach.init splitStart_init).run (splitRun.take 5) (by decide) rfl

theorem bothSolving_reach :
    (DivisionThreads.machine twoSlaves).Reach StopsInTime bothSolving :=
  (Machine.Reach.init splitStart_init).run splitRun (by decide) rfl

theorem split_has_partner_about_to_split :
    aboutToSplit.pc 0 = .calling .unknown [] ∧ HasPartner aboutToSplit :=
  ⟨by decide, (split_has_partner_iff twoSlaves splitAnswered aboutToSplit (.worker 0)
    splitAnswered_reach rfl).2.mpr (by decide)⟩

/-- The second slave, stopped by the winner, is about to split with nobody. -/
theorem winner_leaves_no_partner :
    (DivisionThreads.machine twoSlaves).Reach (fun _ _ => True) winnerInterrupts ∧
      winnerInterrupts.pc 1 = .calling .unknown [] ∧
      winnerInterrupts.strategy.oversSplitting = [] ∧ ¬ HasPartner winnerInterrupts := by
  have hreach : (DivisionThreads.machine twoSlaves).Reach (fun _ _ => True) bothSolving :=
    bothSolving_reach.mono fun _ _ _ => trivial
  refine ⟨hreach.run _ ?_ (Option.some_get (by decide)).symm, by decide, by decide, ?_⟩
  · decide
  · intro h
    exact (h 1 (by decide)).2 (by decide)

end Painless.DivisionPartner
