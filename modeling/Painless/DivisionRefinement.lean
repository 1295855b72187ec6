import Painless.DivisionCover
import Painless.DivisionPartner

/-!
Until the strategy ends, the threads refine the critical sections: each step of
a thread is one critical section or leaves the strategy unchanged, an answer
reaches the section it was meant for, and so the results about the critical
sections hold for the threads.
-/
namespace Painless.DivisionRefinement

open Cnf DivideAndConquer DivisionCover DivisionLists DivisionPartner DivisionThreads
open SearchCover SolverInterface Transitions

variable {W : Type*} {F : Formula ℕ}

/-- No model of the formula satisfies the cube the worker solves under. -/
def Refutes (F : Formula ℕ) (s : State W) (w : W) : Prop :=
  ∀ σ, FormulaHolds σ F → ¬ CubeHolds σ (ofInts (s.given w))

/-- The thread brings an UNSAT answer to join. -/
def refuting : Pc → Bool
  | .returned .unsat _ => true
  | .calling .unsat _ => true
  | _ => false

/-- What the solvers promise: UNSAT is right, and a division literal is not 0. -/
def SoundAnswer (F : Formula ℕ) (s : Threads W) : DivisionThreads.Action W → Prop
  | .answer w res _ => res = .unsat → Refutes F s.strategy w
  | .split _ var => var ≠ 0
  | _ => True

/-- The UNSAT answers on their way to join are right. -/
def AnswersSound (F : Formula ℕ) (s : Threads W) : Prop :=
  ∀ w, refuting (s.pc w) = true → Refutes F s.strategy w

/-- The critical section a thread's step is, if any. -/
inductive Section (s : Threads W) :
    DivisionThreads.Action W → DivideAndConquer.Action W → Prop
  | handOver : Section s .masterHandOver .handOver
  | joinUnknown (w : W) (var : ℤ) (hw : splitting (s.pc w) = true) :
      Section s (.split w var) (.joinUnknown w var)
  | joinUnsat (w : W) (hw : refuting (s.pc w) = true) :
      Section s (.worker w) (.joinUnsat w)

theorem working_of_refuting {p : Pc} (h : refuting p = true) : working p = true := by
  cases p <;> simp [refuting, working] at h ⊢

/-- The section of a step meets what the abstract machine asks of it. -/
theorem Section.answers {cfg : Config W} {s : Threads W} {a : DivisionThreads.Action W}
    {b : DivideAndConquer.Action W} (hb : Section s a b) (hs : ThreadsInvariant cfg s)
    (hsound : AnswersSound F s) (ha : SoundAnswer F s a) : Answers F s.strategy b := by
  cases hb with
  | handOver => trivial
  | joinUnknown w var hw => exact ⟨hs.split w hw, ha⟩
  | joinUnsat w hw => exact ⟨hs.active w (working_of_refuting hw), hsound w hw⟩

variable [DecidableEq W] {cfg : Config W}

/-- The step has a sound answer and neither ending flag is set after it. -/
def BeforeEnding (cfg : Config W) (F : Formula ℕ) (s : Threads W)
    (a : DivisionThreads.Action W) : Prop :=
  SoundAnswer F s a ∧ ∀ t, DivisionThreads.step cfg s a = some t →
    t.strategyEnding = false ∧ t.globalEnding = false

section
variable {s : Threads W}
  (hs : (DivisionThreads.machine cfg).Reach (BeforeEnding cfg F) s)
include hs

theorem not_ending : s.strategyEnding = false ∧ s.globalEnding = false := by
  cases hs with
  | init h =>
    obtain ⟨strategy, -, rfl⟩ := h
    exact ⟨rfl, rfl⟩
  | step _ hok h => exact hok.2 _ h

theorem threads_before_ending : ThreadsInvariant cfg s := by
  induction hs with
  | init h => exact invariant_start h
  | @step s t a hr hok h ih =>
    refine invariant_threadStep ih ?_ h
    cases a with
    | worker w =>
      intro _ hending
      rw [(not_ending hr).1] at hending
      cases hending
    | _ => trivial

end

/-- A thread that only moves brings no UNSAT answer of another origin. -/
theorem refuting_goto {pc : W → Pc} {w : W} {p : Pc}
    (hp : refuting p = true → refuting (pc w) = true) (v : W)
    (hv : refuting (Function.update pc w p v) = true) : refuting (pc v) = true :=
  forall_goto (P := fun v q => refuting q = true → refuting (pc v) = true)
    (fun _ h => h) hp v hv

theorem worker_section {s t : Threads W} {w : W} (hs : ThreadsInvariant cfg s)
    (hending : s.strategyEnding = false) (h : stepWorker cfg s w = some t) :
    (∃ b, Section s (.worker w) b ∧
      DivideAndConquer.step cfg s.strategy b = some t.strategy ∧
      ∀ v, refuting (t.pc v) = true → refuting (s.pc v) = true ∧ b.current ≠ some v) ∨
    (t.strategy = s.strategy ∧
      ∀ v, refuting (t.pc v) = true → refuting (s.pc v) = true) := by
  cases hp : s.pc w with
  | calling res model =>
    cases res with
    | unsat =>
      simp only [stepWorker, hp] at h
      obtain ⟨strategy, hjoin, rfl⟩ := Option.map_eq_some_iff.mp h
      refine Or.inl ⟨.joinUnsat w, .joinUnsat w (by rw [hp]; rfl), hjoin, fun v hv => ?_⟩
      have hne : v ≠ w := by
        rintro rfl
        simp only [Threads.goto, Function.update_self] at hv
        split at hv <;> cases hv
      rw [Threads.goto_pc, Function.update_of_ne hne] at hv
      exact ⟨hv, fun heq => hne (Option.some.inj heq).symm⟩
    | sat =>
      simp only [stepWorker, hp, Option.some.injEq] at h
      subst h
      exact Or.inr ⟨rfl, refuting_goto (fun hf => by cases hf)⟩
    | unknown => simp [stepWorker, hp] at h
  | returned res model =>
    simp only [stepWorker, hp, Option.some.injEq] at h
    subst h
    refine Or.inr ⟨rfl, refuting_goto fun hf => ?_⟩
    split at hf
    · cases hf
    · rw [hp]
      cases res
      · cases hf
      · rfl
      · cases hf
  | interrupting i res model =>
    have hwinner := hs.winner w (by rw [hp]; rfl)
    rw [hending] at hwinner
    cases hwinner
  | finishing res model =>
    simp only [stepWorker, hp] at h
    split at h
    · exact absurd h (by simp)
    · split at h
      all_goals
        obtain rfl := Option.some.inj h
        exact Or.inr ⟨rfl, refuting_goto (fun hf => by cases hf)⟩
  | top | ready | publishing | storing =>
    simp only [stepWorker, hp, Option.some.injEq] at h
    subst h
    refine Or.inr ⟨rfl, refuting_goto fun hf => ?_⟩
    first
      | cases hf
      | split at hf <;> cases hf
  | blocked | solving | done => simp [stepWorker, hp] at h

/-- Before the ending a step is a critical section or keeps the strategy. A
thread brings UNSAT to join only with its solver's answer. -/
theorem step_section {s t : Threads W} {a : DivisionThreads.Action W}
    (hs : ThreadsInvariant cfg s) (hending : s.strategyEnding = false)
    (hglobal : s.globalEnding = false) (h : DivisionThreads.step cfg s a = some t) :
    (∃ b, Section s a b ∧ DivideAndConquer.step cfg s.strategy b = some t.strategy ∧
      ∀ v, refuting (t.pc v) = true → refuting (s.pc v) = true ∧ b.current ≠ some v) ∨
    (t.strategy = s.strategy ∧ ∀ v, refuting (t.pc v) = true →
      refuting (s.pc v) = true ∨ ∃ model, a = .answer v .unsat model) := by
  cases a with
  | masterTest | masterHandOver | masterSleep | masterLeave =>
    simp only [DivisionThreads.step] at h
    rcases stepMaster_cases h with ⟨strategy, ha, hhand, rfl⟩ | ⟨master, rfl⟩
    · rw [ha]
      exact Or.inl ⟨.handOver, .handOver, hhand,
        fun v hv => ⟨hv, by simp [DivideAndConquer.Action.current]⟩⟩
    · exact Or.inr ⟨rfl, fun v hv => Or.inl hv⟩
  | worker w =>
    exact (worker_section hs hending h).imp_right
      (And.imp_right fun hkept v hv => Or.inl (hkept v hv))
  | answer w res model =>
    simp only [DivisionThreads.step, answer] at h
    split at h
    case h_2 => exact absurd h (by simp)
    case h_1 =>
      split at h
      · exact absurd h (by simp)
      · obtain rfl := Option.some.inj h
        refine Or.inr ⟨rfl, fun v hv => ?_⟩
        by_cases hvw : v = w
        · right
          subst hvw
          simp only [Threads.goto, Function.update_self] at hv
          cases res with
          | unsat => exact ⟨model, rfl⟩
          | sat => cases hv
          | unknown => cases hv
        · left
          simpa only [Threads.goto, Function.update_of_ne hvw] using hv
  | split w var =>
    obtain ⟨model, overSlave, rest, hp, hovers, hjoin, -, -, -, hpc⟩ := split_spec h
    refine Or.inl ⟨.joinUnknown w var, .joinUnknown w var (by rw [hp]; rfl), hjoin, ?_⟩
    intro v hv
    rcases hpc v with ⟨hsame, hne⟩ | ⟨-, htop⟩ | ⟨-, hsolving⟩
    · exact ⟨hsame ▸ hv, fun heq => hne (Option.some.inj heq).symm⟩
    · rw [htop] at hv
      cases hv
    · rw [hsolving] at hv
      cases hv
  | expire =>
    simp only [DivisionThreads.step, stepTimeout] at h
    split at h
    · obtain rfl := Option.some.inj h
      exact Or.inr ⟨rfl, fun v hv => Or.inl hv⟩
    · exact absurd h (by simp)
  | expireInterrupt =>
    -- main interrupts the slaves only after it has set globalEnding
    simp only [DivisionThreads.step, stepTimeout] at h
    split at h
    case h_1 i htimeout =>
      have hset := hs.expired (by rw [htimeout]; simp)
      rw [hglobal] at hset
      cases hset
    case h_2 => exact absurd h (by simp)

/-! ### Every run before the ending -/

/-- A slave whose thread brings UNSAT keeps its cube through the sections of
other slaves. -/
theorem given_step {s t : State W} {b : DivideAndConquer.Action W} {v : W}
    (hlists : ListsInvariant cfg s.toSlaveLists) (hreports : Reports s b)
    (h : DivideAndConquer.step cfg s b = some t) (hv : Active s v)
    (hne : b.current ≠ some v) : t.given v = s.given v := by
  cases b with
  | handOver =>
    obtain ⟨overSlave, overs, worker, workers, -, -, -, -, hgiven⟩ := handOver_spec h
    rw [hgiven]
  | joinUnknown current var =>
    obtain ⟨overSlave, rest, hovers, -, -, hgiven⟩ := joinUnknown_spec h
    have hover := hlists.not_active_of_oversSplitting (w := overSlave) (by simp [hovers])
    have hvover : v ≠ overSlave := by
      rintro rfl
      exact hv.elim hover.1 hover.2
    have hvcurrent : v ≠ current := fun heq => hne (congrArg some heq.symm)
    rw [hgiven, Function.update_of_ne hvover, Function.update_of_ne hvcurrent]
  | joinUnsat current =>
    obtain ⟨-, -, hgiven⟩ := joinUnsat_spec h
    rw [hgiven]

theorem answersSound_reach {s : Threads W}
    (hs : (DivisionThreads.machine cfg).Reach (BeforeEnding cfg F) s) :
    AnswersSound F s := by
  refine hs.invariant (AnswersSound F) ?_ ?_
  · rintro s ⟨strategy, -, rfl⟩ w hw
    cases hw
  · intro s a t hr hsound hok h
    have hinv := threads_before_ending hr
    obtain ⟨hending, hglobal⟩ := not_ending hr
    intro v hv
    rcases step_section hinv hending hglobal h with ⟨b, hb, hstep, hpc⟩ | ⟨hsame, hpc⟩
    · obtain ⟨hold, hne⟩ := hpc v hv
      have hreports := (hb.answers hinv hsound hok.1).reports
      have hactive := hinv.active v (working_of_refuting hold)
      rw [Refutes, given_step hinv.lists hreports hstep hactive hne]
      exact hsound v hold
    · rw [Refutes, hsame]
      rcases hpc v hv with hold | ⟨model, rfl⟩
      · exact hsound v hold
      · exact hok.1 rfl

theorem threads_simulation : Simulation (DivisionThreads.machine cfg)
    (BeforeEnding cfg F) (DivideAndConquer.machine cfg) (Answers F)
    Threads.strategy where
  init := by
    rintro s ⟨strategy, hstart, rfl⟩
    exact hstart
  step := by
    intro s a t hr hok h
    have hinv := threads_before_ending hr
    obtain ⟨hending, hglobal⟩ := not_ending hr
    rcases step_section hinv hending hglobal h with ⟨b, hb, hstep, -⟩ | ⟨hsame, -⟩
    · exact Or.inr ⟨b, hb.answers hinv (answersSound_reach hr) hok.1, hstep⟩
    · exact Or.inl hsame

/-- Whatever the order of the threads' steps, the cubes of the active workers
cover every model until the strategy ends. -/
theorem threads_cover {s : Threads W}
    (hs : (DivisionThreads.machine cfg).Reach (BeforeEnding cfg F) s) :
    Covers (goal cfg F) (regions s.strategy) :=
  covers_reach (threads_simulation.reach hs)

end Painless.DivisionRefinement
