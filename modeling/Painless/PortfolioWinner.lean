import Mathlib.Data.Fintype.Basic
import Mathlib.Data.Int.Notation
import Painless.SolverInterface
import Painless.Transitions

/-!
The calls of Portfolio::join between two calls of Portfolio::solve. Every read
and every write of strategyEnding and of globalEnding is one step. A call that
has read strategyEnding writes it only two steps later, and a second call that
reads it in between passes the test as well; where no call does, one call wins.
-/
namespace Painless.PortfolioWinner

open SolverInterface Transitions

/-- The arguments of `join`. -/
structure Report where
  res : SatResult
  model : List ℤ
  deriving DecidableEq

/-- Where the thread of a slave stands. -/
inductive JoinPc where
  | solving
  /-- SequentialWorker::join, at its test of globalEnding -/
  | joining (r : Report)
  /-- Portfolio::join, at the test of res and strategyEnding -/
  | entered (r : Report)
  /-- at the test of globalEnding -/
  | testing (r : Report)
  /-- the test has been passed, strategyEnding is not written yet -/
  | passed (r : Report)
  /-- setInterrupt -/
  | interrupting (r : Report)
  /-- globalEnding = true, at the top -/
  | ending (r : Report)
  | answering (r : Report)
  /-- parent->join -/
  | forwarding (r : Report)
  deriving DecidableEq

/-- `sequential` tells the slaves that are a SequentialWorker, `top` whether
the portfolio has no parent. -/
structure Setup (I : Type*) where
  sequential : I → Bool
  top : Bool

structure State (I : Type*) where
  strategyEnding : Bool
  globalEnding : Bool
  interrupted : I → Bool
  finalResult : SatResult
  finalModel : List ℤ
  /-- the calls of parent->join -/
  forwarded : List Report
  pc : I → JoinPc
  /-- History: the slaves whose calls have passed the test. -/
  winners : List I

inductive Action (I : Type*)
  | answer (i : I) (r : Report)
  | call (i : I)
  /-- another thread of the process ends the run -/
  | endRun

variable {I : Type*} [DecidableEq I]

def State.goto (s : State I) (i : I) (p : JoinPc) : State I :=
  { s with pc := Function.update s.pc i p }

/-- The call of slave `i` passes the test. -/
def State.pass (s : State I) (i : I) (r : Report) : State I :=
  { s.goto i (.passed r) with winners := s.winners ++ [i] }

@[simp] theorem goto_self (s : State I) (i : I) (p : JoinPc) : (s.goto i p).pc i = p :=
  Function.update_self ..

theorem goto_of_ne (s : State I) {i j : I} (h : j ≠ i) (p : JoinPc) :
    (s.goto i p).pc j = s.pc j := Function.update_of_ne h ..

theorem pass_of_ne (s : State I) {i j : I} (h : j ≠ i) (r : Report) :
    (s.pass i r).pc j = s.pc j := Function.update_of_ne h ..

/-- The next step of slave `i` inside its call. -/
def call (setup : Setup I) (s : State I) (i : I) : Option (State I) :=
  match s.pc i with
  | .solving => none
  | .joining r => some (s.goto i (if s.globalEnding then .solving else .entered r))
  | .entered r =>
    some (s.goto i (if r.res = .unknown ∨ s.strategyEnding = true then .solving else .testing r))
  | .testing r =>
    some (if s.globalEnding then s.goto i .solving else s.pass i r)
  | .passed r => some { s.goto i (.interrupting r) with strategyEnding := true }
  | .interrupting r =>
    some { s.goto i (if setup.top then .ending r else .forwarding r) with
      interrupted := fun _ => true }
  | .ending r => some { s.goto i (.answering r) with globalEnding := true }
  | .answering r =>
    some { s.goto i .solving with
      finalResult := r.res
      finalModel := if r.res = .sat then r.model else s.finalModel }
  | .forwarding r => some { s.goto i .solving with forwarded := s.forwarded ++ [r] }

def step (setup : Setup I) (s : State I) : Action I → Option (State I)
  | .answer i r =>
    if s.pc i = .solving then
      some (s.goto i (if setup.sequential i then .joining r else .entered r))
    else none
  | .call i => call setup s i
  | .endRun => some { s with globalEnding := true }

/-- Portfolio::solve has cleared strategyEnding and launched the slaves. -/
def machine (setup : Setup I) : Machine (State I) (Action I) where
  Init s := s.strategyEnding = false ∧ s.winners = [] ∧ ∀ i, s.pc i = .solving
  step := step setup

def isTesting : JoinPc → Bool
  | .testing _ => true
  | _ => false

def isPassed : JoinPc → Bool
  | .passed _ => true
  | _ => false

/-- Between the read of strategyEnding and the write of it. -/
def inWindow (p : JoinPc) : Bool := isTesting p || isPassed p

/-- The next step of the call reads strategyEnding. -/
def readsEnding : JoinPc → Bool
  | .entered r => r.res ≠ .unknown
  | _ => false

/-- No call reads strategyEnding while another one stands between its own read
and its write of it, as long as neither flag is set. -/
def InTurn (s : State I) : Action I → Prop
  | .call i => readsEnding (s.pc i) = true → s.strategyEnding = false → s.globalEnding = false →
    ∀ j, j ≠ i → inWindow (s.pc j) = false
  | _ => True

structure OneWinner (s : State I) : Prop where
  atMostOne : s.winners.length ≤ 1
  window : s.globalEnding = false → ∀ i j, inWindow (s.pc i) = true →
    inWindow (s.pc j) = true → i = j
  /-- Nobody else is about to pass. -/
  settled : s.globalEnding = false → s.winners ≠ [] → ∀ j, isTesting (s.pc j) = false
  marked : s.globalEnding = false → s.winners ≠ [] →
    s.strategyEnding = true ∨ ∃ i, isPassed (s.pc i) = true

theorem inWindow_of_testing {p : JoinPc} (h : isTesting p = true) : inWindow p = true := by
  rw [inWindow, h, Bool.true_or]

theorem inWindow_of_passed {p : JoinPc} (h : isPassed p = true) : inWindow p = true := by
  rw [inWindow, h, Bool.or_true]

/-- A call moves to a place outside the window. -/
theorem OneWinner.leave {s t : State I} (hs : OneWinner s) {i : I} {p : JoinPc}
    (hp : inWindow p = false) (hpc : t.pc = Function.update s.pc i p)
    (hwinners : t.winners = s.winners)
    (hglobal : t.globalEnding = false → s.globalEnding = false)
    (hmark : t.globalEnding = false → t.strategyEnding = true ∨
      (t.strategyEnding = s.strategyEnding ∧ isPassed (s.pc i) = false)) : OneWinner t := by
  have hold (j : I) : t.pc j = s.pc j ∨ inWindow (t.pc j) = false := by
    rw [hpc, Function.update_apply]
    split_ifs
    · exact Or.inr hp
    · exact Or.inl rfl
  constructor
  · rw [hwinners]
    exact hs.atMostOne
  · intro hg j k hj hk
    have hj' := (hold j).resolve_right (by simp [hj])
    have hk' := (hold k).resolve_right (by simp [hk])
    rw [hj'] at hj
    rw [hk'] at hk
    exact hs.window (hglobal hg) j k hj hk
  · intro hg hw j
    rw [hwinners] at hw
    rcases hold j with hj | hj
    · rw [hj]
      exact hs.settled (hglobal hg) hw j
    · exact (Bool.or_eq_false_iff.mp hj).1
  · intro hg hw
    rw [hwinners] at hw
    rcases hmark hg with hmarked | ⟨hsame, hnot⟩
    · exact Or.inl hmarked
    · rcases hs.marked (hglobal hg) hw with hmarked | ⟨k, hk⟩
      · exact Or.inl (hsame.trans hmarked)
      · refine Or.inr ⟨k, ?_⟩
        have hne : k ≠ i := by
          rintro rfl
          simp [hk] at hnot
        rw [hpc, Function.update_of_ne hne]
        exact hk

/-- A call reads strategyEnding before anybody has passed. -/
theorem OneWinner.read {s : State I} (hs : OneWinner s) {i : I} {r : Report}
    (hstrategy : s.strategyEnding = false) (hi : inWindow (s.pc i) = false)
    (hturn : s.globalEnding = false → ∀ j, j ≠ i → inWindow (s.pc j) = false) :
    OneWinner (s.goto i (.testing r)) := by
  have hnone (hg : s.globalEnding = false) (j : I) : inWindow (s.pc j) = false := by
    rcases eq_or_ne j i with rfl | hne
    · exact hi
    · exact hturn hg j hne
  have hwinners (hg : s.globalEnding = false) : s.winners = [] := by
    by_contra hw
    rcases hs.marked hg hw with hmarked | ⟨k, hk⟩
    · simp [hstrategy] at hmarked
    · exact absurd (hnone hg k) (by simp [inWindow_of_passed hk])
  have honly (hg : s.globalEnding = false) (j : I)
      (hj : inWindow ((s.goto i (.testing r)).pc j) = true) : j = i := by
    by_contra hne
    rw [goto_of_ne s hne, hnone hg] at hj
    cases hj
  refine ⟨hs.atMostOne, fun hg j k hj hk => ?_, fun hg hw => ?_, fun hg hw => ?_⟩
  · rw [honly hg j hj, honly hg k hk]
  · exact absurd (hwinners hg) hw
  · exact absurd (hwinners hg) hw

/-- The only call in the window passes the test. -/
theorem OneWinner.pass {s : State I} (hs : OneWinner s) {i : I} {r : Report}
    (hglobal : s.globalEnding = false) (hi : s.pc i = .testing r) :
    OneWinner (s.pass i r) := by
  have htesting : isTesting (s.pc i) = true := by rw [hi]; rfl
  have hwindow := inWindow_of_testing htesting
  have hwinners : s.winners = [] := by
    by_contra hw
    have hnot := hs.settled hglobal hw i
    simp [htesting] at hnot
  have honly (j : I) (hj : inWindow (Function.update s.pc i (.passed r) j) = true) : j = i := by
    by_contra hne
    rw [Function.update_of_ne hne] at hj
    exact hne (hs.window hglobal j i hj hwindow)
  constructor
  · simp [State.pass, hwinners]
  · intro _ j k hj hk
    rw [honly j hj, honly k hk]
  · intro _ _ j
    rw [← Bool.not_eq_true]
    intro hj
    have heq := honly j (inWindow_of_testing hj)
    subst heq
    simp [State.pass, isTesting] at hj
  · intro _ _
    exact Or.inr ⟨i, by simp [State.pass, isPassed]⟩

theorem oneWinner_call {setup : Setup I} {s t : State I} {i : I} (hs : OneWinner s)
    (hturn : InTurn s (.call i)) (h : call setup s i = some t) : OneWinner t := by
  cases hp : s.pc i with
  | solving => simp [call, hp] at h
  | joining r =>
    simp only [call, hp, Option.some.injEq] at h
    subst h
    refine hs.leave ?_ rfl rfl (fun hg => hg) (fun _ => Or.inr ⟨rfl, by rw [hp]; rfl⟩)
    split_ifs <;> rfl
  | entered r =>
    simp only [call, hp, Option.some.injEq] at h
    subst h
    split_ifs with hends
    · exact hs.leave rfl rfl rfl (fun hg => hg) (fun _ => Or.inr ⟨rfl, by rw [hp]; rfl⟩)
    · rw [not_or, Bool.not_eq_true] at hends
      refine hs.read hends.2 (by rw [hp]; rfl) (hturn ?_ hends.2)
      rw [hp, readsEnding]
      exact decide_eq_true hends.1
  | testing r =>
    simp only [call, hp, Option.some.injEq] at h
    subst h
    split_ifs with hg
    · refine hs.leave rfl rfl rfl (fun hg' => hg') (fun hg' => absurd hg' ?_)
      rw [Bool.not_eq_false]
      exact hg
    · exact hs.pass ((Bool.not_eq_true _).mp hg) hp
  | passed r =>
    simp only [call, hp, Option.some.injEq] at h
    subst h
    exact hs.leave rfl rfl rfl (fun hg => hg) (fun _ => Or.inl rfl)
  | interrupting r =>
    simp only [call, hp, Option.some.injEq] at h
    subst h
    refine hs.leave ?_ rfl rfl (fun hg => hg) (fun _ => Or.inr ⟨rfl, by rw [hp]; rfl⟩)
    split_ifs <;> rfl
  | ending r =>
    simp only [call, hp, Option.some.injEq] at h
    subst h
    refine hs.leave rfl rfl rfl ?_ ?_ <;> simp
  | answering r | forwarding r =>
    simp only [call, hp, Option.some.injEq] at h
    subst h
    exact hs.leave rfl rfl rfl (fun hg => hg) (fun _ => Or.inr ⟨rfl, by rw [hp]; rfl⟩)

theorem oneWinner_step {setup : Setup I} {s t : State I} {a : Action I} (hs : OneWinner s)
    (hturn : InTurn s a) (h : step setup s a = some t) : OneWinner t := by
  cases a with
  | answer i r =>
    simp only [step] at h
    split at h
    case isFalse => exact absurd h (by simp)
    case isTrue hp =>
      obtain rfl := Option.some.inj h
      refine hs.leave ?_ rfl rfl (fun hg => hg) (fun _ => Or.inr ⟨rfl, by rw [hp]; rfl⟩)
      split_ifs <;> rfl
  | call i => exact oneWinner_call hs hturn h
  | endRun =>
    obtain rfl := Option.some.inj h
    refine ⟨hs.atMostOne, ?_, ?_, ?_⟩ <;> simp

theorem oneWinner_reach {setup : Setup I} {s : State I}
    (hs : (machine setup).Reach InTurn s) : OneWinner s := by
  refine hs.invariant OneWinner ?_ ?_
  · intro s ⟨_, hwinners, hpc⟩
    refine ⟨by simp [hwinners], fun _ i j hi => ?_, fun _ hw => absurd hwinners hw,
      fun _ hw => absurd hwinners hw⟩
    rw [hpc i] at hi
    cases hi
  · intro s a t _ hinv hturn h
    exact oneWinner_step hinv hturn h

section TwoWinners

/-- A call that has just passed the test is a winner. -/
def Recorded (s : State I) : Prop := ∀ i, isPassed (s.pc i) = true → i ∈ s.winners

theorem Recorded.leave {s t : State I} (hs : Recorded s) {i : I} {p : JoinPc}
    (hp : isPassed p = false) (hpc : t.pc = Function.update s.pc i p)
    (hwinners : t.winners = s.winners) : Recorded t := by
  intro j hj
  have hne : j ≠ i := by
    rintro rfl
    rw [hpc, Function.update_self, hp] at hj
    cases hj
  rw [hpc, Function.update_of_ne hne] at hj
  rw [hwinners]
  exact hs j hj

theorem recorded_step {setup : Setup I} {s t : State I} {a : Action I} (hs : Recorded s)
    (h : step setup s a = some t) : Recorded t := by
  cases a with
  | answer i r =>
    simp only [step] at h
    split at h
    case isFalse => exact absurd h (by simp)
    case isTrue =>
      obtain rfl := Option.some.inj h
      refine hs.leave ?_ rfl rfl
      split_ifs <;> rfl
  | call i =>
    simp only [step] at h
    cases hp : s.pc i with
    | solving => simp [call, hp] at h
    | joining r | entered r | interrupting r =>
      simp only [call, hp, Option.some.injEq] at h
      subst h
      refine hs.leave ?_ rfl rfl
      split_ifs <;> rfl
    | testing r =>
      simp only [call, hp, Option.some.injEq] at h
      subst h
      split_ifs
      · exact hs.leave rfl rfl rfl
      · intro j hj
        rcases eq_or_ne j i with rfl | hne
        · exact List.mem_append_right _ (List.mem_singleton_self j)
        · rw [pass_of_ne s hne] at hj
          exact List.mem_append_left _ (hs j hj)
    | passed r | ending r | answering r | forwarding r =>
      simp only [call, hp, Option.some.injEq] at h
      subst h
      exact hs.leave rfl rfl rfl
  | endRun =>
    obtain rfl := Option.some.inj h
    exact hs

theorem recorded_reach {setup : Setup I} {s : State I} {ok : State I → Action I → Prop}
    (hs : (machine setup).Reach ok s) : Recorded s := by
  refine hs.invariant Recorded ?_ fun s a t _ hinv _ h => recorded_step hinv h
  intro s ⟨_, _, hpc⟩ i hi
  rw [hpc i] at hi
  cases hi

theorem call_testing (setup : Setup I) {s : State I} {i : I} {r : Report}
    (hg : s.globalEnding = false) (hi : s.pc i = .testing r) :
    call setup s i = some (s.pass i r) := by
  simp [call, hi, hg]

omit [DecidableEq I] in
theorem inTurn_of_testing {s : State I} {i : I} (hi : isTesting (s.pc i) = true) :
    InTurn s (.call i) := by
  intro hreads
  cases hp : s.pc i <;> simp [hp, isTesting, readsEnding] at hi hreads

/-- A call about to pass does pass, so there are two winners if another call
stands in the window. -/
theorem two_winners (setup : Setup I) {s : State I} {i j : I} (hs : Recorded s)
    (hg : s.globalEnding = false) {r : Report} (hi : s.pc i = .testing r) (hne : j ≠ i)
    (hj : inWindow (s.pc j) = true) :
    ∃ as u, (machine setup).Meets InTurn s as ∧ (machine setup).run s as = some u ∧
      2 ≤ u.winners.length := by
  have hfirst : (machine setup).step s (.call i) = some (s.pass i r) := call_testing setup hg hi
  have hturn : InTurn s (.call i) := inTurn_of_testing (by rw [hi]; rfl)
  have hkeep : (s.pass i r).pc j = s.pc j := pass_of_ne s hne r
  cases hq : s.pc j with
  | testing q =>
    rw [hq] at hkeep
    have hsecond : (machine setup).step (s.pass i r) (.call j) =
        some ((s.pass i r).pass j q) := call_testing setup hg hkeep
    refine ⟨[.call i, .call j], (s.pass i r).pass j q, ⟨hturn, fun t ht => ?_⟩, ?_, ?_⟩
    · obtain rfl := Option.some.inj (hfirst.symm.trans ht)
      exact ⟨inTurn_of_testing (by rw [hkeep]; rfl), fun _ _ => trivial⟩
    · rw [Machine.run_cons, hfirst, Option.bind_some, Machine.run_cons, hsecond,
        Option.bind_some, Machine.run_nil]
    · simp [State.pass, State.goto]
  | passed q =>
    have hpos := List.length_pos_of_mem (hs j (by rw [hq]; rfl))
    refine ⟨[.call i], s.pass i r, ⟨hturn, fun _ _ => trivial⟩, ?_, ?_⟩
    · rw [Machine.run_cons, hfirst, Option.bind_some, Machine.run_nil]
    · rw [State.pass, List.length_append, List.length_singleton]
      omega
  | _ => simp [hq, inWindow, isTesting, isPassed] at hj

theorem broken_turn {setup : Setup I} {s t : State I} {a : Action I} (hs : Recorded s)
    (hbad : ¬ InTurn s a) (h : step setup s a = some t) :
    ∃ as u, (machine setup).Meets InTurn t as ∧ (machine setup).run t as = some u ∧
      2 ≤ u.winners.length := by
  have ht := recorded_step hs h
  cases a with
  | call i =>
    simp only [InTurn, not_forall, Bool.not_eq_false] at hbad
    obtain ⟨hreads, hstrategy, hg, j, hne, hj⟩ := hbad
    cases hp : s.pc i with
    | entered r =>
      have hres : r.res ≠ .unknown := by simpa [hp, readsEnding] using hreads
      simp only [step, call, hp, hres, hstrategy, Bool.false_eq_true, or_self, if_false,
        Option.some.injEq] at h
      subst h
      exact two_winners setup ht hg (goto_self s i _) hne (by rwa [goto_of_ne s hne])
    | _ => simp [hp, readsEnding] at hreads
  | _ => exact absurd trivial hbad

end TwoWinners

/-- In a run that meets the condition one call wins at most. A step meets the
condition exactly if this stays so in every continuation that does. -/
theorem one_winner_iff (setup : Setup I) (s t : State I) (a : Action I)
    (hs : (machine setup).Reach InTurn s) (h : (machine setup).step s a = some t) :
    s.winners.length ≤ 1 ∧
      (InTurn s a ↔ ∀ as u, (machine setup).Meets InTurn t as →
        (machine setup).run t as = some u → u.winners.length ≤ 1) := by
  refine ⟨(oneWinner_reach hs).atMostOne, fun hturn as u hmeets hrun => ?_, fun hall => ?_⟩
  · have ht : (machine setup).Reach InTurn t := hs.step hturn h
    exact (oneWinner_reach (ht.run as hmeets hrun)).atMostOne
  · by_contra hbad
    obtain ⟨as, u, hmeets, hrun, htwo⟩ := broken_turn (recorded_reach hs) hbad h
    have hone := hall as u hmeets hrun
    omega

instance [Fintype I] (s : State I) : ∀ a, Decidable (InTurn s a)
  | .call _ => inferInstanceAs (Decidable (_ → _ → _ → ∀ _, _ → _))
  | .answer _ _ | .endRun => inferInstanceAs (Decidable True)

/-- Two slaves that answer UNSAT. -/
def pair : Setup Bool := ⟨fun _ => true, true⟩

def launched : State Bool :=
  ⟨false, false, fun _ => false, .unknown, [], [], fun _ => .solving, []⟩

theorem launched_init : (machine pair).Init launched := ⟨rfl, rfl, fun _ => rfl⟩

/-- Both slaves answer. One call passes and writes strategyEnding, then the
other reads it. -/
def inTurn : List (Action Bool) :=
  [.answer true ⟨.unsat, []⟩, .answer false ⟨.unsat, []⟩, .call true, .call false,
    .call true, .call true, .call true, .call false]

/-- The call of one slave has passed, the call of the other has been refused. -/
def refused : State Bool := ((machine pair).run launched inTurn).get (by decide)

theorem refused_reach : (machine pair).Reach InTurn refused :=
  (Machine.Reach.init launched_init).run inTurn (by decide) rfl

theorem one_winner_refused :
    refused.winners = [true] ∧ refused.pc true = .interrupting ⟨.unsat, []⟩ ∧
      refused.pc false = .solving ∧ refused.winners.length ≤ 1 :=
  ⟨by decide, by decide, by decide,
    (one_winner_iff pair refused _ (.call true) refused_reach rfl).1⟩

/-- Both calls read strategyEnding before one of them writes it. -/
def together : List (Action Bool) :=
  [.answer true ⟨.unsat, []⟩, .answer false ⟨.unsat, []⟩, .call true, .call false, .call true,
    .call false, .call true, .call false]

theorem both_slaves_win : ∃ s, (machine pair).Reach (fun _ _ => True) s ∧
    s.winners = [true, false] := by
  refine ⟨((machine pair).run launched together).get (by decide), ?_, by decide⟩
  exact Machine.Reach.of_run launched_init (Option.some_get (by decide)).symm

end Painless.PortfolioWinner
