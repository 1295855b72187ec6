import Painless.CubeJobs

/-!
The workers that are counted. A worker whose UNSAT has been counted gets to nJobs--
again only after it has passed its test of the interrupt flag, or has been woken from
it, before the strategy ends. Nothing interrupts it meanwhile; and one that passes the
test can be counted again at once.
-/
namespace Painless.CountedWorkers

open CubeAndConquer CubeJobs SolverInterface SplitTree Transitions

/-- A launch wakes a worker that is blocked at its test. -/
def woken (s : State) (v : Option ℕ) : Option ℕ := v.filter fun v => s.pc v = .blocked

/-- The worker that the step lets go on from its test of interrupt. -/
def released (s : State) : Action → Option ℕ
  | .worker w =>
    match s.pc w with
    | .ready => if s.interrupt w then none else some w
    | .launching => woken s s.workers[s.next]?
    | _ => none
  | .master =>
    match s.master with
    | .startPortfolio => woken s s.slaves.head?
    | .startRoot => woken s s.workers.head?
    | .launching i n => if i < n then woken s s.workers[i]? else none
    | _ => none
  | .divide _ => none
  | .sort _ => none
  | .answer _ _ _ => none

/-- The worker whose leaf the step splits. -/
def divided (s : State) : Action → Option ℕ
  | .divide _ => (targets s.master).head?
  | _ => none

/-- Until the strategy ends no counted worker goes on from its test, and the master
splits no leaf that has been counted. -/
def StaysOut (s : State) (a : Action) : Prop :=
  (∀ v ∈ released s a, isRefuted s.tree v = true → s.strategyEnding = true) ∧
    ∀ w ∈ divided s a, isRefuted s.tree w = false

instance (s : State) (a : Action) : Decidable (StaysOut s a) :=
  inferInstanceAs (Decidable ((∀ v ∈ released s a, _) ∧ ∀ w ∈ divided s a, _))

/-- The thread is between its test of interrupt and nJobs--. -/
def underway : WorkerPc → Bool
  | .entering => true
  | .solving => true
  | .returned _ _ => true
  | .calling _ _ => true
  | _ => false

/-- The thread has ended the strategy. -/
def ended : WorkerPc → Bool
  | .interrupting _ _ _ => true
  | .publishing _ _ => true
  | _ => false

structure Passed (s : State) : Prop where
  underway : ∀ w, underway (s.pc w) = true → isRefuted s.tree w = true → s.strategyEnding = true
  counting : ∀ w, isCounting (s.pc w) = true → isRefuted s.tree w = false
  ended : ∀ w, ended (s.pc w) = true → s.strategyEnding = true
  globalEnding : s.globalEnding = true → s.strategyEnding = true

/-! ### One step -/

section Steps
variable {cfg : Config} {s t : State} {w : ℕ}

/-- A thread moves, and the tree stays. -/
theorem Passed.move (hs : Passed s) (w : ℕ) (p : WorkerPc)
    (hpc : t.pc = Function.update s.pc w p) (htree : t.tree = s.tree)
    (hending : s.strategyEnding = true → t.strategyEnding = true)
    (hglobal : t.globalEnding = true → t.strategyEnding = true)
    (hunderway : CountedWorkers.underway p = true → isRefuted s.tree w = true →
      t.strategyEnding = true)
    (hcounting : isCounting p = true → isRefuted s.tree w = false)
    (hended : CountedWorkers.ended p = true → t.strategyEnding = true) : Passed t := by
  refine ⟨?_, ?_, ?_, hglobal⟩
  · rw [hpc, htree]
    exact forall_goto (P := fun v p => CountedWorkers.underway p = true →
      isRefuted s.tree v = true → t.strategyEnding = true)
      (fun v hv hrefuted => hending (hs.underway v hv hrefuted)) hunderway
  · rw [hpc, htree]
    exact forall_goto (P := fun v p => isCounting p = true → isRefuted s.tree v = false)
      hs.counting hcounting
  · rw [hpc]
    exact forall_goto (P := fun _ p => CountedWorkers.ended p = true → t.strategyEnding = true)
      (fun v hv => hending (hs.ended v hv)) hended

theorem Passed.goto (hs : Passed s) (w : ℕ) (p : WorkerPc)
    (hunderway : CountedWorkers.underway p = true → isRefuted s.tree w = true →
      s.strategyEnding = true)
    (hcounting : isCounting p = true → isRefuted s.tree w = false)
    (hended : CountedWorkers.ended p = true → s.strategyEnding = true) : Passed (s.goto w p) :=
  hs.move w p rfl rfl id hs.globalEnding hunderway hcounting hended

/-- A thread moves to a place outside of all these. -/
theorem Passed.leave (hs : Passed s) (w : ℕ) {p : WorkerPc}
    (hunderway : CountedWorkers.underway p = false) (hcounting : isCounting p = false)
    (hended : CountedWorkers.ended p = false) : Passed (s.goto w p) := by
  refine hs.goto w p ?_ ?_ ?_
  · simp [hunderway]
  · simp [hcounting]
  · simp [hended]

theorem Passed.launch (hs : Passed s) {v : ℕ}
    (hv : s.pc v = .blocked → isRefuted s.tree v = true → s.strategyEnding = true) :
    Passed (s.launch v) := by
  by_cases hblocked : s.pc v = .blocked
  · have hpc : (s.launch v).pc = Function.update s.pc v .entering := if_pos hblocked
    exact hs.move v .entering hpc rfl id hs.globalEnding (fun _ => hv hblocked)
      (fun h => by cases h) (fun h => by cases h)
  · have hpc : (s.launch v).pc = s.pc := if_neg hblocked
    refine ⟨?_, ?_, ?_, hs.globalEnding⟩
    · rw [hpc]
      exact hs.underway
    · rw [hpc]
      exact hs.counting
    · rw [hpc]
      exact hs.ended

/-- What the condition says of a launch. -/
theorem refuted_of_woken {a : Action} {o : Option ℕ} (hreleased : released s a = woken s o)
    (hok : StaysOut s a) {v : ℕ} (hv : o = some v) (hblocked : s.pc v = .blocked) :
    isRefuted s.tree v = true → s.strategyEnding = true := by
  refine hok.1 v ?_
  rw [hreleased, hv, woken, Option.filter_some_pos (by simpa using hblocked)]
  rfl

theorem passed_calling {res : SatResult} {model : List ℤ} (hs : Passed s)
    (hp : s.pc w = .calling res model) (h : stepWorker s w = some t) : Passed t := by
  simp only [stepWorker, hp, Option.some.injEq] at h
  subst h
  split_ifs with hdrop hcount
  · exact hs.leave w rfl rfl rfl
  · refine hs.goto w _ (fun h => by cases h) (fun _ => ?_) (fun h => by cases h)
    by_contra hrefuted
    exact hdrop (Or.inr (hs.underway w (by rw [hp]; rfl) ((Bool.not_eq_false _).mp hrefuted)))
  · exact hs.leave w rfl rfl rfl

/-- Only the leaf of the thread itself is counted. -/
theorem passed_counting {model : List ℤ} (hs : Passed s) (hp : s.pc w = .counting model)
    (h : stepWorker s w = some t) : Passed t := by
  simp only [stepWorker, hp, Option.some.injEq] at h
  subst h
  refine ⟨?_, ?_, ?_, hs.globalEnding⟩
  · refine (Function.forall_update_iff s.pc fun v p => underway p = true →
      isRefuted (report w s.tree) v = true → s.strategyEnding = true).mpr
      ⟨(fun h => by cases h), ?_⟩
    intro v hv hunderway
    rw [isRefuted_report_of_ne hv]
    exact hs.underway v hunderway
  · refine (Function.forall_update_iff s.pc fun v p => isCounting p = true →
      isRefuted (report w s.tree) v = false).mpr ⟨(fun h => by cases h), ?_⟩
    intro v hv hcounting
    rw [isRefuted_report_of_ne hv]
    exact hs.counting v hcounting
  · exact forall_goto (P := fun _ p => ended p = true → s.strategyEnding = true) hs.ended
      fun h => by cases h

theorem passed_worker (hs : Passed s) (hok : StaysOut s (.worker w))
    (h : stepWorker s w = some t) : Passed t := by
  have hunderway := hs.underway w
  have hended := hs.ended w
  cases hp : s.pc w with
  | check =>
    simp only [stepWorker, hp, Option.some.injEq] at h
    subst h
    split_ifs
    · exact hs.leave w rfl rfl rfl
    · exact hs.leave w rfl rfl rfl
  | ready =>
    simp only [stepWorker, hp, Option.some.injEq] at h
    subst h
    split_ifs with hflag
    · exact hs.leave w rfl rfl rfl
    · refine hs.goto w _ (fun _ => hok.1 w ?_) (fun h => by cases h) (fun h => by cases h)
      simp [released, hp, hflag]
  | entering =>
    rw [hp] at hunderway
    simp only [stepWorker, hp, Option.some.injEq] at h
    subst h
    exact hs.move w .solving rfl rfl id hs.globalEnding (fun _ => hunderway rfl)
      (fun h => by cases h) (fun h => by cases h)
  | returned res model =>
    rw [hp] at hunderway
    simp only [stepWorker, hp, Option.some.injEq] at h
    subst h
    split_ifs
    · exact hs.leave w rfl rfl rfl
    · exact hs.goto w _ (fun _ => hunderway rfl) (fun h => by cases h) (fun h => by cases h)
  | calling res model => exact passed_calling hs hp h
  | counting model => exact passed_counting hs hp h
  | testing model =>
    simp only [stepWorker, hp, Option.some.injEq] at h
    subst h
    split_ifs
    · exact hs.leave w rfl rfl rfl
    · exact hs.leave w rfl rfl rfl
  | pushing =>
    simp only [stepWorker, hp, Option.some.injEq] at h
    subst h
    exact hs.move w .launching rfl rfl id hs.globalEnding (fun h => by cases h)
      (fun h => by cases h) (fun h => by cases h)
  | launching =>
    have hreleased : released s (.worker w) = woken s s.workers[s.next]? := by
      simp only [released, hp]
    simp only [stepWorker, hp] at h
    split at h
    case h_1 v hv =>
      obtain rfl := Option.some.inj h
      have hlaunch := hs.launch (refuted_of_woken hreleased hok hv)
      exact hlaunch.move w .check rfl rfl id hs.globalEnding (fun h => by cases h)
        (fun h => by cases h) (fun h => by cases h)
    case h_2 =>
      obtain rfl := Option.some.inj h
      exact hs.leave w rfl rfl rfl
  | ending res model =>
    simp only [stepWorker, hp, Option.some.injEq] at h
    subst h
    exact hs.move w _ rfl rfl (fun _ => rfl) (fun _ => rfl) (fun h => by cases h)
      (fun h => by cases h) (fun _ => rfl)
  | interrupting i res model =>
    rw [hp] at hended
    simp only [stepWorker, hp] at h
    split at h
    all_goals
      obtain rfl := Option.some.inj h
      exact hs.move w _ rfl rfl id hs.globalEnding (fun h => by cases h) (fun h => by cases h)
        (fun _ => hended rfl)
  | publishing res model =>
    rw [hp] at hended
    simp only [stepWorker, hp, Option.some.injEq] at h
    subst h
    exact hs.move w _ rfl rfl id (fun _ => hended rfl) (fun h => by cases h)
      (fun h => by cases h) (fun h => by cases h)
  | storing res model =>
    simp only [stepWorker, hp, Option.some.injEq] at h
    subst h
    exact hs.move w .check rfl rfl id hs.globalEnding (fun h => by cases h)
      (fun h => by cases h) (fun h => by cases h)
  | blocked | solving | done => simp [stepWorker, hp] at h

/-- The master's steps that neither launch nor split. -/
theorem Passed.congr (hs : Passed s) (hpc : t.pc = s.pc) (htree : t.tree = s.tree)
    (hending : t.strategyEnding = s.strategyEnding)
    (hglobal : t.globalEnding = true → s.globalEnding = true) : Passed t := by
  refine ⟨?_, ?_, ?_, ?_⟩
  · rw [hpc, htree, hending]
    exact hs.underway
  · rw [hpc, htree]
    exact hs.counting
  · rw [hpc, hending]
    exact hs.ended
  · rw [hending]
    exact fun h => hs.globalEnding (hglobal h)

/-- The steps of the master that launch a worker. -/
theorem passed_masterLaunch {o : Option ℕ} {v : ℕ} (hs : Passed s) (hok : StaysOut s .master)
    (hreleased : released s .master = woken s o) (hv : o = some v) (master : MasterPc) :
    Passed { s.launch v with master := master } :=
  (hs.launch (refuted_of_woken hreleased hok hv)).congr rfl rfl rfl id

theorem passed_master (hs : Passed s) (hok : StaysOut s .master)
    (h : stepMaster cfg s = some t) : Passed t := by
  cases hm : s.master with
  | startPortfolio =>
    have hreleased : released s .master = woken s s.slaves.head? := by simp only [released, hm]
    simp only [stepMaster, hm] at h
    split at h
    case h_1 v hv =>
      obtain rfl := Option.some.inj h
      exact passed_masterLaunch hs hok hreleased hv _
    case h_2 => exact absurd h (by simp)
  | startRoot =>
    have hreleased : released s .master = woken s s.workers.head? := by simp only [released, hm]
    simp only [stepMaster, hm] at h
    split at h
    case h_1 v hv =>
      obtain rfl := Option.some.inj h
      exact passed_masterLaunch hs hok hreleased hv _
    case h_2 => exact absurd h (by simp)
  | launching i n =>
    simp only [stepMaster, hm] at h
    split at h
    case isTrue hi =>
      have hreleased : released s .master = woken s s.workers[i]? := by
        simp only [released, hm, if_pos hi]
      split at h
      case h_1 v hv =>
        obtain rfl := Option.some.inj h
        exact passed_masterLaunch hs hok hreleased hv _
      case h_2 => exact absurd h (by simp)
    case isFalse =>
      obtain rfl := Option.some.inj h
      exact hs.congr rfl rfl rfl id
  | deleting i w =>
    simp only [stepMaster, hm, Option.some.injEq] at h
    subst h
    exact hs.congr rfl rfl rfl fun h => by cases h
  | dividing ws =>
    cases ws with
    | nil =>
      simp only [stepMaster, hm, Option.some.injEq] at h
      subst h
      exact hs.congr rfl rfl rfl id
    | cons w rest => simp [stepMaster, hm] at h
  | finished => simp [stepMaster, hm] at h
  | test | rest | halting | clearing | choosing =>
    simp only [stepMaster, hm, Option.some.injEq] at h
    subst h
    exact hs.congr rfl rfl rfl id
  | interrupting i | erasing i =>
    simp only [stepMaster, hm] at h
    split at h
    all_goals
      obtain rfl := Option.some.inj h
      exact hs.congr rfl rfl rfl id
  | reaping i w | sorting =>
    simp only [stepMaster, hm] at h
    split_ifs at h
    obtain rfl := Option.some.inj h
    exact hs.congr rfl rfl rfl id
  | waiting i =>
    simp only [stepMaster, hm] at h
    split at h
    case h_1 v hv =>
      split_ifs at h
      obtain rfl := Option.some.inj h
      exact hs.congr rfl rfl rfl id
    case h_2 => exact absurd h (by simp)

/-- The new worker starts at the head of its loop; the leaves of the others stay. -/
theorem passed_divide {var : ℤ} (hs : Passed s) (h : divide s var = some t) : Passed t := by
  unfold divide at h
  split at h
  case h_2 => exact absurd h (by simp)
  case h_1 w rest hmaster =>
    obtain rfl := Option.some.inj h
    refine ⟨?_, ?_, ?_, hs.globalEnding⟩
    · refine (Function.forall_update_iff s.pc fun v p => underway p = true →
        isRefuted (split w s.created var s.tree) v = true → s.strategyEnding = true).mpr
        ⟨(fun h => by cases h), ?_⟩
      intro v hv hunderway
      rw [isRefuted_split_of_ne hv]
      exact hs.underway v hunderway
    · refine (Function.forall_update_iff s.pc fun v p => isCounting p = true →
        isRefuted (split w s.created var s.tree) v = false).mpr ⟨(fun h => by cases h), ?_⟩
      intro v hv hcounting
      rw [isRefuted_split_of_ne hv]
      exact hs.counting v hcounting
    · exact forall_goto (P := fun _ p => ended p = true → s.strategyEnding = true) hs.ended
        fun h => by cases h

theorem passed_step {a : Action} (hs : Passed s) (hok : StaysOut s a)
    (h : step cfg s a = some t) : Passed t := by
  cases a with
  | master => exact passed_master hs hok h
  | divide var => exact passed_divide hs h
  | sort order =>
    simp only [step, sort] at h
    split_ifs at h
    obtain rfl := Option.some.inj h
    exact hs.congr rfl rfl rfl id
  | worker w => exact passed_worker hs hok h
  | answer w res model =>
    simp only [step, answer] at h
    by_cases hp : s.pc w = .solving
    · rw [if_pos hp] at h
      obtain rfl := Option.some.inj h
      exact hs.goto w _ (fun _ => hs.underway w (by rw [hp]; rfl)) (fun h => by cases h)
        (fun h => by cases h)
    · rw [if_neg hp] at h
      cases h

end Steps

/-! ### Runs -/

theorem passed_start (next : ℕ) : Passed (start next) :=
  ⟨(fun _ h => by cases h), (fun _ h => by cases h), (fun _ h => by cases h), fun h => by cases h⟩

theorem countsOnce_of_staysOut {s : State} {a : Action} (hs : Passed s) (hok : StaysOut s a) :
    CountsOnce s a := by
  cases a with
  | worker w => exact hs.counting w
  | divide var => exact hok.2
  | master | sort | answer => trivial

theorem reach_of_staysOut {cfg : Config} {s : State} (hs : (machine cfg).Reach StaysOut s) :
    (machine cfg).Reach CountsOnce s ∧ Passed s := by
  refine hs.invariant (fun s => (machine cfg).Reach CountsOnce s ∧ Passed s) ?_ ?_
  · rintro s ⟨next, rfl⟩
    exact ⟨.init ⟨next, rfl⟩, passed_start next⟩
  · intro s a t _ hs hok h
    exact ⟨.step hs.1 (countsOnce_of_staysOut hs.2 hok) h, passed_step hs.2 hok h⟩

/-- The worker solves again and gives the same answer. -/
def again (w : ℕ) : List Action :=
  [.worker w, .answer w .unsat [], .worker w, .worker w, .worker w]

/-- A counted worker past its test is counted a second time, if nothing ends the
strategy meanwhile. -/
theorem counted_again {cfg : Config} {s : State} {w : ℕ} (hs : JobsInvariant s)
    (hglobal : s.globalEnding = false) (hending : s.strategyEnding = false)
    (hpc : s.pc w = .entering) (hrefuted : isRefuted s.tree w = true) :
    ∃ u, (machine cfg).run s (again w) = some u ∧ ¬ Accounted u := by
  have hw0 : w ≠ 0 := (hs.owned w (mem_owners_of_isRefuted hrefuted)).1
  have hrun : ∃ u, (machine cfg).run s (again w) = some u ∧ u.nJobs = s.nJobs - 1 ∧
      u.tree = report w s.tree := by
    simp [again, machine, Machine.run_cons, step, stepWorker, answer, hpc, hglobal, hending,
      hs.head, hw0.symm, State.goto]
  obtain ⟨u, hu, hjobs, htree⟩ := hrun
  refine ⟨u, hu, fun haccounted => ?_⟩
  have hleaves := openLeaves_report hs.nodup (mem_owners_of_isRefuted hrefuted)
  rw [hrefuted, if_pos rfl, Nat.add_zero] at hleaves
  have hafter := haccounted.jobs
  have hbefore := hs.jobs
  rw [hjobs, htree, hleaves] at hafter
  omega

theorem mem_woken {s : State} {o : Option ℕ} {v : ℕ} (h : v ∈ woken s o) :
    o = some v ∧ s.pc v = .blocked := by
  obtain ⟨hv, hblocked⟩ := Option.mem_filter_iff.mp h
  exact ⟨hv, of_decide_eq_true hblocked⟩

theorem entering_of_launch {s : State} {v : ℕ} (h : s.pc v = .blocked) :
    (s.launch v).pc v = .entering := by
  rw [State.launch, if_pos h]
  exact Function.update_self _ _ _

/-- The worker that a step lets go on; the tree and the flags of the end stay. -/
theorem entering_of_released {cfg : Config} {s t : State} {a : Action} {v : ℕ}
    (h : step cfg s a = some t) (hv : v ∈ released s a) :
    t.pc v = .entering ∧ t.tree = s.tree ∧ t.globalEnding = s.globalEnding ∧
      t.strategyEnding = s.strategyEnding := by
  cases a with
  | worker w =>
    cases hp : s.pc w with
    | ready =>
      simp only [released, hp] at hv
      simp only [step, stepWorker, hp, Option.some.injEq] at h
      subst h
      split_ifs at hv ⊢ with hflag
      · exact absurd hv (Option.not_mem_none v)
      · obtain rfl := Option.some.inj hv
        exact ⟨Function.update_self _ _ _, rfl, rfl, rfl⟩
    | launching =>
      simp only [released, hp] at hv
      obtain ⟨hnext, hblocked⟩ := mem_woken hv
      have hne : v ≠ w := by
        rintro rfl
        rw [hp] at hblocked
        cases hblocked
      simp only [step, stepWorker, hp, hnext, Option.some.injEq] at h
      subst h
      refine ⟨?_, rfl, rfl, rfl⟩
      exact (Function.update_of_ne hne _ _).trans (entering_of_launch hblocked)
    | _ => simp [released, hp] at hv
  | master =>
    cases hm : s.master with
    | startPortfolio | startRoot =>
      simp only [released, hm] at hv
      obtain ⟨hhead, hblocked⟩ := mem_woken hv
      simp only [step, stepMaster, hm, hhead, Option.some.injEq] at h
      subst h
      exact ⟨entering_of_launch hblocked, rfl, rfl, rfl⟩
    | launching i n =>
      simp only [released, hm] at hv
      split_ifs at hv with hi
      · obtain ⟨hget, hblocked⟩ := mem_woken hv
        simp only [step, stepMaster, hm, if_pos hi, hget, Option.some.injEq] at h
        subst h
        exact ⟨entering_of_launch hblocked, rfl, rfl, rfl⟩
      · exact absurd hv (Option.not_mem_none v)
    | _ => simp [released, hm] at hv
  | divide | sort | answer => simp [released] at hv

/-- A step that lets a counted worker go on leads to the second count. -/
theorem counted_of_not_staysOut {cfg : Config} {s t : State} {a : Action} (hs : JobsInvariant s)
    (hpassed : Passed s) (honce : CountsOnce s a) (hbad : ¬ StaysOut s a)
    (h : step cfg s a = some t) :
    ∃ w u, (machine cfg).run t (again w) = some u ∧ ¬ Accounted u := by
  obtain ⟨v, hv, hrefuted, hending⟩ : ∃ v ∈ released s a, isRefuted s.tree v = true ∧
      s.strategyEnding ≠ true := by
    by_contra hnone
    refine hbad ⟨fun v hv hrefuted => ?_, ?_⟩
    · by_contra hending
      exact hnone ⟨v, hv, hrefuted, hending⟩
    · cases a with
      | divide var => exact honce
      | _ => exact fun w hw => absurd hw (Option.not_mem_none w)
  obtain ⟨hpc, htree, hglobal, hstrategy⟩ := entering_of_released h hv
  have hopen : s.globalEnding = false :=
    Bool.eq_false_iff.mpr fun hglobal => hending (hpassed.globalEnding hglobal)
  refine ⟨v, counted_again (jobs_step hs honce h) (hglobal.trans hopen) ?_ hpc ?_⟩
  · exact hstrategy.trans (Bool.eq_false_iff.mpr hending)
  · rw [htree]
    exact hrefuted

/-- As long as no leaf is counted twice or split after it was counted, nJobs is
the number of open leaves, no leaf is subtracted twice, and a worker other than
slaves[0] makes the result UNSAT only when all leaves are refuted. The first
step of the other kind puts an end to this. It comes only after a counted worker
has gone on from its test of interrupt, and can come as soon as one has. -/
theorem jobs_accounted_iff (cfg : Config) (s t : State) (a : Action)
    (hs : (machine cfg).Reach CountsOnce s) (h : step cfg s a = some t) :
    Accounted s ∧ (Accounted t ↔ CountsOnce s a) ∧
    (∀ w, a = .worker w → s.slaves.head? ≠ some w → s.finalResult ≠ .unsat →
      t.finalResult = .unsat → openLeaves t.tree = 0) ∧
    ((machine cfg).Reach StaysOut s → (StaysOut s a → CountsOnce s a) ∧
      (¬ StaysOut s a → ¬ Accounted t ∨
        ∃ w u, (machine cfg).run t (again w) = some u ∧ ¬ Accounted u)) := by
  have hinv := jobs_reach hs
  have haccounted : Accounted t ↔ CountsOnce s a := by
    refine ⟨fun haccounted => ?_, fun hok => (jobs_step hinv hok h).accounted⟩
    by_contra hbad
    exact not_accounted hinv hbad h haccounted
  refine ⟨hinv.accounted, haccounted, ?_, fun hstays => ?_⟩
  · rintro w rfl hw hbefore hafter
    obtain ⟨model, hp, htree⟩ := storing_of_unsat h hbefore hafter
    rw [htree]
    exact hinv.accounted.result w model hw hp
  · have hpassed := (reach_of_staysOut hstays).2
    refine ⟨countsOnce_of_staysOut hpassed, fun hbad => ?_⟩
    by_cases honce : CountsOnce s a
    · refine Or.inr (counted_of_not_staysOut hinv hpassed honce hbad h)
    · exact Or.inl fun ht => honce (haccounted.mp ht)

/-! ### A leaf that is counted twice -/

def threeCpus : Config := ⟨3, by decide, []⟩

/-- The clause forbids the half in which 5 is true. -/
def notFive : Cnf.Formula ℕ := [[Cnf.ofInt (-5)]]

/-- The master splits the root on 5 and launches both halves; the root worker
loads its literal and starts to solve. -/
def splitRun : List Action :=
  List.replicate 10 .master ++ [.divide 5] ++ List.replicate 5 .master ++
    List.replicate 3 (.worker 1)

/-- The solver of worker 1 answers UNSAT, then its thread goes on. -/
def refuteRun (steps : ℕ) : List Action :=
  .answer 1 .unsat [] :: List.replicate steps (.worker 1)

def solvingHalf : State := ((machine threeCpus).run (start 0) splitRun).get (by decide)

/-- The answer has been counted, and worker 1 is at its test of interrupt: nothing
has interrupted it. -/
def counted : State :=
  ((machine threeCpus).run solvingHalf (refuteRun 7)).get (by decide)

/-- Worker 1 solves again. -/
def solvingAgain : State :=
  ((machine threeCpus).run solvingHalf (refuteRun 9)).get (by decide)

def refutedTwice : State :=
  ((machine threeCpus).run solvingAgain (refuteRun 11)).get (by decide)

instance (s : State) : ∀ a, Decidable (CountsOnce s a)
  | .worker _ => inferInstanceAs (Decidable (_ → _))
  | .divide _ => inferInstanceAs (Decidable (∀ w ∈ (targets s.master).head?, _))
  | .master | .sort _ | .answer _ _ _ => inferInstanceAs (Decidable True)

theorem start_init (cfg : Config) (next : ℕ) : (machine cfg).Init (start next) :=
  ⟨next, rfl⟩

theorem counted_reach : (machine threeCpus).Reach StaysOut counted := by
  have hhalf : (machine threeCpus).Reach StaysOut solvingHalf :=
    (Machine.Reach.init (start_init _ 0)).run splitRun (by decide)
      (Option.some_get (by decide)).symm
  exact hhalf.run (refuteRun 7) (by decide) (Option.some_get (by decide)).symm

/-- Worker 1 goes on from its test, and can be counted again. -/
theorem jobs_accounted_counted : Accounted counted ∧
    ∃ t, step threeCpus counted (.worker 1) = some t ∧ Accounted t ∧
      ∃ w u, (machine threeCpus).run t (again w) = some u ∧ ¬ Accounted u := by
  obtain ⟨haccounted, hiff, -, hstays⟩ := jobs_accounted_iff threeCpus counted _ (.worker 1)
    (reach_of_staysOut counted_reach).1 rfl
  have hafter := hiff.mpr (by decide)
  refine ⟨haccounted, _, rfl, hafter, ?_⟩
  exact ((hstays counted_reach).2 (by decide)).resolve_left fun hbad => hbad hafter

/-- The answers of worker 1 are right while it has loaded 5. -/
theorem refuteRun_sound {s : State} (hs : s.loaded 1 = [5]) (steps : ℕ) :
    (machine threeCpus).Meets (SoundAnswer threeCpus notFive) s (refuteRun steps) := by
  refine ⟨?_, fun t _ => Machine.Meets.of_forall ?_ t⟩
  · intro _ σ hσ _ hloaded
    rw [hs, Cnf.ofInts, List.map_singleton, Cnf.cubeHolds_singleton] at hloaded
    rw [notFive, Cnf.formulaHolds_unit, Cnf.ofInt_neg (by decide),
      Cnf.literalHolds_negate] at hσ
    exact hσ hloaded
  · intro a ha
    rw [List.eq_of_mem_replicate ha]
    exact fun _ => trivial

/-- Worker 1 reports the half with 5 twice, both times rightly. The result is
UNSAT while the other half, in which the formula has a model, is open. -/
theorem half_counted_twice :
    (machine threeCpus).Reach (SoundAnswer threeCpus notFive) refutedTwice ∧
      refutedTwice.finalResult = .unsat ∧ openLeaves refutedTwice.tree = 1 ∧
      ¬ Accounted refutedTwice ∧ Cnf.Satisfiable notFive := by
  have hsplit : (machine threeCpus).Reach (SoundAnswer threeCpus notFive) solvingHalf := by
    refine (Machine.Reach.init (start_init _ 0)).run splitRun
      (Machine.Meets.of_forall ?_ _) (Option.some_get (by decide)).symm
    intro a ha s
    simp only [splitRun, List.mem_append, List.mem_replicate, List.mem_singleton] at ha
    rcases ha with ((⟨-, rfl⟩ | rfl) | ⟨-, rfl⟩) | ⟨-, rfl⟩ <;> trivial
  have honce := hsplit.run (refuteRun 9) (refuteRun_sound (by decide) 9)
    (Option.some_get (by decide)).symm
  refine ⟨honce.run (refuteRun 11) (refuteRun_sound (by decide) 11)
    (Option.some_get (by decide)).symm, by decide, by decide, ?_, ?_⟩
  · intro h
    exact absurd h.jobs (by decide)
  · exact ⟨fun _ => false, by decide⟩

end Painless.CountedWorkers
