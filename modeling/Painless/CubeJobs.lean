import Painless.CubeAndConquer

/-!
The count of the open sub-problems. nJobs is the number of leaves of the split
tree that have not been refuted as long as join counts no leaf twice and the
master splits no leaf that has been counted. A worker whose UNSAT has been
counted is not interrupted, so its thread goes round its loop and reports the
same sub-problem again: the runs in which it does are the ones left out.
-/
namespace Painless.CubeJobs

open CubeAndConquer SolverInterface SplitTree Transitions

/-- The thread is past its test of the interrupt flag. -/
def awake : WorkerPc → Bool
  | .check => false
  | .ready => false
  | .blocked => false
  | .done => false
  | _ => true

/-- The thread counts an UNSAT answer. -/
def reporting : WorkerPc → Bool
  | .counting _ => true
  | .testing _ => true
  | .pushing => true
  | .launching => true
  | _ => false

/-- The thread is going to publish UNSAT. -/
def concluding : WorkerPc → Bool
  | .ending .unsat _ => true
  | .interrupting _ .unsat _ => true
  | .publishing .unsat _ => true
  | .storing .unsat _ => true
  | _ => false

section Concluding
variable (res : SatResult) (model : List ℤ)

@[simp] theorem concluding_ending : concluding (.ending res model) = decide (res = .unsat) := by
  cases res <;> rfl

@[simp] theorem concluding_interrupting (i : ℕ) :
    concluding (.interrupting i res model) = decide (res = .unsat) := by
  cases res <;> rfl

@[simp] theorem concluding_publishing :
    concluding (.publishing res model) = decide (res = .unsat) := by
  cases res <;> rfl

@[simp] theorem concluding_storing : concluding (.storing res model) = decide (res = .unsat) := by
  cases res <;> rfl

end Concluding

def isCounting : WorkerPc → Bool
  | .counting _ => true
  | _ => false

/-- The targets the master has not split yet. -/
def targets : MasterPc → List ℕ
  | .dividing ws => ws
  | _ => []

/-- No leaf is counted that has been counted before, and none is split. -/
def CountsOnce (s : State) : Action → Prop
  | .worker w => isCounting (s.pc w) = true → isRefuted s.tree w = false
  | .divide _ => ∀ w ∈ (targets s.master).head?, isRefuted s.tree w = false
  | _ => True

/-- What nJobs, the reports and an UNSAT result mean for the split tree. -/
structure Accounted (s : State) : Prop where
  jobs : s.nJobs = openLeaves s.tree
  once : ReportedOnce s.tree
  result : ∀ w model, s.slaves.head? ≠ some w → s.pc w = .storing .unsat model →
    openLeaves s.tree = 0

structure JobsInvariant (s : State) : Prop where
  nodup : (owners s.tree).Nodup
  owned : ∀ w ∈ owners s.tree, w ≠ 0 ∧ w < s.created
  created : 0 < s.created
  head : s.slaves.head? = some 0
  workers : ∀ w ∈ s.workers, w ∈ owners s.tree
  targets : ∀ w ∈ targets s.master, w ∈ owners s.tree
  overWorkers : ∀ w ∈ s.overWorkers, w ≠ 0
  interrupted : ∀ w, s.interrupt w = false → w = 0 ∨ w ∈ owners s.tree
  awake : ∀ w, awake (s.pc w) = true → w = 0 ∨ w ∈ owners s.tree
  reporting : ∀ w, reporting (s.pc w) = true → w ≠ 0
  jobs : s.nJobs = openLeaves s.tree
  once : ReportedOnce s.tree
  concluding : ∀ w, w ≠ 0 → concluding (s.pc w) = true → openLeaves s.tree = 0

theorem JobsInvariant.accounted {s : State} (hs : JobsInvariant s) : Accounted s := by
  refine ⟨hs.jobs, hs.once, fun w model hw hp => ?_⟩
  rw [hs.head] at hw
  exact hs.concluding w (fun h => hw (congrArg some h.symm)) (by rw [hp]; rfl)

/-! ### Steps that keep the tree -/

/-- A thread moves; the tree, the counter and the lists of workers stay. -/
theorem JobsInvariant.move {s t : State} (hs : JobsInvariant s) (w : ℕ) (p : WorkerPc)
    (hpc : t.pc = Function.update s.pc w p) (htree : t.tree = s.tree)
    (hjobs : t.nJobs = s.nJobs) (hcreated : t.created = s.created)
    (hslaves : t.slaves = s.slaves) (hworkers : t.workers = s.workers)
    (hmaster : t.master = s.master) (hover : ∀ v ∈ t.overWorkers, v ≠ 0)
    (hinterrupt : ∀ v, t.interrupt v = false → s.interrupt v = false)
    (hawake : CubeJobs.awake p = true → w = 0 ∨ w ∈ owners s.tree)
    (hreporting : CubeJobs.reporting p = true → w ≠ 0)
    (hconcluding : w ≠ 0 → CubeJobs.concluding p = true → openLeaves s.tree = 0) :
    JobsInvariant t := by
  refine ⟨?_, ?_, ?_, ?_, ?_, ?_, hover, ?_, ?_, ?_, ?_, ?_, ?_⟩
  · rw [htree]
    exact hs.nodup
  · rw [htree, hcreated]
    exact hs.owned
  · rw [hcreated]
    exact hs.created
  · rw [hslaves]
    exact hs.head
  · rw [hworkers, htree]
    exact hs.workers
  · rw [hmaster, htree]
    exact hs.targets
  · rw [htree]
    exact fun v hv => hs.interrupted v (hinterrupt v hv)
  · rw [hpc, htree]
    exact forall_goto (P := fun v p => CubeJobs.awake p = true → v = 0 ∨ v ∈ owners s.tree)
      hs.awake hawake
  · rw [hpc]
    exact forall_goto (P := fun v p => CubeJobs.reporting p = true → v ≠ 0)
      hs.reporting hreporting
  · rw [hjobs, htree]
    exact hs.jobs
  · rw [htree]
    exact hs.once
  · rw [hpc, htree]
    exact forall_goto
      (P := fun v p => v ≠ 0 → CubeJobs.concluding p = true → openLeaves s.tree = 0)
      hs.concluding hconcluding

/-- A worker that owns a leaf, or slaves[0], is launched. -/
theorem JobsInvariant.launch {s : State} (hs : JobsInvariant s) {v : ℕ}
    (hv : v = 0 ∨ v ∈ owners s.tree) : JobsInvariant (s.launch v) := by
  have hpc : ∀ {P : ℕ → WorkerPc → Prop}, (∀ w, P w (s.pc w)) → P v .entering →
      ∀ w, P w ((s.launch v).pc w) := by
    intro P hold hnew w
    unfold State.launch
    dsimp only
    split
    · exact forall_goto hold hnew w
    · exact hold w
  refine { hs with interrupted := ?_, awake := ?_, reporting := ?_, concluding := ?_ }
  · intro w hw
    by_cases hwv : w = v
    · rw [hwv]
      exact hv
    · rw [State.launch_interrupt, Function.update_of_ne hwv] at hw
      exact hs.interrupted w hw
  · exact hpc (P := fun w p => CubeJobs.awake p = true → w = 0 ∨ w ∈ owners s.tree)
      hs.awake fun _ => hv
  · exact hpc (P := fun w p => CubeJobs.reporting p = true → w ≠ 0) hs.reporting
      fun h => by cases h
  · exact hpc
      (P := fun w p => w ≠ 0 → CubeJobs.concluding p = true → openLeaves s.tree = 0)
      hs.concluding fun _ h => by cases h

theorem JobsInvariant.setInterrupt {s : State} (hs : JobsInvariant s) (v : ℕ) :
    JobsInvariant (s.setInterrupt v) := by
  refine { hs with interrupted := ?_ }
  intro w hw
  by_cases hwv : w = v
  · rw [hwv, State.setInterrupt_interrupt, Function.update_self] at hw
    cases hw
  · rw [State.setInterrupt_interrupt, Function.update_of_ne hwv] at hw
    exact hs.interrupted w hw

/-! ### Steps that change the tree -/

/-- join counts a leaf that has not been counted yet. -/
theorem JobsInvariant.count {s : State} (hs : JobsInvariant s) {w : ℕ}
    {model : List ℤ} (hp : s.pc w = .counting model)
    (hopen : isRefuted s.tree w = false) :
    JobsInvariant ({ s with nJobs := s.nJobs - 1, tree := report w s.tree }.goto w
      (.testing model)) := by
  have hw0 : w ≠ 0 := hs.reporting w (by rw [hp]; rfl)
  have hw : w ∈ owners s.tree := (hs.awake w (by rw [hp]; rfl)).resolve_left hw0
  have howners := (owners_report w s.tree).symm
  have hleaves := openLeaves_report hs.nodup hw
  rw [hopen] at hleaves
  simp only [Bool.false_eq_true, if_false] at hleaves
  refine ⟨?_, ?_, hs.created, hs.head, ?_, ?_, hs.overWorkers, ?_, ?_, ?_, ?_, ?_, ?_⟩
  · exact howners ▸ hs.nodup
  · exact howners ▸ hs.owned
  · exact howners ▸ hs.workers
  · exact howners ▸ hs.targets
  · exact howners ▸ hs.interrupted
  · refine forall_goto (P := fun v p => CubeJobs.awake p = true →
      v = 0 ∨ v ∈ owners (report w s.tree)) ?_ (fun _ => Or.inr (howners ▸ hw))
    exact howners ▸ hs.awake
  · exact forall_goto (P := fun v p => CubeJobs.reporting p = true → v ≠ 0)
      hs.reporting fun _ => hw0
  · have hjobs := hs.jobs
    dsimp only [State.goto]
    omega
  · exact reportedOnce_report hs.nodup hw hs.once hopen
  · intro v hv hconcluding
    have hzero : openLeaves s.tree = 0 := by
      revert hconcluding
      exact forall_goto
        (P := fun v p => v ≠ 0 → CubeJobs.concluding p = true → openLeaves s.tree = 0)
        hs.concluding (fun _ h => by cases h) v hv
    dsimp only [State.goto]
    omega

/-- The master splits a leaf that has not been counted. -/
theorem JobsInvariant.divide {s t : State} {var : ℤ} (hs : JobsInvariant s)
    (hok : CountsOnce s (.divide var)) (h : CubeAndConquer.divide s var = some t) :
    JobsInvariant t := by
  unfold CubeAndConquer.divide at h
  split at h
  case h_2 => exact absurd h (by simp)
  case h_1 w rest hmaster =>
    obtain rfl := Option.some.inj h
    have hw : w ∈ owners s.tree := hs.targets w (by simp [hmaster, CubeJobs.targets])
    have hopen : isRefuted s.tree w = false :=
      hok w (by simp [hmaster, CubeJobs.targets])
    have hperm := owners_split hs.nodup hw s.created var
    have hfresh : s.created ∉ owners s.tree := fun hm => (hs.owned _ hm).2.ne rfl
    have hleaves := openLeaves_split hs.nodup hw s.created var
    rw [hopen] at hleaves
    simp only [Bool.false_eq_true, if_false] at hleaves
    have hmem : ∀ v, v ∈ owners (split w s.created var s.tree) ↔
        v = s.created ∨ v ∈ owners s.tree := by
      intro v
      rw [hperm.mem_iff, List.mem_cons]
    refine ⟨?_, ?_, Nat.succ_pos _, ?_, ?_, ?_, hs.overWorkers, ?_, ?_, ?_, ?_, ?_, ?_⟩
    · rw [hperm.nodup_iff, List.nodup_cons]
      exact ⟨hfresh, hs.nodup⟩
    · intro v hv
      rcases (hmem v).mp hv with rfl | hv
      · exact ⟨hs.created.ne', Nat.lt_succ_self _⟩
      · exact ⟨(hs.owned v hv).1, (hs.owned v hv).2.trans (Nat.lt_succ_self _)⟩
    · have hhead := hs.head
      cases hslaves : s.slaves with
      | nil => simp [hslaves] at hhead
      | cons first others =>
        rw [hslaves] at hhead
        exact hhead
    · intro v hv
      rw [List.mem_append, List.mem_singleton] at hv
      exact (hmem v).mpr (hv.symm.imp_right (hs.workers v))
    · intro v hv
      exact (hmem v).mpr (Or.inr (hs.targets v (by
        rw [hmaster]
        exact List.mem_cons_of_mem _ hv)))
    · intro v hv
      by_cases hc : v = s.created
      · exact Or.inr ((hmem v).mpr (Or.inl hc))
      · dsimp only at hv
        rw [Function.update_of_ne hc] at hv
        exact (hs.interrupted v hv).imp_right fun hv => (hmem v).mpr (Or.inr hv)
    · exact forall_goto (P := fun v p => CubeJobs.awake p = true →
        v = 0 ∨ v ∈ owners (split w s.created var s.tree))
        (fun v hv => (hs.awake v hv).imp_right fun hv => (hmem v).mpr (Or.inr hv))
        (fun h => by cases h)
    · exact forall_goto (P := fun v p => CubeJobs.reporting p = true → v ≠ 0)
        hs.reporting (fun h => by cases h)
    · have hjobs := hs.jobs
      dsimp only
      omega
    · exact reportedOnce_split hs.nodup hw hs.once s.created var
    · -- an open leaf is left, so no thread is publishing UNSAT
      have hpos := openLeaves_pos hs.nodup hw hopen
      refine forall_goto (P := fun v p => v ≠ 0 → CubeJobs.concluding p = true →
        openLeaves (split w s.created var s.tree) = 0) ?_ (fun _ h => by cases h)
      intro v hv hconcluding
      have hzero := hs.concluding v hv hconcluding
      omega

/-! ### One step -/

/-- A thread moves, and what other threads read stays. -/
theorem JobsInvariant.goto {s : State} (hs : JobsInvariant s) (w : ℕ) (p : WorkerPc)
    (hawake : CubeJobs.awake p = true → w = 0 ∨ w ∈ owners s.tree)
    (hreporting : CubeJobs.reporting p = true → w ≠ 0)
    (hconcluding : w ≠ 0 → CubeJobs.concluding p = true → openLeaves s.tree = 0) :
    JobsInvariant (s.goto w p) :=
  hs.move w p rfl rfl rfl rfl rfl rfl rfl hs.overWorkers (fun _ h => h) hawake hreporting
    hconcluding

/-- A thread goes back to the head of its loop. -/
theorem JobsInvariant.check {s : State} (hs : JobsInvariant s) (w : ℕ) :
    JobsInvariant (s.goto w .check) :=
  hs.goto w .check (fun h => by cases h) (fun h => by cases h) (fun _ h => by cases h)

theorem jobs_calling {s t : State} {w : ℕ} {res : SatResult} {model : List ℤ}
    (hs : JobsInvariant s) (hp : s.pc w = .calling res model)
    (h : stepWorker s w = some t) : JobsInvariant t := by
  have hw := hs.awake w (by rw [hp]; rfl)
  simp only [stepWorker, hp, hs.head, ne_eq, Option.some.injEq] at h
  subst h
  by_cases hdrop : res = .unknown ∨ s.strategyEnding = true
  · rw [if_pos hdrop]
    exact hs.check w
  · rw [if_neg hdrop]
    by_cases hcount : res = .unsat ∧ ¬ 0 = w
    · rw [if_pos hcount]
      exact hs.goto w _ (fun _ => hw) (fun _ h => hcount.2 h.symm) (fun _ h => by cases h)
    · rw [if_neg hcount]
      refine hs.goto w _ (fun _ => hw) (fun h => by cases h) ?_
      intro hw0 hconcluding
      cases res with
      | unsat => exact absurd ⟨rfl, fun h => hw0 h.symm⟩ hcount
      | sat => cases hconcluding
      | unknown => cases hconcluding

theorem jobs_ready {s t : State} {w : ℕ} (hs : JobsInvariant s) (hp : s.pc w = .ready)
    (h : stepWorker s w = some t) : JobsInvariant t := by
  simp only [stepWorker, hp, Option.some.injEq] at h
  subst h
  cases hflag : s.interrupt w with
  | true =>
    exact hs.goto w .blocked (fun h => by cases h) (fun h => by cases h)
      (fun _ h => by cases h)
  | false =>
    exact hs.goto w .entering (fun _ => hs.interrupted w hflag) (fun h => by cases h)
      (fun _ h => by cases h)

theorem jobs_returned {s t : State} {w : ℕ} {res : SatResult} {model : List ℤ}
    (hs : JobsInvariant s) (hp : s.pc w = .returned res model)
    (h : stepWorker s w = some t) : JobsInvariant t := by
  have hw := hs.awake w (by rw [hp]; rfl)
  simp only [stepWorker, hp, Option.some.injEq] at h
  subst h
  cases s.globalEnding with
  | true => exact hs.check w
  | false =>
    exact hs.goto w (.calling res model) (fun _ => hw) (fun h => by cases h)
      (fun _ h => by cases h)

/-- The test of nJobs, which counts the open leaves. -/
theorem jobs_testing {s t : State} {w : ℕ} {model : List ℤ} (hs : JobsInvariant s)
    (hp : s.pc w = .testing model) (h : stepWorker s w = some t) : JobsInvariant t := by
  have hw := hs.awake w (by rw [hp]; rfl)
  have hw0 := hs.reporting w (by rw [hp]; rfl)
  simp only [stepWorker, hp, Option.some.injEq] at h
  subst h
  by_cases hjobs : 0 < s.nJobs
  · rw [if_pos hjobs]
    exact hs.goto w .pushing (fun _ => hw) (fun _ => hw0) (fun _ h => by cases h)
  · rw [if_neg hjobs]
    have hcount := hs.jobs
    exact hs.goto w _ (fun _ => hw) (fun h => by cases h) (fun _ _ => by omega)

theorem jobs_pushing {s t : State} {w : ℕ} (hs : JobsInvariant s) (hp : s.pc w = .pushing)
    (h : stepWorker s w = some t) : JobsInvariant t := by
  have hw := hs.awake w (by rw [hp]; rfl)
  have hw0 := hs.reporting w (by rw [hp]; rfl)
  simp only [stepWorker, hp, Option.some.injEq] at h
  subst h
  refine hs.move w .launching rfl rfl rfl rfl rfl rfl rfl ?_ (fun _ h => h)
    (fun _ => hw) (fun _ => hw0) (fun _ h => by cases h)
  intro v hv
  rcases List.mem_append.mp hv with hv | hv
  · exact hs.overWorkers v hv
  · rw [List.mem_singleton.mp hv]
    exact hw0

theorem jobs_launching {s t : State} {w : ℕ} (hs : JobsInvariant s) (hp : s.pc w = .launching)
    (h : stepWorker s w = some t) : JobsInvariant t := by
  simp only [stepWorker, hp] at h
  split at h
  case h_1 v hv =>
    obtain rfl := Option.some.inj h
    have hlaunch := hs.launch (Or.inr (hs.workers v (List.mem_of_getElem? hv)))
    exact hlaunch.move w .check rfl rfl rfl rfl rfl rfl rfl hs.overWorkers (fun _ h => h)
      (fun h => by cases h) (fun h => by cases h) (fun _ h => by cases h)
  case h_2 =>
    obtain rfl := Option.some.inj h
    exact hs.check w

/-- The steps after strategyEnding is set, up to finalResult. -/
theorem jobs_concluding {s t : State} {w : ℕ} {p : WorkerPc} (hs : JobsInvariant s)
    (hw : w = 0 ∨ w ∈ owners s.tree) (hpc : t.pc = Function.update s.pc w p)
    (htree : t.tree = s.tree) (hjobs : t.nJobs = s.nJobs) (hcreated : t.created = s.created)
    (hslaves : t.slaves = s.slaves) (hworkers : t.workers = s.workers)
    (hmaster : t.master = s.master) (hover : t.overWorkers = s.overWorkers)
    (hinterrupt : ∀ v, t.interrupt v = false → s.interrupt v = false)
    (hreporting : reporting p = false)
    (hconcluding : concluding p = true → concluding (s.pc w) = true) : JobsInvariant t := by
  refine hs.move w p hpc htree hjobs hcreated hslaves hworkers hmaster ?_ hinterrupt
    (fun _ => hw) (fun h => ?_) fun hw0 h => hs.concluding w hw0 (hconcluding h)
  · rw [hover]
    exact hs.overWorkers
  · rw [hreporting] at h
    cases h

theorem jobs_interrupting {s t : State} {w i : ℕ} {res : SatResult} {model : List ℤ}
    (hs : JobsInvariant s) (hp : s.pc w = .interrupting i res model)
    (h : stepWorker s w = some t) : JobsInvariant t := by
  have hw := hs.awake w (by rw [hp]; rfl)
  simp only [stepWorker, hp] at h
  split at h
  case h_1 v hv =>
    obtain rfl := Option.some.inj h
    have hpv : (s.setInterrupt v).pc w = .interrupting i res model := hp
    exact jobs_concluding (hs.setInterrupt v) hw rfl rfl rfl rfl rfl rfl rfl rfl (fun _ h => h)
      rfl (by simp [hpv])
  case h_2 =>
    obtain rfl := Option.some.inj h
    exact jobs_concluding hs hw rfl rfl rfl rfl rfl rfl rfl rfl (fun _ h => h) rfl (by simp [hp])

theorem jobs_worker {s t : State} {w : ℕ} (hs : JobsInvariant s)
    (hok : CountsOnce s (.worker w)) (h : stepWorker s w = some t) : JobsInvariant t := by
  have hawake := hs.awake w
  cases hp : s.pc w with
  | check =>
    simp only [stepWorker, hp, Option.some.injEq] at h
    subst h
    refine hs.goto w _ ?_ ?_ ?_ <;> split <;> simp [awake, reporting, concluding]
  | ready => exact jobs_ready hs hp h
  | entering =>
    rw [hp] at hawake
    simp only [stepWorker, hp, Option.some.injEq] at h
    subst h
    exact hs.move w .solving rfl rfl rfl rfl rfl rfl rfl hs.overWorkers (fun _ h => h)
      (fun _ => hawake rfl) (fun h => by cases h) (fun _ h => by cases h)
  | returned res model => exact jobs_returned hs hp h
  | calling res model => exact jobs_calling hs hp h
  | counting model =>
    simp only [stepWorker, hp, Option.some.injEq] at h
    subst h
    exact hs.count hp (hok (by rw [hp]; rfl))
  | testing model => exact jobs_testing hs hp h
  | pushing => exact jobs_pushing hs hp h
  | launching => exact jobs_launching hs hp h
  | interrupting i res model => exact jobs_interrupting hs hp h
  | ending res model | publishing res model =>
    rw [hp] at hawake
    simp only [stepWorker, hp, Option.some.injEq] at h
    subst h
    exact jobs_concluding hs (hawake rfl) rfl rfl rfl rfl rfl rfl rfl rfl (fun _ h => h) rfl
      (by simp [hp])
  | storing res model =>
    simp only [stepWorker, hp, Option.some.injEq] at h
    subst h
    exact hs.move w .check rfl rfl rfl rfl rfl rfl rfl hs.overWorkers (fun _ h => h)
      (fun h => by cases h) (fun h => by cases h) (fun _ h => by cases h)
  | blocked | solving | done => simp [stepWorker, hp] at h

/-- The master moves to a place with known targets. -/
theorem JobsInvariant.setMaster {s : State} (hs : JobsInvariant s) (master : MasterPc)
    (htargets : ∀ w ∈ CubeJobs.targets master, w ∈ owners s.tree) :
    JobsInvariant { s with master := master } :=
  { hs with targets := htargets }

/-- The master erases a worker other than slaves[0]. -/
theorem JobsInvariant.erase {s : State} (hs : JobsInvariant s) {w : ℕ} (hw : w ≠ 0)
    (i : ℕ) :
    JobsInvariant { s with
      workers := s.workers.filter (· ≠ w)
      slaves := s.slaves.filter (· ≠ w)
      master := .deleting i w } := by
  refine { hs with head := ?_, workers := ?_, targets := by simp [CubeJobs.targets] }
  · have hhead := hs.head
    cases hslaves : s.slaves with
    | nil => simp [hslaves] at hhead
    | cons first rest =>
      rw [hslaves] at hhead
      obtain rfl := Option.some.inj hhead
      dsimp only
      rw [List.filter_cons_of_pos (by simpa using hw.symm)]
      rfl
  · intro v hv
    exact hs.workers v (List.mem_of_mem_filter hv)

section Master
variable {cfg : Config} {s t : State}

theorem targets_nil (w : ℕ) (hw : w ∈ ([] : List ℕ)) : w ∈ owners s.tree :=
  absurd hw List.not_mem_nil

/-- The start: slaves[0] is launched, then the root worker. -/
theorem jobs_masterStart (hs : JobsInvariant s) (h : stepMaster cfg s = some t)
    (hm : s.master = .startPortfolio ∨ s.master = .startRoot) : JobsInvariant t := by
  rcases hm with hm | hm
  · simp only [stepMaster, hm, hs.head, Option.some.injEq] at h
    subst h
    exact (hs.launch (Or.inl rfl)).setMaster .startRoot targets_nil
  · simp only [stepMaster, hm] at h
    split at h
    case h_1 v hv =>
      obtain rfl := Option.some.inj h
      have hmem := hs.workers v (List.mem_of_mem_head? hv)
      exact (hs.launch (Or.inr hmem)).setMaster .test targets_nil
    case h_2 => exact absurd h (by simp)

/-- The loop that interrupts the workers and waits for them. -/
theorem jobs_masterInterrupt {i : ℕ} (hs : JobsInvariant s) (h : stepMaster cfg s = some t)
    (hm : s.master = .interrupting i ∨ s.master = .waiting i) : JobsInvariant t := by
  rcases hm with hm | hm
  · simp only [stepMaster, hm] at h
    split at h
    case h_1 v hv =>
      obtain rfl := Option.some.inj h
      exact (hs.setInterrupt v).setMaster (.waiting i) targets_nil
    case h_2 =>
      obtain rfl := Option.some.inj h
      exact hs.setMaster (.erasing 0) targets_nil
  · simp only [stepMaster, hm] at h
    split at h
    case h_1 v hv =>
      split at h
      · exact absurd h (by simp)
      · obtain rfl := Option.some.inj h
        exact hs.setMaster (.interrupting (i + 1)) targets_nil
    case h_2 => exact absurd h (by simp)

theorem jobs_masterErase {i : ℕ} (hs : JobsInvariant s) (h : stepMaster cfg s = some t)
    (hm : s.master = .erasing i) : JobsInvariant t := by
  simp only [stepMaster, hm] at h
  split at h
  case h_1 w hw =>
    obtain rfl := Option.some.inj h
    exact hs.erase (hs.overWorkers w (List.mem_of_getElem? hw)) i
  case h_2 =>
    obtain rfl := Option.some.inj h
    exact hs.setMaster .clearing targets_nil

/-- The loop that launches the workers of the round. -/
theorem jobs_masterLaunch {i n : ℕ} (hs : JobsInvariant s) (h : stepMaster cfg s = some t)
    (hm : s.master = .launching i n) : JobsInvariant t := by
  simp only [stepMaster, hm] at h
  split at h
  · split at h
    case h_1 v hv =>
      obtain rfl := Option.some.inj h
      have hmem := hs.workers v (List.mem_of_getElem? hv)
      exact (hs.launch (Or.inr hmem)).setMaster (.launching (i + 1) n) targets_nil
    case h_2 => exact absurd h (by simp)
  · obtain rfl := Option.some.inj h
    have hstep := hs.setMaster .test targets_nil
    exact { hstep with }

theorem jobs_master (hs : JobsInvariant s) (h : stepMaster cfg s = some t) :
    JobsInvariant t := by
  cases hm : s.master with
  | startPortfolio => exact jobs_masterStart hs h (Or.inl hm)
  | startRoot => exact jobs_masterStart hs h (Or.inr hm)
  | test | rest =>
    simp only [stepMaster, hm, Option.some.injEq] at h
    subst h
    refine hs.setMaster _ ?_
    split <;> exact targets_nil
  | interrupting i => exact jobs_masterInterrupt hs h (Or.inl hm)
  | waiting i => exact jobs_masterInterrupt hs h (Or.inr hm)
  | erasing i => exact jobs_masterErase hs h hm
  | deleting i w =>
    simp only [stepMaster, hm, Option.some.injEq] at h
    subst h
    have hstep := hs.setMaster (.halting i w) targets_nil
    exact { hstep with }
  | halting i w =>
    simp only [stepMaster, hm, Option.some.injEq] at h
    subst h
    exact (hs.setInterrupt w).setMaster (.reaping i w) targets_nil
  | reaping i w =>
    simp only [stepMaster, hm] at h
    split at h
    · obtain rfl := Option.some.inj h
      exact hs.setMaster (.erasing (i + 1)) targets_nil
    · exact absurd h (by simp)
  | clearing =>
    simp only [stepMaster, hm, Option.some.injEq] at h
    subst h
    have hstep := hs.setMaster .choosing targets_nil
    exact { hstep with overWorkers := by simp }
  | choosing =>
    simp only [stepMaster, hm, Option.some.injEq] at h
    subst h
    exact hs.setMaster (.dividing _) fun w hw => hs.workers w (List.mem_of_mem_take hw)
  | dividing ws =>
    cases ws with
    | nil =>
      simp only [stepMaster, hm, Option.some.injEq] at h
      subst h
      exact hs.setMaster .sorting targets_nil
    | cons w rest => simp [stepMaster, hm] at h
  | sorting =>
    simp only [stepMaster, hm] at h
    split at h
    · exact absurd h (by simp)
    · obtain rfl := Option.some.inj h
      exact hs.setMaster (.launching 0 _) targets_nil
  | launching i n => exact jobs_masterLaunch hs h hm
  | finished => simp [stepMaster, hm] at h

end Master

theorem jobs_sort {cfg : Config} {s t : State} {order : List ℕ} (hs : JobsInvariant s)
    (h : sort cfg s order = some t) : JobsInvariant t := by
  unfold sort at h
  split at h
  case isTrue hsorting =>
    obtain rfl := Option.some.inj h
    have hworkers : ∀ w ∈ order, w ∈ owners s.tree :=
      fun w hw => hs.workers w (hsorting.2.2.mem_iff.mp hw)
    exact { hs with workers := hworkers, targets := by simp [CubeJobs.targets] }
  case isFalse => exact absurd h (by simp)

theorem jobs_answer {s t : State} {w : ℕ} {res : SatResult} {model : List ℤ}
    (hs : JobsInvariant s) (h : answer s w res model = some t) : JobsInvariant t := by
  unfold answer at h
  split at h
  case isTrue hp =>
    obtain rfl := Option.some.inj h
    exact hs.goto w _ (fun _ => hs.awake w (by rw [hp]; rfl)) (fun h => by cases h)
      (fun _ h => by cases h)
  case isFalse => exact absurd h (by simp)

theorem jobs_step {cfg : Config} {s t : State} {a : Action} (hs : JobsInvariant s)
    (hok : CountsOnce s a) (h : step cfg s a = some t) : JobsInvariant t := by
  cases a with
  | master => exact jobs_master hs h
  | divide var => exact hs.divide hok h
  | sort order => exact jobs_sort hs h
  | worker w => exact jobs_worker hs hok h
  | answer w res model => exact jobs_answer hs h

/-! ### Every run -/

theorem jobs_start (next : ℕ) : JobsInvariant (start next) := by
  refine ⟨?_, ?_, ?_, rfl, ?_, ?_, ?_, ?_, ?_, ?_, rfl, ?_, ?_⟩
  · simp [start, owners, leaves]
  · simp [start, owners, leaves]
  · simp [start]
  · simp [start, owners, leaves]
  · simp [start, targets]
  · simp [start]
  · simp [start]
  · simp [start, awake]
  · simp [start, reporting]
  · simp [start, ReportedOnce, leaves]
  · simp [start, concluding]

theorem jobs_reach {cfg : Config} {s : State} (hs : (machine cfg).Reach CountsOnce s) :
    JobsInvariant s := by
  refine hs.invariant JobsInvariant ?_ (fun _ _ _ _ hinv hok h => jobs_step hinv hok h)
  rintro s ⟨next, rfl⟩
  exact jobs_start next

/-- A leaf counted twice, or split after it was counted, puts nJobs and the
open leaves out of step. -/
theorem not_accounted {cfg : Config} {s t : State} {a : Action} (hs : JobsInvariant s)
    (hbad : ¬ CountsOnce s a) (h : step cfg s a = some t) : ¬ Accounted t := by
  intro ht
  cases a with
  | worker w =>
    simp only [CountsOnce, not_forall, Bool.not_eq_false] at hbad
    obtain ⟨hcounting, hrefuted⟩ := hbad
    cases hp : s.pc w with
    | counting model =>
      simp only [step, stepWorker, hp, Option.some.injEq] at h
      subst h
      have hw0 : w ≠ 0 := hs.reporting w (by rw [hp]; rfl)
      have hw := (hs.awake w (by rw [hp]; rfl)).resolve_left hw0
      have hleaves := openLeaves_report hs.nodup hw
      rw [hrefuted] at hleaves
      simp only [if_true] at hleaves
      have hjobs := ht.jobs
      have hbefore := hs.jobs
      dsimp only [State.goto] at hjobs
      omega
    | _ => simp [hp, isCounting] at hcounting
  | divide var =>
    simp only [CountsOnce, not_forall, Bool.not_eq_false] at hbad
    obtain ⟨w, hmem, hrefuted⟩ := hbad
    simp only [step, divide] at h
    split at h
    case h_2 => exact absurd h (by simp)
    case h_1 v rest hmaster =>
      obtain rfl := Option.some.inj h
      obtain rfl : v = w := by simpa [hmaster, targets] using hmem
      have hw := hs.targets v (by simp [hmaster, targets])
      have hleaves := openLeaves_split hs.nodup hw s.created var
      rw [hrefuted] at hleaves
      simp only [if_true] at hleaves
      have hjobs := ht.jobs
      have hbefore := hs.jobs
      dsimp only at hjobs
      omega
  | master | sort | answer => exact hbad trivial

/-- The result becomes UNSAT only through a thread that is storing it. -/
theorem storing_of_unsat {s t : State} {w : ℕ} (h : stepWorker s w = some t)
    (hbefore : s.finalResult ≠ .unsat) (hafter : t.finalResult = .unsat) :
    ∃ model, s.pc w = .storing .unsat model ∧ t.tree = s.tree := by
  cases hp : s.pc w with
  | storing res model =>
    simp only [stepWorker, hp, Option.some.injEq] at h
    subst h
    obtain rfl : res = .unsat := hafter
    exact ⟨model, rfl, rfl⟩
  | launching | interrupting =>
    simp only [stepWorker, hp] at h
    split at h
    all_goals
      obtain rfl := Option.some.inj h
      exact absurd hafter hbefore
  | blocked | solving | done => simp [stepWorker, hp] at h
  | _ =>
    simp only [stepWorker, hp, Option.some.injEq] at h
    subst h
    exact absurd hafter hbefore

end Painless.CubeJobs
