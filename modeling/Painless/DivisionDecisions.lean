import Painless.DivisionSolvers
import Painless.DivisionThreads
import Painless.GlucoseDecisions

/-!
A divide-and-conquer run over Glucose solvers, with the decision flags of every
solver. A worker that is interrupted goes on with a larger cube, its clone with
another larger one, and a slave that has closed its cube holds no variable back.
So each search leaves out the variables of its own assumptions and those that
are eliminated, and no others. Nothing is assumed of the interrupts: the winner
or the timeout may interrupt a worker that was not asked to split.
-/
namespace Painless.DivisionDecisions

open DivideAndConquer (SolverId SlaveLists addOnceToVectorHead addOnceToVectorTail
  addOnceToVectorHead_of_notMem addOnceToVectorTail_of_notMem handOver handOver_eq joinUnknown
  joinUnknown_eq joinUnknown_spec joinUnsat joinUnsat_spec startUp startUp_spec)
open DivisionInterrupts DivisionThreads GlucoseDecisions SolverInterface Transitions

structure Config (W : Type*) extends DivideAndConquer.Config W where
  glucose : solverType = .glucose

structure State (W : Type*) where
  threads : Threads W
  engines : SolverId → Engine

inductive Action (W : Type*) where
  /-- GlucoseSyrup::solve, until it searches or has found a contradiction -/
  | solve (w : W) (o : Outcome)
  /-- every other step; `conflictEmpty` is read where a search ends -/
  | thread (a : DivisionThreads.Action W) (conflictEmpty : Bool)

variable {W : Type*} [DecidableEq W]

/-- GlucoseSyrup::solve first clears the interrupt request of its solver. -/
def clearInterrupt (s : Threads W) (x : SolverId) : Threads W :=
  { s with strategy := { s.strategy with
      stopSolver := Function.update s.strategy.stopSolver x false } }

def solve (s : State W) (w : W) (o : Outcome) : Option (State W) :=
  match s.threads.pc w, s.threads.strategy.solver w with
  | .solving, some x =>
    if (s.engines x).searching then none
    else
      let e := (s.engines x).solve (s.threads.strategy.given w) o
      let threads := clearInterrupt s.threads x
      (if e.searching then some threads else answer threads w .unsat []).map
        fun threads => ⟨threads, Function.update s.engines x e⟩
  | _, _ => none

/-- What a step of the threads does to the solvers: the end of a search, and the
clone made in a split. -/
def stepEngines (cfg : Config W) (s : State W) (conflictEmpty : Bool) :
    DivisionThreads.Action W → Option (SolverId → Engine)
  | .answer w res _ =>
    match s.threads.strategy.solver w with
    | some x =>
      if (s.engines x).searching then
        some (Function.update s.engines x ((s.engines x).endSearch res conflictEmpty))
      else none
    | none => none
  | .split w _ =>
    match s.threads.strategy.solver w with
    | some x =>
      if cfg.cloneStrategy = 2 then
        some (Function.update s.engines s.threads.strategy.currentIdSolver (s.engines x).clone)
      else some s.engines
    | none => none
  | _ => some s.engines

def step (cfg : Config W) (s : State W) : Action W → Option (State W)
  | .solve w o => solve s w o
  | .thread a conflictEmpty =>
    (DivisionThreads.step cfg.toConfig s.threads a).bind fun threads =>
      (stepEngines cfg s conflictEmpty a).map fun engines => ⟨threads, engines⟩

def machine (cfg : Config W) : Machine (State W) (Action W) where
  Init s := (DivisionThreads.machine cfg.toConfig).Init s.threads ∧
    ∀ x, ∃ ok, s.engines x = Engine.loaded ok
  step := step cfg

/-! ### The invariants -/

/-- The slaves that have no cube to work on. -/
def idle (l : SlaveLists W) : List W := l.overs ++ l.oversSplitting

/-- The thread neither solves nor has a result to report to the strategy. -/
def resting : Pc → Bool
  | .solving | .returned _ _ | .calling _ _ => false
  | _ => true

/-- The thread is to report that its cube has no model. -/
def refuted : Pc → Bool
  | .returned .unsat _ | .calling .unsat _ => true
  | _ => false

/-- An idle slave waits, and every other one solves the cube noted for it. -/
structure ThreadsOk (s : Threads W) : Prop where
  owned : SolversOwned s.strategy
  nodup : (idle s.strategy.toSlaveLists).Nodup
  rests : ∀ w ∈ idle s.strategy.toSlaveLists,
    resting (s.pc w) = true ∧ s.strategy.interrupt w = true
  given : ∀ w, w ∉ idle s.strategy.toSlaveLists → s.strategy.given w = s.strategy.cubes w

/-- The last solve of the worker has come to a result. -/
def Settled (s : Threads W) (w : W) : Prop :=
  w ∈ idle s.strategy.toSlaveLists ∨ refuted (s.pc w) = true

/-- The flags of a worker's solver. -/
structure EngineOk (s : Threads W) (w : W) (e : Engine) : Prop where
  searching : e.searching = true → s.pc w = .solving ∧ e.LeftOut (s.strategy.given w)
  sound : e.searching = false → e.Sound (s.strategy.given w)
  settled : Settled s w → e.searching = false → e.Sound []

structure Invariant (s : State W) : Prop where
  threads : ThreadsOk s.threads
  engines : ∀ w x, s.threads.strategy.solver w = some x → EngineOk s.threads w (s.engines x)

/-- What a step leaves of a worker, as far as its solver's flags go. -/
structure Carried (s t : Threads W) (w : W) : Prop where
  given : t.strategy.given w = s.strategy.given w
  solving : s.pc w = .solving → t.pc w = .solving
  settled : Settled t w → Settled s w

omit [DecidableEq W] in
theorem EngineOk.carry {s t : Threads W} {w : W} {e : Engine} (h : EngineOk s w e)
    (hst : Carried s t w) : EngineOk t w e := by
  refine ⟨fun hsearch => ?_, fun hidle => ?_, fun hsettled => h.settled (hst.settled hsettled)⟩
  · obtain ⟨hpc, hleft⟩ := h.searching hsearch
    exact ⟨hst.solving hpc, hst.given ▸ hleft⟩
  · rw [hst.given]
    exact h.sound hidle

/-- The solvers in use after a step were in use before it, by the same workers. -/
def Kept (s t : Threads W) : Prop :=
  ∀ w x, t.strategy.solver w = some x → s.strategy.solver w = some x ∧ Carried s t w

omit [DecidableEq W] in
/-- A slave that is at work is not idle. -/
theorem ThreadsOk.not_idle {s : Threads W} (hs : ThreadsOk s) {w : W}
    (h : resting (s.pc w) = false) : w ∉ idle s.strategy.toSlaveLists := by
  intro hmem
  rw [(hs.rests w hmem).1] at h
  cases h

/-! ### The idle slaves -/

section Lists
variable {cfg : DivideAndConquer.Config W} {s t : DivideAndConquer.State W}

theorem idle_handOver (h : handOver s = some t) (hnodup : (idle s.toSlaveLists).Nodup) :
    (idle t.toSlaveLists).Perm (idle s.toSlaveLists) := by
  obtain ⟨overSlave, overs, worker, workers, hovers, -, rfl⟩ := handOver_eq h
  unfold idle at hnodup ⊢
  rw [hovers, List.cons_append, List.nodup_cons, List.mem_append, not_or] at hnodup
  show (overs ++ addOnceToVectorTail s.oversSplitting overSlave).Perm _
  rw [addOnceToVectorTail_of_notMem hnodup.1.2, hovers, ← List.append_assoc]
  exact List.perm_append_singleton overSlave _

theorem idle_joinUnsat {current : W} (h : joinUnsat cfg s current = some t)
    (hnodup : (idle s.toSlaveLists).Nodup) (hw : current ∉ idle s.toSlaveLists) :
    (idle t.toSlaveLists).Perm (current :: idle s.toSlaveLists) := by
  unfold idle at hnodup hw ⊢
  rw [List.mem_append, not_or] at hw
  obtain ⟨⟨-, overSlave, rest, hovers, hl⟩ | ⟨-, hl⟩, -⟩ := joinUnsat_spec h
  · rw [hovers, List.nodup_append] at hnodup
    have hover : overSlave ∉ s.overs := fun hmem =>
      hnodup.2.2 overSlave hmem overSlave List.mem_cons_self rfl
    have hcurrent : current ∉ overSlave :: s.overs := by
      rw [List.mem_cons, not_or]
      refine ⟨?_, hw.1⟩
      rintro rfl
      exact hw.2 (by rw [hovers]; exact List.mem_cons_self)
    rw [hl, hovers]
    show (addOnceToVectorTail (addOnceToVectorHead s.overs overSlave) current ++ rest).Perm _
    rw [addOnceToVectorHead_of_notMem hover, addOnceToVectorTail_of_notMem hcurrent,
      List.append_assoc]
    refine List.perm_middle.trans (List.Perm.cons current ?_)
    exact List.perm_middle.symm
  · rw [hl]
    show (addOnceToVectorTail s.overs current ++ s.oversSplitting).Perm _
    rw [addOnceToVectorTail_of_notMem hw.1, List.append_assoc]
    exact List.perm_middle

theorem idle_joinUnknown {current : W} {var : ℤ} (h : joinUnknown cfg s current var = some t) :
    ∃ overSlave rest, s.oversSplitting = overSlave :: rest ∧
      (idle s.toSlaveLists).Perm (overSlave :: idle t.toSlaveLists) := by
  obtain ⟨overSlave, rest, hovers, hl, -, -⟩ := joinUnknown_spec h
  refine ⟨overSlave, rest, hovers, ?_⟩
  unfold idle
  rw [hl, hovers]
  exact List.perm_middle

/-- The slaves that a split does not launch keep their flag. -/
theorem joinUnknown_interrupt {current overSlave v : W} {rest : List W} {var : ℤ}
    (h : joinUnknown cfg s current var = some t) (hovers : s.oversSplitting = overSlave :: rest)
    (hcurrent : v ≠ current) (hover : v ≠ overSlave) : t.interrupt v = s.interrupt v := by
  obtain ⟨overSlave', rest', x, u, hovers', -, hu, rfl⟩ := joinUnknown_eq h
  obtain ⟨rfl, rfl⟩ := List.cons.inj (hovers.symm.trans hovers')
  rw [launchHalves_interrupt u current overSlave var hcurrent hover]
  rcases hu with rfl | hclone
  · rfl
  · rw [(cloneSolver_flags hclone).1]

/-- Without cloning every slave keeps its solver. -/
theorem joinUnknown_reuse (hcopy : cfg.cloneStrategy ≠ 2) {current : W} {var : ℤ}
    (h : joinUnknown cfg s current var = some t) : t.solver = s.solver := by
  unfold joinUnknown at h
  split at h
  · dsimp only at h
    rw [if_neg hcopy, Option.map_some] at h
    obtain rfl := Option.some.inj h
    exact launchHalves_solver _ _ _ _
  · exact absurd h (by simp)

end Lists

/-! ### The threads -/

variable {cfg : Config W} {s t : Threads W}

/-- A step outside the critical sections: at most an interrupt of one slave, and
threads that move on without a new result or a new cube. -/
theorem moved (hs : ThreadsOk s)
    (hstrategy : t.strategy = s.strategy ∨ ∃ v, t.strategy = s.strategy.setInterrupt v)
    (hpc : ∀ w, t.pc w = s.pc w ∨ s.pc w ≠ .solving ∧
      (w ∈ idle s.strategy.toSlaveLists → resting (t.pc w) = true) ∧
      (refuted (t.pc w) = true → refuted (s.pc w) = true)) :
    ThreadsOk t ∧ Kept s t := by
  have hframe : t.strategy.toSlaveLists = s.strategy.toSlaveLists ∧
      t.strategy.given = s.strategy.given ∧ t.strategy.cubes = s.strategy.cubes ∧
      t.strategy.solver = s.strategy.solver ∧ SolversOwned t.strategy ∧
      ∀ w, s.strategy.interrupt w = true → t.strategy.interrupt w = true := by
    rcases hstrategy with h | ⟨v, h⟩
    · rw [h]
      exact ⟨rfl, rfl, rfl, rfl, hs.owned, fun _ hw => hw⟩
    · rw [h]
      refine ⟨rfl, rfl, rfl, rfl, owned_setInterrupt hs.owned v, fun w hw => ?_⟩
      rw [setInterrupt_interrupt, hw, Bool.or_true]
  obtain ⟨hlists, hgiven, hcubes, hsolver, howned, hinterrupt⟩ := hframe
  refine ⟨⟨howned, hlists ▸ hs.nodup, fun w hw => ?_, fun w hw => ?_⟩,
    fun w x hx => ⟨hsolver ▸ hx, ?_⟩⟩
  · rw [hlists] at hw
    obtain ⟨hrest, hflag⟩ := hs.rests w hw
    refine ⟨?_, hinterrupt w hflag⟩
    rcases hpc w with hsame | ⟨-, hrests, -⟩
    · rwa [hsame]
    · exact hrests hw
  · rw [hlists] at hw
    rw [hgiven, hcubes]
    exact hs.given w hw
  · refine ⟨by rw [hgiven], fun hsolving => ?_, fun hsettled => ?_⟩
    · rcases hpc w with hsame | ⟨hnot, -, -⟩
      · rw [hsame, hsolving]
      · exact absurd hsolving hnot
    · rw [Settled, hlists] at hsettled
      refine hsettled.imp_right fun hrefuted => ?_
      rcases hpc w with hsame | ⟨-, -, hback⟩
      · rwa [hsame] at hrefuted
      · exact hback hrefuted

/-- The thread of `w` moves from a place other than solving. -/
theorem goto_moved {w : W} {p : Pc} (hs : ThreadsOk s) (hpc : t.pc = Function.update s.pc w p)
    (hstrategy : t.strategy = s.strategy ∨ ∃ v, t.strategy = s.strategy.setInterrupt v)
    (hleft : s.pc w ≠ .solving)
    (hrests : w ∈ idle s.strategy.toSlaveLists → resting p = true)
    (hrefuted : refuted p = true → refuted (s.pc w) = true) :
    ThreadsOk t ∧ Kept s t := by
  refine moved hs hstrategy fun v => ?_
  rw [hpc]
  by_cases hv : v = w
  · rw [hv, Function.update_self]
    exact Or.inr ⟨hleft, hrests, hrefuted⟩
  · exact Or.inl (Function.update_of_ne hv _ _)

/-- DivideAndConquer::join with UNSAT. -/
theorem closed {w : W} {model : List ℤ} {p : Pc} (hs : ThreadsOk s)
    (hcalling : s.pc w = .calling .unsat model)
    (h : joinUnsat cfg.toConfig s.strategy w = some t.strategy)
    (hpc : t.pc = Function.update s.pc w p) (hrests : resting p = true) :
    ThreadsOk t ∧ Kept s t := by
  have hw : w ∉ idle s.strategy.toSlaveLists := hs.not_idle (by rw [hcalling]; rfl)
  have hperm := idle_joinUnsat h hs.nodup hw
  have hidle (v : W) : v ∈ idle t.strategy.toSlaveLists ↔
      v = w ∨ v ∈ idle s.strategy.toSlaveLists := by
    rw [hperm.mem_iff, List.mem_cons]
  obtain ⟨-, hcubes, hgiven⟩ := joinUnsat_spec h
  obtain ⟨hinterrupt, -, -, hsolver⟩ := joinUnsat_flags h
  have hother (v : W) (hv : v ≠ w) : t.pc v = s.pc v := by
    rw [hpc, Function.update_of_ne hv]
  refine ⟨⟨owned_step (a := .joinUnsat w) hs.owned h, ?_, fun v hv => ?_, fun v hv => ?_⟩,
    fun v x hx => ⟨hsolver v x hx, by rw [hgiven], fun hsolving => ?_, fun hsettled => ?_⟩⟩
  · rw [hperm.nodup_iff, List.nodup_cons]
    exact ⟨hw, hs.nodup⟩
  · rw [hinterrupt]
    by_cases hvw : v = w
    · rw [hpc, hvw, Function.update_self]
      exact ⟨hrests, by simp⟩
    · obtain ⟨hrest, hflag⟩ := hs.rests v (((hidle v).mp hv).resolve_left hvw)
      rw [hother v hvw, hflag]
      exact ⟨hrest, Bool.or_true _⟩
  · rw [hidle, not_or] at hv
    rw [hcubes, hgiven]
    exact hs.given v hv.2
  · have hne : v ≠ w := by
      rintro rfl
      rw [hcalling] at hsolving
      cases hsolving
    rw [hother v hne, hsolving]
  · by_cases hvw : v = w
    · right
      rw [hvw, hcalling]
      rfl
    · rw [Settled, hidle, hother v hvw] at hsettled
      exact hsettled.imp_left fun hmem => hmem.resolve_left hvw

/-- The master hands an idle slave to a worker. -/
theorem handedOver (hs : ThreadsOk s) (h : handOver s.strategy = some t.strategy)
    (hpc : t.pc = s.pc) : ThreadsOk t ∧ Kept s t := by
  have hperm := idle_handOver h hs.nodup
  have hidle (v : W) : v ∈ idle t.strategy.toSlaveLists ↔ v ∈ idle s.strategy.toSlaveLists :=
    hperm.mem_iff
  obtain ⟨overSlave, overs, worker, workers, -, -, hstrategy⟩ := handOver_eq h
  have hframe : t.strategy.given = s.strategy.given ∧ t.strategy.cubes = s.strategy.cubes ∧
      t.strategy.solver = s.strategy.solver ∧ SolversOwned t.strategy := by
    rw [hstrategy]
    exact ⟨rfl, rfl, rfl, hs.owned.of_frame (fun _ _ hx => hx) (Nat.le_refl _)⟩
  obtain ⟨hgiven, hcubes, hsolver, howned⟩ := hframe
  refine ⟨⟨howned, hperm.nodup_iff.mpr hs.nodup, fun v hv => ?_, fun v hv => ?_⟩,
    fun v x hx => ⟨hsolver ▸ hx, by rw [hgiven], fun hsolving => ?_, fun hsettled => ?_⟩⟩
  · obtain ⟨hrest, hflag⟩ := hs.rests v ((hidle v).mp hv)
    rw [hpc, hstrategy, setInterrupt_interrupt]
    refine ⟨hrest, ?_⟩
    show (_ || s.strategy.interrupt v) = true
    rw [hflag, Bool.or_true]
  · rw [hgiven, hcubes]
    exact hs.given v (fun hmem => hv ((hidle v).mpr hmem))
  · rw [hpc, hsolving]
  · rwa [Settled, hidle, hpc] at hsettled

theorem threadsOk_master {a : DivisionThreads.Action W} (hs : ThreadsOk s)
    (h : stepMaster s a = some t) : ThreadsOk t ∧ Kept s t := by
  rcases stepMaster_cases h with ⟨strategy, -, hhand, rfl⟩ | ⟨master, rfl⟩
  · exact handedOver hs hhand rfl
  · exact moved hs (Or.inl rfl) (fun _ => Or.inl rfl)

theorem threadsOk_timeout {a : DivisionThreads.Action W} (hs : ThreadsOk s)
    (h : stepTimeout cfg.toConfig s a = some t) : ThreadsOk t ∧ Kept s t := by
  unfold stepTimeout at h
  split at h
  · split at h
    · obtain rfl := Option.some.inj h
      exact moved hs (Or.inl rfl) (fun _ => Or.inl rfl)
    · exact absurd h (by simp)
  · split at h
    · obtain ⟨v, -, rfl⟩ := Option.map_eq_some_iff.mp h
      exact moved hs (Or.inr ⟨v, rfl⟩) (fun _ => Or.inl rfl)
    · exact absurd h (by simp)
  · exact absurd h (by simp)

theorem threadsOk_worker {w : W} (hs : ThreadsOk s)
    (h : stepWorker cfg.toConfig s w = some t) : ThreadsOk t ∧ Kept s t := by
  cases hp : s.pc w with
  | blocked => simp [stepWorker, hp] at h
  | solving => simp [stepWorker, hp] at h
  | done => simp [stepWorker, hp] at h
  | top =>
    simp only [stepWorker, hp, Option.some.injEq] at h
    subst h
    refine goto_moved hs rfl (Or.inl rfl) (by simp [hp]) ?_ ?_ <;> split <;>
      simp [resting, refuted]
  | ready =>
    simp only [stepWorker, hp, Option.some.injEq] at h
    subst h
    refine goto_moved hs rfl (Or.inl rfl) (by simp [hp]) (fun hidle => ?_) ?_
    · rw [(hs.rests w hidle).2]
      rfl
    · split <;> simp [refuted]
  | returned res model =>
    have hnot : w ∉ idle s.strategy.toSlaveLists := hs.not_idle (by rw [hp]; rfl)
    simp only [stepWorker, hp, Option.some.injEq] at h
    subst h
    refine goto_moved hs rfl (Or.inl rfl) (by simp [hp]) (fun hmem => absurd hmem hnot) ?_
    rw [hp]
    split
    · exact fun hf => by cases hf
    · cases res <;> exact id
  | calling res model =>
    cases res with
    | unknown => simp [stepWorker, hp] at h
    | sat =>
      simp only [stepWorker, hp, Option.some.injEq] at h
      subst h
      exact goto_moved hs rfl (Or.inl rfl) (by simp [hp]) (fun _ => rfl) (fun hf => by cases hf)
    | unsat =>
      simp only [stepWorker, hp] at h
      obtain ⟨strategy, hjoin, rfl⟩ := Option.map_eq_some_iff.mp h
      exact closed hs hp hjoin rfl (by split <;> rfl)
  | finishing res model =>
    simp only [stepWorker, hp] at h
    split at h
    · exact absurd h (by simp)
    · split at h <;> obtain rfl := Option.some.inj h <;>
        exact goto_moved hs rfl (Or.inl rfl) (by simp [hp]) (fun _ => rfl) (fun hf => by cases hf)
  | interrupting i res model =>
    simp only [stepWorker, hp] at h
    split at h
    case h_1 v hv =>
      obtain rfl := Option.some.inj h
      exact goto_moved hs rfl (Or.inr ⟨v, rfl⟩) (by simp [hp]) (fun _ => rfl)
        (fun hf => by cases hf)
    case h_2 =>
      obtain rfl := Option.some.inj h
      exact goto_moved hs rfl (Or.inl rfl) (by simp [hp]) (fun _ => rfl) (fun hf => by cases hf)
  | publishing res model =>
    simp only [stepWorker, hp, Option.some.injEq] at h
    subst h
    exact goto_moved hs rfl (Or.inl rfl) (by simp [hp]) (fun _ => rfl) (fun hf => by cases hf)
  | storing res model =>
    simp only [stepWorker, hp, Option.some.injEq] at h
    subst h
    exact goto_moved hs rfl (Or.inl rfl) (by simp [hp]) (fun _ => rfl) (fun hf => by cases hf)

theorem answer_eq {w : W} {res : SatResult} {model : List ℤ}
    (h : answer s w res model = some t) :
    s.pc w = .solving ∧ t.strategy = s.strategy ∧
      ∃ model', t.pc = Function.update s.pc w (.returned res model') := by
  unfold answer at h
  split at h
  case h_2 => exact absurd h (by simp)
  case h_1 hp _ =>
    split at h
    · exact absurd h (by simp)
    · obtain rfl := Option.some.inj h
      exact ⟨hp, rfl, _, rfl⟩

/-- The end of a solve is a result of its own worker only. -/
theorem threadsOk_answer {w : W} {res : SatResult} {model : List ℤ} (hs : ThreadsOk s)
    (h : answer s w res model = some t) :
    ThreadsOk t ∧ ∀ v, v ≠ w → Carried s t v := by
  obtain ⟨hsolving, hstrategy, model', hpc⟩ := answer_eq h
  have hother (v : W) (hv : v ≠ w) : t.pc v = s.pc v := by
    rw [hpc, Function.update_of_ne hv]
  refine ⟨⟨hstrategy ▸ hs.owned, hstrategy ▸ hs.nodup, fun v hv => ?_, ?_⟩, fun v hv => ?_⟩
  · rw [hstrategy] at hv ⊢
    have hne : v ≠ w := by
      rintro rfl
      exact hs.not_idle (by rw [hsolving]; rfl) hv
    rw [hother v hne]
    exact hs.rests v hv
  · rw [hstrategy]
    exact hs.given
  · refine ⟨by rw [hstrategy], fun h => (hother v hv).trans h, fun hsettled => ?_⟩
    rwa [Settled, hstrategy, hother v hv] at hsettled

/-- What a split leaves of the two workers it launches. -/
structure Halved (cfg : Config W) (s t : Threads W) (w overSlave : W) (var : ℤ) : Prop where
  ne : overSlave ≠ w
  idle : overSlave ∈ idle s.strategy.toSlaveLists
  calling : s.pc w ≠ .solving
  worker : t.strategy.solver w = s.strategy.solver w
  workerGiven : t.strategy.given w = s.strategy.given w ++ [var]
  overGiven : t.strategy.given overSlave = s.strategy.given w ++ [-var]
  cloned : cfg.cloneStrategy = 2 →
    t.strategy.solver overSlave = some s.strategy.currentIdSolver
  reused : cfg.cloneStrategy ≠ 2 →
    t.strategy.solver overSlave = s.strategy.solver overSlave
  unsettled : ∀ v, v = w ∨ v = overSlave → ¬ Settled t v
  others : ∀ v, v ≠ w → v ≠ overSlave →
    t.strategy.solver v = s.strategy.solver v ∧ Carried s t v

/-- What DivideAndConquer::join with UNKNOWN does to the idle slaves and to the
threads: it launches the caller and one idle slave. -/
structure Launched (cfg : Config W) (s t : Threads W) (w overSlave : W) (var : ℤ) : Prop where
  join : joinUnknown cfg.toConfig s.strategy w var = some t.strategy
  head : ∃ rest, s.strategy.oversSplitting = overSlave :: rest
  busy : w ∉ idle s.strategy.toSlaveLists
  calling : s.pc w ≠ .solving
  perm : (idle s.strategy.toSlaveLists).Perm (overSlave :: idle t.strategy.toSlaveLists)
  halves : ∀ v, v = w ∨ v = overSlave → refuted (t.pc v) = false
  others : ∀ v, v ≠ w → v ≠ overSlave → t.pc v = s.pc v

theorem launched_split {w : W} {var : ℤ} (hs : ThreadsOk s)
    (h : split cfg.toConfig s w var = some t) : ∃ overSlave, Launched cfg s t w overSlave var := by
  obtain ⟨model, overSlave, rest, hcalling, hovers, hjoin, -, -, -, hpc⟩ := split_spec h
  obtain ⟨overSlave', rest', hovers', hperm⟩ := idle_joinUnknown hjoin
  obtain ⟨rfl, rfl⟩ := List.cons.inj (hovers.symm.trans hovers')
  have hover : overSlave ∈ idle s.strategy.toSlaveLists := hperm.mem_iff.mpr List.mem_cons_self
  refine ⟨overSlave, hjoin, ⟨rest, hovers⟩, hs.not_idle (by rw [hcalling]; rfl),
    by simp [hcalling], hperm, fun v hv => ?_, fun v hvw hvo => ?_⟩
  · rcases hpc v with ⟨hsame, hvw⟩ | ⟨-, htop⟩ | ⟨-, hsolving⟩
    · obtain rfl := hv.resolve_left hvw
      have hrest := (hs.rests v hover).1
      rw [hsame]
      cases hp : s.pc v <;> simp [hp, resting, refuted] at hrest ⊢
    · rw [htop]
      rfl
    · rw [hsolving]
      rfl
  · rcases hpc v with ⟨hsame, -⟩ | ⟨heq, -⟩ | ⟨heq, -⟩
    · exact hsame
    · exact absurd heq hvw
    · exact absurd heq hvo

namespace Launched
variable {w overSlave : W} {var : ℤ}

theorem mem_idle (h : Launched cfg s t w overSlave var) (v : W) :
    v ∈ idle s.strategy.toSlaveLists ↔
      v = overSlave ∨ v ∈ idle t.strategy.toSlaveLists := by
  rw [h.perm.mem_iff, List.mem_cons]

theorem idle (h : Launched cfg s t w overSlave var) :
    overSlave ∈ idle s.strategy.toSlaveLists :=
  (h.mem_idle overSlave).mpr (Or.inl rfl)

theorem ne (h : Launched cfg s t w overSlave var) : overSlave ≠ w := by
  rintro rfl
  exact h.busy h.idle

theorem not_idle (h : Launched cfg s t w overSlave var) (hs : ThreadsOk s) {v : W}
    (hv : v = w ∨ v = overSlave) : v ∉ DivisionDecisions.idle t.strategy.toSlaveLists := by
  rcases hv with rfl | rfl
  · exact fun hmem => h.busy ((h.mem_idle v).mpr (Or.inr hmem))
  · exact (List.nodup_cons.mp (h.perm.nodup_iff.mp hs.nodup)).1

/-- Each half goes on with the cube of the caller and one more literal. -/
theorem cubes (h : Launched cfg s t w overSlave var) :
    t.strategy.cubes = DivideAndConquer.halveCubes s.strategy.cubes w overSlave var ∧
      t.strategy.given = Function.update (Function.update s.strategy.given w
        (t.strategy.cubes w)) overSlave (t.strategy.cubes overSlave) := by
  obtain ⟨rest, hovers⟩ := h.head
  obtain ⟨overSlave', rest', hovers', -, hcubes, hgiven⟩ := joinUnknown_spec h.join
  obtain ⟨rfl, rfl⟩ := List.cons.inj (hovers.symm.trans hovers')
  exact ⟨hcubes h.ne, hgiven⟩

theorem given_of_ne (h : Launched cfg s t w overSlave var) {v : W} (hvw : v ≠ w)
    (hvo : v ≠ overSlave) : t.strategy.given v = s.strategy.given v := by
  rw [h.cubes.2, Function.update_of_ne hvo, Function.update_of_ne hvw]

theorem given_half (h : Launched cfg s t w overSlave var) {v : W} (hv : v = w ∨ v = overSlave) :
    t.strategy.given v = t.strategy.cubes v := by
  rw [h.cubes.2]
  by_cases hvo : v = overSlave
  · rw [hvo, Function.update_self]
  · obtain rfl := hv.resolve_right hvo
    rw [Function.update_of_ne hvo, Function.update_self]

theorem solver_over (h : Launched cfg s t w overSlave var) (hcopy : cfg.cloneStrategy = 2) :
    t.strategy.solver =
      Function.update s.strategy.solver overSlave (some s.strategy.currentIdSolver) := by
  obtain ⟨rest, hovers⟩ := h.head
  obtain ⟨overSlave', rest', hovers', hnew, -⟩ := DivisionSolvers.joinUnknown_solvers
    hcopy (by rw [cfg.glucose]; simp) h.join
  obtain ⟨rfl, rfl⟩ := List.cons.inj (hovers.symm.trans hovers')
  exact hnew

theorem solver_of_ne (h : Launched cfg s t w overSlave var) {v : W} (hv : v ≠ overSlave) :
    t.strategy.solver v = s.strategy.solver v := by
  by_cases hcopy : cfg.cloneStrategy = 2
  · rw [h.solver_over hcopy, Function.update_of_ne hv]
  · rw [joinUnknown_reuse hcopy h.join]

theorem unsettled (h : Launched cfg s t w overSlave var) (hs : ThreadsOk s) {v : W}
    (hv : v = w ∨ v = overSlave) : ¬ Settled t v := by
  rintro (hmem | hrefuted)
  · exact h.not_idle hs hv hmem
  · rw [h.halves v hv] at hrefuted
    cases hrefuted

theorem carried (h : Launched cfg s t w overSlave var) {v : W} (hvw : v ≠ w)
    (hvo : v ≠ overSlave) : Carried s t v := by
  refine ⟨h.given_of_ne hvw hvo, fun hsolving => ?_, fun hsettled => ?_⟩
  · rw [h.others v hvw hvo, hsolving]
  · rw [Settled, h.others v hvw hvo] at hsettled
    exact hsettled.imp_left fun hmem => (h.mem_idle v).mpr (Or.inr hmem)

theorem threadsOk (h : Launched cfg s t w overSlave var) (hs : ThreadsOk s) : ThreadsOk t := by
  have hnodup := h.perm.nodup_iff.mp hs.nodup
  refine ⟨owned_step (a := .joinUnknown w var) hs.owned h.join, (List.nodup_cons.mp hnodup).2,
    fun v hv => ?_, fun v hv => ?_⟩
  · have hvw : v ≠ w := fun heq => h.not_idle hs (Or.inl heq) hv
    have hvo : v ≠ overSlave := fun heq => h.not_idle hs (Or.inr heq) hv
    obtain ⟨rest, hovers⟩ := h.head
    rw [h.others v hvw hvo, joinUnknown_interrupt h.join hovers hvw hvo]
    exact hs.rests v ((h.mem_idle v).mpr (Or.inr hv))
  · by_cases hhalf : v = w ∨ v = overSlave
    · exact h.given_half hhalf
    · obtain ⟨hvw, hvo⟩ := not_or.mp hhalf
      have hnot : v ∉ DivisionDecisions.idle s.strategy.toSlaveLists := fun hmem =>
        hv (((h.mem_idle v).mp hmem).resolve_left hvo)
      rw [h.given_of_ne hvw hvo, h.cubes.1, DivideAndConquer.halveCubes,
        Function.update_of_ne hvo, Function.update_of_ne hvw]
      exact hs.given v hnot

theorem halved (h : Launched cfg s t w overSlave var) (hs : ThreadsOk s) :
    Halved cfg s t w overSlave var where
  ne := h.ne
  idle := h.idle
  calling := h.calling
  worker := h.solver_of_ne h.ne.symm
  workerGiven := by
    rw [h.given_half (Or.inl rfl), h.cubes.1, hs.given w h.busy, DivideAndConquer.halveCubes,
      Function.update_of_ne h.ne.symm, Function.update_self]
  overGiven := by
    rw [h.given_half (Or.inr rfl), h.cubes.1, hs.given w h.busy, DivideAndConquer.halveCubes,
      Function.update_self]
  cloned hcopy := by rw [h.solver_over hcopy, Function.update_self]
  reused hcopy := by rw [joinUnknown_reuse hcopy h.join]
  unsettled _ hv := h.unsettled hs hv
  others _ hvw hvo := ⟨h.solver_of_ne hvo, h.carried hvw hvo⟩

end Launched

/-- DivideAndConquer::join with UNKNOWN. -/
theorem threadsOk_split {w : W} {var : ℤ} (hs : ThreadsOk s)
    (h : split cfg.toConfig s w var = some t) :
    ThreadsOk t ∧ ∃ overSlave, Halved cfg s t w overSlave var := by
  obtain ⟨overSlave, hlaunched⟩ := launched_split hs h
  exact ⟨hlaunched.threadsOk hs, overSlave, hlaunched.halved hs⟩

/-! ### The solvers -/

theorem threadsOk_start {strategy : DivideAndConquer.State W}
    (h : startUp cfg.toConfig = some strategy) : ThreadsOk (start strategy) := by
  obtain ⟨first, rest, hslaves, hl, -, -⟩ := startUp_spec h
  have hnodup := cfg.nodup
  rw [hslaves, List.nodup_cons] at hnodup
  have hidle : idle strategy.toSlaveLists = rest := by
    rw [hl]
    exact List.append_nil rest
  refine ⟨owned_startUp h, hidle ▸ hnodup.2, fun w hw => ⟨rfl, ?_⟩, fun w hw => ?_⟩
  · rw [start, hidle] at hw
    refine idle_startUp h w fun hactive => ?_
    simp only [DivideAndConquer.Active, hl, List.mem_singleton, List.not_mem_nil, or_false]
      at hactive
    exact hnodup.1 (hactive ▸ hw)
  · rw [start, hidle] at hw
    unfold startUp at h
    obtain ⟨⟨first', rest'⟩, hhead, rfl⟩ := Option.map_eq_some_iff.mp h
    rw [hslaves] at hhead
    obtain ⟨rfl, rfl⟩ := Prod.ext_iff.mp (Option.some.inj hhead)
    by_cases hw' : w = first
    · simp [start, hw']
    · simp [start, hw', hslaves, hw]

theorem invariant_init {s : State W} (h : (machine cfg).Init s) : Invariant s := by
  obtain ⟨⟨strategy, hstart, hthreads⟩, hengines⟩ := h
  refine ⟨hthreads ▸ threadsOk_start hstart, fun w x _ => ?_⟩
  obtain ⟨ok, hloaded⟩ := hengines x
  rw [hloaded]
  exact ⟨fun hf => (by cases hf), fun _ => Engine.sound_loaded ok _,
    fun _ _ => Engine.sound_loaded ok _⟩

section Engines
omit [DecidableEq W]

theorem Kept.engines {s : State W} {t : Threads W} (hkept : Kept s.threads t)
    (hs : ∀ w x, s.threads.strategy.solver w = some x → EngineOk s.threads w (s.engines x)) :
    ∀ w x, t.strategy.solver w = some x → EngineOk t w (s.engines x) := by
  intro w x hx
  obtain ⟨hold, hcarried⟩ := hkept w x hx
  exact (hs w x hold).carry hcarried

/-- A step that changes the solver of one worker. -/
theorem engines_update {s : State W} {t : Threads W} {w : W} {x : SolverId} {e : Engine}
    (hs : Invariant s) (hw : s.threads.strategy.solver w = some x)
    (hsolver : t.strategy.solver = s.threads.strategy.solver)
    (hothers : ∀ v, v ≠ w → Carried s.threads t v) (he : EngineOk t w e) :
    ∀ v y, t.strategy.solver v = some y → EngineOk t v (Function.update s.engines x e y) := by
  intro v y hv
  rw [hsolver] at hv
  by_cases hvw : v = w
  · subst hvw
    obtain rfl := Option.some.inj (hw.symm.trans hv)
    rwa [Function.update_self]
  · have hne : y ≠ x := by
      rintro rfl
      exact hvw (hs.threads.owned.owned v w y hv hw)
    rw [Function.update_of_ne hne]
    exact (hs.engines v y hv).carry (hothers v hvw)

end Engines

theorem invariant_solve {s t : State W} {w : W} {o : Outcome} (hs : Invariant s)
    (h : solve s w o = some t) : Invariant t := by
  unfold solve at h
  split at h
  case h_2 => exact absurd h (by simp)
  case h_1 x hsolving hsolver =>
    split at h
    case isTrue => exact absurd h (by simp)
    case isFalse hbusy =>
      have hidle : (s.engines x).searching = false := Bool.eq_false_iff.mpr hbusy
      have hspec := Engine.solve_spec o ((hs.engines w x hsolver).sound hidle) hidle
      have hclear : ThreadsOk (clearInterrupt s.threads x) :=
        ⟨hs.threads.owned.of_frame (fun _ _ hx => hx) (Nat.le_refl _), hs.threads.nodup,
          hs.threads.rests, hs.threads.given⟩
      have hcarried (v : W) : Carried s.threads (clearInterrupt s.threads x) v := ⟨rfl, id, id⟩
      obtain ⟨threads, hthreads, rfl⟩ := Option.map_eq_some_iff.mp h
      split at hthreads
      case isTrue hsearch =>
        obtain rfl := Option.some.inj hthreads
        refine ⟨hclear, engines_update hs hsolver rfl (fun v _ => hcarried v) ?_⟩
        refine ⟨fun _ => ⟨hsolving, ?_⟩, fun hf => ?_, fun _ hf => ?_⟩
        · exact (hspec.resolve_right fun hno => absurd (hno.1.symm.trans hsearch) (by simp)).2
        · exact absurd (hf.symm.trans hsearch) (by simp)
        · exact absurd (hf.symm.trans hsearch) (by simp)
      case isFalse hsearch =>
        -- a contradiction was found before the search
        obtain ⟨hstill, hok⟩ := hspec.resolve_left fun hyes => hsearch hyes.1
        obtain ⟨hthreadsOk, hothers⟩ := threadsOk_answer hclear hthreads
        have hstrategy := (answer_eq hthreads).2.1
        refine ⟨hthreadsOk, engines_update hs hsolver (by rw [hstrategy]; rfl) (fun v hv => ?_) ?_⟩
        · exact ⟨(hothers v hv).given, (hothers v hv).solving, (hothers v hv).settled⟩
        · refine ⟨fun hf => absurd hf hsearch, fun _ hf => ?_, fun _ _ hf => ?_⟩
          · exact absurd (hf.symm.trans hok) (by simp)
          · exact absurd (hf.symm.trans hok) (by simp)

theorem invariant_answer {s : State W} {threads : Threads W} {engines : SolverId → Engine}
    {w : W} {res : SatResult} {model : List ℤ} {conflictEmpty : Bool} (hs : Invariant s)
    (hthreads : answer s.threads w res model = some threads)
    (hengines : stepEngines cfg s conflictEmpty (.answer w res model) = some engines) :
    Invariant ⟨threads, engines⟩ := by
  simp only [stepEngines] at hengines
  split at hengines
  case h_2 => exact absurd hengines (by simp)
  case h_1 x hsolver =>
    split at hengines
    case isFalse => exact absurd hengines (by simp)
    case isTrue hsearch =>
      obtain rfl := Option.some.inj hengines
      obtain ⟨hsolving, hstrategy, model', hpc⟩ := answer_eq hthreads
      obtain ⟨hok, hothers⟩ := threadsOk_answer hs.threads hthreads
      have hleft := ((hs.engines w x hsolver).searching hsearch).2
      have hsound := Engine.sound_endSearch hleft res conflictEmpty
      refine ⟨hok, engines_update hs hsolver (by rw [hstrategy]) hothers ?_⟩
      refine ⟨fun hf => (by cases hf), fun _ => ?_, fun hsettled _ => ?_⟩
      · rw [hstrategy]
        refine hsound.mono fun l hl => ?_
        split_ifs at hl
        · exact hl
        · exact absurd hl (by simp)
      · have hrefuted : refuted (threads.pc w) = true := by
          apply hsettled.resolve_left
          apply hok.not_idle
          show resting (threads.pc w) = false
          rw [hpc, Function.update_self]
          rfl
        rw [hpc, Function.update_self] at hrefuted
        cases res with
        | unsat => exact hsound
        | sat | unknown => cases hrefuted

section Halves
omit [DecidableEq W]
variable {w overSlave : W} {var : ℤ} {e : Engine}

/-- A worker that splits has stopped its search. -/
theorem Halved.stopped (h : Halved cfg s t w overSlave var) (he : EngineOk s w e) :
    e.searching = false :=
  Bool.eq_false_iff.mpr fun hsearch => h.calling (he.searching hsearch).1

theorem Halved.worker_engine (h : Halved cfg s t w overSlave var) (he : EngineOk s w e) :
    EngineOk t w e := by
  have hstopped := h.stopped he
  refine ⟨fun hsearch => absurd (hsearch.symm.trans hstopped) (by simp), fun hidle => ?_,
    fun hsettled => absurd hsettled (h.unsettled w (Or.inl rfl))⟩
  rw [h.workerGiven]
  exact (he.sound hidle).mono fun l hl => List.mem_append_left _ hl

/-- An idle slave has closed its cube, so its solver may take any other. -/
theorem Halved.reused_engine (h : Halved cfg s t w overSlave var) (hs : ThreadsOk s)
    (he : EngineOk s overSlave e) : EngineOk t overSlave e := by
  refine ⟨fun hsearch => ?_, fun hidle => ?_,
    fun hsettled => absurd hsettled (h.unsettled overSlave (Or.inr rfl))⟩
  · have hsolving := (he.searching hsearch).1
    exact absurd h.idle (hs.not_idle (by rw [hsolving]; rfl))
  · exact (he.settled (Or.inl h.idle) hidle).mono (by simp)

theorem Halved.cloned_engine (h : Halved cfg s t w overSlave var) (he : EngineOk s w e) :
    EngineOk t overSlave e.clone := by
  refine ⟨fun hf => (by cases hf), fun _ => ?_,
    fun hsettled => absurd hsettled (h.unsettled overSlave (Or.inr rfl))⟩
  rw [h.overGiven]
  exact (he.sound (h.stopped he)).clone.mono fun l hl => List.mem_append_left _ hl

/-- The flags of the solvers that a split does not make. -/
theorem Halved.engines {s : State W} {t : Threads W} (h : Halved cfg s.threads t w overSlave var)
    (hs : Invariant s) {v : W} {x y : SolverId} (hw : s.threads.strategy.solver w = some x)
    (hv : t.strategy.solver v = some y) (hover : v = overSlave → cfg.cloneStrategy ≠ 2) :
    s.threads.strategy.solver v = some y ∧ EngineOk t v (s.engines y) := by
  by_cases hvw : v = w
  · subst hvw
    rw [h.worker] at hv
    obtain rfl := Option.some.inj (hw.symm.trans hv)
    exact ⟨hw, h.worker_engine (hs.engines v x hw)⟩
  · by_cases hvo : v = overSlave
    · subst hvo
      rw [h.reused (hover rfl)] at hv
      exact ⟨hv, h.reused_engine hs.threads (hs.engines v y hv)⟩
    · obtain ⟨hsame, hcarried⟩ := h.others v hvw hvo
      rw [hsame] at hv
      exact ⟨hv, (hs.engines v y hv).carry hcarried⟩

end Halves

theorem invariant_split {s : State W} {threads : Threads W} {engines : SolverId → Engine}
    {w : W} {var : ℤ} {conflictEmpty : Bool} (hs : Invariant s)
    (hthreads : split cfg.toConfig s.threads w var = some threads)
    (hengines : stepEngines cfg s conflictEmpty (.split w var) = some engines) :
    Invariant ⟨threads, engines⟩ := by
  obtain ⟨hok, overSlave, hhalved⟩ := threadsOk_split hs.threads hthreads
  simp only [stepEngines] at hengines
  split at hengines
  case h_2 => exact absurd hengines (by simp)
  case h_1 x hsolver =>
    split at hengines
    case isTrue hcopy =>
      obtain rfl := Option.some.inj hengines
      refine ⟨hok, fun v y hv => ?_⟩
      show EngineOk threads v
        (Function.update s.engines s.threads.strategy.currentIdSolver (s.engines x).clone y)
      by_cases hvo : v = overSlave
      · subst hvo
        obtain rfl := Option.some.inj ((hhalved.cloned hcopy).symm.trans hv)
        rw [Function.update_self]
        exact hhalved.cloned_engine (hs.engines w x hsolver)
      · obtain ⟨hold, hengine⟩ := hhalved.engines hs hsolver hv fun heq => absurd heq hvo
        have hne : y ≠ s.threads.strategy.currentIdSolver :=
          (hs.threads.owned.fresh v y hold).ne
        rwa [Function.update_of_ne hne]
    case isFalse hcopy =>
      obtain rfl := Option.some.inj hengines
      exact ⟨hok, fun v y hv => (hhalved.engines hs hsolver hv fun _ => hcopy).2⟩

theorem invariant_step {s t : State W} {a : Action W} (hs : Invariant s)
    (h : step cfg s a = some t) : Invariant t := by
  cases a with
  | solve w o => exact invariant_solve hs h
  | thread a conflictEmpty =>
    obtain ⟨threads, hthreads, hmap⟩ := Option.bind_eq_some_iff.mp h
    obtain ⟨engines, hengines, rfl⟩ := Option.map_eq_some_iff.mp hmap
    cases a with
    | answer w res model => exact invariant_answer hs hthreads hengines
    | split w var => exact invariant_split hs hthreads hengines
    | worker w =>
      obtain rfl := Option.some.inj (id hengines)
      obtain ⟨hok, hkept⟩ := threadsOk_worker hs.threads hthreads
      exact ⟨hok, hkept.engines hs.engines⟩
    | masterTest | masterHandOver | masterSleep | masterLeave =>
      obtain rfl := Option.some.inj (id hengines)
      simp only [DivisionThreads.step] at hthreads
      obtain ⟨hok, hkept⟩ := threadsOk_master hs.threads hthreads
      exact ⟨hok, hkept.engines hs.engines⟩
    | expire | expireInterrupt =>
      obtain rfl := Option.some.inj (id hengines)
      simp only [DivisionThreads.step] at hthreads
      obtain ⟨hok, hkept⟩ := threadsOk_timeout hs.threads hthreads
      exact ⟨hok, hkept.engines hs.engines⟩

/-! ### Every run -/

theorem invariant_reach {s : State W} (hs : (machine cfg).Reach (fun _ _ => True) s) :
    Invariant s :=
  hs.invariant Invariant (fun _ h => invariant_init h)
    (fun _ _ _ _ hinv _ h => invariant_step hinv h)

/-- Two slaves, each with a solver of its own. -/
def pair : Config (Fin 2) where
  slaves := [0, 1]
  nodup := DivisionLists.nodup_twoSlaves
  actualCube := []
  cloneStrategy := 1
  nSharers := 0
  solverType := .glucose
  solver := fun w => some w.val
  currentIdSolver := 2
  solverOwned := DivisionLists.ownSolver_inj
  solverFresh := DivisionLists.ownSolver_lt
  glucose := rfl

end Painless.DivisionDecisions
