import Painless.CubeAndConquer
import Painless.DivisionInterrupts
import Painless.DivisionThreads
import Painless.PortfolioWinner

/-!
The cubes in a tree of working strategies of one process. Portfolio and
LocalWorker pass the cube they are given on to every slave, DivideAndConquer
stores it for its master, and SequentialWorker stores it for its thread.
CubeAndConquer::solve does not read its argument: the master and join launch the
workers on actualCube, which nothing ever writes. A slave of DivideAndConquer
and slaves[0] of CubeAndConquer are cast to SequentialWorker by the code, so
these two have workers below them and no other strategy. A join of Portfolio or
LocalWorker is one step; globalEnding is one flag for the whole tree.
-/
namespace Painless.CubeForwarding

open PortfolioWinner (Report)
open SolverInterface Transitions

/-! ### The strategies -/

/-- Where the thread of a worker stands in mainWorker. -/
inductive Pc where
  | check
  | ready
  | blocked
  /-- before solver->solve -/
  | entering
  | solving
  /-- SequentialWorker::join -/
  | returned (r : Report)
  | done
  deriving DecidableEq

structure SequentialWorker where
  actualCube : List ℤ
  interrupt : Bool
  pc : Pc

/-- `next` is what CubeAndConquer::next holds before it is assigned, `rounds` is
there from the master's start-up on. -/
structure CubeAndConquerNode where
  cfg : CubeAndConquer.Config
  next : ℕ
  waitJob : Bool
  rounds : Option CubeAndConquer.State

structure DivideAndConquerNode where
  cfg : DivideAndConquer.Config ℕ
  waitJob : Bool
  threads : Option (DivisionThreads.Threads ℕ)

inductive Strategy where
  | sequentialWorker (w : SequentialWorker)
  | cubeAndConquer (cc : CubeAndConquerNode)
  | divideAndConquer (dc : DivideAndConquerNode)
  | portfolio (strategyEnding : Bool) (n : ℕ) (slaves : Fin n → Strategy)
  | localWorker (n : ℕ) (slaves : Fin n → Strategy)

/-- What a step leaves: the strategy, globalEnding, the cubes of the calls of
solver->solve it has made, and the call of parent->join. -/
structure Outcome (S : Type) where
  after : S
  globalEnding : Bool
  calls : List (List ℤ)
  report : Option Report

def Outcome.map {S T : Type} (f : S → T) (o : Outcome S) : Outcome T :=
  ⟨f o.after, o.globalEnding, o.calls, o.report⟩

inductive Action where
  /-- the next step of a worker's thread -/
  | turn
  /-- solver->solve returns -/
  | answer (r : Report)
  /-- the master of a strategy that has been launched starts up -/
  | startUp
  | cube (a : CubeAndConquer.Action)
  | division (a : DivisionThreads.Action ℕ)
  | slave (i : ℕ) (a : Action)

/-! ### SequentialWorker -/

namespace SequentialWorker

def solve (w : SequentialWorker) (cube : List ℤ) : SequentialWorker where
  actualCube := cube
  interrupt := false
  pc := if w.pc = .blocked then .entering else w.pc

def setInterrupt (w : SequentialWorker) : SequentialWorker := { w with interrupt := true }

/-- SequentialWorker::join, in a process whose globalEnding is `g`. -/
def join (nested g : Bool) (w : SequentialWorker) (r : Report) : Outcome SequentialWorker :=
  let w := { w with pc := .check }
  if g then ⟨w, g, [], none⟩
  else if nested then ⟨w, g, [], some r⟩
  else ⟨w, true, [], none⟩

def step (nested g : Bool) (w : SequentialWorker) : Action → Option (Outcome SequentialWorker)
  | .turn =>
    match w.pc with
    | .check => some ⟨{ w with pc := if g then .done else .ready }, g, [], none⟩
    | .ready =>
      some ⟨{ w with pc := if w.interrupt then .blocked else .entering }, g, [], none⟩
    | .entering => some ⟨{ w with pc := .solving }, g, [w.actualCube], none⟩
    | .returned r => some (w.join nested g r)
    | .blocked => none
    | .solving => none
    | .done => none
  | .answer r =>
    if w.pc = .solving then
      let model := if r.res = .sat then r.model else []
      some ⟨{ w with pc := .returned ⟨r.res, model⟩ }, g, [], none⟩
    else none
  | _ => none

end SequentialWorker

/-! ### CubeAndConquer -/

namespace CubeAndConquerNode

/-- The argument is not stored. -/
def solve (cc : CubeAndConquerNode) (_cube : List ℤ) : CubeAndConquerNode :=
  { cc with
    rounds := cc.rounds.map fun s => { s with strategyEnding := false, nJobs := 1 }
    waitJob := false }

def setInterrupt (cc : CubeAndConquerNode) : CubeAndConquerNode :=
  { cc with rounds := cc.rounds.map fun s => s.slaves.foldl CubeAndConquer.State.setInterrupt s }

/-- The workers whose threads enter solver->solve between `s` and `t`. -/
def entered (s t : CubeAndConquer.State) : List ℕ :=
  (List.range t.created).filter fun w => s.pc w ≠ .solving ∧ t.pc w = .solving

/-- The end of CubeAndConquer::join where there is a parent to tell. -/
def forward (s : CubeAndConquer.State) : CubeAndConquer.Action →
    Option (CubeAndConquer.State × Report)
  | .worker w =>
    match s.pc w with
    | .publishing res model => some (s.goto w .check, ⟨res, model⟩)
    | _ => none
  | _ => none

def step (nested g : Bool) (cc : CubeAndConquerNode) :
    Action → Option (Outcome CubeAndConquerNode)
  | .startUp =>
    if cc.waitJob = false ∧ cc.rounds.isNone then
      some ⟨{ cc with rounds := some (CubeAndConquer.start cc.next) }, g, [], none⟩
    else none
  | .cube a =>
    cc.rounds.bind fun s =>
      let s := { s with globalEnding := g }
      match forward s a, nested with
      | some (t, r), true => some ⟨{ cc with rounds := some t }, g, [], some r⟩
      | _, _ =>
        (CubeAndConquer.step cc.cfg s a).map fun t =>
          ⟨{ cc with rounds := some t }, t.globalEnding,
            (entered s t).map fun _ => cc.cfg.actualCube, none⟩
  | _ => none

end CubeAndConquerNode

/-! ### DivideAndConquer -/

namespace DivideAndConquerNode

def solve (dc : DivideAndConquerNode) (cube : List ℤ) : DivideAndConquerNode :=
  { dc with
    cfg := { dc.cfg with actualCube := cube }
    waitJob := false }

def setInterrupt (dc : DivideAndConquerNode) : DivideAndConquerNode :=
  { dc with
    threads := dc.threads.map fun s =>
      { s with
        strategy := dc.cfg.slaves.foldl DivideAndConquer.State.setInterrupt s.strategy } }

/-- The slaves whose threads enter solver->solve between `s` and `t`. -/
def entered (cfg : DivideAndConquer.Config ℕ) (s t : DivisionThreads.Threads ℕ) : List ℕ :=
  cfg.slaves.filter fun w => s.pc w ≠ .solving ∧ t.pc w = .solving

/-- The end of DivideAndConquer::join where there is a parent to tell. -/
def forward (s : DivisionThreads.Threads ℕ) : DivisionThreads.Action ℕ →
    Option (DivisionThreads.Threads ℕ × Report)
  | .worker w =>
    match s.pc w with
    | .publishing res model => some (s.goto w .top, ⟨res, model⟩)
    | _ => none
  | _ => none

def step (nested g : Bool) (dc : DivideAndConquerNode) :
    Action → Option (Outcome DivideAndConquerNode)
  | .startUp =>
    if dc.waitJob = false ∧ dc.threads.isNone then
      (DivideAndConquer.startUp dc.cfg).map fun strategy =>
        ⟨{ dc with threads := some (DivisionThreads.start strategy) }, g, [], none⟩
    else none
  | .division a =>
    dc.threads.bind fun s =>
      let s := { s with globalEnding := g }
      match forward s a, nested with
      | some (t, r), true => some ⟨{ dc with threads := some t }, g, [], some r⟩
      | _, _ =>
        (DivisionThreads.step dc.cfg s a).map fun t =>
          ⟨{ dc with threads := some t }, t.globalEnding,
            (entered dc.cfg s t).map t.strategy.given, none⟩
  | _ => none

end DivideAndConquerNode

/-! ### The tree -/

namespace Strategy

def solve (cube : List ℤ) : Strategy → Strategy
  | .sequentialWorker w => .sequentialWorker (w.solve cube)
  | .cubeAndConquer cc => .cubeAndConquer (cc.solve cube)
  | .divideAndConquer dc => .divideAndConquer (dc.solve cube)
  | .portfolio _ n slaves => .portfolio false n fun i => (slaves i).solve cube
  | .localWorker n slaves => .localWorker n fun i => (slaves i).solve cube

def setInterrupt : Strategy → Strategy
  | .sequentialWorker w => .sequentialWorker w.setInterrupt
  | .cubeAndConquer cc => .cubeAndConquer cc.setInterrupt
  | .divideAndConquer dc => .divideAndConquer dc.setInterrupt
  | .portfolio strategyEnding n slaves =>
    .portfolio strategyEnding n fun i => (slaves i).setInterrupt
  | .localWorker n slaves => .localWorker n fun i => (slaves i).setInterrupt

/-- Portfolio::join, after a step of a slave. -/
def portfolioJoin (nested strategyEnding : Bool) {n : ℕ} (o : Outcome (Fin n → Strategy)) :
    Outcome Strategy :=
  match o.report with
  | none => o.map (.portfolio strategyEnding n)
  | some r =>
    if r.res = .unknown ∨ strategyEnding = true ∨ o.globalEnding = true then
      { o.map (.portfolio strategyEnding n) with report := none }
    else
      let slaves := fun i => (o.after i).setInterrupt
      if nested then ⟨.portfolio true n slaves, o.globalEnding, o.calls, some r⟩
      else ⟨.portfolio true n slaves, true, o.calls, none⟩

/-- LocalWorker::join reports to another process. -/
def localJoin {n : ℕ} (o : Outcome (Fin n → Strategy)) : Outcome Strategy :=
  { o.map (.localWorker n) with report := none }

/-- A step of slave `i`. -/
def stepSlave {n : ℕ} (slaves : Fin n → Strategy) (i : ℕ)
    (step : Strategy → Option (Outcome Strategy)) : Option (Outcome (Fin n → Strategy)) :=
  if h : i < n then
    (step (slaves ⟨i, h⟩)).map (Outcome.map (Function.update slaves ⟨i, h⟩))
  else none

/-- A step in the tree, in a process whose globalEnding is `g`. -/
def step (nested g : Bool) : Action → Strategy → Option (Outcome Strategy)
  | .slave i a, .portfolio strategyEnding _ slaves =>
    (stepSlave slaves i (step true g a)).map (portfolioJoin nested strategyEnding)
  | .slave i a, .localWorker _ slaves => (stepSlave slaves i (step true g a)).map localJoin
  | a, .sequentialWorker w => (w.step nested g a).map (Outcome.map .sequentialWorker)
  | a, .cubeAndConquer cc => (cc.step nested g a).map (Outcome.map .cubeAndConquer)
  | a, .divideAndConquer dc => (dc.step nested g a).map (Outcome.map .divideAndConquer)
  | _, _ => none

/-- A strategy as its constructor leaves it, with its slaves added. -/
def Fresh : Strategy → Prop
  | .sequentialWorker w => w = ⟨[], true, .check⟩
  | .cubeAndConquer cc => cc.cfg.actualCube = [] ∧ cc.waitJob = true ∧ cc.rounds = none
  | .divideAndConquer dc => dc.waitJob = true ∧ dc.threads = none
  | .portfolio _ _ slaves => ∀ i, (slaves i).Fresh
  | .localWorker _ slaves => ∀ i, (slaves i).Fresh

def HasCubeAndConquer : Strategy → Prop
  | .sequentialWorker _ => False
  | .cubeAndConquer _ => True
  | .divideAndConquer _ => False
  | .portfolio _ _ slaves => ∃ i, (slaves i).HasCubeAndConquer
  | .localWorker _ slaves => ∃ i, (slaves i).HasCubeAndConquer

end Strategy

/-- The trees that a process can start from. -/
def Built : Type := {strategy : Strategy // strategy.Fresh}

structure State where
  strategy : Strategy
  /-- solve has been called at the top. -/
  launched : Bool
  globalEnding : Bool
  /-- The cubes of the calls of solver->solve. -/
  calls : List (List ℤ)

inductive Event where
  | solve
  | inside (a : Action)

def step (cube : List ℤ) (s : State) : Event → Option State
  | .solve =>
    if s.launched then none
    else some { s with strategy := s.strategy.solve cube, launched := true }
  | .inside a =>
    (s.strategy.step false s.globalEnding a).map fun o =>
      { s with
        strategy := o.after
        globalEnding := o.globalEnding
        calls := s.calls ++ o.calls }

def machine (tree : Built) (cube : List ℤ) : Machine State Event where
  Init s := s = ⟨tree.1, false, false, []⟩
  step := step cube

/-! ### Trees without CubeAndConquer -/

/-- The slave works for the strategy: its thread may call solver->solve, or is
on the way through join. -/
def Working (s : DivisionThreads.Threads ℕ) (w : ℕ) : Prop :=
  s.strategy.interrupt w = false ∨ s.pc w ∉ [.top, .ready, .blocked, .done]

/-- Every working slave of DivideAndConquer has the literals of the cube, on the
list of cubes and in its hands. -/
def Shared (cube : List ℤ) (s : DivisionThreads.Threads ℕ) : Prop :=
  ∀ w, Working s w → cube ⊆ s.strategy.cubes w ∧ cube ⊆ s.strategy.given w

namespace Strategy

/-- Every call of solver->solve that the tree can make is on the cube. -/
def Passes (cube : List ℤ) : Strategy → Prop
  | .sequentialWorker w => w.interrupt = false ∨ w.pc = .entering → cube ⊆ w.actualCube
  | .cubeAndConquer _ => False
  | .divideAndConquer dc =>
    (dc.waitJob = false → cube ⊆ dc.cfg.actualCube) ∧ ∀ s ∈ dc.threads, Shared cube s
  | .portfolio _ _ slaves => ∀ i, (slaves i).Passes cube
  | .localWorker _ slaves => ∀ i, (slaves i).Passes cube

variable {cube : List ℤ}

theorem passes_of_fresh {t : Strategy} (hfresh : t.Fresh) (hno : ¬ t.HasCubeAndConquer) :
    t.Passes cube := by
  induction t with
  | sequentialWorker w =>
    obtain rfl := hfresh
    simp [Passes]
  | cubeAndConquer cc => exact absurd trivial hno
  | divideAndConquer dc =>
    obtain ⟨hwait, hthreads⟩ := hfresh
    simp [Passes, hwait, hthreads]
  | portfolio strategyEnding n slaves ih | localWorker n slaves ih =>
    exact fun i => ih i (hfresh i) fun hi => hno ⟨i, hi⟩

theorem Passes.solve {t : Strategy} (ht : t.Passes cube) : (t.solve cube).Passes cube := by
  induction t with
  | sequentialWorker w => exact fun _ => List.Subset.refl _
  | cubeAndConquer cc => exact ht
  | divideAndConquer dc => exact ⟨fun _ => List.Subset.refl _, ht.2⟩
  | portfolio strategyEnding n slaves ih | localWorker n slaves ih =>
    exact fun i => ih i (ht i)

end Strategy

/-! ### DivideAndConquer -/

theorem Shared.setInterrupt {cube : List ℤ} {s : DivisionThreads.Threads ℕ}
    (hs : Shared cube s) (w : ℕ) :
    Shared cube { s with strategy := s.strategy.setInterrupt w } := by
  intro v hv
  refine hs v (hv.imp_left fun hi => ?_)
  rw [DivisionInterrupts.setInterrupt_interrupt, Bool.or_eq_false_iff] at hi
  exact hi.2

theorem Shared.setInterrupts {cube : List ℤ} {s : DivisionThreads.Threads ℕ}
    (hs : Shared cube s) (ws : List ℕ) :
    Shared cube { s with strategy := ws.foldl DivideAndConquer.State.setInterrupt s.strategy } := by
  induction ws generalizing s with
  | nil => exact hs
  | cons w rest ih => exact ih (hs.setInterrupt w)

/-- Steps that launch nobody and touch no cube. -/
theorem Shared.frame {cube : List ℤ} {s t : DivisionThreads.Threads ℕ} (hs : Shared cube s)
    (hcubes : t.strategy.cubes = s.strategy.cubes) (hgiven : t.strategy.given = s.strategy.given)
    (hworking : ∀ w, Working t w → Working s w) : Shared cube t := by
  intro w hw
  rw [hcubes, hgiven]
  exact hs w (hworking w hw)

/-- A thread moves on while its slave works, or to a place outside its work. -/
theorem working_goto {s : DivisionThreads.Threads ℕ} {w : ℕ} {p : DivisionThreads.Pc}
    (h : Working s w ∨ p ∈ [.top, .ready, .blocked, .done]) (v : ℕ)
    (hv : Working (s.goto w p) v) : Working s v := by
  rcases eq_or_ne v w with rfl | hne
  · rcases h with h | h
    · exact h
    · refine hv.imp_right fun hp => ?_
      rw [DivisionThreads.Threads.goto_pc, Function.update_self] at hp
      exact absurd h hp
  · refine hv.imp_right fun hp => ?_
    rwa [DivisionThreads.Threads.goto_pc, Function.update_of_ne hne] at hp

theorem Shared.goto {cube : List ℤ} {s : DivisionThreads.Threads ℕ} (hs : Shared cube s) {w : ℕ}
    {p : DivisionThreads.Pc} (h : Working s w ∨ p ∈ [.top, .ready, .blocked, .done]) :
    Shared cube (s.goto w p) :=
  hs.frame rfl rfl (working_goto h)

/-- Both halves of a cube have its literals; the other slaves keep their cubes. -/
theorem launchHalves_shared {cube : List ℤ} {s : DivideAndConquer.State ℕ} {current : ℕ}
    (overSlave : ℕ) (var : ℤ) (h : cube ⊆ s.cubes current) (v : ℕ) :
    let t := DivideAndConquer.launchHalves s current overSlave var
    (v = current ∨ v = overSlave → cube ⊆ t.cubes v ∧ cube ⊆ t.given v) ∧
      (v ≠ current → v ≠ overSlave → t.cubes v = s.cubes v ∧ t.given v = s.given v) := by
  intro t
  let copied := Function.update s.cubes overSlave (s.cubes current)
  let pushed := Function.update copied current (copied current ++ [var])
  have hcubes : t.cubes = Function.update pushed overSlave (pushed overSlave ++ [-var]) := by
    simp [t, pushed, copied, DivideAndConquer.launchHalves]
  have hcopied (w : ℕ) (hw : w = current ∨ w = overSlave) : cube ⊆ copied w := by
    simp only [copied, Function.update_apply]
    split_ifs with hover
    · exact h
    · rwa [hw.resolve_right hover]
  have hpushed (w : ℕ) (hw : w = current ∨ w = overSlave) : cube ⊆ pushed w := by
    simp only [pushed, Function.update_apply]
    split_ifs with hcurrent
    · exact List.subset_append_of_subset_left _ (hcopied current (Or.inl rfl))
    · exact hcopied w hw
  have hhalf (w : ℕ) (hw : w = current ∨ w = overSlave) : cube ⊆ t.cubes w := by
    rw [hcubes, Function.update_apply]
    split_ifs with hover
    · exact List.subset_append_of_subset_left _ (hpushed overSlave (Or.inr rfl))
    · exact hpushed w hw
  have hgiven := DivideAndConquer.launchHalves_given s current overSlave var
  constructor
  · intro hv
    refine ⟨hhalf v hv, ?_⟩
    rw [hgiven, Function.update_apply, Function.update_apply]
    split_ifs with hover hcurrent
    · exact hhalf overSlave (Or.inr rfl)
    · exact hhalf current (Or.inl rfl)
    · exact absurd hv (not_or.mpr ⟨hcurrent, hover⟩)
  · intro hcurrent hover
    constructor
    · simp [hcubes, pushed, copied, hover, hcurrent]
    · rw [hgiven, Function.update_of_ne hover, Function.update_of_ne hcurrent]

theorem shared_split {cube : List ℤ} {cfg : DivideAndConquer.Config ℕ}
    {s t : DivisionThreads.Threads ℕ} {w : ℕ} {var : ℤ} (hs : Shared cube s)
    (h : DivisionThreads.split cfg s w var = some t) : Shared cube t := by
  obtain ⟨model, overSlave, rest, hp, hovers, hjoin, -, -, -, hpc⟩ := DivisionThreads.split_spec h
  obtain ⟨overSlave', rest', x, u, hovers', -, hu, ht⟩ := DivideAndConquer.joinUnknown_eq hjoin
  obtain ⟨rfl, rfl⟩ := List.cons.inj (hovers.symm.trans hovers')
  have hframe : u.cubes = s.strategy.cubes ∧ u.given = s.strategy.given ∧
      u.interrupt = s.strategy.interrupt := by
    rcases hu with rfl | hclone
    · exact ⟨rfl, rfl, rfl⟩
    · obtain ⟨-, hcubes, hgiven⟩ := DivideAndConquer.State.cloneSolver_frame hclone
      exact ⟨hcubes, hgiven, (DivisionInterrupts.cloneSolver_flags hclone).1⟩
  obtain ⟨hcubes, hgiven, hinterrupt⟩ := hframe
  have hw : cube ⊆ u.cubes w := by
    rw [hcubes]
    exact (hs w (Or.inr (by rw [hp]; simp))).1
  intro v hv
  obtain ⟨hpair, hother⟩ := launchHalves_shared overSlave var hw v
  rw [← ht] at hpair hother
  by_cases hmem : v = w ∨ v = overSlave
  · exact hpair hmem
  · rw [not_or] at hmem
    obtain ⟨hvcubes, hvgiven⟩ := hother hmem.1 hmem.2
    rw [hvcubes, hvgiven, hcubes, hgiven]
    refine hs v ?_
    rcases hv with hi | hi
    · rw [ht, DivisionInterrupts.launchHalves_interrupt _ _ _ _ hmem.1 hmem.2, hinterrupt] at hi
      exact Or.inl hi
    · rcases hpc v with ⟨hsame, -⟩ | ⟨-, htop⟩ | ⟨hover, -⟩
      · rw [hsame] at hi
        exact Or.inr hi
      · rw [htop] at hi
        simp at hi
      · exact absurd hover hmem.2

theorem working_of_pc {s : DivisionThreads.Threads ℕ} {w : ℕ} {p : DivisionThreads.Pc}
    (hp : s.pc w = p) (hidle : p ∉ [.top, .ready, .blocked, .done]) : Working s w :=
  Or.inr (by rwa [hp])

theorem shared_worker {cube : List ℤ} {cfg : DivideAndConquer.Config ℕ}
    {s t : DivisionThreads.Threads ℕ} {w : ℕ} (hs : Shared cube s)
    (h : DivisionThreads.stepWorker cfg s w = some t) : Shared cube t := by
  cases hp : s.pc w with
  | top =>
    simp only [DivisionThreads.stepWorker, hp, Option.some.injEq] at h
    subst h
    refine hs.goto (Or.inr ?_)
    split_ifs <;> simp
  | ready =>
    simp only [DivisionThreads.stepWorker, hp, Option.some.injEq] at h
    subst h
    split_ifs with hi
    · exact hs.goto (Or.inr (by simp))
    · exact hs.goto (Or.inl (Or.inl ((Bool.not_eq_true _).mp hi)))
  | returned res model =>
    simp only [DivisionThreads.stepWorker, hp, Option.some.injEq] at h
    subst h
    exact hs.goto (Or.inl (working_of_pc hp (by simp)))
  | calling res model =>
    cases res with
    | unknown => simp [DivisionThreads.stepWorker, hp] at h
    | sat =>
      simp only [DivisionThreads.stepWorker, hp, Option.some.injEq] at h
      subst h
      exact hs.goto (Or.inl (working_of_pc hp (by simp)))
    | unsat =>
      simp only [DivisionThreads.stepWorker, hp] at h
      obtain ⟨u, hu, rfl⟩ := Option.map_eq_some_iff.mp h
      obtain ⟨-, hcubes, hgiven⟩ := DivideAndConquer.joinUnsat_spec hu
      have hinterrupt := (DivisionInterrupts.joinUnsat_flags hu).1
      have hworking (v : ℕ) (hv : Working { s with strategy := u } v) : Working s v := by
        refine hv.imp_left fun hi => ?_
        rw [hinterrupt, Bool.or_eq_false_iff] at hi
        exact hi.2
      refine (hs.frame hcubes hgiven hworking).goto (Or.inl ?_)
      exact working_of_pc hp (by simp)
  | finishing res model =>
    simp only [DivisionThreads.stepWorker, hp] at h
    split_ifs at h
    · obtain rfl := Option.some.inj h
      exact hs.goto (Or.inr (by simp))
    · obtain rfl := Option.some.inj h
      refine Shared.goto (hs.frame rfl rfl fun v hv => hv) (Or.inl ?_)
      exact working_of_pc hp (by simp)
  | interrupting i res model =>
    simp only [DivisionThreads.stepWorker, hp] at h
    split at h
    · obtain rfl := Option.some.inj h
      refine (hs.setInterrupt _).goto (Or.inl ?_)
      exact working_of_pc hp (by simp)
    · obtain rfl := Option.some.inj h
      refine Shared.goto (hs.frame rfl rfl fun v hv => hv) (Or.inl ?_)
      exact working_of_pc hp (by simp)
  | publishing res model =>
    simp only [DivisionThreads.stepWorker, hp, Option.some.injEq] at h
    subst h
    refine Shared.goto (hs.frame rfl rfl fun v hv => hv) (Or.inl ?_)
    exact working_of_pc hp (by simp)
  | storing res model =>
    simp only [DivisionThreads.stepWorker, hp, Option.some.injEq] at h
    subst h
    exact Shared.goto (hs.frame rfl rfl fun v hv => hv) (Or.inr (by simp))
  | blocked => simp [DivisionThreads.stepWorker, hp] at h
  | solving => simp [DivisionThreads.stepWorker, hp] at h
  | done => simp [DivisionThreads.stepWorker, hp] at h

theorem shared_master {cube : List ℤ} {s t : DivisionThreads.Threads ℕ}
    {a : DivisionThreads.Action ℕ} (hs : Shared cube s)
    (h : DivisionThreads.stepMaster s a = some t) : Shared cube t := by
  rcases DivisionThreads.stepMaster_cases h with ⟨u, -, hhand, rfl⟩ | ⟨master, rfl⟩
  · obtain ⟨overSlave, overs, worker, workers, -, -, rfl⟩ := DivideAndConquer.handOver_eq hhand
    refine hs.frame rfl rfl fun v hv => hv.imp_left fun hi => ?_
    rw [DivisionInterrupts.setInterrupt_interrupt, Bool.or_eq_false_iff] at hi
    exact hi.2
  · exact hs.frame rfl rfl fun v hv => hv

theorem shared_step {cube : List ℤ} {cfg : DivideAndConquer.Config ℕ}
    {s t : DivisionThreads.Threads ℕ} {a : DivisionThreads.Action ℕ} (hs : Shared cube s)
    (h : DivisionThreads.step cfg s a = some t) : Shared cube t := by
  cases a with
  | worker w => exact shared_worker hs h
  | split w var => exact shared_split hs h
  | answer w res model =>
    simp only [DivisionThreads.step, DivisionThreads.answer] at h
    split at h
    case h_2 => exact absurd h (by simp)
    case h_1 hp _ =>
      split at h
      · exact absurd h (by simp)
      · obtain rfl := Option.some.inj h
        exact hs.goto (Or.inl (working_of_pc hp (by simp)))
  | expire =>
    simp only [DivisionThreads.step, DivisionThreads.stepTimeout] at h
    split_ifs at h
    obtain rfl := Option.some.inj h
    exact hs.frame rfl rfl fun v hv => hv
  | expireInterrupt =>
    simp only [DivisionThreads.step, DivisionThreads.stepTimeout] at h
    split at h
    case h_2 => exact absurd h (by simp)
    case h_1 =>
      obtain ⟨v, -, rfl⟩ := Option.map_eq_some_iff.mp h
      exact (hs.setInterrupt v).frame rfl rfl fun v hv => hv
  | masterTest => exact shared_master (a := .masterTest) hs h
  | masterHandOver => exact shared_master (a := .masterHandOver) hs h
  | masterSleep => exact shared_master (a := .masterSleep) hs h
  | masterLeave => exact shared_master (a := .masterLeave) hs h

/-- The master launches the first slave on the stored cube, and no other. -/
theorem shared_startUp {cfg : DivideAndConquer.Config ℕ} {strategy : DivideAndConquer.State ℕ}
    (h : DivideAndConquer.startUp cfg = some strategy) {cube : List ℤ}
    (hcube : cube ⊆ cfg.actualCube) : Shared cube (DivisionThreads.start strategy) := by
  obtain ⟨first, rest, hslaves, hl, hcubes, hgiven⟩ := DivideAndConquer.startUp_spec h
  intro w hw
  have hfirst : w = first := by
    rcases hw with hi | hp
    · by_contra hne
      have hidle := DivisionInterrupts.idle_startUp h w (by
        simp only [DivideAndConquer.Active, hl, List.mem_singleton, List.not_mem_nil, or_false]
        exact hne)
      change strategy.interrupt w = false at hi
      simp [hidle] at hi
    · simp [DivisionThreads.start] at hp
  subst hfirst
  change cube ⊆ strategy.cubes w ∧ cube ⊆ strategy.given w
  rw [hcubes, hgiven]
  exact ⟨hcube, hcube⟩

/-! ### Steps of the tree -/

/-- The calls of a step are on the cube. -/
def OnCube {S : Type} (cube : List ℤ) (o : Outcome S) : Prop := ∀ call ∈ o.calls, cube ⊆ call

theorem DivideAndConquerNode.passes_step {cube : List ℤ} {nested g : Bool}
    {dc : DivideAndConquerNode} {a : Action} {o : Outcome DivideAndConquerNode}
    (hdc : Strategy.Passes cube (.divideAndConquer dc)) (h : dc.step nested g a = some o) :
    Strategy.Passes cube (.divideAndConquer o.after) ∧ OnCube cube o := by
  cases a with
  | startUp =>
    simp only [DivideAndConquerNode.step] at h
    split_ifs at h with hstart
    obtain ⟨strategy, hstrategy, rfl⟩ := Option.map_eq_some_iff.mp h
    refine ⟨⟨hdc.1, fun s hs => ?_⟩, by simp [OnCube]⟩
    obtain rfl := Option.mem_some.mp hs
    exact shared_startUp hstrategy (hdc.1 hstart.1)
  | division a =>
    obtain ⟨s, hs, h⟩ := Option.bind_eq_some_iff.mp h
    have hshared : Shared cube { s with globalEnding := g } :=
      (hdc.2 s hs).frame rfl rfl fun w hw => hw
    dsimp only at h
    split at h
    case h_1 t r hforward _ =>
      obtain rfl := Option.some.inj h
      refine ⟨⟨hdc.1, fun u hu => ?_⟩, by simp [OnCube]⟩
      obtain rfl := Option.mem_some.mp hu
      cases a with
      | worker w =>
        simp only [DivideAndConquerNode.forward] at hforward
        split at hforward
        case h_2 => exact absurd hforward (by simp)
        case h_1 hp =>
          obtain ⟨rfl, -⟩ := Prod.mk.inj (Option.some.inj hforward)
          exact hshared.goto (Or.inr (by simp))
      | _ => simp [DivideAndConquerNode.forward] at hforward
    case h_2 =>
      obtain ⟨t, ht, rfl⟩ := Option.map_eq_some_iff.mp h
      have hafter := shared_step hshared ht
      refine ⟨⟨hdc.1, fun u hu => ?_⟩, fun call hcall => ?_⟩
      · obtain rfl := Option.mem_some.mp hu
        exact hafter
      · obtain ⟨w, hw, rfl⟩ := List.mem_map.mp hcall
        have hsolving := of_decide_eq_true (List.mem_filter.mp hw).2
        exact (hafter w (working_of_pc hsolving.2 (by simp))).2
  | _ => simp [DivideAndConquerNode.step] at h

theorem SequentialWorker.passes_step {cube : List ℤ} {nested g : Bool} {w : SequentialWorker}
    {a : Action} {o : Outcome SequentialWorker}
    (hw : Strategy.Passes cube (.sequentialWorker w)) (h : w.step nested g a = some o) :
    Strategy.Passes cube (.sequentialWorker o.after) ∧ OnCube cube o := by
  cases a with
  | turn =>
    cases hp : w.pc with
    | check =>
      simp only [SequentialWorker.step, hp, Option.some.injEq] at h
      subst h
      refine ⟨fun hi => hw (hi.imp_right fun hpc => ?_), by simp [OnCube]⟩
      dsimp only at hpc
      split_ifs at hpc
    | ready =>
      simp only [SequentialWorker.step, hp, Option.some.injEq] at h
      subst h
      refine ⟨fun hi => hw (Or.inl ?_), by simp [OnCube]⟩
      dsimp only at hi
      split_ifs at hi with hinterrupt
      · exact hi.resolve_right (by simp)
      · exact (Bool.not_eq_true _).mp hinterrupt
    | entering =>
      simp only [SequentialWorker.step, hp, Option.some.injEq] at h
      subst h
      have hcube : cube ⊆ w.actualCube := hw (Or.inr hp)
      exact ⟨fun _ => hcube, by simpa [OnCube] using hcube⟩
    | returned r =>
      simp only [SequentialWorker.step, hp, Option.some.injEq] at h
      subst h
      unfold SequentialWorker.join
      have hafter : Strategy.Passes cube (.sequentialWorker { w with pc := .check }) :=
        fun hi => hw (Or.inl (hi.resolve_right (by simp)))
      dsimp only
      split_ifs <;> exact ⟨hafter, by simp [OnCube]⟩
    | blocked => simp [SequentialWorker.step, hp] at h
    | solving => simp [SequentialWorker.step, hp] at h
    | done => simp [SequentialWorker.step, hp] at h
  | answer r =>
    simp only [SequentialWorker.step] at h
    split at h
    · obtain rfl := Option.some.inj h
      exact ⟨fun hi => hw (Or.inl (hi.resolve_right (by simp))), by simp [OnCube]⟩
    · exact absurd h (by simp)
  | _ => simp [SequentialWorker.step] at h

namespace Strategy

variable {cube : List ℤ}

theorem Passes.setInterrupt {t : Strategy} (ht : t.Passes cube) :
    t.setInterrupt.Passes cube := by
  induction t with
  | sequentialWorker w => exact fun hi => ht (hi.imp_left fun h => absurd h (by simp
      [SequentialWorker.setInterrupt]))
  | cubeAndConquer cc => exact ht
  | divideAndConquer dc =>
    refine ⟨ht.1, fun s hs => ?_⟩
    obtain ⟨u, hu, rfl⟩ := Option.mem_map.mp hs
    exact (ht.2 u hu).setInterrupts _
  | portfolio strategyEnding n slaves ih | localWorker n slaves ih =>
    exact fun i => ih i (ht i)

theorem passes_portfolioJoin {nested strategyEnding : Bool} {n : ℕ}
    {o : Outcome (Fin n → Strategy)} (ho : ∀ i, (o.after i).Passes cube) (hcalls : OnCube cube o) :
    (portfolioJoin nested strategyEnding o).after.Passes cube ∧
      OnCube cube (portfolioJoin nested strategyEnding o) := by
  unfold portfolioJoin
  split
  · exact ⟨ho, hcalls⟩
  · split_ifs
    · exact ⟨ho, hcalls⟩
    · exact ⟨fun i => (ho i).setInterrupt, hcalls⟩
    · exact ⟨fun i => (ho i).setInterrupt, hcalls⟩

theorem passes_stepSlave {n : ℕ} {slaves : Fin n → Strategy} {i : ℕ}
    {step : Strategy → Option (Outcome Strategy)} {o : Outcome (Fin n → Strategy)}
    (hslaves : ∀ i, (slaves i).Passes cube)
    (hstep : ∀ i p, step (slaves i) = some p → p.after.Passes cube ∧ OnCube cube p)
    (h : stepSlave slaves i step = some o) :
    (∀ i, (o.after i).Passes cube) ∧ OnCube cube o := by
  unfold stepSlave at h
  split_ifs at h with hi
  obtain ⟨p, hp, rfl⟩ := Option.map_eq_some_iff.mp h
  obtain ⟨hpass, hcalls⟩ := hstep ⟨i, hi⟩ p hp
  refine ⟨fun j => ?_, hcalls⟩
  change Passes cube (Function.update slaves ⟨i, hi⟩ p.after j)
  rw [Function.update_apply]
  split_ifs
  · exact hpass
  · exact hslaves j

theorem Passes.step {t : Strategy} {nested g : Bool} {a : Action} {o : Outcome Strategy}
    (ht : t.Passes cube) (h : t.step nested g a = some o) :
    o.after.Passes cube ∧ OnCube cube o := by
  induction a generalizing t nested o with
  | slave i a ih =>
    cases t with
    | portfolio strategyEnding n slaves =>
      obtain ⟨p, hp, rfl⟩ := Option.map_eq_some_iff.mp h
      obtain ⟨hpass, hcalls⟩ := passes_stepSlave ht (fun j q hq => ih (ht j) hq) hp
      exact passes_portfolioJoin hpass hcalls
    | localWorker n slaves =>
      obtain ⟨p, hp, rfl⟩ := Option.map_eq_some_iff.mp h
      exact passes_stepSlave ht (fun j q hq => ih (ht j) hq) hp
    | sequentialWorker w => simp [Strategy.step, SequentialWorker.step] at h
    | cubeAndConquer cc => exact absurd ht id
    | divideAndConquer dc => simp [Strategy.step, DivideAndConquerNode.step] at h
  | _ =>
    cases t with
    | sequentialWorker w =>
      obtain ⟨p, hp, rfl⟩ := Option.map_eq_some_iff.mp h
      exact w.passes_step ht hp
    | cubeAndConquer cc => exact absurd ht id
    | divideAndConquer dc =>
      obtain ⟨p, hp, rfl⟩ := Option.map_eq_some_iff.mp h
      exact dc.passes_step ht hp
    | portfolio strategyEnding n slaves => simp [Strategy.step] at h
    | localWorker n slaves => simp [Strategy.step] at h

end Strategy

theorem passes_reach {tree : Built} {cube : List ℤ} {s : State}
    (hno : ¬ tree.1.HasCubeAndConquer)
    (hs : (machine tree cube).Reach (fun _ _ => True) s) :
    s.strategy.Passes cube ∧ ∀ call ∈ s.calls, cube ⊆ call := by
  refine hs.invariant (fun s => s.strategy.Passes cube ∧ ∀ call ∈ s.calls, cube ⊆ call) ?_ ?_
  · intro s hinit
    subst hinit
    exact ⟨Strategy.passes_of_fresh tree.2 hno, by simp⟩
  · intro s e t _ ⟨hpass, hcalls⟩ _ h
    cases e with
    | solve =>
      simp only [machine, step] at h
      split_ifs at h
      obtain rfl := Option.some.inj h
      exact ⟨hpass.solve, hcalls⟩
    | inside a =>
      obtain ⟨o, ho, rfl⟩ := Option.map_eq_some_iff.mp h
      obtain ⟨hafter, hnew⟩ := hpass.step ho
      refine ⟨hafter, fun call hcall => ?_⟩
      rcases List.mem_append.mp hcall with hold | hmade
      · exact hcalls call hold
      · exact hnew call hmade

/-! ### Trees with CubeAndConquer -/

/-- The tree can make these calls while nobody ends the run or tells the parent
anything. -/
inductive CanCall (nested : Bool) : Strategy → List (List ℤ) → Prop
  | nothing (t : Strategy) : CanCall nested t []
  | step {t u : Strategy} {a : Action} {first later : List (List ℤ)} :
      t.step nested false a = some ⟨u, false, first, none⟩ → CanCall nested u later →
      CanCall nested t (first ++ later)

theorem CanCall.silent {nested : Bool} {t u : Strategy} {a : Action} {calls : List (List ℤ)}
    (h : t.step nested false a = some ⟨u, false, [], none⟩) (hrest : CanCall nested u calls) :
    CanCall nested t calls := .step h hrest

theorem CanCall.once {nested : Bool} {t u : Strategy} {a : Action} {calls : List (List ℤ)}
    (h : t.step nested false a = some ⟨u, false, calls, none⟩) : CanCall nested t calls := by
  rw [← List.append_nil calls]
  exact .step h (.nothing u)

/-- The calls that a slave can make, its parent can let it make. -/
theorem CanCall.slave {nested : Bool} {n : ℕ} {node : (Fin n → Strategy) → Strategy}
    (hnode : ∀ (slaves : Fin n → Strategy) i (hi : i < n) a u calls,
      (slaves ⟨i, hi⟩).step true false a = some ⟨u, false, calls, none⟩ →
      (node slaves).step nested false (.slave i a) =
        some ⟨node (Function.update slaves ⟨i, hi⟩ u), false, calls, none⟩)
    {slaves : Fin n → Strategy} {i : Fin n} {calls : List (List ℤ)}
    (h : CanCall true (slaves i) calls) : CanCall nested (node slaves) calls := by
  generalize ht : slaves i = t at h
  induction h generalizing slaves with
  | nothing t => exact .nothing _
  | step hstep _ ih =>
    rw [← ht] at hstep
    exact .step (hnode slaves i i.isLt _ _ _ hstep) (ih (Function.update_self ..))

theorem step_portfolio {nested strategyEnding : Bool} (n : ℕ) (slaves : Fin n → Strategy) (i : ℕ)
    (hi : i < n) (a : Action) (u : Strategy) (calls : List (List ℤ))
    (h : (slaves ⟨i, hi⟩).step true false a = some ⟨u, false, calls, none⟩) :
    (Strategy.portfolio strategyEnding n slaves).step nested false (.slave i a) =
      some ⟨.portfolio strategyEnding n (Function.update slaves ⟨i, hi⟩ u), false, calls,
        none⟩ := by
  simp only [Strategy.step, Strategy.stepSlave, dif_pos hi, h, Option.map_some]
  rfl

theorem step_localWorker {nested : Bool} (n : ℕ) (slaves : Fin n → Strategy) (i : ℕ)
    (hi : i < n) (a : Action) (u : Strategy) (calls : List (List ℤ))
    (h : (slaves ⟨i, hi⟩).step true false a = some ⟨u, false, calls, none⟩) :
    (Strategy.localWorker n slaves).step nested false (.slave i a) =
      some ⟨.localWorker n (Function.update slaves ⟨i, hi⟩ u), false, calls, none⟩ := by
  simp only [Strategy.step, Strategy.stepSlave, dif_pos hi, h, Option.map_some]
  rfl

/-- The master of a launched CubeAndConquer launches slaves[0] on no literal. -/
theorem canCall_cubeAndConquer (nested : Bool) {cc : CubeAndConquerNode} (cube : List ℤ)
    (hfresh : Strategy.Fresh (.cubeAndConquer cc)) :
    CanCall nested (.cubeAndConquer (cc.solve cube)) [[]] := by
  obtain ⟨⟨maxCpus, hpos, actualCube⟩, next, waitJob, rounds⟩ := cc
  obtain ⟨rfl, rfl, rfl⟩ := hfresh
  refine CanCall.silent (a := .startUp) rfl ?_
  refine CanCall.silent (a := .cube .master) rfl ?_
  -- the thread of slaves[0]: its two tests, then solver->solve
  refine CanCall.silent (a := .cube (.worker 0)) rfl ?_
  refine CanCall.silent (a := .cube (.worker 0)) rfl ?_
  exact CanCall.once (a := .cube (.worker 0)) rfl

theorem canCall_empty {t : Strategy} (cube : List ℤ) (hfresh : t.Fresh)
    (hcc : t.HasCubeAndConquer) (nested : Bool) : CanCall nested (t.solve cube) [[]] := by
  induction t generalizing nested with
  | sequentialWorker w => exact absurd hcc id
  | cubeAndConquer cc => exact canCall_cubeAndConquer nested cube hfresh
  | divideAndConquer dc => exact absurd hcc id
  | portfolio strategyEnding n slaves ih =>
    obtain ⟨i, hi⟩ := hcc
    exact CanCall.slave (step_portfolio n) (ih i (hfresh i) hi true)
  | localWorker n slaves ih =>
    obtain ⟨i, hi⟩ := hcc
    exact CanCall.slave (step_localWorker n) (ih i (hfresh i) hi true)

/-- What the tree can call quietly, a run of the process calls. -/
theorem CanCall.reach {tree : Built} {cube : List ℤ} {s : State} {calls : List (List ℤ)}
    (h : CanCall false s.strategy calls) (hs : (machine tree cube).Reach (fun _ _ => True) s)
    (hglobal : s.globalEnding = false) :
    ∃ t, (machine tree cube).Reach (fun _ _ => True) t ∧ t.calls = s.calls ++ calls := by
  generalize ht : s.strategy = strategy at h
  induction h generalizing s with
  | nothing => exact ⟨s, hs, (List.append_nil _).symm⟩
  | @step t u a first later hstep _ ih =>
    have hnext : (machine tree cube).step s (.inside a) =
        some { s with strategy := u, globalEnding := false, calls := s.calls ++ first } := by
      simp only [machine, CubeForwarding.step, ht, hglobal, hstep, Option.map_some]
    obtain ⟨v, hv, hcalls⟩ := ih (hs.step trivial hnext) rfl rfl
    exact ⟨v, hv, hcalls.trans (List.append_assoc ..)⟩

/-- The calls of solver->solve are on all literals of the cube exactly if there
are none, or no strategy of the tree is a CubeAndConquer. -/
theorem cube_passed_on_iff (tree : Built) (cube : List ℤ) :
    (∀ s, (machine tree cube).Reach (fun _ _ => True) s → ∀ call ∈ s.calls, cube ⊆ call) ↔
      cube = [] ∨ ¬ tree.1.HasCubeAndConquer := by
  constructor
  · intro hall
    by_contra hnot
    rw [not_or, not_not] at hnot
    have hlaunch : (machine tree cube).step ⟨tree.1, false, false, []⟩ .solve =
        some ⟨tree.1.solve cube, true, false, []⟩ := rfl
    have hstart : (machine tree cube).Reach (fun _ _ => True)
        ⟨tree.1.solve cube, true, false, []⟩ := .step (.init rfl) trivial hlaunch
    obtain ⟨t, ht, hcalls⟩ := (canCall_empty cube tree.2 hnot.2 false).reach hstart rfl
    have hsub := hall t ht [] (by simp [hcalls])
    exact hnot.1 (List.subset_nil.mp hsub)
  · intro hcond s hs call hcall
    rcases hcond with rfl | hno
    · exact List.nil_subset call
    · exact (passes_reach hno hs).2 call hcall

/-- A CubeAndConquer at the top, as main builds it for two threads. -/
def loneCubeAndConquer : Built :=
  ⟨.cubeAndConquer ⟨⟨2, by decide, []⟩, 0, true, none⟩, rfl, rfl, rfl⟩

/-- The solver is called without the literal that solve was given. -/
theorem cube_dropped : ∃ s, (machine loneCubeAndConquer [1]).Reach (fun _ _ => True) s ∧
    [] ∈ s.calls ∧ ¬ [1] ⊆ ([] : List ℤ) := by
  have hrun : ((machine loneCubeAndConquer [1]).run ⟨loneCubeAndConquer.1, false, false, []⟩
      (.solve :: ([.startUp, .cube .master, .cube (.worker 0), .cube (.worker 0),
        .cube (.worker 0)] : List Action).map .inside)).map State.calls = some [[]] := rfl
  obtain ⟨s, hs, hcalls⟩ := Option.map_eq_some_iff.mp hrun
  exact ⟨s, .of_run rfl hs, by simp [hcalls], by simp⟩

end Painless.CubeForwarding
