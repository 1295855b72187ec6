import Mathlib.Data.Multiset.Filter
import Painless.DivisionInterrupts

/-!
The solvers of the slaves in copy-mode 2. A split gives the idle slave a clone
and adds it to every sharer; a slave that closes its cube loses its solver under
mutexListsWorkers, and its thread removes the solver from the sharers and
releases it after it has dropped the lock. main gives the first slave the only
solver there is, which is in the sharers from their construction on.
-/
namespace Painless.DivisionSolvers

open DivideAndConquer DivisionLists DivisionInterrupts Transitions

/-- What main makes of the slaves in copy-mode 2, with sharers of the producer
and consumer `rootSolver`. -/
structure CloneConfig (W : Type*) [DecidableEq W] extends Config W where
  first : W
  idle : List W
  slaves_eq : slaves = first :: idle
  rootSolver : SolverId
  solver_eq : ∀ w, solver w = if w = first then some rootSolver else none
  cloneStrategy_eq : cloneStrategy = 2

/-- The sharer calls of a split that has made the clone `x`. -/
def additions (nSharers : ℕ) (x : SolverId) : List SharingCall :=
  (List.range nSharers).flatMap fun i => [.addConsumer i x, .addProducer i x]

/-- The calls for a solver that has left its slave. -/
def removals (nSharers : ℕ) (x : SolverId) : List SharingCall :=
  (List.range nSharers).flatMap (fun i => [.removeConsumer i x, .removeProducer i x]) ++
    [.release x]

/-- `leaving` holds, for each thread that has dropped the lock to get rid of a
solver, the calls it has still to make. -/
structure State (W : Type*) extends DivideAndConquer.State W where
  leaving : List (List SharingCall)

inductive Action (W : Type*)
  /-- a critical section under mutexListsWorkers -/
  | locked (a : DivideAndConquer.Action W)
  /-- the next call of a thread that has dropped the lock -/
  | proceed (k : ℕ)

variable {W : Type*}

/-! ### The calls about one solver -/

/-- The solver that a call is about. -/
def callee : SharingCall → SolverId
  | .addConsumer _ x => x
  | .addProducer _ x => x
  | .removeConsumer _ x => x
  | .removeProducer _ x => x
  | .release x => x

/-- The calls made and those that a thread has still to make. -/
def State.ledger (s : State W) : List SharingCall := s.calls ++ s.leaving.flatten

def State.about (s : State W) (x : SolverId) : Multiset SharingCall :=
  ↑(s.ledger.filter fun call => callee call = x)

theorem additions_callee (n : ℕ) (x : SolverId) : ∀ call ∈ additions n x, callee call = x := by
  intro call hcall
  obtain ⟨i, -, hi⟩ := List.mem_flatMap.mp hcall
  rcases List.mem_pair.mp hi with rfl | rfl <;> rfl

theorem removals_callee (n : ℕ) (x : SolverId) : ∀ call ∈ removals n x, callee call = x := by
  intro call hcall
  rcases List.mem_append.mp hcall with hcall | hcall
  · obtain ⟨i, -, hi⟩ := List.mem_flatMap.mp hcall
    rcases List.mem_pair.mp hi with rfl | rfl <;> rfl
  · rw [List.mem_singleton.mp hcall]
    rfl

theorem filter_callee {calls : List SharingCall} {x : SolverId}
    (h : ∀ call ∈ calls, callee call = x) (y : SolverId) :
    calls.filter (fun call => callee call = y) = if y = x then calls else [] := by
  split_ifs with hy
  · refine List.filter_eq_self.mpr fun call hcall => ?_
    rw [h call hcall, hy]
    exact decide_eq_true rfl
  · refine List.filter_eq_nil_iff.mpr fun call hcall => ?_
    rw [h call hcall, decide_eq_true_iff]
    exact fun heq => hy heq.symm

/-- New calls that are all about the solver `x`. -/
theorem about_append {s t : State W} {calls : List SharingCall} {x : SolverId}
    (hledger : t.ledger.Perm (s.ledger ++ calls)) (h : ∀ call ∈ calls, callee call = x)
    (y : SolverId) : t.about y = s.about y + if y = x then ↑calls else 0 := by
  have hfilter := hledger.filter fun call => callee call = y
  rw [List.filter_append, filter_callee h] at hfilter
  unfold State.about
  rw [Multiset.coe_eq_coe.mpr hfilter, ← Multiset.coe_add]
  split_ifs <;> rfl

theorem about_perm {s t : State W} (hledger : t.ledger.Perm s.ledger) (y : SolverId) :
    t.about y = s.about y :=
  Multiset.coe_eq_coe.mpr (hledger.filter _)

theorem count_about (s : State W) (call : SharingCall) :
    s.ledger.count call = (s.about (callee call)).count call := by
  have hkeep := List.count_filter (p := fun c => decide (callee c = callee call)) (a := call)
    (l := s.ledger) (decide_eq_true rfl)
  rw [State.about, Multiset.coe_count]
  exact hkeep.symm

/-! ### The steps -/

variable [DecidableEq W]

/-- The part of join in copy-mode 2 that takes the solver from its slave, and
the calls that are left for after the lock. -/
def loseSolver (cfg : Config W) (s : DivideAndConquer.State W) (current : W) :
    DivideAndConquer.State W × List SharingCall :=
  match s.solver current with
  | none => (s, [])
  | some x => ({ s with solver := Function.update s.solver current none }, removals cfg.nSharers x)

/-- The critical section of DivideAndConquer::join with UNSAT. -/
def closeCube (cfg : Config W) (s : DivideAndConquer.State W) (current : W) :
    Option (DivideAndConquer.State W × List SharingCall) :=
  (leaveWorkers s current).map fun s =>
    let s := { s with overs := addOnceToVectorTail s.overs current }.setInterrupt current
    let s := { s with nWorkers := s.nWorkers - 1 }
    if 0 < s.nWorkers ∧ cfg.cloneStrategy = 2 then loseSolver cfg s current else (s, [])

/-- The state with the calls made at once. -/
def made (p : DivideAndConquer.State W × List SharingCall) : DivideAndConquer.State W :=
  { p.1 with calls := p.1.calls ++ p.2 }

omit [DecidableEq W] in
theorem made_nil (s : DivideAndConquer.State W) : made (s, []) = s := by
  unfold made
  rw [List.append_nil]

theorem made_loseSolver (cfg : Config W) (s : DivideAndConquer.State W) (current : W) :
    made (loseSolver cfg s current) = s.dropSolver cfg current := by
  cases hx : s.solver current with
  | none =>
    simp only [loseSolver, State.dropSolver, hx]
    exact made_nil s
  | some x => simp only [loseSolver, State.dropSolver, hx, made, removals, List.append_assoc]

theorem joinUnsat_closeCube (cfg : Config W) (s : DivideAndConquer.State W) (current : W) :
    joinUnsat cfg s current = (closeCube cfg s current).map made := by
  unfold joinUnsat closeCube
  rw [Option.map_map]
  refine congrArg (fun f => (leaveWorkers s current).map f) (funext fun u => ?_)
  dsimp only [Function.comp_apply]
  split_ifs
  · exact (made_loseSolver cfg _ current).symm
  · exact (made_nil _).symm

def step (cfg : CloneConfig W) (s : State W) : Action W → Option (State W)
  | .locked (.joinUnsat current) =>
    (closeCube cfg.toConfig s.toState current).map fun (t, calls) =>
      ⟨t, s.leaving ++ [calls]⟩
  | .locked a => (DivideAndConquer.step cfg.toConfig s.toState a).map fun t => ⟨t, s.leaving⟩
  | .proceed k =>
    match s.leaving[k]? with
    | some (call :: rest) =>
      some { s with calls := s.calls ++ [call], leaving := s.leaving.set k rest }
    | _ => none

def machine (cfg : CloneConfig W) : Machine (State W) (Action W) where
  Init s := startUp cfg.toConfig = some s.toState ∧ s.leaving = []
  step := step cfg

def Reports (s : State W) : Action W → Prop
  | .locked a => DivideAndConquer.Reports s.toState a
  | .proceed _ => True

instance (s : State W) : ∀ a, Decidable (Reports s a)
  | .locked a => inferInstanceAs (Decidable (DivideAndConquer.Reports s.toState a))
  | .proceed _ => inferInstanceAs (Decidable True)

/-! ### What each critical section does with the solvers -/

section Sections

variable {s t : DivideAndConquer.State W}

theorem handOver_solvers (h : handOver s = some t) :
    t.solver = s.solver ∧ t.currentIdSolver = s.currentIdSolver ∧ t.calls = s.calls := by
  obtain ⟨overSlave, overs, worker, workers, -, -, rfl⟩ := handOver_eq h
  exact ⟨rfl, rfl, rfl⟩

theorem solve_calls (w : W) (cube : List ℤ) : (s.solve w cube).calls = s.calls := by
  unfold State.solve State.unsetInterrupt
  split <;> rfl

/-- A split gives the idle slave a solver that is new, where the engine can be
cloned. -/
theorem joinUnknown_solvers {cfg : Config W} (hcopy : cfg.cloneStrategy = 2)
    (htype : cfg.solverType ≠ .minisat) {current : W} {var : ℤ}
    (h : joinUnknown cfg s current var = some t) :
    ∃ overSlave rest, s.oversSplitting = overSlave :: rest ∧
      t.solver = Function.update s.solver overSlave (some s.currentIdSolver) ∧
      t.currentIdSolver = s.currentIdSolver + 1 ∧
      t.calls = s.calls ++ additions cfg.nSharers s.currentIdSolver := by
  unfold joinUnknown at h
  split at h
  case h_2 => exact absurd h (by simp)
  case h_1 overSlave rest x hovers hsolver =>
    dsimp only at h
    rw [if_pos hcopy, State.cloneSolver, if_neg htype, Option.map_some] at h
    obtain rfl := Option.some.inj h
    refine ⟨overSlave, rest, getHeadFromVector_eq_some.mp hovers, ?_, ?_, ?_⟩
    · exact launchHalves_solver _ current overSlave var
    · exact launchHalves_currentIdSolver _ current overSlave var
    · rw [launchHalves, solve_calls, solve_calls]
      rfl

/-- A MiniSat solver cannot be cloned: without sharers, the idle slave starts to
work with no solver. -/
theorem joinUnknown_minisat {cfg : Config W} (hcopy : cfg.cloneStrategy = 2)
    (htype : cfg.solverType = .minisat) {current : W} {var : ℤ}
    (h : joinUnknown cfg s current var = some t) :
    ∃ overSlave, t.solver overSlave = none ∧ overSlave ∈ t.workers ∧
      t.nWorkers = s.nWorkers + 1 := by
  obtain ⟨overSlave, rest, hovers, hl, -, -⟩ := joinUnknown_spec h
  unfold joinUnknown at h
  split at h
  case h_2 => exact absurd h (by simp)
  case h_1 overSlave' rest' x hovers' hsolver =>
    obtain ⟨rfl, rfl⟩ := List.cons.inj (hovers.symm.trans (getHeadFromVector_eq_some.mp hovers'))
    dsimp only at h
    rw [if_pos hcopy, State.cloneSolver, if_pos htype] at h
    split_ifs at h
    case neg => exact absurd h (by simp)
    obtain rfl := Option.some.inj h
    refine ⟨overSlave, ?_, by rw [hl]; simp, by rw [hl]⟩
    rw [launchHalves_solver]
    exact Function.update_self ..

/-- A closed cube costs its slave the solver as long as other workers are left. -/
theorem closeCube_solvers {cfg : Config W} (hcopy : cfg.cloneStrategy = 2) {current : W}
    {calls : List SharingCall} (h : closeCube cfg s current = some (t, calls)) :
    t.currentIdSolver = s.currentIdSolver ∧ t.calls = s.calls ∧
      ((t.solver = s.solver ∧ calls = [] ∧ (0 < t.nWorkers → s.solver current = none)) ∨
        ∃ x, s.solver current = some x ∧ t.solver = Function.update s.solver current none ∧
          calls = removals cfg.nSharers x) := by
  unfold closeCube at h
  obtain ⟨u, hu, heq⟩ := Option.map_eq_some_iff.mp h
  obtain ⟨-, -, hid, hsolver⟩ := leaveWorkers_flags hu
  rw [← hid, ← hsolver, ← (leaveWorkers_calls hu).1]
  dsimp only at heq
  split_ifs at heq with hothers
  · unfold loseSolver at heq
    split at heq
    case h_1 hnone =>
      obtain ⟨rfl, rfl⟩ := Prod.mk.inj heq
      exact ⟨rfl, rfl, Or.inl ⟨rfl, rfl, fun _ => hnone⟩⟩
    case h_2 x hx =>
      obtain ⟨rfl, rfl⟩ := Prod.mk.inj heq
      exact ⟨rfl, rfl, Or.inr ⟨x, hx, rfl, rfl⟩⟩
  · obtain ⟨rfl, rfl⟩ := Prod.mk.inj heq
    refine ⟨rfl, rfl, Or.inl ⟨rfl, rfl, fun hpos => ?_⟩⟩
    exact absurd ⟨hpos, hcopy⟩ hothers

end Sections

/-! ### The invariant -/

/-- The solver has been a slave's, and is so no more. -/
def LeftASlave (cfg : CloneConfig W) (s : State W) (x : SolverId) : Prop :=
  (x = cfg.rootSolver ∨ (cfg.currentIdSolver ≤ x ∧ x < s.currentIdSolver)) ∧
    ∀ w, s.solver w ≠ some x

/-- The sharers have the root solver without a call. -/
def introduced (cfg : CloneConfig W) (x : SolverId) : Multiset SharingCall :=
  if x = cfg.rootSolver then 0 else ↑(additions cfg.nSharers x)

/-- What the calls made and still to be made say about each solver. -/
structure LedgerOk (cfg : CloneConfig W) (s : State W) : Prop where
  held : ∀ w x, s.solver w = some x → s.about x = introduced cfg x
  left : ∀ x, LeftASlave cfg s x →
    s.about x = introduced cfg x + ↑(removals cfg.nSharers x)
  fresh : ∀ x, s.currentIdSolver ≤ x → s.about x = 0

structure SolversOk (cfg : CloneConfig W) (s : State W) : Prop where
  lists : ListsInvariant cfg.toConfig s.toSlaveLists
  owned : SolversOwned s.toState
  grown : cfg.currentIdSolver ≤ s.currentIdSolver
  ledger : LedgerOk cfg s
  active : ∀ w, Active s.toState w → ∃ x, s.solver w = some x
  idle : 0 < s.nWorkers → ∀ w, ¬ Active s.toState w → s.solver w = none

variable {cfg : CloneConfig W} {s t : State W}

theorem root_lt (cfg : CloneConfig W) : cfg.rootSolver < cfg.currentIdSolver :=
  cfg.solverFresh cfg.first cfg.rootSolver (by rw [cfg.solver_eq, if_pos rfl])

theorem LedgerOk.same (hs : LedgerOk cfg s) (hsolver : t.solver = s.solver)
    (hid : t.currentIdSolver = s.currentIdSolver) (hledger : t.ledger.Perm s.ledger) :
    LedgerOk cfg t where
  held w x hx := by
    rw [about_perm hledger]
    exact hs.held w x (hsolver ▸ hx)
  left x hx := by
    rw [about_perm hledger]
    refine hs.left x ?_
    rwa [LeftASlave, hsolver, hid] at hx
  fresh x hx := by
    rw [about_perm hledger]
    exact hs.fresh x (hid ▸ hx)

/-- The clone of a split goes to a slave that had no solver. -/
theorem LedgerOk.clone (hs : LedgerOk cfg s) (howned : SolversOwned s.toState)
    (hgrown : cfg.currentIdSolver ≤ s.currentIdSolver) {overSlave : W}
    (hover : s.solver overSlave = none)
    (hsolver : t.solver = Function.update s.solver overSlave (some s.currentIdSolver))
    (hid : t.currentIdSolver = s.currentIdSolver + 1)
    (hledger : t.ledger.Perm (s.ledger ++ additions cfg.nSharers s.currentIdSolver)) :
    LedgerOk cfg t := by
  have habout := about_append hledger (additions_callee cfg.nSharers s.currentIdSolver)
  have hroot : s.currentIdSolver ≠ cfg.rootSolver := ((root_lt cfg).trans_le hgrown).ne'
  have hold (x : SolverId) (hx : x ≠ s.currentIdSolver) : t.about x = s.about x := by
    rw [habout, if_neg hx, Multiset.add_zero]
  constructor
  · intro w x hx
    rw [hsolver, Function.update_apply] at hx
    split_ifs at hx with hw
    · obtain rfl := Option.some.inj hx
      rw [habout, if_pos rfl, hs.fresh _ (Nat.le_refl _), introduced, if_neg hroot,
        Multiset.zero_add]
    · rw [hold x (howned.fresh w x hx).ne]
      exact hs.held w x hx
  · rintro x ⟨hused, hleft⟩
    have hne : x ≠ s.currentIdSolver := by
      rintro rfl
      exact hleft overSlave (by rw [hsolver, Function.update_self])
    rw [hold x hne]
    have hlt (h : x < t.currentIdSolver) : x < s.currentIdSolver := by
      rw [hid] at h
      exact Nat.lt_of_le_of_ne (Nat.le_of_lt_succ h) hne
    refine hs.left x ⟨hused.imp_right fun h => ⟨h.1, hlt h.2⟩, fun w hw => ?_⟩
    refine hleft w ?_
    rw [hsolver, Function.update_of_ne ?_, hw]
    rintro rfl
    simp [hover] at hw
  · intro x hx
    rw [hid] at hx
    have hlt : s.currentIdSolver < x := hx
    rw [hold x hlt.ne']
    exact hs.fresh x hlt.le

/-- A solver leaves its slave, and its removals are due. -/
theorem LedgerOk.drop (hs : LedgerOk cfg s) (howned : SolversOwned s.toState) {current : W}
    {x : SolverId} (hx : s.solver current = some x)
    (hsolver : t.solver = Function.update s.solver current none)
    (hid : t.currentIdSolver = s.currentIdSolver)
    (hledger : t.ledger.Perm (s.ledger ++ removals cfg.nSharers x)) : LedgerOk cfg t := by
  have habout := about_append hledger (removals_callee cfg.nSharers x)
  have hold (y : SolverId) (hy : y ≠ x) : t.about y = s.about y := by
    rw [habout, if_neg hy, Multiset.add_zero]
  constructor
  · intro w y hy
    rw [hsolver, Function.update_apply] at hy
    split_ifs at hy with hw
    have hne : y ≠ x := by
      rintro rfl
      exact hw (howned.owned w current y hy hx)
    rw [hold y hne]
    exact hs.held w y hy
  · rintro y ⟨hused, hleft⟩
    rcases eq_or_ne y x with rfl | hne
    · rw [habout, if_pos rfl, hs.held current y hx]
    · rw [hold y hne]
      refine hs.left y ⟨by rwa [hid] at hused, fun w hw => ?_⟩
      refine hleft w ?_
      rw [hsolver, Function.update_of_ne ?_, hw]
      rintro rfl
      rw [hx, Option.some.injEq] at hw
      exact hne hw.symm
  · intro y hy
    rw [hid] at hy
    rw [hold y ((howned.fresh current x hx).trans_le hy).ne']
    exact hs.fresh y hy

theorem solversOk_start (h : (machine cfg).Init s) : SolversOk cfg s := by
  obtain ⟨hstart, hleaving⟩ := h
  have hlists := invariant_startUp hstart
  have howned := owned_startUp hstart
  obtain ⟨first, rest, hslaves, hl, -, -⟩ := startUp_spec hstart
  have hfirst : first = cfg.first := by
    rw [cfg.slaves_eq] at hslaves
    exact (List.cons.inj hslaves).1.symm
  have hdata : s.solver = cfg.solver ∧ s.currentIdSolver = cfg.currentIdSolver ∧
      s.calls = [] := by
    unfold startUp at hstart
    obtain ⟨p, -, heq⟩ := Option.map_eq_some_iff.mp hstart
    rw [← heq]
    exact ⟨solve_solver _ _ _, solve_currentIdSolver _ _ _, solve_calls _ _⟩
  obtain ⟨hsolver, hid, hcalls⟩ := hdata
  have hempty (x : SolverId) : s.about x = 0 := by
    rw [State.about, State.ledger, hcalls, hleaving]
    rfl
  have hactive (w : W) : Active s.toState w ↔ w = cfg.first := by
    rw [Active, hl, ← hfirst]
    simp
  refine ⟨hlists, howned, hid.ge, ⟨fun w x hx => ?_, ?_, fun x _ => hempty x⟩, ?_, ?_⟩
  · rw [hsolver, cfg.solver_eq] at hx
    split_ifs at hx
    rw [hempty, introduced, if_pos (Option.some.inj hx).symm]
  · rintro x ⟨hroot | hnone, hleft⟩
    · refine absurd ?_ (hleft cfg.first)
      rw [hsolver, cfg.solver_eq, if_pos rfl, hroot]
    · rw [hid] at hnone
      exact absurd hnone.2 (Nat.not_lt.mpr hnone.1)
  · intro w hw
    rw [hsolver, cfg.solver_eq, if_pos ((hactive w).mp hw)]
    exact ⟨_, rfl⟩
  · intro _ w hw
    rw [hsolver, cfg.solver_eq, if_neg fun heq => hw ((hactive w).mpr heq)]

/-- A split is made with a solver that has a copy constructor. -/
def Cloneable (cfg : CloneConfig W) : Action W → Prop
  | .locked (.joinUnknown _ _) => cfg.solverType ≠ .minisat
  | _ => True

theorem solversOk_handOver (hs : SolversOk cfg s)
    (h : handOver s.toState = some t.toState) (hleaving : t.leaving = s.leaving) :
    SolversOk cfg t := by
  obtain ⟨hsolver, hid, hcalls⟩ := handOver_solvers h
  have hactive (w : W) : Active t.toState w ↔ Active s.toState w := by
    have hmem := (handOver_active hs.lists h).mem_iff (a := w)
    rwa [List.mem_append, List.mem_append] at hmem
  have hn : t.nWorkers = s.nWorkers := by
    obtain ⟨_, _, _, _, -, -, hl, -, -⟩ := handOver_spec h
    rw [hl]
  have howned : SolversOwned t.toState :=
    hs.owned.of_frame (fun w x hx => hsolver ▸ hx) hid.ge
  refine ⟨invariant_handOver hs.lists h, howned, ?_, ?_, ?_, ?_⟩
  · rw [hid]
    exact hs.grown
  · refine hs.ledger.same hsolver hid ?_
    rw [State.ledger, hcalls, hleaving, State.ledger]
  · intro w hw
    rw [hsolver]
    exact hs.active w ((hactive w).mp hw)
  · intro hpos w hw
    rw [hsolver]
    exact hs.idle (hn ▸ hpos) w fun hactive' => hw ((hactive w).mpr hactive')

theorem SolversOk.pos (hs : SolversOk cfg s) {w : W} (hw : Active s.toState w) :
    0 < s.nWorkers := by
  have hcount := hs.lists.count
  rcases hw with hw | hw
  · have hpos := List.length_pos_of_mem hw
    omega
  · have hpos := List.length_pos_of_mem hw
    omega

theorem solversOk_joinUnknown (hs : SolversOk cfg s) {current : W} {var : ℤ}
    (hcurrent : current ∈ s.workersSplitting) (htype : cfg.solverType ≠ .minisat)
    (h : joinUnknown cfg.toConfig s.toState current var = some t.toState)
    (hleaving : t.leaving = s.leaving) : SolversOk cfg t := by
  obtain ⟨overSlave, rest, hovers, hsolver, hid, hcalls⟩ :=
    joinUnknown_solvers cfg.cloneStrategy_eq htype h
  obtain ⟨overSlave', rest', others, hovers', -, -, -, hbefore, hafter, -, -⟩ :=
    joinUnknown_active hs.lists hcurrent h
  obtain ⟨rfl, -⟩ := List.cons.inj (hovers'.symm.trans hovers)
  have hactive (w : W) : Active t.toState w ↔ w = overSlave' ∨ Active s.toState w := by
    have ht := hafter.mem_iff (a := w)
    have hb := hbefore.mem_iff (a := w)
    rw [List.mem_append] at ht hb
    rw [Active, Active, ht, hb, List.mem_cons, List.mem_cons, List.mem_cons]
    exact or_left_comm
  have hpos := hs.pos (Or.inr hcurrent)
  have hnone : s.solver overSlave' = none := by
    refine hs.idle hpos overSlave' fun hact => ?_
    have hout := hs.lists.not_active_of_oversSplitting (w := overSlave') (by simp [hovers])
    exact hact.elim hout.1 hout.2
  refine ⟨invariant_joinUnknown hs.lists hcurrent h, owned_joinUnknown hs.owned h, ?_, ?_, ?_, ?_⟩
  · rw [hid]
    exact hs.grown.trans (Nat.le_succ _)
  · refine hs.ledger.clone hs.owned hs.grown hnone hsolver hid ?_
    rw [State.ledger, hcalls, hleaving, State.ledger, List.append_assoc, List.append_assoc]
    exact List.perm_append_comm.append_left _
  · intro w hw
    rw [hsolver, Function.update_apply]
    split_ifs with heq
    · exact ⟨_, rfl⟩
    · exact hs.active w (((hactive w).mp hw).resolve_left heq)
  · intro _ w hw
    rw [hactive, not_or] at hw
    rw [hsolver, Function.update_of_ne hw.1]
    exact hs.idle hpos w hw.2

theorem solversOk_closeCube (hs : SolversOk cfg s) {current : W} {calls : List SharingCall}
    (hcurrent : Active s.toState current)
    (h : closeCube cfg.toConfig s.toState current = some (t.toState, calls))
    (hleaving : t.leaving = s.leaving ++ [calls]) : SolversOk cfg t := by
  have hjoin : joinUnsat cfg.toConfig s.toState current = some (made (t.toState, calls)) := by
    rw [joinUnsat_closeCube, h]
    rfl
  have hlists : ListsInvariant cfg.toConfig (made (t.toState, calls)).toSlaveLists :=
    invariant_joinUnsat hs.lists hcurrent hjoin
  have hperm := joinUnsat_active hcurrent hjoin
  have hactive (w : W) : Active s.toState w ↔ w = current ∨ Active t.toState w := by
    have hmem := hperm.mem_iff (a := w)
    rw [List.mem_append, List.mem_cons, List.mem_append] at hmem
    exact hmem
  have hgone : ¬ Active t.toState current := by
    obtain ⟨⟨-, hworkers, hsplitting, -⟩, -, -, -, hdisjoint, -, -⟩ := hs.lists.nodup_lists
    have hnodup := hperm.nodup_iff.mp (List.nodup_append'.mpr ⟨hworkers, hsplitting, hdisjoint⟩)
    intro hmem
    exact (List.nodup_cons.mp hnodup).1 (List.mem_append.mpr hmem)
  obtain ⟨hid, hcalls, hsolvers⟩ := closeCube_solvers cfg.cloneStrategy_eq h
  have hledger : t.ledger.Perm (s.ledger ++ calls) := by
    rw [State.ledger, hcalls, hleaving, State.ledger, List.flatten_append,
      List.flatten_singleton, List.append_assoc]
  have hidle := hs.idle (hs.pos hcurrent)
  rcases hsolvers with ⟨hsame, rfl, hnone⟩ | ⟨x, hx, hsolver, rfl⟩
  · rw [List.append_nil] at hledger
    refine ⟨hlists, hs.owned.of_frame (fun w x hx => hsame ▸ hx) hid.ge, hid ▸ hs.grown,
      hs.ledger.same hsame hid hledger, fun w hw => ?_, fun hpos w hw => ?_⟩
    · rw [hsame]
      exact hs.active w ((hactive w).mpr (Or.inr hw))
    · rw [hsame]
      by_cases heq : w = current
      · rw [heq]
        exact hnone hpos
      · exact hidle w fun hact => (((hactive w).mp hact).elim heq hw)
  · have howned : SolversOwned t.toState := by
      refine hs.owned.of_frame (fun w y hy => ?_) hid.ge
      rw [hsolver, Function.update_apply] at hy
      split_ifs at hy
      exact hy
    refine ⟨hlists, howned, hid ▸ hs.grown, hs.ledger.drop hs.owned hx hsolver hid hledger,
      fun w hw => ?_, fun _ w hw => ?_⟩
    · have hne : w ≠ current := fun heq => hgone (heq ▸ hw)
      rw [hsolver, Function.update_of_ne hne]
      exact hs.active w ((hactive w).mpr (Or.inr hw))
    · rw [hsolver, Function.update_apply]
      split_ifs with heq
      · rfl
      · exact hidle w fun hact => ((hactive w).mp hact).elim heq hw

/-- The next call of one of several threads is the head of its list. -/
theorem pop_flatten_perm {C : Type*} {ls : List (List C)} {k : ℕ} {c : C} {rest : List C}
    (h : ls[k]? = some (c :: rest)) : (c :: (ls.set k rest).flatten).Perm ls.flatten := by
  induction ls generalizing k with
  | nil => simp at h
  | cons l ls ih =>
    cases k with
    | zero =>
      obtain rfl : l = c :: rest := by simpa using h
      exact List.Perm.refl _
    | succ k =>
      have hrest := ih (by simpa using h)
      rw [List.set_cons_succ, List.flatten_cons, List.flatten_cons]
      exact List.perm_middle.symm.trans (hrest.append_left l)

theorem solversOk_step {a : Action W} (hs : SolversOk cfg s) (hreports : Reports s a)
    (hclone : Cloneable cfg a) (h : step cfg s a = some t) : SolversOk cfg t := by
  cases a with
  | locked a =>
    cases a with
    | handOver =>
      obtain ⟨u, hu, rfl⟩ := Option.map_eq_some_iff.mp h
      exact solversOk_handOver hs hu rfl
    | joinUnknown current var =>
      obtain ⟨u, hu, rfl⟩ := Option.map_eq_some_iff.mp h
      exact solversOk_joinUnknown hs hreports hclone hu rfl
    | joinUnsat current =>
      obtain ⟨⟨u, calls⟩, hu, rfl⟩ := Option.map_eq_some_iff.mp h
      exact solversOk_closeCube hs hreports hu rfl
  | proceed k =>
    simp only [step] at h
    split at h
    case h_2 => exact absurd h (by simp)
    case h_1 call rest hk =>
      obtain rfl := Option.some.inj h
      refine { hs with
        owned := hs.owned.of_frame (fun _ _ hx => hx) (Nat.le_refl _)
        ledger := hs.ledger.same rfl rfl ?_ }
      rw [State.ledger, State.ledger, List.append_assoc, List.singleton_append]
      exact (pop_flatten_perm hk).append_left s.calls

instance (cfg : CloneConfig W) : ∀ a : Action W, Decidable (Cloneable cfg a)
  | .locked (.joinUnknown _ _) => inferInstanceAs (Decidable (_ ≠ _))
  | .locked .handOver | .locked (.joinUnsat _) | .proceed _ => inferInstanceAs (Decidable True)

/-- The steps of a run in which only engines that can be cloned are split. -/
def Splits (cfg : CloneConfig W) (s : State W) (a : Action W) : Prop :=
  Reports s a ∧ Cloneable cfg a

instance (cfg : CloneConfig W) (s : State W) (a : Action W) : Decidable (Splits cfg s a) :=
  inferInstanceAs (Decidable (_ ∧ _))

theorem solversOk_reach (hs : (machine cfg).Reach (Splits cfg) s) : SolversOk cfg s :=
  hs.invariant (SolversOk cfg) (fun _ h => solversOk_start h)
    (fun _ _ _ _ hinv hok h => solversOk_step hinv hok.1 hok.2 h)

/-! ### Ownership -/

theorem count_flatMap_range {C : Type*} [DecidableEq C] {f : ℕ → List C} {c : C} {j : ℕ}
    (h : ∀ i, (f i).count c = if i = j then 1 else 0) (n : ℕ) :
    ((List.range n).flatMap f).count c = if j < n then 1 else 0 := by
  induction n with
  | zero => rfl
  | succ n ih =>
    rw [List.range_succ, List.flatMap_append, List.count_append, ih, List.flatMap_singleton, h]
    split_ifs <;> omega

section Counts

variable (n i : ℕ) (x : SolverId)

theorem count_additions :
    (additions n x).count (.addConsumer i x) = (if i < n then 1 else 0) ∧
      (additions n x).count (.addProducer i x) = (if i < n then 1 else 0) ∧
      (additions n x).count (.removeConsumer i x) = 0 ∧
      (additions n x).count (.removeProducer i x) = 0 ∧
      (additions n x).count (.release x) = 0 := by
  refine ⟨count_flatMap_range ?_ n, count_flatMap_range ?_ n, ?_, ?_, ?_⟩
  · intro j
    simp [List.count_cons]
  · intro j
    simp [List.count_cons]
  all_goals
    rw [List.count_eq_zero]
    simp [additions]

theorem count_removals :
    (removals n x).count (.addConsumer i x) = 0 ∧ (removals n x).count (.addProducer i x) = 0 ∧
      (removals n x).count (.removeConsumer i x) = (if i < n then 1 else 0) ∧
      (removals n x).count (.removeProducer i x) = (if i < n then 1 else 0) ∧
      (removals n x).count (.release x) = 1 := by
  have hpairs (call : SharingCall)
      (hcall : ∀ j, [SharingCall.removeConsumer j x, .removeProducer j x].count call =
        if j = i then 1 else 0) (hne : call ≠ .release x) :
      (removals n x).count call = if i < n then 1 else 0 := by
    have hlast : [SharingCall.release x].count call = 0 :=
      List.count_eq_zero_of_not_mem fun hmem => hne (List.mem_singleton.mp hmem)
    rw [removals, List.count_append, count_flatMap_range hcall, hlast, Nat.add_zero]
  refine ⟨?_, ?_, hpairs _ ?_ (by simp), hpairs _ ?_ (by simp), ?_⟩
  · rw [List.count_eq_zero]
    simp [removals]
  · rw [List.count_eq_zero]
    simp [removals]
  · intro j
    simp [List.count_cons]
  · intro j
    simp [List.count_cons]
  · have hnone : ((List.range n).flatMap fun j =>
        [SharingCall.removeConsumer j x, .removeProducer j x]).count (.release x) = 0 := by
      rw [List.count_eq_zero]
      simp
    rw [removals, List.count_append, hnone, List.count_singleton_self]

end Counts

/-- How often the solver has become a consumer of sharer `i`. -/
def consumerAdds (cfg : CloneConfig W) (s : State W) (i : ℕ) (x : SolverId) : ℕ :=
  (if x = cfg.rootSolver then 1 else 0) + s.ledger.count (.addConsumer i x)

def producerAdds (cfg : CloneConfig W) (s : State W) (i : ℕ) (x : SolverId) : ℕ :=
  (if x = cfg.rootSolver then 1 else 0) + s.ledger.count (.addProducer i x)

/-- The removals and the release of a solver that has left its slave have been
made, or will be by the thread that took it away. -/
structure Owned (cfg : CloneConfig W) (s : State W) : Prop where
  working : ∀ w, w ∈ s.workers ∨ w ∈ s.workersSplitting → s.solver w ≠ none
  distinct : ∀ a b x, s.solver a = some x → s.solver b = some x → a = b
  idle : ∀ w, w ∈ s.overs ∨ w ∈ s.oversSplitting → s.solver w = none
  left : ∀ x, LeftASlave cfg s x → s.ledger.count (.release x) = 1 ∧
    ∀ i < cfg.nSharers,
      consumerAdds cfg s i x = 1 ∧ s.ledger.count (.removeConsumer i x) = 1 ∧
      producerAdds cfg s i x = 1 ∧ s.ledger.count (.removeProducer i x) = 1
  kept : ∀ w x, s.solver w = some x → s.ledger.count (.release x) = 0 ∧
    ∀ i, s.ledger.count (.removeConsumer i x) = 0 ∧ s.ledger.count (.removeProducer i x) = 0

theorem SolversOk.about_left (hs : SolversOk cfg s) {x : SolverId} (hx : LeftASlave cfg s x)
    (call : SharingCall) (hcall : callee call = x) : s.ledger.count call =
      (introduced cfg x).count call + (removals cfg.nSharers x).count call := by
  rw [count_about, hcall, hs.ledger.left x hx, Multiset.count_add, Multiset.coe_count]

theorem SolversOk.about_held (hs : SolversOk cfg s) {w : W} {x : SolverId}
    (hx : s.solver w = some x) (call : SharingCall) (hcall : callee call = x) :
    s.ledger.count call = (introduced cfg x).count call := by
  rw [count_about, hcall, hs.ledger.held w x hx]

theorem count_introduced (cfg : CloneConfig W) (x : SolverId) (call : SharingCall) :
    (introduced cfg x).count call =
      if x = cfg.rootSolver then 0 else (additions cfg.nSharers x).count call := by
  unfold introduced
  split_ifs
  · exact Multiset.count_zero call
  · exact Multiset.coe_count call _

theorem SolversOk.owned_solvers (hs : SolversOk cfg s) (hpos : 0 < s.nWorkers) :
    Owned cfg s := by
  constructor
  · intro w hw hnone
    obtain ⟨x, hx⟩ := hs.active w hw
    rw [hnone] at hx
    cases hx
  · exact hs.owned.owned
  · intro w hw
    refine hs.idle hpos w fun hact => ?_
    obtain ⟨hworkers, hsplitting, -⟩ := hs.lists.nodup_lists.2
    rcases hw with hw | hw
    · exact hact.elim (fun hmem => hworkers hw hmem) fun hmem => hsplitting hw hmem
    · have hout := hs.lists.not_active_of_oversSplitting hw
      exact hact.elim hout.1 hout.2
  · intro x hx
    have hcount := hs.about_left hx
    obtain ⟨-, -, -, -, hrelease⟩ := count_additions cfg.nSharers 0 x
    obtain ⟨-, -, -, -, hreleased⟩ := count_removals cfg.nSharers 0 x
    refine ⟨?_, fun i hi => ?_⟩
    · rw [hcount _ rfl, count_introduced, hreleased, hrelease]
      split_ifs <;> rfl
    · obtain ⟨hconsumer, hproducer, hno, hno', -⟩ := count_additions cfg.nSharers i x
      obtain ⟨hnone, hnone', hremove, hremove', -⟩ := count_removals cfg.nSharers i x
      rw [consumerAdds, producerAdds, hcount _ rfl, hcount _ rfl, hcount _ rfl, hcount _ rfl]
      simp only [count_introduced, hconsumer, hproducer, hno, hno', hnone, hnone', hremove,
        hremove', if_pos hi]
      split_ifs <;> simp
  · intro w x hx
    have hcount := hs.about_held hx
    obtain ⟨-, -, -, -, hrelease⟩ := count_additions cfg.nSharers 0 x
    refine ⟨?_, fun i => ?_⟩
    · rw [hcount _ rfl, count_introduced, hrelease, ite_self]
    · obtain ⟨-, -, hno, hno', -⟩ := count_additions cfg.nSharers i x
      rw [hcount _ rfl, hcount _ rfl, count_introduced, count_introduced, hno, hno', ite_self]
      exact ⟨rfl, rfl⟩

/-- In a run that splits only engines that can be cloned, each solver has one
owner until it leaves its slave, and is then removed from each sharer and
released once. A split of another engine breaks this at once. -/
theorem solvers_owned_iff (cfg : CloneConfig W) (s t : State W) (a : Action W)
    (hs : (machine cfg).Reach (Splits cfg) s) (hreports : Reports s a)
    (h : (machine cfg).step s a = some t) :
    (0 < s.nWorkers → Owned cfg s) ∧ (Cloneable cfg a ↔ (0 < t.nWorkers → Owned cfg t)) := by
  have hinv := solversOk_reach hs
  refine ⟨hinv.owned_solvers, ?_, ?_⟩
  · intro hclone
    exact (solversOk_step hinv hreports hclone h).owned_solvers
  · intro howned
    cases a with
    | proceed k => trivial
    | locked a =>
      cases a with
      | handOver | joinUnsat current => trivial
      | joinUnknown current var =>
        intro htype
        obtain ⟨u, hu, rfl⟩ := Option.map_eq_some_iff.mp h
        obtain ⟨overSlave, hnone, hmem, hn⟩ := joinUnknown_minisat cfg.cloneStrategy_eq htype hu
        have hpos := hinv.pos (Or.inr hreports)
        refine (howned ?_).working overSlave (Or.inl hmem) hnone
        rw [hn]
        omega

/-- Two slaves with one solver of the given type. -/
def twoSlaves (solverType : SolverInterface.SolverType) (nSharers : ℕ) : CloneConfig (Fin 2) where
  slaves := [0, 1]
  nodup := nodup_twoSlaves
  actualCube := []
  cloneStrategy := 2
  nSharers := nSharers
  solverType := solverType
  solver w := if w = 0 then some 0 else none
  currentIdSolver := 1
  solverOwned a b x ha hb := by
    split_ifs at ha hb with ha' hb'
    rw [ha', hb']
  solverFresh w x h := by
    split_ifs at h
    rw [← Option.some.inj h]
    exact Nat.zero_lt_one
  first := 0
  idle := [1]
  slaves_eq := rfl
  rootSolver := 0
  solver_eq _ := rfl
  cloneStrategy_eq := rfl

/-- The first slave has been launched. -/
def launched (cfg : CloneConfig (Fin 2)) (h : (startUp cfg.toConfig).isSome) : State (Fin 2) :=
  ⟨(startUp cfg.toConfig).get h, []⟩

theorem launched_init (cfg : CloneConfig (Fin 2)) (h : (startUp cfg.toConfig).isSome) :
    (machine cfg).Init (launched cfg h) :=
  ⟨(Option.some_get h).symm, rfl⟩

def lingelingPair : CloneConfig (Fin 2) := twoSlaves .lingeling 1

/-- Slave 0 is asked to split, and slave 1 closes the half that it gets. -/
def splitAndClose : List (Action (Fin 2)) :=
  [.locked .handOver, .locked (.joinUnknown 0 5), .locked (.joinUnsat 1)]

def closed : State (Fin 2) :=
  ((machine lingelingPair).run (launched lingelingPair rfl) splitAndClose).get (by decide)

theorem closed_reach : (machine lingelingPair).Reach (Splits lingelingPair) closed := by
  have hinit := launched_init lingelingPair rfl
  exact (Machine.Reach.init hinit).run splitAndClose (by decide) rfl

theorem solvers_owned_closed : Owned lingelingPair closed :=
  (solvers_owned_iff lingelingPair closed _ (.proceed 0) closed_reach trivial rfl).1 (by decide)

def minisatPair : CloneConfig (Fin 2) := twoSlaves .minisat 0

/-- After the split of a MiniSat solver slave 1 is a worker without a solver. -/
theorem minisat_worker_without_solver : ∃ s, (machine minisatPair).Reach Reports s ∧
    0 < s.nWorkers ∧ 1 ∈ s.workers ∧ s.solver 1 = none := by
  have hinit := launched_init minisatPair rfl
  refine ⟨((machine minisatPair).run (launched minisatPair rfl)
    [.locked .handOver, .locked (.joinUnknown 0 5)]).get (by decide), ?_, by decide, by decide,
    by decide⟩
  exact (Machine.Reach.init hinit).run [.locked .handOver, .locked (.joinUnknown 0 5)]
    (by decide) rfl

end Painless.DivisionSolvers
