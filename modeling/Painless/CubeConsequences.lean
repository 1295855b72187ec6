import Painless.ClauseMessages
import Painless.CubeSharing

/-!
Sound learning under CubeAndConquer. A solver works on the input, the split
literals added to it, and what it has imported. Only solvers without a split
literal are producers; so every clause in a container, in a message or in the
hands of a consumer is a consequence of the input alone.
-/
namespace Painless.CubeConsequences

open ClauseCommunicator ClauseMessages ClauseOrigins Cnf CubeSharing SharedClauses
open SharedDatabase SharingStrategies Transitions
open DivideAndConquer (SolverId)
open SharerRounds (Roster)
open SharingSystem (unitClause)

variable {P : Type}

/-- The clause is true wherever the formula is. -/
def Consequence (F : Formula ℕ) (lits : List ℤ) : Prop :=
  ∀ σ, FormulaHolds σ F → ClauseHolds σ (ofInts lits)

/-- What a solver has been given: the input, the unit clauses of the splits, and
the clauses of other solvers. -/
def formula (cfg : Config) (F : Formula ℕ) (s : State P) (x : SolverId) : Formula ℕ :=
  F ++ (s.units cfg x).map (fun l => [ofInt l]) ++ (s.imported x).map ofInts

section Conditions

variable {R : Type} (cfg : R → Config) (F : Formula ℕ)

/-- Each solver exports clauses that follow from what it has been given. -/
def SoundLearning (w : World R P) : R × Action P → Prop
  | (r, .pipeline (.exportClause x clause)) =>
    (∀ l ∈ clause.lits, l ≠ 0) ∧ Consequence (formula (cfg r) F (w.ranks r) x) clause.lits
  | _ => True

/-- MPI delivers what has been sent. -/
def Delivered (w : World R P) : R × Action P → Prop
  | (_, .pipeline (.receiveClauses _ payload)) => payload ∈ w.network
  | _ => True

end Conditions

/-! ### Clauses of the input -/

section Consequences

variable (F : Formula ℕ)

def Good (c : ClauseExchange P) : Prop := (∀ l ∈ c.lits, l ≠ 0) ∧ Consequence F c.lits

/-- The solvers of main are the producers, and good clauses go round. -/
def origin (cfg : Config) : Origin SolverId P := ⟨Good F, fun x => x < cfg.cc.currentIdSolver⟩

variable {F}

/-- A solver without a split literal works on consequences of the input. -/
theorem consequence_of_formula {cfg : Config} {s : State P} {x : SolverId} {lits : List ℤ}
    (hunits : s.units cfg x = []) (himported : ∀ d ∈ s.imported x, Consequence F d)
    (h : Consequence (formula cfg F s x) lits) : Consequence F lits := by
  intro σ hσ
  refine h σ ?_
  rw [formula, hunits, List.map_nil, List.append_nil, formulaHolds_append]
  refine ⟨hσ, fun c hc => ?_⟩
  obtain ⟨d, hd, rfl⟩ := List.mem_map.mp hc
  exact himported d hd σ hσ

/-- Every receiver gets good clauses out of the buffer. -/
def Sendable (F : Formula ℕ) (shrLit : ℤ) (P : Type) (payload : ℕ → ℤ) : Prop :=
  ∀ (malloc : ℕ → P) comm d, receiveClauses shrLit malloc payload comm = some d →
    ∀ c ∈ d.queued, Good F c

theorem sendable_exported {cfg : Config} {shrLit : ℤ} {comm : MpiComm P} {e : Export P}
    (hcomm : Holds (origin F cfg) comm.clausesToExport)
    (he : exportLearnedClauses shrLit comm = some e) :
    ∀ message ∈ e.sent, Sendable F shrLit P message.payload := by
  intro message hmessage malloc receiver d hd c hc
  have hselected := hcomm.selected (toUnsigned shrLit)
  unfold exportLearnedClauses exportSelected at he
  dsimp only at he
  split_ifs at he with hnil hidx
  · obtain rfl := Option.some.inj he
    simp at hmessage
  · obtain rfl := Option.some.inj he
    obtain ⟨target, -, rfl⟩ := List.mem_map.mp hmessage
    rw [fill_idx] at hidx
    have hpresented := received_presented (fun c hc => (hselected c hc).1) hidx hd
    -- what is queued is among what was presented to the filter
    have hqueued : c.lits ∈ d.queued.map ClauseExchange.lits := List.mem_map_of_mem hc
    rw [(receiveClauses_decoded hd).queued_lits, hpresented] at hqueued
    obtain ⟨l, hl, heq⟩ := List.mem_map.mp ((DuplicateFilter.sift_sublist _ _).subset hqueued)
    obtain ⟨hlits, hconsequence⟩ := hselected l hl
    unfold Good
    rw [← heq]
    exact ⟨hlits, hconsequence⟩

end Consequences

/-! ### One rank -/

/-- Only consequences of the input go round on a rank. -/
structure RankSound (F : Formula ℕ) (cfg : Config) (s : State P) : Prop where
  origins : Origins (origin F cfg) s.sharing.store
  imported : ∀ x, ∀ lits ∈ s.imported x, Consequence F lits

section Rank

variable {F : Formula ℕ} {cfg : Config} {s t : State P}

/-- The pipeline does not move, and a solver has imported what it had, or what
the solver has that it was cloned from. -/
theorem RankSound.frame (hs : RankSound F cfg s) (hsharing : t.sharing = s.sharing)
    (himported : ∀ x, ∃ y, t.imported x = s.imported y) : RankSound F cfg t := by
  constructor
  · rw [hsharing]
    exact hs.origins
  · intro x
    obtain ⟨y, hy⟩ := himported x
    rw [hy]
    exact hs.imported y

theorem update_imported (imported : SolverId → List (List ℤ)) (x y z : SolverId) :
    ∃ y', Function.update imported x (imported y) z = imported y' := by
  rw [Function.update_apply]
  by_cases hz : z = x
  · exact ⟨y, if_pos hz⟩
  · exact ⟨z, if_neg hz⟩

theorem inherited_from (cfg : Config) (s : State P) (rounds : CubeAndConquer.State)
    (a : CubeAndConquer.Action) (x : SolverId) :
    ∃ y, s.inherited cfg rounds a x = s.imported y := by
  generalize hafter : s.inherited cfg rounds a = after
  unfold State.inherited at hafter
  split at hafter
  · split at hafter
    · rw [← hafter]
      exact update_imported s.imported _ _ x
    · exact ⟨x, congrFun hafter.symm x⟩
  · exact ⟨x, congrFun hafter.symm x⟩

theorem deliver_sharing (s : State P) (call : DivideAndConquer.SharingCall) :
    (s.deliver call).sharing = s.sharing ∧ (s.deliver call).imported = s.imported := by
  cases call <;> exact ⟨rfl, rfl⟩

/-- A solver takes its clauses out of its own buffers. -/
theorem taken_mem {queues : SolverId → SolverQueues P}
    {a : SharingSystem.Action SolverId ℕ P} {x : SolverId} {c : ClauseExchange P}
    (hc : c ∈ taken queues a x) :
    c ∈ (queues x).unitsToImport ∨ c ∈ (queues x).clausesToImport := by
  unfold taken at hc
  split at hc
  · split_ifs at hc with hx
    · exact Or.inl (hx ▸ List.mem_of_mem_take hc)
    · simp at hc
  · split_ifs at hc with hx
    · exact Or.inl (hx ▸ hc)
    · simp at hc
  · split_ifs at hc with hx
    · exact Or.inr (hx ▸ List.mem_of_mem_take hc)
    · simp at hc
  · simp at hc

variable [DecidableEq P] {shrLit : ℤ}

theorem rankSound_start (h : s.Start cfg) : RankSound F cfg s := by
  refine ⟨origins_start h.sharing, fun x lits hlits => ?_⟩
  rw [h.imported x] at hlits
  simp at hlits

theorem rankSound_pipeline {a : SharingSystem.Action SolverId ℕ P}
    (hmain : MainProduces cfg s) (hs : RankSound F cfg s)
    (hlearned : ∀ x clause, a = .exportClause x clause →
      (∀ l ∈ clause.lits, l ≠ 0) ∧ Consequence (formula cfg F s x) clause.lits)
    (hreceived : ∀ malloc payload, a = .receiveClauses malloc payload →
      Sendable F shrLit P payload)
    (h : s.step cfg shrLit (.pipeline a) = some t) : RankSound F cfg t := by
  simp only [State.step] at h
  split_ifs at h
  obtain ⟨sharing, hsharing, rfl⟩ := Option.map_eq_some_iff.mp h
  obtain ⟨r, hr, hheap⟩ := Option.bind_eq_some_iff.mp hsharing
  obtain ⟨heap, -, rfl⟩ := Option.map_eq_some_iff.mp hheap
  have hfeeds : Feeds (origin F cfg) (s.setup shrLit) s.sharing.store a := by
    constructor
    · intro x clause ha hx
      obtain ⟨hlits, hconsequence⟩ := hlearned x clause ha
      exact ⟨hlits, consequence_of_formula (hmain.units hx) (hs.imported x) hconsequence⟩
    · intro malloc payload d ha hd
      exact hreceived malloc payload ha malloc s.sharing.store.comm d hd
  refine ⟨hs.origins.effect hmain.members hfeeds hr, fun x lits hlits => ?_⟩
  rcases List.mem_append.mp hlits with hold | hnew
  · exact hs.imported x lits hold
  · obtain ⟨c, hc, rfl⟩ := List.mem_map.mp hnew
    rcases taken_mem hc with hunit | hclause
    · exact (hs.origins.queues.units x c hunit).2
    · exact (hs.origins.queues.clauses x c hclause).2

/-- The steps of CubeAndConquer and of the sharers' rosters put no clause
anywhere. -/
theorem rankSound_step {a : Action P} (hmain : MainProduces cfg s) (hs : RankSound F cfg s)
    (hlearned : ∀ x clause, a = .pipeline (.exportClause x clause) →
      (∀ l ∈ clause.lits, l ≠ 0) ∧ Consequence (formula cfg F s x) clause.lits)
    (hreceived : ∀ malloc payload, a = .pipeline (.receiveClauses malloc payload) →
      Sendable F shrLit P payload)
    (h : s.step cfg shrLit a = some t) : RankSound F cfg t := by
  cases a with
  | pipeline a =>
    refine rankSound_pipeline hmain hs (fun x clause ha => ?_) (fun malloc payload ha => ?_) h
    · exact hlearned x clause (congrArg _ ha)
    · exact hreceived malloc payload (congrArg _ ha)
  | solve cube | setInterrupt | globalEnding =>
    obtain rfl := Option.some.inj h
    exact hs.frame rfl fun x => ⟨x, rfl⟩
  | startUp =>
    simp only [State.step] at h
    split_ifs at h
    obtain ⟨out, -, rfl⟩ := Option.map_eq_some_iff.mp h
    exact hs.frame rfl fun x => update_imported s.imported _ _ x
  | cube a =>
    obtain ⟨rounds, -, h⟩ := Option.bind_eq_some_iff.mp h
    obtain ⟨out, -, rfl⟩ := Option.map_eq_some_iff.mp h
    exact hs.frame rfl fun x => inherited_from cfg s rounds a x
  | deliver =>
    simp only [State.step] at h
    split at h
    · exact absurd h (by simp)
    case h_2 call rest hpending =>
      obtain rfl := Option.some.inj h
      obtain ⟨hsharing, himported⟩ := deliver_sharing s call
      exact hs.frame hsharing fun x => ⟨x, congrFun himported x⟩
  | wakeUp i | addPhase i | removePhase i =>
    simp only [State.step] at h
    split_ifs at h
    all_goals
      obtain rfl := Option.some.inj h
      exact hs.frame rfl fun x => ⟨x, rfl⟩

omit [DecidableEq P] in
theorem sent_sendable (hs : RankSound F cfg s) (a : Action P) :
    ∀ payload ∈ s.sent shrLit a, Sendable F shrLit P payload := by
  intro payload hpayload
  unfold State.sent at hpayload
  split at hpayload
  · split at hpayload
    · case _ e he =>
      obtain ⟨message, hmessage, rfl⟩ := List.mem_map.mp hpayload
      exact sendable_exported hs.origins.toExport he message hmessage
    · simp at hpayload
  · simp at hpayload

end Rank

/-! ### All ranks -/

section Ranks

variable {R : Type} [DecidableEq R] [DecidableEq P] {cfg : R → Config} {shrLit : ℤ}
  {F : Formula ℕ}

structure WorldSound (F : Formula ℕ) (cfg : R → Config) (shrLit : ℤ) (w : World R P) :
    Prop where
  ranks : ∀ r, RankSound F (cfg r) (w.ranks r)
  network : ∀ payload ∈ w.network, Sendable F shrLit P payload

theorem worldSound_step {w v : World R P} {a : R × Action P}
    (hmain : ∀ r, MainProduces (cfg r) (w.ranks r)) (hw : WorldSound F cfg shrLit w)
    (hlearning : SoundLearning cfg F w a) (hdelivered : Delivered w a)
    (h : CubeSharing.step cfg shrLit w a = some v) : WorldSound F cfg shrLit v := by
  obtain ⟨r, a⟩ := a
  obtain ⟨t, ht, hranks, hnetwork⟩ := step_rank h
  constructor
  · rw [hranks]
    refine forall_goto (P := fun r s => RankSound F (cfg r) s) hw.ranks ?_
    refine rankSound_step (hmain r) (hw.ranks r) (fun x clause ha => ?_)
      (fun malloc payload ha => ?_) ht
    · subst ha
      exact hlearning
    · subst ha
      exact hw.network payload hdelivered
  · rw [hnetwork]
    intro payload hpayload
    rcases List.mem_append.mp hpayload with hold | hnew
    · exact hw.network payload hold
    · exact sent_sendable (hw.ranks r) a payload hnew

theorem worldSound_reach {w : World R P}
    (hw : (machine cfg shrLit).Reach
      (fun w a => SoundLearning cfg F w a ∧ Delivered w a) w) : WorldSound F cfg shrLit w := by
  refine hw.invariant (WorldSound F cfg shrLit) ?_ ?_
  · intro w hinit
    refine ⟨fun r => rankSound_start (hinit.1 r), ?_⟩
    rw [hinit.2]
    simp
  · intro w a v hreach hw hok h
    exact worldSound_step (mainProduces_reach hreach) hw hok.1 hok.2 h

/-- Whatever CubeAndConquer does and whichever sharers main has built, a solver
with a split literal is no producer and waits to be none; and where the solvers
learn soundly, a consumer is handed consequences of the input only. -/
theorem cube_exports_consequences (cfg : R → Config) (shrLit : ℤ) (F : Formula ℕ) :
    (∀ w : World R P, (machine cfg shrLit).Reach (fun _ _ => True) w →
      ∀ r i x, Extended (cfg r) (w.ranks r) x →
        x ∉ ((w.ranks r).producers i).members ∧ x ∉ ((w.ranks r).producers i).toAdd) ∧
    ∀ w : World R P, (machine cfg shrLit).Reach
        (fun w a => SoundLearning cfg F w a ∧ Delivered w a) w →
      ∀ r i j cs, Event.handed j cs ∈ (w.ranks r).sharing.store.log i →
        ∀ c ∈ cs, Consequence F c.lits := by
  constructor
  · intro w hw r i x hx
    exact (mainProduces_reach hw r).not_producer hx i
  · intro w hw r i j cs hcs c hc
    exact (((worldSound_reach hw).ranks r).origins.handed i j cs hcs c hc).2

end Ranks

/-! ### One split -/

/-- CubeAndConquer on one Lingeling solver, with a SimpleSharing. -/
def loneSharing : Config where
  nested := false
  cc := RosterSizes.loneCube
  shrStrat := 1
  cpus := 2
  nSolvers := 1
  solvers := [0]
  first := 0
  first_eq := rfl
  numbered := by decide

def loneStart : World Unit ℕ where
  ranks _ :=
    { node := ⟨loneSharing.cc.cfg, 0, true, none⟩
      globalEnding := false
      pending := []
      producers := fun i => Roster.ofList (if i = 0 then [0] else [])
      consumers := fun i => Roster.ofList (if i = 0 then [0] else [])
      phase := fun _ => .asleep
      sharing :=
        { store :=
            { queues := fun _ => SolverQueues.empty
              strategy := fun _ => .simple
              filterFlag := false
              comm := (MpiComm.fresh (fun _ => 0) fun _ => 0).init 0 1 0
              log := fun _ => [] }
          heap := RefCount.counting 0 }
      imported := fun _ => [] }
  network := []

/-- The master starts the portfolio and the root, splits the root on 5, and both
halves become consumers; then slaves[0] learns a unit clause, which is shared. -/
def splitActions : List (Action ℕ) :=
  [.solve [], .startUp] ++ List.replicate 10 (.cube .master) ++
    [.cube (.divide 5), .deliver, .deliver, .wakeUp 0, .addPhase 0,
      .pipeline (.exportClause 0 (unitClause 0 1)), .pipeline (.doSharing 0)]

def splitRun : List (Unit × Action ℕ) := splitActions.map fun a => ((), a)

/-- The input is the unit clause that slaves[0] learns. -/
def unitInput : Formula ℕ := [[ofInt 1]]

theorem loneStart_init : (machine (fun _ : Unit => loneSharing) 1500).Init loneStart := by
  refine ⟨fun _ => ⟨⟨0, rfl⟩, rfl, rfl, ?_, fun _ => rfl, ?_, fun _ => rfl⟩, rfl⟩
  · refine ⟨_, rfl, fun i => ?_, fun i => ?_, fun i => ?_⟩
    · cases i <;> rfl
    · cases i <;> rfl
    · cases i <;> rfl
  · exact ⟨fun _ => rfl, fun _ => trivial, rfl, ⟨_, _, 0, 1, 0, rfl⟩, fun _ => rfl, rfl⟩

theorem splitRun_sound (w : World Unit ℕ) :
    (machine (fun _ : Unit => loneSharing) 1500).Meets
      (fun w a => SoundLearning (fun _ => loneSharing) unitInput w a ∧ Delivered w a)
      w splitRun := by
  have hlearned (s : State ℕ) : Consequence (formula loneSharing unitInput s 0) [1] := by
    intro σ hσ
    refine hσ [ofInt 1] ?_
    simp [formula, unitInput]
  refine Machine.Meets.of_forall (fun a ha v => ?_) w
  obtain ⟨b, hb, rfl⟩ := List.mem_map.mp ha
  revert b
  simp [splitActions, SoundLearning, Delivered, unitClause, hlearned]

theorem cube_exports_consequences_split : ∃ w : World Unit ℕ,
    (machine (fun _ => loneSharing) 1500).run loneStart splitRun = some w ∧
      (w.ranks ()).units loneSharing 1 = [5] ∧ (w.ranks ()).units loneSharing 2 = [-5] ∧
      1 ∉ ((w.ranks ()).producers 0).members ∧ 2 ∉ ((w.ranks ()).producers 0).members ∧
      Consequence unitInput [1] := by
  obtain ⟨hproducers, hhanded⟩ :=
    cube_exports_consequences (P := ℕ) (fun _ : Unit => loneSharing) 1500 unitInput
  obtain ⟨w, hrun, hone, htwo, hlog⟩ : ∃ w : World Unit ℕ,
      (machine (fun _ => loneSharing) 1500).run loneStart splitRun = some w ∧
        (w.ranks ()).units loneSharing 1 = [5] ∧ (w.ranks ()).units loneSharing 2 = [-5] ∧
        ((w.ranks ()).sharing.store.log 0)[1]? =
          some (.handed 1 [(unitClause 0 1).toClauseExchange]) :=
    ⟨_, rfl, rfl, rfl, rfl⟩
  have hreach := Machine.Reach.of_run loneStart_init hrun
  have hsound := (Machine.Reach.init loneStart_init).run splitRun (splitRun_sound _) hrun
  refine ⟨w, hrun, hone, htwo, ?_, ?_, ?_⟩
  · exact (hproducers w hreach () 0 1 (by simp [Extended, hone])).1
  · exact (hproducers w hreach () 0 2 (by simp [Extended, htwo])).1
  · exact hhanded w hsound () 0 1 _ (List.mem_of_getElem? hlog) _ List.mem_cons_self

end Painless.CubeConsequences
