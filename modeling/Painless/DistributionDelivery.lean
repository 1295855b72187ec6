import Painless.SharingSystem

/-!
What DistributionSharing hands to each solver. Everything that passes from or to
the solver at a place of the vector goes through the filter of that place, except
what is not handed to it because of the id in the clause; so a literal sequence
that has passed either way is never handed to that solver again.
-/
namespace Painless.DistributionDelivery

open SharedClauses SharedDatabase DuplicateFilter ClauseCommunicator SharingStrategies
open DistributionRounds SharingSystem Transitions

variable {S I P : Type*}

/-- A literal sequence passes from a solver or to it. -/
inductive Passage
  | exported (lits : List ℤ)
  | handed (lits : List ℤ)
  deriving DecidableEq

def Passage.lits : Passage → List ℤ
  | .exported lits => lits
  | .handed lits => lits

/-- The clauses that pass from or to the solver at place `k`. -/
def passagesOf (k : ℕ) : Event P → List Passage
  | .collected i clauses => if i = k then clauses.map fun c => .exported c.lits else []
  | .selected _ _ => []
  | .handed j clauses => if j = k then clauses.map fun c => .handed c.lits else []

def passages (k : ℕ) (log : List (Event P)) : List Passage := log.flatMap (passagesOf k)

/-- The second passage may come after the first. -/
def MayFollow : Passage → Passage → Prop
  | first, .handed lits => first.lits ≠ lits
  | _, .exported _ => True

instance : DecidableRel MayFollow
  | first, .handed lits => inferInstanceAs (Decidable (first.lits ≠ lits))
  | _, .exported _ => inferInstanceAs (Decidable True)

/-- Each filter knows what has passed at its place, and nothing was handed over
there that had passed before. -/
structure Fed (filters : ℕ → ClauseFilter) (log : List (Event P)) : Prop where
  known : ∀ k, ∀ p ∈ passages k log, (filters k).Registered p.lits
  once : ∀ k, (passages k log).Pairwise MayFollow

theorem passages_append (k : ℕ) (log batch : List (Event P)) :
    passages k (log ++ batch) = passages k log ++ passages k batch :=
  List.flatMap_append

theorem passages_singleton (k : ℕ) (e : Event P) : passages k [e] = passagesOf k e := by
  simp [passages]

section Filters

theorem collectClauses_filters (i : ℕ) (d : DistributionSharing P)
    (clauses : List (LearnedClause P)) :
    (collectClauses i d clauses).1.solverFilters = Function.update d.solverFilters i
      (sift (fun c : LearnedClause P => c.lits) (d.solverFilters i) clauses).2 := by
  induction clauses generalizing d with
  | nil => exact (Function.update_eq_self i d.solverFilters).symm
  | cons cls rest ih =>
    unfold collectClauses
    dsimp only
    split_ifs <;> simp only [ih, Function.update_self, Function.update_idem, sift]

theorem clausesToAdd_eq (i : ℕ) (f : ClauseFilter) (tmp : List (ClauseExchange P)) :
    clausesToAdd i f tmp = sift ClauseExchange.lits f (tmp.filter fun c => c.fromId ≠ i) := by
  induction tmp generalizing f with
  | nil => rfl
  | cons cls rest ih =>
    unfold clausesToAdd
    by_cases hfrom : cls.fromId = i
    · simp [hfrom, ih]
    · simp [hfrom, ih, sift]

variable {filters : ℕ → ClauseFilter} {log : List (Event P)} (h : Fed filters log)

include h

/-- One more event at place `i`, whose filter is kept up with it. -/
theorem Fed.event {i : ℕ} {f : ClauseFilter} {e : Event P}
    (hother : ∀ k, k ≠ i → passagesOf k e = [])
    (hkept : ∀ l, (filters i).Registered l → f.Registered l)
    (hknown : ∀ p ∈ passagesOf i e, f.Registered p.lits)
    (honce : (passagesOf i e).Pairwise MayFollow)
    (hnew : ∀ l, Passage.handed l ∈ passagesOf i e → ¬ (filters i).Registered l) :
    Fed (Function.update filters i f) (log ++ [e]) := by
  constructor <;> intro k <;> rw [passages_append, passages_singleton]
  · rcases eq_or_ne k i with rfl | hk
    · rw [Function.update_self]
      intro p hp
      rcases List.mem_append.mp hp with hp | hp
      · exact hkept _ (h.known k p hp)
      · exact hknown p hp
    · rw [hother k hk, List.append_nil, Function.update_of_ne hk]
      exact h.known k
  · rcases eq_or_ne k i with rfl | hk
    · refine List.pairwise_append.mpr ⟨h.once k, honce, fun p hp p' hp' => ?_⟩
      cases p' with
      | exported l => trivial
      | handed l =>
        intro heq
        exact hnew l hp' (heq ▸ h.known k p hp)
    · rw [hother k hk, List.append_nil]
      exact h.once k

theorem Fed.collected (i : ℕ) (clauses : List (LearnedClause P)) :
    Fed (Function.update filters i
      (sift (fun c : LearnedClause P => c.lits) (filters i) clauses).2)
      (log ++ [.collected i clauses]) := by
  have hpassages : passagesOf i (.collected i clauses : Event P) =
      clauses.map fun c => .exported c.lits := if_pos rfl
  refine h.event (fun k hk => if_neg hk.symm) (fun l hl => hl.sift clauses) ?_ ?_ ?_
  · rw [hpassages]
    intro p hp
    obtain ⟨c, hc, rfl⟩ := List.mem_map.mp hp
    exact @registered_sift _ (fun c : LearnedClause P => c.lits) _ _ c hc
  · rw [hpassages]
    exact List.pairwise_map.mpr (List.pairwise_of_forall fun _ _ => trivial)
  · simp [hpassages]

theorem Fed.handed (i : ℕ) (clauses : List (ClauseExchange P)) :
    Fed (Function.update filters i (sift ClauseExchange.lits (filters i) clauses).2)
      (log ++ [.handed i (sift ClauseExchange.lits (filters i) clauses).1]) := by
  have hpassages : passagesOf i
      (.handed i (sift ClauseExchange.lits (filters i) clauses).1 : Event P) =
        (sift ClauseExchange.lits (filters i) clauses).1.map fun c => .handed c.lits :=
    if_pos rfl
  refine h.event (fun k hk => if_neg hk.symm) (fun l hl => hl.sift clauses) ?_ ?_ ?_
  · rw [hpassages]
    intro p hp
    obtain ⟨c, hc, rfl⟩ := List.mem_map.mp hp
    exact registered_sift _ ((sift_sublist _ _).subset hc)
  · rw [hpassages]
    have hnodup := @sift_nodup _ ClauseExchange.lits (filters i) clauses
    have hne : (sift ClauseExchange.lits (filters i) clauses).1.Pairwise
        fun c c' => c.lits ≠ c'.lits := List.pairwise_map.mp hnodup
    exact List.pairwise_map.mpr hne
  · intro l hl
    rw [hpassages] at hl
    obtain ⟨c, hc, heq⟩ := List.mem_map.mp hl
    rw [← Passage.handed.inj heq]
    exact not_registered_of_sift hc

theorem Fed.selected (i : ℕ) (clauses : List (LearnedClause P)) :
    Fed filters (log ++ [.selected i clauses]) := by
  constructor <;> intro k <;> rw [passages_append, passages_singleton, passagesOf,
    List.append_nil]
  · exact h.known k
  · exact h.once k

end Filters

section Loops

variable [DecidableEq S]

theorem collectLoop_fed (i : ℕ) (producers : List S) (d : DistributionSharing P)
    (queues : S → SolverQueues P) {log : List (Event P)} (h : Fed d.solverFilters log) :
    Fed (collectLoop i producers d queues).1.solverFilters
      (log ++ (collectLoop i producers d queues).2.log) := by
  induction producers generalizing i d queues log with
  | nil =>
    rw [show (collectLoop i [] d queues).2.log = [] from rfl, List.append_nil]
    exact h
  | cons producer rest ih =>
    unfold collectLoop
    dsimp only
    rw [List.append_cons]
    refine ih _ _ _ ?_
    rw [collectClauses_filters]
    exact h.collected i _

theorem deliverLoop_fed (tmp : List (ClauseExchange P)) (i : ℕ) (consumers : List S)
    (d : DistributionSharing P) (queues : S → SolverQueues P) {log : List (Event P)}
    (h : Fed d.solverFilters log) :
    Fed (deliverLoop tmp i consumers d queues).1.solverFilters
      (log ++ (deliverLoop tmp i consumers d queues).2.log) := by
  induction consumers generalizing i d queues log with
  | nil =>
    rw [show (deliverLoop tmp i [] d queues).2.log = [] from rfl, List.append_nil]
    exact h
  | cons consumer rest ih =>
    unfold deliverLoop
    dsimp only
    rw [List.append_cons]
    refine ih _ _ _ ?_
    rw [clausesToAdd_eq]
    exact h.handed i _

/-- One round of the sharer. -/
theorem distributionSharing_fed {literalPerRound : ℤ} {filterFlag : Bool}
    {producers consumers : List S} {d : DistributionSharing P} {comm : MpiComm P}
    {queues : S → SolverQueues P} {r : DistributionOutcome S P} {log : List (Event P)}
    (hround : distributionSharing literalPerRound filterFlag producers consumers d comm queues =
      some r) (h : Fed d.solverFilters log) : Fed r.sharing.solverFilters (log ++ r.log) := by
  have hmade : Fed (makeFilters filterFlag consumers.length d).solverFilters log := by
    unfold makeFilters
    split_ifs <;> exact h
  have hcollected := collectLoop_fed 0 producers _ queues hmade
  unfold distributionSharing at hround
  dsimp only at hround
  split_ifs at hround
  obtain rfl := Option.some.inj hround
  dsimp only
  rw [← List.append_assoc, List.append_cons]
  exact deliverLoop_fed _ _ _ _ _ (hcollected.selected 0 _)

end Loops

section Runs

variable {setup : Setup S I}

/-- Sharer `i`, if it is a DistributionSharing, has kept its filters up. -/
def SharerFed (i : I) (store : Store S I P) : Prop :=
  ∀ d, store.strategy i = .distribution d → Fed d.solverFilters (store.log i)

theorem sharerFed_round [DecidableEq S] [DecidableEq I] {i : I} {store : Store S I P}
    {r : Store S I P × List (RefCount.Call P)}
    (h : SharerFed i store) (hr : doSharing setup i store = some r) : SharerFed i r.1 := by
  intro d hd
  cases hstrategy : store.strategy i with
  | simple =>
    rw [doSharing_simple hr hstrategy] at hd
    cases hd
  | hordeSat database =>
    obtain ⟨out, -, hnew, -⟩ := doSharing_hordeSat hr hstrategy
    rw [hnew] at hd
    cases hd
  | distribution sharing =>
    obtain ⟨out, hout, hnew, hlog⟩ := doSharing_distribution hr hstrategy
    rw [hnew] at hd
    rw [hlog, ← Strategy.distribution.inj hd]
    exact distributionSharing_fed hout (h sharing hstrategy)

theorem sharerFed_step [DecidableEq S] [DecidableEq I] [DecidableEq P] {i : I}
    {s t : State S I P} {a : Action S I P}
    (h : SharerFed i s.store) (ht : step setup s a = some t) : SharerFed i t.store := by
  obtain ⟨r, hr, hrest⟩ := Option.bind_eq_some_iff.mp ht
  obtain ⟨heap, -, rfl⟩ := Option.map_eq_some_iff.mp hrest
  rcases effect_sharer hr i with rfl | ⟨hsame, hlog⟩
  · exact sharerFed_round h hr
  · intro d hd
    rw [hlog]
    exact h d (hsame ▸ hd)

theorem sharerFed_start [DecidableEq P] {i : I} {s : State S I P} (h : Start s) :
    SharerFed i s.store := by
  intro d _
  rw [h.log i]
  exact ⟨fun k p hp => by simp [passages] at hp, fun k => List.Pairwise.nil⟩

/-- The passages of a solver, wherever it stands in the vectors of a sharer. -/
def solverPassages [DecidableEq S] (producers consumers : List S) (solver : S)
    (log : List (Event P)) : List Passage :=
  log.flatMap fun
    | .collected i clauses =>
      if producers[i]? = some solver then clauses.map fun c => .exported c.lits else []
    | .selected _ _ => []
    | .handed j clauses =>
      if consumers[j]? = some solver then clauses.map fun c => .handed c.lits else []

theorem solverPassages_eq [DecidableEq S] {solvers : List S} (hnodup : solvers.Nodup) {k : ℕ}
    {solver : S}
    (hk : solvers[k]? = some solver) (log : List (Event P)) :
    solverPassages solvers solvers solver log = passages k log := by
  have hplace (i : ℕ) : solvers[i]? = some solver ↔ i = k := by
    constructor
    · intro hi
      exact (List.getElem?_inj (List.getElem?_eq_some_iff.mp hi).1 hnodup).mp (hi.trans hk.symm)
    · rintro rfl
      exact hk
  unfold solverPassages passages
  congr 1
  funext e
  cases e <;> simp only [hplace, passagesOf]

theorem solverPassages_of_notMem [DecidableEq S] {solvers : List S} {solver : S}
    (h : solver ∉ solvers)
    (log : List (Event P)) : solverPassages solvers solvers solver log = [] := by
  have hplace (i : ℕ) : solvers[i]? ≠ some solver := fun hi => h (List.mem_of_getElem? hi)
  refine List.flatMap_eq_nil_iff.mpr fun e _ => ?_
  cases e <;> simp [hplace]

/-- No solver is handed a literal sequence that it has exported, in an earlier
round or in the same one, or that was handed to it before. -/
theorem delivered_at_most_once [DecidableEq S] [DecidableEq I] [DecidableEq P]
    (setup : Setup S I) (i : I)
    (hsame : setup.producers i = setup.consumers i) (hnodup : (setup.consumers i).Nodup)
    (s : State S I P) (hs : (machine setup).Reach (fun _ _ => True) s)
    (d : DistributionSharing P) (hd : s.store.strategy i = .distribution d) (solver : S) :
    (solverPassages (setup.producers i) (setup.consumers i) solver
      (s.store.log i)).Pairwise MayFollow := by
  have hfed : SharerFed i s.store :=
    hs.invariant (fun t => SharerFed i t.store) (fun _ => sharerFed_start)
      fun _ _ _ _ ht _ hstep => sharerFed_step ht hstep
  rw [hsame]
  by_cases hmem : solver ∈ setup.consumers i
  · obtain ⟨k, hk⟩ := List.mem_iff_getElem?.mp hmem
    rw [solverPassages_eq hnodup hk]
    exact (hfed d hd).once k
  · rw [solverPassages_of_notMem hmem]
    exact List.Pairwise.nil

end Runs

/-- Solver 0 learns the unit clause 5, and then solver 1 does. -/
def twiceLearned : List (Action (Fin 2) Unit ℕ) :=
  [.exportClause 0 (unitClause 7 5), .doSharing (), .exportClause 1 (unitClause 8 5),
    .doSharing ()]

theorem delivered_at_most_once_pair :
    ∃ t, (machine (pairSetup 10)).run (pairStart (.distribution DistributionSharing.fresh))
        twiceLearned = some t ∧
      (solverPassages [0, 1] [0, 1] (1 : Fin 2) (t.store.log ())).Pairwise MayFollow := by
  obtain ⟨t, ht, d, hd⟩ : ∃ t, (machine (pairSetup 10)).run
      (pairStart (.distribution DistributionSharing.fresh)) twiceLearned = some t ∧
        ∃ d, t.store.strategy () = .distribution d := ⟨_, rfl, _, rfl⟩
  have hfresh : (Strategy.distribution DistributionSharing.fresh : Strategy ℕ).Fresh := rfl
  exact ⟨t, ht, delivered_at_most_once (pairSetup 10) () rfl (by decide) t
    (pair_reach hfresh ht) d hd 1⟩

end Painless.DistributionDelivery
