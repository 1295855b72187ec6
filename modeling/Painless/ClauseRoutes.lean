import Painless.ClauseMessages
import Painless.ClauseOrigins

/-!
What the sharing of clauses does for its users. A property of the literals of
clauses that all exported clauses have, and that is sent along in messages, is one of
all clauses that a solver imports, on any rank; unit clauses come through one of the
callbacks and longer clauses through the other.
-/
namespace Painless.ClauseRoutes

open RefCount SharedClauses SharedDatabase ClauseCommunicator ClauseMessages
open SharingStrategies DistributionRounds SharingSystem ClauseOrigins

variable {S I P : Type*}

/-! ### Rounds as moves -/

/-- Clauses are taken from solvers and given to solvers, and nothing else. -/
inductive Moved [DecidableEq S] (queues : S → SolverQueues P) : (S → SolverQueues P) → Prop
  | refl : Moved queues queues
  | take {r : S → SolverQueues P} (s : S) : Moved queues r →
      Moved queues (Function.update r s (r s).getLearnedClauses.2)
  | give {r : S → SolverQueues P} (s : S) (clauses : List (ClauseExchange P)) :
      Moved queues r → Moved queues (Function.update r s ((r s).addLearnedClauses clauses))

section Rounds

variable [DecidableEq S] {start queues : S → SolverQueues P}

theorem handOver_moved (id : S → ℤ) (h : Moved start queues) (producer : S)
    (tmp : List (ClauseExchange P)) (j : ℕ) (consumers : List S) :
    Moved start (handOver id producer tmp j consumers queues).queues := by
  induction consumers generalizing j queues with
  | nil => exact h
  | cons consumer rest ih =>
    unfold handOver
    dsimp only
    split_ifs
    · exact ih (h.give consumer tmp) (j + 1)
    · exact ih h (j + 1)

theorem simpleSharing_moved (id : S → ℤ) (h : Moved start queues) (consumers : List S) (i : ℕ)
    (producers : List S) :
    Moved start (simpleSharing id consumers i producers queues).queues := by
  induction producers generalizing i queues with
  | nil => exact h
  | cons producer rest ih => exact ih (handOver_moved id (h.take producer) producer _ 0 consumers) _

theorem hordeSatLoop_moved (id : S → ℤ) (h : Moved start queues) (literalPerRound : ℤ)
    (consumers : List S) (i : ℕ) (producers : List S) (database : ClauseDatabase P) :
    Moved start
      (hordeSatLoop id literalPerRound consumers i producers database queues).2.queues := by
  induction producers generalizing i queues database with
  | nil => exact h
  | cons producer rest ih =>
    exact ih (handOver_moved id (h.take producer) producer _ 0 consumers) _ _

theorem collectLoop_moved (h : Moved start queues) (i : ℕ) (producers : List S)
    (d : DistributionSharing P) : Moved start (collectLoop i producers d queues).2.queues := by
  induction producers generalizing i queues d with
  | nil => exact h
  | cons producer rest ih => exact ih (h.take producer) _ _

theorem deliverLoop_moved (h : Moved start queues) (tmp : List (ClauseExchange P)) (i : ℕ)
    (consumers : List S) (d : DistributionSharing P) :
    Moved start (deliverLoop tmp i consumers d queues).2.queues := by
  induction consumers generalizing i queues d with
  | nil => exact h
  | cons consumer rest ih => exact ih (h.give consumer _) _ _

theorem distributionSharing_moved {literalPerRound : ℤ} {filterFlag : Bool}
    {producers consumers : List S} {d : DistributionSharing P} {comm : MpiComm P}
    {r : DistributionOutcome S P}
    (hr : distributionSharing literalPerRound filterFlag producers consumers d comm queues =
      some r) : Moved queues r.queues := by
  unfold distributionSharing at hr
  dsimp only at hr
  split_ifs at hr
  obtain rfl := Option.some.inj hr
  exact deliverLoop_moved (collectLoop_moved Moved.refl 0 producers _) _ 0 consumers _

theorem doSharing_moved [DecidableEq I] {setup : Setup S I} {i : I} {store : Store S I P}
    {r : Store S I P × List (Call P)} (h : doSharing setup i store = some r) :
    Moved store.queues r.1.queues := by
  unfold doSharing at h
  split at h
  · obtain rfl := Option.some.inj h
    exact simpleSharing_moved setup.id Moved.refl (setup.consumers i) 0 (setup.producers i)
  · obtain ⟨out, hout, rfl⟩ := Option.map_eq_some_iff.mp h
    unfold hordeSatSharing at hout
    split_ifs at hout
    obtain rfl := Option.some.inj hout
    exact hordeSatLoop_moved setup.id Moved.refl _ (setup.consumers i) 0 (setup.producers i) _
  · obtain ⟨out, hout, rfl⟩ := Option.map_eq_some_iff.mp h
    exact distributionSharing_moved hout

end Rounds

/-! ### Unit clauses -/

/-- The unit clauses wait apart from the longer ones. -/
def Routed (queues : S → SolverQueues P) : Prop :=
  ∀ s, (∀ c ∈ (queues s).unitsToImport, c.size = 1) ∧ ∀ c ∈ (queues s).clausesToImport, c.size ≠ 1

section Routed

variable [DecidableEq S] {queues r : S → SolverQueues P}

theorem Routed.update (h : Routed queues) (s : S) {q : SolverQueues P}
    (hunits : ∀ c ∈ q.unitsToImport, c.size = 1) (hclauses : ∀ c ∈ q.clausesToImport, c.size ≠ 1) :
    Routed (Function.update queues s q) := by
  intro t
  rw [Function.update_apply]
  split_ifs
  · exact ⟨hunits, hclauses⟩
  · exact h t

omit [DecidableEq S] in
theorem routed_addLearnedClauses {q : SolverQueues P} (hunits : ∀ c ∈ q.unitsToImport, c.size = 1)
    (hclauses : ∀ c ∈ q.clausesToImport, c.size ≠ 1) (clauses : List (ClauseExchange P)) :
    (∀ c ∈ (q.addLearnedClauses clauses).unitsToImport, c.size = 1) ∧
      ∀ c ∈ (q.addLearnedClauses clauses).clausesToImport, c.size ≠ 1 := by
  induction clauses generalizing q with
  | nil => exact ⟨hunits, hclauses⟩
  | cons clause rest ih =>
    have hstep := @ih (q.addLearnedClause clause)
    unfold SolverQueues.addLearnedClause at hstep
    show (∀ c ∈ ((q.addLearnedClause clause).addLearnedClauses rest).unitsToImport, _) ∧
      ∀ c ∈ ((q.addLearnedClause clause).addLearnedClauses rest).clausesToImport, _
    unfold SolverQueues.addLearnedClause
    split_ifs at hstep ⊢ with hsize
    · refine hstep (fun c hc => ?_) hclauses
      rcases List.mem_append.mp hc with hc | hc
      · exact hunits c hc
      · rwa [List.mem_singleton.mp hc]
    · refine hstep hunits fun c hc => ?_
      rcases List.mem_append.mp hc with hc | hc
      · exact hclauses c hc
      · rwa [List.mem_singleton.mp hc]

theorem Routed.moved (h : Routed queues) (hmoved : Moved queues r) : Routed r := by
  induction hmoved with
  | refl => exact h
  | take s _ ih =>
    rw [SolverQueues.getLearnedClauses_eq]
    exact ih.update s (ih s).1 (ih s).2
  | give s clauses _ ih =>
    obtain ⟨hunits, hclauses⟩ := routed_addLearnedClauses (ih s).1 (ih s).2 clauses
    exact ih.update s hunits hclauses

theorem Routed.effect [DecidableEq I] {setup : Setup S I} {store : Store S I P}
    (h : Routed store.queues) {a : Action S I P} {r : Store S I P × List (Call P)}
    (hr : SharingSystem.effect setup store a = some r) : Routed r.1.queues := by
  cases a with
  | exportClause s clause =>
    obtain rfl := Option.some.inj hr
    exact h.update s (h s).1 (h s).2
  | doSharing i => exact h.moved (doSharing_moved hr)
  | exportLearnedClauses =>
    obtain ⟨e, -, rfl⟩ := Option.map_eq_some_iff.mp hr
    exact h
  | receiveClauses malloc payload =>
    obtain ⟨d, -, rfl⟩ := Option.map_eq_some_iff.mp hr
    exact h
  | importUnit s =>
    simp only [SharingSystem.effect, SharingSystem.importUnit] at hr
    split at hr
    · obtain rfl := Option.some.inj hr
      exact h
    case h_2 cls rest hqueue =>
      obtain rfl := Option.some.inj hr
      refine h.update s (fun c hc => (h s).1 c ?_) (h s).2
      rw [hqueue]
      exact List.mem_cons_of_mem cls hc
  | importUnits s =>
    obtain rfl := Option.some.inj hr
    refine h.update s ?_ (h s).2
    rw [getClauses_eq]
    simp
  | importClause s =>
    simp only [SharingSystem.effect, SharingSystem.importClause] at hr
    split at hr
    · obtain rfl := Option.some.inj hr
      exact h
    case h_2 cls rest hqueue =>
      obtain rfl := Option.some.inj hr
      refine h.update s (h s).1 fun c hc => (h s).2 c ?_
      rw [hqueue]
      exact List.mem_cons_of_mem cls hc

end Routed

/-! ### A property of literals -/

/-- Every solver exports, and the property is one of the literals. -/
def ofLits (p : List ℤ → Prop) : Origin S P := ⟨fun c => p c.lits, fun _ => True⟩

/-- Every receiver gets clauses with the property out of the buffer. -/
def Sendable (p : List ℤ → Prop) (shrLit : ℤ) (P : Type*) (payload : ℕ → ℤ) : Prop :=
  ∀ (malloc : ℕ → P) comm d, receiveClauses shrLit malloc payload comm = some d →
    ∀ c ∈ d.queued, p c.lits

/-- The buffers of a rank. -/
structure Carried (p : List ℤ → Prop) (store : Store S I P) : Prop where
  origins : Origins (ofLits p) store
  routed : Routed store.queues

variable {p : List ℤ → Prop} {shrLit : ℤ}

theorem sendable_exported (hp : ∀ lits, p lits → ∀ l ∈ lits, l ≠ 0) {comm : MpiComm P}
    {e : Export P} (hcomm : Holds (ofLits (S := S) p) comm.clausesToExport)
    (he : ClauseCommunicator.exportLearnedClauses shrLit comm = some e) :
    ∀ message ∈ e.sent, Sendable p shrLit P message.payload := by
  intro message hmessage malloc receiver d hd c hc
  have hselected := hcomm.selected (toUnsigned shrLit)
  unfold ClauseCommunicator.exportLearnedClauses exportSelected at he
  dsimp only at he
  split_ifs at he with hnil hidx
  · obtain rfl := Option.some.inj he
    simp at hmessage
  · obtain rfl := Option.some.inj he
    obtain ⟨target, -, rfl⟩ := List.mem_map.mp hmessage
    rw [fill_idx] at hidx
    have hpresented := received_presented (fun c hc => hp c.lits (hselected c hc)) hidx hd
    -- what is queued is among what was presented to the filter
    have hqueued : c.lits ∈ d.queued.map ClauseExchange.lits := List.mem_map_of_mem hc
    rw [(receiveClauses_decoded hd).queued_lits, hpresented] at hqueued
    obtain ⟨l, hl, heq⟩ := List.mem_map.mp ((DuplicateFilter.sift_sublist _ _).subset hqueued)
    have hgood : p l.lits := hselected l hl
    rwa [heq] at hgood

theorem carried_start [DecidableEq P] {s : State S I P} (h : Start s) : Carried p s.store := by
  refine ⟨origins_start h, fun t => ?_⟩
  rw [h.queues t]
  exact ⟨fun c hc => absurd hc List.not_mem_nil, fun c hc => absurd hc List.not_mem_nil⟩

section Pipeline

variable [DecidableEq S] [DecidableEq I] [DecidableEq P] {setup : Setup S I} {s t : State S I P}

theorem Carried.step (h : Carried p s.store) {a : Action S I P}
    (hexported : ∀ x clause, a = .exportClause x clause → p clause.lits)
    (hreceived : ∀ malloc payload, a = .receiveClauses malloc payload →
      Sendable p setup.shrLit P payload)
    (hstep : SharingSystem.step setup s a = some t) : Carried p t.store := by
  obtain ⟨r, hr, hheap⟩ := Option.bind_eq_some_iff.mp hstep
  obtain ⟨heap, -, rfl⟩ := Option.map_eq_some_iff.mp hheap
  refine ⟨h.origins.effect (fun _ _ _ => trivial) ⟨fun x clause ha _ => ?_, ?_⟩ hr,
    h.routed.effect hr⟩
  · exact hexported x clause ha
  · intro malloc payload d ha hd
    exact hreceived malloc payload ha malloc s.store.comm d hd

omit [DecidableEq S] [DecidableEq I] [DecidableEq P] in
/-- What the callbacks of a solver take. -/
theorem Carried.taken (h : Carried p s.store) (x : S) :
    (∀ c ∈ (s.store.queues x).unitsToImport, p c.lits ∧ c.lits.length = 1) ∧
      ∀ c ∈ (s.store.queues x).clausesToImport, p c.lits ∧ c.lits.length ≠ 1 := by
  obtain ⟨hunits, hclauses⟩ := h.routed x
  refine ⟨fun c hc => ⟨h.origins.queues.units x c hc, ?_⟩, fun c hc =>
    ⟨h.origins.queues.clauses x c hc, ?_⟩⟩
  · rw [← c.size_eq]
    exact hunits c hc
  · rw [← c.size_eq]
    exact hclauses c hc

end Pipeline

end Painless.ClauseRoutes
