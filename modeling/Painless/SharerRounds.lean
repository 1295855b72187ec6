import Painless.RefCount
import Painless.Transitions

/-!
The solver lists of a sharer. Other threads buffer additions and removals, each
list of solvers under its own lock; the sharer's thread applies the additions
before doSharing and the removals after it, and releases a removed solver. A
removal that overtakes the addition of the same solver erases nothing, releases
the reference, and leaves the addition to the next round.
-/
namespace Painless.SharerRounds

open RefCount Transitions

/-- The producers or the consumers of a sharer. -/
structure Roster (S : Type*) where
  members : List S
  /-- addProducers or addConsumers -/
  toAdd : List S
  /-- removeProducers or removeConsumers -/
  toRemove : List S
  /-- History: the references taken by the constructor and by add calls and not
  released by a remove phase. -/
  held : Multiset S
  /-- History: the solvers whose removal has been processed, and that no add call
  has named since. -/
  gone : List S

/-- What the sharer's thread does next. -/
inductive Phase
  | asleep
  | adding
  | sharing
  | removing
  | ended
  deriving DecidableEq

/-- A sharer among the other holders of its solvers. -/
structure State (S : Type*) where
  producers : Roster S
  consumers : Roster S
  phase : Phase
  globalEnding : Bool
  /-- the references to solvers held elsewhere -/
  others : Multiset S
  /-- nRefs of the solvers -/
  heap : Heap S

inductive Action (S : Type*)
  | newSolver (solver : S)
  /-- another holder releases its reference -/
  | release (solver : S)
  | addProducer (solver : S)
  | addConsumer (solver : S)
  | removeProducer (solver : S)
  | removeConsumer (solver : S)
  | globalEnding
  | wakeUp
  | addPhase
  | doSharing
  | removePhase
  deriving DecidableEq

variable {S : Type*} [DecidableEq S]

namespace Roster

/-- The constructor's copy of a list. -/
def ofList (solvers : List S) : Roster S where
  members := solvers
  toAdd := []
  toRemove := []
  held := solvers
  gone := []

def add (r : Roster S) (solver : S) : Roster S :=
  { r with
    toAdd := r.toAdd ++ [solver]
    held := solver ::ₘ r.held
    gone := r.gone.filter (· ≠ solver) }

def remove (r : Roster S) (solver : S) : Roster S :=
  { r with toRemove := r.toRemove ++ [solver] }

def addPhase (r : Roster S) : Roster S :=
  { r with members := r.members ++ r.toAdd, toAdd := [] }

/-- For each entry of `toRemove`, all its occurrences are erased. -/
def eraseAll (members : List S) : List S → List S
  | [] => members
  | solver :: rest => eraseAll (members.filter (· ≠ solver)) rest

def removePhase (r : Roster S) : Roster S :=
  { r with
    members := eraseAll r.members r.toRemove
    toRemove := []
    held := r.held - r.toRemove
    gone := r.gone ++ r.toRemove }

def removeCalls (r : Roster S) : List (Call S) := r.toRemove.map .release

/-- Every remove has an add of its own before it. -/
def mayRemove (r : Roster S) (solver : S) : Bool :=
  r.toRemove.count solver < r.held.count solver

end Roster

/-- Using a solver that has been deleted is a fault. -/
def touch (heap : Heap S) (solvers : List S) : Heap S :=
  { heap with fault := heap.fault || solvers.any fun solver => (heap.nbRefs solver).isNone }

/-- The calls to reference counters that go with a step, and their effect. -/
def State.call (s : State S) (calls : List (Call S)) : Option (State S) :=
  (runCalls s.heap calls).map fun heap => { s with heap := heap }

def step (s : State S) : Action S → Option (State S)
  | .newSolver solver => { s with others := solver ::ₘ s.others }.call [.alloc solver]
  | .release solver =>
    if 0 < s.others.count solver then
      { s with others := s.others.erase solver }.call [.release solver]
    else none
  | .addProducer solver =>
    { s with producers := s.producers.add solver }.call [.increase solver 1]
  | .addConsumer solver =>
    { s with consumers := s.consumers.add solver }.call [.increase solver 1]
  | .removeProducer solver =>
    if s.producers.mayRemove solver then
      some { s with producers := s.producers.remove solver }
    else none
  | .removeConsumer solver =>
    if s.consumers.mayRemove solver then
      some { s with consumers := s.consumers.remove solver }
    else none
  | .globalEnding => some { s with globalEnding := true }
  | .wakeUp =>
    if s.phase = .asleep then
      some { s with phase := if s.globalEnding then .ended else .adding }
    else none
  | .addPhase =>
    if s.phase = .adding then
      some { s with
        producers := s.producers.addPhase
        consumers := s.consumers.addPhase
        phase := .sharing }
    else none
  | .doSharing =>
    if s.phase = .sharing then
      some { s with
        heap := touch s.heap (s.producers.members ++ s.consumers.members)
        phase := .removing }
    else none
  | .removePhase =>
    if s.phase = .removing then
      { s with
        producers := s.producers.removePhase
        consumers := s.consumers.removePhase
        phase := if s.globalEnding then .ended else .asleep }.call
          (s.producers.removeCalls ++ s.consumers.removeCalls)
    else none

/-- The sharer has been constructed by a holder of all its solvers. -/
structure Start (s : State S) : Prop where
  lists : ∃ producers consumers, s.producers = Roster.ofList producers ∧
    s.consumers = Roster.ofList consumers ∧ (∀ p ∈ producers ++ consumers, p ∈ s.others) ∧
    runCalls (counting s.others) ((producers ++ consumers).map (Call.increase · 1)) =
      some s.heap
  phase : s.phase = .asleep
  globalEnding : s.globalEnding = false

def machine (S : Type*) [DecidableEq S] : Machine (State S) (Action S) where
  Init := Start
  step := step

/-! ### One list -/

namespace Roster

theorem eraseAll_eq (members solvers : List S) :
    eraseAll members solvers = members.filter (· ∉ solvers) := by
  induction solvers generalizing members with
  | nil => simp [eraseAll]
  | cons solver rest ih =>
    rw [eraseAll, ih, List.filter_filter]
    refine List.filter_congr fun x _ => ?_
    rw [Bool.eq_iff_iff]
    simp [and_comm]

theorem count_eraseAll_of_mem {members solvers : List S} {x : S} (hx : x ∈ solvers) :
    (eraseAll members solvers).count x = 0 := by
  rw [eraseAll_eq, List.count_eq_zero]
  simp [hx]

theorem count_eraseAll_of_notMem {members solvers : List S} {x : S} (hx : x ∉ solvers) :
    (eraseAll members solvers).count x = members.count x := by
  rw [eraseAll_eq]
  exact List.count_filter (by simpa using hx)

/-- Each member has a reference that its add took, and no solver whose removal
has been processed is a member again. -/
def Safe (r : Roster S) : Prop :=
  (∀ x, r.members.count x ≤ r.held.count x) ∧ ∀ x ∈ r.gone, x ∉ r.members

/-- The additions that wait count with the members. -/
structure Backed (r : Roster S) : Prop where
  count_le : ∀ x, r.members.count x + r.toAdd.count x ≤ r.held.count x
  pending_le : ∀ x, r.toRemove.count x ≤ r.held.count x
  gone : ∀ x ∈ r.gone, x ∉ r.members ∧ x ∉ r.toAdd

/-- No removal that waits is of a solver whose addition waits too. -/
def Ordered (r : Roster S) : Prop := ∀ x ∈ r.toRemove, x ∉ r.toAdd

instance (r : Roster S) : Decidable r.Ordered :=
  inferInstanceAs (Decidable (∀ x ∈ r.toRemove, x ∉ r.toAdd))

variable {r : Roster S}

theorem Backed.safe (h : r.Backed) : r.Safe :=
  ⟨fun x => le_trans (Nat.le_add_right _ _) (h.count_le x), fun x hx => (h.gone x hx).1⟩

theorem ofList_backed (solvers : List S) : (ofList solvers).Backed where
  count_le x := by simp [ofList]
  pending_le x := by simp [ofList]
  gone x hx := by simp [ofList] at hx

theorem Backed.add (h : r.Backed) (solver : S) : (r.add solver).Backed where
  count_le x := by
    have hx := h.count_le x
    simp only [Roster.add, List.count_append, List.count_singleton, Multiset.count_cons]
    rcases eq_or_ne x solver with rfl | hne
    · simp only [beq_self_eq_true, if_true]
      omega
    · simp only [beq_iff_eq, hne, hne.symm, if_false]
      omega
  pending_le x := by
    refine le_trans (h.pending_le x) ?_
    exact Multiset.count_le_count_cons x solver r.held
  gone x hx := by
    obtain ⟨hgone, hne⟩ : x ∈ r.gone ∧ x ≠ solver := by simpa [Roster.add] using hx
    obtain ⟨hmembers, hwaiting⟩ := h.gone x hgone
    exact ⟨hmembers, by simp [Roster.add, hwaiting, hne]⟩

theorem Backed.remove (h : r.Backed) {solver : S} (hmay : r.mayRemove solver = true) :
    (r.remove solver).Backed where
  count_le := h.count_le
  pending_le x := by
    have hx := h.pending_le x
    have hlt : r.toRemove.count solver < r.held.count solver := by simpa [mayRemove] using hmay
    simp only [Roster.remove, List.count_append, List.count_singleton]
    split_ifs with heq
    · obtain rfl : solver = x := by simpa using heq
      omega
    · omega
  gone := h.gone

theorem Backed.addPhase (h : r.Backed) : r.addPhase.Backed where
  count_le x := by simpa [Roster.addPhase] using h.count_le x
  pending_le := h.pending_le
  gone x hx := by simpa [Roster.addPhase] using h.gone x hx

theorem Backed.removePhase (h : r.Backed) (hordered : r.Ordered) : r.removePhase.Backed where
  count_le x := by
    have hx := h.count_le x
    simp only [Roster.removePhase, Multiset.count_sub, Multiset.coe_count]
    by_cases hremoved : x ∈ r.toRemove
    · rw [count_eraseAll_of_mem hremoved, List.count_eq_zero_of_not_mem (hordered x hremoved)]
      omega
    · rw [count_eraseAll_of_notMem hremoved, List.count_eq_zero_of_not_mem hremoved]
      omega
  pending_le x := by simp [Roster.removePhase]
  gone x hx := by
    by_cases hremoved : x ∈ r.toRemove
    · exact ⟨List.count_eq_zero.mp (count_eraseAll_of_mem hremoved), hordered x hremoved⟩
    · have hgone : x ∈ r.gone := (List.mem_append.mp hx).resolve_right hremoved
      obtain ⟨hmembers, hwaiting⟩ := h.gone x hgone
      refine ⟨?_, hwaiting⟩
      simp [Roster.removePhase, eraseAll_eq, hmembers]

/-- A removal processed while the solver's addition waits: the next round has
the solver again, whatever the state. -/
theorem not_safe_of_not_ordered (h : ¬ r.Ordered) : ¬ r.removePhase.addPhase.Safe := by
  unfold Ordered at h
  push Not at h
  obtain ⟨x, hremove, hadd⟩ := h
  intro hsafe
  refine hsafe.2 x (List.mem_append_right _ hremove) ?_
  exact List.mem_append_right _ hadd

end Roster

/-! ### Every run -/

/-- A remove phase processes no removal of a solver whose addition to the same
list waits for the next add phase. -/
def RemovesOrdered (s : State S) (a : Action S) : Prop :=
  a = .removePhase → s.producers.Ordered ∧ s.consumers.Ordered

instance (s : State S) (a : Action S) : Decidable (RemovesOrdered s a) :=
  inferInstanceAs (Decidable (_ → _ ∧ _))

def Backed (s : State S) : Prop := s.producers.Backed ∧ s.consumers.Backed

theorem State.call_backed {s t : State S} {calls : List (Call S)}
    (hcall : s.call calls = some t) (h : Backed s) : Backed t := by
  obtain ⟨heap, -, rfl⟩ := Option.map_eq_some_iff.mp hcall
  exact h

theorem step_backed {s t : State S} {a : Action S} (h : Backed s)
    (hok : RemovesOrdered s a) (hstep : step s a = some t) : Backed t := by
  obtain ⟨hproducers, hconsumers⟩ := h
  cases a with
  | newSolver solver => exact State.call_backed hstep ⟨hproducers, hconsumers⟩
  | release solver =>
    simp only [step] at hstep
    split_ifs at hstep
    exact State.call_backed hstep ⟨hproducers, hconsumers⟩
  | addProducer solver =>
    exact State.call_backed hstep ⟨hproducers.add solver, hconsumers⟩
  | addConsumer solver =>
    exact State.call_backed hstep ⟨hproducers, hconsumers.add solver⟩
  | removeProducer solver =>
    simp only [step] at hstep
    split_ifs at hstep with hmay
    obtain rfl := Option.some.inj hstep
    exact ⟨hproducers.remove hmay, hconsumers⟩
  | removeConsumer solver =>
    simp only [step] at hstep
    split_ifs at hstep with hmay
    obtain rfl := Option.some.inj hstep
    exact ⟨hproducers, hconsumers.remove hmay⟩
  | globalEnding =>
    obtain rfl := Option.some.inj hstep
    exact ⟨hproducers, hconsumers⟩
  | wakeUp | doSharing =>
    simp only [step] at hstep
    split_ifs at hstep
    all_goals
      obtain rfl := Option.some.inj hstep
      exact ⟨hproducers, hconsumers⟩
  | addPhase =>
    simp only [step] at hstep
    split_ifs at hstep
    obtain rfl := Option.some.inj hstep
    exact ⟨hproducers.addPhase, hconsumers.addPhase⟩
  | removePhase =>
    obtain ⟨hfirst, hsecond⟩ := hok rfl
    simp only [step] at hstep
    split_ifs at hstep
    all_goals
      exact State.call_backed hstep ⟨hproducers.removePhase hfirst, hconsumers.removePhase hsecond⟩

theorem start_backed {s : State S} (h : Start s) : Backed s := by
  obtain ⟨producers, consumers, hproducers, hconsumers, -, -⟩ := h.lists
  unfold Backed
  rw [hproducers, hconsumers]
  exact ⟨Roster.ofList_backed producers, Roster.ofList_backed consumers⟩

/-- Whatever the order of the calls and phases, as long as every remove phase
finds its solvers added: each solver of the two lists has the reference that
its add took, and a solver whose removal has been processed is in the list no
more. -/
theorem rosters_safe {s : State S} (hs : (machine S).Reach RemovesOrdered s) :
    s.producers.Safe ∧ s.consumers.Safe := by
  have hbacked : Backed s :=
    hs.invariant Backed (fun _ => start_backed) fun _ _ _ _ h hok => step_backed h hok
  exact ⟨hbacked.1.safe, hbacked.2.safe⟩

/-- A sharer of solver 0. -/
def oneSolver : State ℕ where
  producers := Roster.ofList [0]
  consumers := Roster.ofList [0]
  phase := .asleep
  globalEnding := false
  others := {0}
  heap := counting (([0, 0] : List ℕ) + {0})

theorem oneSolver_start : Start oneSolver where
  lists := ⟨[0], [0], rfl, rfl, by simp [oneSolver], Moves.increaseAll (by simp [oneSolver])⟩
  phase := rfl
  globalEnding := rfl

/-- Solver 1 is added in one round and removed in the next. -/
def addThenRemove : List (Action ℕ) :=
  [.newSolver 1, .addProducer 1, .wakeUp, .addPhase, .doSharing, .removePhase,
    .removeProducer 1, .wakeUp, .addPhase, .doSharing, .removePhase]

theorem rosters_safe_oneSolver :
    ∃ t, (machine ℕ).run oneSolver addThenRemove = some t ∧ t.producers.members = [0] ∧
      t.producers.Safe ∧ t.consumers.Safe := by
  obtain ⟨t, ht, hmembers⟩ : ∃ t, (machine ℕ).run oneSolver addThenRemove = some t ∧
      t.producers.members = [0] := ⟨_, rfl, rfl⟩
  have hreach : (machine ℕ).Reach RemovesOrdered t :=
    (Machine.Reach.init oneSolver_start).run addThenRemove (by decide) ht
  exact ⟨t, ht, hmembers, rosters_safe hreach⟩

/-- Solver 1 is added and removed between the add phase and the remove phase of
one round, and its owner releases it. -/
def overtakenAdd : List (Action ℕ) :=
  [.newSolver 1, .wakeUp, .addPhase, .addProducer 1, .removeProducer 1, .release 1,
    .doSharing, .removePhase, .wakeUp, .addPhase]

/-- The next round's doSharing has the solver, without a reference, and uses it
after it was deleted. -/
theorem overtaken_add_not_safe :
    Start oneSolver ∧ ∃ t, (machine ℕ).run oneSolver overtakenAdd = some t ∧
      t.phase = .sharing ∧ 1 ∈ t.producers.gone ∧ 1 ∈ t.producers.members ∧
      ¬ t.producers.Safe ∧
      ∃ u, step t .doSharing = some u ∧ t.heap.fault = false ∧ u.heap.fault = true := by
  refine ⟨oneSolver_start, _, rfl, rfl, by decide, by decide, fun h => ?_, _, rfl, rfl, rfl⟩
  exact h.2 1 (by decide) (by decide)

/-! ### The counters of the solvers -/

/-- Whoever adds a solver to a list holds a reference to it. -/
def AddedByHolder (s : State S) (a : Action S) : Prop :=
  ∀ solver, a = .addProducer solver ∨ a = .addConsumer solver → solver ∈ s.others

/-- The references held by the sharer and elsewhere. -/
def State.references (s : State S) : Multiset S :=
  s.others + s.producers.held + s.consumers.held

/-- A step takes the heap that counts the references to the one that does so
after it. -/
theorem State.call_counted {s t : State S} {calls : List (Call S)} {references : Multiset S}
    (hcall : s.call calls = some t) (hheap : s.heap = counting references)
    (hmoves : Moves calls references s.references) : t.heap = counting t.references := by
  obtain ⟨heap, hrun, rfl⟩ := Option.map_eq_some_iff.mp hcall
  rw [hheap, hmoves] at hrun
  exact (Option.some.inj hrun).symm

theorem touch_eq {references : Multiset S} {solvers : List S}
    (h : ∀ x ∈ solvers, x ∈ references) :
    touch (counting references) solvers = counting references := by
  have hlive : (solvers.any fun x => ((counting references).nbRefs x).isNone) = false := by
    refine List.any_eq_false.mpr fun x hx => ?_
    simp [counting_nbRefs_of_mem (h x hx)]
  unfold touch
  rw [hlive]
  rfl

theorem Roster.Backed.removeCalls_moves {r : Roster S} (h : r.Backed) (rest : Multiset S) :
    Moves r.removeCalls (r.held + rest) (r.removePhase.held + rest) := by
  have hle : (r.toRemove : Multiset S) ≤ r.held :=
    Multiset.le_iff_count.mpr fun x => by simpa using h.pending_le x
  refine (Moves.releaseAll r.toRemove (r.removePhase.held + rest)).of_eq ?_ rfl
  rw [← add_assoc, Roster.removePhase, add_tsub_cancel_of_le hle]

theorem Roster.Backed.mem_held {r : Roster S} (h : r.Backed) {x : S} (hx : x ∈ r.members) :
    x ∈ r.held := by
  have hle := h.safe.1 x
  have hpos : 0 < r.members.count x := List.count_pos_iff.mpr hx
  exact Multiset.count_pos.mp (by omega)

theorem step_counted {s t : State S} {a : Action S} (hbacked : Backed s)
    (h : s.heap = counting s.references) (hok : AddedByHolder s a)
    (hstep : step s a = some t) : t.heap = counting t.references := by
  cases a with
  | newSolver solver =>
    obtain ⟨heap, hrun, -⟩ := Option.map_eq_some_iff.mp hstep
    have halloc := @Moves.of_allocs _ _ [solver] s.references heap (h ▸ hrun)
    refine State.call_counted hstep h (halloc.of_eq rfl ?_)
    simp [State.references]
  | release solver =>
    simp only [step] at hstep
    split_ifs at hstep with hheld
    have hmem : solver ∈ s.others := Multiset.count_pos.mp hheld
    refine State.call_counted hstep h ((Moves.release solver _).of_eq ?_ rfl)
    simp [State.references, ← Multiset.cons_add, Multiset.cons_erase hmem]
  | addProducer solver =>
    have hmem : solver ∈ s.references := by
      simp [State.references, hok solver (Or.inl rfl)]
    refine State.call_counted hstep h ((Moves.increase hmem 1).of_eq rfl ?_)
    simp [State.references, Roster.add]
  | addConsumer solver =>
    have hmem : solver ∈ s.references := by
      simp [State.references, hok solver (Or.inr rfl)]
    refine State.call_counted hstep h ((Moves.increase hmem 1).of_eq rfl ?_)
    simp [State.references, Roster.add]
  | removeProducer solver | removeConsumer solver =>
    simp only [step] at hstep
    split_ifs at hstep
    obtain rfl := Option.some.inj hstep
    exact h
  | globalEnding =>
    obtain rfl := Option.some.inj hstep
    exact h
  | wakeUp | addPhase =>
    simp only [step] at hstep
    split_ifs at hstep
    all_goals
      obtain rfl := Option.some.inj hstep
      exact h
  | doSharing =>
    simp only [step] at hstep
    split_ifs at hstep
    obtain rfl := Option.some.inj hstep
    have hmembers : ∀ x ∈ s.producers.members ++ s.consumers.members, x ∈ s.references := by
      intro x hx
      rcases List.mem_append.mp hx with hx | hx
      · simp [State.references, hbacked.1.mem_held hx]
      · simp [State.references, hbacked.2.mem_held hx]
    change touch s.heap _ = _
    rw [h, touch_eq hmembers]
    rfl
  | removePhase =>
    simp only [step] at hstep
    split_ifs at hstep
    all_goals
      have hfirst := hbacked.1.removeCalls_moves (s.others + s.consumers.held)
      have hsecond := hbacked.2.removeCalls_moves (s.others + s.producers.removePhase.held)
      refine State.call_counted hstep h ((hfirst.append (hsecond.of_eq ?_ rfl)).of_eq ?_ ?_)
      · ac_rfl
      · rw [State.references]
        ac_rfl
      · simp only [State.references]
        ac_rfl

theorem start_counted {s : State S} (h : Start s) : s.heap = counting s.references := by
  obtain ⟨producers, consumers, hproducers, hconsumers, hheld, hrun⟩ := h.lists
  have hmoves := Moves.increaseAll hheld
  rw [hmoves] at hrun
  rw [← Option.some.inj hrun, State.references, hproducers, hconsumers, ← Multiset.coe_add]
  simp only [Roster.ofList]
  congr 1
  ac_rfl

/-- No deleted solver is used, by a call or by doSharing. -/
theorem no_fault {s : State S}
    (hs : (machine S).Reach (fun s a => RemovesOrdered s a ∧ AddedByHolder s a) s) :
    s.heap.fault = false := by
  have hinv : Backed s ∧ s.heap = counting s.references := by
    refine hs.invariant (fun s => Backed s ∧ s.heap = counting s.references)
      (fun s h => ⟨start_backed h, start_counted h⟩) ?_
    intro s a t _ h hok hstep
    exact ⟨step_backed h.1 hok.1 hstep, step_counted h.1 h.2 hok.2 hstep⟩
  rw [hinv.2]
  rfl

end Painless.SharerRounds
