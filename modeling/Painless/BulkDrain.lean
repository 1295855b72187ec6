import Mathlib.Data.Multiset.AddSub
import Painless.ClauseBuffer
import Painless.SharedClauses

/-!
getClauses of a clause buffer among addClause calls of other threads. A clause
is linked before it is counted in size, and the loop dequeues before it compares
the clauses it has pushed with the size it has read: a clause linked beyond that
size is dequeued by the last test and pushed nowhere.
-/
namespace Painless.BulkDrain

open Transitions ClauseBuffer SharedClauses

/-- Where the consumer stands, with the locals of getClauses. -/
inductive Consumer
  | outside
  | loop (nClauses nClausesGet : ℤ)

/-- The buffer, as a queue and its size, the producers and the consumer. -/
structure State (T C : Type*) where
  queue : List C
  size : ℤ
  /-- the producer has linked a clause and not counted it -/
  uncounted : T → Bool
  consumer : Consumer
  /-- the vector on which getClauses pushes -/
  clauses : List C
  /-- History: every clause enqueued. -/
  linked : List C

inductive Action (T C : Type*)
  /-- the first step of addClause -/
  | link (t : T) (clause : C)
  /-- `buffer.size++` -/
  | count (t : T)
  /-- the call of getClauses, as far as `nClauses = size()` -/
  | readSize
  /-- `while (getClause(&cls) && nClausesGet < nClauses)`, and the body -/
  | loopTest

variable {T C : Type*}

/-- A loop test of getClauses. -/
def loopTest (s : State T C) (nClauses nClausesGet : ℤ) : State T C :=
  match s.queue with
  | [] => { s with consumer := .outside }
  | cls :: rest =>
    if nClausesGet < nClauses then
      { s with
        queue := rest
        size := s.size - 1
        clauses := s.clauses ++ [cls]
        consumer := .loop nClauses (nClausesGet + 1) }
    else { s with queue := rest, size := s.size - 1, consumer := .outside }

def step [DecidableEq T] (s : State T C) : Action T C → Option (State T C)
  | .link t clause =>
    if s.uncounted t then none
    else some { s with
      queue := s.queue ++ [clause]
      uncounted := Function.update s.uncounted t true
      linked := s.linked ++ [clause] }
  | .count t =>
    if s.uncounted t then
      some { s with size := s.size + 1, uncounted := Function.update s.uncounted t false }
    else none
  | .readSize =>
    match s.consumer with
    | .outside => some { s with consumer := .loop s.size 0 }
    | .loop _ _ => none
  | .loopTest =>
    match s.consumer with
    | .outside => none
    | .loop nClauses nClausesGet => some (loopTest s nClauses nClausesGet)

def start : State T C where
  queue := []
  size := 0
  uncounted := fun _ => false
  consumer := .outside
  clauses := []
  linked := []

def machine (T C : Type*) [DecidableEq T] : Machine (State T C) (Action T C) where
  Init s := s = start
  step := step

section Alone

variable [DecidableEq T]

/-- The buffer changes as a queue does whose calls take effect at once. -/
theorem refines_queue (ok : State T C → Action T C → Prop) :
    Simulation (machine T C) ok (queue C) (fun _ _ => True) State.queue where
  init := by
    intro s hs
    rw [show s = start from hs]
    rfl
  step := by
    intro s a s' _ _ hstep
    cases a with
    | link t clause =>
      obtain ⟨-, rfl⟩ := by simpa [machine, step] using hstep
      exact Or.inr ⟨.addClause clause, trivial, rfl⟩
    | count t =>
      obtain ⟨-, rfl⟩ := by simpa [machine, step] using hstep
      exact Or.inl rfl
    | readSize =>
      cases hconsumer : s.consumer <;> simp [machine, step, hconsumer] at hstep
      exact Or.inl (hstep ▸ rfl)
    | loopTest =>
      refine Or.inr ⟨.getClause, trivial, congrArg some ?_⟩
      cases hconsumer : s.consumer <;> simp [machine, step, hconsumer] at hstep
      subst hstep
      unfold loopTest
      split
      · simp [*]
      · split_ifs <;> simp [*]

end Alone

/-! ### What a drain loses -/

/-- Every clause enqueued has been pushed on the vector or is in the queue, as
often as it has been enqueued. -/
def NothingLost (s : State T C) : Prop :=
  (s.linked : Multiset C) = (s.clauses : Multiset C) + (s.queue : Multiset C)

/-- A loop test made after `nClauses` clauses have been pushed finds the queue
empty. -/
def FindsEmpty (s : State T C) (a : Action T C) : Prop :=
  a = .loopTest → ∀ nClauses nClausesGet, s.consumer = .loop nClauses nClausesGet →
    nClauses ≤ nClausesGet → s.queue = []

/-- The vector and the queue hold no clause more often than it was enqueued. -/
def NothingInvented (s : State T C) : Prop :=
  (s.clauses : Multiset C) + (s.queue : Multiset C) ≤ (s.linked : Multiset C)

/-- The number of clauses enqueued that are nowhere. -/
def lost (s : State T C) : ℕ := s.linked.length - (s.clauses.length + s.queue.length)

theorem NothingInvented.length_le {s : State T C} (h : NothingInvented s) :
    s.clauses.length + s.queue.length ≤ s.linked.length := by
  simpa using Multiset.card_le_card h

theorem nothingLost_iff {s : State T C} (h : NothingInvented s) : NothingLost s ↔ lost s = 0 := by
  have hle := h.length_le
  constructor
  · intro heq
    have hcard := congrArg Multiset.card heq
    simp only [Multiset.card_add, Multiset.coe_card] at hcard
    rw [lost]
    omega
  · intro hlost
    rw [lost] at hlost
    refine (Multiset.eq_of_le_of_card_le h ?_).symm
    simp only [Multiset.card_add, Multiset.coe_card]
    omega

/-- A loop test loses the clause it dequeues where the count read is reached. -/
theorem loopTest_lost {s : State T C} (h : NothingInvented s) (nClauses nClausesGet : ℤ) :
    NothingInvented (loopTest s nClauses nClausesGet) ∧
      lost s ≤ lost (loopTest s nClauses nClausesGet) ∧
      ((nClauses ≤ nClausesGet → s.queue = []) ↔
        lost (loopTest s nClauses nClausesGet) = lost s) := by
  have hle := h.length_le
  unfold NothingInvented at h ⊢
  unfold loopTest lost
  cases hqueue : s.queue with
  | nil => simpa [hqueue] using h
  | cons cls rest =>
    rw [hqueue] at h hle
    rw [List.length_cons] at hle
    dsimp only
    split_ifs with hlt
    · refine ⟨?_, ?_, ?_⟩
      · rwa [← Multiset.coe_add, add_assoc, Multiset.coe_add [cls] rest]
      · simp only [List.length_append, List.length_cons, List.length_nil]
        omega
      · simp only [List.length_append, List.length_cons, List.length_nil]
        constructor
        · intro _
          omega
        · intro _ hge
          omega
    · refine ⟨le_trans (add_le_add (le_refl _) (Multiset.le_cons_self _ cls)) h, ?_, ?_⟩
      · simp only [List.length_cons]
        omega
      · have hreached : nClauses ≤ nClausesGet := by omega
        simp only [hreached, true_imp_iff, List.length_cons, false_iff]
        omega

section Runs

variable [DecidableEq T]

theorem step_lost {s t : State T C} {a : Action T C} (h : NothingInvented s)
    (hstep : step s a = some t) :
    NothingInvented t ∧ lost s ≤ lost t ∧ (FindsEmpty s a ↔ lost t = lost s) := by
  have hkeep (hne : a ≠ .loopTest) (hlost : lost t = lost s) :
      lost s ≤ lost t ∧ (FindsEmpty s a ↔ lost t = lost s) :=
    ⟨hlost.ge, fun _ => hlost, fun _ heq => absurd heq hne⟩
  cases a with
  | link p clause =>
    obtain ⟨-, rfl⟩ := by simpa [step] using hstep
    refine ⟨?_, hkeep (by simp) ?_⟩
    · simpa [NothingInvented, ← Multiset.coe_add, ← add_assoc] using h
    · simp only [lost, List.length_append]
      omega
  | count p =>
    obtain ⟨-, rfl⟩ := by simpa [step] using hstep
    exact ⟨h, hkeep (by simp) rfl⟩
  | readSize =>
    cases hconsumer : s.consumer with
    | outside =>
      obtain rfl := by simpa [step, hconsumer] using hstep
      exact ⟨h, hkeep (by simp) rfl⟩
    | loop _ _ => simp [step, hconsumer] at hstep
  | loopTest =>
    cases hconsumer : s.consumer with
    | outside => simp [step, hconsumer] at hstep
    | loop nClauses nClausesGet =>
      obtain rfl : loopTest s nClauses nClausesGet = t := by
        simpa [step, hconsumer] using hstep
      obtain ⟨hinvented, hle, hiff⟩ := loopTest_lost h nClauses nClausesGet
      refine ⟨hinvented, hle, ?_⟩
      rw [← hiff]
      constructor
      · exact fun hfinds => hfinds rfl _ _ hconsumer
      · intro hempty _ n m hloop hge
        rw [hconsumer] at hloop
        obtain ⟨rfl, rfl⟩ := Consumer.loop.inj hloop
        exact hempty hge

/-- Between any number of producers and a consumer that drains the buffer again
and again, no clause is lost exactly where every test made with the count
reached finds the queue empty. -/
theorem nothingLost_iff_meets {t : State T C} (as : List (Action T C))
    (hrun : (machine T C).run start as = some t) :
    NothingLost t ↔ (machine T C).Meets FindsEmpty start as := by
  have hstart : NothingInvented (start : State T C) := le_refl _
  obtain ⟨hinvented, -, hmeets⟩ := Machine.run_meets_iff NothingInvented lost
    (fun s a t hs hstep => step_lost hs hstep) hstart as hrun
  rw [nothingLost_iff hinvented, hmeets]
  rfl

end Runs

/-- A second clause is linked between the count of the first and the tests. -/
def lateLink : List (Action Bool ℕ) :=
  [.link false 5, .count false, .readSize, .link true 6, .loopTest, .loopTest, .count true]

theorem nothingLost_iff_meets_late :
    ∃ t, (machine Bool ℕ).run start lateLink = some t ∧
      (NothingLost t ↔ (machine Bool ℕ).Meets FindsEmpty start lateLink) := by
  obtain ⟨t, ht⟩ : ∃ t, (machine Bool ℕ).run start lateLink = some t := ⟨_, rfl⟩
  exact ⟨t, ht, nothingLost_iff_meets lateLink ht⟩

/-- getClauses has returned with clause 5 alone and the queue is empty. -/
theorem late_clause_lost :
    ∃ t, (machine Bool ℕ).run start lateLink = some t ∧ t.consumer = .outside ∧
      t.linked = [5, 6] ∧ t.clauses = [5] ∧ t.queue = [] ∧ ¬ NothingLost t := by
  refine ⟨_, rfl, rfl, rfl, rfl, rfl, fun h => ?_⟩
  exact absurd (congrArg Multiset.card h) (by decide)

end Painless.BulkDrain
