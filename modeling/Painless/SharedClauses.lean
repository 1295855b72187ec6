import Painless.RefCount

/-!
Shared clauses, their reference counter and the buffers they wait in. The
fields of a clause are written before it is put in its first container and
only read afterwards, so a container holds the clause with its address; the
counter lives in a heap of its own, and a function that counts references
returns its calls to the clause manager in the order in which it makes them.
-/
namespace Painless.SharedClauses

open RefCount

/-- A clause as its holders see it. `lbd` is `none` until it is written. -/
structure ClauseExchange (P : Type*) where
  ptr : P
  lbd : Option ℤ
  fromId : ℤ
  size : ℕ
  lits : List ℤ
  size_eq : size = lits.length
  deriving DecidableEq

/-- A clause that a solver has learned: it has a literal. -/
structure LearnedClause (P : Type*) extends ClauseExchange P where
  size_pos : 0 < size
  deriving DecidableEq

variable {P : Type*}

def allocClause (cls : ClauseExchange P) : Call P := .alloc cls.ptr

def increaseClause (cls : ClauseExchange P) : Call P := .increase cls.ptr 1

def releaseClause (cls : ClauseExchange P) : Call P := .release cls.ptr

/-- The addresses a container holds. -/
def ptrs (clauses : List (ClauseExchange P)) : Multiset P :=
  ↑(clauses.map ClauseExchange.ptr)

/-- Learned clauses among clauses of any origin. -/
def upcast (clauses : List (LearnedClause P)) : List (ClauseExchange P) :=
  clauses.map LearnedClause.toClauseExchange

section Containers

variable (cls : ClauseExchange P) (cs ds : List (ClauseExchange P))
  (ls ks : List (LearnedClause P))

@[simp] theorem ptrs_nil : ptrs ([] : List (ClauseExchange P)) = 0 := rfl

@[simp] theorem ptrs_cons : ptrs (cls :: cs) = cls.ptr ::ₘ ptrs cs := rfl

@[simp] theorem ptrs_append : ptrs (cs ++ ds) = ptrs cs + ptrs ds := by
  simp [ptrs, ← Multiset.coe_add]

theorem ptrs_perm {cs ds : List (ClauseExchange P)} (h : cs.Perm ds) : ptrs cs = ptrs ds :=
  Multiset.coe_eq_coe.mpr (h.map ClauseExchange.ptr)

theorem mem_ptrs {c : ClauseExchange P} {cs : List (ClauseExchange P)} (h : c ∈ cs) :
    c.ptr ∈ ptrs cs :=
  Multiset.mem_coe.mpr (List.mem_map_of_mem h)

@[simp] theorem upcast_nil : upcast ([] : List (LearnedClause P)) = [] := rfl

@[simp] theorem upcast_append : upcast (ls ++ ks) = upcast ls ++ upcast ks :=
  List.map_append

@[simp] theorem upcast_cons (c : LearnedClause P) :
    upcast (c :: ls) = c.toClauseExchange :: upcast ls := rfl

end Containers

/-- The loop of `getClauses`: it dequeues a clause before it compares the
clauses it has taken with the count `nClauses` it has read. -/
def getClausesLoop {C : Type*} : ℕ → List C → List C × List C
  | _, [] => ([], [])
  | 0, _ :: queue => ([], queue)
  | nClauses + 1, cls :: queue =>
    (cls :: (getClausesLoop nClauses queue).1, (getClausesLoop nClauses queue).2)

/-- A buffer that no other thread uses meanwhile: its size is the number of
its clauses. -/
def getClauses {C : Type*} (buffer : List C) : List C × List C :=
  getClausesLoop buffer.length buffer

theorem getClauses_eq {C : Type*} (buffer : List C) : getClauses buffer = (buffer, []) := by
  unfold getClauses
  induction buffer with
  | nil => rfl
  | cons cls queue ih =>
    rw [List.length_cons, getClausesLoop, ih]

section References

variable [DecidableEq P] (cs : List (ClauseExchange P)) (m : Multiset P)

theorem increase_clauses {cs : List (ClauseExchange P)} {m : Multiset P}
    (h : ∀ c ∈ cs, c.ptr ∈ m) : Moves (cs.map increaseClause) m (ptrs cs + m) := by
  have hps : ∀ p ∈ cs.map ClauseExchange.ptr, p ∈ m := by
    intro p hp
    obtain ⟨c, hc, rfl⟩ := List.mem_map.mp hp
    exact h c hc
  have hmoves := Moves.increaseAll hps
  rwa [List.map_map] at hmoves

theorem release_clauses : Moves (cs.map releaseClause) (ptrs cs + m) m := by
  have hmoves := Moves.releaseAll (cs.map ClauseExchange.ptr) m
  rwa [List.map_map] at hmoves

end References

end Painless.SharedClauses
