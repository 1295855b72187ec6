import Painless.MachineIntegers
import Painless.SolverInterface
import Mathlib.Tactic.Linarith
import Mathlib.Tactic.SplitIfs

/-!
The vector of solvers that main creates and then reads by index. For Glucose and
Maple the factory creates no more solvers than fit into max-memory, going by the
memory reading after the first one. It lowers its own copy of the number of
solvers; main goes on with the number it asked for.
-/
namespace Painless.SolverVector

open MachineIntegers SolverInterface

/-! ### SolverFactory -/

structure Solver where
  type : SolverType
  id : ℕ
  deriving DecidableEq

/-- The static counter of SolverFactory and the vector. -/
structure Factory where
  currentIdSolver : ℕ
  solvers : List Solver

/-- The solver that is pushed takes the next id. -/
def Factory.push (f : Factory) (type : SolverType) : Factory :=
  ⟨f.currentIdSolver + 1, f.solvers ++ [⟨type, f.currentIdSolver⟩]⟩

/-- The loop `for (int i = 1; i < nbSolvers; i++)` around cloneSolver. -/
def Factory.cloneUpTo (f : Factory) (type : SolverType) (nbSolvers : ℤ) : Factory :=
  (List.range (nbSolvers - 1).toNat).foldl (fun f _ => f.push type) f

/-- What getMemoryUsed returns, in kilobytes: the first solver is there. -/
abbrev MemoryReading := { memoryUsed : ℕ // 0 < memoryUsed }

/-- max-memory in kilobytes. The product is one of ints and wraps around. -/
def memoryLimit (maxMemory : ℤ) : ℤ := intOf (intOf (maxMemory * 1024) * 1024)

/-- The quotient is one of doubles and is truncated. With a dividend below 2^31 it
is not rounded up to the next integer. -/
def maxMemorySolvers (maxMemory : ℤ) (memoryUsed : MemoryReading) : ℤ :=
  (memoryLimit maxMemory).tdiv memoryUsed

/-- `nbSolvers` is passed by value. -/
def createSolvers (type : SolverType) (nbSolvers mpiRank : ℕ) (maxMemory : ℤ)
    (memoryUsed : MemoryReading) : Factory :=
  let first := (Factory.mk (mpiRank * nbSolvers) []).push type
  let bound := maxMemorySolvers maxMemory memoryUsed
  first.cloneUpTo type (if (nbSolvers : ℤ) > bound then bound else nbSolvers)

def createGlucoseSolvers := createSolvers .glucose

def createMapleSolvers := createSolvers .maple

@[simp] theorem push_solvers_length (f : Factory) (type : SolverType) :
    (f.push type).solvers.length = f.solvers.length + 1 := by
  simp [Factory.push]

theorem cloneUpTo_solvers_length (f : Factory) (type : SolverType) (nbSolvers : ℤ) :
    (f.cloneUpTo type nbSolvers).solvers.length =
      f.solvers.length + (nbSolvers - 1).toNat := by
  have loop : ∀ (l : List ℕ) (f : Factory),
      (l.foldl (fun f _ => f.push type) f).solvers.length = f.solvers.length + l.length := by
    intro l
    induction l with
    | nil => simp
    | cons i rest ih =>
      intro f
      rw [List.foldl_cons, ih, push_solvers_length, List.length_cons]
      omega
  rw [Factory.cloneUpTo, loop, List.length_range]

/-- One solver is there whatever the memory; the others only if they fit. -/
theorem createSolvers_length (type : SolverType) (nbSolvers mpiRank : ℕ) (maxMemory : ℤ)
    (memoryUsed : MemoryReading) :
    (createSolvers type nbSolvers mpiRank maxMemory memoryUsed).solvers.length =
      1 + (min (nbSolvers : ℤ) (maxMemorySolvers maxMemory memoryUsed) - 1).toNat := by
  unfold createSolvers
  rw [cloneUpTo_solvers_length, push_solvers_length, List.length_nil]
  split_ifs <;> omega

theorem le_maxMemorySolvers_iff {n : ℕ} (hn : 0 < n) (maxMemory : ℤ)
    (memoryUsed : MemoryReading) :
    (n : ℤ) ≤ maxMemorySolvers maxMemory memoryUsed ↔
      n * (memoryUsed.val : ℤ) ≤ memoryLimit maxMemory := by
  have hm : (0 : ℤ) < memoryUsed.val := by exact_mod_cast memoryUsed.property
  unfold maxMemorySolvers
  by_cases hlimit : 0 ≤ memoryLimit maxMemory
  · rw [Int.tdiv_eq_ediv_of_nonneg hlimit, Int.le_ediv_iff_mul_le hm]
  · -- a limit that has wrapped around below zero admits no solver
    have hneg : (memoryLimit maxMemory).tdiv memoryUsed.val ≤ 0 := by
      rw [← neg_neg (memoryLimit maxMemory), Int.neg_tdiv]
      have := Int.tdiv_nonneg (a := -memoryLimit maxMemory) (by omega) hm.le
      omega
    have hpos : 0 < n * (memoryUsed.val : ℤ) := by positivity
    omega

/-! ### main -/

inductive Engine where
  | glucose
  | maple
  deriving DecidableEq

/-- The parameters main reads, the rank, and the memory reading. -/
structure Setting where
  engine : Engine
  cpus : ℕ
  wkrStrat : ℤ
  copyMode : ℤ
  shrStrat : ℤ
  mpiRank : ℕ
  maxMemory : ℤ
  memoryUsed : MemoryReading

namespace Setting

def nSolvers (p : Setting) : ℕ :=
  if p.wkrStrat = 2 ∨ p.wkrStrat = 5 ∨ (p.wkrStrat = 4 ∧ p.copyMode = 2) then 1
  else if p.wkrStrat = 3 then p.cpus / 3
  else p.cpus

def createdSolvers (p : Setting) : Factory :=
  match p.engine with
  | .glucose => createGlucoseSolvers p.nSolvers p.mpiRank p.maxMemory p.memoryUsed
  | .maple => createMapleSolvers p.nSolvers p.mpiRank p.maxMemory p.memoryUsed

/-- The vector when main starts to read it. -/
def solvers (p : Setting) : List Solver :=
  if p.wkrStrat = 3 then (p.createdSolvers.push .lingeling).solvers
  else p.createdSolvers.solvers

/-- The indices read for the sharers. -/
def sharerReads (p : Setting) : List ℕ :=
  if p.shrStrat = 2 then List.range p.cpus
  else if p.shrStrat = 4 then List.range p.nSolvers ++ [p.nSolvers]
  else []

/-- The indices read for the working strategy. -/
def workingReads (p : Setting) : List ℕ :=
  if p.wkrStrat = 1 then List.range p.cpus
  else if p.wkrStrat = 2 then [0]
  else if p.wkrStrat = 3 then List.range p.nSolvers ++ [p.nSolvers]
  else if p.wkrStrat = 4 then
    if p.copyMode = 2 then [0] else List.range p.cpus
  else if p.wkrStrat = 6 then List.range p.cpus
  else []

def reads (p : Setting) : List ℕ := p.sharerReads ++ p.workingReads

/-- One solver for each cpu is asked for. -/
def AsksForAll (p : Setting) : Prop :=
  ¬ (p.wkrStrat = 2 ∨ p.wkrStrat = 3 ∨ p.wkrStrat = 5 ∨ (p.wkrStrat = 4 ∧ p.copyMode = 2))

/-- A strategy that reads a solver for each cpu: Portfolio, DivideAndConquer
without cloning, the distributed portfolio, or the sharers of shr-strat=2. The
sharers of shr-strat=4 are not among them. -/
def ReadsForAll (p : Setting) : Prop :=
  p.shrStrat ≠ 4 ∧
    (p.shrStrat = 2 ∨ p.wkrStrat = 1 ∨ (p.wkrStrat = 4 ∧ p.copyMode ≠ 2) ∨ p.wkrStrat = 6)

/-- All solvers fit into max-memory, or so few are read that they are there
whatever the memory. -/
def SolversFit (p : Setting) : Prop :=
  p.cpus ≤ 1 ∨ (p.wkrStrat = 3 ∧ p.cpus ≤ 2) ∨
    (p.AsksForAll ∧ p.cpus * (p.memoryUsed.val : ℤ) ≤ memoryLimit p.maxMemory)

theorem solvers_length (p : Setting) :
    p.solvers.length =
      1 + (min (p.nSolvers : ℤ) (maxMemorySolvers p.maxMemory p.memoryUsed) - 1).toNat +
        if p.wkrStrat = 3 then 1 else 0 := by
  have hcreated : p.createdSolvers.solvers.length =
      1 + (min (p.nSolvers : ℤ) (maxMemorySolvers p.maxMemory p.memoryUsed) - 1).toNat := by
    unfold createdSolvers
    cases p.engine with
    | glucose => exact createSolvers_length _ _ _ _ _
    | maple => exact createSolvers_length _ _ _ _ _
  unfold solvers
  split_ifs
  · rw [push_solvers_length, hcreated]
  · rw [hcreated, Nat.add_zero]

theorem nSolvers_of_asksForAll {p : Setting} (h : p.AsksForAll) : p.nSolvers = p.cpus := by
  unfold AsksForAll at h
  unfold nSolvers
  split_ifs <;> tauto

/-- Main asks for one solver, or for a third of the cpus. -/
theorem nSolvers_of_not_asksForAll {p : Setting} (h : ¬ p.AsksForAll) :
    (p.wkrStrat ≠ 3 ∧ p.nSolvers = 1) ∨ (p.wkrStrat = 3 ∧ p.nSolvers = p.cpus / 3) := by
  unfold AsksForAll at h
  unfold nSolvers
  split_ifs with hone hthree
  · left
    omega
  · right
    exact ⟨hthree, rfl⟩
  · tauto

theorem forall_range_lt_iff (n size : ℕ) : (∀ i ∈ List.range n, i < size) ↔ n ≤ size := by
  constructor
  · intro h
    by_contra hlt
    exact absurd (h size (List.mem_range.mpr (by omega))) (lt_irrefl size)
  · intro h i hi
    exact lt_of_lt_of_le (List.mem_range.mp hi) h

/-- What the indices read ask of the size of the vector. -/
theorem forall_reads_iff (p : Setting) (hp : p.ReadsForAll) {size : ℕ} (hsize : 0 < size) :
    (∀ i ∈ p.reads, i < size) ↔
      p.cpus ≤ size ∧ (p.wkrStrat = 3 → p.nSolvers < size) := by
  obtain ⟨hshr, hall⟩ := hp
  unfold reads sharerReads workingReads
  rw [List.forall_mem_append]
  split_ifs <;>
    simp only [List.forall_mem_append, List.forall_mem_singleton, forall_range_lt_iff,
      List.not_mem_nil, IsEmpty.forall_iff, implies_true, true_and, and_true] <;> omega

/-- Main never reads past the vector exactly if all the solvers fit into
max-memory, or so few are read that this does not matter. -/
theorem reads_lt_length_iff (p : Setting) (hp : p.ReadsForAll) :
    (∀ i ∈ p.reads, i < p.solvers.length) ↔ p.SolversFit := by
  have hlength := p.solvers_length
  rw [forall_reads_iff p hp (by omega)]
  unfold SolversFit
  by_cases hsmall : p.cpus ≤ 1
  · have hone : p.nSolvers ≤ 1 := by
      unfold nSolvers
      split_ifs <;> omega
    refine ⟨fun _ => Or.inl hsmall, fun _ => ⟨by omega, fun hthree => ?_⟩⟩
    rw [if_pos hthree] at hlength
    omega
  · rw [← le_maxMemorySolvers_iff (by omega)]
    by_cases hask : p.AsksForAll
    · have hn := nSolvers_of_asksForAll hask
      have hthree : p.wkrStrat ≠ 3 := fun h => hask (by omega)
      rw [if_neg hthree] at hlength
      simp only [hask, true_and]
      omega
    · simp only [hask, false_and, or_false]
      obtain ⟨hthree, hn⟩ | ⟨hthree, hn⟩ := nSolvers_of_not_asksForAll hask
      · rw [if_neg hthree] at hlength
        omega
      · rw [if_pos hthree] at hlength
        omega

/-- A portfolio of four Glucose solvers with one gigabyte of memory, of which the
first solver takes 600000 kilobytes. -/
def largeFormula : Setting where
  engine := .glucose
  cpus := 4
  wkrStrat := 1
  copyMode := 1
  shrStrat := 0
  mpiRank := 0
  maxMemory := 1
  memoryUsed := ⟨600000, by omega⟩

theorem largeFormula_readsForAll : largeFormula.ReadsForAll := by
  unfold ReadsForAll largeFormula
  decide

theorem reads_lt_length_largeFormula :
    (∀ i ∈ largeFormula.reads, i < largeFormula.solvers.length) ↔ largeFormula.SolversFit :=
  reads_lt_length_iff largeFormula largeFormula_readsForAll

/-- One solver is created, and solvers[1] is read. -/
theorem exists_read_past_vector :
    ¬ ∀ p : Setting, p.ReadsForAll → ∀ i ∈ p.reads, i < p.solvers.length := by
  intro h
  have hread : 1 ∈ largeFormula.reads := by decide
  have hlength : largeFormula.solvers.length = 1 := by decide
  have hlt := h largeFormula largeFormula_readsForAll 1 hread
  omega

end Setting

end Painless.SolverVector
