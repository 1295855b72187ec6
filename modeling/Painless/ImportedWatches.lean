import Painless.MapleSolver

/-!
The import of shared clauses at decision level 0, in the MiniSat and in the Maple
engine. Propagation visits the watchers of the trail from qhead on, so an
attached clause must not watch a literal that an entry before qhead has made
false. Maple drops false literals first; MiniSat attaches a clause as it comes.
The assignment is read off the trail. The activities, which the import bumps
and which decide no watch, are left out.
-/
namespace Painless.ImportedWatches

open Cnf PartialAssignment MapleSolver

/-! ### The engines -/

/-- The references of clauses are indices into the clause allocator. -/
structure Watcher where
  cref : ℕ
  blocker : Literal ℕ

/-- A clause in the queue of a solver. -/
structure ClauseExchange where
  lits : List ℤ
  size : 2 ≤ lits.length

/-- What the two engines have in common. -/
structure Solver where
  trail : List (Literal ℕ)
  qhead : ℕ
  qheadLe : qhead ≤ trail.length
  ca : List (Clause ℕ)
  watches : Literal ℕ → List Watcher

def Solver.value (s : Solver) : Partial ℕ := fun v =>
  (s.trail.find? fun l => l.1 = v).map Prod.snd

def Solver.uncheckedEnqueue (s : Solver) (p : Literal ℕ) : Solver :=
  { s with
    trail := s.trail ++ [p]
    qheadLe := by
      rw [List.length_append]
      exact Nat.le_add_right_of_le s.qheadLe }

def pushWatch (ws : Literal ℕ → List Watcher) (p : Literal ℕ) (w : Watcher) :
    Literal ℕ → List Watcher :=
  Function.update ws p (ws p ++ [w])

/-- The two watchers of a clause that starts with `a` and `b`. -/
def attach (ws : Literal ℕ → List Watcher) (cr : ℕ) (a b : Literal ℕ) :
    Literal ℕ → List Watcher :=
  pushWatch (pushWatch ws (negate a) ⟨cr, b⟩) (negate b) ⟨cr, a⟩

structure MiniSat extends Solver where
  learnts : List ℕ
  numLearnts : ℕ
  learntsLiterals : ℕ

namespace MiniSat

def importUnitClauses : MiniSat → List ℤ → MiniSat
  | s, [] => s
  | s, lit :: rest =>
    let l := miniLit lit
    if s.value l.1 = none then
      importUnitClauses { s with toSolver := s.uncheckedEnqueue l } rest
    else importUnitClauses s rest

/-- For a learnt clause, which has more than one literal. -/
def attachClause (s : MiniSat) (cr : ℕ) : MiniSat :=
  match s.ca[cr]? with
  | some (a :: b :: rest) =>
    { s with
      watches := attach s.watches cr a b
      numLearnts := s.numLearnts + 1
      learntsLiterals := s.learntsLiterals + (a :: b :: rest).length }
  | _ => s

def importClause (s : MiniSat) (c : ClauseExchange) : MiniSat :=
  let cr := s.ca.length
  let s := { s with ca := s.ca ++ [miniVec c.lits], learnts := s.learnts ++ [cr] }
  s.attachClause cr

def importClauses (s : MiniSat) (queue : List ClauseExchange) : MiniSat :=
  queue.foldl importClause s

end MiniSat

/-- The marks of learnt clauses. -/
inductive Tier where
  | loc
  | tier2
  | core

structure Maple extends Solver where
  watchesBin : Literal ℕ → List Watcher
  learntsCore : List ℕ
  learntsTier2 : List ℕ
  learntsLocal : List ℕ
  lbd : ℕ → ℕ
  mark : ℕ → Tier
  touched : ℕ → ℕ
  coreLbdCut : ℕ
  conflicts : ℕ
  learntsLiterals : ℕ

namespace Maple

/-- False where a unit is false already. -/
def importUnitClauses : Maple → List ℤ → Maple × Bool
  | s, [] => (s, true)
  | s, lit :: rest =>
    let l := miniLit lit
    if s.value l.1 = none then
      importUnitClauses { s with toSolver := s.uncheckedEnqueue l } rest
    else if s.value l.1 = some (!l.2) then (s, false)
    else importUnitClauses s rest

/-- Clauses of two literals have watches of their own. -/
def attachClause (s : Maple) (cr : ℕ) : Maple :=
  match s.ca[cr]? with
  | some [a, b] =>
    { s with
      watchesBin := attach s.watchesBin cr a b
      learntsLiterals := s.learntsLiterals + 2 }
  | some (a :: b :: rest) =>
    { s with
      watches := attach s.watches cr a b
      learntsLiterals := s.learntsLiterals + (a :: b :: rest).length }
  | _ => s

/-- The clause goes to the tier of its lbd, which is taken to be its size. -/
def addLearnt (s : Maple) (c : Clause ℕ) : Maple :=
  let cr := s.ca.length
  let lbd := c.length
  let s := { s with ca := s.ca ++ [c], lbd := Function.update s.lbd cr lbd }
  if lbd ≤ s.coreLbdCut then
    { s with learntsCore := s.learntsCore ++ [cr], mark := Function.update s.mark cr .core }
  else if lbd ≤ 6 then
    { s with
      learntsTier2 := s.learntsTier2 ++ [cr]
      mark := Function.update s.mark cr .tier2
      touched := Function.update s.touched cr s.conflicts }
  else { s with learntsLocal := s.learntsLocal ++ [cr] }

/-- The clause is simplified under the assignment first. -/
def importClause (s : Maple) (c : ClauseExchange) : Maple × Bool :=
  let lits := miniVec c.lits
  if lits.any fun l => s.value l.1 == some l.2 then (s, true)
  else
    match lits.filter fun l => s.value l.1 == none with
    | [] => (s, false)
    | [l] => ({ s with toSolver := s.uncheckedEnqueue l }, true)
    | l :: m :: rest => ((s.addLearnt (l :: m :: rest)).attachClause s.ca.length, true)

/-- False where a clause has no literal left. -/
def importClauses : Maple → List ClauseExchange → Maple × Bool
  | s, [] => (s, true)
  | s, c :: rest =>
    match s.importClause c with
    | (t, true) => importClauses t rest
    | (t, false) => (t, false)

end Maple

/-! ### The watch invariant -/

inductive Engine where
  | minisat (s : MiniSat)
  | maple (s : Maple)

namespace Engine

def solver : Engine → Solver
  | minisat s => s.toSolver
  | maple s => s.toSolver

/-- The watches in which propagation looks for a clause of this size. -/
def watchers : Engine → ℕ → Literal ℕ → List Watcher
  | minisat s, _ => s.watches
  | maple s, size => if size = 2 then s.watchesBin else s.watches

def importClauses (e : Engine) (queue : List ClauseExchange) : Engine :=
  match e with
  | minisat s => minisat (s.importClauses queue)
  | maple s => maple (s.importClauses queue).1

end Engine

/-- An entry that propagation has passed makes the literal false. -/
def Solver.Passed (s : Solver) (l : Literal ℕ) : Prop := negate l ∈ s.trail.take s.qhead

instance (s : Solver) (l : Literal ℕ) : Decidable (s.Passed l) :=
  inferInstanceAs (Decidable (_ ∈ _))

/-- The clause is watched by two literals, neither of them false by an entry
before qhead. -/
def Engine.Watches (e : Engine) (cr : ℕ) (c : Clause ℕ) : Prop :=
  ∃ a b rest, c = a :: b :: rest ∧
    ⟨cr, b⟩ ∈ e.watchers c.length (negate a) ∧ ⟨cr, a⟩ ∈ e.watchers c.length (negate b) ∧
    ¬ e.solver.Passed a ∧ ¬ e.solver.Passed b

/-- All clauses attached between the two states are watched so. -/
def KeepsWatches (before after : Engine) : Prop :=
  ∀ cr c, before.solver.ca.length ≤ cr → after.solver.ca[cr]? = some c → after.Watches cr c

/-- Maple can import every queue, MiniSat one in which no clause starts with a
literal that is false by an entry before qhead, nor has one in second place. -/
def Engine.Importable (e : Engine) (queue : List ClauseExchange) : Prop :=
  match e with
  | .minisat s => ∀ c ∈ queue, ∀ l ∈ (miniVec c.lits).take 2, ¬ s.Passed l
  | .maple _ => True

/-! ### One clause -/

theorem mem_pushWatch (ws : Literal ℕ → List Watcher) (p q : Literal ℕ) (w v : Watcher) :
    v ∈ pushWatch ws p w q ↔ v ∈ ws q ∨ (q = p ∧ v = w) := by
  unfold pushWatch
  by_cases hq : q = p
  · simp [hq]
  · simp [hq]

theorem mem_attach_of_mem {ws : Literal ℕ → List Watcher} {cr : ℕ} {a b q : Literal ℕ}
    {v : Watcher} (h : v ∈ ws q) : v ∈ attach ws cr a b q :=
  (mem_pushWatch _ _ _ _ _).mpr (Or.inl ((mem_pushWatch _ _ _ _ _).mpr (Or.inl h)))

theorem attach_mem (ws : Literal ℕ → List Watcher) (cr : ℕ) (a b : Literal ℕ) :
    ⟨cr, b⟩ ∈ attach ws cr a b (negate a) ∧ ⟨cr, a⟩ ∈ attach ws cr a b (negate b) :=
  ⟨(mem_pushWatch _ _ _ _ _).mpr (Or.inl ((mem_pushWatch _ _ _ _ _).mpr (Or.inr ⟨rfl, rfl⟩))),
    (mem_pushWatch _ _ _ _ _).mpr (Or.inr ⟨rfl, rfl⟩)⟩

/-- The clauses from `base` on are watched as they should be. -/
def Kept (base : ℕ) (e : Engine) : Prop :=
  ∀ cr c, base ≤ cr → e.solver.ca[cr]? = some c → e.Watches cr c

theorem Engine.Watches.mono {e e' : Engine} {cr : ℕ} {c : Clause ℕ} (h : e.Watches cr c)
    (hpassed : ∀ l, e'.solver.Passed l ↔ e.solver.Passed l)
    (hold : ∀ n p w, w ∈ e.watchers n p → w ∈ e'.watchers n p) : e'.Watches cr c := by
  obtain ⟨a, b, rest, hc, hfirst, hsecond, ha, hb⟩ := h
  exact ⟨a, b, rest, hc, hold _ _ _ hfirst, hold _ _ _ hsecond,
    fun h => ha ((hpassed a).mp h), fun h => hb ((hpassed b).mp h)⟩

/-- A clause is attached by two literals that no passed entry makes false. -/
theorem Kept.attach {base : ℕ} {e e' : Engine} {a b : Literal ℕ} {rest : Clause ℕ}
    (h : Kept base e) (hca : e'.solver.ca = e.solver.ca ++ [a :: b :: rest])
    (hpassed : ∀ l, e'.solver.Passed l ↔ e.solver.Passed l)
    (hold : ∀ n p w, w ∈ e.watchers n p → w ∈ e'.watchers n p)
    (hfirst : ⟨e.solver.ca.length, b⟩ ∈ e'.watchers (a :: b :: rest).length (negate a))
    (hsecond : ⟨e.solver.ca.length, a⟩ ∈ e'.watchers (a :: b :: rest).length (negate b))
    (ha : ¬ e.solver.Passed a) (hb : ¬ e.solver.Passed b) : Kept base e' := by
  intro cr c hcr hget
  rw [hca] at hget
  by_cases hlt : cr < e.solver.ca.length
  · rw [List.getElem?_append_left hlt] at hget
    exact (h cr c hcr hget).mono hpassed hold
  · rw [List.getElem?_append_right (by omega)] at hget
    have hzero : cr - e.solver.ca.length = 0 := by
      by_contra hne
      rw [List.getElem?_eq_none (by simp only [List.length_singleton]; omega)] at hget
      exact absurd hget (by simp)
    obtain rfl : cr = e.solver.ca.length := by omega
    rw [hzero] at hget
    obtain rfl := Option.some.inj hget
    exact ⟨a, b, rest, rfl, hfirst, hsecond, fun h => ha ((hpassed a).mp h),
      fun h => hb ((hpassed b).mp h)⟩

theorem passed_uncheckedEnqueue (s : Solver) (p l : Literal ℕ) :
    (s.uncheckedEnqueue p).Passed l ↔ s.Passed l := by
  unfold Solver.Passed Solver.uncheckedEnqueue
  rw [List.take_append_of_le_length s.qheadLe]

/-- A literal without a value is on no entry of the trail. -/
theorem not_passed_of_value_none {s : Solver} {l : Literal ℕ} (h : s.value l.1 = none) :
    ¬ s.Passed l := by
  intro hmem
  have hfind : s.trail.find? (fun p => p.1 = l.1) = none := Option.map_eq_none_iff.mp h
  exact List.find?_eq_none.mp hfind (negate l) (List.mem_of_mem_take hmem) (by simp [negate])

/-! ### MiniSat -/

theorem ClauseExchange.miniVec_eq (c : ClauseExchange) :
    ∃ a b rest, miniVec c.lits = a :: b :: rest := by
  obtain ⟨lits, hsize⟩ := c
  match lits, hsize with
  | l :: m :: rest, _ => exact ⟨miniLit l, miniLit m, miniVec rest, rfl⟩

/-- The clause is attached as it comes. -/
theorem MiniSat.importClause_eq (s : MiniSat) (c : ClauseExchange) {a b : Literal ℕ}
    {rest : Clause ℕ} (hc : miniVec c.lits = a :: b :: rest) :
    s.importClause c = { s with
      ca := s.ca ++ [a :: b :: rest]
      watches := ImportedWatches.attach s.watches s.ca.length a b
      learnts := s.learnts ++ [s.ca.length]
      numLearnts := s.numLearnts + 1
      learntsLiterals := s.learntsLiterals + (a :: b :: rest).length } := by
  simp only [MiniSat.importClause, MiniSat.attachClause, hc]
  rw [List.getElem?_append_right (Nat.le_refl _), Nat.sub_self]
  rfl

theorem MiniSat.importClauses_frame (s : MiniSat) (queue : List ClauseExchange) :
    (s.importClauses queue).trail = s.trail ∧ (s.importClauses queue).qhead = s.qhead ∧
      (s.importClauses queue).ca = s.ca ++ queue.map fun c => miniVec c.lits := by
  unfold MiniSat.importClauses
  induction queue generalizing s with
  | nil => simp
  | cons c rest ih =>
    obtain ⟨a, b, lits, hc⟩ := c.miniVec_eq
    obtain ⟨htrail, hqhead, hca⟩ := ih (s.importClause c)
    rw [List.foldl_cons, htrail, hqhead, hca, s.importClause_eq c hc, List.map_cons, hc]
    simp

theorem MiniSat.passed_importClauses (s : MiniSat) (queue : List ClauseExchange)
    (l : Literal ℕ) : (s.importClauses queue).Passed l ↔ s.Passed l := by
  obtain ⟨htrail, hqhead, -⟩ := s.importClauses_frame queue
  rw [Solver.Passed, htrail, hqhead, Solver.Passed]

theorem MiniSat.kept_importClauses {base : ℕ} {s : MiniSat} (h : Kept base (.minisat s))
    (queue : List ClauseExchange) (hqueue : (Engine.minisat s).Importable queue) :
    Kept base (.minisat (s.importClauses queue)) := by
  unfold MiniSat.importClauses
  induction queue generalizing s with
  | nil => exact h
  | cons c rest ih =>
    obtain ⟨a, b, lits, hc⟩ := c.miniVec_eq
    have hfirst := hqueue c List.mem_cons_self
    rw [hc] at hfirst
    have heq := s.importClause_eq c hc
    have hpassed (l : Literal ℕ) : (s.importClause c).Passed l ↔ s.Passed l := by
      rw [heq]
      rfl
    refine ih (s := s.importClause c) ?_ ?_
    · rw [heq] at hpassed ⊢
      exact Kept.attach h rfl hpassed (fun _ _ _ hw => mem_attach_of_mem hw)
        (attach_mem s.watches s.ca.length a b).1 (attach_mem s.watches s.ca.length a b).2
        (hfirst a (by simp)) (hfirst b (by simp))
    · intro d hd l hl
      rw [hpassed]
      exact hqueue d (List.mem_cons_of_mem c hd) l hl

/-! ### Maple -/

theorem Maple.addLearnt_frame (s : Maple) (c : Clause ℕ) :
    (s.addLearnt c).toSolver = { s.toSolver with ca := s.ca ++ [c] } ∧
      (s.addLearnt c).watchesBin = s.watchesBin := by
  unfold Maple.addLearnt
  dsimp only
  split_ifs <;> exact ⟨rfl, rfl⟩

/-- The clause is attached in the watches of its size. -/
theorem Maple.attachClause_spec (s : Maple) {cr : ℕ} {a b : Literal ℕ} {rest : Clause ℕ}
    (hc : s.ca[cr]? = some (a :: b :: rest)) :
    (s.attachClause cr).ca = s.ca ∧ (s.attachClause cr).trail = s.trail ∧
      (s.attachClause cr).qhead = s.qhead ∧
      ∀ n, (Engine.maple (s.attachClause cr)).watchers n =
        if (n = 2 ↔ (a :: b :: rest).length = 2) then
          attach ((Engine.maple s).watchers n) cr a b
        else (Engine.maple s).watchers n := by
  unfold Maple.attachClause
  cases rest with
  | nil =>
    rw [hc]
    refine ⟨rfl, rfl, rfl, fun n => ?_⟩
    by_cases hn : n = 2 <;> simp [Engine.watchers, hn]
  | cons l rest =>
    rw [hc]
    refine ⟨rfl, rfl, rfl, fun n => ?_⟩
    by_cases hn : n = 2 <;> simp [Engine.watchers, hn]

/-- A step of Maple's loop leaves every clause from `base` on watched. -/
theorem Maple.kept_importClause {base : ℕ} {s : Maple} (h : Kept base (.maple s))
    (c : ClauseExchange) : Kept base (.maple (s.importClause c).1) := by
  unfold Maple.importClause
  dsimp only
  split_ifs with hsat
  · exact h
  · split
    · exact h
    · -- a unit goes behind qhead
      intro cr d hcr hget
      exact (h cr d hcr hget).mono (passed_uncheckedEnqueue s.toSolver _) (fun _ _ _ hw => hw)
    · rename_i l m rest hlits
      have hvalue (p : Literal ℕ) (hp : p ∈ l :: m :: rest) : s.value p.1 = none := by
        rw [← hlits] at hp
        simpa using (List.mem_filter.mp hp).2
      obtain ⟨hframe, hbin⟩ := s.addLearnt_frame (l :: m :: rest)
      have hget : (s.addLearnt (l :: m :: rest)).ca[s.ca.length]? = some (l :: m :: rest) := by
        rw [hframe, List.getElem?_append_right (Nat.le_refl _), Nat.sub_self]
        rfl
      obtain ⟨hca, htrail, hqhead, hwatchers⟩ := Maple.attachClause_spec _ hget
      have hsame (n : ℕ) : (Engine.maple (s.addLearnt (l :: m :: rest))).watchers n =
          (Engine.maple s).watchers n := by
        simp only [Engine.watchers, hframe, hbin]
      have hcaNew : ((s.addLearnt (l :: m :: rest)).attachClause s.ca.length).ca =
          s.ca ++ [l :: m :: rest] := by
        rw [hca, hframe]
      refine Kept.attach h hcaNew (fun p => ?_) (fun n p w hw => ?_) ?_ ?_
        (not_passed_of_value_none (hvalue l (by simp)))
        (not_passed_of_value_none (hvalue m (by simp)))
      · show (Maple.attachClause _ _).Passed p ↔ _
        rw [Solver.Passed, htrail, hqhead, hframe]
        rfl
      · rw [hwatchers, hsame]
        split_ifs
        · exact mem_attach_of_mem hw
        · exact hw
      · rw [hwatchers, if_pos Iff.rfl]
        exact (attach_mem _ _ l m).1
      · rw [hwatchers, if_pos Iff.rfl]
        exact (attach_mem _ _ l m).2

theorem Maple.kept_importClauses {base : ℕ} {s : Maple} (h : Kept base (.maple s))
    (queue : List ClauseExchange) : Kept base (.maple (s.importClauses queue).1) := by
  induction queue generalizing s with
  | nil => exact h
  | cons c rest ih =>
    have hstep := Maple.kept_importClause h c
    rw [Maple.importClauses]
    split
    · rename_i t heq
      rw [heq] at hstep
      exact ih hstep
    · rename_i t heq
      rw [heq] at hstep
      exact hstep

/-! ### Both engines -/

theorem kept_length (e : Engine) : Kept e.solver.ca.length e := by
  intro cr c hcr hget
  rw [List.getElem?_eq_none hcr] at hget
  exact absurd hget (by simp)

/-- All clauses that an import attaches watch literals that propagation is still
to look at or that are not false, exactly if the engine simplifies the clauses
or none of them starts with two literals of which a passed entry makes one
false. -/
theorem keepsWatches_iff (e : Engine) (queue : List ClauseExchange) :
    KeepsWatches e (e.importClauses queue) ↔ e.Importable queue := by
  cases e with
  | maple s => exact ⟨fun _ => trivial, fun _ => Maple.kept_importClauses (kept_length _) queue⟩
  | minisat s =>
    refine ⟨fun hkeeps c hc l hl => ?_, MiniSat.kept_importClauses (kept_length _) queue⟩
    obtain ⟨-, -, hca⟩ := s.importClauses_frame queue
    obtain ⟨i, hi, rfl⟩ := List.getElem_of_mem hc
    have hget : (s.importClauses queue).ca[s.ca.length + i]? = some (miniVec queue[i].lits) := by
      rw [hca, List.getElem?_append_right (Nat.le_add_right _ _), Nat.add_sub_cancel_left,
        List.getElem?_map, List.getElem?_eq_getElem hi]
      rfl
    obtain ⟨a, b, rest, heq, -, -, ha, hb⟩ := hkeeps _ _ (Nat.le_add_right _ _) hget
    rw [heq] at hl
    rw [← s.passed_importClauses queue]
    rcases List.mem_pair.mp hl with rfl | rfl
    · exact ha
    · exact hb

/-- x1 is false at decision level 0, and this has been propagated. -/
def propagated : MiniSat where
  trail := [(0, false)]
  qhead := 1
  qheadLe := Nat.le_refl 1
  ca := []
  watches := fun _ => []
  learnts := []
  numLearnts := 0
  learntsLiterals := 0

/-- The clause of x1 and x2 watches x1, although it is a unit by now. -/
theorem minisat_watches_false_literal :
    ¬ ∀ (e : Engine) (queue : List ClauseExchange), KeepsWatches e (e.importClauses queue) := by
  intro h
  have hget : (propagated.importClauses [⟨[1, 2], Nat.le_refl 2⟩]).ca[0]? =
      some [(0, true), (1, true)] := by decide
  obtain ⟨a, b, rest, heq, -, -, ha, -⟩ := h (.minisat propagated) _ 0 _ (Nat.zero_le _) hget
  obtain ⟨rfl, -⟩ := List.cons.inj heq
  apply ha
  show (propagated.importClauses _).Passed _
  decide

end Painless.ImportedWatches
