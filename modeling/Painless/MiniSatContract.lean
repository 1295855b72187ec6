import Painless.MiniSatExports
import Painless.MapleSolver
import Painless.SearchContract

/-!
The MiniSat engine inside its wrapper. It loads the formula, searches without
assumptions, and takes what the import callbacks give it; so it keeps the contract
of a solver that takes part in the sharing of clauses.
-/
namespace Painless.MiniSatContract

open Cnf PartialAssignment MiniSatCore MiniSatSearch MiniSatTurns MiniSatRuns
open MiniSatExports SearchContract
open MapleSolver (miniLit miniVec)
open Transitions (Machine)

variable {n : ℕ} {f : Formula ℕ} {s t : State}

/-! ### The formula -/

def lastVar (c : List ℤ) : ℕ := (c.map Int.natAbs).foldl max 0

/-- readClause makes the variables up to those of the clause; then the clause is
added. There are `n` variables before. -/
def readClause (n : ℕ) (c : List ℤ) : List Action :=
  List.replicate (lastVar c - n) (.newVar true) ++ [.addClause (miniVec c)]

/-- The calls of parse_DIMACS_main. -/
def parseCalls : ℕ → List (List ℤ) → List Action
  | _, [] => []
  | n, c :: F => readClause n c ++ parseCalls (max n (lastVar c)) F

/-- The variables that the clauses leave of `n`. -/
def varCount : ℕ → List (List ℤ) → ℕ
  | n, [] => n
  | n, c :: F => varCount (max n (lastVar c)) F

def Loaded (F : List (List ℤ)) (s : State) : Prop :=
  ∃ ccminMode, machine.run (init ccminMode) (parseCalls 0 F) = some s

theorem natAbs_le_lastVar {c : List ℤ} {l : ℤ} (hl : l ∈ c) : l.natAbs ≤ lastVar c := by
  have hgrow (ns : List ℕ) : ∀ m, m ≤ ns.foldl max m ∧ ∀ k ∈ ns, k ≤ ns.foldl max m := by
    induction ns with
    | nil => exact fun m => ⟨le_rfl, fun k hk => absurd hk List.not_mem_nil⟩
    | cons k rest ih =>
      intro m
      obtain ⟨hm, hrest⟩ := ih (max m k)
      refine ⟨(le_max_left m k).trans hm, List.forall_mem_cons.mpr ⟨?_, hrest⟩⟩
      exact (le_max_right m k).trans hm
  exact (hgrow (c.map Int.natAbs) 0).2 _ (List.mem_map_of_mem hl)

theorem le_varCount (F : List (List ℤ)) (n : ℕ) : n ≤ varCount n F := by
  induction F generalizing n with
  | nil => exact le_rfl
  | cons c F ih => exact (le_max_left n (lastVar c)).trans (ih _)

theorem lastVar_le_varCount {F : List (List ℤ)} {n : ℕ} {c : List ℤ} (hc : c ∈ F) :
    lastVar c ≤ varCount n F := by
  induction F generalizing n with
  | nil => exact absurd hc List.not_mem_nil
  | cons d F ih =>
    rcases List.mem_cons.mp hc with rfl | hc
    · exact (le_max_right n (lastVar c)).trans (le_varCount F _)
    · exact ih hc

/-- Between the calls while the formula is loaded. -/
structure Loading (n : ℕ) (f : Formula ℕ) (s : State) : Prop where
  pc : s.pc = .idle
  nVars : s.solver.nVars = n
  decision : ∀ v < n, s.solver.decision v = true
  assumptions : s.solver.assumptions = []
  formula : s.formula = f
  imported : s.imported = []
  answer : s.answer = none

theorem Loading.newVar (h : Loading n f s) (hstep : step s (.newVar true) = some t) :
    Loading (n + 1) f t := by
  obtain ⟨-, rfl⟩ : s.pc = .idle ∧ _ = t := by
    simpa [step] using hstep
  refine ⟨h.pc, congrArg (· + 1) h.nVars, fun v hv => ?_, h.assumptions, h.formula, h.imported,
    rfl⟩
  show Function.update s.solver.decision s.solver.nVars true v = true
  rw [Function.update_apply]
  split_ifs with heq
  · rfl
  · rw [h.nVars] at heq
    exact h.decision v (by omega)

theorem Loading.newVars (h : Loading n f s) (k : ℕ)
    (hrun : machine.run s (List.replicate k (.newVar true)) = some t) :
    Loading (n + k) f t := by
  induction k generalizing n s with
  | zero =>
    obtain rfl : s = t := Option.some.inj hrun
    exact h
  | succ k ih =>
    rw [List.replicate_succ, Machine.run_cons] at hrun
    obtain ⟨u, hu, hrest⟩ := Option.bind_eq_some_iff.mp hrun
    have hnext := ih (h.newVar hu) hrest
    rwa [Nat.add_assoc, Nat.add_comm 1 k] at hnext

theorem addClause_kept (s : Solver) (ps : Clause ℕ) : Kept s (s.addClause ps).1 := by
  unfold Solver.addClause
  split_ifs
  · exact Kept.refl s
  · cases Solver.simplifyLits s.assigns none
        (ps.insertionSort fun a b => Solver.index a ≤ Solver.index b) with
    | none => exact Kept.refl s
    | some lits =>
      match lits with
      | [] => exact ⟨rfl, rfl, rfl⟩
      | [p] => exact ⟨MiniSatDecisions.nVars_propagateLoop _ _, rfl, rfl⟩
      | p :: q :: rest => exact ⟨rfl, rfl, rfl⟩

theorem Loading.addClause (h : Loading n f s) {ps : Clause ℕ}
    (hstep : step s (.addClause ps) = some t) : Loading n (f ++ [ps]) t := by
  obtain ⟨-, rfl⟩ : (s.pc = .idle ∧ InRange s.solver.toCore ps) ∧ _ = t := by
    simpa [step] using hstep
  have hkept := addClause_kept s.solver ps
  refine ⟨h.pc, hkept.nVars.trans h.nVars, fun v hv => ?_, hkept.assumptions.trans h.assumptions,
    congrArg (· ++ [ps]) h.formula, h.imported, rfl⟩
  show (s.solver.addClause ps).1.decision v = true
  rw [hkept.decision]
  exact h.decision v hv

theorem Loading.readClause (h : Loading n f s) (c : List ℤ)
    (hrun : machine.run s (readClause n c) = some t) :
    Loading (max n (lastVar c)) (f ++ [miniVec c]) t := by
  unfold MiniSatContract.readClause at hrun
  rw [Machine.run_append] at hrun
  obtain ⟨u, hu, hadd⟩ := Option.bind_eq_some_iff.mp hrun
  have hvars := h.newVars _ hu
  have hmax : n + (lastVar c - n) = max n (lastVar c) := by omega
  rw [hmax] at hvars
  obtain ⟨w, hw, hend⟩ := Option.bind_eq_some_iff.mp hadd
  obtain rfl : w = t := Option.some.inj hend
  exact hvars.addClause hw

theorem Loading.parse (h : Loading n f s) (F : List (List ℤ))
    (hrun : machine.run s (parseCalls n F) = some t) :
    Loading (varCount n F) (f ++ F.map miniVec) t := by
  induction F generalizing n f s with
  | nil =>
    obtain rfl : s = t := Option.some.inj hrun
    rw [List.map_nil, List.append_nil]
    exact h
  | cons c F ih =>
    unfold parseCalls at hrun
    rw [Machine.run_append] at hrun
    obtain ⟨u, hu, hrest⟩ := Option.bind_eq_some_iff.mp hrun
    have hnext := ih (h.readClause c hu) hrest
    rwa [List.append_assoc] at hnext

theorem loading_init (ccminMode : ℕ) : Loading 0 [] (init ccminMode) :=
  ⟨rfl, rfl, fun v hv => absurd hv (Nat.not_lt_zero v), rfl, rfl, rfl, rfl⟩

/-! ### The engine -/

/-- attachClause asserts that there are two literals. -/
def watched : Clause ℕ → Option (Literal ℕ × Literal ℕ × Clause ℕ)
  | p :: q :: rest => some (p, q, rest)
  | _ => none

def learned : Solver.Outcome → Option (Clause ℕ)
  | .learnt _ c => some c
  | _ => none

/-- A turn with what the callbacks have given; `i` says the rest. Without two
literals, or with unknown or repeated variables, it counts as failed. -/
def turn (s : State) (i : Input) (units : List (Literal ℕ)) (clauses : Formula ℕ) :
    Option (State × Option (Clause ℕ)) :=
  if s.pc = .searching then
    match clauses.mapM watched with
    | none => some ({ s with pc := .stuck }, none)
    | some imports =>
      let i : Input := { i with units := units, imports := imports }
      match step s (.turn i) with
      | none => some ({ s with pc := .stuck }, none)
      | some t => some (t, learned (s.solver.turn i))
  else none

def engine : Engine State Input where
  nVars s := s.solver.nVars
  solve s := step s (.solve [])
  turn := turn
  importing s := decide (s.pc = .searching ∧ s.solver.decisionLevel = 0)
  status s := s.answer
  model s := s.solver.model
  failed s := decide (s.pc = .stuck)

/-- The engine was given the formula, and nothing but consequences of it. -/
structure WorksFor (n : ℕ) (f : Formula ℕ) (s : State) : Prop where
  ok : StateOk (· = false) s
  nVars : s.solver.nVars = n
  decision : ∀ v < n, s.solver.decision v = true
  assumptions : s.solver.assumptions = []
  formula : s.formula = f
  imported : ∀ σ, FormulaHolds σ f → FormulaHolds σ s.imported
  answered : s.answer ≠ none → s.pc = .idle

theorem WorksFor.given (h : WorksFor n f s) {σ : Assignment ℕ} (hσ : FormulaHolds σ f) :
    FormulaHolds σ (s.formula ++ s.imported) := by
  rw [h.formula]
  exact (formulaHolds_append σ f s.imported).mpr ⟨hσ, h.imported σ hσ⟩

theorem worksFor_of_loaded {F : List (List ℤ)} (h : Loaded F s) :
    WorksFor (varCount 0 F) (F.map miniVec) s := by
  obtain ⟨ccminMode, hrun⟩ := h
  have hloading := (loading_init ccminMode).parse F hrun
  have hreach : machine.Reach (fun _ _ => True) s := Machine.Reach.of_run ⟨ccminMode, rfl⟩ hrun
  refine ⟨stateOk_of_reach hreach, hloading.nVars, hloading.decision, hloading.assumptions,
    hloading.formula, fun σ _ => ?_, fun hanswer => absurd hloading.answer hanswer⟩
  rw [hloading.imported]
  exact fun c hc => absurd hc List.not_mem_nil

theorem WorksFor.solve (h : WorksFor n f s) (hstep : step s (.solve []) = some t) :
    WorksFor n f t := by
  have hok := stateOk_step (a := .solve []) h.ok hstep
  obtain ⟨⟨hidle, -⟩, rfl⟩ : (s.pc = .idle ∧ InRange s.solver.toCore []) ∧ _ = t := by
    simpa [step] using hstep
  unfold State.solve at hok ⊢
  dsimp only at hok ⊢
  split_ifs at hok ⊢
  · exact ⟨hok, h.nVars, h.decision, rfl, h.formula, h.imported, fun hanswer => absurd rfl hanswer⟩
  · exact ⟨hok, h.nVars, h.decision, rfl, h.formula, h.imported, fun _ => hidle⟩

/-! ### A turn -/

theorem mapM_watched {clauses : Formula ℕ} (h : ∀ c ∈ clauses, 2 ≤ c.length) :
    ∃ imports, clauses.mapM watched = some imports ∧ imports.map clauseOf = clauses := by
  induction clauses with
  | nil => exact ⟨[], rfl, rfl⟩
  | cons c clauses ih =>
    obtain ⟨hc, hrest⟩ := List.forall_mem_cons.mp h
    obtain ⟨imports, himports, hsame⟩ := ih hrest
    match c, hc with
    | p :: q :: rest, _ =>
      refine ⟨(p, q, rest) :: imports, ?_, congrArg ((p :: q :: rest) :: ·) hsame⟩
      rw [List.mapM_cons, himports]
      rfl

/-- What the callbacks give may be given to the engine. -/
structure Given (n : ℕ) (f : Formula ℕ) (i : Input) : Prop where
  units : ∀ l ∈ i.units, Shareable n f [l]
  imports : ∀ c ∈ i.imports, Shareable n f (clauseOf c)

theorem Given.valid {i : Input} (h : Given n f i) {c : Core} (hvars : c.nVars = n) :
    i.Valid c := by
  subst hvars
  exact ⟨fun l hl => (h.units l hl).inRange l (List.mem_singleton_self l),
    fun c hc => ⟨(h.imports c hc).inRange, (h.imports c hc).distinct⟩⟩

theorem Given.follows {i : Input} (h : Given n f i) (c : Core) {σ : Assignment ℕ}
    (hσ : FormulaHolds σ f) : FormulaHolds σ (i.imported c) := by
  unfold Input.imported
  split_ifs
  · rw [formulaHolds_append]
    refine ⟨fun d hd => ?_, fun d hd => ?_⟩
    · obtain ⟨l, hl, rfl⟩ := List.mem_map.mp hd
      exact (h.units l hl).follows σ hσ
    · obtain ⟨e, he, rfl⟩ := List.mem_map.mp hd
      exact (h.imports e he).follows σ hσ
  · exact fun d hd => absurd hd List.not_mem_nil

theorem after_frame (x : State) (o : Solver.Outcome) :
    (x.after o).formula = x.formula ∧ (x.after o).imported = x.imported := by
  cases o <;> exact ⟨rfl, rfl⟩

theorem after_answered {x : State} (hanswer : x.answer = none) (o : Solver.Outcome) :
    (x.after o).answer ≠ none → (x.after o).pc = .idle := by
  cases o with
  | answer t status => exact fun _ => rfl
  | next t => exact fun h => absurd hanswer h
  | learnt t c => exact fun h => absurd hanswer h
  | stuck => exact fun h => absurd hanswer h

theorem WorksFor.turn (h : WorksFor n f s) (hpc : s.pc = .searching) {i : Input}
    (hgiven : Given n f i) (hstep : step s (.turn i) = some t) : WorksFor n f t := by
  have hok := stateOk_step (a := .turn i) h.ok hstep
  obtain ⟨-, rfl⟩ : (s.pc = .searching ∧ i.Valid s.solver.toCore) ∧ _ = t := by
    simpa [step] using hstep
  have hnone : s.answer = none := by
    by_contra hanswer
    exact Pc.noConfusion (hpc.symm.trans (h.answered hanswer))
  have hkept := kept_after (x := { s with
    imported := s.imported ++ i.imported s.solver.toCore }) (turn_kept s.solver i) rfl
  obtain ⟨hformula, himported⟩ := after_frame { s with
    imported := s.imported ++ i.imported s.solver.toCore } (s.solver.turn i)
  refine ⟨hok, hkept.nVars.trans h.nVars, fun v hv => ?_, hkept.assumptions.trans h.assumptions,
    hformula.trans h.formula, fun σ hσ => ?_,
    after_answered (x := { s with imported := s.imported ++ i.imported s.solver.toCore }) hnone _⟩
  · rw [hkept.decision]
    exact h.decision v hv
  · rw [himported]
    exact (formulaHolds_append σ _ _).mpr ⟨h.imported σ hσ, hgiven.follows s.solver.toCore hσ⟩

theorem WorksFor.shareable (h : WorksFor n f s) (hpc : s.pc = .searching) {i : Input}
    (hgiven : Given n f i) {c : Clause ℕ} (hc : learned (s.solver.turn i) = some c) :
    Shareable n f c := by
  have hsearching := h.ok.searching hpc
  have hvalid := hgiven.valid h.nVars
  have hturn := turn_ok hsearching hvalid
  cases hresult : s.solver.turn i with
  | learnt u d =>
    rw [hresult] at hc hturn
    obtain rfl : d = c := Option.some.inj hc
    obtain ⟨hne, hrange, hnodup⟩ := turn_shape hsearching hvalid hresult
    refine ⟨hne, fun l hl => ?_, hnodup, fun σ hσ => hturn.2 σ ?_⟩
    · exact (hrange l hl).trans_eq h.nVars
    · rw [← List.append_assoc]
      exact (formulaHolds_append σ _ _).mpr ⟨h.given hσ, hgiven.follows s.solver.toCore hσ⟩
  | _ =>
    rw [hresult] at hc
    exact absurd hc.symm (Option.some_ne_none c)

/-- The engine keeps the contract. -/
theorem engine_contract (hrange : ∀ c ∈ f, ∀ l ∈ c, l.1 < n) :
    Contract engine n f (WorksFor n f) := by
  refine ⟨fun s h => h.nVars, fun s h => decide_eq_false h.ok.notStuck,
    fun s t h hstep => h.solve hstep, fun s i units clauses r h hunits hclauses hturn => ?_,
    fun s h hstatus c hc => ?_, fun s h hstatus => ?_⟩
  · obtain ⟨imports, himports, hsame⟩ := mapM_watched fun c hc => (hclauses c hc).2
    have hgiven : Given n f { i with units := units, imports := imports } := by
      refine ⟨hunits, fun c hc => (hclauses (clauseOf c) ?_).1⟩
      rw [← hsame]
      exact List.mem_map_of_mem hc
    change turn s i units clauses = some r at hturn
    unfold turn at hturn
    by_cases hpc : s.pc = .searching
    · rw [if_pos hpc, himports] at hturn
      dsimp only at hturn
      obtain ⟨t, ht⟩ : ∃ t, step s (.turn { i with units := units, imports := imports }) =
          some t := ⟨_, if_pos ⟨hpc, hgiven.valid h.nVars⟩⟩
      rw [ht] at hturn
      obtain rfl := Option.some.inj hturn
      exact ⟨h.turn hpc hgiven ht, fun c hc => h.shareable hpc hgiven hc⟩
    · rw [if_neg hpc] at hturn
      exact absurd hturn.symm (Option.some_ne_none r)
  · have hidle := h.answered (Option.ne_none_iff_exists'.mpr ⟨_, hstatus⟩)
    have hanswer := (h.ok.answer _ hstatus hidle).1 c (h.formula ▸ hc)
    exact hanswer fun l hl => h.decision l.1 (hrange c hc l hl)
  · rintro ⟨σ, hσ⟩
    have hidle := h.answered (Option.ne_none_iff_exists'.mpr ⟨_, hstatus⟩)
    obtain ⟨hsub, hholds⟩ := h.ok.answer _ hstatus hidle
    -- there are no assumptions, so the final conflict is empty
    obtain ⟨q, hq, -⟩ := hholds σ (h.given hσ)
    have hmem := hsub q hq
    rw [h.assumptions] at hmem
    exact absurd hmem List.not_mem_nil

end Painless.MiniSatContract
