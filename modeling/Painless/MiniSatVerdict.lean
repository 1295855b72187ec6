import Painless.MiniSatRestarts
import Painless.PortfolioAnswers

/-!
The MiniSat engine decides the formula that it has loaded: solve_, with its restarts
and with whatever follows from the formula as imports, ends with l_True only if the
formula is satisfiable and with l_False only if it is not, unless it comes to the
restart whose number of conflicts is no int.
-/
namespace Painless.MiniSatVerdict

open Cnf PartialAssignment SearchContract MiniSatSearch MiniSatContract MiniSatRestarts
open PortfolioSoundness PortfolioAnswers
open MiniSatAnswers (plainTurn)
open MiniSatTermination (turnBound)
open Transitions (Machine)

variable {n : ℕ} {f : Formula ℕ} {F : List (List ℤ)} {next : Search → Input}

/-! ### The loop -/

theorem after_state (s : Search) (t : State) (stop : Bool) (o : Solver.Outcome) :
    (s.after t stop o).state = t := by
  cases o with
  | next u =>
    unfold Search.after
    dsimp only
    split_ifs <;> rfl
  | _ => rfl

/-- What advance does is a turn of the engine, with the same imports. -/
theorem step_of_advance {s t : Search} (h : advance next s = some t) :
    ∃ limit, step s.state (.turn (limited (next s) s limit)) = some t.state := by
  unfold advance at h
  split_ifs at h
  obtain ⟨limit, -, h⟩ := Option.bind_eq_some_iff.mp h
  obtain ⟨u, hstep, rfl⟩ := Option.map_eq_some_iff.mp h
  rw [after_state]
  exact ⟨limit, hstep⟩

theorem worksFor_solveLoop (hgiven : ∀ s, Given n f (next s)) {fuel : ℕ} {s t : Search}
    (h : WorksFor n f s.state) (hrun : solveLoop next fuel s = some t) : WorksFor n f t.state := by
  induction fuel generalizing s with
  | zero =>
    obtain rfl := Option.some.inj hrun
    exact h
  | succ fuel ih =>
    unfold solveLoop at hrun
    split_ifs at hrun with hpc
    · obtain ⟨u, hadvance, hrest⟩ := Option.bind_eq_some_iff.mp hrun
      obtain ⟨limit, hstep⟩ := step_of_advance hadvance
      have hturn : Given n f (limited (next s) s limit) := ⟨(hgiven s).units, (hgiven s).imports⟩
      exact ih (h.turn hpc hturn hstep) hrest
    · obtain rfl := Option.some.inj hrun
      exact h

/-! ### The call -/

theorem step_solve {s : State} (h : s.pc = .idle) : step s (.solve []) = some (s.solve []) :=
  if_pos ⟨h, fun _ hl => absurd hl List.not_mem_nil⟩

theorem solve_frame (s : State) : (s.solve []).solver.nVars = s.solver.nVars ∧
    (s.solver.ok = true → (s.solve []).solver.assumptions = []) := by
  unfold State.solve
  dsimp only
  split_ifs with hok
  · exact ⟨rfl, fun _ => rfl⟩
  · exact ⟨rfl, fun h => absurd h hok⟩

/-- If addClause has failed, solve_ answers at once. -/
theorem ends_of_solve {s : State} (hreach : machine.Reach (fun _ _ => True) (s.solve []))
    (hidle : s.pc = .idle) (hsize : s.solver.nVars ≤ 2 ^ 28)
    (hvalid : ∀ t : Search, t.state.solver.nVars = s.solver.nVars →
      (next t).Valid t.state.solver.toCore) {r : ℕ} (hr : r < lastRestart) :
    Ends next (fun t => (Answered t ∨ Overflows t) ∧ (turnBound (s.solve []).solver ≤
      100 * 2 ^ 24 → r ≤ 2 ^ 25 - 2 → Answered t)) ⟨s.solve [], 0, r⟩ := by
  obtain ⟨hnVars, hassumptions⟩ := solve_frame s
  by_cases hok : s.solver.ok = true
  · have hpc : (s.solve []).pc = .searching := by
      unfold State.solve
      rw [if_pos hok]
    have htop : top (s.solve []).solver ≤ 2 ^ 28 := by
      unfold top
      rwa [hassumptions hok, hnVars, List.length_nil, Nat.zero_add]
    exact ends_of_searching (s := ⟨s.solve [], 0, r⟩) (fun t ht => hvalid t (ht.trans hnVars))
      htop ⟨hreach, hpc, rfl, rfl⟩ rfl hr
  · have hanswered : Answered ⟨s.solve [], 0, r⟩ := by
      unfold Answered State.solve
      rw [if_neg hok]
      exact ⟨hidle, false, rfl⟩
    exact .here ⟨Or.inl hanswered, fun _ _ => hanswered⟩

/-- An answer is right, and it comes, at the latest before the restart whose limit is
no int. -/
theorem solve_decides {s : State} (hF : ∀ c ∈ F, ∀ l ∈ c, l ≠ 0) (hloaded : Loaded F s)
    (hsize : varCount 0 F ≤ 2 ^ 28)
    (hgiven : ∀ t, Given (varCount 0 F) (formula F) (next t)) {r : ℕ} (hr : r < lastRestart) :
    ∃ start, step s (.solve []) = some start ∧
      (∀ fuel t b, solveLoop next fuel ⟨start, 0, r⟩ = some t →
        t.state.answer = some (some b) →
        (b = true → FormulaTrue (value t.state.solver.model) (formula F)) ∧
          (b = true ↔ Satisfiable (formula F))) ∧
      ∃ fuel t, solveLoop next fuel ⟨start, 0, r⟩ = some t ∧ (Answered t ∨ Overflows t) ∧
        (turnBound start.solver ≤ 100 * 2 ^ 24 → r ≤ 2 ^ 25 - 2 → Answered t) := by
  have hcontract := contract_varCount hF
  have hworks : WorksFor (varCount 0 F) (formula F) s := worksFor_of_loaded hloaded
  obtain ⟨ccminMode, hrun⟩ := hloaded
  have hidle : s.pc = .idle := ((loading_init ccminMode).parse F hrun).pc
  have hstep := step_solve hidle
  have hreach : machine.Reach (fun _ _ => True) (s.solve []) :=
    .step (Machine.Reach.of_run ⟨ccminMode, rfl⟩ hrun) trivial
      (show machine.step s (.solve []) = some _ from hstep)
  refine ⟨_, hstep, fun fuel t b hloop hanswer => ?_, ends_of_solve hreach hidle
    (hworks.nVars.trans_le hsize) (fun t ht => (hgiven t).valid (ht.trans hworks.nVars)) hr⟩
  have ht := worksFor_solveLoop hgiven (hworks.solve hstep) hloop
  have hsat (hb : b = true) : FormulaTrue (value t.state.solver.model) (formula F) :=
    hcontract.sat _ ht (hb ▸ hanswer)
  refine ⟨hsat, fun hb => ?_, fun hsatisfiable => ?_⟩
  · exact ⟨_, formulaHolds_complete (hsat hb)⟩
  · by_contra hb
    exact hcontract.unsat _ ht (Bool.eq_false_iff.mpr hb ▸ hanswer) hsatisfiable

/-- The formula is satisfiable, and solve_ finds that. -/
theorem solve_decides_halves :
    ∃ start fuel t b, step halvesEngine (.solve []) = some start ∧
      solveLoop (fun _ => plainTurn false) fuel ⟨start, 0, 0⟩ = some t ∧
      t.state.answer = some (some b) ∧
      (b = true → FormulaTrue (value t.state.solver.model) (formula halves)) ∧
      (b = true ↔ Satisfiable (formula halves)) := by
  have hgiven (_ : Search) : Given (varCount 0 halves) (formula halves) (plainTurn false) :=
    ⟨fun _ hl => absurd hl List.not_mem_nil, fun _ hc => absurd hc List.not_mem_nil⟩
  obtain ⟨start, hstart, hright, fuel, t, hloop, -, hanswered⟩ := solve_decides (r := 0)
    (by decide) ⟨2, (Option.some_get halves_some).symm⟩ (by decide) hgiven (by decide)
  have hbound : turnBound start.solver ≤ 100 * 2 ^ 24 := by
    obtain rfl := Option.some.inj ((step_solve (by decide)).symm.trans hstart)
    decide +kernel
  obtain ⟨-, b, hanswer⟩ := hanswered hbound (by decide)
  exact ⟨start, fuel, t, b, hstart, hloop, hanswer, hright fuel t b hloop hanswer⟩

end Painless.MiniSatVerdict
