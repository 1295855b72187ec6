import Painless.LubySequence
import Painless.MiniSatTermination

/-!
The restarts of MiniSat. A search of solve_ stops after a number of conflicts that
the sequence of luby gives, and solve_ starts it again. Every search ends, and one
that may take as many conflicts as its weight allows turns ends with an answer. So
solve_ ends, or it comes to the restart whose number of conflicts is no int; until
then none of its numbers leaves int.
-/
namespace Painless.MiniSatRestarts

open PartialAssignment MiniSatCore MiniSatSearch MiniSatTurns MiniSatRuns MiniSatAnswers
open MiniSatTermination LubySequence
open Transitions (Machine)

/-! ### The loop of solve_ -/

def restartFirst : ℕ := 100

def restartInc : ℕ := 2

/-- nof_conflicts. There is none where an int would overflow: in luby, or where the
double is made an int. -/
def searchLimit (currRestarts : ℕ) : Option ℕ :=
  if currRestarts + 1 < 2 ^ 31 then
    (luby currRestarts).bind fun seq =>
      let limit := restartInc ^ seq * restartFirst
      if limit < 2 ^ 31 then some limit else none
  else none

/-- A search with the conflicts since it was started, and the number of restarts.
curr_restarts is a global variable, which solve_ does not set back; no other engine
of the process counts it up here. -/
structure Search where
  state : State
  conflictC : ℕ
  currRestarts : ℕ

/-- What the turn gets, where no budget is given and nothing interrupts it. -/
def limited (i : Input) (s : Search) (limit : ℕ) : Input :=
  { i with stop := decide (limit ≤ s.conflictC), interrupted := false }

/-- The state after a turn that had the outcome. -/
def Search.after (s : Search) (t : State) (stop : Bool) : Solver.Outcome → Search
  | .learnt _ _ => ⟨t, s.conflictC + 1, s.currRestarts⟩
  | .next _ => if stop then ⟨t, 0, s.currRestarts + 1⟩ else ⟨t, s.conflictC, s.currRestarts⟩
  -- solve_ counts the search up before it looks at the status
  | .answer _ _ => ⟨t, s.conflictC, s.currRestarts + 1⟩
  | .stuck => ⟨t, s.conflictC, s.currRestarts⟩

/-- A turn counts a conflict or a restart, which are ints. -/
def advance (next : Search → Input) (s : Search) : Option Search :=
  if s.conflictC + 1 < 2 ^ 31 ∧ s.currRestarts + 1 < 2 ^ 31 then
    (searchLimit s.currRestarts).bind fun limit =>
      let i := limited (next s) s limit
      (step s.state (.turn i)).map fun t => s.after t i.stop (s.state.solver.turn i)
  else none

/-- The turns of the searches, of which `fuel` bounds the number. -/
def solveLoop (next : Search → Input) : ℕ → Search → Option Search
  | 0, s => some s
  | fuel + 1, s =>
    if s.state.pc = .searching then (advance next s).bind (solveLoop next fuel) else some s

def Answered (s : Search) : Prop := s.state.pc = .idle ∧ ∃ b, s.state.answer = some (some b)

/-- The first restart for which 100 * 2 ^ seq is no int. -/
def lastRestart : ℕ := 2 ^ 26 - 2

/-- The search is to be started with a number of conflicts that is no int. -/
def Overflows (s : Search) : Prop :=
  s.state.pc = .searching ∧ s.conflictC = 0 ∧ s.currRestarts = lastRestart

/-- Some number of turns leads to a state with `P`. -/
def Ends (next : Search → Input) (P : Search → Prop) (s : Search) : Prop :=
  ∃ fuel t, solveLoop next fuel s = some t ∧ P t

/-! ### A turn -/

section Turn

variable {f g : Cnf.Formula ℕ} {s : Solver}

/-- A turn that stops the search may only go back to level 0. -/
def Limited (s : Solver) (stop : Bool) : Solver.Outcome → Prop
  | .next t => t.nVars = s.nVars ∧ t.assumptions = s.assumptions ∧
      (stop = false → Advances s.assumptions.length s t)
  | .learnt t _ => Advances s.assumptions.length s t
  | .answer _ status => status ≠ none
  | .stuck => True

theorem Limited.of_progress {stop : Bool} {o : Solver.Outcome}
    (h : Progress s.assumptions.length s o) : Limited s stop o := by
  cases o with
  | next t => exact ⟨h.nVars, h.assumptions, fun _ => h⟩
  | learnt t c => exact h
  | answer t status => exact h
  | stuck => trivial

theorem turn_limited (h : SearchingOk (· = false) f g s)
    (hdecided : Decided s.assumptions.length s.toCore) {i : Input} (hvalid : i.Valid s.toCore)
    (hgo : i.interrupted = false) : Limited s i.stop (s.turn i) := by
  cases hstop : i.stop with
  | false => exact .of_progress (turn_progress h hdecided hvalid hstop)
  | true =>
    obtain ⟨u, hgrown, hassumptions, hcases⟩ := turn_cases h hvalid
    rcases hcases with ⟨confl, hturn, hconfl, hseen⟩ | ⟨hturn, -, -⟩
    · rw [hturn]
      refine Limited.of_progress (Progress.of_grown (hgrown _) hassumptions ?_)
      exact onConflict_progress ((hgrown _).decided hdecided) hseen hconfl
    · rw [hturn]
      unfold Solver.noConflict
      rw [if_pos hstop, hgo]
      have hnVars : (u.toCore.cancelUntil 0).nVars = u.nVars := MiniSatTrail.cancelUntil_nVars
      exact ⟨hnVars.trans (hgrown 0).nVars, hassumptions, fun hfalse => Bool.noConfusion hfalse⟩

end Turn

/-! ### The limits -/

theorem searchLimit_some {r : ℕ} (h : r < lastRestart) :
    ∃ limit, searchLimit r = some limit ∧ limit ≤ 100 * 2 ^ 24 := by
  have hlength := length_block 25
  have hlast : lastRestart = 2 * (block 25).length := by
    unfold lastRestart
    omega
  obtain ⟨e, he, hlt⟩ := exists_luby_lt (hlast ▸ h)
  have hpow : 2 ^ e ≤ 2 ^ 24 := Nat.pow_le_pow_right Nat.two_pos (Nat.le_of_lt_succ hlt)
  have hlimit : restartInc ^ e * restartFirst ≤ 100 * 2 ^ 24 := by
    show 2 ^ e * 100 ≤ _
    omega
  refine ⟨restartInc ^ e * restartFirst, ?_, hlimit⟩
  unfold searchLimit
  unfold lastRestart at h
  rw [if_pos (by omega), he, Option.bind_some]
  exact if_pos (by omega)

theorem searchLimit_last {k : ℕ} (hk : k ≤ 24) :
    searchLimit (2 ^ (k + 1) - 2) = some (100 * 2 ^ k) := by
  have hlength := length_block k
  have hpow : 2 ^ k ≤ 2 ^ 24 := Nat.pow_le_pow_right Nat.two_pos hk
  have hindex : 2 ^ (k + 1) - 2 = 2 * (block k).length := by
    rw [pow_succ]
    omega
  have hlimit : restartInc ^ k * restartFirst = 100 * 2 ^ k := Nat.mul_comm _ _
  unfold searchLimit
  rw [hindex, if_pos (by omega), luby_last, Option.bind_some]
  dsimp only
  rw [hlimit, if_pos (by omega)]

/-- There the turn has no result. -/
theorem searchLimit_lastRestart : searchLimit lastRestart = none := by
  have hlength := length_block 25
  have hindex : lastRestart = 2 * (block 25).length := by
    unfold lastRestart
    omega
  unfold searchLimit
  rw [hindex, luby_last, Option.bind_some]
  split_ifs
  · exact if_neg (by decide)
  · rfl

/-! ### Runs -/

section Runs

variable {next : Search → Input} {u : Solver} {s t : Search}

/-- A search goes on in a state that can be reached, for the variables and the
assumptions of `u`. -/
structure Searching (u : Solver) (s : Search) : Prop where
  reach : machine.Reach (fun _ _ => True) s.state
  pc : s.state.pc = .searching
  nVars : s.state.solver.nVars = u.nVars
  assumptions : s.state.solver.assumptions = u.assumptions

/-- The number of levels. -/
def top (u : Solver) : ℕ := u.assumptions.length + u.nVars

theorem Searching.weight_lt (h : Searching u s) : reachWeight s.state.solver < turnBound u := by
  have hle := reachWeight_le ((stateOk_of_reach h.reach).searching h.pc).engine.trail
  rw [turnBound_congr h.nVars h.assumptions] at hle
  exact hle

theorem Searching.level_le (h : Searching u s) : s.state.solver.decisionLevel ≤ top u := by
  have htrail := ((stateOk_of_reach h.reach).searching h.pc).engine.trail
  have hle := (decided_of_reach h.reach h.pc).le htrail
  rw [h.nVars, h.assumptions] at hle
  exact hle

/-- What counts conflicts goes back a level; without a conflict the limit has not been
reached. -/
def Counted (limit : ℕ) (s t : Search) : Prop :=
  t.conflictC = s.conflictC + 1 ∧ t.state.solver.decisionLevel < s.state.solver.decisionLevel ∨
    t.conflictC = s.conflictC ∧ s.conflictC < limit

/-- A turn ends the search, adds to its weight, or is the last one before a restart. -/
theorem advance_cases (h : Searching u s) (hvalid : (next s).Valid s.state.solver.toCore)
    {limit : ℕ} (hlimit : searchLimit s.currRestarts = some limit)
    (hints : s.conflictC + 1 < 2 ^ 31 ∧ s.currRestarts + 1 < 2 ^ 31) :
    ∃ t, advance next s = some t ∧ (Answered t ∨ Searching u t ∧
      (reachWeight s.state.solver < reachWeight t.state.solver ∧
          t.currRestarts = s.currRestarts ∧ Counted limit s t ∨
        limit ≤ s.conflictC ∧ t.currRestarts = s.currRestarts + 1 ∧ t.conflictC = 0)) := by
  obtain ⟨i, hi⟩ : ∃ i, i = limited (next s) s limit := ⟨_, rfl⟩
  have hvalid' : i.Valid s.state.solver.toCore := hi ▸ hvalid
  have hstop : i.stop = decide (limit ≤ s.conflictC) := hi ▸ rfl
  have hsearching := (stateOk_of_reach h.reach).searching h.pc
  have hok := turn_ok hsearching hvalid'
  have hlevel (v : Solver) (c : Cnf.Clause ℕ) := @turn_level _ _ _ v hsearching i hvalid' c
  have hlimited := turn_limited hsearching (decided_of_reach h.reach h.pc) hvalid' (hi ▸ rfl)
  obtain ⟨t, hstep, ht⟩ : ∃ t, step s.state (.turn i) = some t ∧ t = State.after _ _ :=
    ⟨_, if_pos ⟨h.pc, hvalid'⟩, rfl⟩
  have hreach : machine.Reach (fun _ _ => True) t :=
    .step h.reach trivial (show machine.step s.state (.turn i) = some t from hstep)
  have hgoes {c r : ℕ} (hpc : t.pc = s.state.pc) (hnVars : t.solver.nVars = s.state.solver.nVars)
      (hassumptions : t.solver.assumptions = s.state.solver.assumptions) : Searching u ⟨t, c, r⟩ :=
    ⟨hreach, hpc.trans h.pc, hnVars.trans h.nVars, hassumptions.trans h.assumptions⟩
  refine ⟨s.after t i.stop (s.state.solver.turn i), ?_, ?_⟩
  · unfold advance
    rw [if_pos hints, hlimit, Option.bind_some]
    dsimp only
    rw [← hi, hstep, Option.map_some]
  generalize s.state.solver.turn i = o at hok hlimited hlevel ht ⊢
  cases o with
  | next v =>
    obtain ⟨hnVars, hassumptions, hadvances⟩ := hlimited
    subst ht
    unfold Search.after
    dsimp only
    refine Or.inr ?_
    split_ifs with hstopped
    · refine ⟨hgoes rfl hnVars hassumptions, Or.inr ⟨?_, rfl, rfl⟩⟩
      exact of_decide_eq_true (hstop ▸ hstopped)
    · have hbelow : s.conflictC < limit := by
        rw [hstop, decide_eq_true_eq] at hstopped
        exact not_le.mp hstopped
      refine ⟨hgoes rfl hnVars hassumptions, Or.inl ⟨?_, rfl, Or.inr ⟨rfl, hbelow⟩⟩⟩
      exact reachWeight_lt_of_advances (hadvances (Bool.eq_false_iff.mpr hstopped))
  | learnt v c =>
    subst ht
    refine Or.inr ⟨hgoes rfl hlimited.nVars hlimited.assumptions,
      Or.inl ⟨?_, rfl, Or.inl ⟨rfl, hlevel v c rfl⟩⟩⟩
    exact reachWeight_lt_of_advances hlimited
  | answer v status =>
    obtain ⟨b, rfl⟩ := Option.ne_none_iff_exists'.mp hlimited
    subst ht
    exact Or.inl ⟨rfl, b, rfl⟩
  | stuck => exact hok.elim

variable {P : Search → Prop}

theorem Ends.here (h : P s) : Ends next P s := ⟨0, s, rfl, h⟩

theorem Ends.of_advance (hpc : s.state.pc = .searching) (hadvance : advance next s = some t)
    (h : Ends next P t) : Ends next P s := by
  obtain ⟨fuel, w, hrun, hw⟩ := h
  refine ⟨fuel + 1, w, ?_, hw⟩
  unfold solveLoop
  rw [if_pos hpc, hadvance, Option.bind_some]
  exact hrun

theorem solveLoop_of_not_searching (h : s.state.pc ≠ .searching) (fuel : ℕ) :
    solveLoop next fuel s = some s := by
  cases fuel with
  | zero => rfl
  | succ fuel => exact if_neg h

theorem solveLoop_add {w : Search} {m n : ℕ} (hst : solveLoop next m s = some t)
    (htw : solveLoop next n t = some w) : solveLoop next (m + n) s = some w := by
  induction m generalizing s with
  | zero =>
    obtain rfl := Option.some.inj hst
    rwa [Nat.zero_add]
  | succ m ih =>
    by_cases hpc : s.state.pc = .searching
    · unfold solveLoop at hst
      rw [if_pos hpc] at hst
      obtain ⟨v, hv, hvt⟩ := Option.bind_eq_some_iff.mp hst
      rw [Nat.succ_add]
      unfold solveLoop
      rw [if_pos hpc, hv, Option.bind_some]
      exact ih hvt
    · rw [solveLoop_of_not_searching hpc] at hst ⊢
      obtain rfl := Option.some.inj hst
      rwa [solveLoop_of_not_searching hpc] at htw

theorem Ends.trans {Q : Search → Prop} (h : Ends next P s) (hnext : ∀ t, P t → Ends next Q t) :
    Ends next Q s := by
  obtain ⟨m, t, hst, ht⟩ := h
  obtain ⟨n, w, htw, hw⟩ := hnext t ht
  exact ⟨m + n, w, solveLoop_add hst htw, hw⟩

variable (hvalid : ∀ s : Search, s.state.solver.nVars = u.nVars →
  (next s).Valid s.state.solver.toCore) (htop : top u ≤ 2 ^ 28)
include hvalid htop

/-- A search ends with an answer, or it is started again after its limit. The conflicts
and the levels that it can still go back are at most the limit and all levels, so the
conflicts stay an int. -/
theorem ends_of_search {limit n : ℕ} (h : Searching u s) (hrestarts : s.currRestarts < lastRestart)
    (hlimit : searchLimit s.currRestarts = some limit)
    (hcount : s.conflictC + s.state.solver.decisionLevel ≤ limit + top u)
    (hweight : turnBound u ≤ n + reachWeight s.state.solver) :
    Ends next (fun t => Answered t ∨ limit < s.conflictC + n ∧ Searching u t ∧
      t.currRestarts = s.currRestarts + 1 ∧ t.conflictC = 0) s := by
  induction n generalizing s with
  | zero =>
    have hlt := h.weight_lt
    omega
  | succ n ih =>
    have hints : s.conflictC + 1 < 2 ^ 31 ∧ s.currRestarts + 1 < 2 ^ 31 := by
      obtain ⟨bound, hbound, hle⟩ := searchLimit_some hrestarts
      obtain rfl := Option.some.inj (hlimit.symm.trans hbound)
      unfold lastRestart at hrestarts
      omega
    obtain ⟨t, hadvance, hcases⟩ := advance_cases h (hvalid s h.nVars) hlimit hints
    refine Ends.of_advance h.pc hadvance ?_
    rcases hcases with hanswered | ⟨ht, ⟨hmore, hsame, hcounted⟩ | ⟨hreached, hrestarted, hzero⟩⟩
    · exact .here (Or.inl hanswered)
    · have hlevel := ht.level_le
      have hnext : t.conflictC + t.state.solver.decisionLevel ≤ limit + top u ∧
          t.conflictC ≤ s.conflictC + 1 := by
        rcases hcounted with ⟨hconflict, hback⟩ | ⟨hstays, hbelow⟩ <;> omega
      refine (ih ht (hsame ▸ hrestarts) (hsame ▸ hlimit) hnext.1 (by omega)).trans fun w hw => ?_
      refine .here (hw.imp_right ?_)
      rintro ⟨hlt, hw, hrestarted, hzero⟩
      exact ⟨by omega, hw, by omega, hzero⟩
    · exact .here (Or.inr ⟨by omega, ht, hrestarted, hzero⟩)

/-- Search after search, up to the restart `r`. -/
theorem ends_of_restarts {r k : ℕ} (hr : r ≤ lastRestart) (h : Searching u s)
    (hzero : s.conflictC = 0) (hk : s.currRestarts + k = r) :
    Ends next (fun t => Answered t ∨ Searching u t ∧ t.conflictC = 0 ∧ t.currRestarts = r) s := by
  induction k generalizing s with
  | zero => exact .here (Or.inr ⟨h, hzero, hk⟩)
  | succ k ih =>
    have hrestarts : s.currRestarts < lastRestart := by omega
    obtain ⟨limit, hlimit, -⟩ := searchLimit_some hrestarts
    have hcount : s.conflictC + s.state.solver.decisionLevel ≤ limit + top u := by
      have hlevel := h.level_le
      omega
    refine (ends_of_search hvalid htop h hrestarts hlimit hcount (Nat.le_add_right _ _)).trans
      fun t ht => ?_
    rcases ht with hanswered | ⟨-, ht, hrestarted, hzero⟩
    · exact .here (Or.inl hanswered)
    · exact ih ht hzero (by omega)

/-- A search whose limit is not less than its bound is the last one. -/
theorem ends_of_bound (h : Searching u s) (hzero : s.conflictC = 0)
    (hrestarts : s.currRestarts ≤ 2 ^ 25 - 2) (hbound : turnBound u ≤ 100 * 2 ^ 24) :
    Ends next Answered s := by
  have hlast : 2 ^ 25 - 2 < lastRestart := by decide
  refine (ends_of_restarts hvalid htop hlast.le h hzero (Nat.add_sub_of_le hrestarts)).trans
    fun t ht => ?_
  rcases ht with hanswered | ⟨ht, hzero, hsame⟩
  · exact .here hanswered
  · have hlimit : searchLimit t.currRestarts = some (100 * 2 ^ 24) :=
      hsame ▸ searchLimit_last le_rfl
    have hcount : t.conflictC + t.state.solver.decisionLevel ≤ 100 * 2 ^ 24 + top u := by
      have hlevel := ht.level_le
      omega
    refine (ends_of_search hvalid htop ht (hsame ▸ hlast) hlimit hcount
      (Nat.le_add_right _ _)).trans fun w hw => .here ?_
    exact hw.resolve_right fun hmore => by omega

/-- solve_ from the start of a search on. -/
theorem ends_of_searching (h : Searching u s) (hzero : s.conflictC = 0)
    (hrestarts : s.currRestarts < lastRestart) :
    Ends next (fun t => (Answered t ∨ Overflows t) ∧ (turnBound u ≤ 100 * 2 ^ 24 →
      s.currRestarts ≤ 2 ^ 25 - 2 → Answered t)) s := by
  by_cases hbounded : turnBound u ≤ 100 * 2 ^ 24 ∧ s.currRestarts ≤ 2 ^ 25 - 2
  · exact (ends_of_bound hvalid htop h hzero hbounded.2 hbounded.1).trans fun t ht =>
      .here ⟨Or.inl ht, fun _ _ => ht⟩
  · refine (ends_of_restarts hvalid htop le_rfl h hzero
      (Nat.add_sub_of_le hrestarts.le)).trans fun t ht => .here ⟨?_, fun hbound hlow => ?_⟩
    · exact ht.imp_right fun ht => ⟨ht.1.pc, ht.2⟩
    · exact absurd ⟨hbound, hlow⟩ hbounded

omit hvalid htop

/-- Whatever is imported, deleted and decided, solve_ ends with l_True or l_False, or
it comes to the restart whose limit is no int; where the bound on the turns of a
search is at most the greatest limit, it ends. -/
theorem solveLoop_ends (h : machine.Reach (fun _ _ => True) s.state)
    (hpc : s.state.pc = .searching) (hzero : s.conflictC = 0)
    (hrestarts : s.currRestarts < lastRestart)
    (htop : s.state.solver.assumptions.length + s.state.solver.nVars ≤ 2 ^ 28)
    (hvalid : ∀ t : Search, t.state.solver.nVars = s.state.solver.nVars →
      (next t).Valid t.state.solver.toCore) :
    ∃ fuel t, solveLoop next fuel s = some t ∧ (Answered t ∨ Overflows t) ∧
      (turnBound s.state.solver ≤ 100 * 2 ^ 24 → s.currRestarts ≤ 2 ^ 25 - 2 → Answered t) :=
  ends_of_searching hvalid htop ⟨h, hpc, rfl, rfl⟩ hzero hrestarts

theorem solveLoop_ends_decided :
    ∃ fuel t, solveLoop (fun _ => plainTurn false) fuel ⟨decided, 0, 0⟩ = some t ∧ Answered t := by
  have hvalid (t : Search) (_ : t.state.solver.nVars = decided.solver.nVars) :
      (plainTurn false).Valid t.state.solver.toCore :=
    ⟨fun _ hl => absurd hl List.not_mem_nil, fun _ hc => absurd hc List.not_mem_nil⟩
  obtain ⟨fuel, t, hrun, -, hanswered⟩ := solveLoop_ends (s := ⟨decided, 0, 0⟩) decided_reach
    (by decide +kernel) rfl (by decide) (by decide +kernel) hvalid
  exact ⟨fuel, t, hrun, hanswered (by decide +kernel) (by decide)⟩

end Runs

end Painless.MiniSatRestarts
