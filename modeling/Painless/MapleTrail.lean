import Painless.MapleElimination
import Painless.MapleSearch
import Mathlib.Data.List.Nodup

/-!
What the operations of the Maple engine keep: the clauses say what the loaded
formula says, no variable is on the trail twice, and below each decision level
the assumptions up to it are on the trail.
-/
namespace Painless.MapleTrail

open Cnf PartialAssignment MapleSolver MapleDatabase MapleElimination MapleSearch

/-! ### The trail -/

/-- No variable is on the trail twice. -/
def Distinct (s : Solver) : Prop := (s.trail.map Prod.fst).Nodup

theorem isTrue_of_mem_trail {s : Solver} (hs : Distinct s) {l : Literal ℕ}
    (hl : l ∈ s.trail) : IsTrue s.value l := by
  cases hfind : s.trail.find? (fun q => q.1 = l.1) with
  | none => exact absurd (by simp) (List.find?_eq_none.mp hfind l hl)
  | some q =>
    have hvar : q.1 = l.1 := by simpa using List.find?_some hfind
    have heq : q = l :=
      List.inj_on_of_nodup_map hs (List.mem_of_find?_eq_some hfind) hl hvar
    rw [IsTrue, Solver.value, hfind, heq]
    rfl

theorem trail_enqueue (s : Solver) (p : Literal ℕ) :
    (s.uncheckedEnqueue p).trail.Perm (p :: s.trail) := by
  unfold Solver.uncheckedEnqueue
  split
  · rename_i hlevels
    simp only [Solver.trail, hlevels, List.flatten_nil, List.nil_append]
    exact List.perm_append_singleton p s.root
  · rename_i current rest hlevels
    simp only [Solver.trail, hlevels, List.flatten_cons, List.append_assoc,
      List.singleton_append]
    exact List.perm_middle

theorem Distinct.enqueue {s : Solver} (hs : Distinct s) {p : Literal ℕ}
    (hp : s.value p.1 = none) : Distinct (s.uncheckedEnqueue p) := by
  refine ((trail_enqueue s p).map Prod.fst).nodup_iff.mpr (List.nodup_cons.mpr ⟨?_, hs⟩)
  intro hmem
  obtain ⟨l, hl, heq⟩ := List.mem_map.mp hmem
  exact ne_of_value_none hp l hl heq

theorem Distinct.cancelUntil {s : Solver} (hs : Distinct s) (level : ℕ) :
    Distinct (s.cancelUntil level) := by
  have hsub : (s.cancelUntil level).trail.Sublist s.trail := by
    have hlevels := List.take_append_drop (s.levels.length - level) s.levels
    rw [Solver.trail, Solver.trail, ← hlevels, List.flatten_append]
    exact (List.sublist_append_right _ _).append_right s.root
  exact List.Nodup.sublist (hsub.map Prod.fst) hs

/-! ### Assumptions -/

/-- The assumption of a decision level is on the trail up to that level. -/
def Placed (assumptions root : List (Literal ℕ)) : List (List (Literal ℕ)) → Prop
  | [] => True
  | current :: rest =>
    (∀ p, assumptions[rest.length]? = some p → p ∈ (current :: rest).flatten ++ root) ∧
      Placed assumptions root rest

theorem Placed.drop {assumptions root : List (Literal ℕ)}
    {levels : List (List (Literal ℕ))} (h : Placed assumptions root levels) (n : ℕ) :
    Placed assumptions root (levels.drop n) := by
  induction levels generalizing n with
  | nil => simpa using h
  | cons current rest ih =>
    cases n with
    | zero => exact h
    | succ n => exact ih h.2 n

theorem Placed.enqueue {s : Solver} (hs : Placed s.assumptions s.root s.levels)
    (p : Literal ℕ) : Placed (s.uncheckedEnqueue p).assumptions
      (s.uncheckedEnqueue p).root (s.uncheckedEnqueue p).levels := by
  unfold Solver.uncheckedEnqueue
  split
  · rename_i hlevels
    rw [hlevels]
    trivial
  · rename_i current rest hlevels
    rw [hlevels] at hs
    refine ⟨fun q hq => ?_, hs.2⟩
    have hmem := hs.1 q hq
    simp only [List.flatten_cons, List.mem_append] at hmem ⊢
    tauto

/-- Once there are as many decision levels as assumptions, all are placed. -/
theorem Placed.mem {assumptions root : List (Literal ℕ)}
    {levels : List (List (Literal ℕ))} (h : Placed assumptions root levels)
    (hlength : assumptions.length ≤ levels.length) {p : Literal ℕ} (hp : p ∈ assumptions) :
    p ∈ levels.flatten ++ root := by
  have hsome : ∀ i, i < levels.length → assumptions[i]? = some p →
      p ∈ levels.flatten ++ root := by
    clear hlength
    induction levels with
    | nil => exact fun i hi => absurd hi (Nat.not_lt_zero i)
    | cons current rest ih =>
      intro i hi hget
      rcases Nat.lt_succ_iff_lt_or_eq.mp hi with hlt | rfl
      · have hmem := ih h.2 i hlt hget
        simp only [List.flatten_cons, List.mem_append] at hmem ⊢
        tauto
      · exact h.1 p hget
  obtain ⟨i, hi, hget⟩ := List.getElem_of_mem hp
  refine hsome i (Nat.lt_of_lt_of_le hi hlength) ?_
  rw [List.getElem?_eq_getElem hi, hget]

/-! ### The invariant -/

theorem overVars_congr {s t : Solver} (h : t.nVars = s.nVars) (lits : List ℤ) :
    OverVars t lits ↔ OverVars s lits := by
  rw [OverVars, h, OverVars]

/-- What holds of a solver that is not inconsistent. -/
structure SolverInvariant (f : List (List ℤ)) (s : Solver) : Prop where
  database : DatabaseInvariant (f.map miniVec) s
  overVars : ∀ c ∈ f, OverVars s c
  distinct : Distinct s
  placed : Placed s.assumptions s.root s.levels
  frozen : ∀ p ∈ s.assumptions, InScope s p.1

/-- The invariant holds again, for the same variables and assumptions. -/
structure Keeps (f : List (List ℤ)) (s t : Solver) : Prop where
  invariant : SolverInvariant f t
  nVars : t.nVars = s.nVars
  assumptions : t.assumptions = s.assumptions

theorem Keeps.trans {f : List (List ℤ)} {s t u : Solver} (h : Keeps f s t)
    (h' : Keeps f t u) : Keeps f s u :=
  ⟨h'.invariant, h'.nVars.trans h.nVars, h'.assumptions.trans h.assumptions⟩

variable {f : List (List ℤ)} {s t : Solver}

theorem SolverInvariant.keeps (hs : SolverInvariant f s) : Keeps f s s := ⟨hs, rfl, rfl⟩

theorem SolverInvariant.enqueue (hs : SolverInvariant f s) {p : Literal ℕ}
    (hp : s.value p.1 = none) : Keeps f s (s.uncheckedEnqueue p) := by
  have hgrows := trailGrows_enqueue s p
  have hnVars : (s.uncheckedEnqueue p).nVars = s.nVars := by rw [hgrows.same]
  have hassumptions : (s.uncheckedEnqueue p).assumptions = s.assumptions := by
    rw [hgrows.same]
  refine ⟨⟨hs.database.trailGrows hgrows, fun c hc => ?_, hs.distinct.enqueue hp,
    hs.placed.enqueue p, ?_⟩, hnVars, hassumptions⟩
  · exact (overVars_congr hnVars c).mpr (hs.overVars c hc)
  · rw [hassumptions, hgrows.same]
    exact hs.frozen

theorem SolverInvariant.propagate (hs : SolverInvariant f s)
    {implied : List (Literal ℕ × Clause ℕ)} {confl : Option (Clause ℕ)}
    (h : propagate s implied confl = some t) : Keeps f s t :=
  propagate_rule (P := Keeps f s) (fun _ _ hu hnone => hu.trans (hu.invariant.enqueue hnone))
    hs.keeps h

theorem SolverInvariant.cancelUntil (hs : SolverInvariant f s) (level : ℕ) :
    Keeps f s (s.cancelUntil level) :=
  ⟨⟨hs.database.congr rfl rfl rfl rfl fun _ h => h, hs.overVars,
    hs.distinct.cancelUntil level, hs.placed.drop _, hs.frozen⟩, rfl, rfl⟩

theorem SolverInvariant.learnts (hs : SolverInvariant f s) (learnts : Formula ℕ) :
    Keeps f s { s with learnts := learnts } :=
  ⟨⟨hs.database.congr rfl rfl rfl rfl fun _ h => h, hs.overVars, hs.distinct, hs.placed,
    hs.frozen⟩, rfl, rfl⟩

theorem SolverInvariant.removeSatisfied (hs : SolverInvariant f s) (hlevels : s.levels = []) :
    Keeps f s (removeSatisfied s) :=
  ⟨⟨hs.database.removeSatisfied hlevels, hs.overVars, hs.distinct, hs.placed, hs.frozen⟩,
    rfl, rfl⟩

theorem SolverInvariant.learn (hs : SolverInvariant f s) {p : Literal ℕ}
    {rest : Clause ℕ} (h : learn s p rest = some t) : Keeps f s t := by
  have hback := hs.cancelUntil ((rest.map fun l => s.level l.1).foldr max 0)
  unfold MapleSolver.learn at h
  generalize s.cancelUntil ((rest.map fun l => s.level l.1).foldr max 0) = u at h hback
  obtain ⟨hnone, ht⟩ := Option.ite_none_right_eq_some.mp h
  have hlearnt := hback.trans
    (hback.invariant.learnts (if rest = [] then u.learnts else u.learnts ++ [p :: rest]))
  exact Option.some.inj ht ▸ hlearnt.trans (hlearnt.invariant.enqueue hnone)

/-- A new decision level, where its assumption is on the trail. -/
theorem SolverInvariant.newDecisionLevel (hs : SolverInvariant f s)
    (h : ∀ p, s.assumptions[s.decisionLevel]? = some p → p ∈ s.trail) :
    Keeps f s s.newDecisionLevel := by
  refine ⟨⟨hs.database.congr rfl rfl rfl rfl fun _ h => h, hs.overVars, ?_, ⟨?_, hs.placed⟩,
    hs.frozen⟩, rfl, rfl⟩
  · exact hs.distinct
  · exact h

/-- A new decision level with its assumption or a decision. -/
theorem SolverInvariant.decide (hs : SolverInvariant f s) {p : Literal ℕ}
    (hp : ∀ q, s.assumptions[s.decisionLevel]? = some q → q = p)
    (hnone : s.value p.1 = none) :
    Keeps f s (s.newDecisionLevel.uncheckedEnqueue p) := by
  have hdistinct : Distinct s.newDecisionLevel := hs.distinct
  refine ⟨⟨hs.database.congr rfl rfl rfl rfl fun _ h => h, hs.overVars,
    hdistinct.enqueue hnone, ⟨fun q hq => ?_, hs.placed⟩, hs.frozen⟩, rfl, rfl⟩
  obtain rfl := hp q hq
  exact List.mem_append_left _ (List.mem_append_left _ (by simp))

/-! ### Level 0 -/

/-- What the operations at level 0 leave alone. -/
structure Ground (s t : Solver) : Prop where
  distinct : Distinct t
  levels : t.levels = []
  nVars : t.nVars = s.nVars
  assumptions : t.assumptions = s.assumptions
  eliminated : t.eliminated = s.eliminated

theorem Ground.enqueue {s t : Solver} (h : Ground s t) {p : Literal ℕ}
    (hp : t.value p.1 = none) : Ground s (t.uncheckedEnqueue p) := by
  have hgrows := trailGrows_enqueue t p
  refine ⟨h.distinct.enqueue hp, hgrows.levels h.levels, ?_, ?_, ?_⟩
  · rw [hgrows.same]
    exact h.nVars
  · rw [hgrows.same]
    exact h.assumptions
  · rw [hgrows.same]
    exact h.eliminated

theorem Ground.propagate {s t u : Solver} (h : Ground s t)
    {implied : List (Literal ℕ × Clause ℕ)} {confl : Option (Clause ℕ)}
    (ht : propagate t implied confl = some u) : Ground s u :=
  propagate_rule (P := Ground s) (fun _ _ hu hnone => hu.enqueue hnone) h ht

/-- What the operation does to the clauses and to ok is left out. -/
theorem Ground.congr {s t u : Solver} (h : Ground s t) (hroot : u.root = t.root)
    (hlevels : u.levels = t.levels) (hnVars : u.nVars = t.nVars)
    (hassumptions : u.assumptions = t.assumptions) (helim : u.eliminated = t.eliminated) :
    Ground s u := by
  refine ⟨?_, hlevels.trans h.levels, hnVars.trans h.nVars,
    hassumptions.trans h.assumptions, helim.trans h.eliminated⟩
  rw [Distinct, Solver.trail, hroot, hlevels]
  exact h.distinct

theorem Ground.addClause {s t u : Solver} (h : Ground s t) {ps : Clause ℕ}
    {order : Propagation} {b : Bool} (ht : addClause_ t ps order = some (u, b)) :
    Ground s u := by
  cases addClause_cases ht with
  | inconsistent | satisfied => exact h
  | empty | clause => exact h.congr rfl rfl rfl rfl rfl
  | unit _ _ hnone hv =>
    exact ((h.enqueue hnone).propagate hv).congr rfl rfl rfl rfl rfl

theorem Ground.addClauses {s t u : Solver} (h : Ground s t) {cs : Formula ℕ}
    {orders : List Propagation} {b : Bool} (ht : addClauses t cs orders = some (u, b)) :
    Ground s u := by
  induction cs generalizing t orders with
  | nil =>
    obtain ⟨rfl, -⟩ := Prod.mk.inj (Option.some.inj ht)
    exact h
  | cons c cs ih =>
    cases orders with
    | nil => exact absurd ht (by simp [MapleSolver.addClauses])
    | cons order orders =>
      rw [MapleSolver.addClauses] at ht
      obtain ⟨⟨v, ok⟩, hv, hrest⟩ := Option.bind_eq_some_iff.mp ht
      have hground := h.addClause hv
      cases ok with
      | false =>
        obtain ⟨rfl, -⟩ := Prod.mk.inj (Option.some.inj hrest)
        exact hground
      | true => exact ih hground hrest

theorem Ground.strengthen {s t u : Solver} (h : Ground s t) {c : Clause ℕ}
    {l : Literal ℕ} {order : Propagation} {b : Bool}
    (ht : strengthenClause t c l order = some (u, b)) : Ground s u := by
  have herase : Ground s { t with clauses := t.clauses.erase c } :=
    h.congr rfl rfl rfl rfl rfl
  cases strengthenClause_cases ht with
  | satisfied => exact herase
  | falsified | clause => exact h.congr rfl rfl rfl rfl rfl
  | unit _ hnone hv =>
    exact ((herase.enqueue hnone).propagate hv).congr rfl rfl rfl rfl rfl

theorem SolverInvariant.isGround (hs : SolverInvariant f s) (hlevels : s.levels = []) :
    Ground s s := ⟨hs.distinct, hlevels, rfl, rfl, rfl⟩

theorem SolverInvariant.eliminateVar (hs : SolverInvariant f s) (hlevels : s.levels = [])
    {v : ℕ} (hv : InScope s v) (hvalue : s.value v = none)
    (hfrozen : ∀ p ∈ s.assumptions, p.1 ≠ v) {orders : List Propagation}
    (h : eliminateVar s v orders = some (t, true)) : Keeps f s t ∧ t.levels = [] := by
  have hdb := invariant_eliminateVar hs.database hlevels hv hvalue h
  obtain ⟨hground, added, helim⟩ := eliminateVar_eliminates hlevels h
  obtain ⟨⟨u, ok⟩, hu, hpair⟩ := Option.map_eq_some_iff.mp h
  cases ok with
  | false => simp at hpair
  | true =>
    have hstart : ∀ stack, Ground { s with eliminated := v :: s.eliminated }
        { s with eliminated := v :: s.eliminated, elimclauses := stack } :=
      fun _ => ⟨hs.distinct, hlevels, rfl, rfl, rfl⟩
    have hadded := (hstart _).addClauses hu
    obtain ⟨rfl, -⟩ := Prod.mk.inj hpair
    refine ⟨⟨⟨hdb, fun c hc => ?_, hadded.distinct, ?_, ?_⟩, hadded.nVars,
      hadded.assumptions⟩, hadded.levels⟩
    · exact (overVars_congr hadded.nVars c).mpr (hs.overVars c hc)
    · rw [hground]
      trivial
    · intro p hp
      have hps : p ∈ s.assumptions := hadded.assumptions ▸ hp
      obtain ⟨hlt, hkept⟩ := hs.frozen p hps
      refine ⟨?_, ?_⟩
      · exact (hadded.nVars ▸ hlt : p.1 < u.nVars)
      · show p.1 ∉ u.eliminated
        rw [hadded.eliminated, List.mem_cons, not_or]
        exact ⟨hfrozen p hps, hkept⟩

/-! ### Loading -/

/-- What addClause_ asserts of its literals. -/
def NotEliminated (s : Solver) (lits : List ℤ) : Prop :=
  ∀ l ∈ lits, (miniLit l).1 ∉ s.eliminated

instance (s : Solver) (lits : List ℤ) : Decidable (NotEliminated s lits) :=
  inferInstanceAs (Decidable (∀ l ∈ lits, _))

theorem inScope_miniVec {s : Solver} {lits : List ℤ} (hover : OverVars s lits)
    (hkept : NotEliminated s lits) : ∀ p ∈ miniVec lits, InScope s p.1 := by
  intro p hp
  obtain ⟨l, hl, rfl⟩ := List.mem_map.mp hp
  obtain ⟨hne, hle⟩ := hover l hl
  have hpos : 0 < l.natAbs := Int.natAbs_pos.mpr hne
  refine ⟨?_, hkept l hl⟩
  show l.natAbs - 1 < s.nVars
  omega

theorem addClause_ok {ps : Clause ℕ} {order : Propagation} {b : Bool}
    (h : addClause_ s ps order = some (t, b)) (hok : t.ok = true) :
    s.ok = true ∧ b = true := by
  cases addClause_cases h with
  | inconsistent hfalse =>
    rw [hfalse] at hok
    cases hok
  | empty => cases hok
  | satisfied hs | clause hs => exact ⟨hs, rfl⟩
  | unit hs _ _ _ => exact ⟨hs, hok⟩

theorem SolverInvariant.addClause (hs : SolverInvariant f s) (hlevels : s.levels = [])
    {c : List ℤ} (hover : OverVars s c) (hkept : NotEliminated s c) {order : Propagation}
    (h : addClause_ s (miniVec c) order = some (t, true)) :
    SolverInvariant (f ++ [c]) t ∧ Ground s t := by
  have hground := (hs.isGround hlevels).addClause h
  have hdb := hs.database.addClause hlevels (inScope_miniVec hover hkept) h
  have hmap : (f ++ [c]).map miniVec = f.map miniVec ++ [miniVec c] := by simp
  refine ⟨⟨hmap ▸ hdb, fun d hd => ?_, hground.distinct, ?_, ?_⟩, hground⟩
  · rw [overVars_congr hground.nVars]
    rcases List.mem_append.mp hd with hd | hd
    · exact hs.overVars d hd
    · exact List.mem_singleton.mp hd ▸ hover
  · rw [hground.levels]
    trivial
  · intro p hp
    rw [InScope, hground.nVars, hground.eliminated]
    exact hs.frozen p (hground.assumptions ▸ hp)

theorem overVars_mono {lits : List ℤ} (h : OverVars s lits) (hle : s.nVars ≤ t.nVars) :
    OverVars t lits := fun l hl => ⟨(h l hl).1, (h l hl).2.trans hle⟩

theorem SolverInvariant.newVars (hs : SolverInvariant f s) (var : ℕ) :
    SolverInvariant f (s.newVars var) := by
  have hle : s.nVars ≤ (s.newVars var).nVars := Nat.le_max_left _ _
  exact ⟨hs.database.newVars var, fun c hc => overVars_mono (hs.overVars c hc) hle,
    hs.distinct, hs.placed,
    fun p hp => ⟨(hs.frozen p hp).1.trans_le hle, (hs.frozen p hp).2⟩⟩

end Painless.MapleTrail
