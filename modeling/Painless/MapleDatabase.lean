import Painless.MapleSolver

/-!
What the clauses of the Maple engine have to do with the formula loaded into it.
A partial assignment that makes the formula true makes the kept and the stored
clauses true; one that makes the kept clauses true, and the stored ones when it
is extended to the eliminated variables, makes the formula true. Both hold at
every moment, whatever the order in which clauses are added, removed and
resolved and variables eliminated. Literals set at level 0 are taken to be true,
wherever they come from.
-/
namespace Painless.MapleDatabase

open Cnf PartialAssignment MapleSolver

/-! ### The trail -/

/-- Nothing but the trail has changed, and no level has lost a literal. -/
structure TrailGrows (s t : Solver) : Prop where
  same : t = { s with root := t.root, levels := t.levels }
  root : s.root ⊆ t.root
  levels : s.levels = [] → t.levels = []

theorem TrailGrows.refl (s : Solver) : TrailGrows s s :=
  ⟨rfl, fun _ h => h, fun h => h⟩

theorem TrailGrows.trans {s t u : Solver} (h : TrailGrows s t) (h' : TrailGrows t u) :
    TrailGrows s u := by
  refine ⟨?_, fun _ hl => h'.root (h.root hl), fun hl => h'.levels (h.levels hl)⟩
  rw [h'.same, h.same]

theorem trailGrows_enqueue (s : Solver) (p : Literal ℕ) :
    TrailGrows s (s.uncheckedEnqueue p) := by
  unfold Solver.uncheckedEnqueue
  split
  · rename_i hlevels
    exact ⟨rfl, List.subset_append_left _ _, fun h => h⟩
  · rename_i hlevels
    exact ⟨rfl, fun _ h => h, fun h => by simp [hlevels] at h⟩

/-- What holds before propagation and is kept when a literal without a value is
enqueued holds after it. -/
theorem propagate_rule {P : Solver → Prop}
    (hstep : ∀ u l, P u → u.value l.1 = none → P (u.uncheckedEnqueue l))
    {s t : Solver} {implied : List (Literal ℕ × Clause ℕ)} {confl : Option (Clause ℕ)}
    (hs : P s) (h : propagate s implied confl = some t) : P t := by
  induction implied generalizing s with
  | nil =>
    cases confl with
    | none =>
      rw [propagate] at h
      obtain ⟨-, ht⟩ := Option.ite_none_right_eq_some.mp h
      exact Option.some.inj ht ▸ hs
    | some c =>
      rw [propagate] at h
      obtain ⟨-, ht⟩ := Option.ite_none_right_eq_some.mp h
      exact Option.some.inj ht ▸ hs
  | cons next rest ih =>
    obtain ⟨l, c⟩ := next
    rw [propagate] at h
    obtain ⟨⟨-, -, hnone, -⟩, hrest⟩ := Option.ite_none_right_eq_some.mp h
    exact ih (hstep s l hs hnone) hrest

theorem trailGrows_propagate {s t : Solver} {implied : List (Literal ℕ × Clause ℕ)}
    {confl : Option (Clause ℕ)} (h : propagate s implied confl = some t) :
    TrailGrows s t := by
  refine propagate_rule (P := TrailGrows s) (fun u l hu _ => ?_) (TrailGrows.refl s) h
  exact hu.trans (trailGrows_enqueue u l)

theorem mem_trail_of_isTrue {s : Solver} {l : Literal ℕ} (h : IsTrue s.value l) :
    l ∈ s.trail := by
  obtain ⟨q, hq, hsign⟩ := Option.map_eq_some_iff.mp h
  have hvar : q.1 = l.1 := by simpa using List.find?_some hq
  have heq : q = l := Prod.ext hvar hsign
  exact heq ▸ List.mem_of_find?_eq_some hq

theorem mem_root_of_isTrue {s : Solver} {l : Literal ℕ} (hlevels : s.levels = [])
    (h : IsTrue s.value l) : l ∈ s.root := by
  have htrail := mem_trail_of_isTrue h
  simpa [Solver.trail, hlevels] using htrail

/-- The literals of level 0 on the variables in `P` are true. -/
def RootTrue (P : ℕ → Prop) (root : List (Literal ℕ)) (M : Partial ℕ) : Prop :=
  ∀ l ∈ root, P l.1 → IsTrue M l

theorem RootTrue.subset {P : ℕ → Prop} {root root' : List (Literal ℕ)} {M : Partial ℕ}
    (h : RootTrue P root' M) (hsub : root ⊆ root') : RootTrue P root M :=
  fun l hl => h l (hsub hl)

theorem RootTrue.isFalse {P : ℕ → Prop} {s : Solver} {M : Partial ℕ} {l : Literal ℕ}
    (h : RootTrue P s.root M) (hlevels : s.levels = []) (hl : P l.1)
    (hfalse : IsFalse s.value l) : IsFalse M l :=
  isTrue_negate.mp (h (negate l) (mem_root_of_isTrue hlevels hfalse) hl)

/-! ### Adding clauses -/

/-- What addClause_ may do with a clause. -/
inductive AddClause (s : Solver) (ps : Clause ℕ) (order : Propagation) :
    Solver → Bool → Prop
  | inconsistent (hok : s.ok = false) : AddClause s ps order s false
  | satisfied (hok : s.ok = true) (h : (∃ l ∈ ps, IsTrue s.value l) ∨ Tautology ps) :
      AddClause s ps order s true
  | empty : AddClause s ps order { s with ok := false } false
  | unit (hok : s.ok = true) {p : Literal ℕ} {u : Solver} (hp : p ∈ ps)
      (hnone : s.value p.1 = none)
      (hu : propagate (s.uncheckedEnqueue p) order.implied order.confl = some u) :
      AddClause s ps order { u with ok := order.confl.isNone } order.confl.isNone
  | clause (hok : s.ok = true) (hproper : ¬ Tautology ps) :
      AddClause s ps order
        { s with clauses := s.clauses ++ [ps.dedup.filter fun l => ¬ IsFalse s.value l] } true

theorem addClause_cases {s t : Solver} {ps : Clause ℕ} {order : Propagation} {b : Bool}
    (h : addClause_ s ps order = some (t, b)) : AddClause s ps order t b := by
  unfold addClause_ at h
  split at h
  · rename_i hok
    obtain ⟨rfl, rfl⟩ := Prod.mk.inj (Option.some.inj h)
    exact .inconsistent hok
  rename_i hok
  have hok := (Bool.not_eq_false _).mp hok
  split at h
  · rename_i htrue
    obtain ⟨rfl, rfl⟩ := Prod.mk.inj (Option.some.inj h)
    exact .satisfied hok htrue
  rename_i hnot
  rw [not_or] at hnot
  split at h
  · obtain ⟨rfl, rfl⟩ := Prod.mk.inj (Option.some.inj h)
    exact .empty
  · rename_i p hunit
    obtain ⟨u, hu, hpair⟩ := Option.map_eq_some_iff.mp h
    obtain ⟨rfl, rfl⟩ := Prod.mk.inj hpair
    -- the literal that is left is neither true nor false
    have hp : p ∈ ps.dedup.filter fun l => ¬ IsFalse s.value l := by
      rw [hunit]
      exact List.mem_singleton_self p
    obtain ⟨hmem, hfalse⟩ := List.mem_filter.mp hp
    have hps := List.mem_dedup.mp hmem
    exact .unit hok hps
      (eq_none_of_not (fun htrue => hnot.1 ⟨p, hps, htrue⟩) (by simpa using hfalse)) hu
  · obtain ⟨rfl, rfl⟩ := Prod.mk.inj (Option.some.inj h)
    exact .clause hok hnot.2

/-- What addClause_ makes of a clause. -/
def Covered (M : Partial ℕ) (c : Clause ℕ) : Prop := Tautology c ∨ ClauseTrue M c

/-- What is left of the clauses that have been added, one by one. -/
structure Adds (s t : Solver) (cs : Formula ℕ) (added : Formula ℕ) : Prop where
  same : t = { s with
    ok := t.ok, clauses := s.clauses ++ added, root := t.root, levels := t.levels }
  root : s.root ⊆ t.root
  levels : t.levels = []
  proper : ∀ c ∈ added, ¬ Tautology c ∧ ∃ d ∈ cs, c ⊆ d
  holds : ∀ (P : ℕ → Prop) (M : Partial ℕ), (∀ c ∈ cs, ∀ l ∈ c, P l.1) →
    RootTrue P t.root M → (FormulaTrue M added ↔ ∀ c ∈ cs, Covered M c)

theorem addClause_adds {s t : Solver} {ps : Clause ℕ} {order : Propagation}
    (hlevels : s.levels = []) (h : addClause_ s ps order = some (t, true)) :
    ∃ added, Adds s t [ps] added := by
  have hcase := addClause_cases h
  generalize hb : true = b at hcase
  cases hcase with
  | inconsistent | empty => cases hb
  | satisfied _ htrue =>
    -- the clause is true at level 0, or always
    refine ⟨[], by simp, fun _ hl => hl, hlevels, by simp, fun P M hP hM => ?_⟩
    simp only [List.forall_mem_singleton] at hP ⊢
    refine iff_of_true (by simp [FormulaTrue]) ?_
    rcases htrue with ⟨l, hl, htrue⟩ | htaut
    · exact Or.inr ⟨l, hl, hM l (mem_root_of_isTrue hlevels htrue) (hP l hl)⟩
    · exact Or.inl htaut
  | @unit _ p u hps _ hu =>
    -- the one literal left is set at level 0
    have hgrows := trailGrows_propagate hu
    have hall := (trailGrows_enqueue s p).trans hgrows
    have hp : p ∈ u.root := hgrows.root (by simp [Solver.uncheckedEnqueue, hlevels])
    refine ⟨[], ?_, hall.root, hall.levels hlevels, by simp, fun P M hP hM => ?_⟩
    · rw [hall.same]
      simp
    · simp only [List.forall_mem_singleton] at hP ⊢
      exact iff_of_true (by simp [FormulaTrue]) (Or.inr ⟨p, hps, hM p hp (hP p hps)⟩)
  | clause _ hproper =>
    have hmem : ∀ {l : Literal ℕ},
        l ∈ ps.dedup.filter (fun l => ¬ IsFalse s.value l) → l ∈ ps :=
      fun hl => List.mem_dedup.mp (List.mem_of_mem_filter hl)
    refine ⟨[ps.dedup.filter fun l => ¬ IsFalse s.value l], rfl, fun _ hl => hl, hlevels,
      ?_, fun P M hP hM => ?_⟩
    · simp only [List.forall_mem_singleton]
      exact ⟨not_tautology_of_subset hproper fun _ => hmem,
        ps, List.mem_singleton_self ps, fun _ => hmem⟩
    · simp only [List.forall_mem_singleton] at hP ⊢
      rw [formulaTrue_cons]
      constructor
      · exact fun hadded => Or.inr (hadded.1.subset fun _ => hmem)
      · intro hps
        refine ⟨?_, by simp [FormulaTrue]⟩
        refine ClauseTrue.filter ((hps.resolve_left hproper).subset fun l hl =>
          List.mem_dedup.mpr hl) fun l hl hfalse => ?_
        have hroot : RootTrue P s.root M := hM
        exact hroot.isFalse hlevels (hP l (List.mem_dedup.mp hl)) (by simpa using hfalse)

theorem addClauses_adds {s t : Solver} {cs : Formula ℕ} {orders : List Propagation}
    (hlevels : s.levels = []) (h : addClauses s cs orders = some (t, true)) :
    ∃ added, Adds s t cs added := by
  induction cs generalizing s orders with
  | nil =>
    obtain ⟨rfl, -⟩ := Prod.mk.inj (Option.some.inj h)
    refine ⟨[], by simp, fun _ hl => hl, hlevels, by simp, fun P M _ _ => ?_⟩
    simp [FormulaTrue]
  | cons c cs ih =>
    cases orders with
    | nil => exact absurd h (by simp [addClauses])
    | cons order orders =>
      rw [addClauses] at h
      obtain ⟨⟨u, ok⟩, hu, hrest⟩ := Option.bind_eq_some_iff.mp h
      cases ok with
      | false => simp at hrest
      | true =>
        obtain ⟨first, hfirst⟩ := addClause_adds hlevels hu
        obtain ⟨more, hmore⟩ := ih hfirst.levels hrest
        refine ⟨first ++ more, ?_, fun _ hl => hmore.root (hfirst.root hl), hmore.levels,
          fun d hd => ?_, fun P M hP hM => ?_⟩
        · rw [hmore.same, hfirst.same]
          simp
        · rcases List.mem_append.mp hd with hd | hd
          · obtain ⟨hproper, e, he, hsub⟩ := hfirst.proper d hd
            exact ⟨hproper, c, List.mem_cons_self,
              (List.mem_singleton.mp he) ▸ hsub⟩
          · obtain ⟨hproper, e, he, hsub⟩ := hmore.proper d hd
            exact ⟨hproper, e, List.mem_cons_of_mem c he, hsub⟩
        · rw [List.forall_mem_cons] at hP ⊢
          rw [formulaTrue_append, hmore.holds P M hP.2 hM,
            hfirst.holds P M (by simpa using hP.1) (hM.subset hmore.root)]
          simp

/-! ### The invariant -/

/-- The variables on which a clause or a decision may be. -/
def InScope (s : Solver) (v : ℕ) : Prop := v < s.nVars ∧ v ∉ s.eliminated

/-- The assignment, extended to the eliminated variables. -/
def extended (s : Solver) (M : Partial ℕ) : Partial ℕ := reconstruct s.elimclauses M

structure DatabaseInvariant (f : Formula ℕ) (s : Solver) : Prop where
  scope : ∀ c ∈ s.clauses, ∀ l ∈ c, InScope s l.1
  proper : ∀ c ∈ s.clauses, ¬ Tautology c
  eliminated : ∀ v ∈ s.eliminated, v < s.nVars
  targets : ∀ e ∈ s.elimclauses, e.literal.1 ∈ s.eliminated
  kept : ∀ M, RootTrue (InScope s) s.root M → FormulaTrue M f →
    FormulaTrue M s.clauses ∧ FormulaTrue M (saved s.elimclauses)
  complete : ∀ M, RootTrue (InScope s) s.root M → FormulaTrue M s.clauses →
    FormulaTrue (extended s M) (saved s.elimclauses) →
    ∀ c ∈ f, Covered (extended s M) c
  total : ∀ M, (∀ v, InScope s v → M v ≠ none) →
    FormulaTrue (extended s M) (saved s.elimclauses) ∧
      ∀ v < s.nVars, extended s M v ≠ none

theorem DatabaseInvariant.extended_eq {f : Formula ℕ} {s : Solver}
    (hs : DatabaseInvariant f s) (M : Partial ℕ) {v : ℕ} (hv : v ∉ s.eliminated) :
    extended s M v = M v := by
  refine reconstruct_of_ne fun e he heq => hv ?_
  exact heq ▸ hs.targets e he

theorem DatabaseInvariant.clauseTrue_extended {f : Formula ℕ} {s : Solver}
    (hs : DatabaseInvariant f s) (M : Partial ℕ) {c : Clause ℕ}
    (hc : ∀ l ∈ c, InScope s l.1) : ClauseTrue (extended s M) c ↔ ClauseTrue M c :=
  clauseTrue_congr fun l hl => hs.extended_eq M (hc l hl).2

/-- Other clauses that are true under the same assignments, and more literals at
level 0. -/
theorem DatabaseInvariant.replace {f : Formula ℕ} {s t : Solver}
    (hs : DatabaseInvariant f s) (hnVars : t.nVars = s.nVars)
    (heliminated : t.eliminated = s.eliminated) (hstack : t.elimclauses = s.elimclauses)
    (hroot : s.root ⊆ t.root)
    (hclauses : ∀ c ∈ t.clauses, ¬ Tautology c ∧ ∀ l ∈ c, InScope s l.1)
    (hsame : ∀ M, RootTrue (InScope s) t.root M →
      (FormulaTrue M t.clauses ↔ FormulaTrue M s.clauses)) :
    DatabaseInvariant f t := by
  have hscope : InScope t = InScope s := by
    unfold InScope
    rw [hnVars, heliminated]
  have hextended : ∀ M, extended t M = extended s M := by
    intro M
    rw [extended, hstack, extended]
  refine ⟨fun c hc => ?_, fun c hc => (hclauses c hc).1, ?_, ?_, ?_, ?_, ?_⟩
  · rw [hscope]
    exact (hclauses c hc).2
  · rw [heliminated, hnVars]
    exact hs.eliminated
  · rw [hstack, heliminated]
    exact hs.targets
  · rw [hscope, hstack]
    intro M hM hf
    rw [hsame M hM]
    exact hs.kept M (hM.subset hroot) hf
  · rw [hscope, hstack]
    intro M hM hc
    rw [hextended]
    exact hs.complete M (hM.subset hroot) ((hsame M hM).mp hc)
  · rw [hscope, hstack, hnVars]
    intro M hM
    rw [hextended]
    exact hs.total M hM

/-- Nothing but level 0 and what does not matter here has changed. -/
theorem DatabaseInvariant.congr {f : Formula ℕ} {s t : Solver}
    (hs : DatabaseInvariant f s) (hnVars : t.nVars = s.nVars)
    (heliminated : t.eliminated = s.eliminated) (hstack : t.elimclauses = s.elimclauses)
    (hclauses : t.clauses = s.clauses) (hroot : s.root ⊆ t.root) :
    DatabaseInvariant f t := by
  refine hs.replace hnVars heliminated hstack hroot (fun c hc => ?_) (fun M _ => ?_)
  · rw [hclauses] at hc
    exact ⟨hs.proper c hc, hs.scope c hc⟩
  · rw [hclauses]

theorem DatabaseInvariant.trailGrows {f : Formula ℕ} {s t : Solver}
    (hs : DatabaseInvariant f s) (h : TrailGrows s t) : DatabaseInvariant f t := by
  refine hs.congr ?_ ?_ ?_ ?_ h.root <;> rw [h.same]

theorem DatabaseInvariant.newVars {f : Formula ℕ} {s : Solver}
    (hs : DatabaseInvariant f s) (var : ℕ) : DatabaseInvariant f (s.newVars var) := by
  have hle : s.nVars ≤ (s.newVars var).nVars := Nat.le_max_left _ _
  have hscope : ∀ v, InScope s v → InScope (s.newVars var) v :=
    fun v hv => ⟨Nat.lt_of_lt_of_le hv.1 hle, hv.2⟩
  have hroot : ∀ M, RootTrue (InScope (s.newVars var)) s.root M →
      RootTrue (InScope s) s.root M := fun M hM l hl hv => hM l hl (hscope l.1 hv)
  refine ⟨fun c hc l hl => hscope l.1 (hs.scope c hc l hl), hs.proper,
    fun v hv => Nat.lt_of_lt_of_le (hs.eliminated v hv) hle, hs.targets,
    fun M hM => hs.kept M (hroot M hM), fun M hM => hs.complete M (hroot M hM),
    fun M hM => ?_⟩
  obtain ⟨hsaved, hassigned⟩ := hs.total M fun v hv => hM v (hscope v hv)
  refine ⟨hsaved, fun v hv => ?_⟩
  by_cases hold : v < s.nVars
  · exact hassigned v hold
  · -- a new variable is not eliminated
    have hnew : v ∉ s.eliminated := fun h => hold (hs.eliminated v h)
    exact reconstruct_ne_none (hM v ⟨hv, hnew⟩)

/-- A clause of the formula is added. -/
theorem DatabaseInvariant.addClause {f : Formula ℕ} {s t : Solver} {ps : Clause ℕ}
    {order : Propagation} (hs : DatabaseInvariant f s) (hlevels : s.levels = [])
    (hps : ∀ l ∈ ps, InScope s l.1) (h : addClause_ s ps order = some (t, true)) :
    DatabaseInvariant (f ++ [ps]) t := by
  obtain ⟨added, hadds⟩ := addClause_adds hlevels h
  have hholds := fun M hM => hadds.holds (InScope s) M (by simpa using hps) hM
  simp only [List.forall_mem_singleton] at hholds
  have hscope : InScope t = InScope s := by
    unfold InScope
    rw [hadds.same]
  have hclauses : t.clauses = s.clauses ++ added := by rw [hadds.same]
  have hstack : t.elimclauses = s.elimclauses := by rw [hadds.same]
  have hextended : ∀ M, extended t M = extended s M := by
    intro M
    rw [extended, hstack, extended]
  refine ⟨?_, ?_, ?_, ?_, ?_, ?_, ?_⟩
  · rw [hscope, hclauses]
    intro c hc
    rcases List.mem_append.mp hc with hc | hc
    · exact hs.scope c hc
    · obtain ⟨-, d, hd, hsub⟩ := hadds.proper c hc
      obtain rfl := List.mem_singleton.mp hd
      exact fun l hl => hps l (hsub hl)
  · rw [hclauses]
    intro c hc
    rcases List.mem_append.mp hc with hc | hc
    · exact hs.proper c hc
    · exact (hadds.proper c hc).1
  · rw [hadds.same]
    exact hs.eliminated
  · rw [hadds.same]
    exact hs.targets
  · rw [hscope, hclauses, hstack]
    intro M hM hf
    obtain ⟨hold, hnew⟩ := formulaTrue_append.mp hf
    obtain ⟨hkept, hsaved⟩ := hs.kept M (hM.subset hadds.root) hold
    refine ⟨formulaTrue_append.mpr ⟨hkept, (hholds M hM).mpr ?_⟩, hsaved⟩
    exact Or.inr (hnew ps (List.mem_singleton_self ps))
  · rw [hscope, hclauses, hstack]
    intro M hM hc
    rw [hextended]
    obtain ⟨hold, hnew⟩ := formulaTrue_append.mp hc
    intro hsaved c hcf
    rcases List.mem_append.mp hcf with hcf | hcf
    · exact hs.complete M (hM.subset hadds.root) hold hsaved c hcf
    · obtain rfl := List.mem_singleton.mp hcf
      exact ((hholds M hM).mp hnew).imp_right (hs.clauseTrue_extended M hps).mpr
  · rw [hscope, hstack, hadds.same]
    intro M hM
    exact hs.total M hM

/-! ### Resolution -/

theorem mem_without {c : Clause ℕ} {v : ℕ} {l : Literal ℕ} :
    l ∈ without c v ↔ l ∈ c ∧ l.1 ≠ v := by
  simp [without, List.mem_filter]

theorem mem_mergeInto {larger smaller r : Clause ℕ} {v : ℕ}
    (h : mergeInto larger smaller v = some r) (l : Literal ℕ) :
    l ∈ r ↔ l ∈ without larger v ∨ l ∈ without smaller v := by
  obtain ⟨-, hr⟩ := Option.ite_none_left_eq_some.mp h
  obtain rfl := Option.some.inj hr
  simp only [List.mem_append, List.mem_filter, decide_eq_true_eq]
  by_cases hl : l ∈ without larger v <;> simp [hl]

theorem mem_merge {ps qs r : Clause ℕ} {v : ℕ} (h : merge ps qs v = some r)
    (l : Literal ℕ) : l ∈ r ↔ l ∈ without ps v ∨ l ∈ without qs v := by
  unfold merge at h
  split at h
  · exact (mem_mergeInto h l).trans or_comm
  · exact mem_mergeInto h l

theorem clash_of_mergeInto_none {larger smaller : Clause ℕ} {v : ℕ}
    (h : mergeInto larger smaller v = none) :
    ∃ l ∈ without smaller v, negate l ∈ without larger v := by
  by_contra hclash
  rw [mergeInto, if_neg hclash] at h
  cases h

theorem clash_of_merge_none {ps qs : Clause ℕ} {v : ℕ} (h : merge ps qs v = none) :
    ∃ l ∈ without ps v, negate l ∈ without qs v := by
  unfold merge at h
  split at h
  · exact clash_of_mergeInto_none h
  · obtain ⟨l, hl, hnegate⟩ := clash_of_mergeInto_none h
    exact ⟨negate l, hnegate, by rwa [negate_negate]⟩

/-- A clause with the variable has it with one sign only. -/
theorem sign_of_proper {c : Clause ℕ} {v : ℕ} {b : Bool} (hc : ¬ Tautology c)
    (hv : (v, b) ∈ c) {l : Literal ℕ} (hl : l ∈ c) (hvar : l.1 = v) : l.2 = b := by
  by_contra hsign
  refine hc ⟨(v, b), hv, ?_⟩
  have hnegate : negate (v, b) = l := by
    obtain ⟨w, b'⟩ := l
    obtain rfl : w = v := hvar
    cases b <;> cases b' <;> simp_all [negate]
  rwa [hnegate]

theorem exists_true_of_resolved {M : Partial ℕ} {c d : Clause ℕ} {v : ℕ} {b : Bool}
    (hc : ∀ l ∈ c, l.1 = v → l.2 = b) (hd : ∀ l ∈ d, l.1 = v → l.2 = !b)
    (hctrue : ClauseTrue M c) (hdtrue : ClauseTrue M d) :
    ∃ l, (l ∈ without c v ∨ l ∈ without d v) ∧ IsTrue M l := by
  obtain ⟨l, hl, hltrue⟩ := hctrue
  obtain ⟨q, hq, hqtrue⟩ := hdtrue
  by_cases hlv : l.1 = v
  · by_cases hqv : q.1 = v
    · -- both true literals would be on the variable
      have hsign : some l.2 = some q.2 := by
        rw [← show M l.1 = some l.2 from hltrue, hlv, ← hqv]
        exact hqtrue
      rw [hc l hl hlv, hd q hq hqv, Option.some.injEq] at hsign
      cases b <;> cases hsign
    · exact ⟨q, Or.inr (mem_without.mpr ⟨hq, hqv⟩), hqtrue⟩
  · exact ⟨l, Or.inl (mem_without.mpr ⟨hl, hlv⟩), hltrue⟩

theorem clauseTrue_merge {M : Partial ℕ} {c d r : Clause ℕ} {v : ℕ}
    (hc : ¬ Tautology c) (hd : ¬ Tautology d) (hcv : (v, true) ∈ c) (hdv : (v, false) ∈ d)
    (hr : merge c d v = some r) (hctrue : ClauseTrue M c) (hdtrue : ClauseTrue M d) :
    ClauseTrue M r := by
  obtain ⟨l, hl, htrue⟩ := exists_true_of_resolved (b := true)
    (fun l hl => sign_of_proper hc hcv hl) (fun l hl => sign_of_proper hd hdv hl)
    hctrue hdtrue
  exact ⟨l, (mem_merge hr l).mpr hl, htrue⟩

/-- A resolvent of two clauses is added. -/
theorem DatabaseInvariant.resolve {f : Formula ℕ} {s t : Solver} {c d r : Clause ℕ}
    {v : ℕ} {order : Propagation} (hs : DatabaseInvariant f s) (hlevels : s.levels = [])
    (hc : c ∈ s.clauses) (hd : d ∈ s.clauses) (hcv : (v, true) ∈ c)
    (hdv : (v, false) ∈ d) (hr : merge c d v = some r)
    (h : addClause_ s r order = some (t, true)) : DatabaseInvariant f t := by
  obtain ⟨added, hadds⟩ := addClause_adds hlevels h
  have hrscope : ∀ l ∈ r, InScope s l.1 := by
    intro l hl
    rcases (mem_merge hr l).mp hl with hl | hl
    · exact hs.scope c hc l (mem_without.mp hl).1
    · exact hs.scope d hd l (mem_without.mp hl).1
  have hclauses : t.clauses = s.clauses ++ added := by rw [hadds.same]
  refine hs.replace ?_ ?_ ?_ hadds.root (fun e he => ?_) (fun M hM => ?_)
  · rw [hadds.same]
  · rw [hadds.same]
  · rw [hadds.same]
  · rw [hclauses] at he
    rcases List.mem_append.mp he with he | he
    · exact ⟨hs.proper e he, hs.scope e he⟩
    · obtain ⟨hproper, e', he', hsub⟩ := hadds.proper e he
      obtain rfl := List.mem_singleton.mp he'
      exact ⟨hproper, fun l hl => hrscope l (hsub hl)⟩
  · rw [hclauses, formulaTrue_append, hadds.holds (InScope s) M (by simpa using hrscope) hM]
    simp only [List.forall_mem_singleton]
    refine ⟨And.left, fun hf => ⟨hf, Or.inr ?_⟩⟩
    exact clauseTrue_merge (hs.proper c hc) (hs.proper d hd) hcv hdv hr (hf c hc) (hf d hd)

/-! ### Removal -/

/-- A clause goes that the remaining ones make true. -/
theorem DatabaseInvariant.remove {f : Formula ℕ} {s t : Solver}
    (hs : DatabaseInvariant f s) (hnVars : t.nVars = s.nVars)
    (heliminated : t.eliminated = s.eliminated) (hstack : t.elimclauses = s.elimclauses)
    (hroot : t.root = s.root) (hsub : t.clauses ⊆ s.clauses)
    (hholds : ∀ M, RootTrue (InScope s) s.root M → FormulaTrue M t.clauses →
      ∀ c ∈ s.clauses, c ∉ t.clauses → ClauseTrue M c) : DatabaseInvariant f t := by
  refine hs.replace hnVars heliminated hstack (by rw [hroot]; exact fun _ h => h)
    (fun c hc => ⟨hs.proper c (hsub hc), hs.scope c (hsub hc)⟩) (fun M hM => ?_)
  rw [hroot] at hM
  refine ⟨fun hf c hc => ?_, fun hf => hf.subset hsub⟩
  by_cases hkept : c ∈ t.clauses
  · exact hf c hkept
  · exact hholds M hM hf c hc hkept

theorem DatabaseInvariant.removeSatisfied {f : Formula ℕ} {s : Solver}
    (hs : DatabaseInvariant f s) (hlevels : s.levels = []) :
    DatabaseInvariant f (removeSatisfied s) := by
  refine hs.remove rfl rfl rfl rfl (fun c hc => List.mem_of_mem_filter hc)
    (fun M hM _ c hc hgone => ?_)
  have htrue : ClauseTrue s.value c := by
    by_contra hfalse
    exact hgone (List.mem_filter.mpr ⟨hc, by simpa using hfalse⟩)
  obtain ⟨l, hl, hvalue⟩ := htrue
  exact ⟨l, hl, hM l (mem_root_of_isTrue hlevels hvalue) (hs.scope c hc l hl)⟩

/-- A clause that another one subsumes goes. -/
theorem DatabaseInvariant.subsume {f : Formula ℕ} {s : Solver} (hs : DatabaseInvariant f s)
    {c d : Clause ℕ} (hd : d ∈ s.clauses.erase c) (hsub : d ⊆ c) :
    DatabaseInvariant f { s with clauses := s.clauses.erase c } := by
  refine hs.remove rfl rfl rfl rfl List.erase_subset (fun M _ hf e he hgone => ?_)
  have hec : e = c := by
    by_contra hne
    exact hgone ((List.mem_erase_of_ne hne).mpr he)
  rw [hec]
  exact (hf d hd).subset hsub

/-! ### Strengthening -/

/-- What strengthenClause may do with a clause. -/
inductive StrengthenClause (s : Solver) (c : Clause ℕ) (l : Literal ℕ)
    (order : Propagation) : Solver → Bool → Prop
  | satisfied {p : Literal ℕ} (hp : c.filter (fun q => q ≠ l) = [p])
      (htrue : IsTrue s.value p) :
      StrengthenClause s c l order { s with clauses := s.clauses.erase c } true
  | falsified :
      StrengthenClause s c l order { s with clauses := s.clauses.erase c, ok := false } false
  | unit {p : Literal ℕ} {u : Solver} (hp : c.filter (fun q => q ≠ l) = [p])
      (hnone : s.value p.1 = none)
      (hu : propagate ({ s with clauses := s.clauses.erase c }.uncheckedEnqueue p)
        order.implied order.confl = some u) :
      StrengthenClause s c l order { u with ok := order.confl.isNone } order.confl.isNone
  | clause :
      StrengthenClause s c l order
        { s with clauses := s.clauses.erase c ++ [c.filter fun q => q ≠ l] } true

theorem strengthenClause_cases {s t : Solver} {c : Clause ℕ} {l : Literal ℕ}
    {order : Propagation} {b : Bool} (h : strengthenClause s c l order = some (t, b)) :
    StrengthenClause s c l order t b := by
  unfold strengthenClause at h
  split at h
  · rename_i p hp
    split at h
    · rename_i htrue
      obtain ⟨rfl, rfl⟩ := Prod.mk.inj (Option.some.inj h)
      exact .satisfied hp htrue
    split at h
    · obtain ⟨rfl, rfl⟩ := Prod.mk.inj (Option.some.inj h)
      exact .falsified
    · rename_i htrue hfalse
      obtain ⟨u, hu, hpair⟩ := Option.map_eq_some_iff.mp h
      obtain ⟨rfl, rfl⟩ := Prod.mk.inj hpair
      exact .unit hp (eq_none_of_not htrue hfalse) hu
  · obtain ⟨rfl, rfl⟩ := Prod.mk.inj (Option.some.inj h)
    exact .clause

theorem clauseTrue_strengthen {M : Partial ℕ} {c d : Clause ℕ} {l : Literal ℕ}
    (h : Strengthens c d l) (hc : ClauseTrue M c) (hd : ClauseTrue M d) :
    ClauseTrue M (c.filter fun q => q ≠ l) := by
  obtain ⟨q, hq, htrue⟩ := hc
  by_cases hql : q = l
  · -- then the opposite literal is false, and another literal of d true
    subst hql
    obtain ⟨r, hr, hrtrue⟩ := hd
    have hne : r ≠ negate q := by
      rintro rfl
      exact htrue.not_isFalse (isTrue_negate.mp hrtrue)
    obtain ⟨hrc, hrq⟩ := h.2.2 r hr hne
    exact ⟨r, List.mem_filter.mpr ⟨hrc, by simpa using hrq⟩, hrtrue⟩
  · exact ⟨q, List.mem_filter.mpr ⟨hq, by simpa using hql⟩, htrue⟩

theorem formulaTrue_erase {M : Partial ℕ} {f : Formula ℕ} {c : Clause ℕ}
    (hf : FormulaTrue M (f.erase c)) (hc : ClauseTrue M c) : FormulaTrue M f := by
  intro e he
  by_cases hec : e = c
  · exact hec ▸ hc
  · exact hf e ((List.mem_erase_of_ne hec).mpr he)

theorem DatabaseInvariant.strengthen {f : Formula ℕ} {s t : Solver} {c d : Clause ℕ}
    {l : Literal ℕ} {order : Propagation} (hs : DatabaseInvariant f s)
    (hlevels : s.levels = []) (hc : c ∈ s.clauses) (hd : d ∈ s.clauses)
    (hstrengthens : Strengthens c d l) (h : strengthenClause s c l order = some (t, true)) :
    DatabaseInvariant f t := by
  have hrest : ∀ q ∈ c.filter (fun q => q ≠ l), q ∈ c := fun q hq => List.mem_of_mem_filter hq
  have herase : ∀ e ∈ s.clauses.erase c, ¬ Tautology e ∧ ∀ q ∈ e, InScope s q.1 :=
    fun e he => ⟨hs.proper e (List.mem_of_mem_erase he), hs.scope e (List.mem_of_mem_erase he)⟩
  -- one literal p is left, and it is true at level 0
  have hunit : ∀ {u : Solver} {p : Literal ℕ}, c.filter (fun q => q ≠ l) = [p] →
      p ∈ u.root → u.clauses = s.clauses.erase c → u.nVars = s.nVars →
      u.eliminated = s.eliminated → u.elimclauses = s.elimclauses → s.root ⊆ u.root →
      DatabaseInvariant f u := by
    intro u p hp hroot hclauses hnVars heliminated hstack hsub
    have hpc : p ∈ c := hrest p (by rw [hp]; exact List.mem_singleton_self p)
    refine hs.replace hnVars heliminated hstack hsub (by rwa [hclauses]) fun M hM => ?_
    rw [hclauses]
    refine ⟨fun hf => formulaTrue_erase hf ⟨p, hpc, ?_⟩, fun hf => hf.subset List.erase_subset⟩
    exact hM p hroot (hs.scope c hc p hpc)
  have hcase := strengthenClause_cases h
  generalize hb : true = b at hcase
  cases hcase with
  | falsified => cases hb
  | satisfied hp htrue =>
    exact hunit hp (mem_root_of_isTrue hlevels htrue) rfl rfl rfl rfl fun _ h => h
  | @unit p u hp _ hu =>
    have hgrows := trailGrows_propagate hu
    have hall := (trailGrows_enqueue { s with clauses := s.clauses.erase c } p).trans hgrows
    have hproot : p ∈ u.root := hgrows.root (by simp [Solver.uncheckedEnqueue, hlevels])
    refine hunit hp hproot ?_ ?_ ?_ ?_ hall.root <;> rw [hall.same]
  | clause =>
    refine hs.replace rfl rfl rfl (fun _ h => h) (fun e he => ?_) (fun M _ => ?_)
    · rcases List.mem_append.mp he with he | he
      · exact herase e he
      · obtain rfl := List.mem_singleton.mp he
        exact ⟨not_tautology_of_subset (hs.proper c hc) fun q hq => hrest q hq,
          fun q hq => hs.scope c hc q (hrest q hq)⟩
    · rw [formulaTrue_append]
      constructor
      · rintro ⟨hf, hnew⟩
        exact formulaTrue_erase hf ((hnew _ (List.mem_singleton_self _)).subset
          fun q hq => hrest q hq)
      · intro hf
        refine ⟨hf.subset List.erase_subset, fun e he => ?_⟩
        obtain rfl := List.mem_singleton.mp he
        exact clauseTrue_strengthen hstrengthens (hf c hc) (hf d hd)

end Painless.MapleDatabase
