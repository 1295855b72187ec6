import Painless.MapleDatabase

/-!
The elimination of a variable keeps what the clauses say about the formula: its
clauses of one sign are stored, those of the other sign follow from the
resolvents, and the extension of an assignment chooses the value that makes the
stored clauses true.
-/
namespace Painless.MapleElimination

open Cnf PartialAssignment MapleSolver MapleDatabase

/-- The clauses of the variable by its sign, and their resolvents. -/
structure Split (f : Formula ℕ) (v : ℕ) (b : Bool) (side opposite rs : Formula ℕ) :
    Prop where
  stored : ∀ c ∈ side, c ∈ f ∧ (v, b) ∈ c
  other : ∀ c ∈ opposite, c ∈ f ∧ (v, !b) ∈ c
  all : ∀ c ∈ f, (∃ l ∈ c, l.1 = v) → c ∈ side ∨ c ∈ opposite
  resolvent : ∀ r ∈ rs, ∃ c ∈ side, ∃ d ∈ opposite,
    ∀ l, l ∈ r ↔ l ∈ without c v ∨ l ∈ without d v
  resolved : ∀ c ∈ side, ∀ d ∈ opposite, (∃ l ∈ without c v, negate l ∈ without d v) ∨
    ∃ r ∈ rs, ∀ l, l ∈ r ↔ l ∈ without c v ∨ l ∈ without d v

/-- The two sides change places. -/
theorem Split.symm {f side opposite rs : Formula ℕ} {v : ℕ} {b : Bool}
    (h : Split f v b side opposite rs) : Split f v (!b) opposite side rs := by
  refine ⟨h.other, fun c hc => ?_, fun c hc hv => (h.all c hc hv).symm, fun r hr => ?_,
    fun d hd c hc => ?_⟩
  · rw [Bool.not_not]
    exact h.stored c hc
  · obtain ⟨c, hc, d, hd, hmem⟩ := h.resolvent r hr
    exact ⟨d, hd, c, hc, fun l => (hmem l).trans or_comm⟩
  · rcases h.resolved c hc d hd with ⟨l, hl, hnegate⟩ | ⟨r, hr, hmem⟩
    · exact Or.inl ⟨negate l, hnegate, by rwa [negate_negate]⟩
    · exact Or.inr ⟨r, hr, fun l => (hmem l).trans or_comm⟩

theorem split_resolvents (s : Solver) (v : ℕ) :
    Split s.clauses v true (positive s v) (negative s v) (resolvents s v) := by
  have hoccurs : ∀ {c}, c ∈ occurs s v ↔ c ∈ s.clauses ∧ ∃ l ∈ c, l.1 = v := by
    intro c
    simp only [occurs, List.mem_filter, decide_eq_true_eq]
  have hpositive : ∀ {c}, c ∈ positive s v ↔ c ∈ occurs s v ∧ (v, true) ∈ c := by
    intro c
    simp only [positive, List.mem_filter, decide_eq_true_eq]
  have hnegative : ∀ {c}, c ∈ negative s v ↔ c ∈ occurs s v ∧ (v, true) ∉ c := by
    intro c
    simp only [negative, List.mem_filter, decide_eq_true_eq]
  have hmem : ∀ {r}, r ∈ resolvents s v ↔
      ∃ c ∈ positive s v, ∃ d ∈ negative s v, merge c d v = some r := by
    intro r
    simp only [resolvents, List.mem_flatMap, List.mem_filterMap]
  refine ⟨fun c hc => ?_, fun c hc => ?_, fun c hc hv => ?_, fun r hr => ?_,
    fun c hc d hd => ?_⟩
  · obtain ⟨hocc, hv⟩ := hpositive.mp hc
    exact ⟨(hoccurs.mp hocc).1, hv⟩
  · obtain ⟨hocc, hv⟩ := hnegative.mp hc
    obtain ⟨hcs, ⟨w, b⟩, hl, rfl⟩ := hoccurs.mp hocc
    cases b with
    | true => exact absurd hl hv
    | false => exact ⟨hcs, hl⟩
  · by_cases hsign : (v, true) ∈ c
    · exact Or.inl (hpositive.mpr ⟨hoccurs.mpr ⟨hc, hv⟩, hsign⟩)
    · exact Or.inr (hnegative.mpr ⟨hoccurs.mpr ⟨hc, hv⟩, hsign⟩)
  · obtain ⟨c, hc, d, hd, hmerge⟩ := hmem.mp hr
    exact ⟨c, hc, d, hd, mem_merge hmerge⟩
  · cases hmerge : merge c d v with
    | none => exact Or.inl (clash_of_merge_none hmerge)
    | some r => exact Or.inr ⟨r, hmem.mpr ⟨c, hc, d, hd, hmerge⟩, mem_merge hmerge⟩

/-! ### The stored clauses -/

theorem mkElimClauses_literal {cls : Formula ℕ} {x : Literal ℕ} {e : Entry ℕ}
    (he : e ∈ mkElimClauses cls x) : e.literal.1 = x.1 := by
  rcases List.mem_cons.mp he with rfl | he
  · rfl
  · obtain ⟨c, -, rfl⟩ := List.mem_map.mp (List.mem_reverse.mp he)
    rfl

theorem mem_saved_mkElimClauses {cls : Formula ℕ} {x : Literal ℕ} {c : Clause ℕ} :
    c ∈ saved (mkElimClauses cls x) ↔ ∃ d ∈ cls, c = x :: without d x.1 := by
  simp [saved, mkElimClauses, List.filterMap_cons, Entry.clause, List.filterMap_reverse,
    eq_comm]

theorem mkElimClauses_of_ne (cls : Formula ℕ) {x : Literal ℕ} (M : Partial ℕ) {v : ℕ}
    (hv : v ≠ x.1) : reconstruct (mkElimClauses cls x) M v = M v :=
  reconstruct_of_ne fun _ he heq => hv (heq.symm.trans (mkElimClauses_literal he))

/-- The variable gets the sign of its stored clauses if one of them needs it. -/
theorem mkElimClauses_value (cls : Formula ℕ) (x : Literal ℕ) (M : Partial ℕ) :
    reconstruct (mkElimClauses cls x) M x.1 =
      if ∃ c ∈ cls, ClauseFalse M (without c x.1) then some x.2 else some (!x.2) := by
  have hrests : (cls.map fun c => Entry.ifFalse x (without c x.1)).reverse =
      (cls.reverse.map fun c => without c x.1).map (Entry.ifFalse x) := by
    rw [← List.map_reverse, List.map_map]
    rfl
  have hfalse : ∀ c, ClauseFalse (Function.update M x.1 (some (!x.2))) (without c x.1) ↔
      ClauseFalse M (without c x.1) := fun c =>
    clauseFalse_congr fun l hl => Function.update_of_ne (mem_without.mp hl).2 ..
  have hunmentioned : ∀ rest ∈ cls.reverse.map (fun c => without c x.1),
      ∀ l ∈ rest, l.1 ≠ x.1 := by
    intro rest hrest l hl
    obtain ⟨c, -, rfl⟩ := List.mem_map.mp hrest
    exact (mem_without.mp hl).2
  have hexists : (∃ rest ∈ cls.reverse.map (fun c => without c x.1),
      ClauseFalse (Function.update M x.1 (some (!x.2))) rest) ↔
      ∃ c ∈ cls, ClauseFalse M (without c x.1) := by
    simp only [List.mem_map, List.mem_reverse, exists_exists_and_eq_and, hfalse]
  rw [mkElimClauses, reconstruct, Entry.apply_always, hrests,
    show (negate x).1 = x.1 from rfl, show (negate x).2 = !x.2 from rfl,
    reconstruct_group x hunmentioned, if_congr hexists rfl rfl, Function.update_self]

/-! ### One elimination -/

theorem mem_iff_of_sign {c : Clause ℕ} {v : ℕ} {b : Bool} (hc : ¬ Tautology c)
    (hv : (v, b) ∈ c) (l : Literal ℕ) : l ∈ (v, b) :: without c v ↔ l ∈ c := by
  rw [List.mem_cons, mem_without]
  constructor
  · rintro (rfl | h)
    · exact hv
    · exact h.1
  · intro hl
    by_cases hvar : l.1 = v
    · exact Or.inl (Prod.ext hvar (sign_of_proper hc hv hl hvar))
    · exact Or.inr ⟨hl, hvar⟩

theorem clauseTrue_iff_of_sign {M : Partial ℕ} {c : Clause ℕ} {v : ℕ} {b : Bool}
    (hc : ¬ Tautology c) (hv : (v, b) ∈ c) :
    ClauseTrue M ((v, b) :: without c v) ↔ ClauseTrue M c :=
  ⟨fun h => h.subset fun l hl => (mem_iff_of_sign hc hv l).mp hl,
    fun h => h.subset fun l hl => (mem_iff_of_sign hc hv l).mpr hl⟩

/-- The stored clauses are true when the variable has been given its value, if
their other variables are assigned. -/
theorem side_true {side : Formula ℕ} {v : ℕ} {b : Bool} {M : Partial ℕ} {c : Clause ℕ}
    (hc : c ∈ side)
    (htotal : ∀ l ∈ c, l.1 ≠ v → M l.1 ≠ none) :
    ClauseTrue (reconstruct (mkElimClauses side (v, b)) M) ((v, b) :: without c v) := by
  by_cases hfalse : ClauseFalse M (without c v)
  · have hvalue := mkElimClauses_value side (v, b) M
    rw [if_pos ⟨c, hc, hfalse⟩] at hvalue
    exact ⟨(v, b), List.mem_cons_self, hvalue⟩
  · obtain ⟨l, hl, htrue⟩ := clauseTrue_of_total
      (fun l hl => htotal l (mem_without.mp hl).1 (mem_without.mp hl).2) hfalse
    refine ⟨l, List.mem_cons_of_mem _ hl, ?_⟩
    exact (mkElimClauses_of_ne side M (mem_without.mp hl).2).trans htrue

section Elimination

variable {f : Formula ℕ} {v : ℕ} {b : Bool} {side opposite rs : Formula ℕ}
  (hsplit : Split f v b side opposite rs) (hproper : ∀ c ∈ f, ¬ Tautology c)

include hsplit hproper

theorem resolvents_true {M : Partial ℕ} (hf : FormulaTrue M f) : FormulaTrue M rs := by
  intro r hr
  obtain ⟨c, hc, d, hd, hmem⟩ := hsplit.resolvent r hr
  obtain ⟨hcf, hcv⟩ := hsplit.stored c hc
  obtain ⟨hdf, hdv⟩ := hsplit.other d hd
  obtain ⟨l, hl, htrue⟩ := exists_true_of_resolved
    (fun l hl => sign_of_proper (hproper c hcf) hcv hl)
    (fun l hl => sign_of_proper (hproper d hdf) hdv hl) (hf c hcf) (hf d hdf)
  exact ⟨l, (hmem l).mpr hl, htrue⟩

/-- A clause of the opposite sign is true by the resolvents once the value of the
variable falls to a clause of the stored side. -/
theorem opposite_true {M : Partial ℕ} (hrs : ∀ r ∈ rs, Covered M r) {c d : Clause ℕ}
    (hc : c ∈ side) (hd : d ∈ opposite) (hfalse : ClauseFalse M (without c v)) :
    ClauseTrue M (without d v) := by
  rcases hsplit.resolved c hc d hd with ⟨l, hl, hnegate⟩ | ⟨r, hr, hmem⟩
  · exact ⟨negate l, hnegate, isTrue_negate.mpr (hfalse l hl)⟩
  rcases hrs r hr with ⟨l, hl, hnegate⟩ | ⟨l, hl, htrue⟩
  · -- one of two opposite literals is in d, and the other one in c
    rcases (hmem l).mp hl with hlc | hld
    · rcases (hmem (negate l)).mp hnegate with hnc | hnd
      · exact absurd (isFalse_negate.mp (hfalse _ hnc)) fun h => h.not_isFalse (hfalse l hlc)
      · exact ⟨negate l, hnd, isTrue_negate.mpr (hfalse l hlc)⟩
    · rcases (hmem (negate l)).mp hnegate with hnc | hnd
      · exact ⟨l, hld, isFalse_negate.mp (hfalse _ hnc)⟩
      · refine absurd ⟨l, (mem_without.mp hld).1, (mem_without.mp hnd).1⟩
          (hproper d (hsplit.other d hd).1)
  · rcases (hmem l).mp hl with hlc | hld
    · exact absurd (hfalse l hlc) htrue.not_isFalse
    · exact ⟨l, hld, htrue⟩

/-- The clauses with the variable are true when it has been given its value, if
the stored ones are. -/
theorem formulaTrue_reconstruct {M : Partial ℕ}
    (hrest : ∀ c ∈ f, (∀ l ∈ c, l.1 ≠ v) → ClauseTrue M c) (hrs : ∀ r ∈ rs, Covered M r)
    (hside : ∀ c ∈ side,
      ClauseTrue (reconstruct (mkElimClauses side (v, b)) M) ((v, b) :: without c v)) :
    FormulaTrue (reconstruct (mkElimClauses side (v, b)) M) f := by
  have hne : ∀ w, w ≠ v → reconstruct (mkElimClauses side (v, b)) M w = M w :=
    fun w hw => mkElimClauses_of_ne side M hw
  intro c hc
  by_cases hv : ∃ l ∈ c, l.1 = v
  · rcases hsplit.all c hc hv with hcs | hco
    · exact (clauseTrue_iff_of_sign (hproper c hc) (hsplit.stored c hcs).2).mp (hside c hcs)
    · have hvalue := mkElimClauses_value side (v, b) M
      by_cases hneeded : ∃ e ∈ side, ClauseFalse M (without e v)
      · obtain ⟨e, he, hfalse⟩ := hneeded
        have htrue := opposite_true hsplit hproper hrs he hco hfalse
        have hsame := (clauseTrue_congr fun l hl => hne l.1 (mem_without.mp hl).2).mpr htrue
        exact hsame.subset fun l hl => (mem_without.mp hl).1
      · rw [if_neg hneeded] at hvalue
        exact ⟨(v, !b), (hsplit.other c hco).2, hvalue⟩
  · simp only [not_exists, not_and] at hv
    exact (clauseTrue_congr fun l hl => hne l.1 (hv l hl)).mpr (hrest c hc hv)

end Elimination

/-- The state after an elimination, with what its resolvents have become. -/
structure Eliminates (s t : Solver) (v : ℕ) (stored : List (Entry ℕ)) (rs added : Formula ℕ) :
    Prop where
  nVars : t.nVars = s.nVars
  eliminated : t.eliminated = v :: s.eliminated
  elimclauses : t.elimclauses = stored ++ s.elimclauses
  clauses : t.clauses = (s.clauses ++ added).filter fun c => ∀ l ∈ c, l.1 ≠ v
  root : s.root ⊆ t.root
  proper : ∀ c ∈ added, ¬ Tautology c ∧ ∃ r ∈ rs, c ⊆ r
  holds : ∀ (P : ℕ → Prop) (M : Partial ℕ), (∀ r ∈ rs, ∀ l ∈ r, P l.1) →
    RootTrue P t.root M → (FormulaTrue M added ↔ ∀ r ∈ rs, Covered M r)

section Invariant

variable {f : Formula ℕ} {s t : Solver} {v : ℕ} {b : Bool}
  {side opposite rs added : Formula ℕ}

theorem Eliminates.inScope (h : Eliminates s t v (mkElimClauses side (v, b)) rs added)
    (w : ℕ) : InScope t w ↔ InScope s w ∧ w ≠ v := by
  rw [InScope, h.nVars, h.eliminated, InScope, List.mem_cons, not_or]
  exact ⟨fun hw => ⟨⟨hw.1, hw.2.2⟩, hw.2.1⟩, fun hw => ⟨hw.1.1, hw.2, hw.1.2⟩⟩

theorem Eliminates.extended (h : Eliminates s t v (mkElimClauses side (v, b)) rs added)
    (M : Partial ℕ) : MapleDatabase.extended t M =
      MapleDatabase.extended s (reconstruct (mkElimClauses side (v, b)) M) := by
  rw [MapleDatabase.extended, h.elimclauses, reconstruct_append, MapleDatabase.extended]

theorem Eliminates.mem_clauses (h : Eliminates s t v (mkElimClauses side (v, b)) rs added)
    {c : Clause ℕ} : c ∈ t.clauses ↔ (c ∈ s.clauses ∨ c ∈ added) ∧ ∀ l ∈ c, l.1 ≠ v := by
  rw [h.clauses, List.mem_filter, List.mem_append, decide_eq_true_eq]

/-- Elimination keeps the invariant. -/
theorem Eliminates.invariant (hs : DatabaseInvariant f s)
    (h : Eliminates s t v (mkElimClauses side (v, b)) rs added)
    (hsplit : Split s.clauses v b side opposite rs) (hv : InScope s v)
    (hunset : ∀ l ∈ s.root, l.1 ≠ v) : DatabaseInvariant f t := by
  have hrscope : ∀ r ∈ rs, ∀ l ∈ r, InScope t l.1 := by
    intro r hr l hl
    obtain ⟨c, hc, d, hd, hmem⟩ := hsplit.resolvent r hr
    rcases (hmem l).mp hl with hl | hl
    · obtain ⟨hlc, hne⟩ := mem_without.mp hl
      exact (h.inScope l.1).mpr ⟨hs.scope c (hsplit.stored c hc).1 l hlc, hne⟩
    · obtain ⟨hld, hne⟩ := mem_without.mp hl
      exact (h.inScope l.1).mpr ⟨hs.scope d (hsplit.other d hd).1 l hld, hne⟩
  have haddedScope : ∀ c ∈ added, ∀ l ∈ c, InScope t l.1 := by
    intro c hc l hl
    obtain ⟨-, r, hr, hsub⟩ := h.proper c hc
    exact hrscope r hr l (hsub hl)
  have hadded : ∀ c ∈ added, c ∈ t.clauses := fun c hc =>
    h.mem_clauses.mpr ⟨Or.inr hc, fun l hl => ((h.inScope l.1).mp (haddedScope c hc l hl)).2⟩
  have hroot : ∀ {M}, RootTrue (InScope t) t.root M → RootTrue (InScope s) s.root M :=
    fun hM l hl hlv => hM l (h.root hl) ((h.inScope l.1).mpr ⟨hlv, hunset l hl⟩)
  have hsideScope : ∀ c ∈ side, ∀ l ∈ (v, b) :: without c v, InScope s l.1 := by
    intro c hc l hl
    obtain ⟨hcs, hcv⟩ := hsplit.stored c hc
    exact hs.scope c hcs l ((mem_iff_of_sign (hs.proper c hcs) hcv l).mp hl)
  refine ⟨fun c hc l hl => ?_, fun c hc => ?_, ?_, ?_, fun M hM hf => ?_,
    fun M hM hc hsaved => ?_, fun M hM => ?_⟩
  · obtain ⟨hold | hnew, hne⟩ := h.mem_clauses.mp hc
    · exact (h.inScope l.1).mpr ⟨hs.scope c hold l hl, hne l hl⟩
    · exact haddedScope c hnew l hl
  · obtain ⟨hold | hnew, -⟩ := h.mem_clauses.mp hc
    · exact hs.proper c hold
    · exact (h.proper c hnew).1
  · rw [h.eliminated, h.nVars, List.forall_mem_cons]
    exact ⟨hv.1, hs.eliminated⟩
  · rw [h.elimclauses, h.eliminated]
    intro e he
    rcases List.mem_append.mp he with he | he
    · exact List.mem_cons.mpr (Or.inl (mkElimClauses_literal he))
    · exact List.mem_cons_of_mem v (hs.targets e he)
  · -- the resolvents follow from the clauses, and the stored clauses are clauses
    obtain ⟨hkept, hold⟩ := hs.kept M (hroot hM) hf
    have hrs := resolvents_true hsplit hs.proper hkept
    have hnew := (h.holds (InScope t) M hrscope hM).mpr fun r hr => Or.inr (hrs r hr)
    refine ⟨fun c hc => ?_, ?_⟩
    · obtain ⟨hc | hc, -⟩ := h.mem_clauses.mp hc
      · exact hkept c hc
      · exact hnew c hc
    · rw [h.elimclauses, saved_append, formulaTrue_append]
      refine ⟨fun c hc => ?_, hold⟩
      obtain ⟨d, hd, rfl⟩ := mem_saved_mkElimClauses.mp hc
      obtain ⟨hds, hdv⟩ := hsplit.stored d hd
      exact (clauseTrue_iff_of_sign (hs.proper d hds) hdv).mpr (hkept d hds)
  · rw [h.extended] at hsaved ⊢
    rw [h.elimclauses, saved_append, formulaTrue_append] at hsaved
    refine hs.complete _ (fun l hl hlv => ?_) ?_ hsaved.2
    · exact (mkElimClauses_of_ne side M (hunset l hl)).trans (hroot hM l hl hlv)
    · refine formulaTrue_reconstruct hsplit hs.proper (fun c hcs hne => ?_) ?_ fun c hcs => ?_
      · exact hc c (h.mem_clauses.mpr ⟨Or.inl hcs, hne⟩)
      · exact (h.holds (InScope t) M hrscope hM).mp fun c hca => hc c (hadded c hca)
      · rw [← hs.clauseTrue_extended _ (hsideScope c hcs)]
        exact hsaved.1 _ (mem_saved_mkElimClauses.mpr ⟨c, hcs, rfl⟩)
  · have hassigned : ∀ w, InScope s w →
        reconstruct (mkElimClauses side (v, b)) M w ≠ none := by
      intro w hw
      by_cases hwv : w = v
      · rw [hwv, mkElimClauses_value side (v, b) M]
        split <;> simp
      · rw [mkElimClauses_of_ne side M hwv]
        exact hM w ((h.inScope w).mpr ⟨hw, hwv⟩)
    obtain ⟨hold, htotal⟩ := hs.total _ hassigned
    rw [h.extended, h.elimclauses, saved_append, formulaTrue_append, h.nVars]
    refine ⟨⟨fun c hc => ?_, hold⟩, htotal⟩
    obtain ⟨d, hd, rfl⟩ := mem_saved_mkElimClauses.mp hc
    rw [hs.clauseTrue_extended _ (hsideScope d hd)]
    refine side_true hd fun l hl hne => hM l.1 ((h.inScope l.1).mpr ⟨?_, hne⟩)
    exact hs.scope d (hsplit.stored d hd).1 l hl

end Invariant

theorem eliminateVar_eliminates {s t : Solver} {v : ℕ} {orders : List Propagation}
    (hlevels : s.levels = []) (h : eliminateVar s v orders = some (t, true)) :
    t.levels = [] ∧ ∃ added, Eliminates s t v
      (if (negative s v).length < (positive s v).length then
        mkElimClauses (negative s v) (v, false)
      else mkElimClauses (positive s v) (v, true)) (resolvents s v) added := by
  obtain ⟨⟨u, ok⟩, hu, hpair⟩ := Option.map_eq_some_iff.mp h
  cases ok with
  | false => simp at hpair
  | true =>
    obtain ⟨added, hadds⟩ := addClauses_adds (by exact hlevels) hu
    obtain ⟨rfl, -⟩ := Prod.mk.inj hpair
    refine ⟨hadds.levels, added, ?_, ?_, ?_, ?_, hadds.root, hadds.proper, hadds.holds⟩
    · exact (congrArg Solver.nVars hadds.same :)
    · exact (congrArg Solver.eliminated hadds.same :)
    · exact (congrArg Solver.elimclauses hadds.same :)
    · exact (congrArg (fun u : Solver => u.clauses.filter fun c => ∀ l ∈ c, l.1 ≠ v)
        hadds.same :)

theorem ne_of_value_none {s : Solver} {v : ℕ} (h : s.value v = none) :
    ∀ l ∈ s.trail, l.1 ≠ v := by
  have hfind := Option.map_eq_none_iff.mp h
  intro l hl heq
  exact absurd (by simpa using heq) (List.find?_eq_none.mp hfind l hl)

theorem invariant_eliminateVar {f : Formula ℕ} {s t : Solver} {v : ℕ}
    {orders : List Propagation} (hs : DatabaseInvariant f s) (hlevels : s.levels = [])
    (hv : InScope s v) (hvalue : s.value v = none)
    (h : eliminateVar s v orders = some (t, true)) : DatabaseInvariant f t := by
  obtain ⟨-, added, helim⟩ := eliminateVar_eliminates hlevels h
  have hunset : ∀ l ∈ s.root, l.1 ≠ v := fun l hl =>
    ne_of_value_none hvalue l (List.mem_append_right _ hl)
  have hsplit := split_resolvents s v
  split at helim
  · exact helim.invariant hs hsplit.symm hv hunset
  · exact helim.invariant hs hsplit hv hunset

end Painless.MapleElimination
