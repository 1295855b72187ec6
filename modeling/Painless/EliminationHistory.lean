import Painless.EliminationStack
import Painless.MapleElimination

/-!
The elimination of variables in SimpSolver, among whatever else changes the clauses
and keeps what they say. An assignment of the remaining variables that satisfies the
clauses in the end is extended to one that satisfies the formula; without such an
assignment the formula has no model.
-/
namespace Painless.EliminationHistory

open Cnf PartialAssignment EliminationStack MapleElimination
open MapleSolver (mkElimClauses without)
open SearchContract (value)

/-- What eliminateVar stores: the clauses of the smaller side, then the opposite
literal. -/
def storedCalls (v : ℕ) (pos neg : Formula ℕ) : List Call :=
  if neg.length < pos.length then neg.map (.clause v) ++ [.unit (v, true)]
  else pos.map (.clause v) ++ [.unit (v, false)]

/-- An assignment of the first `n` variables but those in `gone`. -/
def Assigns (n : ℕ) (gone : List ℕ) (M : Partial ℕ) : Prop := ∀ w < n, w ∉ gone → M w ≠ none

/-- The clauses are over the first `n` variables but those in `gone`, and no variable
is twice in one. -/
def Scoped (n : ℕ) (gone : List ℕ) (f : Formula ℕ) : Prop :=
  ∀ c ∈ f, (c.map Prod.fst).Nodup ∧ ∀ l ∈ c, l.1 < n ∧ l.1 ∉ gone

instance (n : ℕ) (gone : List ℕ) (f : Formula ℕ) : Decidable (Scoped n gone f) :=
  inferInstanceAs (Decidable (∀ c ∈ f, _ ∧ ∀ l ∈ c, _))

/-- The clauses that have come of `f₀`, the variables that are gone, and the calls of
mkElimClause. -/
inductive History (n : ℕ) (f₀ : Formula ℕ) : Formula ℕ → List ℕ → List Call → Prop
  | start : History n f₀ f₀ [] []
  /-- Subsumption, strengthening, propagation, and the simplification of a clause
  that is added. -/
  | change {f g : Formula ℕ} {gone : List ℕ} {calls : List Call} :
    History n f₀ f gone calls → (∀ σ, FormulaHolds σ f → FormulaHolds σ g) →
      (∀ M, Assigns n gone M → FormulaTrue M g → FormulaTrue M f) → History n f₀ g gone calls
  | eliminate {f pos neg rs : Formula ℕ} {gone : List ℕ} {calls : List Call} {v : ℕ} :
    History n f₀ f gone calls → Scoped n gone f → v < n → Split f v true pos neg rs →
      History n f₀ (f.filter (fun c => ∀ l ∈ c, l.1 ≠ v) ++ rs) (v :: gone)
        (calls ++ storedCalls v pos neg)

variable {n : ℕ} {f₀ f : Formula ℕ} {gone : List ℕ} {calls : List Call}

/-! ### The stored clauses of one variable -/

/-- The order of the literals behind the first one does not matter. -/
def SameEntry (e e' : Entry ℕ) : Prop := e.literal = e'.literal ∧ ∀ l, l ∈ e.rest ↔ l ∈ e'.rest

theorem reconstruct_same {es es' : List (Entry ℕ)} (h : List.Forall₂ SameEntry es es')
    (M : Partial ℕ) : reconstruct es M = reconstruct es' M := by
  induction h generalizing M with
  | nil => rfl
  | cons hfirst _ ih =>
    obtain ⟨hliteral, hrest⟩ := hfirst
    rw [reconstruct, reconstruct, ih]
    refine congrArg _ ?_
    unfold Entry.apply
    rw [hliteral]
    refine if_congr ?_ rfl rfl
    unfold ClauseFalse
    simp only [hrest]

theorem eq_of_var {c : Clause ℕ} (hc : (c.map Prod.fst).Nodup) {l q : Literal ℕ} (hl : l ∈ c)
    (hq : q ∈ c) (hvar : l.1 = q.1) : l = q :=
  List.inj_on_of_nodup_map hc hl hq hvar

theorem not_tautology {c : Clause ℕ} (hc : (c.map Prod.fst).Nodup) : ¬ Tautology c := by
  rintro ⟨l, hl, hneg⟩
  have hsame := congrArg Prod.snd (eq_of_var hc hl hneg rfl)
  cases hb : l.2 <;> simp [negate, hb] at hsame

theorem sameEntry_of_stores {c : Clause ℕ} {x : Literal ℕ} {e : Entry ℕ}
    (hc : (c.map Prod.fst).Nodup) (hx : x ∈ c) (h : Stores (.clause x.1 c) e) :
    SameEntry e (.ifFalse x (without c x.1)) := by
  obtain ⟨l, rest, rfl, hvar, hperm⟩ := h
  obtain rfl : l = x := eq_of_var hc (hperm.subset List.mem_cons_self) hx hvar
  have hnodup := (hperm.map Prod.fst).nodup_iff.mpr hc
  rw [List.map_cons, List.nodup_cons] at hnodup
  refine ⟨rfl, fun q => ?_⟩
  show q ∈ rest ↔ q ∈ without c l.1
  rw [MapleDatabase.mem_without, ← hperm.mem_iff, List.mem_cons]
  constructor
  · exact fun hq => ⟨Or.inr hq, fun heq => hnodup.1 (heq ▸ List.mem_map_of_mem hq)⟩
  · rintro ⟨rfl | hq, hne⟩
    · exact absurd rfl hne
    · exact hq

/-- The entries of the side are those that the elimination is about. -/
theorem reconstruct_stored {side : Formula ℕ} {x : Literal ℕ} {es : List (Entry ℕ)}
    (hside : ∀ c ∈ side, (c.map Prod.fst).Nodup ∧ x ∈ c)
    (h : List.Forall₂ Stores (side.map (Call.clause x.1) ++ [Call.unit (negate x)]).reverse es)
    (M : Partial ℕ) : reconstruct es M = reconstruct (mkElimClauses side x) M := by
  have hclauses (cs : Formula ℕ) (hcs : ∀ c ∈ cs, (c.map Prod.fst).Nodup ∧ x ∈ c) :
      ∀ new, List.Forall₂ Stores (cs.map (Call.clause x.1)) new →
        List.Forall₂ SameEntry new (cs.map fun c => Entry.ifFalse x (without c x.1)) := by
    induction cs with
    | nil =>
      intro new hnew
      rw [List.map_nil, List.forall₂_nil_left_iff] at hnew
      subst hnew
      exact List.Forall₂.nil
    | cons c cs ih =>
      intro new hnew
      obtain ⟨⟨hnodup, hx⟩, hcs⟩ := List.forall_mem_cons.mp hcs
      obtain ⟨e, rest, hfirst, hrest, rfl⟩ := List.forall₂_cons_left_iff.mp hnew
      exact List.Forall₂.cons (sameEntry_of_stores hnodup hx hfirst) (ih hcs rest hrest)
  rw [List.reverse_append, List.reverse_singleton, List.singleton_append, ← List.map_reverse] at h
  obtain ⟨e, rest, hfirst, hrest, rfl⟩ := List.forall₂_cons_left_iff.mp h
  obtain rfl : e = .always (negate x) := hfirst
  have hsame := hclauses side.reverse (fun c hc => hside c (List.mem_reverse.mp hc)) rest hrest
  refine reconstruct_same (List.Forall₂.cons ⟨rfl, fun l => Iff.rfl⟩ ?_) M
  rwa [List.map_reverse] at hsame

/-- The value of the variable, with which all clauses are true. -/
theorem eliminated_true {side opposite rs : Formula ℕ} {v : ℕ} {b : Bool} {M : Partial ℕ}
    (hscoped : Scoped n gone f) (hv : v < n) (hsplit : Split f v b side opposite rs)
    (hM : Assigns n (v :: gone) M)
    (htrue : FormulaTrue M (f.filter (fun c => ∀ l ∈ c, l.1 ≠ v) ++ rs)) :
    Assigns n gone (reconstruct (mkElimClauses side (v, b)) M) ∧
      FormulaTrue (reconstruct (mkElimClauses side (v, b)) M) f := by
  obtain ⟨hkept, hrs⟩ := formulaTrue_append.mp htrue
  refine ⟨fun w hw hgone => ?_, ?_⟩
  · by_cases hwv : w = v
    · subst hwv
      rw [mkElimClauses_value side (w, b) M]
      split_ifs <;> exact Option.some_ne_none _
    · rw [mkElimClauses_of_ne side M hwv]
      exact hM w hw fun hmem => hgone ((List.mem_cons.mp hmem).resolve_left hwv)
  · refine formulaTrue_reconstruct hsplit (fun c hc => not_tautology (hscoped c hc).1)
      (fun c hc hne => ?_) (fun r hr => Or.inr (hrs r hr)) fun c hc => ?_
    · exact hkept c (List.mem_filter.mpr ⟨hc, decide_eq_true hne⟩)
    · refine side_true hc fun l hl hne => ?_
      obtain ⟨hlt, hgone⟩ := (hscoped c (hsplit.stored c hc).1).2 l hl
      exact hM l.1 hlt fun hmem => hgone ((List.mem_cons.mp hmem).resolve_left hne)

/-! ### Runs of eliminations -/

/-- The calls of one elimination, on the clauses of the side. -/
theorem storedCalls_cases {pos neg rs : Formula ℕ} {v : ℕ} (hsplit : Split f v true pos neg rs) :
    ∃ b side opposite, Split f v b side opposite rs ∧
      storedCalls v pos neg = side.map (Call.clause v) ++ [.unit (negate (v, b))] := by
  unfold storedCalls
  split_ifs
  · exact ⟨false, neg, pos, hsplit.symm, rfl⟩
  · exact ⟨true, pos, neg, hsplit, rfl⟩

/-- The calls are for their variable, and they are over the first `n` variables. -/
theorem group_calls {side opposite rs : Formula ℕ} {v : ℕ} {b : Bool} (hscoped : Scoped n gone f)
    (hv : v < n) (hsplit : Split f v b side opposite rs) :
    ∀ call ∈ side.map (Call.clause v) ++ [.unit (negate (v, b))],
      call.Mentions ∧ ∀ l ∈ call.lits, l.1 < n := by
  intro call hcall
  rcases List.mem_append.mp hcall with hcall | hcall
  · obtain ⟨c, hc, rfl⟩ := List.mem_map.mp hcall
    obtain ⟨hmem, hliteral⟩ := hsplit.stored c hc
    exact ⟨⟨(v, b), hliteral, rfl⟩, fun l hl => ((hscoped c hmem).2 l hl).1⟩
  · rw [List.mem_singleton.mp hcall]
    refine ⟨trivial, fun l hl => ?_⟩
    rw [List.mem_singleton.mp hl]
    exact hv

theorem History.extends (h : History n f₀ f gone calls) :
    ∃ es, calls.foldlM push [] = some (stackWords es) ∧ Within n es ∧
      ∀ M, Assigns n gone M → FormulaTrue M f → FormulaTrue (reconstruct es M) f₀ := by
  induction h with
  | start => exact ⟨[], rfl, fun e he => absurd he List.not_mem_nil, fun M _ hM => hM⟩
  | change _ _ hback ih =>
    obtain ⟨es, hpush, hwithin, hes⟩ := ih
    exact ⟨es, hpush, hwithin, fun M hassigns hM => hes M hassigns (hback M hassigns hM)⟩
  | @eliminate f pos neg rs gone calls v _ hscoped hv hsplit ih =>
    obtain ⟨es, hpush, hwithin, hes⟩ := ih
    obtain ⟨b, side, opposite, hsplit, hcalls⟩ := storedCalls_cases hsplit
    have hside (c : Clause ℕ) (hc : c ∈ side) : (c.map Prod.fst).Nodup ∧ (v, b) ∈ c :=
      ⟨(hscoped c (hsplit.stored c hc).1).1, (hsplit.stored c hc).2⟩
    rw [hcalls]
    have hgroup := group_calls hscoped hv hsplit
    obtain ⟨new, hnew, hstores⟩ := push_all _ (fun call hcall => (hgroup call hcall).1) es
    refine ⟨new ++ es, ?_, fun e he => ?_, fun M hassigns hM => ?_⟩
    · rw [List.foldlM_append, hpush]
      exact hnew
    · rcases List.mem_append.mp he with he | he
      · exact within_of_stores hstores (fun call hcall => (hgroup call hcall).2) e he
      · exact hwithin e he
    · rw [reconstruct_append, reconstruct_stored (x := (v, b)) hside hstores]
      obtain ⟨hnext, htrue⟩ := eliminated_true hscoped hv hsplit hassigns hM
      exact hes _ hnext htrue

theorem formulaTrue_some {σ : Assignment ℕ} {g : Formula ℕ} :
    FormulaTrue (fun v => some (σ v)) g ↔ FormulaHolds σ g := by
  refine forall₂_congr fun c _ => exists_congr fun l => and_congr_right fun _ => ?_
  exact Option.some_inj

/-- The models of the formula are among those of the clauses. -/
theorem History.holds (h : History n f₀ f gone calls) {σ : Assignment ℕ}
    (hσ : FormulaHolds σ f₀) : FormulaHolds σ f := by
  induction h with
  | start => exact hσ
  | change _ hforth _ ih => exact hforth σ ih
  | eliminate _ hscoped _ hsplit ih =>
    refine (formulaHolds_append σ _ _).mpr ⟨fun c hc => ih c (List.mem_filter.mp hc).1, ?_⟩
    rw [← formulaTrue_some]
    refine resolvents_true hsplit (fun c hc => not_tautology (hscoped c hc).1) ?_
    exact formulaTrue_some.mpr ih

/-- The clauses x ∨ y and ¬ x ∨ z, from which x is eliminated, and then y. -/
def implications : Formula ℕ := [[(0, true), (1, true)], [(0, false), (2, true)]]

def implicationCalls : List Call :=
  storedCalls 0 [[(0, true), (1, true)]] [[(0, false), (2, true)]] ++
    storedCalls 1 [[(1, true), (2, true)]] []

theorem implications_split : Split implications 0 true [[(0, true), (1, true)]]
    [[(0, false), (2, true)]] [[(1, true), (2, true)]] := by
  refine ⟨by decide, by decide, by decide, fun r hr => ?_, fun c hc d hd => Or.inr ?_⟩
  · obtain rfl := List.mem_singleton.mp hr
    exact ⟨_, List.mem_singleton_self _, _, List.mem_singleton_self _, by simp [without]⟩
  · obtain rfl := List.mem_singleton.mp hc
    obtain rfl := List.mem_singleton.mp hd
    exact ⟨_, List.mem_singleton_self _, by simp [without]⟩

theorem resolvent_split : Split [[(1, true), (2, true)]] 1 true [[(1, true), (2, true)]] [] [] :=
  ⟨by decide, by decide, by decide, fun r hr => absurd hr List.not_mem_nil,
    fun c _ d hd => absurd hd List.not_mem_nil⟩

theorem implications_history : History 3 implications [] [1, 0] implicationCalls := by
  have hfirst := History.start.eliminate (n := 3) (by decide) (by decide) implications_split
  exact History.eliminate hfirst (by decide) (by decide) resolvent_split

/-- What is found for the clauses in the end is extended to the formula, and where
nothing can be found the formula has no model. -/
theorem extendModel_history (h : History n f₀ f gone calls) {model : List (Option Bool)}
    (hmodel : model.length = n) :
    (Assigns n gone (value model) → FormulaTrue (value model) f →
      ∃ ws m, calls.foldlM push [] = some ws ∧ extendModel ws model = some m ∧
        FormulaTrue (value m) f₀) ∧
      (Satisfiable f₀ → Satisfiable f) := by
  obtain ⟨es, hpush, hwithin, hes⟩ := h.extends
  subst hmodel
  refine ⟨fun hassigns htrue => ?_, fun ⟨σ, hσ⟩ => ⟨σ, h.holds hσ⟩⟩
  obtain ⟨m, hm, -, hvalue⟩ := extendModel_stack es hwithin
  refine ⟨stackWords es, m, hpush, hm, ?_⟩
  rw [hvalue]
  exact hes _ hassigns htrue

theorem extendModel_history_implications :
    ∃ ws m, implicationCalls.foldlM push [] = some ws ∧
      extendModel ws [none, none, some false] = some m ∧ FormulaTrue (value m) implications :=
  (extendModel_history implications_history rfl).1 (by unfold Assigns; decide) (by decide)

end Painless.EliminationHistory
