import Mathlib.Algebra.GroupWithZero.Nat
import Mathlib.Data.Nat.Notation
import Mathlib.Data.Option.Basic
import Mathlib.Logic.Function.Basic

/-!
Machines given by an executable transition function, their finite runs and
their reachable states. A condition on steps says which steps the environment
may take: a result about every run whose steps all meet the condition is an
invariant of the states reachable under it.
-/
namespace Painless.Transitions

-- Numerals of `Fin` need a proof that the type has elements. Each is a constant here,
-- so that every definition that uses the numeral holds the same one.
instance (priority := 1100) neZero_succ (n : ℕ) : NeZero (n + 1) := ⟨Nat.succ_ne_zero n⟩

instance (priority := 1200) neZero_two : NeZero 2 := ⟨Nat.succ_ne_zero 1⟩

instance (priority := 1200) neZero_oneSucc : NeZero (1 + 1) := neZero_two

/-- `step s a` is the state after the action `a`, or `none` where the action
is not enabled in `s`. -/
structure Machine (State Action : Type*) where
  Init : State → Prop
  step : State → Action → Option State

namespace Machine

variable {State Action : Type*} (M : Machine State Action)
  (ok : State → Action → Prop)

def run : State → List Action → Option State
  | s, [] => some s
  | s, a :: rest => (M.step s a).bind fun t => run t rest

/-- Every step of the run from `s` meets the condition where it is taken. -/
def Meets : State → List Action → Prop
  | _, [] => True
  | s, a :: rest => ok s a ∧ ∀ t ∈ M.step s a, Meets t rest

instance decidableMeets [∀ s a, Decidable (ok s a)] :
    ∀ (s : State) (as : List Action), Decidable (M.Meets ok s as)
  | _, [] => inferInstanceAs (Decidable True)
  | s, a :: rest =>
    haveI : ∀ t, Decidable (M.Meets ok t rest) := fun t => decidableMeets t rest
    inferInstanceAs (Decidable (ok s a ∧ ∀ t ∈ M.step s a, M.Meets ok t rest))

/-- The states of the runs whose steps all meet the condition `ok`. -/
inductive Reach : State → Prop
  | init {s : State} : M.Init s → Reach s
  | step {s t : State} {a : Action} :
      Reach s → ok s a → M.step s a = some t → Reach t

variable {M ok}

@[simp] theorem run_nil (s : State) : M.run s [] = some s := rfl

theorem run_cons (s : State) (a : Action) (rest : List Action) :
    M.run s (a :: rest) = (M.step s a).bind fun t => M.run t rest := rfl

theorem run_append (s : State) (as bs : List Action) :
    M.run s (as ++ bs) = (M.run s as).bind fun t => M.run t bs := by
  induction as generalizing s with
  | nil => rfl
  | cons a rest ih =>
    rw [List.cons_append, run_cons, run_cons, Option.bind_assoc]
    exact congrArg (M.step s a).bind (funext ih)

theorem Meets.of_forall {as : List Action} (h : ∀ a ∈ as, ∀ s, ok s a) (s : State) :
    M.Meets ok s as := by
  induction as generalizing s with
  | nil => trivial
  | cons a rest ih =>
    refine ⟨h a List.mem_cons_self s, fun t _ => ih ?_ t⟩
    exact fun b hb => h b (List.mem_cons_of_mem a hb)

theorem Reach.run {s t : State} (hs : M.Reach ok s) (as : List Action)
    (hok : M.Meets ok s as) (hrun : M.run s as = some t) : M.Reach ok t := by
  induction as generalizing s with
  | nil =>
    obtain rfl : s = t := Option.some.inj hrun
    exact hs
  | cons a rest ih =>
    rw [run_cons] at hrun
    obtain ⟨u, hu, hrest⟩ := Option.bind_eq_some_iff.mp hrun
    exact ih (Reach.step hs hok.1 hu) (hok.2 u hu) hrest

/-- A run without a condition on its steps. -/
theorem Reach.of_run {s t : State} (hs : M.Init s) {as : List Action}
    (hrun : M.run s as = some t) : M.Reach (fun _ _ => True) t :=
  (Reach.init hs).run as (Meets.of_forall (fun _ _ _ => trivial) s) hrun

/-- A property of the initial states that every allowed step preserves holds
in every reachable state. The step may use that its source is reachable. -/
theorem Reach.invariant (Inv : State → Prop) (hinit : ∀ s, M.Init s → Inv s)
    (hstep : ∀ s a t, M.Reach ok s → Inv s → ok s a → M.step s a = some t → Inv t)
    {s : State} (hs : M.Reach ok s) : Inv s := by
  induction hs with
  | init h => exact hinit _ h
  | step hr hok h ih => exact hstep _ _ _ hr ih hok h

theorem Reach.mono {ok' : State → Action → Prop} (himp : ∀ s a, ok s a → ok' s a)
    {s : State} (hs : M.Reach ok s) : M.Reach ok' s := by
  induction hs with
  | init h => exact .init h
  | step _ hok h ih => exact .step ih (himp _ _ hok) h

/-- Where every step adds records to a history, and meets the condition exactly
when its records are good, so does a run. -/
theorem run_meets_forall {R : Type*} (Inv : List R → State → Prop) (good : R → Prop)
    (hstep : ∀ rs s a t, Inv rs s → M.step s a = some t →
      ∃ new, Inv (rs ++ new) t ∧ (ok s a ↔ ∀ r ∈ new, good r))
    {rs : List R} {s t : State} (hs : Inv rs s) (as : List Action)
    (hrun : M.run s as = some t) :
    ∃ new, Inv (rs ++ new) t ∧ (M.Meets ok s as ↔ ∀ r ∈ new, good r) := by
  induction as generalizing s rs with
  | nil =>
    obtain rfl : s = t := Option.some.inj hrun
    exact ⟨[], by rwa [List.append_nil], by simp [Meets]⟩
  | cons a rest ih =>
    rw [run_cons] at hrun
    obtain ⟨u, hu, hrest⟩ := Option.bind_eq_some_iff.mp hrun
    obtain ⟨first, hfirst, hok⟩ := hstep rs s a u hs hu
    obtain ⟨later, hlater, hmeets⟩ := ih hfirst hrest
    have hnext : (∀ v ∈ M.step s a, M.Meets ok v rest) ↔ M.Meets ok u rest := by
      rw [hu]
      simp
    refine ⟨first ++ later, by rwa [← List.append_assoc], ?_⟩
    rw [Meets, hok, hnext, hmeets]
    simp only [List.mem_append, or_imp, forall_and]

/-- Where a step meets the condition exactly when it leaves a measure as it is,
and no step lowers the measure, so does a run. -/
theorem run_meets_iff (Inv : State → Prop) (bad : State → ℕ)
    (hstep : ∀ s a t, Inv s → M.step s a = some t →
      Inv t ∧ bad s ≤ bad t ∧ (ok s a ↔ bad t = bad s))
    {s t : State} (hs : Inv s) (as : List Action) (hrun : M.run s as = some t) :
    Inv t ∧ bad s ≤ bad t ∧ (M.Meets ok s as ↔ bad t = bad s) := by
  -- one record for every unit that a step adds to the measure
  have hgood (k : ℕ) : (∀ r ∈ List.replicate k (), False) ↔ k = 0 := by
    cases k <;> simp
  have hrecords (rs : List Unit) (u : State) (a : Action) (v : State)
      (hu : Inv u ∧ bad u = bad s + rs.length) (hv : M.step u a = some v) :
      ∃ new, (Inv v ∧ bad v = bad s + (rs ++ new).length) ∧ (ok u a ↔ ∀ r ∈ new, False) := by
    obtain ⟨hinv, hle, hok⟩ := hstep u a v hu.1 hv
    refine ⟨List.replicate (bad v - bad u) (), ⟨hinv, ?_⟩, ?_⟩
    · rw [List.length_append, List.length_replicate]
      omega
    · rw [hok, hgood]
      omega
  have hstart : Inv s ∧ bad s = bad s + ([] : List Unit).length := ⟨hs, rfl⟩
  obtain ⟨new, ⟨hinv, hbad⟩, hmeets⟩ := run_meets_forall _ _ hrecords hstart as hrun
  rw [List.nil_append] at hbad
  refine ⟨hinv, by omega, ?_⟩
  rw [hmeets, ← List.eq_nil_iff_forall_not_mem, ← List.length_eq_zero_iff]
  omega

end Machine

/-- A fact about every thread and where it stands, when one thread moves. -/
theorem forall_goto {I S : Type*} [DecidableEq I] {pc : I → S} {i : I} {p : S}
    {P : I → S → Prop} (hold : ∀ j, P j (pc j)) (hnew : P i p) (j : I) :
    P j (Function.update pc i p j) :=
  (Function.forall_update_iff pc P).mpr ⟨hnew, fun j _ => hold j⟩ j

/-- Every allowed step of `M` is matched, through the abstraction `abs`, by one
allowed step of `N` or by none. -/
structure Simulation {S A T B : Type*} (M : Machine S A) (okM : S → A → Prop)
    (N : Machine T B) (okN : T → B → Prop) (abs : S → T) : Prop where
  init : ∀ s, M.Init s → N.Init (abs s)
  step : ∀ s a s', M.Reach okM s → okM s a → M.step s a = some s' →
    abs s' = abs s ∨ ∃ b, okN (abs s) b ∧ N.step (abs s) b = some (abs s')

theorem Simulation.reach {S A T B : Type*} {M : Machine S A} {okM : S → A → Prop}
    {N : Machine T B} {okN : T → B → Prop} {abs : S → T}
    (hsim : Simulation M okM N okN abs) {s : S} (hs : M.Reach okM s) :
    N.Reach okN (abs s) := by
  induction hs with
  | init h => exact .init (hsim.init _ h)
  | @step s t a hr hok h ih =>
    rcases hsim.step s a t hr hok h with heq | ⟨b, hb, hstep⟩
    · rw [heq]
      exact ih
    · exact .step ih hb hstep

end Painless.Transitions
