import Painless.DuplicateFilter

/-!
The duplicate filter over a history of calls. A clause registered since the last
clear is refused, as it should be. But clear resets the bit set only, and the
unit clauses stay in unitSet: a filter that has been cleared goes on to refuse
every unit it has ever had.
-/
namespace Painless.FilterReset

open DuplicateFilter ClauseFilter

inductive Call
  | registerClause (cls : List ℤ)
  | clear
  deriving DecidableEq

/-- `s1->reset()`. -/
def clear (f : ClauseFilter) : ClauseFilter := { f with s1 := ∅ }

def call (f : ClauseFilter) : Call → ClauseFilter
  | .registerClause cls => (f.registerClause cls).2
  | .clear => clear f

/-- A new filter after the calls. -/
def after (calls : List Call) : ClauseFilter := calls.foldl call ClauseFilter.empty

/-- What registerClause answers to one clause after the other. -/
def answers : ClauseFilter → List (List ℤ) → List Bool
  | _, [] => []
  | f, cls :: rest => (f.registerClause cls).1 :: answers (f.registerClause cls).2 rest

/-! ### No false negatives -/

/-- The literal sequences registered since the last clear. -/
def sinceClear (calls : List Call) : List (List ℤ) :=
  calls.foldl (fun seen c =>
    match c with
    | .registerClause cls => seen ++ [cls]
    | .clear => []) []

theorem after_append (calls : List Call) (c : Call) :
    after (calls ++ [c]) = call (after calls) c := by
  unfold after
  rw [List.foldl_append, List.foldl_cons, List.foldl_nil]

theorem sinceClear_register (calls : List Call) (cls : List ℤ) :
    sinceClear (calls ++ [.registerClause cls]) = sinceClear calls ++ [cls] := by
  unfold sinceClear
  rw [List.foldl_append, List.foldl_cons, List.foldl_nil]

theorem sinceClear_clear (calls : List Call) : sinceClear (calls ++ [.clear]) = [] := by
  unfold sinceClear
  rw [List.foldl_append, List.foldl_cons, List.foldl_nil]

theorem registered_sinceClear (calls : List Call) :
    ∀ cls ∈ sinceClear calls, (after calls).Registered cls := by
  induction calls using List.reverseRecOn with
  | nil => exact fun cls h => absurd h List.not_mem_nil
  | append_singleton calls c ih =>
    intro cls hcls
    rw [after_append]
    cases c with
    | registerClause other =>
      rw [sinceClear_register] at hcls
      rcases List.mem_append.mp hcls with hold | hlast
      · exact (ih cls hold).register other
      · rw [List.mem_singleton.mp hlast]
        exact registered_self _ other
    | clear =>
      rw [sinceClear_clear] at hcls
      exact absurd hcls List.not_mem_nil

/-! ### The units -/

/-- Registering a unit adds it to unitSet, whether it was there or not. -/
theorem register_unit (f : ClauseFilter) (lit : ℤ) :
    (f.registerClause [lit]).2 = ⟨f.s1, insert lit f.unitSet⟩ := by
  rw [registerClause_unit]
  split_ifs with h
  · rw [Finset.insert_eq_of_mem h]
  · rfl

theorem register_of_length {cls : List ℤ} (h : cls.length ≠ 1) (f : ClauseFilter) :
    (f.registerClause cls).2 = ⟨positions cls ∪ f.s1, f.unitSet⟩ := by
  rw [registerClause_of_length h]
  split_ifs with hsub
  · rw [Finset.union_eq_right.mpr hsub]
  · rfl

theorem unit_ne_of_length {cls : List ℤ} (h : cls.length ≠ 1) (lit : ℤ) : [lit] ≠ cls := by
  rintro rfl
  exact h rfl

/-- Whatever is called in between, a unit stays. -/
theorem mem_unitSet_after (calls : List Call) (lit : ℤ) :
    lit ∈ (after calls).unitSet ↔ .registerClause [lit] ∈ calls := by
  induction calls using List.reverseRecOn with
  | nil => exact ⟨fun h => absurd h (Finset.notMem_empty lit), fun h => absurd h List.not_mem_nil⟩
  | append_singleton calls c ih =>
    rw [after_append, List.mem_append, List.mem_singleton, ← ih]
    cases c with
    | clear =>
      show lit ∈ (after calls).unitSet ↔ _
      simp
    | registerClause cls =>
      show lit ∈ ((after calls).registerClause cls).2.unitSet ↔ _
      by_cases hlen : cls.length = 1
      · obtain ⟨other, rfl⟩ := List.length_eq_one_iff.mp hlen
        rw [register_unit, Finset.mem_insert, or_comm]
        simp
      · have hne : [lit] ≠ cls := unit_ne_of_length hlen lit
        rw [register_of_length hlen]
        simp [hne]

/-! ### Two filters -/

theorem answer_unit (f : ClauseFilter) (lit : ℤ) :
    (f.registerClause [lit]).1 = decide (lit ∉ f.unitSet) := by
  rw [registerClause_unit]
  split_ifs with h <;> simp [h]

theorem answer_of_length {cls : List ℤ} (h : cls.length ≠ 1) (f : ClauseFilter) :
    (f.registerClause cls).1 = decide (¬ positions cls ⊆ f.s1) := by
  rw [registerClause_of_length h]
  split_ifs with hsub <;> simp [hsub]

/-- Filters with the same bits answer alike exactly if they have the same of the
units that they are asked for. -/
theorem answers_eq_iff {f g : ClauseFilter} (hs : f.s1 = g.s1) (later : List (List ℤ)) :
    answers f later = answers g later ↔
      ∀ lit, [lit] ∈ later → (lit ∈ f.unitSet ↔ lit ∈ g.unitSet) := by
  induction later generalizing f g with
  | nil => exact ⟨fun _ lit h => absurd h List.not_mem_nil, fun _ => rfl⟩
  | cons cls rest ih =>
    rw [answers, answers, List.cons_eq_cons]
    by_cases hlen : cls.length = 1
    · obtain ⟨first, rfl⟩ := List.length_eq_one_iff.mp hlen
      have hhead : decide (first ∉ f.unitSet) = decide (first ∉ g.unitSet) ↔
          (first ∈ f.unitSet ↔ first ∈ g.unitSet) := by
        rw [decide_eq_decide, not_iff_not]
      rw [answer_unit, answer_unit, hhead, register_unit, register_unit,
        ih (f := ⟨f.s1, insert first f.unitSet⟩) (g := ⟨g.s1, insert first g.unitSet⟩) hs]
      simp only [Finset.mem_insert, List.mem_cons, List.cons.injEq, and_true]
      constructor
      · rintro ⟨hfirst, hrest⟩ lit (rfl | hlit)
        · exact hfirst
        · by_cases heq : lit = first
          · rwa [heq]
          · simpa only [heq, false_or] using hrest lit hlit
      · intro h
        exact ⟨h first (Or.inl rfl), fun lit hlit => or_congr_right (h lit (Or.inr hlit))⟩
    · have hunits (lit : ℤ) : [lit] ∈ cls :: rest ↔ [lit] ∈ rest := by
        rw [List.mem_cons, or_iff_right (unit_ne_of_length hlen lit)]
      have hbits : positions cls ∪ f.s1 = positions cls ∪ g.s1 := by rw [hs]
      rw [answer_of_length hlen, answer_of_length hlen, register_of_length hlen,
        register_of_length hlen, ih hbits, hs]
      simp only [true_and, hunits]

/-! ### The promises of the header -/

/-- After the calls `before` a clause registered since the last clear is refused,
and if clear is called next, the filter answers to the clauses `later` as a new
filter does. -/
def KeepsPromises (before : List Call) (later : List (List ℤ)) : Prop :=
  (∀ cls ∈ sinceClear before, (after before).Registered cls) ∧
    answers (after (before ++ [.clear])) later = answers ClauseFilter.empty later

/-- The first promise is always kept, the second one if no unit is asked for
that was registered at any time before the clear. -/
theorem keepsPromises_iff (before : List Call) (later : List (List ℤ)) :
    KeepsPromises before later ↔
      ∀ lit, [lit] ∈ later → .registerClause [lit] ∉ before := by
  have hbits : (after (before ++ [.clear])).s1 = ClauseFilter.empty.s1 := by
    rw [after_append]
    rfl
  have hunits (lit : ℤ) : (lit ∈ (after (before ++ [.clear])).unitSet ↔
      lit ∈ ClauseFilter.empty.unitSet) ↔ .registerClause [lit] ∉ before := by
    have hempty : lit ∉ ClauseFilter.empty.unitSet := Finset.notMem_empty lit
    rw [mem_unitSet_after, iff_false_right hempty]
    simp
  unfold KeepsPromises
  rw [and_iff_right (registered_sinceClear before), answers_eq_iff hbits]
  simp only [hunits]

/-- A unit that is registered before and after a clear. -/
theorem unit_survives_clear : ¬ ∀ before later, KeepsPromises before later := by
  intro h
  have hanswers := (h [.registerClause [1]] [[1]]).2
  have hcleared : answers (after [.registerClause [1], .clear]) [[1]] = [false] := by decide
  have hnew : answers ClauseFilter.empty [[1]] = [true] := by decide
  have hdiffer : [false] = [true] := hcleared.symm.trans (hanswers.trans hnew)
  exact absurd hdiffer (by decide)

end Painless.FilterReset
