import Painless.MiniSatSearch
import Painless.SearchContract
import Mathlib.Data.List.Induction

/-!
The stack of removed clauses in SimpSolver, which is one vector of numbers: the
literals of a clause, the one that is to be set first among them, and then their
number. It is written from the front and read from the back; what is read are the
clauses that were written, the newest first, and no read is out of bounds.
-/
namespace Painless.EliminationStack

open Cnf PartialAssignment
open MiniSatSearch.Solver (index)
open SearchContract (value)

/-! ### Writing -/

def toInt (l : Literal ℕ) : ℕ := index l

def toLit (w : ℕ) : Literal ℕ := (w / 2, decide (w % 2 = 0))

/-- The last place of the variable in the clause; `i` is where the rest begins. -/
def vPos (v : ℕ) : ℕ → Clause ℕ → Option ℕ → Option ℕ
  | _, [], pos => pos
  | i, q :: rest, pos => vPos v (i + 1) rest (if q.1 = v then some i else pos)

/-- The word at `pos` and the first one change places. -/
def swapFirst (ws : List ℕ) (pos : ℕ) : Option (List ℕ) :=
  match ws[pos]?, ws[0]? with
  | some tmp, some first => some ((ws.set pos first).set 0 tmp)
  | _, _ => none

/-- mkElimClause asserts that the clause has the variable. -/
def mkElimClause (elimclauses : List ℕ) (v : ℕ) (c : Clause ℕ) : Option (List ℕ) :=
  (vPos v 0 c none).bind fun pos =>
    (swapFirst (c.map toInt) pos).map fun ws => elimclauses ++ (ws ++ [c.length])

/-- The calls of the two functions of this name. -/
inductive Call where
  | unit (x : Literal ℕ)
  | clause (v : ℕ) (c : Clause ℕ)

def push (elimclauses : List ℕ) : Call → Option (List ℕ)
  | .unit x => some (elimclauses ++ [toInt x, 1])
  | .clause v c => mkElimClause elimclauses v c

/-! ### Reading -/

/-- There is no value out of bounds. -/
def modelValue (model : List (Option Bool)) (l : Literal ℕ) : Option (Option Bool) :=
  (model[l.1]?).map fun b => b.map (· == l.2)

/-- The inner loop: where it stops, and whether all it has read was false. -/
def readClause (es : List ℕ) (model : List (Option Bool)) : ℕ → ℕ → Option (ℕ × ℕ × Bool)
  | i, j + 2 =>
    (es[i]?).bind fun w =>
      (modelValue model (toLit w)).bind fun b =>
        if b ≠ some false then some (i, j + 2, false)
        else
          match i with
          | 0 => none
          | i + 1 => readClause es model i (j + 1)
  | i, j => some (i, j, true)

def setModel (model : List (Option Bool)) (x : Literal ℕ) : Option (List (Option Bool)) :=
  if x.1 < model.length then some (model.set x.1 (some x.2)) else none

/-- The outer loop, where `k` words are left; `fuel` bounds its turns. -/
def extendLoop (es : List ℕ) : ℕ → ℕ → List (Option Bool) → Option (List (Option Bool))
  | fuel + 1, k + 2, model =>
    (es[k + 1]?).bind fun size =>
      (readClause es model k size).bind fun r =>
        (if r.2.2 then (es[r.1]?).bind fun w => setModel model (toLit w) else some model).bind
          fun model => extendLoop es fuel (r.1 + 1 - r.2.1) model
  | _, _, model => some model

def extendModel (es : List ℕ) (model : List (Option Bool)) : Option (List (Option Bool)) :=
  extendLoop es es.length es.length model

/-! ### The words of a stack -/

def entryWords (e : Entry ℕ) : List ℕ :=
  (e.literal :: e.rest).map toInt ++ [e.rest.length + 1]

/-- The newest entry comes first in the stack and last in the vector. -/
def stackWords : List (Entry ℕ) → List ℕ
  | [] => []
  | e :: es => stackWords es ++ entryWords e

theorem toLit_toInt (l : Literal ℕ) : toLit (toInt l) = l := by
  obtain ⟨v, b⟩ := l
  unfold toLit toInt index
  cases b with
  | false =>
    refine Prod.ext ?_ ?_
    · show (2 * v + 1) / 2 = v
      omega
    · show decide ((2 * v + 1) % 2 = 0) = false
      simp only [decide_eq_false_iff_not]
      omega
  | true =>
    refine Prod.ext ?_ ?_
    · show (2 * v + 0) / 2 = v
      omega
    · show decide ((2 * v + 0) % 2 = 0) = true
      simp only [decide_eq_true_eq]
      omega

theorem length_entryWords (e : Entry ℕ) : (entryWords e).length = e.rest.length + 2 := by
  unfold entryWords
  rw [List.length_append, List.length_map, List.length_cons, List.length_singleton]

/-! ### Writing gives the words of a stack -/

theorem vPos_spec {v i : ℕ} {ps : Clause ℕ} {pos : Option ℕ} :
    (∀ k, vPos v i ps pos = some k → pos = some k ∨
      ∃ j l, k = i + j ∧ ps[j]? = some l ∧ l.1 = v) ∧
      ((pos ≠ none ∨ ∃ l ∈ ps, l.1 = v) → vPos v i ps pos ≠ none) := by
  induction ps generalizing i pos with
  | nil =>
    refine ⟨fun k hk => Or.inl hk, fun h => ?_⟩
    rcases h with h | ⟨l, hl, -⟩
    · exact h
    · exact absurd hl List.not_mem_nil
  | cons q rest ih =>
    obtain ⟨hfound, hsome⟩ := @ih (i + 1) (if q.1 = v then some i else pos)
    refine ⟨fun k hk => ?_, fun h => hsome ?_⟩
    · rcases hfound k hk with hold | ⟨j, l, rfl, hl, hv⟩
      · split_ifs at hold with hq
        · obtain rfl := Option.some.inj hold
          exact Or.inr ⟨0, q, rfl, rfl, hq⟩
        · exact Or.inl hold
      · exact Or.inr ⟨j + 1, l, by omega, hl, hv⟩
    · by_cases hq : q.1 = v
      · rw [if_pos hq]
        exact Or.inl (Option.some_ne_none i)
      · rw [if_neg hq]
        refine h.imp_right fun ⟨l, hl, hv⟩ => ⟨l, (List.mem_cons.mp hl).resolve_left ?_, hv⟩
        rintro rfl
        exact hq hv

/-- The literal of the variable comes first, and the others behind it. -/
theorem swapFirst_spec {ps : Clause ℕ} {pos : ℕ} {l : Literal ℕ} (hl : ps[pos]? = some l) :
    ∃ rest, swapFirst (ps.map toInt) pos = some ((l :: rest).map toInt) ∧ (l :: rest).Perm ps := by
  cases ps with
  | nil => exact absurd hl (by simp)
  | cons q others =>
    unfold swapFirst
    rw [List.getElem?_map, hl, List.getElem?_map]
    cases pos with
    | zero =>
      obtain rfl : q = l := Option.some.inj hl
      exact ⟨others, by simp, List.Perm.refl _⟩
    | succ pos =>
      refine ⟨others.set pos q, ?_, ?_⟩
      · simp [List.map_set]
      · obtain ⟨before, after, hsplit, hlength⟩ : ∃ before after,
            others = before ++ l :: after ∧ before.length = pos := by
          have hlt := (List.getElem?_eq_some_iff.mp hl).1
          rw [List.length_cons] at hlt
          refine ⟨others.take pos, others.drop (pos + 1), ?_, ?_⟩
          · have hget : others[pos]? = some l := hl
            rw [← List.take_append_drop pos others]
            refine congrArg₂ _ (by rw [List.take_append_drop]) ?_
            rw [List.take_append_drop, List.drop_eq_getElem_cons (by omega)]
            rw [List.getElem?_eq_getElem (by omega)] at hget
            rw [Option.some.inj hget]
          · rw [List.length_take]
            omega
        subst hsplit hlength
        rw [List.set_append_right _ _ le_rfl, Nat.sub_self, List.set_cons_zero]
        calc (l :: (before ++ q :: after)).Perm (l :: q :: (before ++ after)) :=
              List.perm_middle.cons l
          _ |>.Perm (q :: l :: (before ++ after)) := List.Perm.swap q l _
          _ |>.Perm (q :: (before ++ l :: after)) := List.perm_middle.symm.cons q

/-- What a call leaves on the stack. -/
def Stores : Call → Entry ℕ → Prop
  | .unit x, e => e = .always x
  | .clause v c, e => ∃ l rest, e = .ifFalse l rest ∧ l.1 = v ∧ (l :: rest).Perm c

def Call.lits : Call → Clause ℕ
  | .unit x => [x]
  | .clause _ c => c

/-- The clause has the variable that is eliminated. -/
def Call.Mentions : Call → Prop
  | .unit _ => True
  | .clause v c => ∃ l ∈ c, l.1 = v

theorem push_spec (es : List (Entry ℕ)) {call : Call} (h : call.Mentions) :
    ∃ e, push (stackWords es) call = some (stackWords (e :: es)) ∧ Stores call e := by
  cases call with
  | unit x => exact ⟨.always x, rfl, rfl⟩
  | clause v c =>
    obtain ⟨hfound, hsome⟩ := @vPos_spec v 0 c none
    obtain ⟨pos, hpos⟩ := Option.ne_none_iff_exists'.mp (hsome (Or.inr h))
    obtain ⟨j, l, rfl, hl, hv⟩ := (hfound pos hpos).resolve_left (Option.some_ne_none pos).symm
    rw [Nat.zero_add] at hpos
    obtain ⟨rest, hswap, hperm⟩ := swapFirst_spec hl
    refine ⟨.ifFalse l rest, ?_, l, rest, rfl, hv, hperm⟩
    show mkElimClause (stackWords es) v c = _
    unfold mkElimClause
    rw [hpos, Option.bind_some, hswap, ← hperm.length_eq]
    rfl

theorem push_all (calls : List Call) (h : ∀ call ∈ calls, call.Mentions) (es : List (Entry ℕ)) :
    ∃ new, calls.foldlM push (stackWords es) = some (stackWords (new ++ es)) ∧
      List.Forall₂ Stores calls.reverse new := by
  induction calls generalizing es with
  | nil => exact ⟨[], rfl, List.Forall₂.nil⟩
  | cons call calls ih =>
    obtain ⟨hcall, hcalls⟩ := List.forall_mem_cons.mp h
    obtain ⟨e, hpush, hstores⟩ := push_spec es hcall
    obtain ⟨new, hnew, hall⟩ := ih hcalls (e :: es)
    refine ⟨new ++ [e], ?_, ?_⟩
    · rw [List.foldlM_cons, hpush]
      show calls.foldlM push (stackWords (e :: es)) = _
      rw [hnew, List.append_assoc]
      rfl
    · rw [List.reverse_cons]
      exact List.rel_append hall (List.Forall₂.cons hstores List.Forall₂.nil)

/-! ### Reading gives the stack back -/

theorem value_set {model : List (Option Bool)} {v : ℕ} (hv : v < model.length) (b : Bool) :
    value (model.set v (some b)) = Function.update (value model) v (some b) := by
  funext w
  unfold value
  rw [Function.update_apply, List.getElem?_set]
  split_ifs with hvw hwv hwv
  · rfl
  · exact absurd hvw.symm hwv
  · exact absurd hwv.symm hvw
  · rfl

theorem modelValue_spec {model : List (Option Bool)} {l : Literal ℕ} (hl : l.1 < model.length) :
    ∃ b, modelValue model l = some b ∧ (b = some false ↔ IsFalse (value model) l) := by
  unfold modelValue IsFalse value
  rw [List.getElem?_eq_getElem hl]
  refine ⟨_, rfl, ?_⟩
  cases model[l.1] with
  | none => simp
  | some b =>
    obtain ⟨v, c⟩ := l
    cases b <;> cases c <;> simp

/-- The word behind the literals of an entry. -/
theorem word_behind (before after : List ℕ) (l : Literal ℕ) (rest : Clause ℕ) (w : ℕ) :
    (before ++ ((l :: rest).map toInt ++ w :: after))[before.length + rest.length + 1]? =
      some w := by
  have hlength : ((l :: rest).map toInt).length = rest.length + 1 := by
    rw [List.length_map, List.length_cons]
  have hindex : before.length + rest.length + 1 - before.length = rest.length + 1 := by omega
  rw [List.getElem?_append_right (by omega), hindex, List.getElem?_append_right hlength.le,
    hlength, Nat.sub_self]
  rfl

theorem clauseFalse_concat {M : Partial ℕ} {rest : Clause ℕ} {q : Literal ℕ} :
    ClauseFalse M (rest ++ [q]) ↔ ClauseFalse M rest ∧ IsFalse M q := by
  unfold ClauseFalse
  rw [List.forall_mem_append, List.forall_mem_singleton]

/-- The literals behind the first one are read up to one that is not false. -/
theorem readClause_spec {model : List (Option Bool)} (before after : List ℕ) (l : Literal ℕ)
    (rest : Clause ℕ) (hrange : ∀ q ∈ rest, q.1 < model.length) :
    ∃ i j, readClause (before ++ ((l :: rest).map toInt ++ after)) model
        (before.length + rest.length) (rest.length + 1) =
          some (i, j, decide (ClauseFalse (value model) rest)) ∧
      i + 1 - j = before.length ∧ (ClauseFalse (value model) rest → i = before.length) := by
  induction rest using List.reverseRecOn generalizing after with
  | nil =>
    have hfalse : ClauseFalse (value model) [] := fun q hq => absurd hq List.not_mem_nil
    refine ⟨before.length, 1, ?_, by omega, fun _ => rfl⟩
    rw [decide_eq_true hfalse]
    simp [readClause]
  | append_singleton rest q ih =>
    have hq := hrange q (List.mem_append_right _ (List.mem_singleton_self q))
    obtain ⟨b, hb, hvalue⟩ := modelValue_spec hq
    have hwords : before ++ ((l :: (rest ++ [q])).map toInt ++ after) =
        before ++ ((l :: rest).map toInt ++ toInt q :: after) := by
      simp
    have hget : (before ++ ((l :: (rest ++ [q])).map toInt ++ after))[
        before.length + rest.length + 1]? = some (toInt q) := by
      rw [hwords]
      exact word_behind before after l rest (toInt q)
    rw [List.length_append, List.length_singleton, ← Nat.add_assoc]
    unfold readClause
    rw [hget, Option.bind_some, toLit_toInt, hb, Option.bind_some]
    by_cases hfalse : b = some false
    · rw [if_neg (not_not.mpr hfalse), hwords]
      obtain ⟨i, j, hread, hnext, hfirst⟩ := ih (toInt q :: after)
        fun p hp => hrange p (List.mem_append_left _ hp)
      have hiff : ClauseFalse (value model) (rest ++ [q]) ↔ ClauseFalse (value model) rest :=
        clauseFalse_concat.trans (and_iff_left (hvalue.mp hfalse))
      refine ⟨i, j, ?_, hnext, fun h => hfirst (hiff.mp h)⟩
      rw [decide_eq_decide.mpr hiff]
      exact hread
    · rw [if_pos hfalse]
      have hnot : ¬ ClauseFalse (value model) (rest ++ [q]) := fun h =>
        hfalse (hvalue.mpr (clauseFalse_concat.mp h).2)
      refine ⟨before.length + rest.length + 1, rest.length + 2, ?_, by omega,
        fun h => absurd h hnot⟩
      rw [decide_eq_false hnot]

/-- One turn of the outer loop is one entry of the stack. -/
theorem extendLoop_entry {model : List (Option Bool)} (before after : List ℕ) (e : Entry ℕ)
    (hrange : ∀ q ∈ e.literal :: e.rest, q.1 < model.length) (fuel : ℕ) :
    ∃ next, value next = e.apply (value model) ∧ next.length = model.length ∧
      extendLoop (before ++ (entryWords e ++ after)) (fuel + 1)
          (before.length + (e.rest.length + 2)) model =
        extendLoop (before ++ (entryWords e ++ after)) fuel before.length next := by
  obtain ⟨hfirst, hothers⟩ := List.forall_mem_cons.mp hrange
  have hwords : before ++ (entryWords e ++ after) =
      before ++ ((e.literal :: e.rest).map toInt ++ (e.rest.length + 1) :: after) := by
    unfold entryWords
    rw [List.append_assoc]
    rfl
  rw [hwords]
  obtain ⟨i, j, hread, hnext, hstart⟩ :=
    readClause_spec before ((e.rest.length + 1) :: after) e.literal e.rest hothers
  generalize hes : before ++ ((e.literal :: e.rest).map toInt ++ (e.rest.length + 1) :: after) =
    es at hread ⊢
  have hsize : es[before.length + e.rest.length + 1]? = some (e.rest.length + 1) := by
    rw [← hes]
    exact word_behind before after e.literal e.rest (e.rest.length + 1)
  have hliteral : es[before.length]? = some (toInt e.literal) := by
    rw [← hes, List.getElem?_append_right le_rfl, Nat.sub_self]
    rfl
  rw [← Nat.add_assoc, extendLoop, hsize, Option.bind_some, hread, Option.bind_some]
  dsimp only
  rw [hnext]
  unfold Entry.apply
  by_cases hfalse : ClauseFalse (value model) e.rest
  · refine ⟨model.set e.literal.1 (some e.literal.2), ?_, List.length_set, ?_⟩
    · rw [if_pos hfalse]
      exact value_set hfirst e.literal.2
    · rw [decide_eq_true hfalse, if_pos rfl, hstart hfalse, hliteral, Option.bind_some, toLit_toInt]
      unfold setModel
      rw [if_pos hfirst, Option.bind_some]
  · refine ⟨model, ?_, rfl, ?_⟩
    · rw [if_neg hfalse]
    · rw [decide_eq_false hfalse, if_neg (by simp), Option.bind_some]

theorem extendLoop_stack {model : List (Option Bool)} (es : List (Entry ℕ)) (after : List ℕ)
    (hrange : ∀ e ∈ es, ∀ q ∈ e.literal :: e.rest, q.1 < model.length) {fuel : ℕ}
    (hfuel : es.length ≤ fuel) :
    ∃ m, extendLoop (stackWords es ++ after) fuel (stackWords es).length model = some m ∧
      value m = reconstruct es (value model) ∧ m.length = model.length := by
  induction es generalizing after model fuel with
  | nil =>
    refine ⟨model, ?_, rfl, rfl⟩
    cases fuel <;> rfl
  | cons e es ih =>
    obtain ⟨he, hes⟩ := List.forall_mem_cons.mp hrange
    obtain ⟨fuel, rfl⟩ : ∃ m, fuel = m + 1 := Nat.exists_eq_add_one.mpr (by
      rw [List.length_cons] at hfuel
      omega)
    obtain ⟨next, hvalue, hlength, hstep⟩ := extendLoop_entry (stackWords es) after e he fuel
    obtain ⟨m, hm, hm', hmlength⟩ := @ih next (entryWords e ++ after)
      (fun e he q hq => by rw [hlength]; exact hes e he q hq) fuel (Nat.le_of_succ_le_succ hfuel)
    refine ⟨m, ?_, ?_, hmlength.trans hlength⟩
    · unfold stackWords
      rw [List.append_assoc, List.length_append, length_entryWords, hstep]
      exact hm
    · rw [hm', hvalue]
      rfl

theorem length_le_stackWords (es : List (Entry ℕ)) : es.length ≤ (stackWords es).length := by
  induction es with
  | nil => exact le_rfl
  | cons e es ih =>
    unfold stackWords
    rw [List.length_append, length_entryWords, List.length_cons]
    omega

/-- What is stored is what the calls were given. -/
theorem mem_of_stores {call : Call} {e : Entry ℕ} (h : Stores call e) {q : Literal ℕ} :
    q ∈ e.literal :: e.rest ↔ q ∈ call.lits := by
  cases call with
  | unit x =>
    obtain rfl : e = .always x := h
    exact Iff.rfl
  | clause v c =>
    obtain ⟨l, rest, rfl, -, hperm⟩ := h
    exact hperm.mem_iff

theorem stores_of_mem {calls : List Call} {es : List (Entry ℕ)}
    (h : List.Forall₂ Stores calls es) {e : Entry ℕ} (he : e ∈ es) :
    ∃ call ∈ calls, Stores call e := by
  induction h with
  | nil => exact absurd he List.not_mem_nil
  | cons hfirst _ ih =>
    rcases List.mem_cons.mp he with rfl | he
    · exact ⟨_, List.mem_cons_self, hfirst⟩
    · obtain ⟨call, hcall, hstores⟩ := ih he
      exact ⟨call, List.mem_cons_of_mem _ hcall, hstores⟩

/-- The literals of the stack are known. -/
def Within (n : ℕ) (es : List (Entry ℕ)) : Prop :=
  ∀ e ∈ es, ∀ q ∈ e.literal :: e.rest, q.1 < n

theorem within_of_stores {n : ℕ} {calls : List Call} {es : List (Entry ℕ)}
    (h : List.Forall₂ Stores calls.reverse es) (hrange : ∀ call ∈ calls, ∀ l ∈ call.lits, l.1 < n) :
    Within n es := by
  intro e he q hq
  obtain ⟨call, hcall, hstores⟩ := stores_of_mem h he
  exact hrange call (List.mem_reverse.mp hcall) q ((mem_of_stores hstores).mp hq)

theorem extendModel_stack {model : List (Option Bool)} (es : List (Entry ℕ))
    (h : Within model.length es) :
    ∃ m, extendModel (stackWords es) model = some m ∧ m.length = model.length ∧
      value m = reconstruct es (value model) := by
  obtain ⟨m, hm, hvalue, hlength⟩ := extendLoop_stack es [] h (length_le_stackWords es)
  rw [List.append_nil] at hm
  exact ⟨m, hm, hlength, hvalue⟩

/-- After any calls of mkElimClause, extendModel goes through the clauses that were
stored, the newest first. -/
theorem extendModel_calls (calls : List Call) (hvar : ∀ call ∈ calls, call.Mentions)
    (model : List (Option Bool))
    (hrange : ∀ call ∈ calls, ∀ l ∈ call.lits, l.1 < model.length) :
    ∃ ws es m, calls.foldlM push [] = some ws ∧ List.Forall₂ Stores calls.reverse es ∧
      extendModel ws model = some m ∧ m.length = model.length ∧
      value m = reconstruct es (value model) := by
  obtain ⟨es, hpush, hstores⟩ := push_all calls hvar []
  rw [List.append_nil] at hpush
  obtain ⟨m, hm, hlength, hvalue⟩ := extendModel_stack es (within_of_stores hstores hrange)
  exact ⟨stackWords es, es, m, hpush, hstores, hm, hlength, hvalue⟩

/-- x is eliminated with x ∨ y and x ∨ z stored; then y with y ∨ ¬ z. -/
theorem extendModel_calls_two :
    ∃ ws es m, [Call.clause 0 [(1, true), (0, true)], .clause 0 [(0, true), (2, true)],
        .unit (0, false), .clause 1 [(2, false), (1, true)], .unit (1, false)].foldlM push [] =
          some ws ∧
      List.Forall₂ Stores [.unit (1, false), .clause 1 [(2, false), (1, true)], .unit (0, false),
        .clause 0 [(0, true), (2, true)], .clause 0 [(1, true), (0, true)]] es ∧
      extendModel ws [none, none, some false] = some m ∧ m.length = 3 ∧
      value m = reconstruct es (value [none, none, some false]) :=
  extendModel_calls _ (by simp [Call.Mentions]) [none, none, some false] (by decide)

end Painless.EliminationStack
