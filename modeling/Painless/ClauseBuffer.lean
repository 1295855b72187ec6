import Mathlib.Data.Int.Notation
import Mathlib.Data.List.Nodup
import Painless.Transitions

/-!
The queue of shared clauses, a linked list whose head and tail are moved by
compare-exchange. Every atomic load, store and exchange of addClause and
getClause is one step, of any number of threads. The nodes ever linked form one
chain: tail may lag behind its end and any thread may help it forward, head
follows it, and the clauses between head and the end are those of the queue.
Every call of addClause links its clause once, and every call of getClause takes
the clause that it returns once, both between the call and its return.
-/
namespace Painless.ClauseBuffer

open Transitions

/-- Where a thread stands, with its local variables. `none` is NULL. -/
inductive Pc (C : Type*)
  | idle
  /-- addClause: `tail = buffer.tail` -/
  | addTail (node : ℕ)
  | addNext (node tail : ℕ)
  | addCheck (node tail : ℕ) (next : Option ℕ)
  /-- the exchange of `tail->next` -/
  | addLink (node tail : ℕ)
  /-- the exchange of `buffer.tail` inside the loop -/
  | addHelp (node tail next : ℕ)
  /-- the exchange of `buffer.tail` after the loop -/
  | addSwing (node tail : ℕ)
  | addSize
  /-- getClause: `head = buffer.head` -/
  | getHead
  | getTail (head : ℕ)
  | getNext (head tail : ℕ)
  | getCheck (head tail : ℕ) (next : Option ℕ)
  | getHelp (tail next : ℕ)
  /-- `*clause = next->clause` -/
  | getRead (head next : ℕ)
  /-- the exchange of `buffer.head` -/
  | getSwing (head next : ℕ) (clause : C)
  | getSize (clause : C)
  /-- getClause has returned false, or true with the clause -/
  | gotClause (clause : Option C)
  /-- a null pointer has been followed -/
  | fault

/-- The memory of the nodes, at addresses never used twice, the buffer and the
threads. A deleted node keeps its contents. -/
structure State (T C : Type*) where
  next : ℕ → Option ℕ
  clause : ℕ → C
  /-- no node has this address or a greater one -/
  fresh : ℕ
  size : ℤ
  head : ℕ
  tail : ℕ
  pc : T → Pc C
  /-- History: the clauses in the order in which addClause has linked them, each
  with the thread that has. -/
  links : List (T × C)
  /-- History: the clauses in the order of the successful head exchanges, each
  with the thread that has got it. -/
  takes : List (T × C)
  /-- History: the arguments of the thread's calls of addClause. -/
  added : T → List C
  /-- History: what the thread's calls of getClause have returned. -/
  returned : T → List (Option C)
  /-- History: the queue has been empty since the thread entered getClause. -/
  seenEmpty : T → Bool

inductive Action (T C : Type*)
  | addClause (t : T) (clause : C)
  | getClause (t : T)
  | advance (t : T)

variable {T C : Type*}

def State.linked (s : State T C) : List C := s.links.map Prod.snd

def State.dequeued (s : State T C) : List C := s.takes.map Prod.snd

/-- Nothing can be reached from head. -/
def State.isEmpty (s : State T C) : Bool := (s.next s.head).isNone

def State.observe (s : State T C) : State T C :=
  { s with seenEmpty := fun t => s.seenEmpty t || s.isEmpty }

section Step

variable [DecidableEq T]

def State.goto (s : State T C) (t : T) (p : Pc C) : State T C :=
  { s with pc := Function.update s.pc t p }

/-- The exchange of `buffer.tail`. -/
def State.moveTail (s : State T C) (tail next : ℕ) : State T C :=
  if s.tail = tail then { s with tail := next } else s

/-- `new ListElement(clause)`, and the call. -/
def State.enterAdd (s : State T C) (t : T) (clause : C) : State T C :=
  { s with
    next := Function.update s.next s.fresh none
    clause := Function.update s.clause s.fresh clause
    fresh := s.fresh + 1
    added := Function.update s.added t (s.added t ++ [clause])
    pc := Function.update s.pc t (.addTail s.fresh) }

def State.enterGet (s : State T C) (t : T) : State T C :=
  { s with seenEmpty := Function.update s.seenEmpty t false }.goto t .getHead

/-- The node is linked after the last one. -/
def State.link (s : State T C) (t : T) (node tail : ℕ) : State T C :=
  { s with
    next := Function.update s.next tail (some node)
    links := s.links ++ [(t, s.clause node)] }

def State.dequeue (s : State T C) (t : T) (next : ℕ) (clause : C) : State T C :=
  { s with head := next, takes := s.takes ++ [(t, clause)] }

/-- getClause returns to its caller. -/
def State.answer (s : State T C) (t : T) (result : Option C) : State T C :=
  { s with returned := Function.update s.returned t (s.returned t ++ [result]) }.goto t
    (.gotClause result)

/-- Whether a thread is between two calls. -/
def Pc.atRest : Pc C → Bool
  | .idle => true
  | .gotClause _ => true
  | _ => false

/-- The next step of thread `t` inside its call. -/
def advance (s : State T C) (t : T) : Option (State T C) :=
  match s.pc t with
  | .idle => none
  | .addTail node => some (s.goto t (.addNext node s.tail))
  | .addNext node tail => some (s.goto t (.addCheck node tail (s.next tail)))
  | .addCheck node tail next =>
    if tail = s.tail then
      match next with
      | none => some (s.goto t (.addLink node tail))
      | some next => some (s.goto t (.addHelp node tail next))
    else some (s.goto t (.addTail node))
  | .addLink node tail =>
    if s.next tail = none then some ((s.link t node tail).goto t (.addSwing node tail))
    else some (s.goto t (.addTail node))
  | .addHelp node tail next => some ((s.moveTail tail next).goto t (.addTail node))
  | .addSwing node tail => some ((s.moveTail tail node).goto t .addSize)
  | .addSize => some ({ s with size := s.size + 1 }.goto t .idle)
  | .getHead => some (s.goto t (.getTail s.head))
  | .getTail head => some (s.goto t (.getNext head s.tail))
  | .getNext head tail => some (s.goto t (.getCheck head tail (s.next head)))
  | .getCheck head tail next =>
    if head = s.head then
      match next with
      | none => some (if head = tail then s.answer t none else s.goto t .fault)
      | some next =>
        some (s.goto t (if head = tail then .getHelp tail next else .getRead head next))
    else some (s.goto t .getHead)
  | .getHelp tail next => some ((s.moveTail tail next).goto t .getHead)
  | .getRead head next => some (s.goto t (.getSwing head next (s.clause next)))
  | .getSwing head next clause =>
    if s.head = head then some ((s.dequeue t next clause).goto t (.getSize clause))
    else some (s.goto t .getHead)
  | .getSize clause => some ({ s with size := s.size - 1 }.answer t (some clause))
  | .gotClause _ => none
  | .fault => none

/-- Every step is a moment at which the threads inside getClause may have seen
the queue empty. -/
def step (s : State T C) : Action T C → Option (State T C)
  | .addClause t clause => if (s.pc t).atRest then some (s.observe.enterAdd t clause) else none
  | .getClause t => if (s.pc t).atRest then some (s.observe.enterGet t) else none
  | .advance t => advance s.observe t

/-- One node, with a null clause. -/
def start (null : C) : State T C where
  next := fun _ => none
  clause := fun _ => null
  fresh := 1
  size := 0
  head := 0
  tail := 0
  pc := fun _ => .idle
  links := []
  takes := []
  added := fun _ => []
  returned := fun _ => []
  seenEmpty := fun _ => false

def machine (T : Type*) [DecidableEq T] (null : C) : Machine (State T C) (Action T C) where
  Init s := s = start null
  step := step

end Step

/-! ### The chain of linked nodes -/

/-- The memory holds the chain, with tail at position `ti` and head as far on as
clauses have been dequeued. -/
structure Shape (s : State T C) (chain : List ℕ) (ti : ℕ) : Prop where
  nodup : chain.Nodup
  below : ∀ a ∈ chain, a < s.fresh
  next : ∀ i a, chain[i]? = some a → s.next a = chain[i + 1]?
  linked : (chain.drop 1).map s.clause = s.linked
  dequeued : s.dequeued <+: s.linked
  head : chain[s.dequeued.length]? = some s.head
  tail : chain[ti]? = some s.tail
  order : s.dequeued.length ≤ ti

/-- The node a thread has made and not linked yet. -/
def Pc.pending : Pc C → Option ℕ
  | .addTail node => some node
  | .addNext node _ => some node
  | .addCheck node _ _ => some node
  | .addLink node _ => some node
  | .addHelp node _ _ => some node
  | _ => none

/-- Whether a thread is inside addClause. -/
def Pc.inAdd : Pc C → Bool
  | .addTail _ => true
  | .addNext _ _ => true
  | .addCheck _ _ _ => true
  | .addLink _ _ => true
  | .addHelp _ _ _ => true
  | .addSwing _ _ => true
  | .addSize => true
  | _ => false

/-- What a thread knows of the nodes in its local variables. -/
def Knows (s : State T C) (chain : List ℕ) (ti : ℕ) (t : T) : Pc C → Prop
  | .addNext _ tail => ∃ i ≤ ti, chain[i]? = some tail
  | .addCheck _ tail next =>
    ∃ i ≤ ti, chain[i]? = some tail ∧ ∀ n, next = some n → chain[i + 1]? = some n
  | .addLink _ tail => ∃ i ≤ ti, chain[i]? = some tail
  | .addHelp _ tail next => ∃ i, chain[i]? = some tail ∧ chain[i + 1]? = some next
  | .addSwing node tail => ∃ i, chain[i]? = some tail ∧ chain[i + 1]? = some node
  | .getTail head => ∃ i ≤ s.dequeued.length, chain[i]? = some head
  | .getNext head tail => ∃ i j, i ≤ s.dequeued.length ∧ i ≤ j ∧ j ≤ ti ∧
      chain[i]? = some head ∧ chain[j]? = some tail
  | .getCheck head tail next => ∃ i j, i ≤ s.dequeued.length ∧ i ≤ j ∧ j ≤ ti ∧
      chain[i]? = some head ∧ chain[j]? = some tail ∧
      (∀ n, next = some n → chain[i + 1]? = some n) ∧
      (next = none → i = j ∧ (i = s.dequeued.length → s.seenEmpty t = true))
  | .getHelp tail next => ∃ i, chain[i]? = some tail ∧ chain[i + 1]? = some next
  | .getRead head next => ∃ i, i + 1 ≤ ti ∧
      chain[i]? = some head ∧ chain[i + 1]? = some next
  | .getSwing head next clause => ∃ i, i + 1 ≤ ti ∧
      chain[i]? = some head ∧ chain[i + 1]? = some next ∧ s.clause next = clause
  | .gotClause none => s.seenEmpty t = true
  | .fault => False
  | _ => True

structure BufferInvariant (s : State T C) (chain : List ℕ) (ti : ℕ) : Prop
    extends Shape s chain ti where
  knows : ∀ t, Knows s chain ti t (s.pc t)
  private_node : ∀ t n, (s.pc t).pending = some n → n < s.fresh ∧ n ∉ chain ∧ s.next n = none
  one_owner : ∀ t t' n, (s.pc t).pending = some n → (s.pc t').pending = some n → t = t'

theorem Shape.index_eq {s : State T C} {chain : List ℕ} {ti : ℕ} (h : Shape s chain ti)
    {i j : ℕ} {a : ℕ} (hi : chain[i]? = some a) (hj : chain[j]? = some a) : i = j :=
  (List.getElem?_inj (List.getElem?_eq_some_iff.mp hi).1 h.nodup).mp (hi.trans hj.symm)

/-- What the threads know is not lost when the chain gets longer and head and
tail move on. -/
structure Grows (s s' : State T C) (chain chain' : List ℕ) (ti ti' : ℕ) (t : T) : Prop where
  chain_prefix : chain <+: chain'
  tail_le : ti ≤ ti'
  dequeued_prefix : s.dequeued <+: s'.dequeued
  clause_eq : ∀ a ∈ chain, s'.clause a = s.clause a
  seen_of_seen : s.seenEmpty t = true → s'.seenEmpty t = true

theorem Knows.mono {s s' : State T C} {chain chain' : List ℕ} {ti ti' : ℕ} {t : T} {p : Pc C}
    (h : Knows s chain ti t p) (hgrows : Grows s s' chain chain' ti ti' t) :
    Knows s' chain' ti' t p := by
  have hat {i a : ℕ} (hi : chain[i]? = some a) : chain'[i]? = some a := by
    obtain ⟨hlt, rfl⟩ := List.getElem?_eq_some_iff.mp hi
    exact List.prefix_iff_getElem?.mp hgrows.chain_prefix i hlt
  have hti := hgrows.tail_le
  have hdequeued := hgrows.dequeued_prefix.length_le
  cases p with
  | addNext node tail =>
    obtain ⟨i, hi, htail⟩ := h
    exact ⟨i, by omega, hat htail⟩
  | addCheck node tail next =>
    obtain ⟨i, hi, htail, hnext⟩ := h
    exact ⟨i, by omega, hat htail, fun n hn => hat (hnext n hn)⟩
  | addLink node tail =>
    obtain ⟨i, hi, htail⟩ := h
    exact ⟨i, by omega, hat htail⟩
  | addHelp node tail next =>
    obtain ⟨i, htail, hnext⟩ := h
    exact ⟨i, hat htail, hat hnext⟩
  | addSwing node tail =>
    obtain ⟨i, htail, hnext⟩ := h
    exact ⟨i, hat htail, hat hnext⟩
  | getTail head =>
    obtain ⟨i, hi, hhead⟩ := h
    exact ⟨i, by omega, hat hhead⟩
  | getNext head tail =>
    obtain ⟨i, j, hi, hij, hj, hhead, htail⟩ := h
    exact ⟨i, j, by omega, hij, by omega, hat hhead, hat htail⟩
  | getCheck head tail next =>
    obtain ⟨i, j, hi, hij, hj, hhead, htail, hsome, hnone⟩ := h
    refine ⟨i, j, by omega, hij, by omega, hat hhead, hat htail, fun n hn => hat (hsome n hn),
      fun hn => ⟨(hnone hn).1, fun hnow => ?_⟩⟩
    -- head has not moved since, so the queue was empty when `next` was read
    exact hgrows.seen_of_seen ((hnone hn).2 (by omega))
  | getHelp tail next =>
    obtain ⟨i, htail, hnext⟩ := h
    exact ⟨i, hat htail, hat hnext⟩
  | getRead head next =>
    obtain ⟨i, hi, hhead, hnext⟩ := h
    exact ⟨i, by omega, hat hhead, hat hnext⟩
  | getSwing head next clause =>
    obtain ⟨i, hi, hhead, hnext, hclause⟩ := h
    refine ⟨i, by omega, hat hhead, hat hnext, ?_⟩
    rw [hgrows.clause_eq next (List.mem_of_getElem? hnext), hclause]
  | gotClause result =>
    cases result with
    | none => exact hgrows.seen_of_seen h
    | some clause => trivial
  | fault => exact h
  | _ => trivial

theorem prefix_concat {α : Type*} {l l' : List α} {a : α} (h : l <+: l')
    (ha : l'[l.length]? = some a) : l ++ [a] <+: l' := by
  obtain ⟨rest, rfl⟩ := h
  rw [List.getElem?_append_right (Nat.le_refl _), Nat.sub_self] at ha
  cases rest with
  | nil => simp at ha
  | cons b rest =>
    obtain rfl : b = a := by simpa using ha
    exact ⟨rest, by simp⟩

theorem moveTail_pc (s : State T C) (tail next : ℕ) : (s.moveTail tail next).pc = s.pc := by
  unfold State.moveTail
  split_ifs <;> rfl

@[simp] theorem linked_link (s : State T C) (t : T) (node tail : ℕ) :
    (s.link t node tail).linked = s.linked ++ [s.clause node] := List.map_append

@[simp] theorem dequeued_dequeue (s : State T C) (t : T) (next : ℕ) (clause : C) :
    (s.dequeue t next clause).dequeued = s.dequeued ++ [clause] := List.map_append

/-- A step that makes and links no node and leaves the threads where they are. -/
theorem BufferInvariant.move {s s' : State T C} {chain : List ℕ} {ti ti' : ℕ}
    (h : BufferInvariant s chain ti) (hshape : Shape s' chain ti') (hpc : s'.pc = s.pc)
    (hfresh : s'.fresh = s.fresh) (hnext : s'.next = s.next)
    (hgrows : ∀ t, Grows s s' chain chain ti ti' t) : BufferInvariant s' chain ti' := by
  refine { hshape with knows := fun t => ?_, private_node := ?_, one_owner := ?_ }
  · rw [hpc]
    exact (h.knows t).mono (hgrows t)
  · rw [hpc, hfresh, hnext]
    exact h.private_node
  · rw [hpc]
    exact h.one_owner

theorem BufferInvariant.observe {s : State T C} {chain : List ℕ} {ti : ℕ}
    (h : BufferInvariant s chain ti) : BufferInvariant s.observe chain ti := by
  refine h.move { h.toShape with } rfl rfl rfl fun t => ?_
  exact ⟨List.prefix_refl _, Nat.le_refl _, List.prefix_refl _, fun _ _ => rfl,
    fun hseen => by simp [State.observe, hseen]⟩

section Memory

variable {s : State T C} {chain : List ℕ} {ti : ℕ} (h : BufferInvariant s chain ti)

include h

theorem BufferInvariant.moveTail {tail next i : ℕ} (htail : chain[i]? = some tail)
    (hnext : chain[i + 1]? = some next) :
    ∃ ti', BufferInvariant (s.moveTail tail next) chain ti' := by
  unfold State.moveTail
  split_ifs with heq
  · obtain rfl : ti = i := h.index_eq h.tail (heq ▸ htail)
    refine ⟨ti + 1, h.move ?_ rfl rfl rfl fun u => ?_⟩
    · exact { h.toShape with tail := hnext, order := Nat.le_succ_of_le h.order }
    · exact ⟨List.prefix_refl _, Nat.le_succ _, List.prefix_refl _, fun _ _ => rfl, id⟩
  · exact ⟨ti, h⟩

theorem BufferInvariant.dequeue (t : T) {head next i : ℕ} (hhead : chain[i]? = some head)
    (hnext : chain[i + 1]? = some next) (hi : i + 1 ≤ ti) (heq : s.head = head) :
    BufferInvariant (s.dequeue t next (s.clause next)) chain ti := by
  obtain rfl : s.dequeued.length = i := h.index_eq h.head (heq ▸ hhead)
  have hlinked : s.linked[s.dequeued.length]? = some (s.clause next) := by
    rw [← h.linked, List.getElem?_map, List.getElem?_drop, Nat.add_comm 1, hnext]
    rfl
  have hdequeued := dequeued_dequeue s t next (s.clause next)
  refine h.move ?_ rfl rfl rfl fun u => ?_
  · refine { h.toShape with dequeued := ?_, head := ?_, order := ?_ }
    · rw [hdequeued]
      exact prefix_concat h.dequeued hlinked
    · rw [hdequeued, List.length_append, List.length_singleton]
      exact hnext
    · rw [hdequeued, List.length_append, List.length_singleton]
      exact hi
  · refine ⟨List.prefix_refl _, Nat.le_refl _, ?_, fun _ _ => rfl, id⟩
    rw [hdequeued]
    exact List.prefix_append _ _

/-- An arithmetic update of `size`. -/
theorem BufferInvariant.resize (size : ℤ) : BufferInvariant { s with size := size } chain ti :=
  h.move { h.toShape with } rfl rfl rfl fun _ =>
    ⟨List.prefix_refl _, Nat.le_refl _, List.prefix_refl _, fun _ _ => rfl, id⟩

/-- `next` is read from head's node when the thread may have seen the queue
empty in this very state. -/
theorem BufferInvariant.getNext {t : T} {head tail : ℕ} (hpc : s.pc t = .getNext head tail)
    (hseen : s.isEmpty = true → s.seenEmpty t = true) :
    Knows s chain ti t (.getCheck head tail (s.next head)) := by
  obtain ⟨i, j, hi, hij, hj, hhead, htail⟩ : ∃ i j, i ≤ s.dequeued.length ∧ i ≤ j ∧ j ≤ ti ∧
      chain[i]? = some head ∧ chain[j]? = some tail := by
    simpa only [hpc, Knows] using h.knows t
  refine ⟨i, j, hi, hij, hj, hhead, htail, ?_, ?_⟩
  · exact fun n hn => (h.next i head hhead).symm.trans hn
  · intro hnone
    have hend : chain.length ≤ i + 1 := by
      rw [h.next i head hhead] at hnone
      exact List.getElem?_eq_none_iff.mp hnone
    have hin : j < chain.length := (List.getElem?_eq_some_iff.mp htail).1
    refine ⟨by omega, fun hnow => hseen ?_⟩
    obtain rfl : head = s.head := Option.some.inj (hhead.symm.trans (hnow ▸ h.head))
    simp [State.isEmpty, hnone]

/-- A head read and checked is the present one, so where its `next` was NULL
tail was head and the queue was empty. -/
theorem BufferInvariant.getCheck_none {t : T} {head tail : ℕ}
    (hpc : s.pc t = .getCheck head tail none) (hhead : head = s.head) :
    head = tail ∧ s.seenEmpty t = true := by
  obtain ⟨i, j, -, -, -, hati, hatj, -, hnone⟩ : Knows s chain ti t (.getCheck head tail none) :=
    hpc ▸ h.knows t
  obtain ⟨rfl, hseen⟩ := hnone rfl
  exact ⟨Option.some.inj (hati.symm.trans hatj), hseen (h.index_eq hati (hhead ▸ h.head))⟩

theorem BufferInvariant.getCheck_some {t : T} {head tail next : ℕ}
    (hpc : s.pc t = .getCheck head tail (some next)) :
    Knows s chain ti t (if head = tail then .getHelp tail next else .getRead head next) := by
  obtain ⟨i, j, hi, hij, hj, hati, hatj, hsome, -⟩ :
      Knows s chain ti t (.getCheck head tail (some next)) := hpc ▸ h.knows t
  have hnext : chain[i + 1]? = some next := hsome next rfl
  split_ifs with heq
  · exact ⟨i, heq ▸ hati, hnext⟩
  · have hne : i ≠ j := by
      intro hij
      exact heq (Option.some.inj (hati.symm.trans (hij ▸ hatj)))
    exact ⟨i, by omega, hati, hnext⟩

end Memory

/-- The last node is the one whose `next` is NULL. -/
theorem Shape.link {s : State T C} {chain : List ℕ} {ti : ℕ} (h : Shape s chain ti)
    (t : T) {node tail i : ℕ} (htail : chain[i]? = some tail) (hnull : s.next tail = none)
    (hbelow : node < s.fresh) (hnew : node ∉ chain) (hnode : s.next node = none) :
    Shape (s.link t node tail) (chain ++ [node]) ti ∧ chain.length = i + 1 := by
  have hlength : chain.length = i + 1 := by
    have hin : i < chain.length := (List.getElem?_eq_some_iff.mp htail).1
    have hlast : chain.length ≤ i + 1 := by
      rw [h.next i tail htail] at hnull
      exact List.getElem?_eq_none_iff.mp hnull
    omega
  have hat {j a : ℕ} (hj : chain[j]? = some a) : (chain ++ [node])[j]? = some a := by
    rw [List.getElem?_append_left (List.getElem?_eq_some_iff.mp hj).1, hj]
  refine ⟨{ nodup := ?_, below := ?_, next := ?_, linked := ?_, dequeued := ?_,
            head := hat h.head, tail := hat h.tail, order := h.order }, hlength⟩
  · exact List.nodup_append.mpr ⟨h.nodup, List.nodup_singleton node, by
      intro a ha b hb heq
      exact hnew (List.mem_singleton.mp hb ▸ heq ▸ ha)⟩
  · intro a ha
    rcases List.mem_append.mp ha with ha | ha
    · exact h.below a ha
    · exact List.mem_singleton.mp ha ▸ hbelow
  · intro j a hj
    rcases Nat.lt_trichotomy j (i + 1) with hlt | heq | hgt
    · rw [List.getElem?_append_left (by omega)] at hj
      rcases eq_or_ne a tail with rfl | hne
      · obtain rfl : j = i := h.index_eq hj htail
        simp [State.link, ← hlength]
      · have hji : j ≠ i := fun heq => hne (Option.some.inj (hj.symm.trans (heq ▸ htail)))
        rw [List.getElem?_append_left (by omega), ← h.next j a hj]
        simp [State.link, hne]
    · obtain rfl : node = a := by simpa [heq, ← hlength] using hj
      have hne : node ≠ tail := fun heq => hnew (heq ▸ List.mem_of_getElem? htail)
      simp [State.link, hne, hnode, heq, hlength]
    · have hout : (chain ++ [node]).length ≤ j := by simp; omega
      simp [List.getElem?_eq_none_iff.mpr hout] at hj
  · rw [List.drop_append_of_le_length (by omega), List.map_append, linked_link]
    exact congrArg (· ++ [s.clause node]) h.linked
  · rw [linked_link]
    exact h.dequeued.trans (List.prefix_append _ _)

/-- Only the thread that moves can get or give up a node of its own. -/
theorem pending_update [DecidableEq T] {pc : T → Pc C} {t u : T} {p : Pc C} {n : ℕ}
    (hu : (Function.update pc t p u).pending = some n) :
    (u = t ∧ p.pending = some n) ∨ (u ≠ t ∧ (pc u).pending = some n) := by
  rcases eq_or_ne u t with rfl | hne
  · rw [Function.update_self] at hu
    exact Or.inl ⟨rfl, hu⟩
  · rw [Function.update_of_ne hne] at hu
    exact Or.inr ⟨hne, hu⟩

section Steps

variable [DecidableEq T] {s : State T C} {chain : List ℕ} {ti : ℕ}
  (h : BufferInvariant s chain ti) (t : T)

include h

theorem BufferInvariant.goto {p : Pc C} (hknows : Knows s chain ti t p)
    (hpending : ∀ n, p.pending = some n → (s.pc t).pending = some n) :
    BufferInvariant (s.goto t p) chain ti := by
  have hpend (u : T) (n : ℕ) (hu : ((s.goto t p).pc u).pending = some n) :
      (s.pc u).pending = some n := by
    rcases pending_update hu with ⟨rfl, hn⟩ | ⟨-, hn⟩
    · exact hpending n hn
    · exact hn
  refine { h.toShape with knows := ?_, private_node := ?_, one_owner := ?_ }
  · exact forall_goto (P := fun u q => Knows s chain ti u q) h.knows hknows
  · exact fun u n hu => h.private_node u n (hpend u n hu)
  · exact fun u u' n hu hu' => h.one_owner u u' n (hpend u n hu) (hpend u' n hu')

theorem BufferInvariant.link {node tail : ℕ} (hpc : s.pc t = .addLink node tail)
    (hnull : s.next tail = none) :
    BufferInvariant ((s.link t node tail).goto t (.addSwing node tail)) (chain ++ [node]) ti := by
  have hpending : (s.pc t).pending = some node := by rw [hpc]; rfl
  obtain ⟨hbelow, hnew, hnode⟩ := h.private_node t node hpending
  obtain ⟨i, -, htail⟩ : ∃ i ≤ ti, chain[i]? = some tail := by
    simpa only [hpc, Knows] using h.knows t
  obtain ⟨hshape, hlength⟩ := h.toShape.link t htail hnull hbelow hnew hnode
  have hgrows (u : T) :
      Grows s ((s.link t node tail).goto t (.addSwing node tail)) chain (chain ++ [node]) ti ti u :=
    ⟨List.prefix_append _ _, Nat.le_refl _, List.prefix_refl _, fun _ _ => rfl, id⟩
  have hother (u : T) (n : ℕ)
      (hu : (((s.link t node tail).goto t (.addSwing node tail)).pc u).pending = some n) :
      (s.pc u).pending = some n ∧ n ≠ node := by
    rcases pending_update hu with ⟨-, hn⟩ | ⟨hne, hold⟩
    · cases hn
    · exact ⟨hold, fun heq => hne (h.one_owner u t n hold (heq ▸ hpending))⟩
  refine { hshape with knows := ?_, private_node := ?_, one_owner := ?_ }
  · refine forall_goto (P := fun u q => Knows _ (chain ++ [node]) ti u q)
      (fun u => (h.knows u).mono (hgrows u)) ⟨i, ?_, ?_⟩
    · rw [List.getElem?_append_left (by omega), htail]
    · simp [← hlength]
  · intro u n hu
    obtain ⟨hold, hne⟩ := hother u n hu
    obtain ⟨hn, hfree, hnone⟩ := h.private_node u n hold
    have htailne : n ≠ tail := fun heq => hfree (heq ▸ List.mem_of_getElem? htail)
    exact ⟨hn, by simp [hfree, hne], by simp [State.link, State.goto, htailne, hnone]⟩
  · exact fun u u' n hu hu' => h.one_owner u u' n (hother u n hu).1 (hother u' n hu').1

theorem BufferInvariant.enterAdd (clause : C) :
    BufferInvariant (s.enterAdd t clause) chain ti := by
  have hchain (a : ℕ) (ha : a ∈ chain) : a ≠ s.fresh := Nat.ne_of_lt (h.below a ha)
  have hgrows (u : T) : Grows s (s.enterAdd t clause) chain chain ti ti u :=
    ⟨List.prefix_refl _, Nat.le_refl _, List.prefix_refl _,
      fun a ha => Function.update_of_ne (hchain a ha) _ _, id⟩
  have hother (u : T) (n : ℕ) (hu : ((s.enterAdd t clause).pc u).pending = some n) :
      (u = t ∧ n = s.fresh) ∨ (u ≠ t ∧ (s.pc u).pending = some n ∧ n < s.fresh) := by
    rcases pending_update hu with ⟨hut, hn⟩ | ⟨hne, hold⟩
    · exact Or.inl ⟨hut, (Option.some.inj hn).symm⟩
    · exact Or.inr ⟨hne, hold, (h.private_node u n hold).1⟩
  refine { nodup := h.nodup, below := ?_, next := ?_, linked := ?_, dequeued := h.dequeued,
           head := h.head, tail := h.tail, order := h.order, knows := ?_,
           private_node := ?_, one_owner := ?_ }
  · exact fun a ha => Nat.lt_succ_of_lt (h.below a ha)
  · intro i a hi
    rw [← h.next i a hi]
    exact Function.update_of_ne (hchain a (List.mem_of_getElem? hi)) _ _
  · refine (List.map_congr_left fun a ha => ?_).trans h.linked
    exact Function.update_of_ne (hchain a (List.mem_of_mem_drop ha)) _ _
  · exact forall_goto (P := fun u q => Knows _ chain ti u q)
      (fun u => (h.knows u).mono (hgrows u)) trivial
  · intro u n hu
    rcases hother u n hu with ⟨-, rfl⟩ | ⟨-, hold, hlt⟩
    · exact ⟨Nat.lt_succ_self _, fun ha => hchain _ ha rfl, by simp [State.enterAdd]⟩
    · obtain ⟨-, hfree, hnone⟩ := h.private_node u n hold
      refine ⟨Nat.lt_succ_of_lt hlt, hfree, ?_⟩
      simpa [State.enterAdd, Nat.ne_of_lt hlt] using hnone
  · intro u u' n hu hu'
    rcases hother u n hu with ⟨hut, hn⟩ | ⟨-, hold, hlt⟩
    · rcases hother u' n hu' with ⟨hut', -⟩ | ⟨-, -, hlt'⟩
      · exact hut.trans hut'.symm
      · omega
    · rcases hother u' n hu' with ⟨-, hn⟩ | ⟨-, hold', -⟩
      · omega
      · exact h.one_owner u u' n hold hold'

theorem BufferInvariant.enterGet : BufferInvariant (s.enterGet t) chain ti := by
  have hpend (u : T) (n : ℕ) (hu : ((s.enterGet t).pc u).pending = some n) :
      (s.pc u).pending = some n := by
    rcases pending_update hu with ⟨-, hn⟩ | ⟨-, hold⟩
    · cases hn
    · exact hold
  refine { h.toShape with knows := fun u => ?_, private_node := ?_, one_owner := ?_ }
  · rcases eq_or_ne u t with rfl | hne
    · simp [State.enterGet, State.goto, Knows]
    · have hgrows : Grows s (s.enterGet t) chain chain ti ti u :=
        ⟨List.prefix_refl _, Nat.le_refl _, List.prefix_refl _, fun _ _ => rfl,
          fun hseen => by simpa [State.enterGet, State.goto, hne] using hseen⟩
      simpa [State.enterGet, State.goto, hne] using (h.knows u).mono hgrows
  · exact fun u n hu => h.private_node u n (hpend u n hu)
  · exact fun u u' n hu hu' => h.one_owner u u' n (hpend u n hu) (hpend u' n hu')

theorem BufferInvariant.answer {result : Option C}
    (hknows : Knows s chain ti t (.gotClause result)) :
    BufferInvariant (s.answer t result) chain ti := by
  have hreturned : BufferInvariant { s with
      returned := Function.update s.returned t (s.returned t ++ [result]) } chain ti :=
    h.move { h.toShape with } rfl rfl rfl fun _ =>
      ⟨List.prefix_refl _, Nat.le_refl _, List.prefix_refl _, fun _ _ => rfl, id⟩
  refine hreturned.goto t ?_ (by simp [Pc.pending])
  cases result <;> exact hknows

/-- One step of a thread inside addClause. -/
theorem BufferInvariant.advance_add {s' : State T C} (hadd : (s.pc t).inAdd = true)
    (hstep : advance s t = some s') : ∃ chain' ti', BufferInvariant s' chain' ti' := by
  have hknows := h.knows t
  cases hpc : s.pc t with
  | addTail node =>
    obtain rfl : _ = s' := by simpa [ClauseBuffer.advance, hpc] using hstep
    exact ⟨chain, ti, h.goto t ⟨ti, Nat.le_refl _, h.tail⟩ (by simp [hpc, Pc.pending])⟩
  | addNext node tail =>
    obtain rfl : _ = s' := by simpa [ClauseBuffer.advance, hpc] using hstep
    obtain ⟨i, hi, htail⟩ : ∃ i ≤ ti, chain[i]? = some tail := by
      simpa only [hpc, Knows] using hknows
    refine ⟨chain, ti, h.goto t ⟨i, hi, htail, fun n hn => ?_⟩ (by simp [hpc, Pc.pending])⟩
    exact (h.next i tail htail).symm.trans hn
  | addCheck node tail next =>
    obtain ⟨i, hi, htail, hsome⟩ : Knows s chain ti t (.addCheck node tail next) := hpc ▸ hknows
    simp only [ClauseBuffer.advance, hpc] at hstep
    split_ifs at hstep
    · cases next with
      | none =>
        obtain rfl := Option.some.inj hstep
        exact ⟨chain, ti, h.goto t ⟨i, hi, htail⟩ (by simp [hpc, Pc.pending])⟩
      | some next =>
        obtain rfl := Option.some.inj hstep
        exact ⟨chain, ti, h.goto t ⟨i, htail, hsome next rfl⟩ (by simp [hpc, Pc.pending])⟩
    · obtain rfl := Option.some.inj hstep
      exact ⟨chain, ti, h.goto t trivial (by simp [hpc, Pc.pending])⟩
  | addLink node tail =>
    simp only [ClauseBuffer.advance, hpc] at hstep
    split_ifs at hstep with hnull
    · obtain rfl := Option.some.inj hstep
      exact ⟨chain ++ [node], ti, h.link t hpc hnull⟩
    · obtain rfl := Option.some.inj hstep
      exact ⟨chain, ti, h.goto t trivial (by simp [hpc, Pc.pending])⟩
  | addHelp node tail next =>
    obtain rfl : _ = s' := by simpa [ClauseBuffer.advance, hpc] using hstep
    obtain ⟨i, htail, hnext⟩ : Knows s chain ti t (.addHelp node tail next) := hpc ▸ hknows
    obtain ⟨ti', hmove⟩ := h.moveTail htail hnext
    exact ⟨chain, ti', hmove.goto t trivial (by simp [moveTail_pc, hpc, Pc.pending])⟩
  | addSwing node tail =>
    obtain rfl : _ = s' := by simpa [ClauseBuffer.advance, hpc] using hstep
    obtain ⟨i, htail, hnext⟩ : Knows s chain ti t (.addSwing node tail) := hpc ▸ hknows
    obtain ⟨ti', hmove⟩ := h.moveTail htail hnext
    exact ⟨chain, ti', hmove.goto t trivial (by simp [Pc.pending])⟩
  | addSize =>
    obtain rfl : _ = s' := by simpa [ClauseBuffer.advance, hpc] using hstep
    exact ⟨chain, ti, (h.resize _).goto t trivial (by simp [Pc.pending])⟩
  | _ => simp [hpc, Pc.inAdd] at hadd

/-- One step of a thread inside getClause, which may have seen the queue empty in
the state it moves from. -/
theorem BufferInvariant.advance_get {s' : State T C} (hget : (s.pc t).inAdd = false)
    (hseen : s.isEmpty = true → s.seenEmpty t = true) (hstep : advance s t = some s') :
    ∃ ti', BufferInvariant s' chain ti' := by
  have hknows := h.knows t
  cases hpc : s.pc t with
  | idle | gotClause _ | fault => simp [ClauseBuffer.advance, hpc] at hstep
  | getHead =>
    obtain rfl : _ = s' := by simpa [ClauseBuffer.advance, hpc] using hstep
    exact ⟨ti, h.goto t ⟨_, Nat.le_refl _, h.head⟩ (by simp [Pc.pending])⟩
  | getTail head =>
    obtain rfl : _ = s' := by simpa [ClauseBuffer.advance, hpc] using hstep
    obtain ⟨i, hi, hhead⟩ : Knows s chain ti t (.getTail head) := hpc ▸ hknows
    have hti : i ≤ ti := Nat.le_trans hi h.order
    exact ⟨ti, h.goto t ⟨i, ti, hi, hti, Nat.le_refl _, hhead, h.tail⟩ (by simp [Pc.pending])⟩
  | getNext head tail =>
    obtain rfl : _ = s' := by simpa [ClauseBuffer.advance, hpc] using hstep
    exact ⟨ti, h.goto t (h.getNext hpc hseen) (by simp [Pc.pending])⟩
  | getCheck head tail next =>
    by_cases hhead : head = s.head
    · cases next with
      | none =>
        obtain ⟨heq, hempty⟩ := h.getCheck_none hpc hhead
        obtain rfl : s.answer t none = s' := by
          simpa [ClauseBuffer.advance, hpc, hhead, ← heq] using hstep
        exact ⟨ti, h.answer t hempty⟩
      | some next =>
        obtain rfl : s.goto t _ = s' := by
          simpa only [ClauseBuffer.advance, hpc, if_pos hhead, Option.some.injEq] using hstep
        refine ⟨ti, h.goto t (h.getCheck_some hpc) ?_⟩
        split_ifs <;> simp [Pc.pending]
    · obtain rfl : s.goto t .getHead = s' := by
        simpa [ClauseBuffer.advance, hpc, hhead] using hstep
      exact ⟨ti, h.goto t trivial (by simp [Pc.pending])⟩
  | getHelp tail next =>
    obtain rfl : _ = s' := by simpa [ClauseBuffer.advance, hpc] using hstep
    obtain ⟨i, htail, hnext⟩ : Knows s chain ti t (.getHelp tail next) := hpc ▸ hknows
    obtain ⟨ti', hmove⟩ := h.moveTail htail hnext
    exact ⟨ti', hmove.goto t trivial (by simp [Pc.pending])⟩
  | getRead head next =>
    obtain rfl : _ = s' := by simpa [ClauseBuffer.advance, hpc] using hstep
    obtain ⟨i, hi, hhead, hnext⟩ : Knows s chain ti t (.getRead head next) := hpc ▸ hknows
    exact ⟨ti, h.goto t ⟨i, hi, hhead, hnext, rfl⟩ (by simp [Pc.pending])⟩
  | getSwing head next clause =>
    obtain ⟨i, hi, hhead, hnext, rfl⟩ : Knows s chain ti t (.getSwing head next clause) :=
      hpc ▸ hknows
    simp only [ClauseBuffer.advance, hpc] at hstep
    split_ifs at hstep with heq
    · obtain rfl := Option.some.inj hstep
      exact ⟨ti, (h.dequeue t hhead hnext hi heq).goto t trivial (by simp [Pc.pending])⟩
    · obtain rfl := Option.some.inj hstep
      exact ⟨ti, h.goto t trivial (by simp [Pc.pending])⟩
  | getSize clause =>
    obtain rfl : _ = s' := by simpa [ClauseBuffer.advance, hpc] using hstep
    exact ⟨ti, (h.resize _).answer t trivial⟩
  | _ => simp [hpc, Pc.inAdd] at hget

theorem BufferInvariant.advance {s' : State T C}
    (hseen : s.isEmpty = true → s.seenEmpty t = true) (hstep : advance s t = some s') :
    ∃ chain' ti', BufferInvariant s' chain' ti' := by
  cases hadd : (s.pc t).inAdd with
  | true => exact h.advance_add t hadd hstep
  | false => exact ⟨chain, h.advance_get t hadd hseen hstep⟩

end Steps

theorem start_bufferInvariant {null : C} : BufferInvariant (start null : State T C) [0] 0 where
  nodup := List.nodup_singleton 0
  below := by simp [start]
  next := by
    intro i a ha
    have hi : i < 1 := (List.getElem?_eq_some_iff.mp ha).1
    simp [start]
  linked := rfl
  dequeued := List.prefix_refl _
  head := rfl
  tail := rfl
  order := Nat.le_refl _
  knows := fun _ => trivial
  private_node := by simp [start, Pc.pending]
  one_owner := by simp [start, Pc.pending]

/-- The nodes behind `a`, as far as NULL. -/
def Follows (next : ℕ → Option ℕ) : ℕ → List ℕ → Prop
  | a, [] => next a = none
  | a, b :: rest => next a = some b ∧ Follows next b rest

/-- The clauses of the queue: linked and not dequeued. -/
def State.contents (s : State T C) : List C := s.linked.drop s.dequeued.length

section Shape

variable {s : State T C} {chain : List ℕ} {ti : ℕ} (h : Shape s chain ti)

include h

theorem Shape.follows {i a : ℕ} (ha : chain[i]? = some a) :
    Follows s.next a (chain.drop (i + 1)) := by
  have hi : i < chain.length := (List.getElem?_eq_some_iff.mp ha).1
  induction hn : chain.length - (i + 1) generalizing i a with
  | zero =>
    have hend : chain.length ≤ i + 1 := by omega
    rw [List.drop_eq_nil_of_le hend]
    exact (h.next i a ha).trans (List.getElem?_eq_none_iff.mpr hend)
  | succ n ih =>
    have hlt : i + 1 < chain.length := by omega
    have hb : chain[i + 1]? = some chain[i + 1] := List.getElem?_eq_getElem hlt
    rw [List.drop_eq_getElem_cons hlt]
    exact ⟨(h.next i a ha).trans hb, ih hb hlt (by omega)⟩

theorem Shape.linked_eq : s.linked = s.dequeued ++ s.contents := by
  obtain ⟨rest, hrest⟩ := h.dequeued
  simp [State.contents, ← hrest]

theorem Shape.contents_eq :
    s.contents = (chain.drop (s.dequeued.length + 1)).map s.clause := by
  rw [State.contents, ← h.linked, ← List.map_drop, List.drop_drop, Nat.add_comm]

end Shape

/-! ### The histories of the calls -/

/-- The clause of a call of addClause that has not linked its node yet. -/
def State.unlinked (s : State T C) (t : T) : List C := ((s.pc t).pending.map s.clause).toList

/-- The clause of a call of getClause that has moved head and not returned yet. -/
def Pc.inHand : Pc C → List C
  | .getSize clause => [clause]
  | _ => []

def Pc.result : Pc C → Option (Option C)
  | .gotClause result => some result
  | _ => none

section Histories

variable [DecidableEq T] {s s' : State T C} {t : T}

/-- The clauses of a history that are due to one thread. -/
def ofThread (history : List (T × C)) (t : T) : List C :=
  (history.filter fun x => x.1 = t).map Prod.snd

theorem ofThread_append_self (history : List (T × C)) (t : T) (clause : C) :
    ofThread (history ++ [(t, clause)]) t = ofThread history t ++ [clause] := by
  simp [ofThread]

theorem ofThread_append_ne (history : List (T × C)) {t u : T} (h : t ≠ u) (clause : C) :
    ofThread (history ++ [(t, clause)]) u = ofThread history u := by
  simp [ofThread, h]

/-- The calls of a thread, one after the other: each has linked its clause, or
taken the one it has returned, but for the call that is going on. -/
structure Accounted (s : State T C) (t : T) : Prop where
  added : s.added t = ofThread s.links t ++ s.unlinked t
  taken : ofThread s.takes t = (s.returned t).filterMap id ++ (s.pc t).inHand
  last : ∀ result, (s.pc t).result = some result → (s.returned t).getLast? = some result

/-- Only thread `t` moves, to `p`, and no node is made. -/
structure Moves (s s' : State T C) (t : T) (p : Pc C) : Prop where
  pc : s'.pc = Function.update s.pc t p
  clause : s'.clause = s.clause
  added : s'.added = s.added

/-- What a step of thread `t` inside its call adds to the histories. -/
inductive Records (s s' : State T C) (t : T) : Pc C → Prop
  | nothing {p : Pc C} : p.pending = (s.pc t).pending → p.inHand = (s.pc t).inHand →
      p.result = none → s'.links = s.links → s'.takes = s.takes →
      s'.returned = s.returned → Records s s' t p
  | link (node tail : ℕ) : s.pc t = .addLink node tail →
      s'.links = s.links ++ [(t, s.clause node)] → s'.takes = s.takes →
      s'.returned = s.returned → Records s s' t (.addSwing node tail)
  | take (head next : ℕ) (clause : C) : s.pc t = .getSwing head next clause →
      s'.links = s.links → s'.takes = s.takes ++ [(t, clause)] →
      s'.returned = s.returned → Records s s' t (.getSize clause)
  | answer (result : Option C) : (s.pc t).pending = none →
      (s.pc t).inHand = result.toList → s'.links = s.links → s'.takes = s.takes →
      s'.returned = Function.update s.returned t (s.returned t ++ [result]) →
      Records s s' t (.gotClause result)

/-- Only the exchange of `tail->next`, that of head and a return change the
histories, and the exchanges where they succeed. -/
theorem advance_records (hstep : advance s t = some s') :
    ∃ p, Moves s s' t p ∧ Records s s' t p := by
  have hgoto (p : Pc C) (hpending : p.pending = (s.pc t).pending)
      (hhand : p.inHand = (s.pc t).inHand) (hresult : p.result = none)
      (hs' : s.goto t p = s') : ∃ p, Moves s s' t p ∧ Records s s' t p := by
    subst hs'
    exact ⟨p, ⟨rfl, rfl, rfl⟩, .nothing hpending hhand hresult rfl rfl rfl⟩
  have hmoveTail (tail next : ℕ) (p : Pc C) (hpending : p.pending = (s.pc t).pending)
      (hhand : p.inHand = (s.pc t).inHand) (hresult : p.result = none)
      (hs' : (s.moveTail tail next).goto t p = s') :
      ∃ p, Moves s s' t p ∧ Records s s' t p := by
    subst hs'
    unfold State.moveTail
    split_ifs <;>
      exact ⟨p, ⟨rfl, rfl, rfl⟩, .nothing hpending hhand hresult rfl rfl rfl⟩
  cases hpc : s.pc t with
  | idle | gotClause _ | fault => simp [advance, hpc] at hstep
  | addCheck node tail next =>
    simp only [advance, hpc] at hstep
    split_ifs at hstep <;> cases next <;>
      exact hgoto _ (by rw [hpc]; rfl) (by rw [hpc]; rfl) rfl (Option.some.inj hstep)
  | addLink node tail =>
    simp only [advance, hpc] at hstep
    split_ifs at hstep
    · obtain rfl := Option.some.inj hstep
      exact ⟨_, ⟨rfl, rfl, rfl⟩, .link node tail hpc rfl rfl rfl⟩
    · exact hgoto _ (by rw [hpc]; rfl) (by rw [hpc]; rfl) rfl (Option.some.inj hstep)
  | addHelp node tail next =>
    simp only [advance, hpc, Option.some.injEq] at hstep
    exact hmoveTail _ _ _ (by rw [hpc]; rfl) (by rw [hpc]; rfl) rfl hstep
  | addSwing node tail =>
    simp only [advance, hpc, Option.some.injEq] at hstep
    exact hmoveTail _ _ _ (by rw [hpc]; rfl) (by rw [hpc]; rfl) rfl hstep
  | getCheck head tail next =>
    simp only [advance, hpc] at hstep
    split_ifs at hstep
    · cases next with
      | none =>
        obtain rfl := Option.some.inj hstep
        exact ⟨_, ⟨rfl, rfl, rfl⟩,
          .answer none (by rw [hpc]; rfl) (by rw [hpc]; rfl) rfl rfl rfl⟩
      | some next =>
        exact hgoto _ (by rw [hpc]; rfl) (by rw [hpc]; rfl) rfl (Option.some.inj hstep)
    · cases next <;>
        exact hgoto _ (by rw [hpc]; rfl) (by rw [hpc]; rfl) rfl (Option.some.inj hstep)
    · exact hgoto _ (by rw [hpc]; rfl) (by rw [hpc]; rfl) rfl (Option.some.inj hstep)
  | getHelp tail next =>
    simp only [advance, hpc, Option.some.injEq] at hstep
    exact hmoveTail _ _ _ (by rw [hpc]; rfl) (by rw [hpc]; rfl) rfl hstep
  | getSwing head next clause =>
    simp only [advance, hpc] at hstep
    split_ifs at hstep
    · obtain rfl := Option.some.inj hstep
      exact ⟨_, ⟨rfl, rfl, rfl⟩, .take head next clause hpc rfl rfl rfl⟩
    · exact hgoto _ (by rw [hpc]; rfl) (by rw [hpc]; rfl) rfl (Option.some.inj hstep)
  | getSize clause =>
    simp only [advance, hpc, Option.some.injEq] at hstep
    subst hstep
    exact ⟨_, ⟨rfl, rfl, rfl⟩,
      .answer (some clause) (by rw [hpc]; rfl) (by rw [hpc]; rfl) rfl rfl rfl⟩
  | addSize =>
    simp only [advance, hpc, Option.some.injEq] at hstep
    subst hstep
    exact ⟨_, ⟨rfl, rfl, rfl⟩, .nothing (by rw [hpc]; rfl) (by rw [hpc]; rfl) rfl rfl rfl rfl⟩
  | _ =>
    simp only [advance, hpc, Option.some.injEq] at hstep
    exact hgoto _ (by rw [hpc]; rfl) (by rw [hpc]; rfl) rfl hstep

/-- What another thread does is no matter of `u`. -/
theorem Accounted.other {u : T} (h : Accounted s u) (hpc : s'.pc u = s.pc u)
    (hclause : ∀ node, (s.pc u).pending = some node → s'.clause node = s.clause node)
    (hadded : s'.added u = s.added u) (hlinks : ofThread s'.links u = ofThread s.links u)
    (htakes : ofThread s'.takes u = ofThread s.takes u)
    (hreturned : s'.returned u = s.returned u) : Accounted s' u := by
  have hunlinked : s'.unlinked u = s.unlinked u := by
    unfold State.unlinked
    rw [hpc]
    cases hnode : (s.pc u).pending with
    | none => rfl
    | some node => exact congrArg (fun c => [c]) (hclause node hnode)
  refine ⟨?_, ?_, ?_⟩
  · rw [hadded, hlinks, hunlinked]
    exact h.added
  · rw [htakes, hreturned, hpc]
    exact h.taken
  · rw [hreturned, hpc]
    exact h.last

/-- The thread that moves. -/
theorem Accounted.advance {p : Pc C} (h : Accounted s t) (hmoves : Moves s s' t p)
    (hrecords : Records s s' t p) : Accounted s' t := by
  have hpc : s'.pc t = p := by rw [hmoves.pc, Function.update_self]
  have hadded := h.added
  have htaken := h.taken
  rw [← hmoves.added] at hadded
  cases hrecords with
  | nothing hpending hhand hresult hlinks htakes hreturned =>
    refine ⟨?_, ?_, ?_⟩
    · rw [hadded, hlinks, State.unlinked, State.unlinked, hpc, hpending, hmoves.clause]
    · rw [htakes, hreturned, hpc, hhand, htaken]
    · rw [hpc, hresult]
      exact nofun
  | link node tail hold hlinks htakes hreturned =>
    rw [State.unlinked, hold] at hadded
    rw [hold] at htaken
    refine ⟨?_, ?_, ?_⟩
    · rw [hadded, hlinks, ofThread_append_self, State.unlinked, hpc]
      exact (List.append_nil _).symm
    · rw [htakes, hreturned, hpc, htaken]
      rfl
    · rw [hpc]
      exact nofun
  | take head next clause hold hlinks htakes hreturned =>
    rw [State.unlinked, hold] at hadded
    rw [hold] at htaken
    refine ⟨?_, ?_, ?_⟩
    · rw [hadded, hlinks, State.unlinked, hpc]
      rfl
    · rw [htakes, ofThread_append_self, hreturned, hpc, htaken]
      exact congrArg (· ++ [clause]) (List.append_nil _)
    · rw [hpc]
      exact nofun
  | answer result hpending hhand hlinks htakes hreturned =>
    have hreturned : s'.returned t = s.returned t ++ [result] := by
      rw [hreturned, Function.update_self]
    refine ⟨?_, ?_, ?_⟩
    · rw [hadded, hlinks, State.unlinked, State.unlinked, hpc, hpending]
      rfl
    · rw [htakes, hreturned, hpc, htaken, hhand, List.filterMap_append, List.append_assoc]
      cases result <;> rfl
    · rw [hpc, hreturned]
      intro other hother
      rw [List.getLast?_concat, ← Option.some.inj hother]

theorem Records.other {p : Pc C} (h : Records s s' t p) {u : T} (hne : u ≠ t) :
    ofThread s'.links u = ofThread s.links u ∧ ofThread s'.takes u = ofThread s.takes u ∧
      s'.returned u = s.returned u := by
  cases h with
  | nothing _ _ _ hlinks htakes hreturned =>
    exact ⟨by rw [hlinks], by rw [htakes], by rw [hreturned]⟩
  | link node tail _ hlinks htakes hreturned =>
    exact ⟨by rw [hlinks, ofThread_append_ne _ hne.symm], by rw [htakes], by rw [hreturned]⟩
  | take head next clause _ hlinks htakes hreturned =>
    exact ⟨by rw [hlinks], by rw [htakes, ofThread_append_ne _ hne.symm], by rw [hreturned]⟩
  | answer result _ _ hlinks htakes hreturned =>
    exact ⟨by rw [hlinks], by rw [htakes], by rw [hreturned, Function.update_of_ne hne]⟩

theorem accounted_advance (h : ∀ u, Accounted s u) (hstep : advance s t = some s') (u : T) :
    Accounted s' u := by
  obtain ⟨p, hmoves, hrecords⟩ := advance_records hstep
  rcases eq_or_ne u t with rfl | hne
  · exact (h u).advance hmoves hrecords
  · obtain ⟨hlinks, htakes, hreturned⟩ := hrecords.other hne
    refine (h u).other ?_ (fun _ _ => by rw [hmoves.clause]) (by rw [hmoves.added]) hlinks
      htakes hreturned
    rw [hmoves.pc, Function.update_of_ne hne]

/-- A thread between two calls has nothing under way. -/
theorem atRest_spec {p : Pc C} (h : p.atRest = true) : p.pending = none ∧ p.inHand = [] := by
  cases p <;> first | exact ⟨rfl, rfl⟩ | cases h

theorem accounted_enterAdd {chain : List ℕ} {ti : ℕ} (hs : BufferInvariant s chain ti)
    (h : ∀ u, Accounted s u) (hrest : (s.pc t).atRest = true) (clause : C) (u : T) :
    Accounted (s.enterAdd t clause) u := by
  rcases eq_or_ne u t with rfl | hne
  · obtain ⟨hpending, hhand⟩ := atRest_spec hrest
    have hadded := (h u).added
    have htaken := (h u).taken
    rw [State.unlinked, hpending] at hadded
    rw [hhand] at htaken
    have hpc : (s.enterAdd u clause).pc u = .addTail s.fresh := Function.update_self ..
    refine ⟨?_, ?_, ?_⟩
    · rw [State.unlinked, hpc]
      simp only [State.enterAdd, Function.update_self, Pc.pending, Option.map_some,
        Option.toList_some]
      rw [hadded]
      exact congrArg (· ++ [clause]) (List.append_nil _)
    · rw [hpc]
      exact htaken
    · rw [hpc]
      exact nofun
  · refine (h u).other (Function.update_of_ne hne _ _) (fun node hnode => ?_)
      (Function.update_of_ne hne _ _) rfl rfl rfl
    exact Function.update_of_ne (Nat.ne_of_lt (hs.private_node u node hnode).1) _ _

theorem accounted_enterGet (h : ∀ u, Accounted s u) (hrest : (s.pc t).atRest = true) (u : T) :
    Accounted (s.enterGet t) u := by
  rcases eq_or_ne u t with rfl | hne
  · obtain ⟨hpending, hhand⟩ := atRest_spec hrest
    have hadded := (h u).added
    have htaken := (h u).taken
    rw [State.unlinked, hpending] at hadded
    rw [hhand] at htaken
    have hpc : (s.enterGet u).pc u = .getHead := Function.update_self ..
    refine ⟨?_, ?_, ?_⟩
    · rw [State.unlinked, hpc]
      exact hadded
    · rw [hpc]
      exact htaken
    · rw [hpc]
      exact nofun
  · exact (h u).other (Function.update_of_ne hne _ _) (fun _ _ => rfl) rfl rfl rfl rfl

end Histories

/-! ### Every run -/

section Runs

variable [DecidableEq T] {null : C} {ok : State T C → Action T C → Prop} {s : State T C}

theorem invariant_of_reach (hreach : (machine T null).Reach ok s) :
    (∃ chain ti, BufferInvariant s chain ti) ∧ ∀ t, Accounted s t := by
  refine Machine.Reach.invariant
    (fun s => (∃ chain ti, BufferInvariant s chain ti) ∧ ∀ t, Accounted s t) ?_ ?_ hreach
  · rintro s rfl
    exact ⟨⟨[0], 0, start_bufferInvariant⟩, fun _ => ⟨rfl, rfl, nofun⟩⟩
  · rintro s a s' - ⟨⟨chain, ti, h⟩, haccounted⟩ - hstep
    -- a look at the queue adds nothing to the histories of the calls
    have hobserved (t : T) : Accounted s.observe t :=
      (haccounted t).other rfl (fun _ _ => rfl) rfl rfl rfl rfl
    cases a with
    | addClause t clause =>
      obtain ⟨hrest, rfl⟩ : (s.pc t).atRest = true ∧ s.observe.enterAdd t clause = s' := by
        simpa [machine, step] using hstep
      exact ⟨⟨chain, ti, h.observe.enterAdd t clause⟩,
        accounted_enterAdd h.observe hobserved hrest clause⟩
    | getClause t =>
      obtain ⟨hrest, rfl⟩ : (s.pc t).atRest = true ∧ s.observe.enterGet t = s' := by
        simpa [machine, step] using hstep
      exact ⟨⟨chain, ti, h.observe.enterGet t⟩, accounted_enterGet hobserved hrest⟩
    | advance t =>
      refine ⟨h.observe.advance t (fun hempty => ?_) hstep, accounted_advance hobserved hstep⟩
      have hnow : s.isEmpty = true := hempty
      simp [State.observe, hnow]

/-- Whatever the interleaving, the clauses dequeued are the first ones linked
and the nodes that follow head hold the others, in the order of their links. In
the order of a thread's calls, each addClause that has returned has linked its
argument once, and each getClause has taken the clause it has returned and no
other; it returns false only where the queue has been empty during the call, and
follows no null pointer. -/
theorem fifo_queue (hreach : (machine T null).Reach ok s) :
    (∃ nodes, Follows s.next s.head nodes ∧ s.linked = s.dequeued ++ nodes.map s.clause) ∧
      ∀ t, s.pc t ≠ .fault ∧ s.added t = ofThread s.links t ++ s.unlinked t ∧
        ofThread s.takes t = (s.returned t).filterMap id ++ (s.pc t).inHand ∧
        ∀ result, s.pc t = .gotClause result →
          (s.returned t).getLast? = some result ∧
            (result = none → s.seenEmpty t = true) := by
  obtain ⟨⟨chain, ti, h⟩, haccounted⟩ := invariant_of_reach hreach
  have hknows (t : T) (p : Pc C) (hpc : s.pc t = p) : Knows s chain ti t p := hpc ▸ h.knows t
  refine ⟨⟨chain.drop (s.dequeued.length + 1), h.follows h.head, ?_⟩, fun t =>
    ⟨fun hpc => hknows t .fault hpc, (haccounted t).added, (haccounted t).taken, ?_⟩⟩
  · exact h.linked_eq.trans (congrArg (s.dequeued ++ ·) h.contents_eq)
  · refine fun result hpc => ⟨(haccounted t).last result (by rw [hpc]; rfl), ?_⟩
    rintro rfl
    exact hknows t (.gotClause none) hpc

end Runs

/-- The first thread links a clause and does not move tail; the second one has
to move it before it finds the clause. -/
def laggingTail : List (Action Bool ℕ) :=
  .addClause false 5 :: List.replicate 4 (.advance false) ++
    .getClause true :: List.replicate 12 (.advance true)

theorem fifo_queue_lagging :
    ∃ s, (machine Bool 0).run (start 0) laggingTail = some s ∧
      s.pc true = .gotClause (some 5) ∧ s.unlinked false = [] ∧
      (∃ nodes, Follows s.next s.head nodes ∧ s.linked = s.dequeued ++ nodes.map s.clause) ∧
      s.added false = ofThread s.links false ++ s.unlinked false ∧
      ofThread s.takes true = (s.returned true).filterMap id ++ (s.pc true).inHand ∧
      (s.returned true).getLast? = some (some 5) := by
  obtain ⟨s, hrun, hpc, hlinked⟩ : ∃ s, (machine Bool 0).run (start 0) laggingTail = some s ∧
      s.pc true = .gotClause (some 5) ∧ s.unlinked false = [] := ⟨_, rfl, rfl, rfl⟩
  obtain ⟨hqueue, hthreads⟩ := fifo_queue (Machine.Reach.of_run rfl hrun)
  exact ⟨s, hrun, hpc, hlinked, hqueue, (hthreads false).2.1, (hthreads true).2.2.1,
    ((hthreads true).2.2.2 (some 5) hpc).1⟩

/-! ### Where the calls take effect -/

/-- A call of the queue, taken as one step. -/
inductive QueueCall (C : Type*)
  | addClause (clause : C)
  | getClause

/-- A queue is the list of its clauses, first the one to be dequeued next.
getClause leaves the empty queue as it is and returns false. -/
def queue (C : Type*) : Machine (List C) (QueueCall C) where
  Init q := q = []
  step q
    | .addClause clause => some (q ++ [clause])
    | .getClause => some q.tail

section Refinement

variable [DecidableEq T] {null : C} {ok : State T C → Action T C → Prop} {s : State T C}

theorem Records.queue {s' : State T C} {t : T} {p : Pc C} (h : Records s s' t p) :
    (s'.linked = s.linked ∧ s'.dequeued = s.dequeued) ∨
      (∃ clause, s'.linked = s.linked ++ [clause] ∧ s'.dequeued = s.dequeued) ∨
      ∃ clause, s'.linked = s.linked ∧ s'.dequeued = s.dequeued ++ [clause] := by
  unfold State.linked State.dequeued
  cases h with
  | nothing _ _ _ hlinks htakes _ | answer _ _ _ hlinks htakes _ =>
    exact Or.inl ⟨by rw [hlinks], by rw [htakes]⟩
  | link node tail _ hlinks htakes _ =>
    refine Or.inr (Or.inl ⟨s.clause node, ?_, by rw [htakes]⟩)
    rw [hlinks, List.map_append, List.map_singleton]
  | take head next clause _ hlinks htakes _ =>
    refine Or.inr (Or.inr ⟨clause, by rw [hlinks], ?_⟩)
    rw [htakes, List.map_append, List.map_singleton]

/-- Where a call takes effect: addClause where its node is linked, getClause
where it moves head. No other step changes the queue. -/
theorem refines_queue :
    Simulation (machine T null) ok (queue C) (fun _ _ => True) State.contents where
  init := by
    intro s hs
    rw [show s = start null from hs]
    rfl
  step := by
    intro s a s' hreach hok hstep
    have hlinked : s.linked = s.dequeued ++ s.contents := by
      obtain ⟨⟨chain, ti, h⟩, -⟩ := invariant_of_reach hreach
      exact h.linked_eq
    have hlinked' : s'.linked = s'.dequeued ++ s'.contents := by
      obtain ⟨⟨chain, ti, h⟩, -⟩ := invariant_of_reach (hreach.step hok hstep)
      exact h.linked_eq
    have hhistory : (s'.linked = s.linked ∧ s'.dequeued = s.dequeued) ∨
        (∃ clause, s'.linked = s.linked ++ [clause] ∧ s'.dequeued = s.dequeued) ∨
        ∃ clause, s'.linked = s.linked ∧ s'.dequeued = s.dequeued ++ [clause] := by
      cases a with
      | addClause t clause =>
        obtain ⟨-, rfl⟩ : (s.pc t).atRest = true ∧ s.observe.enterAdd t clause = s' := by
          simpa [machine, step] using hstep
        exact Or.inl ⟨rfl, rfl⟩
      | getClause t =>
        obtain ⟨-, rfl⟩ : (s.pc t).atRest = true ∧ s.observe.enterGet t = s' := by
          simpa [machine, step] using hstep
        exact Or.inl ⟨rfl, rfl⟩
      | advance t =>
        obtain ⟨p, -, hrecords⟩ := advance_records hstep
        exact hrecords.queue
    rcases hhistory with ⟨hl, hd⟩ | ⟨clause, hl, hd⟩ | ⟨clause, hl, hd⟩
    · exact Or.inl (by rw [State.contents, hl, hd, State.contents])
    · refine Or.inr ⟨.addClause clause, trivial, ?_⟩
      rw [hl, hd, hlinked, List.append_assoc] at hlinked'
      exact congrArg some (List.append_cancel_left hlinked')
    · refine Or.inr ⟨.getClause, trivial, ?_⟩
      rw [hl, hd, hlinked, List.append_assoc] at hlinked'
      have hcons : s.contents = clause :: s'.contents := List.append_cancel_left hlinked'
      exact congrArg some (congrArg List.tail hcons)

end Refinement

end Painless.ClauseBuffer
