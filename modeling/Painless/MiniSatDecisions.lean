import Painless.MiniSatOrder
import Painless.MiniSatAnswers

/-!
The MiniSat search with the heap that orders its decisions. The engine takes the
order of the variables from outside; here it is that of the heap, which every
conflict, every backtracking and every simplification changes. On every run the
heap is in order and holds what the engine relies on, none of its assertions fails,
and a decision that is not drawn at random is for a variable of the highest
activity.
-/
namespace Painless.MiniSatDecisions

open Cnf PartialAssignment MiniSatCore MiniSatTrail MiniSatPropagate MiniSatAnalyze
open MiniSatHeap MiniSatEngine MiniSatSearch MiniSatDatabase MiniSatTurns MiniSatRuns
open MiniSatOrder
open MiniSatCore.Core
open Transitions (Machine)

variable {A : Type*} [LinearOrder A] (arith : Arithmetic A)

/-! ### The search -/

/-- There is nothing after a failed assertion of the heap. -/
abbrev Result (A : Type*) := Option (Solver.Outcome × VarOrder A)

def onConflict (s : Solver) (o : VarOrder A) (confl : ℕ) : Result A :=
  if s.decisionLevel = 0 then some (.answer s (some false), o)
  else
    match analyze s.toCore s.seen s.ccminMode confl with
    | none => some (.stuck, o)
    | some a =>
      (o.bumpAll arith s.nVars (analyzeBumps s.toCore s.seen confl)).bind fun o =>
        (o.cancelUntil s a.btlevel).map fun o =>
          match (Solver.cancelUntil { s with seen := a.seen } a.btlevel).learn a.learnt with
          | none => (.stuck, o)
          | some s => (.learnt s a.learnt, o.varDecayActivity arith)

/-- The engine keeps a list of what the heap holds. -/
def branch (s : Solver) (o : VarOrder A) (i : Input) : Result A :=
  match s.assume (s.assumptions.drop s.decisionLevel) with
  | .failed s p =>
    let r := analyzeFinal s.toCore s.seen (negate p)
    some (.answer { s with seen := r.1, conflict := r.2 } (some false), o)
  | .decide s p => some (.next (s.decide p), o)
  | .all s =>
    (o.pickBranchVar s i.random).map fun r =>
      let s : Solver := { s with heap := s.heap.filter fun v => r.2.heap.inHeap v }
      match r.1 with
      | none => (.answer s (some true), r.2)
      | some v => (.next (s.decide (v, i.sign v)), r.2)

/-- What simplify does here; `s` is what it has left of the engine. -/
def simplify (o : VarOrder A) (s : Solver) (i : Input) : Option (VarOrder A) :=
  if i.simplify then o.rebuildOrderHeap s else some o

def noConflict (s : Solver) (o : VarOrder A) (i : Input) : Result A :=
  if i.stop then
    (o.cancelUntil s 0).map fun o =>
      (if i.interrupted then .answer (s.cancelUntil 0) none else .next (s.cancelUntil 0), o)
  else if s.decisionLevel = 0 then
    let r := s.simplify i
    if r.2 then
      (simplify o r.1 i).bind fun o => branch (if i.reduce then r.1.reduceDB i else r.1) o i
    else some (.answer r.1 (some false), o)
  else branch (if i.reduce then s.reduceDB i else s) o i

def turn (s : Solver) (o : VarOrder A) (i : Input) : Result A :=
  let s := s.importAll i
  let r := s.propagate
  match r.2 with
  | some confl => onConflict arith (s.setCore r.1) o confl
  | none => noConflict (s.setCore r.1) o i

/-! ### Runs -/

structure State (A : Type*) where
  engine : MiniSatSearch.State
  order : VarOrder A

inductive Action (A : Type*)
  | newVar (dvar : Bool) (activity : A)
  | addClause (ps : Clause ℕ)
  | solve (assumps : List (Literal ℕ))
  /-- The field `order` of the input is not used. -/
  | turn (i : Input)

/-- The call without what concerns the heap. -/
def Action.call : Action A → MiniSatSearch.Action
  | .newVar dvar _ => .newVar dvar
  | .addClause ps => .addClause ps
  | .solve assumps => .solve assumps
  | .turn i => .turn i

/-- At the end of solve_ the heap gets back what is no longer assigned. -/
def close (o : VarOrder A) : Solver.Outcome → Option (VarOrder A)
  | .answer s _ => o.cancelUntil s 0
  | _ => some o

def step (s : State A) : Action A → Option (State A)
  | .newVar dvar activity =>
    (MiniSatSearch.step s.engine (.newVar dvar)).bind fun t =>
      (s.order.newVar s.engine.solver dvar activity).map fun o => ⟨t, o⟩
  | .addClause ps => (MiniSatSearch.step s.engine (.addClause ps)).map fun t => ⟨t, s.order⟩
  | .solve assumps => (MiniSatSearch.step s.engine (.solve assumps)).map fun t => ⟨t, s.order⟩
  | .turn i =>
    if s.engine.pc = .searching ∧ i.Valid s.engine.solver.toCore then
      (turn arith s.engine.solver s.order i).bind fun r =>
        (close r.2 r.1).map fun o =>
          ⟨{ s.engine with
              imported := s.engine.imported ++ i.imported s.engine.solver.toCore }.after r.1, o⟩
    else none

def init (ccminMode : ℕ) (activity varInc : A) : State A :=
  ⟨MiniSatSearch.init ccminMode, Heap.empty id, fun _ => activity, varInc⟩

def machine : Machine (State A) (Action A) where
  Init := fun s => ∃ ccminMode activity varInc,
    arith.zero ≤ varInc ∧ s = init ccminMode activity varInc
  step := step arith

/-! ### What the engine leaves as it is -/

section Frame

variable {s t : Core}

theorem nVars_lookup (p : Literal ℕ) : (s.lookup p).nVars = s.nVars := by
  unfold Core.lookup
  split_ifs <;> rfl

/-- The core after the visit. -/
def Visited (v : Core.Visit) (P : Core → Prop) : Prop :=
  match v with
  | .keep t _ => P t
  | .move t => P t
  | .conflict t _ => P t

theorem nVars_visitTurned (p : Literal ℕ) (w : ImportedWatches.Watcher) :
    Visited (visitTurned s p w) fun t => t.nVars = s.nVars := by
  unfold visitTurned
  dsimp only
  split
  · exact rfl
  · split
    · exact rfl
    · split
      · exact rfl
      · exact rfl

theorem nVars_visit (p : Literal ℕ) (w : ImportedWatches.Watcher) :
    Visited (visit s p w) fun t => t.nVars = s.nVars := by
  unfold visit
  split
  · exact rfl
  · exact nVars_visitTurned p w

theorem nVars_visitAll (p : Literal ℕ) (kept ws : List ImportedWatches.Watcher) :
    (visitAll p s kept ws).1.nVars = s.nVars := by
  induction ws generalizing s kept with
  | nil => rfl
  | cons w rest ih =>
    have hvisit := @nVars_visit s p w
    unfold visitAll
    cases hresult : visit s p w with
    | keep t w' =>
      rw [hresult] at hvisit
      exact (ih (kept ++ [w'])).trans hvisit
    | move t =>
      rw [hresult] at hvisit
      exact (ih kept).trans hvisit
    | conflict t w' =>
      rw [hresult] at hvisit
      exact hvisit

theorem nVars_propagateLoop (fuel : ℕ) (confl : Option ℕ) :
    (propagateLoop fuel s confl).1.nVars = s.nVars := by
  induction fuel generalizing s confl with
  | zero => rfl
  | succ fuel ih =>
    unfold propagateLoop
    cases s.trail[s.qhead]? with
    | none => rfl
    | some p =>
      refine (ih _).trans ?_
      exact (nVars_visitAll p [] _).trans (nVars_lookup p)

theorem nVars_removeSatisfied (crs : List ℕ) : (s.removeSatisfied crs).1.nVars = s.nVars := by
  induction crs generalizing s with
  | nil => rfl
  | cons cr rest ih =>
    unfold Core.removeSatisfied
    split_ifs
    · exact ih
    · exact ih

theorem nVars_reduceDB (drop : ℕ → Bool) (crs : List ℕ) :
    (s.reduceDB drop crs).1.nVars = s.nVars := by
  induction crs generalizing s with
  | nil => rfl
  | cons cr rest ih =>
    unfold Core.reduceDB
    split_ifs
    · exact ih
    · exact ih

end Frame

/-! ### The heap beside the engine -/

/-- The heap is in order and holds what the engine has in its list, and its map has
the decision variables. -/
structure Holds (s : Solver) (o : VarOrder A) : Prop where
  ok : o.Ok
  inc : arith.zero ≤ o.varInc
  keys : ∀ v, o.heap.inHeap v ↔ v ∈ s.heap
  nodup : s.heap.Nodup
  range : ∀ v ∈ s.heap, v < s.nVars
  reserved : ∀ v, s.decision v = true → o.heap.has v

variable {arith} {s t : Solver} {o : VarOrder A}

theorem Holds.congr (h : Holds arith s o) (hheap : t.heap = s.heap) (hvars : t.nVars = s.nVars)
    (hdecision : t.decision = s.decision) : Holds arith t o := by
  refine ⟨h.ok, h.inc, fun v => ?_, ?_, fun v hv => ?_, fun v hv => ?_⟩
  · rw [hheap]
    exact h.keys v
  · rw [hheap]
    exact h.nodup
  · rw [hheap] at hv
    rw [hvars]
    exact h.range v hv
  · rw [hdecision] at hv
    exact h.reserved v hv

theorem nodup_insertVarOrder {decision : ℕ → Bool} {heap : List ℕ} (h : heap.Nodup) (x : ℕ) :
    (Solver.insertVarOrder decision heap x).Nodup := by
  unfold Solver.insertVarOrder
  split_ifs with hx
  · exact h.append (List.nodup_singleton x) (List.disjoint_singleton.mpr hx.1)
  · exact h

theorem nodup_foldl_insertVarOrder {decision : ℕ → Bool} {ls : List (Literal ℕ)} {heap : List ℕ}
    (h : heap.Nodup) :
    (ls.foldl (fun heap l => Solver.insertVarOrder decision heap l.1) heap).Nodup := by
  induction ls generalizing heap with
  | nil => exact h
  | cons l rest ih => exact ih (nodup_insertVarOrder h l.1)

theorem Holds.newVar (h : Holds arith s o) (dvar : Bool) (activity : A) :
    ∃ t, o.newVar s dvar activity = some t ∧ Holds arith (s.newVar dvar) t := by
  have hne {v : ℕ} (hv : o.heap.inHeap v) : v ≠ s.nVars := (h.range v ((h.keys v).mp hv)).ne
  have hok : VarOrder.Ok
      { o with activity := Function.update o.activity s.nVars activity } := by
    refine VarOrder.ok_of_le h.ok fun v w hv hw hle => ?_
    show OrderDual.toDual (Function.update o.activity s.nVars activity v) ≤
      OrderDual.toDual (Function.update o.activity s.nVars activity w)
    rw [Function.update_of_ne (hne hv), Function.update_of_ne (hne hw)]
    exact hle
  obtain ⟨t, ht, htok, hinc, hkeys, hnew, hkept⟩ := VarOrder.insertVarOrder_spec hok
    (Function.update s.decision s.nVars dvar) s.nVars
  refine ⟨t, ht, htok, h.inc.trans_eq hinc.symm, fun v => ?_, nodup_insertVarOrder h.nodup _,
    fun v hv => ?_, fun v hv => ?_⟩
  · rw [hkeys v]
    exact (or_congr_left (h.keys v)).trans mem_insertVarOrder.symm
  · rcases mem_insertVarOrder.mp hv with hold | ⟨rfl, -⟩
    · exact Nat.lt_succ_of_lt (h.range v hold)
    · exact Nat.lt_succ_self _
  · by_cases hvar : v = s.nVars
    · subst hvar
      exact hnew hv
    · exact hkept v (h.reserved v ((Function.update_of_ne hvar ..).symm.trans hv))

theorem mem_undone_trail {c : Core} {level : ℕ} {l : Literal ℕ} (h : l ∈ Solver.undone c level) :
    l ∈ c.trail := by
  unfold Solver.undone at h
  cases hlim : c.trailLim[level]? with
  | none =>
    rw [hlim] at h
    exact absurd h List.not_mem_nil
  | some lim =>
    rw [hlim] at h
    exact List.mem_of_mem_drop (List.mem_reverse.mp h)

theorem Holds.cancelUntil (h : Holds arith s o) (hrange : InRange s.toCore s.trail)
    (level : ℕ) : ∃ t, o.cancelUntil s level = some t ∧ Holds arith (s.cancelUntil level) t := by
  obtain ⟨t, ht, htok, hinc, hkeys, hkept⟩ := VarOrder.cancelUntil_spec h.ok s level
  refine ⟨t, ht, htok, h.inc.trans_eq hinc.symm, fun v => ?_, nodup_foldl_insertVarOrder h.nodup,
    fun v hv => ?_, fun v hv => hkept v (h.reserved v hv)⟩
  · rw [hkeys v]
    exact (or_congr_left (h.keys v)).trans mem_foldl_insertVarOrder.symm
  · show v < (s.toCore.cancelUntil level).nVars
    rw [cancelUntil_nVars]
    rcases mem_foldl_insertVarOrder.mp hv with hold | ⟨hv, -⟩
    · exact h.range v hold
    · obtain ⟨l, hl, rfl⟩ := List.mem_map.mp hv
      exact hrange l (mem_undone_trail hl)

theorem Holds.bumpAll (h : Holds arith s o) (vs : List ℕ) :
    ∃ t, o.bumpAll arith s.nVars vs = some t ∧ Holds arith s t := by
  obtain ⟨t, ht, htok, hinc, hkeys⟩ := VarOrder.bumpAll_spec arith h.ok h.inc
    (fun v hv => h.range v ((h.keys v).mp hv)) vs
  exact ⟨t, ht, htok, hinc, fun v => (hkeys.inHeap v).trans (h.keys v), h.nodup, h.range,
    fun v hv => hkeys.has v (h.reserved v hv)⟩

/-- Whatever is put into the heap is a decision variable, which has been in it when
it was new. -/
theorem Holds.rebuild (h : Holds arith s o) (hdecision : t.decision = s.decision) :
    ∃ u, o.rebuildOrderHeap t = some u ∧ Holds arith t.rebuildOrderHeap u := by
  have hreserved (v : ℕ) (hv : v ∈ t.rebuildOrderHeap.heap) : o.heap.has v := by
    have hfree := (List.mem_filter.mp hv).2
    rw [Bool.and_eq_true, hdecision] at hfree
    exact h.reserved v hfree.1
  obtain ⟨u, hu, huok, hinc, hkeys, hkept⟩ := VarOrder.rebuildOrderHeap_spec h.ok t hreserved
  refine ⟨u, hu, huok, h.inc.trans_eq hinc.symm, hkeys, List.nodup_range.filter _,
    fun v hv => ?_, fun v hv => ?_⟩
  · exact List.mem_range.mp (List.mem_filter.mp hv).1
  · exact hkept v (h.reserved v (hdecision ▸ hv))

theorem Holds.varDecayActivity (h : Holds arith s o) :
    Holds arith s (o.varDecayActivity arith) :=
  ⟨h.ok, arith.grow_nonneg h.inc, h.keys, h.nodup, h.range, h.reserved⟩

/-! ### The order that the heap gives -/

/-- The inputs differ in the order of the variables only. -/
def Reordered (i j : Input) : Prop :=
  ∃ random order order_perm, j =
    { i with random := random, order := order, order_perm := order_perm }

/-- What has been taken off the heap comes first, `next` as the last of it. -/
def arranged (next : Option ℕ) (h : Heap ℕ) (vs : List ℕ) : List ℕ :=
  let popped := vs.filter fun v => ¬ h.inHeap v
  ((popped.filter fun v => next ≠ some v) ++ popped.filter fun v => next = some v) ++
    vs.filter fun v => h.inHeap v

theorem arranged_perm (next : Option ℕ) (h : Heap ℕ) (vs : List ℕ) :
    (arranged next h vs).Perm vs := by
  unfold arranged
  dsimp only
  generalize hpopped : (vs.filter fun v => decide ¬ h.inHeap v) = popped
  have hinner : ((popped.filter fun v => next ≠ some v) ++
      popped.filter fun v => next = some v).Perm popped := by
    refine List.perm_append_comm.trans ?_
    simpa using List.filter_append_perm (fun v => decide (next = some v)) popped
  refine (hinner.append_right _).trans (List.perm_append_comm.trans ?_)
  rw [← hpopped]
  simpa using List.filter_append_perm (fun v => decide (h.inHeap v)) vs

theorem popUntil_append {free : ℕ → Bool} {vs ws : List ℕ} (h : ∀ v ∈ vs, free v = false) :
    Solver.popUntil free (vs ++ ws) = Solver.popUntil free ws := by
  induction vs with
  | nil => rfl
  | cons v rest ih =>
    obtain ⟨hv, hrest⟩ := List.forall_mem_cons.mp h
    rw [List.cons_append, Solver.popUntil, hv, if_neg (by simp), ih hrest]

theorem popUntil_arranged {key : ℕ → Aᵒᵈ} {free : ℕ → Bool} {h : Heap ℕ}
    {r : Option ℕ × Heap ℕ} {vs : List ℕ} (hpopped : VarOrder.Popped key free h r)
    (hkeys : ∀ v, h.inHeap v ↔ v ∈ vs) (hnodup : vs.Nodup) :
    Solver.popUntil free (arranged r.1 r.2 vs) = (r.1, vs.filter fun v => r.2.inHeap v) := by
  unfold arranged
  dsimp only
  rw [List.append_assoc, popUntil_append]
  · cases hnext : r.1 with
    | none =>
      have hnil : (vs.filter fun v => decide (r.2.inHeap v)) = [] := by
        rw [List.filter_eq_nil_iff]
        intro v _
        simpa using hpopped.empty hnext v
      rw [hnil]
      simp [Solver.popUntil]
    | some v =>
      obtain ⟨hin, hfree, hout, -⟩ := hpopped.found v hnext
      have hone : ((vs.filter fun v => decide ¬ r.2.inHeap v).filter fun w =>
          decide (some v = some w)) = [v] := by
        have hperm : ((vs.filter fun v => decide ¬ r.2.inHeap v).filter fun w =>
            decide (some v = some w)).Perm [v] := by
          rw [List.perm_ext_iff_of_nodup ((hnodup.filter _).filter _) (List.nodup_singleton v)]
          intro w
          have hmem := (hkeys v).mp hin
          simp only [List.mem_filter, decide_eq_true_eq, Option.some.injEq, List.mem_singleton]
          constructor
          · exact fun hw => hw.2.symm
          · rintro rfl
            exact ⟨⟨hmem, hout⟩, rfl⟩
        exact List.perm_singleton.mp hperm
      rw [hone, List.singleton_append, Solver.popUntil, if_pos hfree]
  · intro v hv
    rw [List.mem_filter, List.mem_filter] at hv
    obtain ⟨⟨hv, hout⟩, hne⟩ := hv
    by_contra hfree
    rcases hpopped.stays v ((hkeys v).mpr hv) ((Bool.not_eq_false _).mp hfree) with heq | hin
    · simp [heq] at hne
    · simp [hin] at hout

/-- The engine decides for the same variable with some order from outside, and the
variable is one of the most active ones if it is not the one drawn at random, which
stays in the heap. -/
theorem Holds.pickBranchVar (h : Holds arith s o) (i : Input) :
    ∃ next t, o.pickBranchVar s i.random = some (next, t) ∧
      Holds arith { s with heap := s.heap.filter fun v => t.heap.inHeap v } t ∧
      (∃ j, Reordered i j ∧
        s.pickBranchVar j = (next, s.heap.filter fun v => t.heap.inHeap v)) ∧
      ∀ v, next = some v → (∀ k, i.random = some k → t.heap.heap[k]? ≠ some v) →
        ∀ w ∈ s.heap, s.decision w = true → s.assigns w = none →
          t.activity w ≤ t.activity v := by
  have hfilter (t : VarOrder A) (ht : t.Ok) (hinc : arith.zero ≤ t.varInc)
      (hsub : ∀ v, t.heap.inHeap v → o.heap.inHeap v)
      (hkept : ∀ v, o.heap.has v → t.heap.has v) :
      Holds arith { s with heap := s.heap.filter fun v => t.heap.inHeap v } t := by
    refine ⟨ht, hinc, fun v => ?_, h.nodup.filter _, fun v hv => ?_,
      fun v hv => hkept v (h.reserved v hv)⟩
    · rw [List.mem_filter, decide_eq_true_eq]
      exact ⟨fun hv => ⟨(h.keys v).mp (hsub v hv), hv⟩, fun hv => hv.2⟩
    · exact h.range v (List.mem_filter.mp hv).1
  unfold VarOrder.pickBranchVar
  dsimp only
  generalize hdrawn : ((i.random.bind fun k => o.heap.heap[k]?).filter fun v =>
    (s.assigns v).isNone && s.decision v) = drawn
  cases drawn with
  | some v =>
    obtain ⟨hbind, hfree⟩ := Option.filter_eq_some_iff.mp hdrawn
    obtain ⟨k, hk, hget⟩ := Option.bind_eq_some_iff.mp hbind
    have hin : o.heap.inHeap v := h.ok.places.inHeap_iff.mpr (List.mem_of_getElem? hget)
    have hall : (s.heap.filter fun v => decide (o.heap.inHeap v)) = s.heap := by
      rw [List.filter_eq_self]
      exact fun w hw => decide_eq_true ((h.keys w).mpr hw)
    refine ⟨some v, o, rfl, hfilter o h.ok h.inc (fun w hw => hw) (fun _ => id),
      ⟨{ i with random := some (s.heap.idxOf v) }, ⟨_, i.order, i.order_perm, rfl⟩, ?_⟩,
      fun w hw hdrawn => absurd (hget.trans hw) (hdrawn k hk)⟩
    have hidx : s.heap[s.heap.idxOf v]? = some v := List.getElem?_idxOf ((h.keys v).mp hin)
    unfold Solver.pickBranchVar
    dsimp only
    rw [Option.bind_some, hidx, Option.filter_some, if_pos hfree, hall]
  | none =>
    obtain ⟨r, hr, hpopped⟩ := VarOrder.popUntil_spec
      (fun v => (s.assigns v).isNone && s.decision v) h.ok (Nat.lt_succ_self _)
    refine ⟨r.1, { o with heap := r.2 }, ?_, hfilter _ hpopped.ok h.inc hpopped.sub hpopped.kept,
      ⟨{ i with random := none, order := arranged r.1 r.2, order_perm := arranged_perm r.1 r.2 },
        ⟨_, _, _, rfl⟩, ?_⟩, fun v hv _ w hw hdecision hnone => ?_⟩
    · dsimp only
      rw [hr, Option.map_some]
    · unfold Solver.pickBranchVar
      dsimp only
      rw [Option.bind_none, Option.filter_none]
      exact popUntil_arranged hpopped h.keys h.nodup
    · have hmin := (hpopped.found v hv).2.2.2 w ((h.keys w).mpr hw) (by simp [hdecision, hnone])
      exact OrderDual.toDual_le_toDual.mp hmin

/-! ### A turn -/

/-- The last literal of the trail is for a variable that is as active as any that
is left to decide. -/
def MostActive (s : Solver) (o : VarOrder A) : Prop :=
  ∃ l, s.trail.getLast? = some l ∧ s.decision l.1 = true ∧
    ∀ v, s.decision v = true → s.assigns v = none → o.activity v ≤ o.activity l.1

/-- The last literal of the trail is for the variable that has been drawn at random.
A draw of another one is wasted: the heap decides. -/
def Drawn (i : Input) (s : Solver) (o : VarOrder A) : Prop :=
  ∃ k l, i.random = some k ∧ s.trail.getLast? = some l ∧ o.heap.heap[k]? = some l.1

/-- After a turn from the decision level `level`. -/
def OutcomeHolds (arith : Arithmetic A) (level : ℕ) (i : Input) (r : Solver.Outcome × VarOrder A) :
    Prop :=
  match r.1 with
  | .next t => Holds arith t r.2 ∧ (level < t.decisionLevel →
      t.assumptions.length < t.decisionLevel → ¬ Drawn i t r.2 → MostActive t r.2)
  | .learnt t _ => Holds arith t r.2 ∧ t.decisionLevel ≤ level
  | .answer t _ => Holds arith t r.2 ∧ InRange t.toCore t.trail
  | .stuck => True

variable {G : Bool → Prop} {f g : Formula ℕ}

theorem assume_frame {rest : List (Literal ℕ)} :
    match s.assume rest with
    | .all t => t.heap = s.heap ∧ t.nVars = s.nVars ∧ t.decision = s.decision
    | .decide t _ => t.heap = s.heap ∧ t.nVars = s.nVars ∧ t.decision = s.decision
    | .failed t _ => t.heap = s.heap ∧ t.nVars = s.nVars ∧ t.decision = s.decision := by
  induction rest generalizing s with
  | nil => exact ⟨rfl, rfl, rfl⟩
  | cons p rest ih =>
    unfold Solver.assume
    split_ifs
    · exact ih
    · exact ⟨rfl, rfl, rfl⟩
    · exact ⟨rfl, rfl, rfl⟩

theorem mostActive_decide (hdatabase : DatabaseOk f g s) {p : Literal ℕ} {heap : List ℕ}
    (hp : s.decision p.1 = true)
    (hmost : ∀ w ∈ s.heap, s.decision w = true → s.assigns w = none →
      o.activity w ≤ o.activity p.1) :
    MostActive (({ s with heap := heap } : Solver).decide p) o := by
  refine ⟨p, ?_, hp, fun v hdecision hnone => ?_⟩
  · show (s.trail ++ [p]).getLast? = some p
    exact List.getLast?_concat
  · have hupdate : Function.update s.assigns p.1 (some p.2) v = none := hnone
    rw [Function.update_apply] at hupdate
    split_ifs at hupdate
    exact hmost v (hdatabase.heap v hdecision hupdate) hdecision hupdate

theorem branch_refines (h : SearchingOk G f g s) (hdone : s.qhead = s.trail.length)
    (ho : Holds arith s o) (level : ℕ) (i : Input) :
    ∃ r, branch s o i = some r ∧ (∃ j, Reordered i j ∧ s.branch j = r.1) ∧
      OutcomeHolds arith level i r := by
  have hassume := assume_ok h hdone rfl
  have hframe := @assume_frame s (s.assumptions.drop s.decisionLevel)
  have hself : Reordered i i := ⟨i.random, i.order, i.order_perm, rfl⟩
  unfold branch Solver.branch
  cases hresult : s.assume (s.assumptions.drop s.decisionLevel) with
  | failed t p =>
    rw [hresult] at hassume hframe
    exact ⟨_, rfl, ⟨i, hself, rfl⟩, ho.congr hframe.1 hframe.2.1 hframe.2.2,
      hassume.1.engine.trail.inRange⟩
  | decide t p =>
    rw [hresult] at hassume hframe
    obtain ⟨ht, -, hp, -⟩ := hassume
    refine ⟨_, rfl, ⟨i, hself, rfl⟩, ho.congr hframe.1 hframe.2.1 hframe.2.2,
      fun _ hlevel => ?_⟩
    have hlt : t.decisionLevel < t.assumptions.length := (List.getElem?_eq_some_iff.mp hp).1
    have hlevel' : t.assumptions.length < (t.trailLim ++ [t.trail.length]).length := hlevel
    rw [List.length_append, List.length_singleton] at hlevel'
    exact absurd hlevel' (Nat.not_lt.mpr hlt)
  | all t =>
    rw [hresult] at hassume hframe
    obtain ⟨ht, -, -⟩ := hassume
    obtain ⟨next, u, hpick, hu, ⟨j, hj, hsame⟩, hmost⟩ :=
      (ho.congr hframe.1 hframe.2.1 hframe.2.2).pickBranchVar i
    have hspec := (pickBranchVar_spec t j).2
    rw [hsame] at hspec
    dsimp only at hspec ⊢
    rw [hpick, Option.map_some]
    refine ⟨_, rfl, ⟨j, hj, ?_⟩, ?_⟩
    · rw [hsame]
      obtain ⟨random, order, order_perm, rfl⟩ := hj
      cases next with
      | none => rfl
      | some v => rfl
    · cases next with
      | none => exact ⟨hu, ht.engine.trail.inRange⟩
      | some v =>
        refine ⟨hu.congr rfl rfl rfl, fun _ _ hdrawn => ?_⟩
        refine mostActive_decide ht.database hspec.2.1 (hmost v rfl fun k hk hget => ?_)
        exact hdrawn ⟨k, (v, i.sign v), hk, List.getLast?_concat, hget⟩

theorem simplify_refines (h : SearchingOk G f g s) (ho : Holds arith s o) (i : Input) :
    if (s.simplify i).2 = true then
      ∃ t, simplify o (s.simplify i).1 i = some t ∧ Holds arith (s.simplify i).1 t
    else
      Holds arith (s.simplify i).1 o ∧
        InRange (s.simplify i).1.toCore (s.simplify i).1.trail := by
  obtain ⟨-, hresult⟩ := propagateLoop_ok h.engine
    (show s.nVars < s.nVars + 1 + s.qhead by omega)
  have hvars := @nVars_propagateLoop s.toCore (s.nVars + 1) none
  have hok : ¬ s.ok = false := by
    rw [h.assumed.ok]
    simp
  unfold Solver.simplify Core.propagate
  rw [if_neg hok]
  dsimp only
  generalize propagateLoop (s.nVars + 1) s.toCore none = r at hresult hvars ⊢
  obtain ⟨t, confl⟩ := r
  cases confl with
  | some cr =>
    rw [if_neg (by simp)]
    exact ⟨ho.congr rfl hvars rfl, hresult.trail.inRange⟩
  | none =>
    cases hgo : i.simplify with
    | true =>
      show ∃ u, simplify o (s.setCore t).cleanLearnts i = some u ∧
        Holds arith (s.setCore t).cleanLearnts u
      unfold simplify
      rw [if_pos hgo]
      exact @Holds.rebuild _ _ _ s (s.setCore t).cleanLearnts o ho rfl
    | false =>
      show ∃ u, simplify o (s.setCore t) i = some u ∧ Holds arith (s.setCore t) u
      refine ⟨o, ?_, ho.congr rfl hvars rfl⟩
      unfold simplify
      rw [if_neg (by simp [hgo])]

theorem reduce_branch_refines (h : SearchingOk G f g s) (hdone : s.qhead = s.trail.length)
    (ho : Holds arith s o) (level : ℕ) (i : Input) :
    ∃ r, branch (if i.reduce then s.reduceDB i else s) o i = some r ∧
      (∃ j, Reordered i j ∧ (if i.reduce then s.reduceDB i else s).branch j = r.1) ∧
      OutcomeHolds arith level i r := by
  split_ifs
  · obtain ⟨hnext, hdone'⟩ := h.reduceDB hdone i
    exact branch_refines hnext hdone' (ho.congr rfl (nVars_reduceDB _ _) rfl) level i
  · exact branch_refines h hdone ho level i

theorem noConflict_refines (h : SearchingOk G f g s) (hdone : s.qhead = s.trail.length)
    (ho : Holds arith s o) (level : ℕ) (i : Input) :
    ∃ r, noConflict s o i = some r ∧ (∃ j, Reordered i j ∧ s.noConflict j = r.1) ∧
      OutcomeHolds arith level i r := by
  have hself : Reordered i i := ⟨i.random, i.order, i.order_perm, rfl⟩
  unfold noConflict Solver.noConflict
  by_cases hstop : i.stop = true
  · obtain ⟨t, ht, hholds⟩ := ho.cancelUntil h.engine.trail.inRange 0
    rw [if_pos hstop, ht, Option.map_some]
    refine ⟨_, rfl, ⟨i, hself, ?_⟩, ?_⟩
    · rw [if_pos hstop]
    · have hrestart := h.restart
      unfold OutcomeHolds
      dsimp only
      cases i.interrupted with
      | true => exact ⟨hholds, hrestart.engine.trail.inRange⟩
      | false =>
        refine ⟨hholds, fun hlevel => ?_⟩
        have hzero : (s.cancelUntil 0).decisionLevel = 0 := decisionLevel_cancelUntil s.toCore
        omega
  · rw [if_neg hstop]
    by_cases hlevel : s.decisionLevel = 0
    · have hsimplify := simplify_ok h hlevel i
      have hrefines := simplify_refines h ho i
      rw [if_pos hlevel]
      dsimp only
      by_cases hgo : (s.simplify i).2 = true
      · rw [if_pos hgo] at hsimplify hrefines ⊢
        obtain ⟨t, ht, hholds⟩ := hrefines
        rw [ht, Option.bind_some]
        obtain ⟨r, hr, ⟨j, hj, hsame⟩, hout⟩ :=
          reduce_branch_refines hsimplify.1 hsimplify.2 hholds level i
        refine ⟨r, hr, ⟨j, hj, ?_⟩, hout⟩
        obtain ⟨random, order, order_perm, rfl⟩ := hj
        show (if i.stop = true then _ else _) = r.1
        rw [if_neg hstop, if_pos hlevel]
        show (if (s.simplify i).2 = true then _ else _) = r.1
        rw [if_pos hgo]
        exact hsame
      · rw [if_neg hgo] at hrefines ⊢
        refine ⟨_, rfl, ⟨i, hself, ?_⟩, hrefines⟩
        rw [if_neg hstop, if_pos hlevel, if_neg hgo]
    · rw [if_neg hlevel]
      obtain ⟨r, hr, ⟨j, hj, hsame⟩, hout⟩ := reduce_branch_refines h hdone ho level i
      refine ⟨r, hr, ⟨j, hj, ?_⟩, hout⟩
      obtain ⟨random, order, order_perm, rfl⟩ := hj
      show (if i.stop = true then _ else _) = r.1
      rw [if_neg hstop, if_neg hlevel]
      exact hsame

theorem heap_learn {c : Clause ℕ} (h : s.learn c = some t) :
    t.heap = s.heap ∧ t.nVars = s.nVars ∧ t.decision = s.decision ∧
      t.decisionLevel = s.decisionLevel := by
  match c with
  | [] => exact absurd h.symm (Option.some_ne_none t)
  | [p] =>
    obtain rfl := Option.some.inj h
    exact ⟨rfl, rfl, rfl, rfl⟩
  | p :: q :: rest =>
    obtain rfl := Option.some.inj h
    exact ⟨rfl, rfl, rfl, rfl⟩

theorem onConflict_refines (confl : ℕ) {level : ℕ} (htrail : TrailOk s.toCore)
    (hlevel : s.decisionLevel = level) (ho : Holds arith s o) (i : Input) :
    ∃ r, onConflict arith s o confl = some r ∧ s.onConflict confl = r.1 ∧
      OutcomeHolds arith level i r := by
  unfold onConflict Solver.onConflict
  split_ifs with hzero
  · exact ⟨_, rfl, rfl, ho, htrail.inRange⟩
  · cases analyze s.toCore s.seen s.ccminMode confl with
    | none => exact ⟨_, rfl, rfl, trivial⟩
    | some a =>
      obtain ⟨t, ht, hbumped⟩ := ho.bumpAll (analyzeBumps s.toCore s.seen confl)
      obtain ⟨u, hu, hback⟩ := hbumped.cancelUntil htrail.inRange a.btlevel
      dsimp only
      rw [ht, Option.bind_some, hu, Option.map_some]
      refine ⟨_, rfl, ?_⟩
      cases hlearn : (Solver.cancelUntil { s with seen := a.seen } a.btlevel).learn a.learnt with
      | none => exact ⟨rfl, trivial⟩
      | some w =>
        obtain ⟨hheap, hvars, hdecision, hlast⟩ := heap_learn hlearn
        refine ⟨rfl, (hback.congr hheap hvars hdecision).varDecayActivity, hlast.trans_le ?_⟩
        show (s.toCore.cancelUntil a.btlevel).trailLim.length ≤ level
        rw [cancelUntil_trailLim, List.length_take]
        exact (min_le_right _ _).trans hlevel.le

theorem importAll_frame (i : Input) :
    (s.importAll i).heap = s.heap ∧ (s.importAll i).nVars = s.nVars ∧
      (s.importAll i).decision = s.decision ∧
      (s.importAll i).decisionLevel = s.decisionLevel := by
  have hunits (s : Solver) (units : List (Literal ℕ)) :
      (s.importUnitClauses units).heap = s.heap ∧ (s.importUnitClauses units).nVars = s.nVars ∧
        (s.importUnitClauses units).decision = s.decision ∧
        (s.importUnitClauses units).decisionLevel = s.decisionLevel := by
    induction units generalizing s with
    | nil => exact ⟨rfl, rfl, rfl, rfl⟩
    | cons l rest ih =>
      unfold Solver.importUnitClauses
      split_ifs
      · exact ih _
      · exact ih s
  have hclauses (s : Solver) (queue : List (Literal ℕ × Literal ℕ × Clause ℕ)) :
      (s.importClauses queue).heap = s.heap ∧ (s.importClauses queue).nVars = s.nVars ∧
        (s.importClauses queue).decision = s.decision ∧
        (s.importClauses queue).decisionLevel = s.decisionLevel := by
    induction queue generalizing s with
    | nil => exact ⟨rfl, rfl, rfl, rfl⟩
    | cons c queue ih => exact ih _
  unfold Solver.importAll
  split_ifs
  · obtain ⟨hheap, hvars, hdecision, hlevel⟩ := hunits s i.units
    obtain ⟨hheap', hvars', hdecision', hlevel'⟩ :=
      hclauses (s.importUnitClauses i.units) i.imports
    exact ⟨hheap'.trans hheap, hvars'.trans hvars, hdecision'.trans hdecision,
      hlevel'.trans hlevel⟩
  · exact ⟨rfl, rfl, rfl, rfl⟩

theorem turn_refines (h : SearchingOk (· = false) f g s) (ho : Holds arith s o) {i : Input}
    (hvalid : i.Valid s.toCore) :
    ∃ r, turn arith s o i = some r ∧ (∃ j, Reordered i j ∧ s.turn j = r.1) ∧
      OutcomeHolds arith s.decisionLevel i r := by
  have himports := h.imports hvalid
  have hframe := @importAll_frame s i
  unfold turn Solver.turn
  dsimp only
  have hsame (j : Input) (hj : Reordered i j) : s.importAll j = s.importAll i := by
    obtain ⟨random, order, order_perm, rfl⟩ := hj
    rfl
  generalize ht : s.importAll i = t at himports hframe ⊢
  obtain ⟨hf, hresult⟩ := propagateLoop_ok himports.engine
    (show t.nVars < t.nVars + 1 + t.qhead by omega)
  unfold Core.propagate
  generalize hr : propagateLoop (t.nVars + 1) t.toCore none = r at hf hresult ⊢
  obtain ⟨u, confl⟩ := r
  have ho' : Holds arith (t.setCore u) o :=
    ho.congr hframe.1 (hf.nVars.trans hframe.2.1) hframe.2.2.1
  have hlevel : (t.setCore u).decisionLevel = s.decisionLevel :=
    hf.decisionLevel.trans hframe.2.2.2
  cases confl with
  | some cr =>
    obtain ⟨r, hstep, heq, hout⟩ := onConflict_refines cr (s := t.setCore u)
      hresult.trail hlevel ho' i
    refine ⟨r, hstep, ⟨i, ⟨i.random, i.order, i.order_perm, rfl⟩, ?_⟩, hout⟩
    rw [ht, hr]
    exact heq
  | none =>
    obtain ⟨hengine, hdone⟩ := hresult
    have hnext : SearchingOk (· = false) f (g ++ i.imported s.toCore) (t.setCore u) :=
      ⟨hengine, himports.database.of_frame hf himports.engine.trail hengine.trail hengine.reasons,
        himports.assumed.of_frame hf⟩
    obtain ⟨r, hstep, ⟨j, hj, heq⟩, hout⟩ := noConflict_refines hnext hdone ho' s.decisionLevel i
    refine ⟨r, hstep, ⟨j, hj, ?_⟩, hout⟩
    rw [hsame j hj, ht, hr]
    exact heq

/-! ### Runs -/

theorem addClause_frame (ps : Clause ℕ) :
    (s.addClause ps).1.heap = s.heap ∧ (s.addClause ps).1.nVars = s.nVars ∧
      (s.addClause ps).1.decision = s.decision := by
  unfold Solver.addClause
  split_ifs
  · exact ⟨rfl, rfl, rfl⟩
  · cases Solver.simplifyLits s.assigns none
        (ps.insertionSort fun a b => Solver.index a ≤ Solver.index b) with
    | none => exact ⟨rfl, rfl, rfl⟩
    | some lits =>
      match lits with
      | [] => exact ⟨rfl, rfl, rfl⟩
      | [p] => exact ⟨rfl, nVars_propagateLoop _ _, rfl⟩
      | p :: q :: rest => exact ⟨rfl, rfl, rfl⟩

theorem Holds.finish (h : Holds arith s o) (hrange : InRange s.toCore s.trail)
    (status : Option Bool) :
    ∃ t, o.cancelUntil s 0 = some t ∧ Holds arith (s.finish status) t := by
  unfold Solver.finish
  dsimp only
  split_ifs
  · exact Holds.cancelUntil (s := { s with model := (List.range s.nVars).map s.assigns })
      (h.congr rfl rfl rfl) hrange 0
  · exact Holds.cancelUntil (s := { s with ok := false }) (h.congr rfl rfl rfl) hrange 0
  · exact h.cancelUntil hrange 0

theorem OutcomeHolds.after {level : ℕ} {i : Input} {r : Solver.Outcome × VarOrder A}
    (h : OutcomeHolds arith level i r) {e : MiniSatSearch.State} (hstuck : r.1 ≠ .stuck) :
    ∃ t, close r.2 r.1 = some t ∧ Holds arith (e.after r.1).solver t := by
  obtain ⟨out, o⟩ := r
  cases out with
  | next t => exact ⟨o, rfl, h.1⟩
  | learnt t c => exact ⟨o, rfl, h.1⟩
  | answer t status => exact h.1.finish h.2 status
  | stuck => exact absurd rfl hstuck

/-- The engine is in a state that it can reach with some order from outside. -/
structure StateHolds (arith : Arithmetic A) (x : State A) : Prop where
  engine : MiniSatSearch.machine.Reach (fun _ _ => True) x.engine
  heap : Holds arith x.engine.solver x.order

theorem StateHolds.turn {x : State A} (h : StateHolds arith x) {i : Input}
    (hpc : x.engine.pc = .searching) (hvalid : i.Valid x.engine.solver.toCore) :
    ∃ r o j, MiniSatDecisions.turn arith x.engine.solver x.order i = some r ∧
      close r.2 r.1 = some o ∧ Reordered i j ∧ x.engine.solver.turn j = r.1 ∧
      OutcomeHolds arith x.engine.solver.decisionLevel i r ∧
      Holds arith (({ x.engine with
        imported := x.engine.imported ++ i.imported x.engine.solver.toCore } :
          MiniSatSearch.State).after r.1).solver o := by
  have hstate := stateOk_of_reach h.engine
  obtain ⟨r, hr, ⟨j, hj, hsame⟩, hout⟩ :=
    turn_refines (hstate.searching hpc) h.heap hvalid
  have hstuck : r.1 ≠ .stuck := by
    intro heq
    have hvalid' : j.Valid x.engine.solver.toCore := by
      obtain ⟨random, order, order_perm, rfl⟩ := hj
      exact hvalid
    have hok := turn_ok (hstate.searching hpc) hvalid'
    rw [hsame, heq] at hok
    exact hok
  obtain ⟨o, ho, hholds⟩ := hout.after hstuck
  exact ⟨r, o, j, hr, ho, hj, hsame, hout, hholds⟩

/-- What can be called of the engine can be called here. -/
theorem StateHolds.isSome_step {x : State A} (h : StateHolds arith x) (a : Action A) :
    (step arith x a).isSome = (MiniSatSearch.step x.engine a.call).isSome := by
  cases a with
  | newVar dvar activity =>
    obtain ⟨o, ho, -⟩ := h.heap.newVar dvar activity
    unfold step Action.call
    dsimp only
    rw [ho]
    cases MiniSatSearch.step x.engine (.newVar dvar) <;> rfl
  | addClause ps =>
    unfold step Action.call
    exact Option.isSome_map
  | solve assumps =>
    unfold step Action.call
    exact Option.isSome_map
  | turn i =>
    unfold step Action.call MiniSatSearch.step
    dsimp only
    split_ifs with henabled
    · obtain ⟨r, o, j, hr, ho, -⟩ := h.turn henabled.1 henabled.2
      rw [hr, Option.bind_some, ho]
      rfl
    · rfl

theorem engine_turn {e : MiniSatSearch.State} {i j : Input} {out : Solver.Outcome}
    (hpc : e.pc = .searching) (hvalid : i.Valid e.solver.toCore) (hj : Reordered i j)
    (hsame : e.solver.turn j = out) :
    MiniSatSearch.machine.step e (.turn j) = some (({ e with
      imported := e.imported ++ i.imported e.solver.toCore } : MiniSatSearch.State).after out) := by
  obtain ⟨random, order, order_perm, rfl⟩ := hj
  subst hsame
  exact if_pos ⟨hpc, hvalid⟩

theorem stateHolds_step {x y : State A} {a : Action A} (h : StateHolds arith x)
    (hstep : step arith x a = some y) : StateHolds arith y := by
  cases a with
  | newVar dvar activity =>
    obtain ⟨e, he, hrest⟩ := Option.bind_eq_some_iff.mp hstep
    obtain ⟨o, ho, hholds⟩ := h.heap.newVar dvar activity
    rw [ho] at hrest
    obtain rfl := Option.some.inj hrest
    refine ⟨.step (a := .newVar dvar) h.engine trivial he, ?_⟩
    obtain ⟨-, rfl⟩ : x.engine.pc = .idle ∧ _ = e := by
      simpa [MiniSatSearch.step] using he
    exact hholds
  | addClause ps =>
    obtain ⟨e, he, rfl⟩ := Option.map_eq_some_iff.mp hstep
    refine ⟨.step (a := .addClause ps) h.engine trivial he, ?_⟩
    obtain ⟨-, rfl⟩ : (x.engine.pc = .idle ∧ InRange x.engine.solver.toCore ps) ∧ _ = e := by
      simpa [MiniSatSearch.step] using he
    obtain ⟨hheap, hvars, hdecision⟩ := addClause_frame (s := x.engine.solver) ps
    exact h.heap.congr hheap hvars hdecision
  | solve assumps =>
    obtain ⟨e, he, rfl⟩ := Option.map_eq_some_iff.mp hstep
    refine ⟨.step (a := .solve assumps) h.engine trivial he, ?_⟩
    obtain ⟨-, rfl⟩ : (x.engine.pc = .idle ∧ InRange x.engine.solver.toCore assumps) ∧ _ = e := by
      simpa [MiniSatSearch.step] using he
    unfold MiniSatSearch.State.solve
    dsimp only
    split_ifs
    · exact h.heap.congr rfl rfl rfl
    · exact h.heap.congr rfl rfl rfl
  | turn i =>
    unfold step at hstep
    dsimp only at hstep
    split_ifs at hstep with henabled
    obtain ⟨r, o, j, hr, ho, hj, hsame, -, hholds⟩ := h.turn henabled.1 henabled.2
    rw [hr, Option.bind_some, ho] at hstep
    obtain rfl := Option.some.inj hstep
    exact ⟨.step h.engine trivial (engine_turn henabled.1 henabled.2 hj hsame), hholds⟩

theorem stateHolds_of_reach {x : State A} (h : (machine arith).Reach (fun _ _ => True) x) :
    StateHolds arith x := by
  refine Machine.Reach.invariant (StateHolds arith) ?_ (fun x a y _ hx _ => stateHolds_step hx) h
  rintro x ⟨ccminMode, activity, varInc, hinc, rfl⟩
  have hempty := @empty_ok ℕ Aᵒᵈ _ (fun _ => OrderDual.toDual activity) id
  refine ⟨.init ⟨ccminMode, rfl⟩, hempty, hinc, fun v => ?_, List.nodup_nil,
    fun v hv => absurd hv List.not_mem_nil, fun v hv => absurd hv Bool.false_ne_true⟩
  exact iff_of_false (VarOrder.not_inHeap_of_nil hempty.places rfl v) List.not_mem_nil

/-! ### Two variables -/

def natArithmetic : Arithmetic ℕ where
  zero := 0
  add := (· + ·)
  limit := 100
  shrink := (· / 100)
  grow := (· + 1)
  le_add := fun _ => Nat.le_add_right _ _
  shrink_mono := fun _ _ => Nat.div_le_div_right
  shrink_nonneg := fun _ => Nat.zero_le _
  grow_nonneg := fun _ => Nat.zero_le _

/-- The second variable is the more active one. -/
def twoVariables : List (Action ℕ) :=
  [.newVar true 1, .newVar true 5, .addClause [(0, true), (1, true)], .solve []]

theorem twoVariables_some :
    ((machine natArithmetic).run (init 2 0 1) twoVariables).isSome := by decide +kernel

def searching : State ℕ :=
  ((machine natArithmetic).run (init 2 0 1) twoVariables).get twoVariables_some

theorem searching_reach : (machine natArithmetic).Reach (fun _ _ => True) searching :=
  Machine.Reach.of_run ⟨2, 0, 1, Nat.zero_le _, rfl⟩ (Option.some_get twoVariables_some).symm

/-! ### What the search relies on -/

/-- The search with the heap refines the search that takes the order of the
variables from outside; the heap is in order, and no call of it fails. -/
theorem heap_of_reach {x : State A} (h : (machine arith).Reach (fun _ _ => True) x) :
    MiniSatSearch.machine.Reach (fun _ _ => True) x.engine ∧
      HeapOk x.order.key x.order.heap ∧
      (∀ v, x.order.heap.inHeap v → v < x.engine.solver.nVars) ∧
      (x.engine.solver.ok = true → ∀ v, x.engine.solver.decision v = true →
        x.engine.solver.assigns v = none → x.order.heap.inHeap v) ∧
      ∀ a, (step arith x a).isSome = (MiniSatSearch.step x.engine a.call).isSome := by
  have hholds := stateHolds_of_reach h
  refine ⟨hholds.engine, hholds.heap.ok, fun v hv => hholds.heap.range v
    ((hholds.heap.keys v).mp hv), fun hok v hdecision hnone => (hholds.heap.keys v).mpr ?_,
    hholds.isSome_step⟩
  have hstate := stateOk_of_reach hholds.engine
  cases hpc : x.engine.pc with
  | idle => exact ((hstate.idle hpc).sat hok).2.1.heap v hdecision hnone
  | searching => exact (hstate.searching hpc).database.heap v hdecision hnone
  | stuck => exact absurd hpc hstate.notStuck

theorem heap_of_reach_searching :
    MiniSatSearch.machine.Reach (fun _ _ => True) searching.engine ∧
      HeapOk searching.order.key searching.order.heap ∧
      (∀ v, searching.order.heap.inHeap v → v < searching.engine.solver.nVars) ∧
      (searching.engine.solver.ok = true → ∀ v, searching.engine.solver.decision v = true →
        searching.engine.solver.assigns v = none → searching.order.heap.inHeap v) ∧
      ∀ a, (step natArithmetic searching a).isSome =
        (MiniSatSearch.step searching.engine a.call).isSome :=
  heap_of_reach searching_reach

/-- A turn that adds a level above those of the assumptions decides a variable that
is as active as any that is left, unless it is the one drawn at random. -/
theorem mostActive_of_step {x y : State A} (h : (machine arith).Reach (fun _ _ => True) x)
    {i : Input} (hstep : step arith x (.turn i) = some y)
    (hdrawn : ¬ Drawn i y.engine.solver y.order)
    (hpc : y.engine.pc = .searching)
    (hlevel : x.engine.solver.decisionLevel < y.engine.solver.decisionLevel)
    (hassumed : y.engine.solver.assumptions.length < y.engine.solver.decisionLevel) :
    MostActive y.engine.solver y.order := by
  have hholds := stateHolds_of_reach h
  unfold step at hstep
  dsimp only at hstep
  split_ifs at hstep with henabled
  obtain ⟨r, o, j, hr, ho, -, -, hout, -⟩ := hholds.turn henabled.1 henabled.2
  rw [hr, Option.bind_some, ho] at hstep
  obtain rfl := Option.some.inj hstep
  obtain ⟨out, u⟩ := r
  cases out with
  | next t =>
    obtain rfl := Option.some.inj ho
    exact hout.2 hlevel hassumed hdrawn
  | learnt t c => exact absurd hlevel (Nat.not_lt.mpr hout.2)
  | answer t status => exact Pc.noConfusion hpc
  | stuck => exact Pc.noConfusion hpc

/-- A turn that draws the first variable of the heap. -/
def draw : Action ℕ := .turn { MiniSatAnswers.plainTurn true with random := some 0 }

/-- The second variable is the most active one and has been drawn. -/
def threeVariables : List (Action ℕ) :=
  [.newVar true 1, .newVar true 5, .newVar true 3, .addClause [(0, true), (1, true), (2, true)],
    .solve [], draw]

theorem threeVariables_some :
    ((machine natArithmetic).run (init 2 0 1) threeVariables).isSome := by decide +kernel

def drawn : State ℕ :=
  ((machine natArithmetic).run (init 2 0 1) threeVariables).get threeVariables_some

theorem drawn_reach : (machine natArithmetic).Reach (fun _ _ => True) drawn :=
  Machine.Reach.of_run ⟨2, 0, 1, Nat.zero_le _, rfl⟩ (Option.some_get threeVariables_some).symm

theorem draw_some : (step natArithmetic drawn draw).isSome := by decide +kernel

/-- It is drawn again, in vain. -/
def redrawn : State ℕ := (step natArithmetic drawn draw).get draw_some

theorem mostActive_of_step_redrawn : redrawn.engine.solver.trail = [(1, true), (2, true)] ∧
    MostActive redrawn.engine.solver redrawn.order := by
  refine ⟨by decide +kernel, mostActive_of_step drawn_reach (Option.some_get draw_some).symm ?_
    (by decide +kernel) (by decide +kernel) (by decide +kernel)⟩
  rintro ⟨k, l, hk, hl, hget⟩
  obtain rfl : 0 = k := Option.some.inj hk
  have hlast : redrawn.engine.solver.trail.getLast? = some (2, true) := by decide +kernel
  obtain rfl := Option.some.inj (hlast.symm.trans hl)
  exact absurd hget (by decide +kernel)

end Painless.MiniSatDecisions
