import Painless.MiniSatHeap
import Painless.MiniSatSearch

/-!
The order in which MiniSat decides variables: the heap of the variables with the
most active one first, and the activities, which analysis raises and which are
scaled down together when one of them gets too large. The operations find the heap
in order and leave it so.
-/
namespace Painless.MiniSatOrder

open Cnf MiniSatCore MiniSatAnalyze MiniSatHeap BinaryHeap
open MiniSatSearch (Solver)

/-- The floating point numbers as far as the activities need them. -/
structure Arithmetic (A : Type*) [LinearOrder A] where
  zero : A
  add : A → A → A
  /-- 1e100 -/
  limit : A
  /-- The product with 1e-100. -/
  shrink : A → A
  /-- The product with 1 / var_decay. -/
  grow : A → A
  le_add : ∀ {a inc : A}, zero ≤ inc → a ≤ add a inc
  shrink_mono : Monotone shrink
  shrink_nonneg : ∀ {a : A}, zero ≤ a → zero ≤ shrink a
  grow_nonneg : ∀ {a : A}, zero ≤ a → zero ≤ grow a

structure VarOrder (A : Type*) where
  heap : Heap ℕ
  activity : ℕ → A
  varInc : A

variable {A : Type*} [LinearOrder A] (arith : Arithmetic A)

namespace VarOrder

/-- VarOrderLt: the more active variable is the smaller key. -/
def key (o : VarOrder A) (v : ℕ) : Aᵒᵈ := OrderDual.toDual (o.activity v)

def withHeap (o : VarOrder A) (h : Option (Heap ℕ)) : Option (VarOrder A) :=
  h.map fun h => { o with heap := h }

def insertVarOrder (decision : ℕ → Bool) (o : VarOrder A) (x : ℕ) : Option (VarOrder A) :=
  if ¬ o.heap.inHeap x ∧ decision x = true then o.withHeap (o.heap.insert o.key x) else some o

/-- What newVar does here; the first activity is given from outside. -/
def newVar (o : VarOrder A) (s : Solver) (dvar : Bool) (activity : A) : Option (VarOrder A) :=
  insertVarOrder (Function.update s.decision s.nVars dvar)
    { o with activity := Function.update o.activity s.nVars activity } s.nVars

/-- What cancelUntil does here. -/
def cancelUntil (o : VarOrder A) (s : Solver) (level : ℕ) : Option (VarOrder A) :=
  (Solver.undone s.toCore level).foldlM (fun o l => insertVarOrder s.decision o l.1) o

def rebuildOrderHeap (o : VarOrder A) (s : Solver) : Option (VarOrder A) :=
  o.withHeap (o.heap.build o.key s.rebuildOrderHeap.heap)

def rescale (o : VarOrder A) (nVars : ℕ) : VarOrder A :=
  { o with
    activity := fun v => if v < nVars then arith.shrink (o.activity v) else o.activity v
    varInc := arith.shrink o.varInc }

/-- The variable has become more active. -/
def moveUp (o : VarOrder A) (v : ℕ) : Option (VarOrder A) :=
  if o.heap.inHeap v then o.withHeap (o.heap.decrease o.key v) else some o

/-- activity[v] += var_inc -/
def raise (o : VarOrder A) (v : ℕ) : VarOrder A :=
  { o with
    activity := Function.update o.activity v (arith.add (o.activity v) o.varInc) }

def varBumpActivity (nVars : ℕ) (o : VarOrder A) (v : ℕ) : Option (VarOrder A) :=
  let r := o.raise arith v
  (if arith.limit < r.activity v then r.rescale arith nVars else r).moveUp v

def varDecayActivity (o : VarOrder A) : VarOrder A := { o with varInc := arith.grow o.varInc }

/-- The loop of removeMin in pickBranchLit. -/
def popUntil (key : ℕ → Aᵒᵈ) (free : ℕ → Bool) : ℕ → Heap ℕ → Option (Option ℕ × Heap ℕ)
  | 0, _ => none
  | fuel + 1, h =>
    if h.heap = [] then some (none, h)
    else
      (h.removeMin key).bind fun r =>
        if free r.1 then some (some r.1, r.2) else popUntil key free fuel r.2

def pickBranchVar (o : VarOrder A) (s : Solver) (random : Option ℕ) :
    Option (Option ℕ × VarOrder A) :=
  let free (v : ℕ) : Bool := (s.assigns v).isNone && s.decision v
  match (random.bind fun k => o.heap.heap[k]?).filter free with
  | some v => some (some v, o)
  | none =>
    (popUntil o.key free (o.heap.heap.length + 1) o.heap).map fun r =>
      (r.1, { o with heap := r.2 })

end VarOrder

/-! ### The variables that analysis bumps -/

def visitBumps (s : Core) : Resolution → Clause ℕ → List ℕ
  | _, [] => []
  | a, q :: rest =>
    if a.seen q.1 = .undef ∧ 0 < s.level q.1 then q.1 :: visitBumps s (visitLit s a q) rest
    else visitBumps s (visitLit s a q) rest

def resolveBumps (s : Core) : List (Literal ℕ) → Resolution → List ℕ
  | [], _ => []
  | p :: earlier, a =>
    if a.seen p.1 = .undef then resolveBumps s earlier a
    else if (a.take p).pathC = 0 then []
    else
      match s.reason p.1 with
      | none => []
      | some confl =>
        visitBumps s (a.take p) (s.ca confl).tail ++
          resolveBumps s earlier ((s.ca confl).tail.foldl (visitLit s) (a.take p))

/-- The calls of varBumpActivity, in their order. -/
def analyzeBumps (s : Core) (seen : ℕ → Seen) (confl : ℕ) : List ℕ :=
  visitBumps s ⟨seen, 0, []⟩ (s.ca confl).lits ++
    resolveBumps s s.trail.reverse ((s.ca confl).lits.foldl (visitLit s) ⟨seen, 0, []⟩)

def VarOrder.bumpAll (nVars : ℕ) (o : VarOrder A) (vs : List ℕ) : Option (VarOrder A) :=
  vs.foldlM (VarOrder.varBumpActivity arith nVars) o

/-! ### The operations keep the order -/

/-- A fold of calls that succeed. -/
theorem foldlM_some {B C : Type*} {f : B → C → Option B} {P : List C → B → Prop} {cs : List C}
    {b : B} (hnil : P [] b)
    (hstep : ∀ done c b, P done b → c ∈ cs → ∃ b', f b c = some b' ∧ P (done ++ [c]) b') :
    ∃ b', cs.foldlM f b = some b' ∧ P cs b' := by
  have hfrom (done rest : List C) (b : B) (hrest : ∀ c ∈ rest, c ∈ cs) (hP : P done b) :
      ∃ b', rest.foldlM f b = some b' ∧ P (done ++ rest) b' := by
    induction rest generalizing done b with
    | nil => exact ⟨b, rfl, by rwa [List.append_nil]⟩
    | cons c rest ih =>
      obtain ⟨hc, hrest⟩ := List.forall_mem_cons.mp hrest
      obtain ⟨u, hu, hPu⟩ := hstep done c b hP hc
      obtain ⟨b', hb', hPb'⟩ := ih (done ++ [c]) u hrest hPu
      refine ⟨b', ?_, by rwa [List.append_cons]⟩
      rw [List.foldlM_cons, hu]
      exact hb'
  exact hfrom [] cs b (fun c hc => hc) hnil

namespace VarOrder

variable {o : VarOrder A}

def Ok (o : VarOrder A) : Prop := HeapOk o.key o.heap

theorem insertVarOrder_spec (hok : o.Ok) (decision : ℕ → Bool) (x : ℕ) :
    ∃ t, insertVarOrder decision o x = some t ∧ t.Ok ∧ t.varInc = o.varInc ∧
      (∀ v, t.heap.inHeap v ↔ o.heap.inHeap v ∨ (v = x ∧ decision x = true)) ∧
      (decision x = true → t.heap.has x) ∧ ∀ v, o.heap.has v → t.heap.has v := by
  unfold insertVarOrder
  split_ifs with hx
  · obtain ⟨h, hinsert, hh, hkeys, hreserved, hkept⟩ := insert_ok hok hx.1
    refine ⟨{ o with heap := h }, ?_, hh, rfl, fun v => ?_, fun _ => hreserved, hkept⟩
    · unfold withHeap
      rw [hinsert, Option.map_some]
    · rw [and_iff_left hx.2]
      exact hkeys v
  · have hin (hdecision : decision x = true) : o.heap.inHeap x := by
      by_contra hv
      exact hx ⟨hv, hdecision⟩
    refine ⟨o, rfl, hok, rfl, fun v => (or_iff_left_of_imp ?_).symm, fun hdecision => ?_,
      fun _ => id⟩
    · rintro ⟨rfl, hdecision⟩
      exact hin hdecision
    · obtain ⟨i, hi, -⟩ := hok.places.index (hin hdecision)
      exact Heap.has_of_entry hi

theorem cancelUntil_spec (hok : o.Ok) (s : Solver) (level : ℕ) :
    ∃ t, o.cancelUntil s level = some t ∧ t.Ok ∧ t.varInc = o.varInc ∧
      (∀ v, t.heap.inHeap v ↔ o.heap.inHeap v ∨
        (v ∈ (Solver.undone s.toCore level).map Prod.fst ∧ s.decision v = true)) ∧
      ∀ v, o.heap.has v → t.heap.has v := by
  refine @foldlM_some _ _ _ (fun done (t : VarOrder A) => t.Ok ∧ t.varInc = o.varInc ∧
    (∀ v, t.heap.inHeap v ↔ o.heap.inHeap v ∨
      (v ∈ done.map Prod.fst ∧ s.decision v = true)) ∧
    ∀ v, o.heap.has v → t.heap.has v) _ _
    ⟨hok, rfl, fun v => by simp, fun _ => id⟩ fun done l b hb _ => ?_
  obtain ⟨hbok, hinc, hkeys, hkept⟩ := hb
  obtain ⟨t, ht, htok, htinc, htkeys, -, htkept⟩ := insertVarOrder_spec hbok s.decision l.1
  refine ⟨t, ht, htok, htinc.trans hinc, fun v => ?_, fun v hv => htkept v (hkept v hv)⟩
  rw [htkeys v, hkeys v, List.map_append, List.mem_append, List.map_singleton,
    List.mem_singleton]
  by_cases hv : v = l.1
  · subst hv
    tauto
  · tauto

theorem rebuildOrderHeap_spec (hok : o.Ok) (s : Solver)
    (hhas : ∀ v ∈ s.rebuildOrderHeap.heap, o.heap.has v) :
    ∃ t, o.rebuildOrderHeap s = some t ∧ t.Ok ∧ t.varInc = o.varInc ∧
      (∀ v, t.heap.inHeap v ↔ v ∈ s.rebuildOrderHeap.heap) ∧
      ∀ v, o.heap.has v → t.heap.has v := by
  have hnodup : s.rebuildOrderHeap.heap.Nodup := List.nodup_range.filter _
  obtain ⟨h, hbuild, hh, hkeys, hkept⟩ :=
    @build_ok ℕ Aᵒᵈ _ _ o.key o.heap _ hok.places hnodup hhas
  refine ⟨{ o with heap := h }, ?_, hh, rfl, hkeys, hkept⟩
  unfold rebuildOrderHeap withHeap
  rw [hbuild, Option.map_some]

/-- Scaling leaves the order as it is. -/
theorem ok_of_le {key' : ℕ → Aᵒᵈ} {h : Heap ℕ} (hok : HeapOk o.key h)
    (hle : ∀ v w, h.inHeap v → h.inHeap w → o.key v ≤ o.key w → key' v ≤ key' w) :
    HeapOk key' h := by
  refine ⟨hok.places, fun j hj _ y z hy hz => hle y z ?_ ?_ (hok.ordered j hj trivial y z hy hz)⟩
  · exact hok.places.inHeap_iff.mpr (List.mem_of_getElem? hy)
  · exact hok.places.inHeap_iff.mpr (List.mem_of_getElem? hz)

theorem ok_rescale {nVars : ℕ} (hok : o.Ok) (hrange : ∀ v, o.heap.inHeap v → v < nVars) :
    (o.rescale arith nVars).Ok := by
  refine ok_of_le hok fun v w hv hw hle => OrderDual.toDual_le_toDual.mpr ?_
  have hle' : o.activity w ≤ o.activity v := OrderDual.toDual_le_toDual.mp hle
  show (if w < nVars then _ else _) ≤ (if v < nVars then _ else _)
  rw [if_pos (hrange v hv), if_pos (hrange w hw)]
  exact arith.shrink_mono hle'

theorem moveUp_spec (o t : VarOrder A) {v : ℕ} (hok : HeapOk o.key t.heap)
    (honly : OnlyAt o.key t.key v) (hle : t.key v ≤ o.key v) :
    ∃ r, t.moveUp v = some r ∧ r.Ok ∧ r.varInc = t.varInc ∧ SameKeys t.heap r.heap := by
  unfold moveUp
  split_ifs with hin
  · obtain ⟨h, hdecrease, hh, hkeys⟩ := decrease_ok hok hin honly hle
    refine ⟨{ t with heap := h }, ?_, hh, rfl, hkeys⟩
    unfold withHeap
    rw [hdecrease, Option.map_some]
  · refine ⟨t, rfl, ok_of_le hok fun x y hx hy hxy => ?_, rfl, SameKeys.refl _⟩
    have hne {z : ℕ} (hz : t.heap.inHeap z) : z ≠ v := fun heq => hin (heq ▸ hz)
    rw [honly x (hne hx), honly y (hne hy)]
    exact hxy

theorem raise_of_ne {v w : ℕ} (hw : w ≠ v) :
    (o.raise arith v).activity w = o.activity w := Function.update_of_ne hw _ _

theorem le_raise (hinc : arith.zero ≤ o.varInc) (v : ℕ) :
    o.activity v ≤ (o.raise arith v).activity v := by
  have hself : (o.raise arith v).activity v = arith.add (o.activity v) o.varInc :=
    Function.update_self _ _ _
  rw [hself]
  exact arith.le_add hinc

/-- The activities of the others are scaled at most, and that of `v` is raised
before. -/
theorem varBumpActivity_spec {nVars : ℕ} (hok : o.Ok) (hinc : arith.zero ≤ o.varInc)
    (hrange : ∀ v, o.heap.inHeap v → v < nVars) (v : ℕ) :
    ∃ t, varBumpActivity arith nVars o v = some t ∧ t.Ok ∧ arith.zero ≤ t.varInc ∧
      SameKeys o.heap t.heap := by
  have hle := le_raise arith hinc v
  unfold varBumpActivity
  dsimp only
  split_ifs with hlarge
  · have honly : OnlyAt (o.rescale arith nVars).key
        ((o.raise arith v).rescale arith nVars).key v := by
      intro w hw
      show OrderDual.toDual (if w < nVars then arith.shrink ((o.raise arith v).activity w) else
        (o.raise arith v).activity w) = OrderDual.toDual (if _ then _ else _)
      rw [raise_of_ne arith hw]
    have hraised : (o.rescale arith nVars).activity v ≤
        ((o.raise arith v).rescale arith nVars).activity v := by
      show (if v < nVars then _ else _) ≤ (if v < nVars then _ else _)
      split_ifs
      · exact arith.shrink_mono hle
      · exact hle
    obtain ⟨t, ht, htok, htinc, hkeys⟩ := moveUp_spec (o.rescale arith nVars)
      (rescale arith (o.raise arith v) nVars) (ok_rescale arith hok hrange) honly
      (OrderDual.toDual_le_toDual.mpr hraised)
    exact ⟨t, ht, htok, htinc ▸ arith.shrink_nonneg hinc, hkeys⟩
  · have honly : OnlyAt o.key (o.raise arith v).key v := fun w hw =>
      congrArg OrderDual.toDual (raise_of_ne arith hw)
    obtain ⟨t, ht, htok, htinc, hkeys⟩ :=
      moveUp_spec o (o.raise arith v) hok honly (OrderDual.toDual_le_toDual.mpr hle)
    exact ⟨t, ht, htok, htinc ▸ hinc, hkeys⟩

theorem bumpAll_spec {nVars : ℕ} (hok : o.Ok) (hinc : arith.zero ≤ o.varInc)
    (hrange : ∀ v, o.heap.inHeap v → v < nVars) (vs : List ℕ) :
    ∃ t, bumpAll arith nVars o vs = some t ∧ t.Ok ∧ arith.zero ≤ t.varInc ∧
      SameKeys o.heap t.heap := by
  refine @foldlM_some _ _ _ (fun _ (t : VarOrder A) => t.Ok ∧ arith.zero ≤ t.varInc ∧
    SameKeys o.heap t.heap) _ _ ⟨hok, hinc, SameKeys.refl _⟩ fun _ v b hb _ => ?_
  obtain ⟨hbok, hbinc, hkeys⟩ := hb
  obtain ⟨t, ht, htok, htinc, htkeys⟩ := varBumpActivity_spec arith hbok hbinc
    (fun w hw => hrange w ((hkeys.inHeap w).mp hw)) v
  exact ⟨t, ht, htok, htinc, hkeys.trans htkeys⟩

/-! ### The next variable -/

/-- What the loop of removeMin leaves, where `free` says which variables are free. -/
structure Popped (key : ℕ → Aᵒᵈ) (free : ℕ → Bool) (h : Heap ℕ) (r : Option ℕ × Heap ℕ) :
    Prop where
  ok : HeapOk key r.2
  sub : ∀ v, r.2.inHeap v → h.inHeap v
  kept : ∀ v, h.has v → r.2.has v
  stays : ∀ v, h.inHeap v → free v = true → r.1 = some v ∨ r.2.inHeap v
  found : ∀ v, r.1 = some v → h.inHeap v ∧ free v = true ∧ ¬ r.2.inHeap v ∧
    ∀ w, h.inHeap w → free w = true → key v ≤ key w
  empty : r.1 = none → ∀ v, ¬ r.2.inHeap v

omit [LinearOrder A] in
theorem not_inHeap_of_nil {h : Heap ℕ} (hplaces : Places h) (hnil : h.heap = []) (v : ℕ) :
    ¬ h.inHeap v := by
  rw [hplaces.inHeap_iff, hnil]
  exact List.not_mem_nil

theorem popUntil_spec {key : ℕ → Aᵒᵈ} (free : ℕ → Bool) {fuel : ℕ} {h : Heap ℕ}
    (hok : HeapOk key h) (hfuel : h.heap.length < fuel) :
    ∃ r, popUntil key free fuel h = some r ∧ Popped key free h r := by
  induction fuel generalizing h with
  | zero => omega
  | succ fuel ih =>
    unfold popUntil
    split_ifs with hnil
    · have hempty := not_inHeap_of_nil hok.places hnil
      exact ⟨_, rfl, hok, fun _ hv => hv, fun _ => id, fun v hv _ => Or.inr hv,
        fun v hv => absurd hv.symm (Option.some_ne_none v), fun _ => hempty⟩
    obtain ⟨x, t, hremove, hx, hleast, ht, hkeys, hkept⟩ := removeMin_ok hok hnil
    rw [hremove, Option.bind_some]
    dsimp only
    split_ifs with hfree
    · refine ⟨_, rfl, ht, fun v hv => ((hkeys v).mp hv).1, hkept, fun v hv _ => ?_, fun v hv => ?_,
        fun hnone => absurd hnone (Option.some_ne_none x)⟩
      · by_cases heq : v = x
        · exact Or.inl (congrArg some heq.symm)
        · exact Or.inr ((hkeys v).mpr ⟨hv, heq⟩)
      · obtain rfl := Option.some.inj hv
        exact ⟨hx, hfree, fun hin => ((hkeys x).mp hin).2 rfl, fun w hw _ => hleast w hw⟩
    · have hlength : t.heap.length < fuel := by
        have hsubset : (x :: t.heap).Subperm h.heap := by
          refine List.Nodup.subperm (List.nodup_cons.mpr ⟨?_, ht.places.nodup⟩)
            (List.cons_subset.mpr ⟨hok.places.inHeap_iff.mp hx, fun v hv => ?_⟩)
          · exact fun hin => ((hkeys x).mp (ht.places.inHeap_iff.mpr hin)).2 rfl
          · exact hok.places.inHeap_iff.mp ((hkeys v).mp (ht.places.inHeap_iff.mpr hv)).1
        have hle := hsubset.length_le
        rw [List.length_cons] at hle
        omega
      have hne {w : ℕ} (hw : free w = true) : w ≠ x := fun heq => hfree (heq ▸ hw)
      obtain ⟨r, hr, hpopped⟩ := ih ht hlength
      refine ⟨r, hr, hpopped.ok, fun v hv => ((hkeys v).mp (hpopped.sub v hv)).1,
        fun v hv => hpopped.kept v (hkept v hv), fun v hv hv' => ?_, fun v hv => ?_,
        hpopped.empty⟩
      · exact hpopped.stays v ((hkeys v).mpr ⟨hv, hne hv'⟩) hv'
      obtain ⟨hin, hv', hout, hmin⟩ := hpopped.found v hv
      refine ⟨((hkeys v).mp hin).1, hv', hout, fun w hw hw' => ?_⟩
      exact hmin w ((hkeys w).mpr ⟨hw, hne hw'⟩) hw'

end VarOrder

end Painless.MiniSatOrder
