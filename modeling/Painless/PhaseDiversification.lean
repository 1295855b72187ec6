import Mathlib.Data.List.Nodup
import Mathlib.Data.List.Range
import Mathlib.Data.Nat.Size
import Mathlib.Tactic.Ring

/-!
The diversification of the initial phases in SolverFactory. The sparse variants
give each solver of each rank the variables of one residue, so that no variable
is set twice in the whole cluster. The binary variant spells the number of a
solver over the variables, but its loop stops before the last variable.
-/
namespace Painless.PhaseDiversification

/-- A call of setPhase on `solvers[sid]`. -/
structure SetPhase where
  sid : ℕ
  var : ℕ
  phase : Bool
  deriving DecidableEq

/-! ### Sparse diversification -/

/-- The values of `var` in the loop that starts at `var` and goes on while
`var + totalSize < vars` in steps of `totalSize`. -/
def stride (totalSize vars var : ℕ) : List ℕ :=
  if 0 < totalSize ∧ var + totalSize < vars then
    var :: stride totalSize vars (var + totalSize)
  else []
termination_by vars - var

/-- The calls of one rank, in order. `n` is the number of its solvers. -/
def sparseDiversification (n vars mpiRank mpiSize : ℕ) : List SetPhase :=
  (List.range n).flatMap fun sid =>
    let shift := mpiRank * n + sid
    (stride (mpiSize * n) vars 1).map fun var => ⟨sid, var + shift, true⟩

/-- The loop over the variables; `rand` are the numbers from `i` on that rand
returns after srand. -/
def sparseRandomLoop (n sid shift : ℕ) (rand : ℕ → ℕ) : ℕ → List ℕ → List SetPhase
  | _, [] => []
  | i, var :: rest =>
    if rand i % n = 0 then
      ⟨sid, var + shift, decide (rand (i + 1) % 2 = 1)⟩ ::
        sparseRandomLoop n sid shift rand (i + 2) rest
    else sparseRandomLoop n sid shift rand (i + 1) rest

/-- srand is called for each solver, so each has its own numbers. -/
def sparseRandomDiversification (rand : ℕ → ℕ → ℕ) (n vars mpiRank mpiSize : ℕ) :
    List SetPhase :=
  (List.range n).flatMap fun sid =>
    sparseRandomLoop n sid (mpiRank * n + sid) (rand sid) 0 (stride (mpiSize * n) vars 1)

/-- The variables set by all ranks. -/
def clusterVars (calls : ℕ → List SetPhase) (mpiSize : ℕ) : List ℕ :=
  (List.range mpiSize).flatMap fun rank => (calls rank).map SetPhase.var

def sparseVars (n vars mpiSize : ℕ) : List ℕ :=
  clusterVars (fun rank => sparseDiversification n vars rank mpiSize) mpiSize

/-- `rand` are the numbers of each solver of each rank. -/
def sparseRandomVars (rand : ℕ → ℕ → ℕ → ℕ) (n vars mpiSize : ℕ) : List ℕ :=
  clusterVars (fun rank => sparseRandomDiversification (rand rank) n vars rank mpiSize) mpiSize

theorem stride_eq (totalSize vars var : ℕ) :
    stride totalSize vars var =
      (List.range (stride totalSize vars var).length).map fun k => var + k * totalSize := by
  induction var using stride.induct totalSize vars with
  | case1 var h ih =>
    rw [stride, if_pos h, List.length_cons, List.range_succ_eq_map, List.map_cons, List.map_map]
    rw [Nat.zero_mul, Nat.add_zero]
    congr 1
    conv_lhs => rw [ih]
    apply List.map_congr_left
    intro k _
    show var + totalSize + k * totalSize = var + (k + 1) * totalSize
    ring
  | case2 var h => rw [stride, if_neg h, List.length_nil, List.range_zero, List.map_nil]

/-- The number of rounds: those k with `var + k * totalSize + totalSize < vars`. -/
theorem length_stride (totalSize vars var : ℕ) :
    (stride totalSize vars var).length = (vars - 1 - var) / totalSize := by
  induction var using stride.induct totalSize vars with
  | case1 var h ih =>
    have hsub : vars - 1 - (var + totalSize) = vars - 1 - var - totalSize := by omega
    rw [stride, if_pos h, List.length_cons, ih, hsub]
    exact (Nat.div_eq_sub_div h.1 (by omega)).symm
  | case2 var h =>
    rw [stride, if_neg h, List.length_nil]
    rcases Nat.eq_zero_or_pos totalSize with rfl | hpos
    · exact (Nat.div_zero _).symm
    · exact (Nat.div_eq_of_lt (by omega)).symm

theorem lt_of_mem_stride {totalSize vars var v : ℕ} (h : v ∈ stride totalSize vars var) :
    var ≤ v ∧ v + totalSize < vars := by
  induction var using stride.induct totalSize vars with
  | case1 var hstep ih =>
    rw [stride, if_pos hstep] at h
    rcases List.mem_cons.mp h with rfl | hrest
    · exact ⟨Nat.le_refl _, hstep.2⟩
    · have hbounds := ih hrest
      omega
  | case2 var hstop =>
    rw [stride, if_neg hstop] at h
    exact absurd h (by simp)

/-- The variables of a solver: one residue modulo the number of all solvers. -/
def residueVars (n vars mpiSize mpiRank sid : ℕ) : List ℕ :=
  (stride (mpiSize * n) vars 1).map fun var => var + (mpiRank * n + sid)

theorem vars_sparseDiversification (n vars mpiRank mpiSize : ℕ) :
    (sparseDiversification n vars mpiRank mpiSize).map SetPhase.var =
      (List.range n).flatMap (residueVars n vars mpiSize mpiRank) := by
  unfold sparseDiversification
  rw [List.map_flatMap]
  congr 1
  funext sid
  dsimp only
  rw [List.map_map]
  rfl

/-- The random variant skips some of the variables. -/
theorem vars_sparseRandomLoop (n sid shift : ℕ) (rand : ℕ → ℕ) (i : ℕ) (vs : List ℕ) :
    ((sparseRandomLoop n sid shift rand i vs).map SetPhase.var).Sublist
      (vs.map fun var => var + shift) := by
  induction vs generalizing i with
  | nil => exact List.Sublist.refl _
  | cons v rest ih =>
    rw [sparseRandomLoop]
    split_ifs
    · exact (ih (i + 2)).cons_cons _
    · exact (ih (i + 1)).cons _

section Residues
variable {n size : ℕ}

theorem shift_lt {rank sid : ℕ} (hrank : rank < size) (hsid : sid < n) :
    rank * n + sid < size * n := by
  calc rank * n + sid < rank * n + n := by omega
    _ = (rank + 1) * n := by ring
    _ ≤ size * n := Nat.mul_le_mul_right n hrank

theorem mem_residueVars {vars rank sid v : ℕ} :
    v ∈ residueVars n vars size rank sid ↔
      ∃ k, k < (stride (size * n) vars 1).length ∧ v = 1 + k * (size * n) + (rank * n + sid) := by
  unfold residueVars
  rw [stride_eq]
  simp only [List.map_map, List.mem_map, List.mem_range, Function.comp_apply, List.length_map,
    List.length_range]
  exact exists_congr fun k => and_congr_right fun _ => eq_comm

/-- A variable tells the rank, the solver and the round in which it is set. -/
theorem residue_inj {rank rank' sid sid' k k' : ℕ} (hrank : rank < size) (hrank' : rank' < size)
    (hsid : sid < n) (hsid' : sid' < n)
    (h : 1 + k * (size * n) + (rank * n + sid) = 1 + k' * (size * n) + (rank' * n + sid')) :
    rank = rank' ∧ sid = sid' ∧ k = k' := by
  have hsum : rank * n + sid + size * n * k = rank' * n + sid' + size * n * k' := by
    rw [Nat.mul_comm (size * n) k, Nat.mul_comm (size * n) k']
    omega
  have hshift : rank * n + sid = rank' * n + sid' := by
    have hmod := congrArg (· % (size * n)) hsum
    simpa only [Nat.add_mul_mod_self_left, Nat.mod_eq_of_lt (shift_lt hrank hsid),
      Nat.mod_eq_of_lt (shift_lt hrank' hsid')] using hmod
  have hround : k = k' := by
    have hpos : 0 < size * n := Nat.mul_pos (by omega) (by omega)
    exact Nat.eq_of_mul_eq_mul_left hpos (by omega)
  have hsolver : sid = sid' := by
    have hmod := congrArg (· % n) hshift
    simpa only [Nat.mul_add_mod_self_right, Nat.mod_eq_of_lt hsid, Nat.mod_eq_of_lt hsid']
      using hmod
  have hnode : rank = rank' := by
    rw [hsolver] at hshift
    exact Nat.eq_of_mul_eq_mul_right (by omega) (Nat.add_right_cancel hshift)
  exact ⟨hnode, hsolver, hround⟩

theorem nodup_residueVars {vars rank sid : ℕ} (hrank : rank < size) (hsid : sid < n) :
    (residueVars n vars size rank sid).Nodup := by
  unfold residueVars
  rw [stride_eq, List.map_map]
  refine List.Nodup.map_on (fun k _ k' _ h => ?_) List.nodup_range
  exact (residue_inj hrank hrank hsid hsid h).2.2

/-- The variables of all solvers of all ranks are distinct. -/
theorem nodup_clusterResidues (vars : ℕ) :
    ((List.range size).flatMap fun rank =>
      (List.range n).flatMap (residueVars n vars size rank)).Nodup := by
  rw [List.nodup_flatMap]
  constructor
  · intro rank hrank
    rw [List.mem_range] at hrank
    rw [List.nodup_flatMap]
    refine ⟨fun sid hsid => nodup_residueVars hrank (List.mem_range.mp hsid), ?_⟩
    refine List.nodup_range.pairwise_of_forall_ne fun sid hsid sid' hsid' hne v hv hv' => hne ?_
    obtain ⟨k, -, rfl⟩ := mem_residueVars.mp hv
    obtain ⟨k', -, heq⟩ := mem_residueVars.mp hv'
    exact (residue_inj hrank hrank (List.mem_range.mp hsid) (List.mem_range.mp hsid') heq).2.1
  · refine List.nodup_range.pairwise_of_forall_ne fun rank hrank rank' hrank' hne v hv hv' =>
      hne ?_
    obtain ⟨sid, hsid, hmem⟩ := List.mem_flatMap.mp hv
    obtain ⟨sid', hsid', hmem'⟩ := List.mem_flatMap.mp hv'
    obtain ⟨k, -, rfl⟩ := mem_residueVars.mp hmem
    obtain ⟨k', -, heq⟩ := mem_residueVars.mp hmem'
    rw [List.mem_range] at hrank hrank' hsid hsid'
    exact (residue_inj hrank hrank' hsid hsid' heq).1

/-- The residues of all solvers fill the variables up to the last round. -/
theorem mem_clusterResidues {vars : ℕ} (hn : 0 < n) (v : ℕ) :
    v ∈ ((List.range size).flatMap fun rank =>
        (List.range n).flatMap (residueVars n vars size rank)) ↔
      1 ≤ v ∧ v ≤ (stride (size * n) vars 1).length * (size * n) := by
  simp only [List.mem_flatMap, List.mem_range, mem_residueVars]
  constructor
  · rintro ⟨rank, hrank, sid, hsid, k, hk, rfl⟩
    have hshift := shift_lt hrank hsid
    have hround : (k + 1) * (size * n) ≤ (stride (size * n) vars 1).length * (size * n) :=
      Nat.mul_le_mul_right _ hk
    rw [add_mul, one_mul] at hround
    omega
  · rintro ⟨hlower, hupper⟩
    have hpos : 0 < size * n := by
      by_contra hzero
      rw [Nat.eq_zero_of_not_pos hzero, Nat.mul_zero] at hupper
      omega
    have hdiv := Nat.div_add_mod (v - 1) (size * n)
    have hmod := Nat.mod_lt (v - 1) hpos
    refine ⟨(v - 1) % (size * n) / n, ?_, (v - 1) % (size * n) % n, Nat.mod_lt _ hn,
      (v - 1) / (size * n), ?_, ?_⟩
    · exact Nat.div_lt_of_lt_mul (by rw [Nat.mul_comm n size]; exact hmod)
    · exact Nat.div_lt_of_lt_mul (by rw [Nat.mul_comm]; omega)
    · have hshift := Nat.div_add_mod ((v - 1) % (size * n)) n
      rw [Nat.mul_comm (size * n)] at hdiv
      rw [Nat.mul_comm n] at hshift
      omega

theorem residueVars_le {vars rank sid v : ℕ} (hrank : rank < size) (hsid : sid < n)
    (h : v ∈ residueVars n vars size rank sid) : 1 ≤ v ∧ v ≤ vars := by
  obtain ⟨var, hvar, rfl⟩ := List.mem_map.mp h
  have hbounds := lt_of_mem_stride hvar
  have hshift := shift_lt hrank hsid
  omega

end Residues

theorem sparseVars_eq (n vars mpiSize : ℕ) :
    sparseVars n vars mpiSize =
      (List.range mpiSize).flatMap fun rank =>
        (List.range n).flatMap (residueVars n vars mpiSize rank) := by
  unfold sparseVars clusterVars
  simp only [vars_sparseDiversification]

theorem flatMap_sublist {A B : Type*} {l : List A} {f g : A → List B}
    (h : ∀ a ∈ l, (f a).Sublist (g a)) : (l.flatMap f).Sublist (l.flatMap g) := by
  induction l with
  | nil => exact List.Sublist.refl _
  | cons a rest ih =>
    rw [List.flatMap_cons, List.flatMap_cons]
    exact (h a List.mem_cons_self).append (ih fun b hb => h b (List.mem_cons_of_mem a hb))

/-- Whatever rand returns, the random variant sets some of the same variables. -/
theorem sparseRandomVars_sublist (rand : ℕ → ℕ → ℕ → ℕ) (n vars mpiSize : ℕ) :
    (sparseRandomVars rand n vars mpiSize).Sublist
      ((List.range mpiSize).flatMap fun rank =>
        (List.range n).flatMap (residueVars n vars mpiSize rank)) := by
  refine flatMap_sublist fun rank _ => ?_
  unfold sparseRandomDiversification
  rw [List.map_flatMap]
  exact flatMap_sublist fun sid _ => vars_sparseRandomLoop n sid _ _ 0 _

/-- Over the whole cluster every variable is set at most once, and lies in the
range; the sparse variant sets an initial segment, all solvers in each round. -/
theorem sparse_vars (mpiSize n vars : ℕ) (hn : 0 < n) (rand : ℕ → ℕ → ℕ → ℕ) :
    (∀ v, v ∈ sparseVars n vars mpiSize ∨ v ∈ sparseRandomVars rand n vars mpiSize →
      1 ≤ v ∧ v ≤ vars) ∧
    (sparseVars n vars mpiSize).Nodup ∧ (sparseRandomVars rand n vars mpiSize).Nodup ∧
    (∀ v, v ∈ sparseVars n vars mpiSize ↔
      1 ≤ v ∧ v ≤ (stride (mpiSize * n) vars 1).length * (mpiSize * n)) ∧
    (stride (mpiSize * n) vars 1).length = (vars - 2) / (mpiSize * n) := by
  have hsub := sparseRandomVars_sublist rand n vars mpiSize
  rw [sparseVars_eq]
  refine ⟨fun v hv => ?_, nodup_clusterResidues vars, (nodup_clusterResidues vars).sublist hsub,
    mem_clusterResidues hn, length_stride _ _ _⟩
  have hmem := hv.elim id fun h => hsub.subset h
  obtain ⟨rank, hrank, hsolvers⟩ := List.mem_flatMap.mp hmem
  obtain ⟨sid, hsid, hresidue⟩ := List.mem_flatMap.mp hsolvers
  exact residueVars_le (List.mem_range.mp hrank) (List.mem_range.mp hsid) hresidue

/-- Two rounds of four solvers. -/
theorem sparse_vars_two_ranks : (sparseVars 2 10 2).Nodup ∧ ∀ v, v ∈ sparseVars 2 10 2 ↔
    1 ≤ v ∧ v ≤ 8 := by
  obtain ⟨-, hnodup, -, hsegment, hrounds⟩ := sparse_vars 2 2 10 (by omega) fun _ _ i => i
  rw [hrounds] at hsegment
  exact ⟨hnodup, hsegment⟩

/-! ### The binary variant -/

/-- The loop that counts the bits of `tmp` into `log`. -/
def countBits (tmp log : ℕ) : ℕ :=
  if 0 < tmp then countBits (tmp >>> 1) (log + 1) else log
termination_by tmp
decreasing_by
  rw [Nat.shiftRight_one]
  omega

/-- `n` is the number of solvers, `vars` the number of variables. -/
def binValueDiversification (n vars : ℕ) : List SetPhase :=
  let log := countBits n 0
  (List.range n).flatMap fun sid =>
    (List.range' 1 (vars - 1)).map fun var =>
      ⟨sid, var, decide ((sid >>> (var % log)) &&& 1 = 1)⟩

/-- The loop of randomDiversification takes in the last variable. `rand` are the
numbers that rand returns, in the order of the calls. -/
def randomDiversification (rand : ℕ → ℕ) (n vars : ℕ) : List SetPhase :=
  (List.range n).flatMap fun sid =>
    (List.range' 1 vars).map fun var =>
      ⟨sid, var, decide (rand (sid * vars + (var - 1)) % 2 = 1)⟩

/-- The phases of a solver, variable by variable. -/
def phases (calls : List SetPhase) (sid : ℕ) : List (ℕ × Bool) :=
  (calls.filter fun call => call.sid = sid).map fun call => (call.var, call.phase)

/-- Every variable of every solver has a phase, and no two solvers have the
same phases. -/
def Separates (n vars : ℕ) (calls : List SetPhase) : Prop :=
  (∀ sid < n, ∀ var, 1 ≤ var → var ≤ vars → var ∈ (phases calls sid).map Prod.fst) ∧
    ∀ sid < n, ∀ sid' < n, sid ≠ sid' → phases calls sid ≠ phases calls sid'

theorem countBits_eq (tmp log : ℕ) : countBits tmp log = log + Nat.size tmp := by
  induction tmp, log using countBits.induct with
  | case1 tmp log hpos ih =>
    have hsize : Nat.size tmp = Nat.size (tmp / 2) + 1 := by
      conv_lhs => rw [← Nat.bit_bodd_div2 tmp]
      rw [Nat.size_bit (by rw [Nat.bit_bodd_div2]; omega), Nat.div2_val]
    rw [countBits, if_pos hpos, ih, Nat.shiftRight_one, hsize]
    omega
  | case2 tmp log hzero =>
    rw [countBits, if_neg hzero, Nat.eq_zero_of_not_pos hzero, Nat.size_zero, Nat.add_zero]

theorem flatMap_range_ite {B : Type*} (n i : ℕ) (l : List B) :
    ((List.range n).flatMap fun j => if j = i then l else []) = if i < n then l else [] := by
  induction n with
  | zero => simp
  | succ n ih =>
    rw [List.range_succ, List.flatMap_append, ih, List.flatMap_singleton]
    by_cases hi : i = n
    · simp [hi]
    · have hlt : i < n + 1 ↔ i < n := by omega
      simp only [hlt, Ne.symm hi, if_false, List.append_nil]

/-- The calls for one solver, where every solver gets the same variables. -/
theorem phases_flatMap (n : ℕ) (vs : List ℕ) (phase : ℕ → ℕ → Bool) {sid : ℕ} (hsid : sid < n) :
    phases ((List.range n).flatMap fun sid => vs.map fun var => ⟨sid, var, phase sid var⟩) sid =
      vs.map fun var => (var, phase sid var) := by
  have hone (sid' : ℕ) : phases (vs.map fun var => ⟨sid', var, phase sid' var⟩) sid =
      if sid' = sid then vs.map fun var => (var, phase sid var) else [] := by
    unfold phases
    rw [List.filter_map, List.map_map]
    by_cases h : sid' = sid
    · subst h
      simp [Function.comp_def]
    · simp [Function.comp_def, h]
  have hall := flatMap_range_ite n sid (vs.map fun var => (var, phase sid var))
  rw [if_pos hsid] at hall
  rw [← hall]
  simp only [← hone]
  unfold phases
  rw [List.filter_flatMap, List.map_flatMap]

theorem bit_eq_testBit (sid bit : ℕ) :
    decide ((sid >>> bit) &&& 1 = 1) = sid.testBit bit := by
  rw [Nat.and_one_is_mod, Nat.shiftRight_eq_div_pow, Nat.testBit_eq_decide_div_mod_eq]

theorem phases_binValue {n vars sid : ℕ} (hsid : sid < n) :
    phases (binValueDiversification n vars) sid =
      (List.range' 1 (vars - 1)).map fun var => (var, sid.testBit (var % Nat.size n)) := by
  unfold binValueDiversification
  dsimp only
  rw [phases_flatMap n _ _ hsid, countBits_eq, Nat.zero_add]
  simp only [bit_eq_testBit]

/-- The sibling loop reaches every variable of every solver. -/
theorem random_sets_all (rand : ℕ → ℕ) {n vars sid var : ℕ} (hsid : sid < n) (hvar : 1 ≤ var)
    (hvars : var ≤ vars) : var ∈ (phases (randomDiversification rand n vars) sid).map Prod.fst := by
  unfold randomDiversification
  rw [phases_flatMap n _ _ hsid, List.map_map]
  refine List.mem_map.mpr ⟨var, List.mem_range'_1.mpr (by omega), rfl⟩

/-- The last variable is never set, so the binary variant never does what it is
for. -/
theorem binValue_not_separates (n vars : ℕ) (hn : 1 ≤ n) (hvars : Nat.size n ≤ vars) :
    ¬ Separates n vars (binValueDiversification n vars) := by
  rintro ⟨hset, -⟩
  have hsize : 0 < Nat.size n := Nat.size_pos.mpr hn
  have hmem := hset 0 hn vars (by omega) (Nat.le_refl _)
  rw [phases_binValue hn, List.map_map] at hmem
  obtain ⟨var, hvar, rfl⟩ := List.mem_map.mp hmem
  have hrange := List.mem_range'_1.mp hvar
  dsimp only [Function.comp_apply] at hrange hsize
  omega

theorem binValue_not_separates_two : ¬ Separates 2 2 (binValueDiversification 2 2) :=
  binValue_not_separates 2 2 (by omega) (by decide)

/-- Two solvers and two variables: only x1 is set, and to the same phase. -/
theorem binValue_two_solvers : ¬ ∀ n vars : ℕ, 1 ≤ n → Nat.size n ≤ vars →
    Separates n vars (binValueDiversification n vars) := by
  intro h
  apply (h 2 2 (by omega) (by decide)).2 0 (by omega) 1 (by omega) (by omega)
  rw [phases_binValue (by omega), phases_binValue (by omega)]
  decide

/-- The numbers 0 and 1 differ in bit 0 only, and the loop is over before the
variable of that bit. -/
theorem binValue_alike {n vars : ℕ} (hn : 1 < n) (hfew : vars ≤ Nat.size n) :
    phases (binValueDiversification n vars) 0 = phases (binValueDiversification n vars) 1 := by
  rw [phases_binValue (by omega), phases_binValue hn]
  apply List.map_congr_left
  intro var hvar
  have hrange := List.mem_range'_1.mp hvar
  have hclear : Nat.testBit 1 var = false :=
    Bool.eq_false_iff.mpr fun hset => by
      have hzero := Nat.testBit_one_eq_true_iff_self_eq_zero.mp hset
      omega
  rw [Nat.mod_eq_of_lt (by omega), Nat.zero_testBit, hclear]

/-- With one more variable than bits every bit has a variable: bit 0 the one of
the wrapped index, the others the one of their own index. -/
theorem exists_var_of_bit {log vars i : ℕ} (hi : i < log) (hvars : log < vars) :
    ∃ var, 1 ≤ var ∧ var < vars ∧ var % log = i := by
  by_cases hzero : i = 0
  · exact ⟨log, by omega, hvars, by rw [Nat.mod_self, hzero]⟩
  · exact ⟨i, by omega, by omega, Nat.mod_eq_of_lt hi⟩

theorem eq_of_phases_binValue {n vars sid sid' : ℕ} (hvars : Nat.size n < vars) (hsid : sid < n)
    (hsid' : sid' < n) (heq : phases (binValueDiversification n vars) sid =
      phases (binValueDiversification n vars) sid') : sid = sid' := by
  rw [phases_binValue hsid, phases_binValue hsid'] at heq
  apply Nat.eq_of_testBit_eq
  intro i
  by_cases hi : i < Nat.size n
  · obtain ⟨var, hvar, hlt, hbit⟩ := exists_var_of_bit hi hvars
    have hmap := List.map_inj_left.mp heq var (List.mem_range'_1.mpr (by omega))
    rw [hbit] at hmap
    exact (Prod.ext_iff.mp hmap).2
  · -- beyond its bits a number has only zeros
    have hpow : n < 2 ^ i :=
      (Nat.lt_size_self n).trans_le (Nat.pow_le_pow_right (by omega) (by omega))
    rw [Nat.testBit_lt_two_pow (by omega), Nat.testBit_lt_two_pow (by omega)]

/-- All pairs of solvers have different phases exactly if there is one more
variable than the binary values have bits. -/
theorem binValue_distinct_iff (n vars : ℕ) :
    (∀ sid < n, ∀ sid' < n, sid ≠ sid' →
      phases (binValueDiversification n vars) sid ≠
        phases (binValueDiversification n vars) sid') ↔ n ≤ 1 ∨ Nat.size n < vars := by
  constructor
  · intro hdistinct
    by_contra hfew
    apply hdistinct 0 (by omega) 1 (by omega) (by omega)
    exact binValue_alike (by omega) (by omega)
  · intro henough sid hsid sid' hsid' hne heq
    apply hne
    exact eq_of_phases_binValue (by omega) hsid hsid' heq

end Painless.PhaseDiversification
