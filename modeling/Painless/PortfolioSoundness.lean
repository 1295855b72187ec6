import Painless.MiniSatPortfolio

/-!
The distributed portfolio is right about the formula, if its search engines keep
their contract: whatever circulates between the solvers follows from the formula, so
no engine ever works on anything else, and the answer that is printed is one for the
formula.
-/
namespace Painless.PortfolioSoundness

open Cnf PartialAssignment SearchContract ClauseRoutes MiniSatPortfolio
open MapleSolver (miniLit intLit miniVec miniLit_intLit intLit_miniLit)
open SharedClauses ClauseCommunicator SharingStrategies SolverInterface
open SharingSystem (Setup Start)
open ClauseMetadata (Learned minisatExportClause)
open DistributedPortfolio (localJoin)
open ResultValidity
open Transitions (Machine forall_goto)

variable {Q T S I P : Type*} {n k : ℕ} {F : List (List ℤ)} {E : Engine Q T} {inv : Q → Prop}

/-! ### The formula -/

/-- The clauses in the numbering of the engines. -/
def formula (F : List (List ℤ)) : Formula ℕ := F.map miniVec

/-- The literals of the formula are no zeros, and its variables are the first `n`. -/
def Loadable (n : ℕ) (F : List (List ℤ)) : Prop := ∀ c ∈ F, ∀ l ∈ c, l ≠ 0 ∧ l.natAbs ≤ n

instance (n : ℕ) (F : List (List ℤ)) : Decidable (Loadable n F) :=
  inferInstanceAs (Decidable (∀ c ∈ F, _))

/-- The lists of literals that go through buffers and messages. -/
structure Circulates (n : ℕ) (F : List (List ℤ)) (lits : List ℤ) : Prop where
  nonzero : ∀ l ∈ lits, l ≠ 0
  shareable : Shareable n (formula F) (miniVec lits)

theorem intLit_ne_zero (l : Literal ℕ) : intLit l ≠ 0 := by
  unfold intLit
  split_ifs <;> omega

theorem miniVec_intLit (c : Clause ℕ) : miniVec (c.map intLit) = c := by
  unfold miniVec
  rw [List.map_map]
  exact (List.map_congr_left fun l _ => miniLit_intLit l).trans (List.map_id c)

theorem circulates_intLit {c : Clause ℕ} (h : Shareable n (formula F) c) :
    Circulates n F (c.map intLit) := by
  refine ⟨fun l hl => ?_, ?_⟩
  · obtain ⟨q, -, rfl⟩ := List.mem_map.mp hl
    exact intLit_ne_zero q
  · rw [miniVec_intLit]
    exact h

/-- An assignment in the numbering of the engines. -/
def shifted (σ : Assignment ℕ) : Assignment ℕ := fun v => σ (v + 1)

theorem literalHolds_shifted {σ : Assignment ℕ} {l : ℤ} (hl : l ≠ 0)
    (h : LiteralHolds σ (ofInt l)) : LiteralHolds (shifted σ) (miniLit l) := by
  have hvar : l.natAbs - 1 + 1 = l.natAbs := Nat.succ_pred_eq_of_pos (Int.natAbs_pos.mpr hl)
  show σ (l.natAbs - 1 + 1) = _
  rw [hvar]
  exact h

theorem formulaHolds_shifted (hF : Loadable n F) {σ : Assignment ℕ}
    (h : FormulaHolds σ (F.map ofInts)) : FormulaHolds (shifted σ) (formula F) := by
  intro c hc
  obtain ⟨d, hd, rfl⟩ := List.mem_map.mp hc
  obtain ⟨q, hq, hholds⟩ := h (ofInts d) (List.mem_map_of_mem hd)
  obtain ⟨l, hl, rfl⟩ := List.mem_map.mp hq
  exact ⟨miniLit l, List.mem_map_of_mem hl, literalHolds_shifted (hF d hd l hl).1 hholds⟩

/-! ### Answers -/

/-- A consistent set of literals with one in every clause. -/
structure RightModel (F : List (List ℤ)) (model : List ℤ) : Prop where
  consistent : ∀ l ∈ model, -l ∉ model
  satisfies : ∀ c ∈ F, ∃ l ∈ c, l ∈ model

def Right (F : List (List ℤ)) : SatResult → List ℤ → Prop
  | .sat, model => RightModel F model
  | .unsat, _ => ¬ Satisfiable (F.map ofInts)
  | .unknown, _ => True

theorem mem_getModel {q : Q} {l : ℤ} : l ∈ getModel E q ↔
    ∃ i b, i < E.nVars q ∧ value (E.model q) i = some b ∧ l = intLit (i, b) := by
  unfold getModel
  rw [List.mem_filterMap]
  constructor
  · rintro ⟨i, hi, hl⟩
    obtain ⟨b, hb, rfl⟩ := Option.map_eq_some_iff.mp hl
    exact ⟨i, b, List.mem_range.mp hi, hb, rfl⟩
  · rintro ⟨i, b, hi, hb, rfl⟩
    exact ⟨i, List.mem_range.mpr hi, by rw [hb]; rfl⟩

theorem intLit_injective {l q : Literal ℕ} (h : intLit l = intLit q) : l = q := by
  rw [← miniLit_intLit l, h, miniLit_intLit]

theorem neg_intLit (l : Literal ℕ) : -intLit l = intLit (negate l) := by
  obtain ⟨v, b⟩ := l
  cases b <;> simp [intLit, negate]

theorem rightModel_getModel (hF : Loadable n F) {q : Q} (hvars : E.nVars q = n)
    (hsat : FormulaTrue (value (E.model q)) (formula F)) : RightModel F (getModel E q) := by
  refine ⟨fun l hl hneg => ?_, fun c hc => ?_⟩
  · obtain ⟨i, b, -, hb, rfl⟩ := mem_getModel.mp hl
    rw [neg_intLit] at hneg
    obtain ⟨j, b', -, hb', heq⟩ := mem_getModel.mp hneg
    obtain ⟨rfl, rfl⟩ := Prod.mk.inj (intLit_injective heq)
    have hsame : b = !b := Option.some.inj (hb.symm.trans hb')
    cases b <;> exact absurd hsame (by simp)
  · obtain ⟨p, hp, htrue⟩ := hsat (miniVec c) (List.mem_map_of_mem hc)
    obtain ⟨l, hl, rfl⟩ := List.mem_map.mp hp
    obtain ⟨hne, hle⟩ := hF c hc l hl
    have hpos := Int.natAbs_pos.mpr hne
    refine ⟨l, hl, mem_getModel.mpr ⟨_, _, ?_, htrue, (intLit_miniLit hne).symm⟩⟩
    rw [hvars]
    show l.natAbs - 1 < n
    omega

theorem right_result (hF : Loadable n F) (hE : Contract E n (formula F) inv) {q : Q} (hq : inv q)
    {status : Option Bool} (hstatus : E.status q = some status) :
    Right F (result status) (if status = some true then getModel E q else []) := by
  match status with
  | none => trivial
  | some true => exact rightModel_getModel hF (hE.nVars q hq) (hE.sat q hq hstatus)
  | some false =>
    rintro ⟨σ, hσ⟩
    exact hE.unsat q hq hstatus ⟨shifted σ, formulaHolds_shifted hF hσ⟩

/-! ### The way to the root -/

/-- What the solvers have answered is right, and so is what the root makes of it. -/
structure VerdictOk (F : List (List ℤ)) (v : DistributedPortfolio.State k) : Prop where
  valid : ResultInvariant v
  joined : ∀ x ∈ v.joined, Right F x.2.1 x.2.2
  final : Right F v.finalResult v.finalModel
  printed : ∀ res, v.printed = some res → res ≠ .unknown → v.finalResult = res

section Verdict

variable {v u : DistributedPortfolio.State k}

theorem receive_joined {i : ℕ} (hv : ResultInvariant v)
    (h : DistributedPortfolio.receive v i = some u) :
    u.joined = v.joined ∧ u.printed = v.printed := by
  obtain ⟨m, -, rfl | ⟨source, res, lits, -, -, -, -, rfl⟩ | ⟨r, ret, res, -, -, rfl⟩⟩ :=
    receive_cases hv h
  · exact ⟨rfl, rfl⟩
  · exact ⟨rfl, rfl⟩
  · exact ⟨rfl, rfl⟩

theorem step_joined {a : DistributedPortfolio.Action k} (hv : ResultInvariant v)
    (h : DistributedPortfolio.step v a = some u) :
    (u.joined = v.joined ∨ ∃ r res model, a = .answer r res model ∧
        u.joined = (r, res, model) :: v.joined) ∧
      (u.printed = v.printed ∨ u.printed = some v.finalResult) := by
  cases a with
  | answer r res model =>
    obtain ⟨-, ht⟩ := Option.ite_none_left_eq_some.mp h
    obtain rfl := Option.some.inj ht
    have hjoin : (localJoin v r res model).joined = (r, res, model) :: v.joined ∧
        (localJoin v r res model).printed = v.printed := by
      unfold localJoin
      dsimp only
      split_ifs <;> exact ⟨rfl, rfl⟩
    exact ⟨Or.inr ⟨r, res, model, rfl, hjoin.1⟩, Or.inl hjoin.2⟩
  | report r i =>
    obtain ⟨-, hmap⟩ := Option.ite_none_left_eq_some.mp h
    obtain ⟨x, -, rfl⟩ := Option.map_eq_some_iff.mp hmap
    unfold DistributedPortfolio.reportResult
    split_ifs <;> exact ⟨Or.inl rfl, Or.inl rfl⟩
  | receive i =>
    obtain ⟨hjoined, hprinted⟩ := receive_joined hv h
    exact ⟨Or.inl hjoined, Or.inl hprinted⟩
  | timeout r =>
    obtain ⟨-, ht⟩ := Option.ite_none_left_eq_some.mp h
    obtain rfl := Option.some.inj ht
    unfold DistributedPortfolio.timeout
    split_ifs <;> exact ⟨Or.inl rfl, Or.inl rfl⟩
  | broadcast =>
    obtain ⟨-, ht⟩ := Option.ite_none_right_eq_some.mp h
    obtain rfl := Option.some.inj ht
    exact ⟨Or.inl rfl, Or.inl rfl⟩
  | print =>
    obtain ⟨-, ht⟩ := Option.ite_none_right_eq_some.mp h
    obtain rfl := Option.some.inj ht
    exact ⟨Or.inl rfl, Or.inr rfl⟩

theorem VerdictOk.step (h : VerdictOk F v) {a : DistributedPortfolio.Action k}
    (hanswer : ∀ r res model, a = .answer r res model → Right F res model)
    (hstep : DistributedPortfolio.step v a = some u) : VerdictOk F u := by
  obtain ⟨hjoined, hprinted⟩ := step_joined h.valid hstep
  have hresult := result_step h.valid hstep
  refine ⟨invariant_step h.valid hstep, fun x hx => ?_, ?_, fun res hres hknown => ?_⟩
  · rcases hjoined with hsame | ⟨r, res, model, ha, hnew⟩
    · rw [hsame] at hx
      exact h.joined x hx
    · rw [hnew] at hx
      rcases List.mem_cons.mp hx with rfl | hold
      · exact hanswer r res model ha
      · exact h.joined x hold
  · rcases hresult with ⟨hsame, hmodel⟩ | ⟨i, source, res, lits, -, -, hmem, -, rfl⟩
    · rw [hsame, hmodel]
      exact h.final
    · have hright := h.joined _ hmem
      show Right F res (if res = .sat then lits else v.finalModel)
      cases res with
      | sat => exact hright
      | unsat => exact hright
      | unknown => trivial
  · rcases hprinted with hsame | hnow
    · rw [hsame] at hres
      have hfinal := h.printed res hres hknown
      have hstays := result_step_known h.valid hstep fun hunknown => hknown (hfinal ▸ hunknown)
      exact hstays.1.trans hfinal
    · obtain rfl : v.finalResult = res := Option.some.inj (hnow.symm.trans hres)
      exact (result_step_known h.valid hstep hknown).1

theorem verdictOk_start : VerdictOk F (DistributedPortfolio.start k) := by
  refine ⟨?_, fun x hx => absurd hx List.not_mem_nil, trivial, fun res hres => ?_⟩
  · have hstart : (DistributedPortfolio.machine k).Reach (fun _ _ => True)
        (DistributedPortfolio.start k) := Machine.Reach.init rfl
    exact invariant_reach hstart
  · exact absurd hres.symm (Option.some_ne_none res)

end Verdict

/-! ### A rank -/

/-- The engines keep to the formula, and so does all that they have been given and
that waits for them. -/
structure RankOk (n : ℕ) (F : List (List ℤ)) (inv : Q → Prop) (s : Rank Q S I P) : Prop where
  engines : ∀ x, inv (s.engines x)
  units : ∀ x, ∀ l ∈ s.units x, Shareable n (formula F) [l]
  clauses : ∀ x, ∀ c ∈ s.clauses x, Shareable n (formula F) c ∧ 2 ≤ c.length
  carried : Carried (Circulates n F) s.sharing.store

section Rank

variable [DecidableEq S] [DecidableEq I] [DecidableEq P] {setup : Setup S I} {s t : Rank Q S I P}

theorem RankOk.pipeline (h : RankOk n F inv s) {a : SharingSystem.Action S I P}
    (hexported : ∀ x clause, a = .exportClause x clause → Circulates n F clause.lits)
    (hreceived : ∀ malloc payload, a = .receiveClauses malloc payload →
      Sendable (Circulates n F) setup.shrLit P payload)
    (hstep : s.pipeline setup a = some t) : RankOk n F inv t := by
  obtain ⟨sharing, hsharing, rfl⟩ := Option.map_eq_some_iff.mp hstep
  exact { h with carried := h.carried.step hexported hreceived hsharing }

omit [DecidableEq I] [DecidableEq P] in
theorem RankOk.turned (h : RankOk n F inv s) (x : S) {q : Q} (hq : inv q) :
    RankOk n F inv (s.turned x q) := by
  refine ⟨forall_goto (P := fun _ q => inv q) h.engines hq,
    forall_goto (P := fun _ units => ∀ l ∈ units, Shareable n (formula F) [l]) h.units ?_,
    forall_goto (P := fun _ cs => ∀ c ∈ cs, Shareable n (formula F) c ∧ 2 ≤ c.length)
      h.clauses ?_, h.carried⟩
  · exact fun l hl => absurd hl List.not_mem_nil
  · exact fun c hc => absurd hc List.not_mem_nil

omit [DecidableEq I] [DecidableEq P] in
theorem RankOk.importUnit (h : RankOk n F inv s) (x : S) : RankOk n F inv (s.importUnit x) := by
  refine { h with units := ?_ }
  refine forall_goto (P := fun _ units => ∀ l ∈ units, Shareable n (formula F) [l]) h.units ?_
  intro l hl
  rcases List.mem_append.mp hl with hold | hnew
  · exact h.units x l hold
  · obtain ⟨c, hc, hlit⟩ := List.mem_flatMap.mp hnew
    obtain ⟨hcirculates, hone⟩ := (h.carried.taken x).1 c (List.mem_of_mem_take hc)
    obtain ⟨lit, hlits⟩ := List.length_eq_one_iff.mp hone
    unfold unitLit at hlit
    rw [hlits] at hlit
    obtain rfl := List.mem_singleton.mp hlit
    have hshareable := hcirculates.shareable
    rw [hlits] at hshareable
    exact hshareable

omit [DecidableEq I] [DecidableEq P] in
theorem RankOk.importClause (h : RankOk n F inv s) (x : S) :
    RankOk n F inv (s.importClause x) := by
  refine { h with clauses := ?_ }
  refine forall_goto (P := fun _ cs => ∀ c ∈ cs, Shareable n (formula F) c ∧ 2 ≤ c.length)
    h.clauses ?_
  intro c hc
  rcases List.mem_append.mp hc with hold | hnew
  · exact h.clauses x c hold
  · obtain ⟨e, he, rfl⟩ := List.mem_map.mp hnew
    obtain ⟨hcirculates, hone⟩ := (h.carried.taken x).2 e (List.mem_of_mem_take he)
    refine ⟨hcirculates.shareable, ?_⟩
    have hlength : (miniVec e.lits).length = e.lits.length := List.length_map _
    have hpos := List.length_pos_iff.mpr hcirculates.shareable.nonempty
    omega

omit [DecidableEq P] in
theorem exportClause_lits {id sizeLimit : ℤ} {ptr : P} {c : Clause ℕ} {cls : LearnedClause P}
    (h : MiniSatPortfolio.exportClause id sizeLimit ptr c = some cls) :
    cls.lits = c.map intLit := by
  unfold MiniSatPortfolio.exportClause minisatExportClause at h
  split_ifs at h
  obtain rfl := Option.some.inj h
  rfl

theorem rankOk_step (hE : Contract E n (formula F) inv) (h : RankOk n F inv s)
    {network : List (ℕ → ℤ)}
    (hnetwork : ∀ payload ∈ network, Sendable (Circulates n F) setup.shrLit P payload)
    {a : RankAction T S I P} (hstep : s.step E setup network a = some t) : RankOk n F inv t := by
  cases a with
  | solve x =>
    obtain ⟨q, hq, rfl⟩ := Option.map_eq_some_iff.mp hstep
    exact { h with
      engines := forall_goto (P := fun _ q => inv q) h.engines (hE.solve _ q (h.engines x) hq) }
  | turn x input sizeLimit ptr =>
    obtain ⟨r, hr, hnext⟩ := Option.bind_eq_some_iff.mp hstep
    obtain ⟨hinv, hlearned⟩ := hE.turn _ input _ _ r (h.engines x) (h.units x) (h.clauses x) hr
    have hturned := h.turned x hinv
    cases hexport : r.2.bind (MiniSatPortfolio.exportClause (setup.id x) sizeLimit ptr) with
    | none =>
      rw [hexport] at hnext
      exact Option.some.inj hnext ▸ hturned
    | some cls =>
      rw [hexport] at hnext
      obtain ⟨c, hc, hcls⟩ := Option.bind_eq_some_iff.mp hexport
      refine hturned.pipeline (fun y clause ha => ?_) (fun _ _ ha => ?_) hnext
      · obtain ⟨-, rfl⟩ := SharingSystem.Action.exportClause.inj ha
        rw [exportClause_lits hcls]
        exact circulates_intLit (hlearned c hc)
      · cases ha
  | importUnit x =>
    obtain ⟨-, hnext⟩ := Option.ite_none_right_eq_some.mp hstep
    exact (h.importUnit x).pipeline (fun _ _ ha => by cases ha) (fun _ _ ha => by cases ha) hnext
  | importClause x =>
    obtain ⟨-, hnext⟩ := Option.ite_none_right_eq_some.mp hstep
    exact (h.importClause x).pipeline (fun _ _ ha => by cases ha) (fun _ _ ha => by cases ha) hnext
  | doSharing i =>
    exact h.pipeline (fun _ _ ha => by cases ha) (fun _ _ ha => by cases ha) hstep
  | exportLearnedClauses =>
    exact h.pipeline (fun _ _ ha => by cases ha) (fun _ _ ha => by cases ha) hstep
  | receiveClauses malloc i =>
    obtain ⟨payload, hpayload, hnext⟩ := Option.bind_eq_some_iff.mp hstep
    refine h.pipeline (fun _ _ ha => by cases ha) (fun _ _ ha => ?_) hnext
    obtain ⟨rfl, rfl⟩ := SharingSystem.Action.receiveClauses.inj ha
    exact hnetwork payload (List.mem_of_getElem? hpayload)

omit [DecidableEq S] [DecidableEq I] [DecidableEq P] in
theorem sent_sendable (h : RankOk n F inv s) (a : RankAction T S I P) :
    ∀ payload ∈ s.sent setup a, Sendable (Circulates n F) setup.shrLit P payload := by
  intro payload hpayload
  unfold Rank.sent at hpayload
  split at hpayload
  · split at hpayload
    · case _ e he =>
      obtain ⟨message, hmessage, rfl⟩ := List.mem_map.mp hpayload
      exact sendable_exported (fun _ hp => hp.nonzero) h.carried.origins.toExport he message
        hmessage
    · exact absurd hpayload List.not_mem_nil
  · exact absurd hpayload List.not_mem_nil

end Rank

/-! ### All ranks -/

structure WorldOk (n : ℕ) (F : List (List ℤ)) (inv : Q → Prop) (shrLit : ℤ)
    (w : World k Q S I P) : Prop where
  ranks : ∀ r, RankOk n F inv (w.ranks r)
  network : ∀ payload ∈ w.network, Sendable (Circulates n F) shrLit P payload
  verdict : VerdictOk F w.verdict

section World

variable [DecidableEq S] [DecidableEq I] [DecidableEq P] {cfg : Config S I k}
  {w u : World k Q S I P} {loaded : Q → Prop}

omit [DecidableEq S] [DecidableEq I] in
theorem worldOk_initial (hloaded : ∀ q, loaded q → inv q) (h : Initial loaded w) :
    WorldOk n F inv cfg.shrLit w := by
  refine ⟨fun r => ⟨fun x => hloaded _ (h.engines r x), fun x l hl => ?_, fun x c hc => ?_,
    carried_start (h.sharing r)⟩, fun payload hpayload => ?_, ?_⟩
  · rw [h.units r x] at hl
    exact absurd hl List.not_mem_nil
  · rw [h.clauses r x] at hc
    exact absurd hc List.not_mem_nil
  · rw [h.network] at hpayload
    exact absurd hpayload List.not_mem_nil
  · rw [h.verdict]
    exact verdictOk_start

theorem worldOk_step (hF : Loadable n F) (hE : Contract E n (formula F) inv)
    (h : WorldOk n F inv cfg.shrLit w) {a : Action k T S I P} (hstep : step E cfg w a = some u) :
    WorldOk n F inv cfg.shrLit u := by
  cases a with
  | rank r a =>
    obtain ⟨t, ht, rfl⟩ := Option.map_eq_some_iff.mp hstep
    have hrank : RankOk n F inv t := by
      refine rankOk_step hE (h.ranks r) ?_ ht
      exact h.network
    refine ⟨forall_goto (P := fun _ s => RankOk n F inv s) h.ranks hrank,
      fun payload hpayload => ?_, h.verdict⟩
    rcases List.mem_append.mp hpayload with hold | hnew
    · exact h.network payload hold
    · have hsent := sent_sendable (h.ranks r) a payload hnew
      exact hsent
  | join r x =>
    obtain ⟨status, hstatus, hnext⟩ := Option.bind_eq_some_iff.mp hstep
    obtain ⟨v, hv, rfl⟩ := Option.map_eq_some_iff.mp hnext
    refine { h with verdict := h.verdict.step (fun r' res model ha => ?_) hv }
    obtain ⟨-, rfl, rfl⟩ := DistributedPortfolio.Action.answer.inj ha
    exact right_result hF hE ((h.ranks r).engines x) hstatus
  | verdict a =>
    cases a with
    | answer r res model => exact absurd hstep.symm (Option.some_ne_none u)
    | _ =>
      obtain ⟨v, hv, rfl⟩ := Option.map_eq_some_iff.mp hstep
      exact { h with verdict := h.verdict.step (fun _ _ _ ha => by cases ha) hv }

theorem worldOk_of_reach (hF : Loadable n F) (hE : Contract E n (formula F) inv)
    (hloaded : ∀ q, loaded q → inv q)
    (h : (machine E cfg loaded).Reach (fun _ _ => True) w) : WorldOk n F inv cfg.shrLit w := by
  refine h.invariant (WorldOk n F inv cfg.shrLit) (fun w hinit => ?_) (fun w a u _ hw _ hstep => ?_)
  · exact worldOk_initial hloaded hinit
  · exact worldOk_step hF hE hw hstep

end World

end Painless.PortfolioSoundness
