import Painless.DistributedPortfolio

/-!
The result of the distributed portfolio is some rank's report. A report is
handled only while globalEnding is unset at the root, and until then the root
has no model and no result, so that what it keeps comes from one message.
-/
namespace Painless.ResultValidity

open Transitions SolverInterface DistributedPortfolio

variable {n : ℕ}

/-- What the root has before its globalEnding is set. -/
def Undecided (s : State n) : Prop :=
  s.strategyEnding = false ∧ s.finalResult = .unknown ∧ s.root.model = []

/-- Every report, sent or about to be, is what a solver passed to
LocalWorker::join at its rank. -/
structure ResultInvariant (s : State n) : Prop where
  inFlight : ∀ source words, .report source words ∈ s.inFlight →
    ∃ res model, words = res.code :: model ∧ res ≠ .unknown ∧
      (source, res, model) ∈ s.joined
  reporting : ∀ r, ∀ p ∈ (s.ranks r).reporting, p.1 ≠ .unknown ∧ (r, p) ∈ s.joined
  undecided : s.root.globalEnding = false → Undecided s

/-! ### The steps -/

/-- The root has taken the message and has made its report the result. -/
def accept (s : State n) (k : ℕ) (res : SatResult) (lits : List ℤ) : State n :=
  { (s.take k).setRank 0
      { s.root with res := res, model := lits, globalEnding := true } with
    strategyEnding := true
    finalResult := res
    finalModel := if res = .sat then lits else s.finalModel }

/-- A handled STOP. -/
def stopRank (s : State n) (k : ℕ) (r : Fin (n + 1)) (res : SatResult) : State n :=
  (s.take k).setRank r { s.ranks r with res := res, globalEnding := true, stopped := true }

theorem dispatcherJoin_eq {s : State n} {res : SatResult} (model : List ℤ)
    (hres : res ≠ .unknown) (hending : s.root.globalEnding = false)
    (hstrategy : s.strategyEnding = false) :
    dispatcherJoin s res model =
      { s.setRank 0 { s.root with globalEnding := true } with
        strategyEnding := true
        finalResult := res
        finalModel := if res = .sat then model else s.finalModel } := by
  simp [dispatcherJoin, portfolioJoin, hres, hending, hstrategy]

theorem receiveReport_accept {s : State n} (k : ℕ) {source : Fin (n + 1)}
    {res : SatResult} (lits : List ℤ) (hs : Undecided s)
    (hending : s.root.globalEnding = false) (hres : res ≠ .unknown)
    (hfirst : s.root.res = .unknown ∨ source = 0) :
    receiveReport (s.take k) source (res.code :: lits) = some (accept s k res lits) := by
  have hmodel : (if 0 < lits.length then lits else s.root.model) = lits := by
    rw [hs.2.2]
    cases lits <;> rfl
  have hhandled : ¬ ((s.take k).root.res ≠ .unknown ∧ source ≠ 0) := by
    rintro ⟨hknown, hsource⟩
    exact hfirst.elim hknown hsource
  rw [receiveReport, if_neg hhandled]
  simp only [SatResult.ofCode_code, Option.map_some, State.take_root, hmodel]
  rw [dispatcherJoin_eq (s := (s.take k).setRank 0 { s.root with res := res, model := lits })
    lits hres (by simpa using hending) hs.1]
  simp only [accept, State.setRank, State.root, State.take, Function.update_self,
    Function.update_idem]

/-- What handling a message can do: nothing but taking it, ending with its
report as the result, or ending with the result of STOP. -/
theorem receive_cases {s t : State n} {k : ℕ} (hs : ResultInvariant s)
    (h : receive s k = some t) :
    ∃ m, s.inFlight[k]? = some m ∧
      (t = s.take k ∨
        (∃ source res lits, m = .report source (res.code :: lits) ∧
          (source, res, lits) ∈ s.joined ∧ res ≠ .unknown ∧
          s.root.globalEnding = false ∧ t = accept s k res lits) ∨
        (∃ r ret res, m = .stop r ret ∧ SatResult.ofCode ret = some res ∧
          t = stopRank s k r res)) := by
  unfold receive at h
  cases hm : s.inFlight[k]? with
  | none => simp [hm] at h
  | some m =>
    refine ⟨m, rfl, ?_⟩
    simp only [hm] at h
    split at h
    · exact absurd h (by simp)
    split at h
    · exact Or.inl (Option.some.inj h).symm
    rename_i hlive
    cases m with
    | report source words =>
      change receiveReport (s.take k) source words = some t at h
      have hending : s.root.globalEnding = false := (Bool.not_eq_true _).mp hlive
      obtain ⟨res, lits, rfl, hres, hjoined⟩ :=
        hs.inFlight source words (List.mem_of_getElem? hm)
      by_cases hfirst : s.root.res = .unknown ∨ source = 0
      · rw [receiveReport_accept k lits (hs.undecided hending) hending hres hfirst] at h
        exact Or.inr (Or.inl ⟨source, res, lits, rfl, hjoined, hres, hending,
          (Option.some.inj h).symm⟩)
      · -- the root has a verdict already, and this one is not its own
        have hdropped : (s.take k).root.res ≠ .unknown ∧ source ≠ 0 := not_or.mp hfirst
        rw [receiveReport, if_pos hdropped] at h
        exact Or.inl (Option.some.inj h).symm
    | stop r ret =>
      obtain ⟨res, hret, ht⟩ := Option.map_eq_some_iff.mp h
      exact Or.inr (Or.inr ⟨r, ret, res, rfl, hret, ht.symm⟩)

/-! ### The invariant -/

/-- A rank changes, the root's globalEnding is not unset and its model stays. -/
theorem ResultInvariant.setRank {s : State n} (hs : ResultInvariant s)
    (r : Fin (n + 1)) (x : Rank)
    (hreporting : ∀ p ∈ x.reporting, p.1 ≠ .unknown ∧ (r, p) ∈ s.joined)
    (hroot : r = 0 → x.globalEnding = false →
      s.root.globalEnding = false ∧ x.model = s.root.model) :
    ResultInvariant (s.setRank r x) := by
  refine ⟨hs.inFlight, fun q => ?_, fun hending => ?_⟩
  · by_cases hq : q = r
    · subst hq
      rw [State.setRank_ranks, Function.update_self]
      exact hreporting
    · rw [State.setRank_ranks, Function.update_of_ne hq]
      exact hs.reporting q
  · by_cases hr : r = 0
    · subst hr
      rw [State.setRank_root] at hending
      obtain ⟨hbefore, hmodel⟩ := hroot rfl hending
      obtain ⟨hstrategy, hresult, hempty⟩ := hs.undecided hbefore
      refine ⟨hstrategy, hresult, ?_⟩
      rw [State.setRank_root, hmodel, hempty]
    · rw [State.setRank_root_of_ne s x hr] at hending
      obtain ⟨hstrategy, hresult, hempty⟩ := hs.undecided hending
      refine ⟨hstrategy, hresult, ?_⟩
      rw [State.setRank_root_of_ne s x hr, hempty]

theorem ResultInvariant.take {s : State n} (hs : ResultInvariant s) (k : ℕ) :
    ResultInvariant (s.take k) := by
  refine ⟨fun source words hm => ?_, hs.reporting, hs.undecided⟩
  exact hs.inFlight source words (List.mem_of_mem_eraseIdx hm)

/-- More calls of join are known. -/
theorem ResultInvariant.join {s : State n} (hs : ResultInvariant s)
    (call : Fin (n + 1) × SatResult × List ℤ) :
    ResultInvariant { s with joined := call :: s.joined } := by
  refine ⟨fun source words hm => ?_, fun r p hp => ?_, hs.undecided⟩
  · obtain ⟨res, model, hwords, hres, hjoined⟩ := hs.inFlight source words hm
    exact ⟨res, model, hwords, hres, List.mem_cons_of_mem call hjoined⟩
  · obtain ⟨hres, hjoined⟩ := hs.reporting r p hp
    exact ⟨hres, List.mem_cons_of_mem call hjoined⟩

/-- More messages are in flight, all of them valid. -/
theorem ResultInvariant.send {s : State n} (hs : ResultInvariant s)
    (messages : List (Message n))
    (hreports : ∀ source words, .report source words ∈ messages →
      ∃ res model, words = res.code :: model ∧ res ≠ .unknown ∧
        (source, res, model) ∈ s.joined) :
    ResultInvariant { s with inFlight := s.inFlight ++ messages } := by
  refine ⟨fun source words hm => ?_, hs.reporting, hs.undecided⟩
  rcases List.mem_append.mp hm with hold | hnew
  · exact hs.inFlight source words hold
  · exact hreports source words hnew

theorem invariant_localJoin {s : State n} (hs : ResultInvariant s) (r : Fin (n + 1))
    (res : SatResult) (model : List ℤ) : ResultInvariant (localJoin s r res model) := by
  have hjoin := hs.join (r, res, model)
  unfold localJoin
  split
  · exact hjoin
  split
  · rename_i hres
    refine hjoin.setRank r _ (fun p hp => ?_) ?_
    · rcases List.mem_append.mp hp with hold | hnew
      · exact hjoin.reporting r p hold
      · obtain rfl := List.mem_singleton.mp hnew
        exact ⟨hres, List.mem_cons_self⟩
    · rintro rfl hending
      exact ⟨hending, rfl⟩
  · exact hjoin

theorem invariant_reportResult {s : State n} (hs : ResultInvariant s)
    (r : Fin (n + 1)) {currRes : SatResult} {model : List ℤ} (hres : currRes ≠ .unknown)
    (hjoined : (r, currRes, model) ∈ s.joined) :
    ResultInvariant (reportResult s r currRes model) := by
  unfold reportResult
  split
  · exact hs
  have hrank : ResultInvariant (s.setRank r { s.ranks r with res := currRes }) := by
    refine hs.setRank r _ (hs.reporting r) ?_
    rintro rfl hending
    exact ⟨hending, rfl⟩
  refine hrank.send [.report r (currRes.code :: model)] fun source words hm => ?_
  obtain ⟨rfl, rfl⟩ := Message.report.inj (List.mem_singleton.mp hm)
  exact ⟨currRes, model, rfl, hres, hjoined⟩

theorem invariant_report {s : State n} (hs : ResultInvariant s) (r : Fin (n + 1))
    (i : ℕ) {p : SatResult × List ℤ} (hp : (s.ranks r).reporting[i]? = some p) :
    ResultInvariant (reportResult
      (s.setRank r { s.ranks r with reporting := (s.ranks r).reporting.eraseIdx i })
      r p.1 p.2) := by
  obtain ⟨hres, hjoined⟩ := hs.reporting r p (List.mem_of_getElem? hp)
  refine invariant_reportResult (hs.setRank r _ (fun q hq => ?_) ?_) r hres hjoined
  · exact hs.reporting r q (List.mem_of_mem_eraseIdx hq)
  · rintro rfl hending
    exact ⟨hending, rfl⟩

theorem invariant_accept {s : State n} (hs : ResultInvariant s) (k : ℕ)
    (res : SatResult) (lits : List ℤ) : ResultInvariant (accept s k res lits) := by
  have hrank := (hs.take k).setRank 0
    { s.root with res := res, model := lits, globalEnding := true } (hs.reporting 0)
    (fun _ hending => by cases hending)
  refine ⟨hrank.inFlight, hrank.reporting, fun hending => ?_⟩
  have htrue : (accept s k res lits).root.globalEnding = true :=
    congrArg Rank.globalEnding (State.setRank_root (s.take k) _)
  rw [htrue] at hending
  cases hending

theorem invariant_receive {s t : State n} (hs : ResultInvariant s) {k : ℕ}
    (h : receive s k = some t) : ResultInvariant t := by
  obtain ⟨m, -, rfl | ⟨source, res, lits, -, -, -, -, rfl⟩ | ⟨r, ret, res, -, -, rfl⟩⟩ :=
    receive_cases hs h
  · exact hs.take k
  · exact invariant_accept hs k res lits
  · exact (hs.take k).setRank r _ (hs.reporting r) (fun _ hending => by cases hending)

theorem invariant_timeout {s : State n} (hs : ResultInvariant s) (r : Fin (n + 1)) :
    ResultInvariant (timeout s r) := by
  unfold timeout
  split
  · exact hs.setRank 0 _ (hs.reporting 0) (fun _ hending => by cases hending)
  · exact hs.setRank r _ (hs.reporting r) (fun _ hending => by cases hending)

theorem invariant_updateWorkingStatus {s : State n} (hs : ResultInvariant s) :
    ResultInvariant (updateWorkingStatus s) := by
  have hsend := hs.send
    ((List.finRange n).map fun i => .stop i.succ s.root.res.code) (by simp)
  exact ⟨hsend.inFlight, hsend.reporting, hsend.undecided⟩

theorem invariant_step {s t : State n} {a : Action n} (hs : ResultInvariant s)
    (h : step s a = some t) : ResultInvariant t := by
  cases a with
  | answer r res model =>
    obtain ⟨-, ht⟩ := Option.ite_none_left_eq_some.mp h
    obtain rfl := Option.some.inj ht
    exact invariant_localJoin hs r res model
  | report r i =>
    obtain ⟨-, hmap⟩ := Option.ite_none_left_eq_some.mp h
    obtain ⟨p, hp, rfl⟩ := Option.map_eq_some_iff.mp hmap
    exact invariant_report hs r i hp
  | receive k => exact invariant_receive hs h
  | timeout r =>
    obtain ⟨-, ht⟩ := Option.ite_none_left_eq_some.mp h
    obtain rfl := Option.some.inj ht
    exact invariant_timeout hs r
  | broadcast =>
    obtain ⟨-, ht⟩ := Option.ite_none_right_eq_some.mp h
    obtain rfl := Option.some.inj ht
    exact invariant_updateWorkingStatus hs
  | print =>
    obtain ⟨-, ht⟩ := Option.ite_none_right_eq_some.mp h
    obtain rfl := Option.some.inj ht
    exact ⟨hs.inFlight, hs.reporting, hs.undecided⟩

theorem invariant_reach {ok : State n → Action n → Prop} {s : State n}
    (hs : (machine n).Reach ok s) : ResultInvariant s := by
  refine hs.invariant ResultInvariant ?_ (fun _ _ _ _ hinv _ h => invariant_step hinv h)
  rintro s rfl
  exact ⟨by simp [start], by simp [start, Rank.start], fun _ => ⟨rfl, rfl, rfl⟩⟩

/-! ### The result -/

/-- Every step but an accepted report leaves the result as it is. -/
theorem result_step {s t : State n} {a : Action n} (hs : ResultInvariant s)
    (h : step s a = some t) :
    (t.finalResult = s.finalResult ∧ t.finalModel = s.finalModel) ∨
      ∃ k source res lits, a = .receive k ∧
        s.inFlight[k]? = some (.report source (res.code :: lits)) ∧
        (source, res, lits) ∈ s.joined ∧ s.finalResult = .unknown ∧
        t = accept s k res lits := by
  cases a with
  | answer r res model =>
    obtain ⟨-, ht⟩ := Option.ite_none_left_eq_some.mp h
    obtain rfl := Option.some.inj ht
    unfold localJoin
    split
    · exact Or.inl ⟨rfl, rfl⟩
    · split <;> exact Or.inl ⟨rfl, rfl⟩
  | report r i =>
    obtain ⟨-, hmap⟩ := Option.ite_none_left_eq_some.mp h
    obtain ⟨p, -, rfl⟩ := Option.map_eq_some_iff.mp hmap
    unfold reportResult
    split <;> exact Or.inl ⟨rfl, rfl⟩
  | receive k =>
    obtain ⟨m, hm, rfl | ⟨source, res, lits, rfl, hjoined, -, hending, rfl⟩ |
      ⟨r, ret, res, -, -, rfl⟩⟩ := receive_cases hs h
    · exact Or.inl ⟨rfl, rfl⟩
    · exact Or.inr ⟨k, source, res, lits, rfl, hm, hjoined, (hs.undecided hending).2.1, rfl⟩
    · exact Or.inl ⟨rfl, rfl⟩
  | timeout r =>
    obtain ⟨-, ht⟩ := Option.ite_none_left_eq_some.mp h
    obtain rfl := Option.some.inj ht
    unfold timeout
    split <;> exact Or.inl ⟨rfl, rfl⟩
  | broadcast =>
    obtain ⟨-, ht⟩ := Option.ite_none_right_eq_some.mp h
    obtain rfl := Option.some.inj ht
    exact Or.inl ⟨rfl, rfl⟩
  | print =>
    obtain ⟨-, ht⟩ := Option.ite_none_right_eq_some.mp h
    obtain rfl := Option.some.inj ht
    exact Or.inl ⟨rfl, rfl⟩

/-- A result is final. -/
theorem result_step_known {s t : State n} {a : Action n} (hs : ResultInvariant s)
    (h : step s a = some t) (hknown : s.finalResult ≠ .unknown) :
    t.finalResult = s.finalResult ∧ t.finalModel = s.finalModel := by
  rcases result_step hs h with hsame | ⟨k, source, res, lits, -, -, -, hunknown, -⟩
  · exact hsame
  · exact absurd hunknown hknown

theorem result_run_known {s u : State n} (hs : ResultInvariant s) (as : List (Action n))
    (hrun : (machine n).run s as = some u) (hknown : s.finalResult ≠ .unknown) :
    u.finalResult = s.finalResult ∧ u.finalModel = s.finalModel := by
  induction as generalizing s with
  | nil =>
    obtain rfl : s = u := Option.some.inj hrun
    exact ⟨rfl, rfl⟩
  | cons a rest ih =>
    rw [Machine.run_cons] at hrun
    obtain ⟨t, ht, hrest⟩ := Option.bind_eq_some_iff.mp hrun
    obtain ⟨hresult, hmodel⟩ := result_step_known hs ht hknown
    have hlater := ih (invariant_step hs ht) hrest (by rwa [hresult])
    rwa [hresult, hmodel] at hlater

/-- In every run of the distributed portfolio the final result, once it is
known, stays what it is, with its model. The step that makes it known handles a
REPORT whose rank has had this verdict and this model from a solver. -/
theorem final_result_valid (s t : State n) (a : Action n)
    (hs : (machine n).Reach (fun _ _ => True) s) (h : step s a = some t) :
    (s.finalResult ≠ .unknown → ∀ as u, (machine n).run s as = some u →
      u.finalResult = s.finalResult ∧ u.finalModel = s.finalModel) ∧
    (s.finalResult = .unknown → t.finalResult ≠ .unknown →
      ∃ k source lits, a = .receive k ∧
        s.inFlight[k]? = some (.report source (t.finalResult.code :: lits)) ∧
        (source, t.finalResult, lits) ∈ s.joined ∧
        (t.finalResult = .sat → t.finalModel = lits)) := by
  have hinv := invariant_reach hs
  refine ⟨fun hknown as u hrun => result_run_known hinv as hrun hknown, ?_⟩
  intro hunknown hknown
  rcases result_step hinv h with ⟨hsame, -⟩ | ⟨k, source, res, lits, ha, hm, hjoined, -, rfl⟩
  · exact absurd (hsame.trans hunknown) hknown
  · exact ⟨k, source, lits, ha, hm, hjoined, fun hsat => if_pos hsat⟩

/-- Two ranks answer, and the second one's report is on its way. -/
def twoReports : List (Action 1) :=
  [.answer 0 .unsat [], .answer 1 .sat [1, -2], .report 1 0]

def reported : State 1 := ((machine 1).run (start 1) twoReports).get (by decide)

theorem reported_reach : (machine 1).Reach (fun _ _ => True) reported := by
  have hinit : (machine 1).Init (start 1) := rfl
  exact @Machine.Reach.of_run _ _ _ _ _ hinit twoReports (Option.some_get (by decide)).symm

theorem final_result_two_reports :
    ∃ t, step reported (.receive 0) = some t ∧ t.finalResult = .sat ∧
      ∃ k source lits, Action.receive (n := 1) 0 = .receive k ∧
        reported.inFlight[k]? = some (.report source (t.finalResult.code :: lits)) ∧
        (source, t.finalResult, lits) ∈ reported.joined ∧
        (t.finalResult = .sat → t.finalModel = lits) := by
  refine ⟨(step reported (.receive 0)).get (by decide), (Option.some_get _).symm,
    by decide, ?_⟩
  exact (final_result_valid reported _ (.receive 0) reported_reach
    (Option.some_get (by decide)).symm).2 (by decide) (by decide)

end Painless.ResultValidity
