import Painless.ResultWrites

/-!
The root has two copies of the verdict: res, which it broadcasts, and
finalResult, which it prints. The condition on the steps under which they agree,
and the invariant of the runs that meet it: from the moment at which Portfolio::join
has passed its tests, or the root has ended without it, res is the verdict for as
long as the main thread reads it, and what has been sent and printed is the verdict.
-/
namespace Painless.ResultCopies

open Transitions SolverInterface ResultWrites

variable {n : ℕ}

/-- What is printed has been logged and sent as the result, and is the verdict
of every rank that has handled STOP. -/
def Agreement (s : State n) : Prop :=
  ∀ w, s.printed = some w → s.broadcast = some w ∧ (∀ v ∈ s.sent, v = w) ∧
    ∀ r, (s.ranks r).stopped = true → (s.ranks r).res = w

/-- The result that Portfolio::join is to write to finalResult. -/
def pending : CommPc n → Option SatResult
  | .setStrategy res => some res
  | .setEnding res => some res
  | .setResult res => some res
  | _ => none

/-- The result with which join has been called, before the test in Portfolio::join. -/
def called : CommPc n → Option SatResult
  | .dispatch res => some res
  | .join res => some res
  | _ => none

/-- The main thread has still to read res. -/
def reads : MainPc n → Bool
  | .polling => true
  | .sending (_ :: _) => true
  | _ => false

/-- The verdict of the rank must not change any more: at the root from the call
of join or the end on, as long as the main thread has to read it, and elsewhere
once STOP has written it. -/
def Settled (s : State n) (r : Fin (n + 1)) : Prop :=
  if r = 0 then
    reads s.main = true ∧ (s.root.globalEnding = true ∨ (pending s.root.comm).isSome = true ∨
      (called s.root.comm).isSome = true)
  else (s.ranks r).comm = .stopEnding ∨ (s.ranks r).stopped = true

/-- The root times out only while its res is unknown or Portfolio::join has
passed its tests, no settled verdict is written over, and the main thread does
not test finalResult for a result that is about to be written. -/
def Timely (s : State n) : Action n → Prop
  | .write r i => Settled s r → ∀ res ∈ (s.ranks r).writing[i]?, res = (s.ranks r).res
  | .handle r => Settled s r → ∀ res, (s.ranks r).comm = .store res → res = (s.ranks r).res
  | .timeout r => r = 0 → s.root.globalEnding = false → pending s.root.comm = none →
      s.root.res = .unknown
  | .main => (s.main = .testingSat → pending s.root.comm ≠ some .sat) ∧
      (s.main = .testingUnsat → pending s.root.comm ≠ some .unsat)
  | _ => True

instance (s : State n) (r : Fin (n + 1)) : Decidable (Settled s r) :=
  inferInstanceAs (Decidable (ite (r = 0) (_ ∧ _) (_ ∨ _)))

instance (s : State n) : ∀ a, Decidable (Timely s a)
  | .write _ _ => inferInstanceAs (Decidable (_ → ∀ res ∈ _, _))
  | .handle r =>
    match hcomm : (s.ranks r).comm with
    | .store res => decidable_of_iff (Settled s r → res = (s.ranks r).res) (by
        simp [Timely, hcomm])
    | .idle | .report _ _ | .call | .dispatch _ | .join _ | .setStrategy _ | .setEnding _
    | .setResult _ | .stop _ | .stopEnding => isTrue (by simp [Timely, hcomm])
  | .timeout _ => inferInstanceAs (Decidable (_ → _ → _ → _))
  | .main => inferInstanceAs (Decidable (_ ∧ _))
  | .answer _ _ | .test _ _ | .receive _ | .crash _ | .send _ =>
    inferInstanceAs (Decidable True)

/-! ### The invariant -/

/-- What finalResult is, or is about to be. -/
def verdictOf (x : Rank n) (final : SatResult) : SatResult := (pending x.comm).getD final

def verdict (s : State n) : SatResult := verdictOf s.root s.finalResult

/-- The main thread has left its loop, and the value is the verdict. -/
def Announced (s : State n) (v : SatResult) : Prop := s.main ≠ .polling ∧ v = verdict s

/-- The result that the communicator handles at the root. -/
def carried : CommPc n → Option SatResult
  | .report _ res => some res
  | .store res => some res
  | .dispatch res => some res
  | .join res => some res
  | .setStrategy res => some res
  | .setEnding res => some res
  | .setResult res => some res
  | _ => none

/-- `announced` are the values that the root has sent. -/
structure RankAgrees (r : Fin (n + 1)) (x : Rank n) (announced : SatResult → Prop) : Prop where
  reporting : ∀ res ∈ x.reporting, res ≠ .unknown
  writing : ∀ res ∈ x.writing, res ≠ .unknown
  foreign : r ≠ 0 → carried x.comm = none ∧ x.comm ≠ .call
  stop : ∀ ret, x.comm = .stop ret → r ≠ 0 ∧ announced ret
  stopped : x.comm = .stopEnding ∨ x.stopped = true → r ≠ 0 ∧ announced x.res

/-- The root's copies of the verdict. -/
structure RootAgrees (x : Rank n) (strategyEnding : Bool) (final : SatResult)
    (main : MainPc n) : Prop where
  alive : x.interrupting = false ∧ x.crashed = false
  known : ∀ res, carried x.comm = some res → res ≠ .unknown
  stored : x.comm = .call → x.res ≠ .unknown
  argument : ∀ res, called x.comm = some res → x.globalEnding = false → x.res = res
  undecided : x.globalEnding = false → final = .unknown ∧ main = .polling
  strategy : strategyEnding = true → x.globalEnding = true ∨ ∃ res, x.comm = .setEnding res
  unwritten : (pending x.comm).isSome = true → final = .unknown
  ending : ∀ res, x.comm = .setResult res → x.globalEnding = true
  settled : reads main = true → x.globalEnding = true ∨ (pending x.comm).isSome = true →
    x.res = verdictOf x final

structure AgreementInvariant (s : State n) : Prop where
  ranks : ∀ r, RankAgrees r (s.ranks r) (Announced s)
  root : RootAgrees s.root s.strategyEnding s.finalResult s.main
  reports : ∀ source res, .report source res ∈ s.inFlight → res ≠ .unknown
  stops : ∀ r ret, .stop r ret ∈ s.inFlight → r ≠ 0 ∧ Announced s ret
  broadcast : ∀ b, s.broadcast = some b → Announced s b
  logged : s.main ≠ .polling → s.broadcast.isSome = true
  sent : ∀ v ∈ s.sent, Announced s v
  tested : s.main = .testingUnsat → verdict s ≠ .sat
  printed : ∀ w, s.printed = some w → s.main = .done ∧ Announced s w
  done : s.main = .done → s.printed.isSome = true

theorem AgreementInvariant.agreement {s : State n} (hs : AgreementInvariant s) :
    Agreement s := by
  intro w hw
  obtain ⟨-, hmain, rfl⟩ := hs.printed w hw
  obtain ⟨b, hb⟩ := Option.isSome_iff_exists.mp (hs.logged hmain)
  obtain ⟨-, rfl⟩ := hs.broadcast b hb
  exact ⟨hb, fun v hv => (hs.sent v hv).2, fun r hr => ((hs.ranks r).stopped (Or.inr hr)).2.2⟩

theorem AgreementInvariant.ending {s : State n} (hs : AgreementInvariant s)
    (hmain : s.main ≠ .polling) : s.root.globalEnding = true :=
  (Bool.not_eq_false _).mp fun h => hmain (hs.root.undecided h).2

theorem RankAgrees.mono {r : Fin (n + 1)} {x : Rank n} {P Q : SatResult → Prop}
    (h : RankAgrees r x P) (hPQ : ∀ v, P v → Q v) : RankAgrees r x Q :=
  { h with
    stop := fun ret hret => ⟨(h.stop ret hret).1, hPQ _ (h.stop ret hret).2⟩
    stopped := fun hstopped => ⟨(h.stopped hstopped).1, hPQ _ (h.stopped hstopped).2⟩ }

/-- A step of the root that sends nothing: the values sent before stay the
verdict, since the verdict changes only before the first of them. -/
theorem AgreementInvariant.changeRoot {s t : State n} (hs : AgreementInvariant s)
    (hothers : ∀ r, r ≠ 0 → t.ranks r = s.ranks r) (hmain : t.main = s.main)
    (hinFlight : t.inFlight = s.inFlight) (hbroadcast : t.broadcast = s.broadcast)
    (hsent : t.sent = s.sent) (hprinted : t.printed = s.printed)
    (hverdict : s.main = .polling ∨ verdict t = verdict s)
    (hrank : RankAgrees 0 t.root (Announced t))
    (hroot : RootAgrees t.root t.strategyEnding t.finalResult t.main) :
    AgreementInvariant t := by
  have hannounced (v : SatResult) (hv : Announced s v) : Announced t v :=
    ⟨hmain ▸ hv.1, hv.2.trans (hverdict.resolve_left hv.1).symm⟩
  refine ⟨fun r => ?_, hroot, hinFlight ▸ hs.reports, ?_, ?_, ?_, ?_, ?_, ?_, ?_⟩
  · by_cases hr : r = 0
    · exact hr ▸ hrank
    · rw [hothers r hr]
      exact (hs.ranks r).mono hannounced
  · rw [hinFlight]
    exact fun r ret hm => ⟨(hs.stops r ret hm).1, hannounced _ (hs.stops r ret hm).2⟩
  · rw [hbroadcast]
    exact fun b hb => hannounced b (hs.broadcast b hb)
  · rw [hmain, hbroadcast]
    exact hs.logged
  · rw [hsent]
    exact fun v hv => hannounced v (hs.sent v hv)
  · rw [hmain]
    intro htesting
    have hsame := hverdict.resolve_left (by rw [htesting]; exact nofun)
    rw [hsame]
    exact hs.tested htesting
  · rw [hprinted, hmain]
    exact fun w hw => ⟨(hs.printed w hw).1, hannounced w (hs.printed w hw).2⟩
  · rw [hprinted, hmain]
    exact hs.done

/-- A step of one rank that leaves the verdict as it is. -/
theorem AgreementInvariant.setRank {s : State n} (hs : AgreementInvariant s)
    (r : Fin (n + 1)) (x : Rank n) (hx : RankAgrees r x (Announced s))
    (hroot : r = 0 → RootAgrees x s.strategyEnding s.finalResult s.main)
    (hpending : r = 0 → pending x.comm = pending s.root.comm) :
    AgreementInvariant (s.setRank r x) := by
  by_cases hr : r = 0
  · subst hr
    have hx0 := State.setRank_root s x
    have hverdict : verdict (s.setRank 0 x) = verdict s := by
      unfold verdict verdictOf
      rw [hx0, hpending rfl]
      rfl
    refine hs.changeRoot (fun q hq => State.setRank_of_ne s 0 x hq) rfl rfl rfl rfl rfl
      (Or.inr hverdict) ?_ ?_
    · rw [hx0]
      exact hx.mono fun v hv => ⟨hv.1, hv.2.trans hverdict.symm⟩
    · rw [hx0]
      exact hroot rfl
  · have hsame := State.setRank_root_of_ne s r x hr
    have hannounced : Announced (s.setRank r x) = Announced s := by
      unfold Announced verdict
      rw [hsame]
      rfl
    have hverdict : verdict (s.setRank r x) = verdict s := by
      unfold verdict
      rw [hsame]
      rfl
    refine ⟨fun q => ?_, hsame ▸ hs.root, hs.reports, ?_, ?_, hs.logged, ?_, ?_, ?_, hs.done⟩
    · rw [hannounced]
      by_cases hq : q = r
      · rw [hq, State.setRank_self]
        exact hx
      · rw [State.setRank_of_ne s r x hq]
        exact hs.ranks q
    · rw [hannounced]
      exact hs.stops
    · rw [hannounced]
      exact hs.broadcast
    · rw [hannounced]
      exact hs.sent
    · rw [hverdict]
      exact hs.tested
    · rw [hannounced]
      exact hs.printed

theorem AgreementInvariant.setInFlight {s : State n} (hs : AgreementInvariant s)
    {l : List (Message n)} (h : l ⊆ s.inFlight) : AgreementInvariant { s with inFlight := l } :=
  { hs with
    reports := fun source res hm => hs.reports source res (h hm)
    stops := fun r ret hm => hs.stops r ret (h hm) }

/-! ### The solver threads -/

theorem agrees_localJoin {s : State n} (hs : AgreementInvariant s) (r : Fin (n + 1))
    (res : SatResult) : AgreementInvariant (localJoin s r res) := by
  unfold localJoin
  split_ifs with h
  · exact hs
  obtain ⟨-, hknown⟩ := not_or.mp h
  refine hs.setRank r _ { hs.ranks r with reporting := fun q hq => ?_ } ?_ ?_
  · rcases List.mem_append.mp hq with hq | hq
    · exact (hs.ranks r).reporting q hq
    · rw [List.mem_singleton.mp hq]
      exact hknown
  · rintro rfl
    exact { hs.root with }
  · rintro rfl
    rfl

theorem agrees_testRes {s t : State n} (hs : AgreementInvariant s) (r : Fin (n + 1)) (i : ℕ)
    (h : testRes s r i = some t) : AgreementInvariant t := by
  obtain ⟨currRes, hcurr, rfl⟩ := Option.map_eq_some_iff.mp h
  have hrank := hs.ranks r
  have hknown := hrank.reporting currRes (List.mem_of_getElem? hcurr)
  have hrest (res : SatResult) (hm : res ∈ (s.ranks r).reporting.eraseIdx i) : res ≠ .unknown :=
    hrank.reporting res (List.mem_of_mem_eraseIdx hm)
  dsimp only
  split_ifs
  · refine hs.setRank r _ { hrank with reporting := hrest } ?_ ?_
    · rintro rfl
      exact { hs.root with }
    · rintro rfl
      rfl
  · refine hs.setRank r _ { hrank with reporting := hrest, writing := fun q hq => ?_ } ?_ ?_
    · rcases List.mem_append.mp hq with hq | hq
      · exact hrank.writing q hq
      · rw [List.mem_singleton.mp hq]
        exact hknown
    · rintro rfl
      exact { hs.root with }
    · rintro rfl
      rfl

/-- A result is written to res of the root, the one it holds if that is settled. -/
theorem RootAgrees.write {x : Rank n} {strategyEnding : Bool} {final : SatResult}
    {main : MainPc n} (h : RootAgrees x strategyEnding final main) {res : SatResult}
    (hknown : res ≠ .unknown)
    (hok : reads main = true ∧ (x.globalEnding = true ∨ (pending x.comm).isSome = true ∨
      (called x.comm).isSome = true) → res = x.res) :
    RootAgrees { x with res := res } strategyEnding final main := by
  refine { h with stored := fun _ => hknown, argument := ?_, settled := ?_ }
  · intro q hq hending
    have hreads : reads main = true := by
      rw [(h.undecided hending).2]
      rfl
    have hcalled : (called x.comm).isSome = true := Option.isSome_iff_exists.mpr ⟨q, hq⟩
    exact (hok ⟨hreads, Or.inr (Or.inr hcalled)⟩).trans (h.argument q hq hending)
  · intro hreads hdecided
    exact (hok ⟨hreads, hdecided.imp_right Or.inl⟩).trans (h.settled hreads hdecided)

theorem agrees_writeRes {s t : State n} (hs : AgreementInvariant s) (r : Fin (n + 1)) (i : ℕ)
    (hok : Timely s (.write r i)) (h : writeRes s r i = some t) : AgreementInvariant t := by
  obtain ⟨currRes, hcurr, rfl⟩ := Option.map_eq_some_iff.mp h
  have hrank := hs.ranks r
  have hknown := hrank.writing currRes (List.mem_of_getElem? hcurr)
  have hwritten : AgreementInvariant (s.setRank r { s.ranks r with
      res := currRes, writing := (s.ranks r).writing.eraseIdx i }) := by
    refine hs.setRank r _ { hrank with writing := ?_, stopped := fun hstopped => ?_ } ?_ ?_
    · exact fun res hm => hrank.writing res (List.mem_of_mem_eraseIdx hm)
    · obtain ⟨hr, hannounced⟩ := hrank.stopped hstopped
      refine ⟨hr, ?_⟩
      rw [hok (by rw [Settled, if_neg hr]; exact hstopped) currRes hcurr]
      exact hannounced
    · rintro rfl
      have hsettled := hs.root.write hknown fun h =>
        hok (by rwa [Settled, if_pos rfl]) currRes hcurr
      exact { hsettled with }
    · rintro rfl
      rfl
  refine { hwritten with reports := fun source res hm => ?_, stops := fun q ret hm => ?_ }
  · rcases List.mem_append.mp hm with hm | hm
    · exact hs.reports source res hm
    · obtain ⟨-, rfl⟩ := Message.report.inj (List.mem_singleton.mp hm)
      exact hknown
  · rcases List.mem_append.mp hm with hm | hm
    · exact hwritten.stops q ret hm
    · cases List.mem_singleton.mp hm

/-! ### The communicator -/

/-- The root's communicator moves on with its message, before the tests of
Portfolio::join have been passed. -/
theorem AgreementInvariant.goto {s : State n} (hs : AgreementInvariant s) {p : CommPc n}
    (hnone : pending s.root.comm = none) (hpending : pending p = none)
    (hstop : p ≠ .stopEnding ∧ ∀ ret, p ≠ .stop ret)
    (hknown : ∀ res, carried p = some res → res ≠ .unknown)
    (hstored : p = .call → s.root.res ≠ .unknown)
    (hcalled : ∀ res, called p = some res → s.root.globalEnding = false → s.root.res = res) :
    AgreementInvariant (s.setRank 0 { s.root with comm := p }) := by
  have hroot := hs.root
  have hverdict : verdictOf { s.root with comm := p } s.finalResult =
      verdictOf s.root s.finalResult := by
    unfold verdictOf
    rw [hpending, hnone]
  refine hs.setRank 0 _ ?_ (fun _ => ?_) (fun _ => hpending.trans hnone.symm)
  · refine { hs.ranks 0 with foreign := fun h => absurd rfl h, stop := ?_, stopped := ?_ }
    · exact fun ret hret => absurd hret (hstop.2 ret)
    · exact fun h => (hs.ranks 0).stopped (h.imp_left fun hp => absurd hp hstop.1)
  · refine { hroot with known := hknown, stored := hstored, argument := hcalled,
                        strategy := ?_, unwritten := ?_, ending := ?_, settled := ?_ }
    · intro hstrategy
      refine (hroot.strategy hstrategy).imp_right ?_
      rintro ⟨res, hres⟩
      rw [hres] at hnone
      cases hnone
    · rw [show pending ({ s.root with comm := p } : Rank n).comm = none from hpending]
      exact nofun
    · rintro res rfl
      cases hpending
    · rw [show pending ({ s.root with comm := p } : Rank n).comm = none from hpending, hverdict]
      exact fun hreads hdecided => hroot.settled hreads (hdecided.imp_right nofun)

theorem agrees_receive {s t : State n} (hs : AgreementInvariant s) (k : ℕ)
    (h : receive s k = some t) : AgreementInvariant t := by
  unfold receive at h
  split at h
  · cases h
  rename_i m hm
  dsimp only at h
  have hmem := List.mem_of_getElem? hm
  have htaken := hs.setInFlight (List.eraseIdx_subset (l := s.inFlight) (k := k))
  split_ifs at h with hbusy hending
  · exact Option.some.inj h ▸ htaken
  obtain rfl := Option.some.inj h
  have hidle : (s.ranks m.destination).comm = .idle := not_not.mp (not_or.mp hbusy).2
  cases m with
  | report source result =>
    have hnone : pending s.root.comm = none := congrArg pending hidle
    refine htaken.goto hnone rfl ⟨nofun, nofun⟩ ?_ nofun nofun
    exact fun res hres => Option.some.inj hres ▸ hs.reports source result hmem
  | stop r ret =>
    obtain ⟨hr, hannounced⟩ := hs.stops r ret hmem
    refine htaken.setRank r _ ?_ (fun h => absurd h hr) (fun h => absurd h hr)
    refine { hs.ranks r with foreign := fun _ => ⟨rfl, nofun⟩, stop := ?_, stopped := ?_ }
    · exact fun q hq => CommPc.stop.inj hq ▸ ⟨hr, hannounced⟩
    · exact fun hstopped => (hs.ranks r).stopped (hstopped.imp_left nofun)

/-- Portfolio::join has passed its tests: the verdict is known from here on. -/
theorem agrees_setStrategy {s : State n} (hs : AgreementInvariant s) {res : SatResult}
    (hcomm : s.root.comm = .join res) (hstrategy : s.strategyEnding = false)
    (hending : s.root.globalEnding = false) :
    AgreementInvariant (s.setRank 0 { s.root with comm := .setStrategy res }) := by
  have hroot := hs.root
  obtain ⟨hfinal, hmain⟩ := hroot.undecided hending
  have hres : s.root.res = res := hroot.argument res (by rw [hcomm]; rfl) hending
  have hx := State.setRank_root s { s.root with comm := .setStrategy res }
  refine hs.changeRoot (fun q hq => State.setRank_of_ne s 0 _ hq) rfl rfl rfl rfl rfl
    (Or.inl hmain) ?_ ?_
  · rw [hx]
    refine { hs.ranks 0 with foreign := fun h => absurd rfl h, stop := nofun, stopped := ?_ }
    exact fun h => absurd rfl ((hs.ranks 0).stopped (h.imp_left nofun)).1
  · rw [hx]
    refine { hroot with known := ?_, stored := nofun, argument := nofun, strategy := ?_,
                        unwritten := fun _ => hfinal, ending := nofun, settled := ?_ }
    · exact fun q hq => hroot.known q (by rw [hcomm]; exact hq)
    · intro h
      rw [show s.strategyEnding = true from h] at hstrategy
      cases hstrategy
    · exact fun _ _ => hres

/-- A write of Portfolio::join leaves the verdict as it is. -/
theorem AgreementInvariant.joining {s t : State n} (hs : AgreementInvariant s) {res : SatResult}
    (hres : pending s.root.comm = some res) (hothers : ∀ r, r ≠ 0 → t.ranks r = s.ranks r)
    (hmain : t.main = s.main) (hinFlight : t.inFlight = s.inFlight)
    (hbroadcast : t.broadcast = s.broadcast) (hsent : t.sent = s.sent)
    (hprinted : t.printed = s.printed) (hverdict : verdict t = res)
    (hrank : RankAgrees 0 t.root (Announced s))
    (hroot : RootAgrees t.root t.strategyEnding t.finalResult t.main) :
    AgreementInvariant t := by
  have hold : verdict s = res := by rw [verdict, verdictOf, hres, Option.getD_some]
  refine hs.changeRoot hothers hmain hinFlight hbroadcast hsent hprinted
    (Or.inr (hverdict.trans hold.symm)) (hrank.mono fun v hv => ?_) hroot
  exact ⟨hmain ▸ hv.1, hv.2.trans (hold.trans hverdict.symm)⟩

theorem agrees_setEnding {s : State n} (hs : AgreementInvariant s) {res : SatResult}
    (hcomm : s.root.comm = .setStrategy res) :
    AgreementInvariant { s.setRank 0 { s.root with comm := .setEnding res } with
      strategyEnding := true } := by
  have hroot := hs.root
  have hres : pending s.root.comm = some res := by rw [hcomm]; rfl
  have hx := State.setRank_root s { s.root with comm := .setEnding res }
  refine hs.joining hres (fun q hq => State.setRank_of_ne s 0 _ hq) rfl rfl rfl rfl rfl ?_ ?_ ?_
  · exact congrArg (fun x => verdictOf x s.finalResult) hx
  · refine hx.symm ▸ { hs.ranks 0 with foreign := fun h => absurd rfl h, stop := nofun,
                                       stopped := ?_ }
    exact fun h => (hs.ranks 0).stopped (h.imp_left nofun)
  · refine hx.symm ▸ { hroot with known := ?_, stored := nofun, argument := nofun,
                                  strategy := fun _ => Or.inr ⟨res, rfl⟩, unwritten := ?_,
                                  ending := nofun, settled := ?_ }
    · exact fun q hq => hroot.known q (by rw [hcomm]; exact hq)
    · exact fun _ => hroot.unwritten (by rw [hres]; rfl)
    · intro hreads _
      have hsame := hroot.settled hreads (Or.inr (by rw [hres]; rfl))
      rwa [verdictOf, hres] at hsame

theorem agrees_setResult {s : State n} (hs : AgreementInvariant s) {res : SatResult}
    (hcomm : s.root.comm = .setEnding res) :
    AgreementInvariant (s.setRank 0 { s.root with
      globalEnding := true, comm := .setResult res }) := by
  have hroot := hs.root
  have hres : pending s.root.comm = some res := by rw [hcomm]; rfl
  have hx := State.setRank_root s { s.root with globalEnding := true, comm := .setResult res }
  refine hs.joining hres (fun q hq => State.setRank_of_ne s 0 _ hq) rfl rfl rfl rfl rfl ?_ ?_ ?_
  · exact congrArg (fun x => verdictOf x s.finalResult) hx
  · refine hx.symm ▸ { hs.ranks 0 with foreign := fun h => absurd rfl h, stop := nofun,
                                       stopped := ?_ }
    exact fun h => (hs.ranks 0).stopped (h.imp_left nofun)
  · refine hx.symm ▸ { hroot with known := ?_, stored := nofun, argument := nofun,
                                  undecided := nofun, strategy := fun _ => Or.inl rfl,
                                  unwritten := ?_, ending := fun _ _ => rfl, settled := ?_ }
    · exact fun q hq => hroot.known q (by rw [hcomm]; exact hq)
    · exact fun _ => hroot.unwritten (by rw [hres]; rfl)
    · intro hreads _
      have hsame := hroot.settled hreads (Or.inr (by rw [hres]; rfl))
      rwa [verdictOf, hres] at hsame

theorem agrees_joined {s : State n} (hs : AgreementInvariant s) {res : SatResult}
    (hcomm : s.root.comm = .setResult res) :
    AgreementInvariant { s.setRank 0 { s.root with comm := .idle } with finalResult := res } := by
  have hroot := hs.root
  have hres : pending s.root.comm = some res := by rw [hcomm]; rfl
  have hending := hroot.ending res hcomm
  have hx := State.setRank_root s { s.root with comm := .idle }
  refine hs.joining hres (fun q hq => State.setRank_of_ne s 0 _ hq) rfl rfl rfl rfl rfl ?_ ?_ ?_
  · exact congrArg (fun x => verdictOf x res) hx
  · refine hx.symm ▸ { hs.ranks 0 with foreign := fun h => absurd rfl h, stop := nofun,
                                       stopped := ?_ }
    exact fun h => (hs.ranks 0).stopped (h.imp_left nofun)
  · refine hx.symm ▸ { hroot with known := nofun, stored := nofun, argument := nofun,
                                  undecided := ?_, strategy := fun _ => Or.inl hending,
                                  unwritten := nofun, ending := nofun, settled := ?_ }
    · intro h
      rw [show s.root.globalEnding = false from h] at hending
      cases hending
    · intro hreads _
      have hsame := hroot.settled hreads (Or.inr (by rw [hres]; rfl))
      rwa [verdictOf, hres] at hsame

/-- The root's communicator writes the reported result to res. -/
theorem agrees_store {s : State n} (hs : AgreementInvariant s) {res : SatResult}
    (hcomm : s.root.comm = .store res) (hok : Settled s 0 → res = s.root.res) :
    AgreementInvariant (s.setRank 0 { s.root with res := res, comm := .call }) := by
  have hknown := hs.root.known res (by rw [hcomm]; rfl)
  have hnone : pending s.root.comm = none := by rw [hcomm]; rfl
  have hwritten : AgreementInvariant (s.setRank 0 { s.root with res := res }) := by
    refine hs.setRank 0 _ { hs.ranks 0 with stopped := fun h => ?_ } (fun _ => ?_) fun _ => rfl
    · exact absurd rfl ((hs.ranks 0).stopped h).1
    · exact hs.root.write hknown fun h => hok (by rwa [Settled, if_pos rfl])
  have hx := State.setRank_root s { s.root with res := res }
  have hcalled := hwritten.goto (p := .call) (by rw [hx]; exact hnone) rfl ⟨nofun, nofun⟩ nofun
    (fun _ => by rw [hx]; exact hknown) nofun
  rwa [hx, State.setRank_setRank] at hcalled

/-- STOP writes res and then globalEnding of a rank other than the root. -/
theorem agrees_stop {s : State n} (hs : AgreementInvariant s) {r : Fin (n + 1)} {x : Rank n}
    (hr : r ≠ 0) (hreporting : x.reporting = (s.ranks r).reporting)
    (hwriting : x.writing = (s.ranks r).writing) (hcomm : x.comm = .stopEnding ∨ x.comm = .idle)
    (hres : Announced s x.res) : AgreementInvariant (s.setRank r x) := by
  refine hs.setRank r x ⟨?_, ?_, fun _ => ?_, ?_, fun _ => ⟨hr, hres⟩⟩ (fun h => absurd h hr)
    (fun h => absurd h hr)
  · exact hreporting ▸ (hs.ranks r).reporting
  · exact hwriting ▸ (hs.ranks r).writing
  · rcases hcomm with hp | hp <;> rw [hp] <;> exact ⟨rfl, nofun⟩
  · rcases hcomm with hp | hp <;> rw [hp] <;> exact nofun

/-- Only the root handles a REPORT. -/
theorem AgreementInvariant.at_root {s : State n} (hs : AgreementInvariant s) {r : Fin (n + 1)}
    (h : carried (s.ranks r).comm ≠ none ∨ (s.ranks r).comm = .call) : r = 0 := by
  by_contra hr
  obtain ⟨hcarried, hcall⟩ := (hs.ranks r).foreign hr
  exact h.elim (fun h => h hcarried) hcall

theorem agrees_handle {s t : State n} (hs : AgreementInvariant s) (r : Fin (n + 1))
    (hok : Timely s (.handle r)) (h : handle s r = some t) : AgreementInvariant t := by
  unfold handle at h
  cases hcomm : (s.ranks r).comm with
  | idle => simp [hcomm] at h
  | report source result =>
    obtain rfl := hs.at_root (r := r) (Or.inl (by rw [hcomm]; exact nofun))
    simp only [hcomm, Option.some.injEq] at h
    subst h
    have hknown := hs.root.known result (by rw [show s.root.comm = _ from hcomm]; rfl)
    refine hs.goto (congrArg pending hcomm) ?_ ?_ ?_ ?_ ?_ <;> split_ifs
    · rfl
    · rfl
    · exact ⟨nofun, nofun⟩
    · exact ⟨nofun, nofun⟩
    · exact nofun
    · exact fun res hres => Option.some.inj hres ▸ hknown
    all_goals exact nofun
  | store res =>
    obtain rfl := hs.at_root (r := r) (Or.inl (by rw [hcomm]; exact nofun))
    simp only [hcomm, Option.some.injEq] at h
    exact h ▸ agrees_store hs hcomm fun hsettled => hok hsettled res hcomm
  | call =>
    obtain rfl := hs.at_root (r := r) (Or.inr hcomm)
    simp only [hcomm, Option.some.injEq] at h
    subst h
    refine hs.goto (congrArg pending hcomm) rfl ⟨nofun, nofun⟩ ?_ nofun ?_
    · exact fun res hres => Option.some.inj hres ▸ hs.root.stored hcomm
    · exact fun res hres _ => Option.some.inj hres
  | dispatch res =>
    obtain rfl := hs.at_root (r := r) (Or.inl (by rw [hcomm]; exact nofun))
    simp only [hcomm, Option.some.injEq] at h
    subst h
    have hroot : s.root.comm = .dispatch res := hcomm
    split_ifs
    · exact hs.goto (congrArg pending hcomm) rfl ⟨nofun, nofun⟩ nofun nofun nofun
    · refine hs.goto (congrArg pending hcomm) rfl ⟨nofun, nofun⟩ ?_ nofun ?_
      · exact fun q hq => hs.root.known q (by rw [hroot]; exact hq)
      · exact fun q hq => hs.root.argument q (by rw [hroot]; exact hq)
  | join res =>
    obtain rfl := hs.at_root (r := r) (Or.inl (by rw [hcomm]; exact nofun))
    simp only [hcomm, Option.some.injEq] at h
    subst h
    split_ifs with hrefused
    · exact hs.goto (congrArg pending hcomm) rfl ⟨nofun, nofun⟩ nofun nofun nofun
    · obtain ⟨-, hrest⟩ := not_or.mp hrefused
      obtain ⟨hstrategy, hending⟩ := not_or.mp hrest
      exact agrees_setStrategy hs hcomm ((Bool.not_eq_true _).mp hstrategy)
        ((Bool.not_eq_true _).mp hending)
  | setStrategy res =>
    obtain rfl := hs.at_root (r := r) (Or.inl (by rw [hcomm]; exact nofun))
    simp only [hcomm, Option.some.injEq] at h
    exact h ▸ agrees_setEnding hs hcomm
  | setEnding res =>
    obtain rfl := hs.at_root (r := r) (Or.inl (by rw [hcomm]; exact nofun))
    simp only [hcomm, Option.some.injEq] at h
    exact h ▸ agrees_setResult hs hcomm
  | setResult res =>
    obtain rfl := hs.at_root (r := r) (Or.inl (by rw [hcomm]; exact nofun))
    simp only [hcomm, Option.some.injEq] at h
    exact h ▸ agrees_joined hs hcomm
  | stop ret =>
    obtain ⟨hr, hannounced⟩ := (hs.ranks r).stop ret hcomm
    simp only [hcomm, Option.some.injEq] at h
    exact h ▸ agrees_stop hs hr rfl rfl (Or.inl rfl) hannounced
  | stopEnding =>
    obtain ⟨hr, hannounced⟩ := (hs.ranks r).stopped (Or.inl hcomm)
    simp only [hcomm, Option.some.injEq] at h
    exact h ▸ agrees_stop hs hr rfl rfl (Or.inr rfl) hannounced

/-! ### The main threads -/

theorem agrees_timeout {s : State n} (hs : AgreementInvariant s) (r : Fin (n + 1))
    (hok : Timely s (.timeout r)) (hmain : r = 0 → s.main = .polling) :
    AgreementInvariant (timeout s r) := by
  refine hs.setRank r _ { hs.ranks r with } ?_ (by rintro rfl; rfl)
  rintro rfl
  have hroot := hs.root
  refine { hroot with alive := ⟨by simp, hroot.alive.2⟩, argument := nofun, undecided := nofun,
                      strategy := fun _ => Or.inl rfl, ending := fun _ _ => rfl,
                      settled := fun hreads _ => ?_ }
  -- the root ends with what it has in both copies
  by_cases hdecided : s.root.globalEnding = true ∨ (pending s.root.comm).isSome = true
  · exact hroot.settled hreads hdecided
  · obtain ⟨hending, hnone⟩ := not_or.mp hdecided
    have hnone := Option.not_isSome_iff_eq_none.mp hnone
    have hending := (Bool.not_eq_true _).mp hending
    have hfinal : verdictOf s.root s.finalResult = .unknown := by
      rw [verdictOf, hnone, Option.getD_none, (hroot.undecided hending).1]
    exact (hok rfl hending hnone).trans hfinal.symm

theorem agrees_crash {s : State n} (hs : AgreementInvariant s) (r : Fin (n + 1))
    (h : (s.ranks r).interrupting = true) :
    AgreementInvariant (s.setRank r { s.ranks r with crashed := true }) := by
  have hr : r ≠ 0 := by
    rintro rfl
    have hfalse := hs.root.alive.1
    rw [show s.root.interrupting = true from h] at hfalse
    cases hfalse
  exact hs.setRank r _ { hs.ranks r with } (fun h => absurd h hr) fun h => absurd h hr

/-- The main thread moves on, and what has been announced stays so. -/
theorem AgreementInvariant.moveMain {s : State n} (hs : AgreementInvariant s) {t : State n}
    (hranks : t.ranks = s.ranks) (hstrategy : t.strategyEnding = s.strategyEnding)
    (hfinal : t.finalResult = s.finalResult) (hmain : t.main ≠ .polling)
    (hending : s.root.globalEnding = true) (hreads : reads t.main = true → reads s.main = true)
    (hreports : ∀ source res, .report source res ∈ t.inFlight → .report source res ∈ s.inFlight)
    (hstops : ∀ r ret, .stop r ret ∈ t.inFlight →
      .stop r ret ∈ s.inFlight ∨ r ≠ 0 ∧ ret = verdict s)
    (hbroadcast : t.broadcast = s.broadcast ∨ t.broadcast = some (verdict s))
    (hlogged : t.broadcast.isSome = true)
    (hsent : ∀ v ∈ t.sent, v ∈ s.sent ∨ v = verdict s)
    (htested : t.main = .testingUnsat → verdict s ≠ .sat)
    (hprinted : ∀ w, t.printed = some w → t.main = .done ∧ w = verdict s)
    (hdone : t.main = .done → t.printed.isSome = true) : AgreementInvariant t := by
  have hroot : t.root = s.root := congrFun hranks 0
  have hverdict : verdict t = verdict s := by
    unfold verdict
    rw [hroot, hfinal]
  have hannounced (v : SatResult) (hv : v = verdict s) : Announced t v :=
    ⟨hmain, hv.trans hverdict.symm⟩
  refine ⟨fun r => ?_, ?_, ?_, ?_, ?_, fun _ => hlogged, ?_, ?_, ?_, hdone⟩
  · rw [hranks]
    exact (hs.ranks r).mono fun v hv => hannounced v hv.2
  · rw [hroot, hstrategy, hfinal]
    refine { hs.root with undecided := fun h => ?_, settled := fun h => ?_ }
    · rw [hending] at h
      cases h
    · exact hs.root.settled (hreads h)
  · exact fun source res hm => hs.reports source res (hreports source res hm)
  · intro r ret hm
    rcases hstops r ret hm with hold | ⟨hr, hret⟩
    · exact ⟨(hs.stops r ret hold).1, hannounced ret (hs.stops r ret hold).2.2⟩
    · exact ⟨hr, hannounced ret hret⟩
  · intro b hb
    rcases hbroadcast with hold | hnew
    · exact hannounced b (hs.broadcast b (hold ▸ hb)).2
    · exact hannounced b (Option.some.inj (hb.symm.trans hnew))
  · intro v hv
    exact hannounced v ((hsent v hv).elim (fun hold => (hs.sent v hold).2) id)
  · rw [hverdict]
    exact htested
  · exact fun w hw => ⟨(hprinted w hw).1, hannounced w (hprinted w hw).2⟩

/-- Without a write in progress the verdict is finalResult. -/
theorem verdict_of_none {s : State n} (h : pending s.root.comm = none) :
    verdict s = s.finalResult := by
  rw [verdict, verdictOf, h, Option.getD_none]

theorem verdict_of_some {s : State n} {res : SatResult} (h : pending s.root.comm = some res) :
    verdict s = res := by
  rw [verdict, verdictOf, h, Option.getD_some]

theorem carried_of_pending {p : CommPc n} {res : SatResult} (h : pending p = some res) :
    carried p = some res := by
  cases p <;> first | exact h | cases h

theorem agrees_testingSat {s : State n} (hs : AgreementInvariant s) (hpc : s.main = .testingSat)
    (hok : pending s.root.comm ≠ some .sat) :
    AgreementInvariant (if s.finalResult = .sat then
      { s with printed := some .sat, main := .done } else { s with main := .testingUnsat }) := by
  have hmain : s.main ≠ .polling := by rw [hpc]; exact nofun
  have hlogged := hs.logged hmain
  have hprinted (w : SatResult) (hw : s.printed = some w) : s.main = .done := (hs.printed w hw).1
  split_ifs with hsat
  · have hverdict : verdict s = .sat := by
      cases hpending : pending s.root.comm with
      | none => rw [verdict_of_none hpending, hsat]
      | some res =>
        have hunknown := hs.root.unwritten (by rw [hpending]; rfl)
        rw [hsat] at hunknown
        cases hunknown
    refine hs.moveMain rfl rfl rfl nofun (hs.ending hmain) nofun (fun _ _ hm => hm)
      (fun _ _ hm => Or.inl hm) (Or.inl rfl) hlogged (fun _ hv => Or.inl hv) nofun ?_ fun _ => rfl
    exact fun w hw => ⟨rfl, (Option.some.inj hw).symm.trans hverdict.symm⟩
  · refine hs.moveMain rfl rfl rfl nofun (hs.ending hmain) nofun (fun _ _ hm => hm)
      (fun _ _ hm => Or.inl hm) (Or.inl rfl) hlogged (fun _ hv => Or.inl hv) (fun _ => ?_) ?_
      nofun
    · cases hpending : pending s.root.comm with
      | none => rwa [verdict_of_none hpending]
      | some res =>
        rw [verdict_of_some hpending]
        rintro rfl
        exact hok hpending
    · intro w hw
      cases hpc.symm.trans (hprinted w hw)

theorem agrees_testingUnsat {s : State n} (hs : AgreementInvariant s)
    (hpc : s.main = .testingUnsat) (hok : pending s.root.comm ≠ some .unsat) :
    AgreementInvariant { s with
      printed := some (if s.finalResult = .unsat then .unsat else .unknown), main := .done } := by
  have hmain : s.main ≠ .polling := by rw [hpc]; exact nofun
  have hnotSat := hs.tested hpc
  have hverdict : (if s.finalResult = .unsat then SatResult.unsat else .unknown) = verdict s := by
    cases hpending : pending s.root.comm with
    | none =>
      rw [verdict_of_none hpending] at hnotSat ⊢
      cases hfinal : s.finalResult <;> simp_all
    | some res =>
      -- no result that may be about to be written is left
      have hknown := hs.root.known res (carried_of_pending hpending)
      rw [verdict_of_some hpending] at hnotSat
      cases res <;> simp_all
  refine hs.moveMain rfl rfl rfl nofun (hs.ending hmain) nofun (fun _ _ hm => hm)
    (fun _ _ hm => Or.inl hm) (Or.inl rfl) (hs.logged hmain) (fun _ hv => Or.inl hv) nofun ?_
    fun _ => rfl
  exact fun w hw => ⟨rfl, (Option.some.inj hw).symm.trans hverdict⟩

theorem agrees_mainStep {s t : State n} (hs : AgreementInvariant s) (hok : Timely s .main)
    (h : mainStep s = some t) : AgreementInvariant t := by
  have hunprinted (hne : s.main ≠ .done) (w : SatResult) : s.printed ≠ some w :=
    fun hw => hne (hs.printed w hw).1
  unfold mainStep at h
  split at h
  case h_1 hpc =>
    obtain ⟨hending, ht⟩ := Option.ite_none_right_eq_some.mp h
    obtain rfl := Option.some.inj ht
    have hres := hs.root.settled (by rw [hpc]; rfl) (Or.inl hending)
    refine hs.moveMain rfl rfl rfl nofun hending (fun _ => by rw [hpc]; rfl) (fun _ _ hm => hm)
      (fun _ _ hm => Or.inl hm) (Or.inr (congrArg some hres)) rfl (fun _ hv => Or.inl hv) nofun ?_
      nofun
    exact fun w hw => absurd hw (hunprinted (by rw [hpc]; exact nofun) w)
  case h_2 hpc =>
    obtain rfl := Option.some.inj h
    have hmain : s.main ≠ .polling := by rw [hpc]; exact nofun
    refine hs.moveMain rfl rfl rfl nofun (hs.ending hmain) nofun (fun _ _ hm => hm)
      (fun _ _ hm => Or.inl hm) (Or.inl rfl) (hs.logged hmain) (fun _ hv => Or.inl hv) nofun ?_
      nofun
    exact fun w hw => absurd hw (hunprinted (by rw [hpc]; exact nofun) w)
  case h_3 => cases h
  case h_4 hpc =>
    obtain rfl : _ = t := Option.some.inj ((apply_ite some _ _ _).trans h)
    exact agrees_testingSat hs hpc (hok.1 hpc)
  case h_5 hpc =>
    obtain rfl := Option.some.inj h
    exact agrees_testingUnsat hs hpc (hok.2 hpc)
  case h_6 => cases h

theorem agrees_send {s t : State n} (hs : AgreementInvariant s) (i : Fin n)
    (h : send s i = some t) : AgreementInvariant t := by
  unfold send at h
  split at h
  case h_2 => cases h
  case h_1 rest hpc =>
    obtain ⟨hi, ht⟩ := Option.ite_none_right_eq_some.mp h
    obtain rfl := Option.some.inj ht
    have hmain : s.main ≠ .polling := by rw [hpc]; exact nofun
    have hreads : reads s.main = true := by
      rw [hpc]
      cases rest with
      | nil => cases hi
      | cons => rfl
    have hres : s.root.res = verdict s := hs.root.settled hreads (Or.inl (hs.ending hmain))
    refine hs.moveMain rfl rfl rfl nofun (hs.ending hmain) (fun _ => hreads) ?_ ?_ (Or.inl rfl)
      (hs.logged hmain) ?_ nofun ?_ nofun
    · intro source res hm
      exact (List.mem_append.mp hm).resolve_right fun hnew => by
        cases List.mem_singleton.mp hnew
    · intro r ret hm
      refine (List.mem_append.mp hm).imp_right fun hnew => ?_
      obtain ⟨rfl, rfl⟩ := Message.stop.inj (List.mem_singleton.mp hnew)
      exact ⟨Fin.succ_ne_zero i, hres⟩
    · exact fun v hv => (List.mem_append.mp hv).imp_right fun hnew =>
        (List.mem_singleton.mp hnew).trans hres
    · intro w hw
      cases hpc.symm.trans (hs.printed w hw).1

theorem agrees_step {s t : State n} {a : Action n} (hs : AgreementInvariant s)
    (hok : Timely s a) (h : step s a = some t) : AgreementInvariant t := by
  cases a with
  | answer r res =>
    obtain ⟨-, ht⟩ := Option.ite_none_left_eq_some.mp h
    exact Option.some.inj ht ▸ agrees_localJoin hs r res
  | test r i => exact agrees_testRes hs r i (Option.ite_none_left_eq_some.mp h).2
  | write r i => exact agrees_writeRes hs r i hok (Option.ite_none_left_eq_some.mp h).2
  | receive k => exact agrees_receive hs k h
  | handle r => exact agrees_handle hs r hok (Option.ite_none_left_eq_some.mp h).2
  | timeout r =>
    obtain ⟨hlive, ht⟩ := Option.ite_none_left_eq_some.mp h
    refine Option.some.inj ht ▸ agrees_timeout hs r hok fun hr => ?_
    exact not_not.mp fun hmain => hlive (Or.inr ⟨hr, hmain⟩)
  | crash r =>
    obtain ⟨hinterrupting, ht⟩ := Option.ite_none_right_eq_some.mp h
    exact Option.some.inj ht ▸ agrees_crash hs r hinterrupting
  | main => exact agrees_mainStep hs hok h
  | send i => exact agrees_send hs i h

theorem agrees_reach {s : State n} (hs : (machine n).Reach Timely s) :
    AgreementInvariant s := by
  refine hs.invariant AgreementInvariant ?_ fun _ _ _ _ hinv hok h => agrees_step hinv hok h
  rintro s rfl
  refine ⟨fun r => ⟨nofun, nofun, fun _ => ⟨rfl, nofun⟩, nofun, nofun⟩, ?_, nofun, nofun, nofun,
    fun h => absurd rfl h, nofun, nofun, nofun, nofun⟩
  exact ⟨⟨rfl, rfl⟩, nofun, nofun, nofun, fun _ => ⟨rfl, rfl⟩, nofun, nofun, nofun, fun _ _ => rfl⟩

end Painless.ResultCopies
