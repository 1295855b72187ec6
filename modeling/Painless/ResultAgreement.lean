import Painless.ResultCopies

/-!
The two copies of the verdict are equal, at the root and at every rank that has
handled STOP, exactly if no timeout falls between the report at the root and the
tests of Portfolio::join, no res is written over once the verdict is settled, and
finalResult is not tested for the very result that is about to be written. After
any other step the run can go on to print what it has not broadcast.
-/
namespace Painless.ResultAgreement

open Transitions SolverInterface ResultWrites ResultCopies

variable {n : ℕ}

/-! ### A step that is not timely -/

/-- Some continuation that meets the condition ends without agreement. -/
def Disagrees (s : State n) : Prop :=
  ∃ as u, (machine n).Meets Timely s as ∧ (machine n).run s as = some u ∧ ¬ Agreement u

theorem Disagrees.step {s t : State n} {a : Action n} (ht : Disagrees t) (hok : Timely s a)
    (h : ResultWrites.step s a = some t) : Disagrees s := by
  obtain ⟨as, u, hmeets, hrun, hu⟩ := ht
  refine ⟨a :: as, u, ⟨hok, fun t' ht' => ?_⟩, ?_, hu⟩
  · obtain rfl : t = t' := Option.some.inj (h.symm.trans ht')
    exact hmeets
  · rw [Machine.run_cons, show (machine n).step s a = some t from h, Option.bind_some]
    exact hrun

/-- Something that has been sent, or is still to be sent, is not the verdict. -/
def Discord (s : State n) : Prop :=
  (reads s.main = true ∧ s.root.res ≠ verdict s) ∨
    (∃ b, s.broadcast = some b ∧ b ≠ verdict s) ∨ (∃ v ∈ s.sent, v ≠ verdict s) ∨
    ∃ r, (s.ranks r).stopped = true ∧ (s.ranks r).res ≠ verdict s

theorem Discord.mono {s t : State n} (h : Discord s) (hverdict : verdict t = verdict s)
    (hranks : ∀ r, (t.ranks r).res = (s.ranks r).res ∧
      (t.ranks r).stopped = (s.ranks r).stopped)
    (hbroadcast : ∀ b, s.broadcast = some b → t.broadcast = some b) (hsent : s.sent ⊆ t.sent)
    (hreads : reads s.main = true → s.root.res ≠ verdict s → Discord t) : Discord t := by
  rcases h with ⟨hmain, hres⟩ | ⟨b, hb, hne⟩ | ⟨v, hv, hne⟩ | ⟨r, hr, hne⟩
  · exact hreads hmain hres
  · exact Or.inr (Or.inl ⟨b, hbroadcast b hb, hverdict ▸ hne⟩)
  · exact Or.inr (Or.inr (Or.inl ⟨v, hsent hv, hverdict ▸ hne⟩))
  · refine Or.inr (Or.inr (Or.inr ⟨r, (hranks r).2.trans hr, ?_⟩))
    rw [(hranks r).1, hverdict]
    exact hne

/-- The main thread prints the verdict once it gets to it. -/
structure Ready (s : State n) : Prop where
  alive : s.root.crashed = false
  unlogged : s.main = .polling → s.broadcast = none
  tested : s.main = .testingUnsat → verdict s ≠ .sat
  printed : s.main = .done → s.printed = some (verdict s)

theorem ready_of_agrees {s : State n} (hs : AgreementInvariant s) : Ready s where
  alive := hs.root.alive.2
  unlogged hpolling := by
    refine Option.eq_none_iff_forall_ne_some.mpr fun b hb => ?_
    exact (hs.broadcast b hb).1 hpolling
  tested := hs.tested
  printed hdone := by
    obtain ⟨w, hw⟩ := Option.isSome_iff_exists.mp (hs.done hdone)
    exact hw.trans (congrArg some (hs.printed w hw).2.2)

section Ending

variable {s : State n}

theorem done_disagrees (hready : Ready s) (hmain : s.main = .done) (hdiscord : Discord s) :
    Disagrees s := by
  refine ⟨[], s, trivial, rfl, fun hagree => ?_⟩
  obtain ⟨hbroadcast, hsent, hstopped⟩ := hagree _ (hready.printed hmain)
  rcases hdiscord with ⟨hreads, -⟩ | ⟨b, hb, hne⟩ | ⟨v, hv, hne⟩ | ⟨r, hr, hne⟩
  · rw [hmain] at hreads
    cases hreads
  · exact hne (Option.some.inj (hb.symm.trans hbroadcast))
  · exact hne (hsent v hv)
  · exact hne (hstopped r hr)

theorem timely_main (hnone : pending s.root.comm = none) : Timely s .main := by
  simp [Timely, hnone]

theorem testingUnsat_disagrees (hready : Ready s) (hnone : pending s.root.comm = none)
    (hmain : s.main = .testingUnsat) (hdiscord : Discord s) : Disagrees s := by
  have hfinal := verdict_of_none hnone
  have hprints : (if s.finalResult = .unsat then SatResult.unsat else .unknown) = verdict s := by
    have hnotSat := hready.tested hmain
    rw [hfinal] at hnotSat ⊢
    cases hres : s.finalResult <;> simp_all
  refine Disagrees.step (a := .main) (t := { s with
    printed := some (if s.finalResult = .unsat then .unsat else .unknown), main := .done })
    ?_ (timely_main hnone) ?_
  · refine done_disagrees ⟨hready.alive, nofun, nofun, fun _ => congrArg some hprints⟩ rfl ?_
    refine hdiscord.mono rfl (fun _ => ⟨rfl, rfl⟩) (fun _ hb => hb) (fun _ hv => hv) ?_
    rw [hmain]
    exact nofun
  · simp only [step, mainStep, hmain]

theorem testingSat_disagrees (hready : Ready s) (hnone : pending s.root.comm = none)
    (hmain : s.main = .testingSat) (hdiscord : Discord s) : Disagrees s := by
  have hfinal := verdict_of_none hnone
  have hnoRead (t : State n) (h : reads s.main = true) : Discord t := by
    rw [hmain] at h
    cases h
  by_cases hsat : s.finalResult = .sat
  · refine Disagrees.step (a := .main) (t := { s with printed := some .sat, main := .done })
      ?_ (timely_main hnone) ?_
    · refine done_disagrees ⟨hready.alive, nofun, nofun, fun _ => ?_⟩ rfl ?_
      · exact congrArg some (hsat.symm.trans hfinal.symm)
      · exact hdiscord.mono rfl (fun _ => ⟨rfl, rfl⟩) (fun _ hb => hb) (fun _ hv => hv)
          fun h _ => hnoRead _ h
    · simp only [step, mainStep, hmain, hsat, if_true]
  · refine Disagrees.step (a := .main) (t := { s with main := .testingUnsat })
      ?_ (timely_main hnone) ?_
    · refine testingUnsat_disagrees ⟨hready.alive, nofun, fun _ => ?_, nofun⟩ hnone rfl ?_
      · exact fun h => hsat (hfinal.symm.trans h)
      · exact hdiscord.mono rfl (fun _ => ⟨rfl, rfl⟩) (fun _ hb => hb) (fun _ hv => hv)
          fun h _ => hnoRead _ h
    · simp only [step, mainStep, hmain, hsat, if_false]

/-- Each STOP that is still to be sent carries res. -/
theorem sending_disagrees (hready : Ready s) (hnone : pending s.root.comm = none)
    {rest : List (Fin n)} (hmain : s.main = .sending rest) (hdiscord : Discord s) :
    Disagrees s := by
  induction rest generalizing s with
  | nil =>
    refine Disagrees.step (a := .main) (t := { s with main := .testingSat })
      ?_ (timely_main hnone) ?_
    · refine testingSat_disagrees ⟨hready.alive, nofun, nofun, nofun⟩ hnone rfl ?_
      refine hdiscord.mono rfl (fun _ => ⟨rfl, rfl⟩) (fun _ hb => hb) (fun _ hv => hv) ?_
      rw [hmain]
      exact nofun
    · simp only [step, mainStep, hmain]
  | cons i rest ih =>
    have hsend : step s (.send i) = some { s with
        sent := s.sent ++ [s.root.res]
        inFlight := s.inFlight ++ [.stop i.succ s.root.res]
        main := .sending rest } := by
      simp only [step, send, hmain, List.mem_cons_self, if_true, List.erase_cons_head]
    refine Disagrees.step (a := .send i) ?_ trivial hsend
    refine ih ⟨hready.alive, nofun, nofun, nofun⟩ hnone rfl ?_
    refine hdiscord.mono rfl (fun _ => ⟨rfl, rfl⟩) (fun _ hb => hb)
      (List.subset_append_left _ _) fun _ hres => ?_
    have hlast : s.root.res ∈ s.sent ++ [s.root.res] := by simp
    exact Or.inr (Or.inr (Or.inl ⟨_, hlast, hres⟩))

theorem ending_disagrees (hready : Ready s) (hnone : pending s.root.comm = none)
    (hending : s.root.globalEnding = true) (hdiscord : Discord s) : Disagrees s := by
  cases hmain : s.main with
  | polling =>
    have hleave : step s .main = some { s with
        broadcast := some s.root.res, main := .sending (List.finRange n) } := by
      simp only [step, mainStep, hmain, hending, if_true]
    refine Disagrees.step ?_ (timely_main hnone) hleave
    refine sending_disagrees ⟨hready.alive, nofun, nofun, nofun⟩ hnone rfl ?_
    refine hdiscord.mono rfl (fun _ => ⟨rfl, rfl⟩) (fun b hb => ?_) (fun _ hv => hv)
      fun _ hres => Or.inr (Or.inl ⟨_, rfl, hres⟩)
    rw [hready.unlogged hmain] at hb
    cases hb
  | sending rest => exact sending_disagrees hready hnone hmain hdiscord
  | testingSat => exact testingSat_disagrees hready hnone hmain hdiscord
  | testingUnsat => exact testingUnsat_disagrees hready hnone hmain hdiscord
  | done => exact done_disagrees hready hmain hdiscord

/-- The root's communicator moves, and leaves the verdict as it is. -/
theorem handled_disagrees {t : State n} (hready : Ready s) (hdiscord : Discord s)
    (hstore : ∀ res, s.root.comm ≠ .store res) (hhandle : handle s 0 = some t)
    (hlive : t.root.crashed = false) (hmain : t.main = s.main)
    (hbroadcast : t.broadcast = s.broadcast) (hsent : t.sent = s.sent)
    (hprinted : t.printed = s.printed) (hverdict : verdict t = verdict s)
    (hranks : ∀ r, (t.ranks r).res = (s.ranks r).res ∧
      (t.ranks r).stopped = (s.ranks r).stopped)
    (ht : Ready t → Discord t → Disagrees t) : Disagrees s := by
  have hnotCrashed : ¬ (s.ranks 0).crashed = true := (Bool.not_eq_true _).mpr hready.alive
  refine Disagrees.step (a := .handle 0) (ht ?_ ?_) (fun _ res hres => absurd hres (hstore res))
    ((if_neg hnotCrashed).trans hhandle)
  · refine ⟨hlive, ?_, ?_, ?_⟩
    · rw [hmain, hbroadcast]
      exact hready.unlogged
    · rw [hmain, hverdict]
      exact hready.tested
    · rw [hmain, hprinted, hverdict]
      exact hready.printed
  · refine hdiscord.mono hverdict hranks (hbroadcast ▸ fun _ hb => hb)
      (hsent ▸ List.Subset.refl _) fun hreads hres => ?_
    exact Or.inl ⟨hmain ▸ hreads, by rw [hverdict]; exact (hranks 0).1 ▸ hres⟩

theorem setRank_kept (x : Rank n) (hres : x.res = s.root.res)
    (hstopped : x.stopped = s.root.stopped) (r : Fin (n + 1)) :
    ((s.setRank 0 x).ranks r).res = (s.ranks r).res ∧
      ((s.setRank 0 x).ranks r).stopped = (s.ranks r).stopped := by
  by_cases hr : r = 0
  · rw [hr, State.setRank_self]
    exact ⟨hres, hstopped⟩
  · rw [State.setRank_of_ne s 0 x hr]
    exact ⟨rfl, rfl⟩

theorem setResult_disagrees (hready : Ready s) (hending : s.root.globalEnding = true)
    {res : SatResult} (hcomm : s.root.comm = .setResult res) (hdiscord : Discord s) :
    Disagrees s := by
  have hx := State.setRank_root s { s.root with comm := .idle }
  have hold : verdict s = res := verdict_of_some (by rw [hcomm]; rfl)
  refine handled_disagrees (t := { s.setRank 0 { s.root with comm := .idle } with
    finalResult := res }) hready hdiscord (by rw [hcomm]; exact nofun) ?_ ?_ rfl rfl rfl rfl ?_
    (setRank_kept _ rfl rfl) fun ht hd => ?_
  · simp only [handle, show (s.ranks 0).comm = _ from hcomm]
    rfl
  · exact (congrArg Rank.crashed hx).trans hready.alive
  · exact (verdict_of_none (congrArg (fun x => pending x.comm) hx)).trans hold.symm
  · exact ending_disagrees ht (congrArg (fun x => pending x.comm) hx)
      ((congrArg Rank.globalEnding hx).trans hending) hd

theorem setEnding_disagrees (hready : Ready s) {res : SatResult}
    (hcomm : s.root.comm = .setEnding res) (hdiscord : Discord s) : Disagrees s := by
  have hx := State.setRank_root s { s.root with globalEnding := true, comm := .setResult res }
  have hold : verdict s = res := verdict_of_some (by rw [hcomm]; rfl)
  refine handled_disagrees (t := s.setRank 0 { s.root with
    globalEnding := true, comm := .setResult res }) hready hdiscord
    (by rw [hcomm]; exact nofun) ?_ ?_ rfl rfl rfl rfl ?_ (setRank_kept _ rfl rfl) fun ht hd => ?_
  · simp only [handle, show (s.ranks 0).comm = _ from hcomm]
    rfl
  · exact (congrArg Rank.crashed hx).trans hready.alive
  · exact (verdict_of_some (congrArg (fun x => pending x.comm) hx)).trans hold.symm
  · exact setResult_disagrees ht (congrArg Rank.globalEnding hx) (congrArg Rank.comm hx) hd

theorem setStrategy_disagrees (hready : Ready s) {p : SatResult}
    (hcomm : s.root.comm = .setStrategy p) (hdiscord : Discord s) : Disagrees s := by
  have hx := State.setRank_root s { s.root with comm := .setEnding p }
  have hold : verdict s = p := verdict_of_some (by rw [hcomm]; rfl)
  refine handled_disagrees (t := { s.setRank 0 { s.root with comm := .setEnding p } with
    strategyEnding := true }) hready hdiscord (by rw [hcomm]; exact nofun) ?_ ?_ rfl rfl rfl rfl ?_
    (setRank_kept _ rfl rfl) fun ht hd => ?_
  · simp only [handle, show (s.ranks 0).comm = _ from hcomm]
    rfl
  · exact (congrArg Rank.crashed hx).trans hready.alive
  · exact (verdict_of_some (congrArg (fun x => pending x.comm) hx)).trans hold.symm
  · exact setEnding_disagrees ht (congrArg Rank.comm hx) hd

/-- Once the root has ended, or its verdict is about to be written. -/
theorem decided_disagrees (hready : Ready s)
    (hdecided : s.root.globalEnding = true ∨ (pending s.root.comm).isSome = true)
    (hending : ∀ res, s.root.comm = .setResult res → s.root.globalEnding = true)
    (hdiscord : Discord s) : Disagrees s := by
  cases hcomm : s.root.comm with
  | setStrategy res => exact setStrategy_disagrees hready hcomm hdiscord
  | setEnding res => exact setEnding_disagrees hready hcomm hdiscord
  | setResult res => exact setResult_disagrees hready (hending res hcomm) hcomm hdiscord
  | _ =>
    have hnone : pending s.root.comm = none := by rw [hcomm]; rfl
    refine ending_disagrees hready hnone (hdecided.resolve_right ?_) hdiscord
    rw [hnone]
    exact nofun

end Ending

/-! ### The steps that the condition refuses -/

section Refused

variable {s t : State n}

/-- Portfolio::join is called with a result that is not in res any more. -/
theorem join_disagrees (hready : Ready s) (hmain : s.main = .polling)
    (hstrategy : s.strategyEnding = false) (hending : s.root.globalEnding = false)
    {res : SatResult} (hknown : res ≠ .unknown) (hcomm : s.root.comm = .join res)
    (hres : s.root.res ≠ res) : Disagrees s := by
  have hx := State.setRank_root s { s.root with comm := .setStrategy res }
  have hhandle : handle s 0 = some (s.setRank 0 { s.root with comm := .setStrategy res }) := by
    have hpasses : ¬ (res = .unknown ∨ s.strategyEnding = true ∨
        (s.ranks 0).globalEnding = true) := by
      rintro (h | h | h)
      · exact hknown h
      · cases hstrategy.symm.trans h
      · cases hending.symm.trans h
    rw [handle_join hcomm, if_neg hpasses]
    rfl
  refine Disagrees.step (a := .handle 0) ?_ (fun _ q hq => ?_)
    ((if_neg ((Bool.not_eq_true _).mpr hready.alive)).trans hhandle)
  · have hverdict : verdict (s.setRank 0 { s.root with comm := .setStrategy res }) = res :=
      verdict_of_some (congrArg (fun x => pending x.comm) hx)
    refine setStrategy_disagrees (p := res) ⟨?_, hready.unlogged, fun h => ?_, fun h => ?_⟩
      (congrArg Rank.comm hx) (Or.inl ⟨?_, ?_⟩)
    · exact (congrArg Rank.crashed hx).trans hready.alive
    · cases hmain.symm.trans h
    · cases hmain.symm.trans h
    · exact congrArg reads hmain
    · rw [hverdict, congrArg Rank.res hx]
      exact hres
  · cases hcomm.symm.trans hq

theorem dispatch_disagrees (hready : Ready s) (hmain : s.main = .polling)
    (hstrategy : s.strategyEnding = false) (hending : s.root.globalEnding = false)
    {res : SatResult} (hknown : res ≠ .unknown) (hcomm : s.root.comm = .dispatch res)
    (hres : s.root.res ≠ res) : Disagrees s := by
  have hx := State.setRank_root s { s.root with comm := .join res }
  have hhandle : handle s 0 = some (s.setRank 0 { s.root with comm := .join res }) := by
    have hopen : ¬ (s.ranks 0).globalEnding = true := (Bool.not_eq_true _).mpr hending
    rw [handle_dispatch hcomm, if_neg hopen]
    rfl
  refine Disagrees.step (a := .handle 0) ?_ (fun _ q hq => ?_)
    ((if_neg ((Bool.not_eq_true _).mpr hready.alive)).trans hhandle)
  · refine join_disagrees ⟨?_, hready.unlogged, fun h => ?_, fun h => ?_⟩ hmain hstrategy
      ((congrArg Rank.globalEnding hx).trans hending) hknown (congrArg Rank.comm hx) ?_
    · exact (congrArg Rank.crashed hx).trans hready.alive
    · cases hmain.symm.trans h
    · cases hmain.symm.trans h
    · rw [congrArg Rank.res hx]
      exact hres
  · cases hcomm.symm.trans hq

/-- A solver thread of the root writes over the settled verdict. -/
theorem overwritten_disagrees (hs : AgreementInvariant s) (hready : Ready t) {res : SatResult}
    {writing : List SatResult}
    (hroot : t.root = { s.root with res := res, writing := writing }) (hmain : t.main = s.main)
    (hstrategy : t.strategyEnding = s.strategyEnding) (hfinal : t.finalResult = s.finalResult)
    (hsettled : Settled s 0) (hres : res ≠ s.root.res) : Disagrees t := by
  rw [Settled, if_pos rfl] at hsettled
  obtain ⟨hreads, hwhen⟩ := hsettled
  have hcomm : t.root.comm = s.root.comm := by rw [hroot]
  have hending : t.root.globalEnding = s.root.globalEnding := by rw [hroot]
  have hwritten : t.root.res = res := by rw [hroot]
  have hverdict : verdict t = verdict s := by
    unfold verdict verdictOf
    rw [hcomm, hfinal]
  by_cases hdecided : s.root.globalEnding = true ∨ (pending s.root.comm).isSome = true
  · refine decided_disagrees hready (by rwa [hending, hcomm]) ?_ (Or.inl ⟨by rwa [hmain], ?_⟩)
    · rw [hending, hcomm]
      exact hs.root.ending
    · rw [hwritten, hverdict, verdict, ← hs.root.settled hreads hdecided]
      exact hres
  · obtain ⟨hnotEnding, -⟩ := not_or.mp hdecided
    have hnotEnding := (Bool.not_eq_true _).mp hnotEnding
    have hpolling := (hs.root.undecided hnotEnding).2
    obtain ⟨q, hq⟩ := Option.isSome_iff_exists.mp
      ((hwhen.resolve_left fun h => hdecided (Or.inl h)).resolve_left
        fun h => hdecided (Or.inr h))
    have hold : s.root.res = q := hs.root.argument q hq hnotEnding
    have hne : t.root.res ≠ q := by rwa [hwritten, ← hold]
    have hflag : t.strategyEnding = false := by
      refine (Bool.not_eq_true _).mp fun h => ?_
      rcases hs.root.strategy (hstrategy.symm.trans h) with h | ⟨p, hp⟩
      · cases hnotEnding.symm.trans h
      · rw [hp] at hq
        cases hq
    cases hp : s.root.comm with
    | dispatch p =>
      obtain rfl : p = q := Option.some.inj ((congrArg called hp).symm.trans hq)
      exact dispatch_disagrees hready (hmain.trans hpolling) hflag (hending.trans hnotEnding)
        (hs.root.known p (by rw [hp]; rfl)) (hcomm.trans hp) hne
    | join p =>
      obtain rfl : p = q := Option.some.inj ((congrArg called hp).symm.trans hq)
      exact join_disagrees hready (hmain.trans hpolling) hflag (hending.trans hnotEnding)
        (hs.root.known p (by rw [hp]; rfl)) (hcomm.trans hp) hne
    | _ =>
      rw [hp] at hq
      cases hq

theorem Ready.of_root (hready : Ready s) (hroot : t.root = s.root) (hmain : t.main = s.main)
    (hfinal : t.finalResult = s.finalResult) (hbroadcast : t.broadcast = s.broadcast)
    (hprinted : t.printed = s.printed) : Ready t := by
  have hverdict : verdict t = verdict s := by rw [verdict, hroot, hfinal, verdict]
  refine ⟨hroot ▸ hready.alive, ?_, ?_, ?_⟩
  · rw [hmain, hbroadcast]
    exact hready.unlogged
  · rw [hmain, hverdict]
    exact hready.tested
  · rw [hmain, hprinted, hverdict]
    exact hready.printed

/-- A solver thread of another rank writes over what STOP has written. -/
theorem stopped_disagrees (hs : AgreementInvariant s) {r : Fin (n + 1)} (hr : r ≠ 0)
    {x : Rank n} (hlive : x.crashed = false) (hmain : s.main ≠ .polling)
    (hstopped : x.comm = .stopEnding ∨ x.stopped = true) (hres : x.res ≠ verdict s)
    (l : List (Message n)) : Disagrees { s.setRank r x with inFlight := l } := by
  have hdone (y : Rank n) (hy : y.stopped = true) (hne : y.res ≠ verdict s) :
      Disagrees { s.setRank r y with inFlight := l } := by
    have hroot : ({ s.setRank r y with inFlight := l } : State n).root = s.root :=
      State.setRank_root_of_ne s r y hr
    have hverdict : verdict { s.setRank r y with inFlight := l } = verdict s := by
      rw [verdict, hroot]
      rfl
    refine decided_disagrees ((ready_of_agrees hs).of_root hroot rfl rfl rfl rfl)
      (Or.inl ?_) (fun _ _ => ?_) (Or.inr (Or.inr (Or.inr ⟨r, ?_, ?_⟩)))
    · rw [hroot]
      exact hs.ending hmain
    · rw [hroot]
      exact hs.ending hmain
    · exact (congrArg Rank.stopped (State.setRank_self s r y)).trans hy
    · rw [hverdict, show ({ s.setRank r y with inFlight := l } : State n).ranks r = y from
        State.setRank_self s r y]
      exact hne
  rcases hstopped with hcomm | hstopped
  · have hx : ({ s.setRank r x with inFlight := l } : State n).ranks r = x :=
      State.setRank_self s r x
    have hhandle := handle_stopEnding (s := { s.setRank r x with inFlight := l }) (r := r)
      (by rw [hx]; exact hcomm)
    refine Disagrees.step (a := .handle r) (t := { s.setRank r { x with
      globalEnding := true, stopped := true, comm := .idle } with inFlight := l })
      (hdone _ rfl hres) (fun _ q hq => ?_) ?_
    · rw [hx, hcomm] at hq
      cases hq
    · have hnotCrashed : ¬ (({ s.setRank r x with inFlight := l } : State n).ranks r).crashed =
          true := by
        rw [hx, hlive]
        exact Bool.false_ne_true
      refine (if_neg hnotCrashed).trans (hhandle.trans ?_)
      rw [hx]
      exact congrArg (fun u : State n => some { u with inFlight := l })
        (State.setRank_setRank s r x _)
  · exact hdone x hstopped hres

theorem late_write_disagrees (hs : AgreementInvariant s) {r : Fin (n + 1)} {i : ℕ}
    (hlive : (s.ranks r).crashed = false) (hbad : ¬ Timely s (.write r i))
    (h : writeRes s r i = some t) : Disagrees t := by
  simp only [Timely, not_forall] at hbad
  obtain ⟨hsettled, res, hmem, hres⟩ := hbad
  obtain ⟨currRes, hcurr, rfl⟩ := Option.map_eq_some_iff.mp h
  obtain rfl : currRes = res := Option.some.inj (hcurr.symm.trans hmem)
  have hready := ready_of_agrees hs
  by_cases hr : r = 0
  · subst hr
    have hx := State.setRank_root s { s.root with
      res := currRes, writing := (s.ranks 0).writing.eraseIdx i }
    have hverdict : verdict s = verdictOf { s.root with
        res := currRes, writing := (s.ranks 0).writing.eraseIdx i } s.finalResult := rfl
    rw [← hx] at hverdict
    refine overwritten_disagrees hs ⟨?_, hready.unlogged, ?_, ?_⟩ hx rfl rfl rfl hsettled hres
    · exact (congrArg Rank.crashed hx).trans hlive
    · exact fun hmain hsat => hready.tested hmain (hverdict.trans hsat)
    · exact fun hmain => (hready.printed hmain).trans (congrArg some hverdict)
  · rw [Settled, if_neg hr] at hsettled
    obtain ⟨-, hmain, hold⟩ := (hs.ranks r).stopped hsettled
    refine stopped_disagrees hs hr ?_ hmain ?_ ?_ _
    · exact hlive
    · exact hsettled
    · exact fun hsame => hres (hsame.trans hold.symm)

/-- The root's communicator writes the result of a report over the verdict with
which the root has ended. -/
theorem late_store_disagrees (hs : AgreementInvariant s) {r : Fin (n + 1)}
    (hbad : ¬ Timely s (.handle r)) (h : handle s r = some t) : Disagrees t := by
  simp only [Timely, not_forall] at hbad
  obtain ⟨hsettled, res, hcomm, hres⟩ := hbad
  obtain rfl := hs.at_root (r := r) (Or.inl (by rw [hcomm]; exact nofun))
  have hroot : s.root.comm = .store res := hcomm
  have hnone : pending s.root.comm = none := by rw [hroot]; rfl
  rw [Settled, if_pos rfl, hroot] at hsettled
  obtain ⟨hreads, hwhen⟩ := hsettled
  have hending : s.root.globalEnding = true := hwhen.resolve_right (by rintro (h | h) <;> cases h)
  simp only [handle, hcomm, Option.some.injEq] at h
  subst h
  have hx := State.setRank_root s { s.root with res := res, comm := .call }
  have hverdict : verdict (s.setRank 0 { s.root with res := res, comm := .call }) = verdict s :=
    (verdict_of_none (congrArg (fun x => pending x.comm) hx)).trans (verdict_of_none hnone).symm
  have hready := ready_of_agrees hs
  refine ending_disagrees ⟨?_, hready.unlogged, ?_, ?_⟩ (congrArg (fun x => pending x.comm) hx)
    ((congrArg Rank.globalEnding hx).trans hending) (Or.inl ⟨hreads, ?_⟩)
  · exact (congrArg Rank.crashed hx).trans hready.alive
  · exact fun hmain hsat => hready.tested hmain (hverdict.symm.trans hsat)
  · exact fun hmain => (hready.printed hmain).trans (congrArg some hverdict.symm)
  · have hold : s.root.res = verdict s := hs.root.settled hreads (Or.inl hending)
    intro hsame
    exact hres ((congrArg Rank.res hx).symm.trans (hsame.trans (hverdict.trans hold.symm)))

theorem late_timeout_disagrees (hs : AgreementInvariant s) {r : Fin (n + 1)}
    (hpolling : r = 0 → s.main = .polling) (hbad : ¬ Timely s (.timeout r)) :
    Disagrees (timeout s r) := by
  simp only [Timely, not_forall] at hbad
  obtain ⟨rfl, hending, hnone, hres⟩ := hbad
  have hmain := hpolling rfl
  have hready := ready_of_agrees hs
  have hx := State.setRank_root s { s.root with
    globalEnding := true, interrupting := decide ((0 : Fin (n + 1)) ≠ 0) }
  have hcomm : pending (timeout s 0).root.comm = none :=
    (congrArg (fun x => pending x.comm) hx).trans hnone
  have hverdict : verdict (timeout s 0) = .unknown :=
    (verdict_of_none hcomm).trans (hs.root.undecided hending).1
  refine ending_disagrees ⟨?_, hready.unlogged, fun h => ?_, fun h => ?_⟩ hcomm
    (congrArg Rank.globalEnding hx) (Or.inl ⟨congrArg reads hmain, ?_⟩)
  · exact (congrArg Rank.crashed hx).trans hready.alive
  · cases hmain.symm.trans h
  · cases hmain.symm.trans h
  · rw [hverdict]
    exact fun hsame => hres ((congrArg Rank.res hx).symm.trans hsame)

/-- The main thread tests finalResult for the result that is about to be written,
and prints that the result is unknown. -/
theorem early_test_disagrees (hs : AgreementInvariant s) (hbad : ¬ Timely s .main)
    (h : mainStep s = some t) : Disagrees t := by
  have hlate {res : SatResult} (hpending : pending s.root.comm = some res)
      (hmain : s.main ≠ .polling) : s.finalResult = .unknown ∧ s.broadcast = some res := by
    refine ⟨hs.root.unwritten (by rw [hpending]; rfl), ?_⟩
    obtain ⟨b, hb⟩ := Option.isSome_iff_exists.mp (hs.logged hmain)
    rw [hb, (hs.broadcast b hb).2, verdict_of_some hpending]
  have hunknown (u : State n) {res : SatResult} (hprinted : u.printed = some .unknown)
      (hbroadcast : u.broadcast = some res) (hres : res ≠ .unknown) : Disagrees u := by
    refine ⟨[], u, trivial, rfl, fun hagree => hres ?_⟩
    exact Option.some.inj (hbroadcast.symm.trans (hagree _ hprinted).1)
  rcases not_and_or.mp hbad with hbad | hbad
  · simp only [not_forall, not_not] at hbad
    obtain ⟨hmain, hpending⟩ := hbad
    obtain ⟨hfinal, hbroadcast⟩ := hlate hpending (by rw [hmain]; exact nofun)
    obtain rfl : { s with main := .testingUnsat } = t := by
      simpa [mainStep, hmain, hfinal] using h
    refine Disagrees.step (a := .main) (t := { s with
      printed := some .unknown, main := .done }) ?_ ⟨nofun, fun _ => ?_⟩ ?_
    · exact hunknown _ rfl hbroadcast nofun
    · show pending s.root.comm ≠ some .unsat
      rw [hpending]
      exact nofun
    · simp [step, mainStep, hfinal]
  · simp only [not_forall, not_not] at hbad
    obtain ⟨hmain, hpending⟩ := hbad
    obtain ⟨hfinal, hbroadcast⟩ := hlate hpending (by rw [hmain]; exact nofun)
    obtain rfl : { s with printed := some .unknown, main := .done } = t := by
      simpa [mainStep, hmain, hfinal] using h
    exact hunknown _ rfl hbroadcast nofun

theorem untimely_disagrees {a : Action n} (hs : AgreementInvariant s) (hbad : ¬ Timely s a)
    (h : step s a = some t) : Disagrees t := by
  cases a with
  | write r i =>
    obtain ⟨hlive, ht⟩ := Option.ite_none_left_eq_some.mp h
    exact late_write_disagrees hs ((Bool.not_eq_true _).mp hlive) hbad ht
  | handle r => exact late_store_disagrees hs hbad (Option.ite_none_left_eq_some.mp h).2
  | timeout r =>
    obtain ⟨hlive, ht⟩ := Option.ite_none_left_eq_some.mp h
    refine Option.some.inj ht ▸ late_timeout_disagrees hs (fun hr => ?_) hbad
    exact not_not.mp fun hmain => hlive (Or.inr ⟨hr, hmain⟩)
  | main => exact early_test_disagrees hs hbad h
  | _ => exact absurd trivial hbad

end Refused

/-- In a run that meets the condition the printed verdict has been broadcast,
and is that of every rank that has handled STOP. A step meets the condition
exactly if this stays so in every continuation that does. -/
theorem agreement_iff (s : State n) (hs : (machine n).Reach Timely s) :
    Agreement s ∧ ∀ a t, step s a = some t →
      (Timely s a ↔ ∀ as u, (machine n).Meets Timely t as →
        (machine n).run t as = some u → Agreement u) := by
  refine ⟨(agrees_reach hs).agreement, fun a t h => ⟨?_, ?_⟩⟩
  · intro hok as u hmeets hrun
    have ht : (machine n).Reach Timely t := hs.step hok h
    exact (agrees_reach (ht.run as hmeets hrun)).agreement
  · intro hall
    by_contra hbad
    obtain ⟨as, u, hmeets, hrun, hu⟩ := untimely_disagrees (agrees_reach hs) hbad h
    exact hu (hall as u hmeets hrun)

/-- The second rank's answer is reported, joined, broadcast and printed, and both
ranks end with it. The root's own solver has answered as well, but too late for
its report to be made. -/
def agreedRun : List (Action 1) :=
  [.answer 1 .sat, .answer 0 .sat, .test 1 0, .write 1 0, .receive 0, .handle 0, .handle 0,
    .test 0 0, .handle 0, .handle 0, .handle 0, .handle 0, .handle 0, .handle 0, .main, .send 0,
    .receive 0, .handle 1, .handle 1, .main, .main]

def agreed : State 1 := ((machine 1).run (start 1) agreedRun).get (by decide)

theorem agreed_reach : (machine 1).Reach Timely agreed := by
  have hinit : (machine 1).Init (start 1) := rfl
  exact (Machine.Reach.init hinit).run agreedRun (by decide)
    (Option.some_get (by decide)).symm

theorem agreement_agreed : agreed.printed = some .sat ∧ (agreed.ranks 1).stopped = true ∧
    Agreement agreed :=
  ⟨by decide, by decide, (agreement_iff agreed agreed_reach).1⟩

/-- The root's solver answers, and the root times out before it handles its own
report. -/
def timeoutRun : List (Action 1) :=
  [.answer 0 .sat, .test 0 0, .write 0 0, .timeout 0, .main, .send 0, .receive 1, .handle 1,
    .handle 1, .main, .main, .main]

/-- The root prints that the result is unknown, and the other rank ends with
SATISFIABLE. -/
theorem timeout_between_copies :
    ∃ s : State 1, (machine 1).Reach (fun _ _ => True) s ∧ s.printed = some .unknown ∧
      s.broadcast = some .sat ∧ (s.ranks 1).stopped = true ∧ (s.ranks 1).res = .sat := by
  have hinit : (machine 1).Init (start 1) := rfl
  refine ⟨((machine 1).run (start 1) timeoutRun).get (by decide), ?_, by decide, by decide,
    by decide, by decide⟩
  exact @Machine.Reach.of_run _ _ _ _ _ hinit timeoutRun (Option.some_get (by decide)).symm

end Painless.ResultAgreement
