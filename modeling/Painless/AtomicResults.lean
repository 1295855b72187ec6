import Painless.ResultValidity
import Painless.ResultWrites
import Mathlib.Data.List.InsertIdx

/-!
The two models of the distributed portfolio. A run in which every report, every
handled message, the broadcast and the printing is one step is, apart from the models
of the formula, a run with one access of a shared variable a step: the one in which
nothing comes between the accesses that belong together.
-/
namespace Painless.AtomicResults

open SolverInterface ResultWrites
open Transitions (Machine)

variable {n : ℕ}

/-! ### The states between which the accesses stay together -/

def rankOf (x : DistributedPortfolio.Rank) : Rank n where
  res := x.res
  globalEnding := x.globalEnding
  reporting := x.reporting.map Prod.fst
  writing := []
  comm := .idle
  interrupting := x.crashed
  crashed := x.crashed
  stopped := x.stopped

/-- The first word of a REPORT is the code of a result. -/
def messageOf : DistributedPortfolio.Message n → Message n
  | .report source words => .report source ((words.head?.bind SatResult.ofCode).getD .unknown)
  | .stop r ret => .stop r ((SatResult.ofCode ret).getD .unknown)

def mainOf (s : DistributedPortfolio.State n) : MainPc n :=
  if s.broadcast = none then .polling else if s.printed = none then .testingSat else .done

/-- `sent` is what the STOP messages have been sent with. -/
def stateOf (s : DistributedPortfolio.State n) (sent : List SatResult) : State n where
  ranks := rankOf ∘ s.ranks
  strategyEnding := s.strategyEnding
  finalResult := s.finalResult
  main := mainOf s
  inFlight := s.inFlight.map messageOf
  broadcast := s.broadcast
  sent := sent
  printed := s.printed

/-- Some run leads from the one state to the other. -/
def Leads (t u : State n) : Prop := ∃ as, (machine n).run t as = some u

theorem Leads.refl (t : State n) : Leads t t := ⟨[], rfl⟩

theorem Leads.step {t u v : State n} {a : Action n} (h : step t a = some u) (hu : Leads u v) :
    Leads t v := by
  obtain ⟨as, hrun⟩ := hu
  refine ⟨a :: as, ?_⟩
  rw [Machine.run_cons, show (machine n).step t a = some u from h, Option.bind_some]
  exact hrun

theorem Leads.trans {t u v : State n} (h : Leads t u) (hu : Leads u v) : Leads t v := by
  obtain ⟨as, hrun⟩ := h
  obtain ⟨bs, hrest⟩ := hu
  refine ⟨as ++ bs, ?_⟩
  rw [Machine.run_append, hrun, Option.bind_some]
  exact hrest

theorem Leads.of_step {t u : State n} {a : Action n} (h : ResultWrites.step t a = some u) :
    Leads t u := .step h (.refl u)

@[simp] theorem stateOf_ranks (s : DistributedPortfolio.State n) (sent : List SatResult)
    (r : Fin (n + 1)) : (stateOf s sent).ranks r = rankOf (s.ranks r) := rfl

theorem stateOf_setRank (s : DistributedPortfolio.State n) (sent : List SatResult)
    (r : Fin (n + 1)) (x : DistributedPortfolio.Rank) :
    stateOf (s.setRank r x) sent = (stateOf s sent).setRank r (rankOf x) := by
  unfold stateOf State.setRank
  dsimp only
  rw [DistributedPortfolio.State.setRank_ranks, Function.comp_update]
  rfl

theorem stateOf_setRank_self (s : DistributedPortfolio.State n) (sent : List SatResult)
    (r : Fin (n + 1)) : (stateOf s sent).setRank r (rankOf (s.ranks r)) = stateOf s sent := by
  rw [← stateOf_ranks s sent r]
  unfold State.setRank
  rw [Function.update_eq_self]

theorem stateOf_inFlight (s : DistributedPortfolio.State n) (sent : List SatResult)
    (l : List (DistributedPortfolio.Message n)) :
    stateOf { s with inFlight := l } sent =
      { stateOf s sent with inFlight := l.map messageOf } := rfl

theorem stateOf_take (s : DistributedPortfolio.State n) (sent : List SatResult) (k : ℕ) :
    stateOf (s.take k) sent =
      { stateOf s sent with inFlight := (stateOf s sent).inFlight.eraseIdx k } := by
  rw [DistributedPortfolio.State.take, stateOf_inFlight, ← List.eraseIdx_map]
  rfl

theorem messageOf_destination (m : DistributedPortfolio.Message n) :
    (messageOf m).destination = m.destination := by
  cases m <;> rfl

/-! ### Accesses that stay together -/

section Together

variable {t : State n} {r : Fin (n + 1)}

/-- reportResult: the test of res, and the write where it passes. -/
theorem leads_report {i : ℕ} {currRes : SatResult} (hcrashed : (t.ranks r).crashed = false)
    (hwriting : (t.ranks r).writing = []) (hget : (t.ranks r).reporting[i]? = some currRes) :
    Leads t (if (t.ranks r).res ≠ .unknown then
        t.setRank r { t.ranks r with reporting := (t.ranks r).reporting.eraseIdx i }
      else
        { t.setRank r { t.ranks r with
            res := currRes, reporting := (t.ranks r).reporting.eraseIdx i } with
          inFlight := t.inFlight ++ [.report r currRes] }) := by
  have htest : step t (.test r i) = testRes t r i := if_neg (by simp [hcrashed])
  rw [testRes, hget, Option.map_some] at htest
  by_cases hres : (t.ranks r).res = .unknown
  · simp only [hres, ne_eq, not_true_eq_false, if_false, hwriting, List.nil_append] at htest ⊢
    refine .step htest (.of_step (a := .write r 0) ?_)
    simp [step, writeRes, hcrashed, State.setRank]
  · simp only [ne_eq, hres, not_false_eq_true, if_true] at htest ⊢
    exact .of_step htest

variable {b : State n} {x : Rank n}

theorem leads_handle {u v : State n} (hcrashed : (t.ranks r).crashed = false)
    (h : handle t r = some u) (hu : Leads u v) : Leads t v := by
  refine .step (a := .handle r) ?_ hu
  rw [← h]
  exact if_neg (by simp [hcrashed])

theorem leads_stop {ret : SatResult} (hcrashed : x.crashed = false) :
    Leads (b.setRank r { x with comm := .stop ret }) (b.setRank r { x with
      res := ret, globalEnding := true, stopped := true, comm := .idle }) := by
  refine leads_handle (u := b.setRank r { x with res := ret, comm := .stopEnding })
    (r := r) (by simp [hcrashed]) (by simp [handle]) ?_
  exact leads_handle (r := r) (by simp [hcrashed]) (by simp [handle]) (.refl _)

/-- Portfolio::join, from its test on. -/
theorem leads_join {res : SatResult} (hcrashed : x.crashed = false)
    (hglobal : x.globalEnding = false) :
    Leads (b.setRank r { x with comm := .join res })
      (if res = .unknown ∨ b.strategyEnding = true then b.setRank r { x with comm := .idle }
      else { b.setRank r { x with globalEnding := true, comm := .idle } with
        strategyEnding := true
        finalResult := res }) := by
  by_cases hdrop : res = .unknown ∨ b.strategyEnding = true
  · rw [if_pos hdrop]
    refine leads_handle (r := r) (by simp [hcrashed]) ?_ (.refl _)
    have hstrategy (y : Rank n) : (b.setRank r y).strategyEnding = b.strategyEnding := rfl
    rcases hdrop with hdrop | hdrop <;> simp [handle, hstrategy, hdrop]
  · rw [if_neg hdrop]
    obtain ⟨hres, hopen⟩ := not_or.mp hdrop
    have hstrategy (y : Rank n) : (b.setRank r y).strategyEnding = b.strategyEnding := rfl
    refine leads_handle (u := b.setRank r { x with comm := .setStrategy res }) (r := r)
      (by simp [hcrashed]) (by simp [handle, hstrategy, hres, hopen, hglobal]) ?_
    refine leads_handle
      (u := { b with strategyEnding := true }.setRank r { x with comm := .setEnding res }) (r := r)
      (by simp [hcrashed]) (by simp only [handle, State.setRank_self, State.setRank_setRank]; rfl) ?_
    refine leads_handle (u := { b with strategyEnding := true }.setRank r
      { x with globalEnding := true, comm := .setResult res }) (r := r)
      (by simp [hcrashed]) (by simp [handle]) ?_
    refine leads_handle (r := r) (by simp [hcrashed]) ?_ (.refl _)
    simp only [handle, State.setRank_self, State.setRank_setRank]
    rfl

/-- The REPORT case of receiveIncomingMsg. -/
theorem leads_handleReport {source : Fin (n + 1)} {result : SatResult}
    (hcrashed : x.crashed = false) (hglobal : x.globalEnding = false) :
    Leads (b.setRank r { x with comm := .report source result })
      (if x.res ≠ .unknown ∧ source ≠ 0 then b.setRank r { x with comm := .idle }
      else if result = .unknown ∨ b.strategyEnding = true then
        b.setRank r { x with res := result, comm := .idle }
      else { b.setRank r { x with res := result, globalEnding := true, comm := .idle } with
        strategyEnding := true
        finalResult := result }) := by
  by_cases hdrop : x.res ≠ .unknown ∧ source ≠ 0
  · rw [if_pos hdrop]
    refine leads_handle (r := r) (by simp [hcrashed]) ?_ (.refl _)
    simp [handle, hdrop]
  · rw [if_neg hdrop]
    refine leads_handle (u := b.setRank r { x with comm := .store result }) (r := r)
      (by simp [hcrashed]) (by simp only [handle, State.setRank_self, if_neg hdrop,
        State.setRank_setRank]) ?_
    refine leads_handle (u := b.setRank r { x with res := result, comm := .call }) (r := r)
      (by simp [hcrashed]) (by simp [handle]) ?_
    refine leads_handle (u := b.setRank r { x with res := result, comm := .dispatch result })
      (r := r) (by simp [hcrashed]) (by simp [handle]) ?_
    refine leads_handle (u := b.setRank r { x with res := result, comm := .join result })
      (r := r) (by simp [hcrashed]) (by simp [handle, hglobal]) ?_
    exact leads_join (x := { x with res := result }) hcrashed hglobal

end Together

/-! ### The main thread -/

/-- updateWorkingStatus, message by message. -/
theorem leads_send (t : State n) (rest : List (Fin n)) (hnodup : rest.Nodup)
    (hmain : t.main = .sending rest) :
    Leads t { t with
      sent := t.sent ++ rest.map fun _ => t.root.res
      inFlight := t.inFlight ++ rest.map fun i => .stop i.succ t.root.res
      main := .sending [] } := by
  induction rest generalizing t with
  | nil =>
    simp only [List.map_nil, List.append_nil]
    rw [← hmain]
    exact .refl t
  | cons i rest ih =>
    obtain ⟨u, hu⟩ : ∃ u : State n, u = { t with
      sent := t.sent ++ [t.root.res]
      inFlight := t.inFlight ++ [.stop i.succ t.root.res]
      main := .sending rest } := ⟨_, rfl⟩
    have hsend : step t (.send i) = some u := by
      rw [hu]
      simp [step, send, hmain]
    have hrest := ih u (List.nodup_cons.mp hnodup).2 (by rw [hu])
    rw [hu] at hsend hrest
    rw [List.append_assoc, List.append_assoc] at hrest
    exact .step hsend hrest

theorem leads_broadcast {t : State n} (hmain : t.main = .polling)
    (hglobal : t.root.globalEnding = true) :
    Leads t { t with
      broadcast := some t.root.res
      sent := t.sent ++ (List.finRange n).map fun _ => t.root.res
      inFlight := t.inFlight ++ (List.finRange n).map fun i => .stop i.succ t.root.res
      main := .testingSat } := by
  have hlog : step t .main = some { t with
      broadcast := some t.root.res, main := .sending (List.finRange n) } := by
    simp [step, mainStep, hmain, hglobal]
  have hsend := leads_send { t with
    broadcast := some t.root.res, main := .sending (List.finRange n) } _ (List.nodup_finRange n) rfl
  exact .step hlog (hsend.trans (.of_step (a := .main) rfl))

theorem leads_print {t : State n} (hmain : t.main = .testingSat) :
    Leads t { t with printed := some t.finalResult, main := .done } := by
  cases hresult : t.finalResult with
  | sat => exact .of_step (a := .main) (by simp [step, mainStep, hmain, hresult])
  | unsat | unknown =>
    refine .step (a := .main) (u := { t with main := .testingUnsat })
      (by simp [step, mainStep, hmain, hresult]) ?_
    exact .of_step (a := .main) (by simp [step, mainStep, hresult])

/-- What has been printed has been broadcast. -/
def Ordered (s : DistributedPortfolio.State n) : Prop := s.broadcast = none → s.printed = none

/-! ### Whole steps -/

section Steps

variable {s u : DistributedPortfolio.State n} {sent : List SatResult} {r : Fin (n + 1)}

theorem leads_localJoin {res : SatResult} {model : List ℤ}
    (hcrashed : (s.ranks r).crashed = false) :
    Leads (stateOf s sent) (stateOf (DistributedPortfolio.localJoin s r res model) sent) := by
  have hstep : step (stateOf s sent) (.answer r res) = some (localJoin (stateOf s sent) r res) :=
    if_neg (by simp [rankOf, hcrashed])
  refine .of_step (hstep.trans ?_)
  unfold localJoin DistributedPortfolio.localJoin
  cases hglobal : (s.ranks r).globalEnding with
  | true =>
    rw [if_pos (Or.inl (by simp [rankOf, hglobal]))]
    rfl
  | false =>
    by_cases hres : res = .unknown
    · rw [if_pos (Or.inr hres)]
      simp only [Bool.false_eq_true, if_false, hres, ne_eq, not_true_eq_false]
      rfl
    · rw [if_neg (by simp [rankOf, hglobal, hres])]
      simp only [Bool.false_eq_true, if_false, ne_eq, hres, not_false_eq_true, if_true,
        stateOf_setRank, stateOf_ranks, rankOf, List.map_append, List.map_singleton]
      rfl

theorem leads_reportResult {i : ℕ} {p : SatResult × List ℤ}
    (hcrashed : (s.ranks r).crashed = false) (hp : (s.ranks r).reporting[i]? = some p) :
    Leads (stateOf s sent) (stateOf (DistributedPortfolio.reportResult
      (s.setRank r { s.ranks r with reporting := (s.ranks r).reporting.eraseIdx i }) r p.1 p.2)
      sent) := by
  have hget : ((stateOf s sent).ranks r).reporting[i]? = some p.1 := by simp [rankOf, hp]
  have hreport := leads_report (t := stateOf s sent) (by simp [rankOf, hcrashed]) rfl hget
  unfold DistributedPortfolio.reportResult
  by_cases hres : (s.ranks r).res = .unknown
  · rw [if_neg (by simpa [DistributedPortfolio.State.setRank] using hres)]
    rw [if_neg (by simpa [rankOf] using hres)] at hreport
    refine (congrArg (Leads (stateOf s sent)) ?_).mp hreport
    refine ((stateOf_inFlight (DistributedPortfolio.State.setRank _ r _) sent _).trans ?_).symm
    rw [stateOf_setRank, stateOf_setRank, State.setRank_setRank]
    simp [rankOf, List.eraseIdx_map, messageOf, stateOf, State.setRank]
  · rw [if_pos (by simpa [DistributedPortfolio.State.setRank] using hres), stateOf_setRank]
    rw [if_pos (by simpa [rankOf] using hres)] at hreport
    simpa [rankOf, List.eraseIdx_map] using hreport

/-- The main thread of a rank without a strategy crashes right after its timeout. -/
theorem leads_timeout (hok : ¬ ((s.ranks r).crashed = true ∨ r = 0 ∧ s.broadcast.isSome = true)) :
    Leads (stateOf s sent) (stateOf (DistributedPortfolio.timeout s r) sent) := by
  obtain ⟨hcrashed, hbroadcast⟩ := not_or.mp hok
  have hmain : ¬ (r = 0 ∧ (stateOf s sent).main ≠ .polling) := by
    rintro ⟨hr, hne⟩
    refine hbroadcast ⟨hr, Option.ne_none_iff_isSome.mp fun hnone => hne ?_⟩
    exact if_pos hnone
  have hstep : step (stateOf s sent) (.timeout r) = some (timeout (stateOf s sent) r) :=
    if_neg (not_or.mpr ⟨by simpa [rankOf] using hcrashed, hmain⟩)
  unfold DistributedPortfolio.timeout
  by_cases hr : r = 0
  · subst hr
    refine .of_step (hstep.trans ?_)
    rw [if_pos rfl, stateOf_setRank]
    have hzero : (s.ranks 0).crashed = false := (Bool.not_eq_true _).mp hcrashed
    simp [timeout, rankOf, DistributedPortfolio.State.root, hzero]
  · rw [if_neg hr, stateOf_setRank]
    refine .step hstep (.of_step (a := .crash r) ?_)
    simp [step, timeout, hr, rankOf]

/-- The communicator goes through all its accesses for a REPORT, or drops it at the
test of res or at the one of Portfolio::join. -/
theorem leads_receiveReport {k : ℕ} {source : Fin (n + 1)} {words : List ℤ}
    (hm : s.inFlight[k]? = some (.report source words)) (hcrashed : (s.ranks 0).crashed = false)
    (hglobal : (s.ranks 0).globalEnding = false)
    (h : DistributedPortfolio.receiveReport (s.take k) source words = some u) :
    Leads (stateOf s sent) (stateOf u sent) := by
  obtain ⟨result, hresult⟩ : ∃ result, messageOf (.report source words) =
      (.report source result : Message n) := ⟨_, rfl⟩
  have hget : (stateOf s sent).inFlight[k]? = some (.report source result) := by
    rw [← hresult]
    simp [stateOf, hm]
  have hreceive : step (stateOf s sent) (.receive k) = some ((stateOf (s.take k) sent).setRank 0
      { (rankOf (s.ranks 0) : Rank n) with comm := .report source result }) := by
    rw [stateOf_take]
    simp [step, receive, hget, Message.destination, rankOf, hcrashed, hglobal]
  refine .step hreceive ((leads_handleReport (x := rankOf (s.ranks 0)) hcrashed hglobal).trans ?_)
  have hstrategy : (stateOf (s.take k) sent).strategyEnding = s.strategyEnding := rfl
  have hres : (rankOf (n := n) (s.ranks 0)).res = (s.ranks 0).res := rfl
  have hroot : (s.take k).root = s.ranks 0 := rfl
  rw [hstrategy, hres]
  unfold DistributedPortfolio.receiveReport at h
  rw [hroot] at h
  by_cases hdrop : (s.ranks 0).res ≠ .unknown ∧ source ≠ 0
  · rw [if_pos hdrop] at h ⊢
    obtain rfl := Option.some.inj h
    exact (congrArg (Leads _) (stateOf_setRank_self (s.take k) sent 0)).mp (.refl _)
  rw [if_neg hdrop] at h ⊢
  cases words with
  | nil => cases h
  | cons word lits =>
    obtain ⟨res, hword, rfl⟩ := Option.map_eq_some_iff.mp h
    obtain rfl : res = result := by simpa [messageOf, hword] using hresult
    have hkept (x : DistributedPortfolio.Rank) :
        ((s.take k).setRank 0 x).strategyEnding = s.strategyEnding := rfl
    unfold DistributedPortfolio.dispatcherJoin DistributedPortfolio.portfolioJoin
    simp only [DistributedPortfolio.State.setRank_root, hglobal, Bool.false_eq_true, if_false,
      or_false, hkept]
    by_cases hignored : res = .unknown ∨ s.strategyEnding = true
    · rw [if_pos hignored, if_pos hignored, stateOf_setRank]
      simp only [rankOf, hglobal]
      exact .refl _
    · rw [if_neg hignored, if_neg hignored]
      refine (congrArg (Leads _) ?_).mp (.refl _)
      simp [stateOf, rankOf, State.setRank, mainOf, Function.comp_update,
        DistributedPortfolio.State.setRank]

theorem leads_receiveStop {k : ℕ} {r : Fin (n + 1)} {ret : ℤ}
    (hm : s.inFlight[k]? = some (.stop r ret)) (hcrashed : (s.ranks r).crashed = false)
    (hglobal : (s.ranks r).globalEnding = false)
    (h : DistributedPortfolio.receiveStop (s.take k) r ret = some u) :
    Leads (stateOf s sent) (stateOf u sent) := by
  obtain ⟨res, hres, rfl⟩ := Option.map_eq_some_iff.mp h
  have hget : (stateOf s sent).inFlight[k]? = some (.stop r res) := by
    simp [stateOf, hm, messageOf, hres]
  have hreceive : step (stateOf s sent) (.receive k) = some ((stateOf (s.take k) sent).setRank r
      { (rankOf (s.ranks r) : Rank n) with comm := .stop res }) := by
    rw [stateOf_take]
    simp [step, receive, hget, Message.destination, rankOf, hcrashed, hglobal]
  refine .step hreceive ?_
  rw [stateOf_setRank]
  exact leads_stop hcrashed

theorem leads_receive {k : ℕ} (h : DistributedPortfolio.receive s k = some u) :
    Leads (stateOf s sent) (stateOf u sent) := by
  unfold DistributedPortfolio.receive at h
  split at h
  case h_1 => exact absurd h (by simp)
  case h_2 m hm =>
    split_ifs at h with hcrashed hglobal
    · obtain rfl := Option.some.inj h
      have hget : (stateOf s sent).inFlight[k]? = some (messageOf m) := by simp [stateOf, hm]
      refine .of_step (a := .receive k) ?_
      rw [stateOf_take]
      simp [step, receive, hget, messageOf_destination, rankOf, hcrashed, hglobal]
    · rw [Bool.not_eq_true] at hcrashed hglobal
      cases m with
      | report source words => exact leads_receiveReport hm hcrashed hglobal h
      | stop r ret => exact leads_receiveStop hm hcrashed hglobal h

theorem leads_updateWorkingStatus (hglobal : s.root.globalEnding = true)
    (hbroadcast : s.broadcast = none) (hprinted : s.printed = none) :
    Leads (stateOf s sent) (stateOf (DistributedPortfolio.updateWorkingStatus s)
      (sent ++ (List.finRange n).map fun _ => s.root.res)) := by
  refine (congrArg (Leads _) ?_).mp (leads_broadcast (if_pos hbroadcast) hglobal)
  have hroot : (stateOf s sent).root.res = s.root.res := rfl
  rw [hroot]
  simp [stateOf, DistributedPortfolio.updateWorkingStatus, mainOf, hprinted, messageOf]

theorem leads_printed (hbroadcast : s.broadcast.isSome = true) (hprinted : s.printed = none) :
    Leads (stateOf s sent) (stateOf { s with printed := some s.finalResult } sent) := by
  have hne : s.broadcast ≠ none := Option.isSome_iff_ne_none.mp hbroadcast
  have hmain : (stateOf s sent).main = .testingSat := by
    simp [stateOf, mainOf, hne, hprinted]
  refine (congrArg (Leads _) ?_).mp (leads_print hmain)
  simp [stateOf, mainOf, hne]

/-- Every step of the one is a run of the other. -/
theorem leads_of_step {a : DistributedPortfolio.Action n} (hs : Ordered s)
    (h : DistributedPortfolio.step s a = some u) :
    ∃ later, Leads (stateOf s sent) (stateOf u later) := by
  cases a with
  | answer r res model =>
    simp only [DistributedPortfolio.step] at h
    split_ifs at h with hcrashed
    obtain rfl := Option.some.inj h
    exact ⟨sent, leads_localJoin (Bool.eq_false_iff.mpr hcrashed)⟩
  | report r i =>
    simp only [DistributedPortfolio.step] at h
    split_ifs at h with hcrashed
    obtain ⟨p, hp, rfl⟩ := Option.map_eq_some_iff.mp h
    exact ⟨sent, leads_reportResult (Bool.eq_false_iff.mpr hcrashed) hp⟩
  | receive k => exact ⟨sent, leads_receive h⟩
  | timeout r =>
    simp only [DistributedPortfolio.step] at h
    split_ifs at h with hok
    obtain rfl := Option.some.inj h
    exact ⟨sent, leads_timeout hok⟩
  | broadcast =>
    simp only [DistributedPortfolio.step] at h
    split_ifs at h with hok
    obtain rfl := Option.some.inj h
    exact ⟨_, leads_updateWorkingStatus hok.1 hok.2 (hs hok.2)⟩
  | print =>
    simp only [DistributedPortfolio.step] at h
    split_ifs at h with hok
    obtain rfl := Option.some.inj h
    exact ⟨sent, leads_printed hok.1 hok.2⟩

theorem ordered_step {a : DistributedPortfolio.Action n}
    (hvalid : ResultValidity.ResultInvariant s) (hs : Ordered s)
    (h : DistributedPortfolio.step s a = some u) : Ordered u := by
  cases a with
  | answer r res model =>
    obtain ⟨-, ht⟩ := Option.ite_none_left_eq_some.mp h
    obtain rfl := Option.some.inj ht
    unfold DistributedPortfolio.localJoin
    dsimp only
    split_ifs <;> exact hs
  | report r i =>
    obtain ⟨-, hmap⟩ := Option.ite_none_left_eq_some.mp h
    obtain ⟨p, -, rfl⟩ := Option.map_eq_some_iff.mp hmap
    unfold DistributedPortfolio.reportResult
    split_ifs <;> exact hs
  | receive k =>
    obtain ⟨m, -, rfl | ⟨source, res, lits, -, -, -, -, rfl⟩ | ⟨r, ret, res, -, -, rfl⟩⟩ :=
      ResultValidity.receive_cases hvalid h
    · exact hs
    · exact hs
    · exact hs
  | timeout r =>
    obtain ⟨-, ht⟩ := Option.ite_none_left_eq_some.mp h
    obtain rfl := Option.some.inj ht
    unfold DistributedPortfolio.timeout
    split_ifs <;> exact hs
  | broadcast =>
    obtain ⟨-, ht⟩ := Option.ite_none_right_eq_some.mp h
    obtain rfl := Option.some.inj ht
    exact fun hnone => by cases hnone
  | print =>
    obtain ⟨⟨hbroadcast, -⟩, ht⟩ := Option.ite_none_right_eq_some.mp h
    obtain rfl := Option.some.inj ht
    exact fun hnone => absurd hnone (Option.isSome_iff_ne_none.mp hbroadcast)

end Steps

/-! ### Every run -/

/-- Every state between whole steps is reached by single accesses as well. -/
theorem reach_of_atomic {s : DistributedPortfolio.State n}
    (hs : (DistributedPortfolio.machine n).Reach (fun _ _ => True) s) :
    ∃ sent, (machine n).Reach (fun _ _ => True) (stateOf s sent) := by
  have hboth : Ordered s ∧ ∃ sent, (machine n).Reach (fun _ _ => True) (stateOf s sent) := by
    refine hs.invariant (fun s => Ordered s ∧
      ∃ sent, (machine n).Reach (fun _ _ => True) (stateOf s sent)) ?_ ?_
    · rintro s rfl
      exact ⟨fun _ => rfl, [], .init rfl⟩
    · rintro s a t hreach ⟨hordered, sent, hsent⟩ - h
      obtain ⟨later, as, hrun⟩ := leads_of_step hordered h
      refine ⟨ordered_step (ResultValidity.invariant_reach hreach) hordered h, later, ?_⟩
      exact hsent.run as (Machine.Meets.of_forall (fun _ _ _ => trivial) _) hrun
  exact hboth.2

end Painless.AtomicResults
