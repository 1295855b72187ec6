import Painless.SharingSystem

/-!
What HordeSatSharing delivers. The database outlives the iteration of a producer,
so a selection may hold clauses of an earlier producer that did not fit in its
budget; the hand-over leaves out the solver of the current iteration. Delivery is
right exactly where every selection is of the clauses of its own iteration's
solver, as far as the consumers can tell.
-/
namespace Painless.HordeSatDelivery

open SharedClauses SharedDatabase ClauseCommunicator SharingStrategies SharingSystem
open Transitions

variable {S I P : Type*}

/-- The clauses `giveSelection` has selected. -/
def selections (log : List (Event P)) : List (ClauseExchange P) :=
  log.flatMap fun
    | .selected _ clauses => upcast clauses
    | _ => []

/-- The clauses handed to `to[j]`. -/
def handedTo (j : ℕ) (log : List (Event P)) : List (ClauseExchange P) :=
  log.flatMap fun
    | .handed k clauses => if k = j then clauses else []
    | _ => []

/-- The clauses collected from the producers. -/
def collections (log : List (Event P)) : List (ClauseExchange P) :=
  log.flatMap fun
    | .collected _ clauses => upcast clauses
    | _ => []

/-- Every selected clause is handed once to each consumer but its producer, and
no collected clause is selected twice. -/
structure Delivered [DecidableEq P] (id : S → ℤ) (consumers : List S)
    (log : List (Event P)) : Prop where
  handed : ∀ j t, consumers[j]? = some t → ∀ c,
    (handedTo j log).count c = if c.fromId = id t then 0 else (selections log).count c
  selected_once : (↑(selections log) : Multiset (ClauseExchange P)) ≤ ↑(collections log)

/-- The producers of a round with the clauses selected in their iterations. -/
def roundSelections [DecidableEq S] (literalPerRound : ℤ) :
    List S → ClauseDatabase P → (S → List (LearnedClause P)) →
      List (S × List (LearnedClause P))
  | [], _, _ => []
  | producer :: rest, database, exports =>
    let added := (addAll database (exports producer)).1
    (producer, (added.giveSelection (toUnsigned literalPerRound)).selectedCls) ::
      roundSelections literalPerRound rest
        (added.afterSelection (toUnsigned literalPerRound)) (Function.update exports producer [])

/-- A consumer tells the solver of the iteration from the others just as it
tells the producer of each selected clause. -/
def OwnClauses (id : S → ℤ) (consumers : List S) (it : S × List (LearnedClause P)) : Prop :=
  ∀ c ∈ it.2, ∀ t ∈ consumers, (id it.1 = id t ↔ c.fromId = id t)

instance [DecidableEq S] (id : S → ℤ) (consumers : List S)
    (it : S × List (LearnedClause P)) : Decidable (OwnClauses id consumers it) :=
  inferInstanceAs (Decidable (∀ c ∈ it.2, ∀ t ∈ consumers, _))

/-! ### The iterations of a log -/

/-- What consumer `t` gets in an iteration. -/
def share (id : S → ℤ) (t : S) (it : S × List (LearnedClause P)) : List (ClauseExchange P) :=
  if id it.1 = id t then [] else upcast it.2

structure Shows (id : S → ℤ) (consumers : List S) (its : List (S × List (LearnedClause P)))
    (log : List (Event P)) : Prop where
  selected_eq : selections log = its.flatMap fun it => upcast it.2
  handed_eq : ∀ j t, consumers[j]? = some t → handedTo j log = its.flatMap (share id t)

section Counting

variable [DecidableEq P] {id : S → ℤ} {consumers : List S}

theorem count_share_le (t : S) (it : S × List (LearnedClause P)) (c : ClauseExchange P) :
    (share id t it).count c ≤ (upcast it.2).count c := by
  unfold share
  split_ifs <;> simp

theorem count_share {it : S × List (LearnedClause P)} (h : OwnClauses id consumers it) {t : S}
    (ht : t ∈ consumers) (c : ClauseExchange P) :
    (share id t it).count c = if c.fromId = id t then 0 else (upcast it.2).count c := by
  by_cases hc : c ∈ upcast it.2
  · obtain ⟨c', hc', rfl⟩ := List.mem_map.mp hc
    have hiff := h c' hc' t ht
    unfold share
    by_cases hid : id it.1 = id t
    · rw [if_pos hid, if_pos (hiff.mp hid), List.count_nil]
    · rw [if_neg hid, if_neg fun hfrom => hid (hiff.mpr hfrom)]
  · have hzero : (upcast it.2).count c = 0 := List.count_eq_zero.mpr hc
    have hle : (share id t it).count c ≤ (upcast it.2).count c := count_share_le t it c
    rw [hzero] at hle
    rw [hzero, ite_self, Nat.le_zero.mp hle]

theorem count_flatMap_share {its : List (S × List (LearnedClause P))}
    (h : ∀ it ∈ its, OwnClauses id consumers it) {t : S} (ht : t ∈ consumers)
    (c : ClauseExchange P) :
    (its.flatMap (share id t)).count c =
      if c.fromId = id t then 0 else (its.flatMap fun it => upcast it.2).count c := by
  induction its with
  | nil => simp
  | cons it rest ih =>
    rw [List.flatMap_cons, List.flatMap_cons, List.count_append, List.count_append,
      count_share (h it List.mem_cons_self) ht, ih fun it' h' => h it' (List.mem_cons_of_mem _ h')]
    split_ifs <;> rfl

theorem count_flatMap_le (its : List (S × List (LearnedClause P))) (t : S)
    (c : ClauseExchange P) :
    (its.flatMap (share id t)).count c ≤ (its.flatMap fun it => upcast it.2).count c := by
  induction its with
  | nil => simp
  | cons it rest ih =>
    rw [List.flatMap_cons, List.flatMap_cons, List.count_append, List.count_append]
    exact Nat.add_le_add (count_share_le t it c) ih

/-- What is lost or handed to its producer in one iteration is not made up for
in another. -/
theorem own_of_count {its : List (S × List (LearnedClause P))}
    (h : ∀ t ∈ consumers, ∀ c, (its.flatMap (share id t)).count c =
      if c.fromId = id t then 0 else (its.flatMap fun it => upcast it.2).count c) :
    ∀ it ∈ its, OwnClauses id consumers it := by
  intro it hit c hc t ht
  obtain ⟨before, after, rfl⟩ := List.append_of_mem hit
  have hcount := h t ht c.toClauseExchange
  have hpos : 0 < (upcast it.2).count c.toClauseExchange :=
    List.count_pos_iff.mpr (List.mem_map_of_mem hc)
  have hle (part : List (S × List (LearnedClause P))) :
      (part.flatMap (share id t)).count c.toClauseExchange ≤
        (part.flatMap fun it => upcast it.2).count c.toClauseExchange :=
    count_flatMap_le part t c.toClauseExchange
  have hbefore := hle before
  have hafter := hle after
  simp only [List.flatMap_append, List.flatMap_cons, List.count_append] at hcount
  by_cases hid : id it.1 = id t
  · refine ⟨fun _ => ?_, fun _ => hid⟩
    by_contra hfrom
    rw [if_neg hfrom, share, if_pos hid, List.count_nil] at hcount
    omega
  · refine ⟨fun h => absurd h hid, fun hfrom => ?_⟩
    rw [if_pos hfrom, share, if_neg hid] at hcount
    omega

end Counting

/-! ### One round -/

section Round

variable {id : S → ℤ} {consumers : List S}

@[simp] theorem selections_append (log batch : List (Event P)) :
    selections (log ++ batch) = selections log ++ selections batch := List.flatMap_append

@[simp] theorem handedTo_append (j : ℕ) (log batch : List (Event P)) :
    handedTo j (log ++ batch) = handedTo j log ++ handedTo j batch := List.flatMap_append

@[simp] theorem collections_append (log batch : List (Event P)) :
    collections (log ++ batch) = collections log ++ collections batch := List.flatMap_append

variable [DecidableEq S]

omit [DecidableEq S] in
theorem addLearnedClauses_exports (q : SolverQueues P) (clauses : List (ClauseExchange P)) :
    (q.addLearnedClauses clauses).clausesToExport = q.clausesToExport := by
  induction clauses generalizing q with
  | nil => rfl
  | cons c rest ih =>
    refine (ih (q.addLearnedClause c)).trans ?_
    unfold SolverQueues.addLearnedClause
    split_ifs <;> rfl

theorem handOver_exports (producer : S) (tmp : List (ClauseExchange P)) (k : ℕ)
    (consumers : List S) (queues : S → SolverQueues P) (t : S) :
    ((handOver id producer tmp k consumers queues).queues t).clausesToExport =
      (queues t).clausesToExport := by
  induction consumers generalizing k queues with
  | nil => rfl
  | cons consumer rest ih =>
    unfold handOver
    dsimp only
    split_ifs
    · rw [ih]
      rcases eq_or_ne t consumer with rfl | ht
      · rw [Function.update_self, addLearnedClauses_exports]
      · rw [Function.update_of_ne ht]
    · exact ih _ _

theorem handOver_events (producer : S) (tmp : List (ClauseExchange P)) (k : ℕ)
    (consumers : List S) (queues : S → SolverQueues P) :
    ∀ e ∈ (handOver id producer tmp k consumers queues).log, ∃ j, k ≤ j ∧ e = .handed j tmp := by
  induction consumers generalizing k queues with
  | nil => simp [handOver]
  | cons consumer rest ih =>
    have hrest (queues : S → SolverQueues P) (e : Event P)
        (he : e ∈ (handOver id producer tmp (k + 1) rest queues).log) :
        ∃ j, k ≤ j ∧ e = .handed j tmp := by
      obtain ⟨j, hj, heq⟩ := ih (k + 1) queues e he
      exact ⟨j, by omega, heq⟩
    unfold handOver
    dsimp only
    split_ifs
    · intro e he
      rcases List.mem_cons.mp he with rfl | he
      · exact ⟨k, le_refl k, rfl⟩
      · exact hrest _ e he
    · exact hrest queues

/-- Handing over selects and collects nothing. -/
theorem handOver_silent (producer : S) (tmp : List (ClauseExchange P)) (k : ℕ)
    (consumers : List S) (queues : S → SolverQueues P) :
    selections (handOver id producer tmp k consumers queues).log = [] ∧
      collections (handOver id producer tmp k consumers queues).log = [] := by
  constructor
  all_goals
    refine List.flatMap_eq_nil_iff.mpr fun e he => ?_
    obtain ⟨j, -, rfl⟩ := handOver_events producer tmp k consumers queues e he
    rfl

theorem handOver_handed (producer : S) (tmp : List (ClauseExchange P)) (k : ℕ)
    {consumers : List S} (queues : S → SolverQueues P) {j : ℕ} {t : S}
    (ht : consumers[j]? = some t) :
    handedTo (k + j) (handOver id producer tmp k consumers queues).log =
      if id producer = id t then [] else tmp := by
  induction consumers generalizing k queues j with
  | nil => simp at ht
  | cons consumer rest ih =>
    have hlater (queues : S → SolverQueues P) :
        handedTo k (handOver id producer tmp (k + 1) rest queues).log = [] := by
      refine List.flatMap_eq_nil_iff.mpr fun e he => ?_
      obtain ⟨j, hj, rfl⟩ := handOver_events producer tmp (k + 1) rest queues e he
      exact if_neg (by omega)
    by_cases hid : id producer = id consumer
    · have heq : handOver id producer tmp k (consumer :: rest) queues =
          handOver id producer tmp (k + 1) rest queues := if_neg (not_not_intro hid)
      rw [heq]
      cases j with
      | zero =>
        obtain rfl : consumer = t := by simpa using ht
        rw [if_pos hid]
        exact hlater queues
      | succ j =>
        have hrest := ih (k + 1) queues (j := j) (by simpa using ht)
        rwa [Nat.add_right_comm] at hrest
    · obtain ⟨queues', calls, hlog⟩ : ∃ queues' calls,
          handOver id producer tmp k (consumer :: rest) queues = ⟨_, calls,
            .handed k tmp :: (handOver id producer tmp (k + 1) rest queues').log⟩ :=
        ⟨_, _, if_pos hid⟩
      rw [hlog]
      cases j with
      | zero =>
        obtain rfl : consumer = t := by simpa using ht
        change (if k = k then tmp else []) ++ handedTo k _ = _
        rw [hlater, if_pos rfl, List.append_nil, if_neg hid]
      | succ j =>
        have hrest := ih (k + 1) queues' (j := j) (by simpa using ht)
        rw [Nat.add_right_comm] at hrest
        change (if k = k + (j + 1) then tmp else []) ++ handedTo (k + (j + 1)) _ = _
        rw [if_neg (by omega), List.nil_append]
        exact hrest

/-- The events of one iteration. -/
theorem Shows.iteration {its : List (S × List (LearnedClause P))} {log : List (Event P)}
    (h : Shows id consumers its log) (i : ℕ) (producer : S) (got sel : List (LearnedClause P))
    (queues : S → SolverQueues P) :
    Shows id consumers (its ++ [(producer, sel)]) (log ++ (.collected i got ::
      .selected i sel :: (handOver id producer (upcast sel) 0 consumers queues).log)) where
  selected_eq := by
    have hnone : selections (handOver id producer (upcast sel) 0 consumers queues).log = [] :=
      (handOver_silent producer (upcast sel) 0 consumers queues).1
    rw [selections_append, List.flatMap_append, h.selected_eq, List.flatMap_singleton]
    change _ ++ ([] ++ (upcast sel ++ selections _)) = _
    rw [hnone, List.append_nil, List.nil_append]
  handed_eq j t ht := by
    have hhanded : handedTo (0 + j) (handOver id producer (upcast sel) 0 consumers queues).log =
        if id producer = id t then [] else upcast sel :=
      handOver_handed producer (upcast sel) 0 queues ht
    rw [Nat.zero_add] at hhanded
    rw [handedTo_append, List.flatMap_append, h.handed_eq j t ht, List.flatMap_singleton]
    change _ ++ ([] ++ ([] ++ handedTo j _)) = _
    rw [hhanded]
    rfl

/-- What the sharer has collected and neither selected nor still keeps is what
did not fit in the database. -/
def Kept (database : ClauseDatabase P) (log : List (Event P)) : Prop :=
  ↑(selections log) + database.contents.map LearnedClause.toClauseExchange ≤
    (↑(collections log) : Multiset (ClauseExchange P))

omit [DecidableEq S] in
theorem addAll_contents_le (database : ClauseDatabase P) (clauses : List (LearnedClause P)) :
    (addAll database clauses).1.contents ≤ ↑clauses + database.contents := by
  induction clauses generalizing database with
  | nil => exact Multiset.le_add_left _ _
  | cons clause rest ih =>
    refine (ih (database.addClause clause).1).trans ?_
    rw [← Multiset.cons_coe, Multiset.cons_add, ← Multiset.add_cons]
    exact Multiset.add_le_add_left (contents_addClause_le database clause)

theorem Kept.iteration {database : ClauseDatabase P} {log : List (Event P)}
    (h : Kept database log) (budget i : ℕ) (producer : S) (got sel : List (LearnedClause P))
    (hsel : ((addAll database got).1.giveSelection budget).selectedCls = sel)
    (queues : S → SolverQueues P) :
    Kept ((addAll database got).1.afterSelection budget) (log ++ (.collected i got ::
      .selected i sel :: (handOver id producer (upcast sel) 0 consumers queues).log)) := by
  obtain ⟨hnone, hnone'⟩ :
      selections (handOver id producer (upcast sel) 0 consumers queues).log = [] ∧
        collections (handOver id producer (upcast sel) 0 consumers queues).log = [] :=
    handOver_silent producer (upcast sel) 0 consumers queues
  have hselected : selections (.collected i got :: .selected i sel ::
      (handOver id producer (upcast sel) 0 consumers queues).log) = upcast sel := by
    change [] ++ (upcast sel ++ selections _) = _
    rw [hnone, List.nil_append, List.append_nil]
  have hcollected : collections (.collected i got :: .selected i sel ::
      (handOver id producer (upcast sel) 0 consumers queues).log) = upcast got := by
    change upcast got ++ ([] ++ collections _) = _
    rw [hnone', List.nil_append, List.append_nil]
  have hsplit := contents_afterSelection (addAll database got).1 budget
  have hadded := addAll_contents_le database got
  rw [← hsplit, hsel] at hadded
  have hmap := Multiset.map_le_map (f := LearnedClause.toClauseExchange) hadded
  rw [Multiset.map_add, Multiset.map_add] at hmap
  unfold Kept at *
  rw [selections_append, collections_append, hselected, hcollected, ← Multiset.coe_add,
    ← Multiset.coe_add, add_assoc]
  calc (↑(selections log) + (↑(upcast sel) +
        ((addAll database got).1.afterSelection budget).contents.map
          LearnedClause.toClauseExchange) : Multiset (ClauseExchange P))
      ≤ ↑(selections log) + (↑(upcast got) +
          database.contents.map LearnedClause.toClauseExchange) :=
        Multiset.add_le_add_left hmap
    _ = ↑(selections log) + database.contents.map LearnedClause.toClauseExchange +
          ↑(upcast got) := by ac_rfl
    _ ≤ ↑(collections log) + ↑(upcast got) := Multiset.add_le_add_right h

theorem exports_after (producer : S) (tmp : List (ClauseExchange P)) (queues : S → SolverQueues P)
    (q : SolverQueues P) (hq : q.clausesToExport = []) :
    (fun s => ((handOver id producer tmp 0 consumers
      (Function.update queues producer q)).queues s).clausesToExport) =
        Function.update (fun s => (queues s).clausesToExport) producer [] := by
  funext s
  rw [handOver_exports]
  rcases eq_or_ne s producer with rfl | hs
  · rw [Function.update_self, Function.update_self, hq]
  · rw [Function.update_of_ne hs, Function.update_of_ne hs]

theorem hordeSatLoop_shows {literalPerRound : ℤ} (i : ℕ) (producers : List S)
    (database : ClauseDatabase P) (queues : S → SolverQueues P)
    {its : List (S × List (LearnedClause P))} {log : List (Event P)}
    (hshows : Shows id consumers its log) (hkept : Kept database log) :
    Shows id consumers
        (its ++ roundSelections literalPerRound producers database
          fun s => (queues s).clausesToExport)
        (log ++ (hordeSatLoop id literalPerRound consumers i producers database queues).2.log) ∧
      Kept (hordeSatLoop id literalPerRound consumers i producers database queues).1
        (log ++ (hordeSatLoop id literalPerRound consumers i producers database queues).2.log) := by
  induction producers generalizing i database queues its log with
  | nil => simpa [roundSelections, hordeSatLoop] using ⟨hshows, hkept⟩
  | cons producer rest ih =>
    unfold hordeSatLoop roundSelections
    dsimp only
    rw [SolverQueues.getLearnedClauses_eq]
    dsimp only
    generalize hsel : ((addAll database (queues producer).clausesToExport).1.giveSelection
      (toUnsigned literalPerRound)).selectedCls = sel
    generalize hqueues : Function.update queues producer
      { queues producer with clausesToExport := [] } = queues'
    have hnext := ih (i + 1) _ (handOver id producer (upcast sel) 0 consumers queues').queues
      (hshows.iteration i producer (queues producer).clausesToExport sel queues')
      (hkept.iteration _ i producer _ sel hsel queues')
    rw [← hqueues, exports_after producer (upcast sel) queues _ rfl, hqueues] at hnext
    simp only [List.append_assoc, List.cons_append, List.nil_append] at hnext ⊢
    exact hnext

end Round

/-! ### Runs -/

section Runs

variable [DecidableEq S] [DecidableEq I] [DecidableEq P] {setup : Setup S I} {i : I}

/-- No step is a round of sharer `i` in which a clause leaves the database in the
iteration of another solver than its producer, if a consumer can tell them apart. -/
def SelectsOwn (setup : Setup S I) (i : I) (s : State S I P) (a : Action S I P) : Prop :=
  a = .doSharing i → ∀ database, s.store.strategy i = .hordeSat database →
    ∀ it ∈ roundSelections setup.shrLit (setup.producers i) database
      fun t => (s.store.queues t).clausesToExport, OwnClauses setup.id (setup.consumers i) it

/-- The log of sharer `i`, a HordeSatSharing, shows the iterations. -/
def SharerShows (setup : Setup S I) (i : I) (its : List (S × List (LearnedClause P)))
    (store : Store S I P) : Prop :=
  ∃ database, store.strategy i = .hordeSat database ∧
    Shows setup.id (setup.consumers i) its (store.log i) ∧ Kept database (store.log i)

theorem sharerShows_step {its : List (S × List (LearnedClause P))} {s t : State S I P}
    {a : Action S I P} (h : SharerShows setup i its s.store) (ht : step setup s a = some t) :
    ∃ new, SharerShows setup i (its ++ new) t.store ∧
      (SelectsOwn setup i s a ↔ ∀ it ∈ new, OwnClauses setup.id (setup.consumers i) it) := by
  obtain ⟨r, hr, hrest⟩ := Option.bind_eq_some_iff.mp ht
  obtain ⟨heap, -, rfl⟩ := Option.map_eq_some_iff.mp hrest
  obtain ⟨database, hstrategy, hshows, hkept⟩ := h
  by_cases ha : a = .doSharing i
  · subst ha
    obtain ⟨out, hout, hnew, hlog⟩ := doSharing_hordeSat hr hstrategy
    unfold hordeSatSharing at hout
    split_ifs at hout
    obtain rfl := Option.some.inj hout
    obtain ⟨hshows', hkept'⟩ := hordeSatLoop_shows 0
      (setup.producers i) database s.store.queues hshows hkept
    rw [← hlog] at hshows' hkept'
    refine ⟨_, ⟨_, hnew, hshows', hkept'⟩, fun hown => hown rfl database hstrategy, ?_⟩
    intro hown _ database' hdatabase
    rw [hstrategy] at hdatabase
    rw [← Strategy.hordeSat.inj hdatabase]
    exact hown
  · obtain ⟨hsame, hlog⟩ := (effect_sharer hr i).resolve_left ha
    refine ⟨[], ⟨database, hsame.trans hstrategy, ?_, ?_⟩, ?_⟩
    · rw [hlog, List.append_nil]
      exact hshows
    · rw [hlog]
      exact hkept
    · exact ⟨fun _ it hit => absurd hit List.not_mem_nil, fun _ h => absurd h ha⟩

/-- A HordeSatSharing that starts empty delivers every selected clause once to
every consumer but its producer exactly in the runs in which every selection is
of clauses of its own iteration's solver. -/
theorem delivered_iff (setup : Setup S I) (i : I) (s t : State S I P)
    (hs : (machine setup).Init s) (database : ClauseDatabase P)
    (hi : s.store.strategy i = .hordeSat database) (as : List (Action S I P))
    (hrun : (machine setup).run s as = some t) :
    Delivered setup.id (setup.consumers i) (t.store.log i) ↔
      (machine setup).Meets (SelectsOwn setup i) s as := by
  have hstart : SharerShows setup i [] s.store := by
    have hempty : database = ClauseDatabase.empty := by
      have hfresh := hs.strategy i
      rwa [hi] at hfresh
    refine ⟨database, hi, ?_, ?_⟩
    · rw [hs.log i]
      exact ⟨rfl, fun _ _ _ => rfl⟩
    · rw [hs.log i, hempty]
      exact le_refl _
  obtain ⟨its, ⟨database', -, hshows, hkept⟩, hmeets⟩ :=
    Machine.run_meets_forall (fun its u => SharerShows setup i its u.store)
      (OwnClauses setup.id (setup.consumers i)) (fun _ _ _ _ h ht => sharerShows_step h ht)
      hstart as hrun
  rw [List.nil_append] at hshows
  rw [hmeets]
  constructor
  · intro h
    refine own_of_count fun t ht c => ?_
    obtain ⟨j, hj⟩ := List.mem_iff_getElem?.mp ht
    rw [← hshows.handed_eq j t hj, ← hshows.selected_eq]
    exact h.handed j t hj c
  · intro hown
    refine ⟨fun j t hj c => ?_, le_trans (Multiset.le_add_right _ _) hkept⟩
    rw [hshows.handed_eq j t hj, hshows.selected_eq]
    exact count_flatMap_share hown (List.mem_of_getElem? hj) c

end Runs

/-- With a budget of one literal, solver 0 learns the unit clauses 5 and 6. -/
def leftoverRun : List (Action (Fin 2) Unit ℕ) :=
  [.exportClause 0 (unitClause 7 5), .exportClause 0 (unitClause 8 6), .doSharing ()]

/-- Clause 5 is selected in the iteration of solver 1, and handed to solver 0. -/
theorem leftover_handed_to_producer :
    ∃ t, (machine (pairSetup 1)).run (pairStart (.hordeSat ClauseDatabase.empty))
        leftoverRun = some t ∧
      ¬ Delivered (pairSetup 1).id ((pairSetup 1).consumers ()) (t.store.log ()) := by
  refine ⟨_, rfl, fun h => ?_⟩
  exact absurd (h.handed 0 0 rfl (unitClause 7 5).toClauseExchange) (by decide)

theorem delivered_iff_pair :
    ∃ t, (machine (pairSetup 2)).run (pairStart (.hordeSat ClauseDatabase.empty))
        leftoverRun = some t ∧
      (Delivered (pairSetup 2).id ((pairSetup 2).consumers ()) (t.store.log ()) ↔
        (machine (pairSetup 2)).Meets (SelectsOwn (pairSetup 2) ())
          (pairStart (.hordeSat ClauseDatabase.empty)) leftoverRun) := by
  obtain ⟨t, ht⟩ : ∃ t, (machine (pairSetup 2)).run
      (pairStart (.hordeSat ClauseDatabase.empty)) leftoverRun = some t := ⟨_, rfl⟩
  have hfresh : (Strategy.hordeSat ClauseDatabase.empty : Strategy ℕ).Fresh := rfl
  exact ⟨t, ht, delivered_iff (pairSetup 2) () _ t (pairStart_init 2 hfresh) _ rfl _ ht⟩

end Painless.HordeSatDelivery
