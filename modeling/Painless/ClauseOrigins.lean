import Painless.HordeSatDelivery
import Painless.SharingSystem

/-!
Where the clauses in the containers come from. A property of clauses that holds
of every clause that a solver with a producer's place exports, and of every
clause that is decoded from a message, holds of every clause in every container
of the pipeline and of every clause handed to a consumer.
-/
namespace Painless.ClauseOrigins

open RefCount SharedClauses SharedDatabase ClauseCommunicator SharingStrategies
open DistributionRounds SharingSystem

variable {S I P : Type*}

/-- The property, and the solvers that may be producers. -/
structure Origin (S P : Type*) where
  good : ClauseExchange P → Prop
  exporter : S → Prop

variable (o : Origin S P)

/-- The buffers of the solvers hold good clauses; what other solvers export is
left open. -/
structure Carries (queues : S → SolverQueues P) : Prop where
  exported : ∀ s, o.exporter s → ∀ c ∈ (queues s).clausesToExport, o.good c.toClauseExchange
  units : ∀ s, ∀ c ∈ (queues s).unitsToImport, o.good c
  clauses : ∀ s, ∀ c ∈ (queues s).clausesToImport, o.good c

def Handed (log : List (Event P)) : Prop := ∀ j cs, .handed j cs ∈ log → ∀ c ∈ cs, o.good c

def Holds (db : ClauseDatabase P) : Prop := ∀ c ∈ db.contents, o.good c.toClauseExchange

def HeldBy : Strategy P → Prop
  | .simple => True
  | .hordeSat database => Holds o database
  | .distribution sharing => Holds o sharing.database

structure Origins (store : Store S I P) : Prop where
  queues : Carries o store.queues
  strategies : ∀ i, HeldBy o (store.strategy i)
  toExport : Holds o store.comm.clausesToExport
  toImport : ∀ c ∈ store.comm.clausesToImport, o.good c
  handed : ∀ i, Handed o (store.log i)

variable {o}

/-- A weaker property, and fewer producers. -/
theorem Origins.mono {o' : Origin S P} (hgood : ∀ c, o.good c → o'.good c)
    (hexporter : ∀ s, o'.exporter s → o.exporter s) {store : Store S I P}
    (h : Origins o store) : Origins o' store := by
  refine ⟨⟨?_, ?_, ?_⟩, fun i => ?_, fun c hc => hgood _ (h.toExport c hc),
    fun c hc => hgood c (h.toImport c hc), fun i j cs hcs c hc => ?_⟩
  · exact fun s hs c hc => hgood _ (h.queues.exported s (hexporter s hs) c hc)
  · exact fun s c hc => hgood c (h.queues.units s c hc)
  · exact fun s c hc => hgood c (h.queues.clauses s c hc)
  · have hheld := h.strategies i
    revert hheld
    cases store.strategy i with
    | simple => exact id
    | hordeSat database => exact fun hdb c hc => hgood _ (hdb c hc)
    | distribution sharing => exact fun hdb c hc => hgood _ (hdb c hc)
  · exact hgood c (h.handed i j cs hcs c hc)

/-! ### Buffers -/

section Buffers

variable [DecidableEq S] {queues : S → SolverQueues P}

theorem Carries.update (h : Carries o queues) (s : S) {q : SolverQueues P}
    (hexport : o.exporter s → ∀ c ∈ q.clausesToExport, o.good c.toClauseExchange)
    (hunits : ∀ c ∈ q.unitsToImport, o.good c) (hclauses : ∀ c ∈ q.clausesToImport, o.good c) :
    Carries o (Function.update queues s q) := by
  constructor
  · intro t
    rw [Function.update_apply]
    split_ifs with ht
    · rw [ht]
      exact hexport
    · exact h.exported t
  · intro t
    rw [Function.update_apply]
    split_ifs
    · exact hunits
    · exact h.units t
  · intro t
    rw [Function.update_apply]
    split_ifs
    · exact hclauses
    · exact h.clauses t

/-- A sharer takes what a solver has learned. -/
theorem Carries.take (h : Carries o queues) (s : S) :
    Carries o (Function.update queues s (queues s).getLearnedClauses.2) := by
  rw [SolverQueues.getLearnedClauses_eq]
  exact h.update s (by simp) (h.units s) (h.clauses s)

omit [DecidableEq S] in
theorem Carries.learned (h : Carries o queues) {s : S} (hs : o.exporter s) :
    ∀ c ∈ upcast (queues s).getLearnedClauses.1, o.good c := by
  rw [SolverQueues.getLearnedClauses_eq]
  intro c hc
  obtain ⟨l, hl, rfl⟩ := List.mem_map.mp hc
  exact h.exported s hs l hl

omit [DecidableEq S] in
theorem addLearnedClauses_good {q : SolverQueues P} {clauses : List (ClauseExchange P)}
    (hunits : ∀ c ∈ q.unitsToImport, o.good c) (hclauses : ∀ c ∈ q.clausesToImport, o.good c)
    (hnew : ∀ c ∈ clauses, o.good c) :
    (∀ c ∈ (q.addLearnedClauses clauses).unitsToImport, o.good c) ∧
      ∀ c ∈ (q.addLearnedClauses clauses).clausesToImport, o.good c := by
  induction clauses generalizing q with
  | nil => exact ⟨hunits, hclauses⟩
  | cons clause rest ih =>
    have hclause : o.good clause := hnew clause List.mem_cons_self
    have hadded (cs : List (ClauseExchange P)) (hcs : ∀ c ∈ cs, o.good c) :
        ∀ c ∈ cs ++ [clause], o.good c := by
      intro c hc
      rcases List.mem_append.mp hc with hc | hc
      · exact hcs c hc
      · rwa [List.mem_singleton.mp hc]
    have hrest (c : ClauseExchange P) (hc : c ∈ rest) : o.good c :=
      hnew c (List.mem_cons_of_mem clause hc)
    have hstep := @ih (q.addLearnedClause clause)
    unfold SolverQueues.addLearnedClause at hstep
    change (∀ c ∈ ((q.addLearnedClause clause).addLearnedClauses rest).unitsToImport, _) ∧
      ∀ c ∈ ((q.addLearnedClause clause).addLearnedClauses rest).clausesToImport, _
    unfold SolverQueues.addLearnedClause
    split_ifs at hstep ⊢
    · exact hstep (hadded _ hunits) hclauses hrest
    · exact hstep hunits (hadded _ hclauses) hrest

theorem Carries.give (h : Carries o queues) (s : S) {clauses : List (ClauseExchange P)}
    (hnew : ∀ c ∈ clauses, o.good c) :
    Carries o (Function.update queues s ((queues s).addLearnedClauses clauses)) := by
  obtain ⟨hunits, hclauses⟩ := addLearnedClauses_good (h.units s) (h.clauses s) hnew
  refine h.update s ?_ hunits hclauses
  rw [HordeSatDelivery.addLearnedClauses_exports]
  exact h.exported s

end Buffers

/-! ### Databases -/

section Databases

omit o in
theorem mem_upcast {cls : List (LearnedClause P)} {c : ClauseExchange P}
    (hc : c ∈ upcast cls) : ∃ l ∈ cls, l.toClauseExchange = c := List.mem_map.mp hc

theorem Holds.empty : Holds o (ClauseDatabase.empty : ClauseDatabase P) := by
  intro c hc
  simp at hc

theorem Holds.addClause {db : ClauseDatabase P} (h : Holds o db) {clause : LearnedClause P}
    (hclause : o.good clause.toClauseExchange) : Holds o (db.addClause clause).1 := by
  intro c hc
  rcases Multiset.mem_cons.mp (Multiset.mem_of_le (contents_addClause_le db clause) hc) with
    rfl | hold
  · exact hclause
  · exact h c hold

theorem Holds.addAll {db : ClauseDatabase P} (h : Holds o db) {clauses : List (LearnedClause P)}
    (hnew : ∀ c ∈ upcast clauses, o.good c) : Holds o (addAll db clauses).1 := by
  intro c hc
  rcases Multiset.mem_add.mp
    (Multiset.mem_of_le (HordeSatDelivery.addAll_contents_le db clauses) hc) with hmem | hmem
  · exact hnew _ (List.mem_map_of_mem (Multiset.mem_coe.mp hmem))
  · exact h c hmem

theorem Holds.afterSelection {db : ClauseDatabase P} (h : Holds o db) (totalSize : ℕ) :
    Holds o (db.afterSelection totalSize) := by
  intro c hc
  refine h c ?_
  rw [← contents_afterSelection db totalSize]
  exact Multiset.mem_add.mpr (Or.inr hc)

theorem Holds.selected {db : ClauseDatabase P} (h : Holds o db) (totalSize : ℕ) :
    ∀ c ∈ (db.giveSelection totalSize).selectedCls, o.good c.toClauseExchange := by
  intro c hc
  refine h c ?_
  rw [← contents_afterSelection db totalSize]
  exact Multiset.mem_add.mpr (Or.inl (Multiset.mem_coe.mpr hc))

theorem good_upcast {cls : List (LearnedClause P)}
    (h : ∀ c ∈ cls, o.good c.toClauseExchange) : ∀ c ∈ upcast cls, o.good c := by
  intro c hc
  obtain ⟨l, hl, rfl⟩ := mem_upcast hc
  exact h l hl

end Databases

/-! ### Rounds -/

section Rounds

variable [DecidableEq S] (id : S → ℤ) {queues : S → SolverQueues P}

omit [DecidableEq S] in
theorem Handed.append {log batch : List (Event P)} (h : Handed o log) (hb : Handed o batch) :
    Handed o (log ++ batch) := by
  intro j cs hmem
  rcases List.mem_append.mp hmem with hmem | hmem
  · exact h j cs hmem
  · exact hb j cs hmem

omit [DecidableEq S] in
theorem Handed.cons {e : Event P} {log : List (Event P)} (h : Handed o log)
    (he : ∀ j cs, e = .handed j cs → ∀ c ∈ cs, o.good c) : Handed o (e :: log) := by
  intro j cs hmem
  rcases List.mem_cons.mp hmem with hmem | hmem
  · exact he j cs hmem.symm
  · exact h j cs hmem

omit [DecidableEq S] in
theorem Handed.nil : Handed o ([] : List (Event P)) := by
  intro j cs hmem
  simp at hmem

theorem handOver_good (h : Carries o queues) (producer : S) {tmp : List (ClauseExchange P)}
    (htmp : ∀ c ∈ tmp, o.good c) (j : ℕ) (consumers : List S) :
    Carries o (handOver id producer tmp j consumers queues).queues ∧
      Handed o (handOver id producer tmp j consumers queues).log := by
  induction consumers generalizing j queues with
  | nil => exact ⟨h, Handed.nil⟩
  | cons consumer rest ih =>
    unfold handOver
    dsimp only
    split_ifs
    · obtain ⟨hqueues, hlog⟩ := ih (h.give consumer htmp) (j + 1)
      refine ⟨hqueues, hlog.cons fun k cs heq => ?_⟩
      obtain ⟨-, rfl⟩ := Event.handed.inj heq
      exact htmp
    · exact ih h (j + 1)

theorem simpleSharing_good (h : Carries o queues) (consumers : List S) (i : ℕ)
    {producers : List S} (hproducers : ∀ s ∈ producers, o.exporter s) :
    Carries o (simpleSharing id consumers i producers queues).queues ∧
      Handed o (simpleSharing id consumers i producers queues).log := by
  induction producers generalizing i queues with
  | nil => exact ⟨h, Handed.nil⟩
  | cons producer rest ih =>
    unfold simpleSharing
    dsimp only
    have hlearned := h.learned (hproducers producer List.mem_cons_self)
    obtain ⟨hgiven, hlog⟩ :=
      handOver_good id (h.take producer) producer hlearned 0 consumers
    obtain ⟨hmore, hrest⟩ := ih hgiven (i + 1)
      fun s hs => hproducers s (List.mem_cons_of_mem producer hs)
    exact ⟨hmore, (hlog.append hrest).cons (by simp)⟩

theorem hordeSatLoop_good (h : Carries o queues) (literalPerRound : ℤ) (consumers : List S)
    (i : ℕ) {producers : List S} (hproducers : ∀ s ∈ producers, o.exporter s)
    {database : ClauseDatabase P} (hdatabase : Holds o database) :
    let r := hordeSatLoop id literalPerRound consumers i producers database queues
    Holds o r.1 ∧ Carries o r.2.queues ∧ Handed o r.2.log := by
  induction producers generalizing i queues database with
  | nil => exact ⟨hdatabase, h, Handed.nil⟩
  | cons producer rest ih =>
    unfold hordeSatLoop
    dsimp only
    have hadded := hdatabase.addAll (h.learned (hproducers producer List.mem_cons_self))
    have hselected := good_upcast (hadded.selected (toUnsigned literalPerRound))
    obtain ⟨hgiven, hlog⟩ :=
      handOver_good id (h.take producer) producer hselected 0 consumers
    obtain ⟨hkept, hmore, hrest⟩ := ih hgiven (i + 1)
      (fun s hs => hproducers s (List.mem_cons_of_mem producer hs))
      (hadded.afterSelection (toUnsigned literalPerRound))
    exact ⟨hkept, hmore, ((hlog.append hrest).cons (by simp)).cons (by simp)⟩

omit [DecidableEq S] in
theorem collectClauses_good (i : ℕ) {d : DistributionSharing P} (hd : Holds o d.database)
    {clauses : List (LearnedClause P)} (hnew : ∀ c ∈ upcast clauses, o.good c) :
    Holds o (collectClauses i d clauses).1.database := by
  induction clauses generalizing d with
  | nil => exact hd
  | cons cls rest ih =>
    have hcls : o.good cls.toClauseExchange := hnew _ (by simp)
    have hrest (c : ClauseExchange P) (hc : c ∈ upcast rest) : o.good c :=
      hnew c (by
        rw [upcast_cons]
        exact List.mem_cons_of_mem _ hc)
    unfold collectClauses
    dsimp only
    split_ifs
    · exact ih (hd.addClause hcls) hrest
    · exact ih hd hrest
    · exact ih hd hrest

theorem collectLoop_good (h : Carries o queues) (i : ℕ) {producers : List S}
    (hproducers : ∀ s ∈ producers, o.exporter s) {d : DistributionSharing P}
    (hd : Holds o d.database) :
    let r := collectLoop i producers d queues
    Holds o r.1.database ∧ Carries o r.2.queues ∧ Handed o r.2.log := by
  induction producers generalizing i queues d with
  | nil => exact ⟨hd, h, Handed.nil⟩
  | cons producer rest ih =>
    unfold collectLoop
    dsimp only
    have hkept := collectClauses_good i hd (h.learned (hproducers producer List.mem_cons_self))
    obtain ⟨hmore, hqueues, hlog⟩ := ih (h.take producer) (i + 1)
      (fun s hs => hproducers s (List.mem_cons_of_mem producer hs)) hkept
    exact ⟨hmore, hqueues, hlog.cons (by simp)⟩

theorem deliverLoop_good (h : Carries o queues) {tmp : List (ClauseExchange P)}
    (htmp : ∀ c ∈ tmp, o.good c) (i : ℕ) (consumers : List S) (d : DistributionSharing P) :
    Carries o (deliverLoop tmp i consumers d queues).2.queues ∧
      Handed o (deliverLoop tmp i consumers d queues).2.log := by
  induction consumers generalizing i queues d with
  | nil => exact ⟨h, Handed.nil⟩
  | cons consumer rest ih =>
    unfold deliverLoop
    dsimp only
    have hchosen : ∀ c ∈ (clausesToAdd i (d.solverFilters i) tmp).1, o.good c := by
      intro c hc
      exact htmp c (clausesToAdd_subset i _ tmp hc)
    obtain ⟨hqueues, hlog⟩ := ih (h.give consumer hchosen) (i + 1) _
    refine ⟨hqueues, hlog.cons fun k cs heq => ?_⟩
    obtain ⟨-, rfl⟩ := Event.handed.inj heq
    exact hchosen

omit [DecidableEq S] in
theorem addToExternal_good {comm : MpiComm P} (h : Holds o comm.clausesToExport)
    {clauses : List (LearnedClause P)} (hnew : ∀ c ∈ clauses, o.good c.toClauseExchange) :
    Holds o (addToExternal comm clauses).1.clausesToExport := by
  induction clauses generalizing comm with
  | nil => exact h
  | cons cls rest ih =>
    have hrest (c : LearnedClause P) (hc : c ∈ rest) : o.good c.toClauseExchange :=
      hnew c (List.mem_cons_of_mem cls hc)
    unfold addToExternal
    dsimp only
    split_ifs
    · refine ih ?_ hrest
      exact Holds.addClause h (hnew cls List.mem_cons_self)
    · exact ih h hrest

omit [DecidableEq S] in
theorem addClausesToExternal_good {comm : MpiComm P} (h : Holds o comm.clausesToExport)
    {clauses : List (LearnedClause P)} (hnew : ∀ c ∈ clauses, o.good c.toClauseExchange) :
    Holds o (addClausesToExternal comm clauses).1.clausesToExport := by
  unfold addClausesToExternal
  split_ifs
  · exact h
  · exact addToExternal_good h hnew

theorem distributionSharing_good {literalPerRound : ℤ} {filterFlag : Bool}
    {producers consumers : List S} {d : DistributionSharing P} {comm : MpiComm P}
    {r : DistributionOutcome S P}
    (hr : distributionSharing literalPerRound filterFlag producers consumers d comm queues = some r)
    (h : Carries o queues) (hproducers : ∀ s ∈ producers, o.exporter s)
    (hd : Holds o d.database) (hexport : Holds o comm.clausesToExport)
    (himport : ∀ c ∈ comm.clausesToImport, o.good c) :
    Carries o r.queues ∧ Handed o r.log ∧ Holds o r.sharing.database ∧
      Holds o r.comm.clausesToExport ∧ ∀ c ∈ r.comm.clausesToImport, o.good c := by
  unfold distributionSharing at hr
  dsimp only at hr
  split_ifs at hr
  obtain rfl := Option.some.inj hr
  have hmade : Holds o (makeFilters filterFlag consumers.length d).database := by
    rwa [makeFilters_database]
  obtain ⟨hcollected, hqueues, hlog⟩ := collectLoop_good h 0 hproducers hmade
  generalize collectLoop 0 producers (makeFilters filterFlag consumers.length d) queues =
    collected at hcollected hqueues hlog ⊢
  have hselected := hcollected.selected (toUnsigned literalPerRound)
  generalize (collected.1.database.giveSelection (toUnsigned literalPerRound)).selectedCls =
    selection at hselected ⊢
  rw [getClausesFromExternal_eq, addClausesToExternal_import]
  have htmp : ∀ c ∈ upcast selection ++ comm.clausesToImport, o.good c := by
    intro c hc
    rcases List.mem_append.mp hc with hc | hc
    · exact good_upcast hselected c hc
    · exact himport c hc
  obtain ⟨hdelivered, hhanded⟩ := deliverLoop_good hqueues htmp 0 consumers
    { collected.1 with
      database := collected.1.database.afterSelection (toUnsigned literalPerRound) }
  refine ⟨hdelivered, hlog.append (hhanded.cons (by simp)), ?_, ?_, by simp⟩
  · rw [deliverLoop_database]
    exact hcollected.afterSelection _
  · exact addClausesToExternal_good hexport hselected

end Rounds

/-! ### The pipeline -/

section Pipeline

variable [DecidableEq S] [DecidableEq I] {setup : Setup S I} {store : Store S I P}

/-- What an operation puts into the containers from outside is good. -/
structure Feeds (o : Origin S P) (setup : Setup S I) (store : Store S I P)
    (a : Action S I P) : Prop where
  exported : ∀ s clause, a = .exportClause s clause → o.exporter s →
    o.good { clause.toClauseExchange with fromId := setup.id s }
  received : ∀ malloc payload d, a = .receiveClauses malloc payload →
    receiveClauses setup.shrLit malloc payload store.comm = some d → ∀ c ∈ d.queued, o.good c

omit [DecidableEq I] in
theorem Origins.withQueues (h : Origins o store) (s : S) {q : SolverQueues P}
    (hexport : o.exporter s → ∀ c ∈ q.clausesToExport, o.good c.toClauseExchange)
    (hunits : ∀ c ∈ q.unitsToImport, o.good c) (hclauses : ∀ c ∈ q.clausesToImport, o.good c) :
    Origins o (store.withQueues s q) :=
  { h with queues := h.queues.update s hexport hunits hclauses }

omit [DecidableEq S] in
theorem Origins.finish (h : Origins o store) (i : I) (strategy : Strategy P)
    (hstrategy : HeldBy o strategy) {r : Outcome S P} (hqueues : Carries o r.queues)
    (hlog : Handed o r.log) : Origins o (store.finish i strategy r) := by
  refine ⟨hqueues, fun j => ?_, h.toExport, h.toImport, fun j => ?_⟩
  · simp only [Store.finish, Function.update_apply]
    split_ifs
    · exact hstrategy
    · exact h.strategies j
  · simp only [Store.finish, Function.update_apply]
    split_ifs
    · exact (h.handed i).append hlog
    · exact h.handed j

theorem origins_doSharing (h : Origins o store) {i : I}
    (hproducers : ∀ s ∈ setup.producers i, o.exporter s) {r : Store S I P × List (Call P)}
    (hr : SharingSystem.doSharing setup i store = some r) : Origins o r.1 := by
  have hheld := h.strategies i
  unfold SharingSystem.doSharing at hr
  split at hr
  case h_1 =>
    obtain rfl := Option.some.inj hr
    obtain ⟨hqueues, hlog⟩ := simpleSharing_good setup.id h.queues (setup.consumers i) 0
      hproducers
    exact h.finish i .simple trivial hqueues hlog
  case h_2 database hstrategy =>
    obtain ⟨out, hout, rfl⟩ := Option.map_eq_some_iff.mp hr
    rw [hstrategy] at hheld
    unfold hordeSatSharing at hout
    split_ifs at hout
    obtain rfl := Option.some.inj hout
    obtain ⟨hkept, hqueues, hlog⟩ := hordeSatLoop_good setup.id h.queues setup.shrLit
      (setup.consumers i) 0 hproducers hheld
    exact h.finish i (.hordeSat _) hkept hqueues hlog
  case h_3 sharing hstrategy =>
    obtain ⟨out, hout, rfl⟩ := Option.map_eq_some_iff.mp hr
    rw [hstrategy] at hheld
    obtain ⟨hqueues, hlog, hdatabase, hexport, himport⟩ :=
      distributionSharing_good hout h.queues hproducers hheld h.toExport h.toImport
    have hfinish := h.finish i (.distribution out.sharing) hdatabase hqueues hlog
    exact ⟨hfinish.queues, hfinish.strategies, hexport, himport, hfinish.handed⟩

theorem Origins.effect (h : Origins o store)
    (hproducers : ∀ i, ∀ s ∈ setup.producers i, o.exporter s) {a : Action S I P}
    (hfeeds : Feeds o setup store a) {r : Store S I P × List (Call P)}
    (hr : SharingSystem.effect setup store a = some r) : Origins o r.1 := by
  cases a with
  | exportClause s clause =>
    obtain rfl := Option.some.inj hr
    refine h.withQueues s (fun hs c hc => ?_) (h.queues.units s) (h.queues.clauses s)
    rcases List.mem_append.mp hc with hc | hc
    · exact h.queues.exported s hs c hc
    · rw [List.mem_singleton.mp hc]
      exact hfeeds.exported s clause rfl hs
  | doSharing i => exact origins_doSharing h (hproducers i) hr
  | exportLearnedClauses =>
    obtain ⟨e, he, rfl⟩ := Option.map_eq_some_iff.mp hr
    obtain ⟨-, himport, hexport, -⟩ := exportLearnedClauses_spec he
    refine ⟨h.queues, h.strategies, ?_, ?_, h.handed⟩
    · rw [hexport]
      exact h.toExport.afterSelection _
    · rw [himport]
      exact h.toImport
  | receiveClauses malloc payload =>
    obtain ⟨d, hd, rfl⟩ := Option.map_eq_some_iff.mp hr
    have hdecoded := receiveClauses_decoded hd
    refine ⟨h.queues, h.strategies, ?_, ?_, h.handed⟩
    · rw [hdecoded.toExport]
      exact h.toExport
    · rw [hdecoded.toImport]
      intro c hc
      rcases List.mem_append.mp hc with hc | hc
      · exact h.toImport c hc
      · exact hfeeds.received malloc payload d rfl hd c hc
  | importUnit s =>
    simp only [SharingSystem.effect, SharingSystem.importUnit] at hr
    split at hr
    case h_1 =>
      obtain rfl := Option.some.inj hr
      exact h
    case h_2 cls rest hunits =>
      obtain rfl := Option.some.inj hr
      refine h.withQueues s (h.queues.exported s) (fun c hc => ?_) (h.queues.clauses s)
      exact h.queues.units s c (hunits ▸ List.mem_cons_of_mem cls hc)
  | importUnits s =>
    obtain rfl := Option.some.inj hr
    refine h.withQueues s (h.queues.exported s) ?_ (h.queues.clauses s)
    rw [getClauses_eq]
    simp
  | importClause s =>
    simp only [SharingSystem.effect, SharingSystem.importClause] at hr
    split at hr
    case h_1 =>
      obtain rfl := Option.some.inj hr
      exact h
    case h_2 cls rest hclauses =>
      obtain rfl := Option.some.inj hr
      refine h.withQueues s (h.queues.exported s) (h.queues.units s) (fun c hc => ?_)
      exact h.queues.clauses s c (hclauses ▸ List.mem_cons_of_mem cls hc)

end Pipeline

/-! ### Before anything is learned -/

section Start

theorem heldBy_fresh {strategy : Strategy P} (h : strategy.Fresh) : HeldBy o strategy := by
  cases strategy with
  | simple => trivial
  | hordeSat database =>
    obtain rfl := h
    exact Holds.empty
  | distribution sharing =>
    obtain rfl := h
    exact Holds.empty

theorem init_empty (importBuf exportBuf : ℕ → ℤ) (rank size group : ℤ) :
    ((MpiComm.fresh importBuf exportBuf).init rank size group : MpiComm P).clausesToExport =
        ClauseDatabase.empty ∧
      ((MpiComm.fresh importBuf exportBuf).init rank size group : MpiComm P).clausesToImport =
        [] := by
  unfold MpiComm.init
  split_ifs <;> exact ⟨rfl, rfl⟩

theorem origins_start {s : State S I P} [DecidableEq P] (h : Start s) : Origins o s.store := by
  obtain ⟨importBuf, exportBuf, rank, size, group, hcomm⟩ := h.comm
  obtain ⟨hexport, himport⟩ := @init_empty P importBuf exportBuf rank size group
  refine ⟨⟨?_, ?_, ?_⟩, fun i => heldBy_fresh (h.strategy i), ?_, ?_, fun i => ?_⟩
  · intro t _ c hc
    simp [h.queues t, SolverQueues.empty] at hc
  · intro t c hc
    simp [h.queues t, SolverQueues.empty] at hc
  · intro t c hc
    simp [h.queues t, SolverQueues.empty] at hc
  · rw [hcomm, hexport]
    exact Holds.empty
  · rw [hcomm, himport]
    simp
  · rw [h.log i]
    exact Handed.nil

end Start

end Painless.ClauseOrigins
