import Mathlib.Data.Multiset.UnionInter
import Painless.ClauseCommunicator
import Painless.Transitions

/-!
What one rank sends and queues over a whole run. The communicator's filter is
shared by both directions, so a clause is registered once for either; but the
filter is asked when a clause is put into the database, not when it is sent, so
a clause that is received while it waits there is still sent.
-/
namespace Painless.NoEcho

open SharedClauses SharedDatabase DuplicateFilter ClauseCommunicator Transitions

variable {P : Type*}

/-- What happens to a literal sequence on the rank: it is registered for export,
sent in a CLAUSE message, received in one, or queued for import. -/
inductive Event
  | registered (lits : List ℤ)
  | sent (lits : List ℤ)
  | received (lits : List ℤ)
  | queued (lits : List ℤ)
  deriving DecidableEq

structure State (P : Type*) where
  comm : MpiComm P
  log : List Event

inductive Action (P : Type*)
  | addClausesToExternal (clauses : List (LearnedClause P))
  | exportLearnedClauses
  | receiveClauses (malloc : ℕ → P) (payload : ℕ → ℤ)

def registeredEvents (comm : MpiComm P) (clauses : List (LearnedClause P)) : List Event :=
  (registered comm clauses).map fun c => .registered c.lits

/-- A rank alone in its group drops its selection without sending it. -/
def sentEvents (litPerRound : ℤ) (comm : MpiComm P) (e : Export P) : List Event :=
  if e.sent = [] then []
  else (exportSelection litPerRound comm).map fun c => .sent c.lits

def receivedEvents (d : Decoding P) : List Event :=
  d.presented.map .received ++ d.queued.map fun c => .queued c.lits

def step (litPerRound : ℤ) (s : State P) : Action P → Option (State P)
  | .addClausesToExternal clauses =>
    some ⟨(addClausesToExternal s.comm clauses).1, s.log ++ registeredEvents s.comm clauses⟩
  | .exportLearnedClauses =>
    (exportLearnedClauses litPerRound s.comm).map fun e =>
      ⟨e.comm, s.log ++ sentEvents litPerRound s.comm e⟩
  | .receiveClauses malloc payload =>
    (receiveClauses litPerRound malloc payload s.comm).map fun d =>
      ⟨d.comm, s.log ++ receivedEvents d⟩

/-- The communicator of a rank as `init` leaves it. -/
def Start (s : State P) : Prop :=
  ∃ importBuf exportBuf rank size sharingGroupSize,
    s = ⟨(MpiComm.fresh importBuf exportBuf).init rank size sharingGroupSize, []⟩

def machine (P : Type*) (litPerRound : ℤ) : Machine (State P) (Action P) where
  Init := Start
  step := step litPerRound

def Event.sent? : Event → Option (List ℤ)
  | .sent l => some l
  | _ => none

def Event.queued? : Event → Option (List ℤ)
  | .queued l => some l
  | _ => none

/-- The sequences sent, in order. -/
def sentOf (log : List Event) : List (List ℤ) := log.filterMap Event.sent?

def queuedOf (log : List Event) : List (List ℤ) := log.filterMap Event.queued?

/-- The second event may follow the first. -/
def Apart : Event → Event → Prop
  | .received l, .registered l' => l ≠ l'
  | .registered l, .queued l' => l ≠ l'
  | .queued l, .queued l' => l ≠ l'
  | _, _ => True

/-- Every sequence was registered for export before it was sent. -/
def RegisteredFirst (log : List Event) : Prop :=
  ∀ before l after, log = before ++ .sent l :: after → .registered l ∈ before

structure EchoInvariant (s : State P) : Prop where
  known : ∀ l, .registered l ∈ s.log ∨ .received l ∈ s.log →
    s.comm.externalFilter.Registered l
  received : ∀ l, .queued l ∈ s.log → .received l ∈ s.log
  waiting : ∀ c ∈ s.comm.clausesToExport.contents, .registered c.lits ∈ s.log
  once : (s.comm.clausesToExport.contents.map (fun c => c.lits) + ↑(sentOf s.log)).Nodup
  apart : s.log.Pairwise Apart
  first : RegisteredFirst s.log

theorem mem_sentOf {l : List ℤ} {log : List Event} : l ∈ sentOf log ↔ .sent l ∈ log := by
  simp only [sentOf, List.mem_filterMap]
  constructor
  · rintro ⟨e, he, heq⟩
    cases e <;> simp_all [Event.sent?]
  · exact fun h => ⟨_, h, rfl⟩

theorem RegisteredFirst.mem {log : List Event} (h : RegisteredFirst log) {l : List ℤ}
    (hl : .sent l ∈ log) : .registered l ∈ log := by
  obtain ⟨before, after, rfl⟩ := List.append_of_mem hl
  exact List.mem_append_left _ (h before l after rfl)

theorem RegisteredFirst.append {log batch : List Event} (h : RegisteredFirst log)
    (hbatch : ∀ l, .sent l ∈ batch → .registered l ∈ log) :
    RegisteredFirst (log ++ batch) := by
  intro before l after heq
  rcases List.append_eq_append_iff.mp heq with ⟨x, rfl, hx⟩ | ⟨x, hx, hx'⟩
  · have hl : .sent l ∈ batch := by
      rw [hx]
      exact List.mem_append_right _ List.mem_cons_self
    exact List.mem_append_left _ (hbatch l hl)
  · cases x with
    | nil =>
      have hl : .sent l ∈ batch := by
        rw [List.nil_append] at hx'
        rw [← hx']
        exact List.mem_cons_self
      rw [List.append_nil] at hx
      rw [← hx]
      exact hbatch l hl
    | cons e rest =>
      obtain ⟨rfl, -⟩ := List.cons.inj hx'
      exact h before l rest hx

section Steps

variable {s : State P} (h : EchoInvariant s)

include h

theorem EchoInvariant.registered_of_sent {l : List ℤ} (hl : l ∈ sentOf s.log) :
    s.comm.externalFilter.Registered l :=
  h.known l (.inl (h.first.mem (mem_sentOf.mp hl)))

/-- What one operation adds to the history is new to the filter where it is
registered for export or queued, and is known to it afterwards. -/
theorem EchoInvariant.append {comm : MpiComm P} {batch : List Event}
    (hkept : ∀ l, s.comm.externalFilter.Registered l → comm.externalFilter.Registered l)
    (hknown : ∀ l, .registered l ∈ batch ∨ .received l ∈ batch →
      comm.externalFilter.Registered l)
    (hqueued : ∀ l, .queued l ∈ batch → .received l ∈ batch)
    (hnew : ∀ l, .registered l ∈ batch ∨ .queued l ∈ batch →
      ¬ s.comm.externalFilter.Registered l)
    (hsent : ∀ l, .sent l ∈ batch → .registered l ∈ s.log)
    (hwaiting : ∀ c ∈ comm.clausesToExport.contents, .registered c.lits ∈ s.log ++ batch)
    (honce : (comm.clausesToExport.contents.map (fun c => c.lits) +
      ↑(sentOf (s.log ++ batch))).Nodup)
    (hapart : batch.Pairwise Apart) : EchoInvariant ⟨comm, s.log ++ batch⟩ where
  known l hl := by
    simp only [List.mem_append] at hl
    rcases hl with (hl | hl) | (hl | hl)
    · exact hkept l (h.known l (.inl hl))
    · exact hknown l (.inl hl)
    · exact hkept l (h.known l (.inr hl))
    · exact hknown l (.inr hl)
  received l hl := by
    rcases List.mem_append.mp hl with hl | hl
    · exact List.mem_append_left _ (h.received l hl)
    · exact List.mem_append_right _ (hqueued l hl)
  waiting := hwaiting
  once := honce
  apart := by
    refine List.pairwise_append.mpr ⟨h.apart, hapart, fun e he e' he' => ?_⟩
    cases e' with
    | received l => cases e <;> trivial
    | sent l => cases e <;> trivial
    | registered l =>
      cases e with
      | received k => exact fun heq => hnew l (.inl he') (h.known l (.inr (heq ▸ he)))
      | registered k | sent k | queued k => trivial
    | queued l =>
      cases e with
      | registered k => exact fun heq => hnew l (.inr he') (h.known l (.inl (heq ▸ he)))
      | queued k =>
        exact fun heq => hnew l (.inr he') (h.known l (.inr (h.received l (heq ▸ he))))
      | received k | sent k => trivial
  first := h.first.append hsent

theorem EchoInvariant.add (clauses : List (LearnedClause P)) :
    EchoInvariant ⟨(addClausesToExternal s.comm clauses).1,
      s.log ++ registeredEvents s.comm clauses⟩ := by
  obtain ⟨hcontents, hkept, hnew⟩ := addClausesToExternal_spec s.comm clauses
  have hbatch (e : Event) (he : e ∈ registeredEvents s.comm clauses) :
      ∃ c ∈ registered s.comm clauses, .registered c.lits = e := List.mem_map.mp he
  have hsent : sentOf (s.log ++ registeredEvents s.comm clauses) = sentOf s.log := by
    simp [sentOf, registeredEvents, Event.sent?, List.filterMap_append, Function.comp_def]
  have hold (l : List ℤ) (hl : l ∈ s.comm.clausesToExport.contents.map (fun c => c.lits) +
      ↑(sentOf s.log)) : s.comm.externalFilter.Registered l := by
    rcases Multiset.mem_add.mp hl with hl | hl
    · obtain ⟨c, hc, rfl⟩ := Multiset.mem_map.mp hl
      exact h.known _ (.inl (h.waiting c hc))
    · exact h.registered_of_sent (Multiset.mem_coe.mp hl)
  apply h.append hkept
  case hknown =>
    intro l hl
    rcases hl with hl | hl
    · obtain ⟨c, hc, heq⟩ := hbatch _ hl
      rw [← Event.registered.inj heq]
      exact (hnew c hc).2
    · obtain ⟨c, -, heq⟩ := hbatch _ hl
      cases heq
  case hqueued =>
    intro l hl
    obtain ⟨c, -, heq⟩ := hbatch _ hl
    cases heq
  case hnew =>
    intro l hl
    rcases hl with hl | hl
    · obtain ⟨c, hc, heq⟩ := hbatch _ hl
      rw [← Event.registered.inj heq]
      exact (hnew c hc).1
    · obtain ⟨c, -, heq⟩ := hbatch _ hl
      cases heq
  case hsent =>
    intro l hl
    obtain ⟨c, -, heq⟩ := hbatch _ hl
    cases heq
  case hwaiting =>
    intro c hc
    rcases Multiset.mem_add.mp (Multiset.mem_of_le hcontents hc) with hc | hc
    · exact List.mem_append_right _ (List.mem_map.mpr ⟨c, Multiset.mem_coe.mp hc, rfl⟩)
    · exact List.mem_append_left _ (h.waiting c hc)
  case honce =>
    rw [hsent]
    refine Multiset.nodup_of_le (Multiset.add_le_add_right (Multiset.map_le_map hcontents)) ?_
    rw [Multiset.map_add, add_assoc]
    refine Multiset.nodup_add.mpr ⟨registered_nodup s.comm clauses, h.once, ?_⟩
    refine Multiset.disjoint_left.mpr fun hl hl' => ?_
    obtain ⟨c, hc, rfl⟩ := Multiset.mem_map.mp hl
    exact (hnew c (Multiset.mem_coe.mp hc)).1 (hold _ hl')
  case hapart => exact List.pairwise_map.mpr (List.pairwise_of_forall fun _ _ => trivial)

theorem EchoInvariant.export {litPerRound : ℤ} {e : Export P}
    (he : exportLearnedClauses litPerRound s.comm = some e) :
    EchoInvariant ⟨e.comm, s.log ++ sentEvents litPerRound s.comm e⟩ := by
  obtain ⟨hfilter, -, hdatabase, -⟩ := exportLearnedClauses_spec he
  have hcontents := contents_afterSelection s.comm.clausesToExport (toUnsigned litPerRound)
  have hbatch : ∀ ev ∈ sentEvents litPerRound s.comm e,
      ∃ c ∈ exportSelection litPerRound s.comm, ev = .sent c.lits := by
    intro ev hev
    unfold sentEvents at hev
    split_ifs at hev
    · simp at hev
    · obtain ⟨c, hc, rfl⟩ := List.mem_map.mp hev
      exact ⟨c, hc, rfl⟩
  have hnone (ev : Event) (hev : ev.sent? = none) : ev ∉ sentEvents litPerRound s.comm e := by
    intro hmem
    obtain ⟨c, -, rfl⟩ := hbatch ev hmem
    cases hev
  have hsent : (↑(sentOf (s.log ++ sentEvents litPerRound s.comm e)) : Multiset (List ℤ)) ≤
      (↑(exportSelection litPerRound s.comm) : Multiset (LearnedClause P)).map
        (fun c => c.lits) + ↑(sentOf s.log) := by
    rw [sentOf, List.filterMap_append, ← Multiset.coe_add, add_comm]
    refine Multiset.add_le_add_right ?_
    unfold sentEvents
    split_ifs
    · exact Multiset.zero_le _
    · simp [List.filterMap_map, Function.comp_def, Event.sent?]
  apply h.append
  case hkept =>
    intro l hl
    rw [hfilter]
    exact hl
  case hknown => exact fun l hl => hl.elim (absurd · (hnone _ rfl)) (absurd · (hnone _ rfl))
  case hqueued => exact fun l hl => absurd hl (hnone _ rfl)
  case hnew => exact fun l hl => hl.elim (absurd · (hnone _ rfl)) (absurd · (hnone _ rfl))
  case hsent =>
    intro l hl
    obtain ⟨c, hc, heq⟩ := hbatch _ hl
    rw [Event.sent.inj heq]
    refine h.waiting c ?_
    rw [← hcontents]
    exact Multiset.mem_add.mpr (.inl (Multiset.mem_coe.mpr hc))
  case hwaiting =>
    intro c hc
    rw [hdatabase] at hc
    refine List.mem_append_left _ (h.waiting c ?_)
    rw [← hcontents]
    exact Multiset.mem_add.mpr (.inr hc)
  case honce =>
    refine Multiset.nodup_of_le ?_ h.once
    rw [hdatabase, ← hcontents, Multiset.map_add, add_assoc, add_left_comm]
    exact Multiset.add_le_add_left hsent
  case hapart =>
    unfold sentEvents
    split_ifs
    · exact List.Pairwise.nil
    · exact List.pairwise_map.mpr (List.pairwise_of_forall fun _ _ => trivial)

theorem EchoInvariant.receive {malloc : ℕ → P} {d : Decoding P}
    (hd : Decoded malloc s.comm d) : EchoInvariant ⟨d.comm, s.log ++ receivedEvents d⟩ := by
  have hevents (e : Event) (he : e ∈ receivedEvents d) :
      (∃ l ∈ d.presented, .received l = e) ∨
        ∃ l ∈ d.queued.map ClauseExchange.lits, .queued l = e := by
    simpa [receivedEvents] using he
  have hqueued (l : List ℤ) (hl : .queued l ∈ receivedEvents d) :
      l ∈ (sift id s.comm.externalFilter d.presented).1 := by
    rcases hevents _ hl with ⟨k, -, heq⟩ | ⟨k, hk, heq⟩
    · cases heq
    · rw [← Event.queued.inj heq, ← hd.queued_lits]
      exact hk
  have hnone (l : List ℤ) : .registered l ∉ receivedEvents d ∧ .sent l ∉ receivedEvents d := by
    simp [receivedEvents]
  have hsent : sentOf (s.log ++ receivedEvents d) = sentOf s.log := by
    simp [sentOf, receivedEvents, Event.sent?, List.filterMap_append, Function.comp_def]
  apply h.append
  case hkept =>
    intro l hl
    rw [hd.filter]
    exact hl.sift d.presented
  case hknown =>
    intro l hl
    rcases hevents _ (hl.resolve_left (hnone l).1) with ⟨k, hk, heq⟩ | ⟨k, -, heq⟩
    · rw [hd.filter, ← Event.received.inj heq]
      exact registered_sift _ hk
    · cases heq
  case hqueued =>
    intro l hl
    have hpresented : l ∈ d.presented := (sift_sublist _ _).subset (hqueued l hl)
    simp [receivedEvents, hpresented]
  case hnew =>
    intro l hl
    exact not_registered_of_sift (hqueued l (hl.resolve_left (hnone l).1))
  case hsent => exact fun l hl => absurd hl (hnone l).2
  case hwaiting =>
    intro c hc
    rw [hd.toExport] at hc
    exact List.mem_append_left _ (h.waiting c hc)
  case honce =>
    rw [hsent, hd.toExport]
    exact h.once
  case hapart =>
    refine List.pairwise_append.mpr ⟨?_, ?_, fun e he e' he' => ?_⟩
    · exact List.pairwise_map.mpr (List.pairwise_of_forall fun _ _ => trivial)
    · have hnodup : (d.queued.map ClauseExchange.lits).Nodup := by
        rw [hd.queued_lits, ← List.map_id (sift id _ _).1]
        exact sift_nodup _ _
      have hne : d.queued.Pairwise fun c c' => c.lits ≠ c'.lits := List.pairwise_map.mp hnodup
      exact List.pairwise_map.mpr hne
    · obtain ⟨l, -, rfl⟩ := List.mem_map.mp he
      obtain ⟨c, -, rfl⟩ := List.mem_map.mp he'
      trivial

end Steps

theorem echo_step {litPerRound : ℤ} {s t : State P} {a : Action P} (h : EchoInvariant s)
    (ht : step litPerRound s a = some t) : EchoInvariant t := by
  cases a with
  | addClausesToExternal clauses =>
    obtain rfl := Option.some.inj ht
    exact h.add clauses
  | exportLearnedClauses =>
    obtain ⟨e, he, rfl⟩ := Option.map_eq_some_iff.mp ht
    exact h.export he
  | receiveClauses malloc payload =>
    obtain ⟨d, hd, rfl⟩ := Option.map_eq_some_iff.mp ht
    exact h.receive (receiveClauses_decoded hd)

theorem echo_start {s : State P} (h : Start s) : EchoInvariant s := by
  obtain ⟨importBuf, exportBuf, rank, size, group, rfl⟩ := h
  have hempty : ((MpiComm.fresh importBuf exportBuf : MpiComm P).init rank size
      group).clausesToExport = ClauseDatabase.empty := by
    unfold MpiComm.init
    split_ifs <;> rfl
  constructor
  case waiting => simp [hempty]
  case once => simp [hempty, sentOf]
  case first =>
    intro before l after heq
    simp at heq
  all_goals simp

/-- What the log of a rank never shows. -/
structure EchoFree (log : List Event) : Prop where
  sent_once : (sentOf log).Nodup
  /-- what is sent was registered for export, when no message had brought it -/
  sent_registered : ∀ before l after, log = before ++ .sent l :: after →
    ∃ earlier later, before = earlier ++ .registered l :: later ∧ .received l ∉ earlier
  queued_once : (queuedOf log).Nodup
  queued_new : ∀ before l after, log = before ++ .queued l :: after → .registered l ∉ before

/-- No literal sequence is sent twice, queued twice or queued after it was
registered for export, and none is registered for export and then sent that an
earlier message had brought. -/
theorem no_echo (litPerRound : ℤ) (s : State P)
    (h : (machine P litPerRound).Reach (fun _ _ => True) s) : EchoFree s.log := by
  have hinv : EchoInvariant s :=
    h.invariant EchoInvariant (fun _ => echo_start) fun _ _ _ _ hs _ ht => echo_step hs ht
  constructor
  case sent_once => exact Multiset.coe_nodup.mp (Multiset.nodup_add.mp hinv.once).2.1
  case sent_registered =>
    intro before l after heq
    obtain ⟨earlier, later, rfl⟩ := List.append_of_mem (hinv.first before l after heq)
    refine ⟨earlier, later, rfl, fun hreceived => ?_⟩
    have hapart := hinv.apart
    rw [heq, List.append_assoc] at hapart
    exact (List.pairwise_append.mp hapart).2.2 _ hreceived (.registered l) (by simp) rfl
  case queued_once =>
    refine List.pairwise_filterMap.mpr (hinv.apart.imp fun {e e'} hapart => ?_)
    cases e <;> cases e' <;> simp_all [Event.queued?, Apart]
  case queued_new =>
    intro before l after heq hregistered
    have hapart := hinv.apart
    rw [heq] at hapart
    exact (List.pairwise_append.mp hapart).2.2 _ hregistered (.queued l) (by simp) rfl

/-- Unit clause 5 is registered for export, then received, then sent. -/
def waitingRun : List (Action ℕ) :=
  [.addClausesToExternal [⟨⟨0, some 1, 0, 1, [5], rfl⟩, by decide⟩],
    .receiveClauses id fun i => [2, 5, 0].getD i 0, .exportLearnedClauses]

def waitingStart : State ℕ :=
  ⟨(MpiComm.fresh (fun _ => 0) fun _ => 0).init 0 2 0, []⟩

theorem waiting_reach {t : State ℕ}
    (h : (machine ℕ 10).run waitingStart waitingRun = some t) :
    (machine ℕ 10).Reach (fun _ _ => True) t := by
  have hstart : (machine ℕ 10).Init waitingStart := ⟨_, _, 0, 2, 0, rfl⟩
  exact Machine.Reach.of_run hstart h

theorem waiting_clause_sent_after_received :
    ∃ t, (machine ℕ 10).Reach (fun _ _ => True) t ∧
      [Event.received [5], Event.sent [5]].Sublist t.log :=
  ⟨_, waiting_reach rfl, by decide⟩

theorem no_echo_waiting :
    ∃ t, (machine ℕ 10).run waitingStart waitingRun = some t ∧ EchoFree t.log :=
  ⟨_, rfl, no_echo 10 _ (waiting_reach rfl)⟩

end Painless.NoEcho
