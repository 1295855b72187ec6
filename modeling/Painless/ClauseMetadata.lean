import Painless.ClauseOrigins
import Painless.SolverInterface

/-!
The fields of the clauses that the import callbacks read. The export callbacks of
the four engines write lbd for every clause of two or more literals and stamp it
with the id of the solver; the decoder of CLAUSE messages writes no lbd, and -1
as the origin. Lingeling and Maple read lbd when they import a clause, and
Glucose asserts that the origin is no negative number.
-/
namespace Painless.ClauseMetadata

open RefCount SharedClauses ClauseCommunicator SharingStrategies SharingSystem ClauseOrigins
open SolverInterface Transitions

variable {S I P : Type*}

/-- The solvers behind the queues. The factory counts their ids up from 0, and
the limit is the one their export callback compares with. -/
structure Engines (S I : Type*) extends Setup S I where
  type : S → SolverType
  limit : S → ℤ
  id_nonneg : ∀ s, 0 ≤ id s

/-! ### The export callbacks -/

/-- A clause as an engine gives it to its callback. -/
structure Learned where
  lits : List ℤ
  pos : 0 < lits.length
  glue : ℤ

def Learned.toClause (l : Learned) (ptr : P) (lbd : Option ℤ) (id : ℤ) : LearnedClause P where
  ptr := ptr
  lbd := lbd
  fromId := id
  size := l.lits.length
  lits := l.lits
  size_eq := rfl
  size_pos := l.pos

def unit (lit : ℤ) : Learned := ⟨[lit], Nat.one_pos, 1⟩

section Callbacks

variable (ptr : P) (id limit : ℤ) (l : Learned)

/-- Lingeling, which leaves lbd as malloc left it. -/
def produceUnit (lit : ℤ) : LearnedClause P := (unit lit).toClause ptr none id

/-- Lingeling -/
def produce : Option (LearnedClause P) :=
  match l.lits with
  | [lit] => some (produceUnit ptr id lit)
  | _ =>
    if l.glue > limit ∨ limit < 0 then none
    else some (l.toClause ptr (some l.glue) id)

def glucoseExportUnary (lit : ℤ) : LearnedClause P := (unit lit).toClause ptr (some 1) id

def glucoseExportClause : Option (LearnedClause P) :=
  if l.glue > limit ∨ limit ≤ 0 then none else some (l.toClause ptr (some l.glue) id)

def cbkMapleCOMSPSExportClause : Option (LearnedClause P) :=
  if l.glue > limit then none else some (l.toClause ptr (some l.glue) id)

/-- The glue value is made up. -/
def minisatExportClause : Option (LearnedClause P) :=
  if (l.lits.length : ℤ) > limit then none
  else some (l.toClause ptr (some l.lits.length) id)

/-- The callback that an engine calls for a learned clause. -/
def exportCallback : SolverType → Option (LearnedClause P)
  | .glucose => glucoseExportClause ptr id limit l
  | .lingeling => produce ptr id limit l
  | .maple => cbkMapleCOMSPSExportClause ptr id limit l
  | .minisat => minisatExportClause ptr id limit l

/-- The callback for a unit clause, where the engine has one. -/
def exportUnitCallback (lit : ℤ) : SolverType → Option (LearnedClause P)
  | .glucose => some (glucoseExportUnary ptr id lit)
  | .lingeling => some (produceUnit ptr id lit)
  | .maple => none
  | .minisat => none

end Callbacks

/-! ### Which fields are written -/

theorem decodeWord_lbd (malloc : ℕ → P) {d : Decoding P} (hd : ∀ c ∈ d.queued, c.lbd = none)
    (word : ℤ) : ∀ c ∈ (decodeWord malloc d word).queued, c.lbd = none := by
  unfold decodeWord
  dsimp only
  split_ifs
  · exact hd
  · exact hd
  · intro c hc
    rcases List.mem_append.mp hc with hc | hc
    · exact hd c hc
    · rw [List.mem_singleton.mp hc]

theorem decodeWords_lbd (malloc : ℕ → P) {d : Decoding P} (hd : ∀ c ∈ d.queued, c.lbd = none)
    (words : List ℤ) : ∀ c ∈ (words.foldl (decodeWord malloc) d).queued, c.lbd = none := by
  induction words generalizing d with
  | nil => exact hd
  | cons word rest ih => exact ih (decodeWord_lbd malloc hd word)

/-- The decoder never writes lbd. -/
theorem received_lbd {litPerRound : ℤ} {malloc : ℕ → P} {payload : ℕ → ℤ} {comm : MpiComm P}
    {d : Decoding P} (h : receiveClauses litPerRound malloc payload comm = some d) :
    ∀ c ∈ d.queued, c.lbd = none := by
  unfold receiveClauses handleReceivedClauses at h
  dsimp only at h
  split_ifs at h
  obtain rfl := Option.some.inj h
  exact decodeWords_lbd malloc (by simp) _

/-- An export callback writes lbd for a clause of two or more literals. -/
theorem exportCallback_lbd {ptr : P} {id limit : ℤ} {l : Learned} {type : SolverType}
    {c : LearnedClause P} (h : exportCallback ptr id limit l type = some c) (hsize : 2 ≤ c.size) :
    c.lbd ≠ none := by
  have hwritten {lbd : ℤ} (hc : l.toClause ptr (some lbd) id = c) : c.lbd ≠ none := by
    rw [← hc]
    simp [Learned.toClause]
  cases type with
  | glucose =>
    simp only [exportCallback, glucoseExportClause] at h
    split_ifs at h
    exact hwritten (Option.some.inj h)
  | lingeling =>
    simp only [exportCallback, produce] at h
    split at h
    · rw [← Option.some.inj h] at hsize
      simp [produceUnit, unit, Learned.toClause] at hsize
    · split_ifs at h
      exact hwritten (Option.some.inj h)
  | maple =>
    simp only [exportCallback, cbkMapleCOMSPSExportClause] at h
    split_ifs at h
    exact hwritten (Option.some.inj h)
  | minisat =>
    simp only [exportCallback, minisatExportClause] at h
    split_ifs at h
    exact hwritten (Option.some.inj h)

theorem exportUnitCallback_size {ptr : P} {id lit : ℤ} {type : SolverType} {c : LearnedClause P}
    (h : exportUnitCallback ptr id lit type = some c) : c.size = 1 := by
  cases type with
  | glucose => rw [← Option.some.inj h]; rfl
  | lingeling => rw [← Option.some.inj h]; rfl
  | maple => simp [exportUnitCallback] at h
  | minisat => simp [exportUnitCallback] at h

/-! ### The pipeline -/

structure State (S I P : Type*) extends SharingSystem.State S I P where
  /-- History: the clauses that handleReceivedClauses has made. -/
  received : List (ClauseExchange P)
  /-- History: the clauses that import callbacks have given to the engines. -/
  imported : List (S × ClauseExchange P)

inductive Action (S I P : Type*)
  | exportUnit (s : S) (ptr : P) (lit : ℤ)
  | exportClause (s : S) (ptr : P) (learned : Learned)
  | doSharing (i : I)
  | exportLearnedClauses
  | receiveClauses (malloc : ℕ → P) (payload : ℕ → ℤ)
  | importUnit (s : S)
  | importUnits (s : S)
  | importClause (s : S)

variable (engines : Engines S I)

/-- The step of the queues; a callback that keeps its clause back takes none. -/
def operation : Action S I P → Option (SharingSystem.Action S I P)
  | .exportUnit s ptr lit =>
    (exportUnitCallback ptr (engines.id s) lit (engines.type s)).map (.exportClause s)
  | .exportClause s ptr learned =>
    (exportCallback ptr (engines.id s) (engines.limit s) learned (engines.type s)).map
      (.exportClause s)
  | .doSharing i => some (.doSharing i)
  | .exportLearnedClauses => some .exportLearnedClauses
  | .receiveClauses malloc payload => some (.receiveClauses malloc payload)
  | .importUnit s => some (.importUnit s)
  | .importUnits s => some (.importUnits s)
  | .importClause s => some (.importClause s)

def newlyReceived (s : State S I P) : Action S I P → List (ClauseExchange P)
  | .receiveClauses malloc payload =>
    match receiveClauses engines.shrLit malloc payload s.store.comm with
    | some d => d.queued
    | none => []
  | _ => []

/-- consumeCls, glucoseImportClause, cbkMapleCOMSPSImportClause and
minisatImportClause take the head of clausesToImport. -/
def newlyImported (s : State S I P) : Action S I P → List (S × ClauseExchange P)
  | .importClause t => (s.store.queues t).clausesToImport.head?.toList.map (t, ·)
  | _ => []

/-- What the import callback of an engine relies on: lbd has been written, and
the assertion of parallelImportClauses holds. -/
def Initialised (type : SolverType) (c : ClauseExchange P) : Prop :=
  2 ≤ c.size → c.lbd ≠ none ∧ (type = .glucose → 0 ≤ c.fromId)

/-- No import callback takes a clause of two or more literals that has been
decoded from a message. -/
def TakesLocal (s : State S I P) : Action S I P → Prop
  | .importClause t =>
    ∀ c ∈ (s.store.queues t).clausesToImport.head?, 2 ≤ c.size → c ∉ s.received
  | _ => True

/-! ### The two kinds of clauses -/

/-- A clause has been exported here with all its fields, or received. -/
def known (received : List (ClauseExchange P)) : Origin S P where
  good c := 2 ≤ c.size → (c.lbd ≠ none ∧ 0 ≤ c.fromId) ∨ c ∈ received
  exporter _ := True

structure MetadataOk (s : State S I P) : Prop where
  known : Origins (known s.received) s.store
  unwritten : ∀ c ∈ s.received, c.lbd = none

variable {engines} {s t : State S I P}

/-- What goes into the containers is known, afterwards. -/
theorem feeds_known {a : Action S I P} {b : SharingSystem.Action S I P}
    (hb : operation engines a = some b) :
    Feeds (known (s.received ++ newlyReceived engines s a)) engines.toSetup s.store b := by
  constructor
  · intro u clause heq _ hsize
    subst heq
    refine Or.inl ⟨?_, engines.id_nonneg u⟩
    cases a with
    | exportUnit u' ptr lit =>
      obtain ⟨c, hc, heq⟩ := Option.map_eq_some_iff.mp hb
      obtain ⟨-, rfl⟩ := SharingSystem.Action.exportClause.inj heq
      have hone : c.size = 1 := exportUnitCallback_size hc
      change 2 ≤ c.size at hsize
      omega
    | exportClause u' ptr learned =>
      obtain ⟨c, hc, heq⟩ := Option.map_eq_some_iff.mp hb
      obtain ⟨-, rfl⟩ := SharingSystem.Action.exportClause.inj heq
      exact exportCallback_lbd hc hsize
    | _ => simp [operation] at hb
  · intro malloc payload d heq hd c hc _
    subst heq
    refine Or.inr (List.mem_append_right _ ?_)
    cases a with
    | receiveClauses malloc' payload' =>
      obtain ⟨rfl, rfl⟩ := SharingSystem.Action.receiveClauses.inj (Option.some.inj hb)
      simp only [newlyReceived, hd]
      exact hc
    | exportUnit u ptr lit | exportClause u ptr learned =>
      obtain ⟨c', -, heq⟩ := Option.map_eq_some_iff.mp hb
      cases heq
    | _ => simp [operation] at hb

/-- A clause at the head of a queue has its fields exactly if it is no received
one. -/
theorem MetadataOk.initialised_iff (hs : MetadataOk s) {u : S} {c : ClauseExchange P}
    (hc : c ∈ (s.store.queues u).clausesToImport) (type : SolverType) :
    Initialised type c ↔ (2 ≤ c.size → c ∉ s.received) := by
  refine forall_congr' fun hsize => ?_
  constructor
  · intro ⟨hlbd, _⟩ hmem
    exact hlbd (hs.unwritten c hmem)
  · intro hnot
    obtain ⟨hlbd, hfrom⟩ := (hs.known.queues.clauses u c hc hsize).resolve_right hnot
    exact ⟨hlbd, fun _ => hfrom⟩

theorem takesLocal_iff (hs : MetadataOk s) (a : Action S I P) :
    TakesLocal s a ↔ ∀ r ∈ newlyImported s a, Initialised (engines.type r.1) r.2 := by
  cases a with
  | importClause u =>
    simp only [TakesLocal, newlyImported]
    cases hqueue : (s.store.queues u).clausesToImport with
    | nil => simp
    | cons c rest =>
      have hc : c ∈ (s.store.queues u).clausesToImport := by
        rw [hqueue]
        exact List.mem_cons_self
      simp [hs.initialised_iff hc]
  | _ => simp [TakesLocal, newlyImported]

/-! ### Runs -/

variable [DecidableEq S] [DecidableEq I] [DecidableEq P]

variable (engines) in
def step (s : State S I P) (a : Action S I P) : Option (State S I P) :=
  (operation engines a).bind fun b =>
    (SharingSystem.step engines.toSetup s.toState b).map fun t =>
      { toState := t
        received := s.received ++ newlyReceived engines s a
        imported := s.imported ++ newlyImported s a }

variable (engines) in
def machine : Machine (State S I P) (Action S I P) where
  Init s := Start s.toState ∧ s.received = [] ∧ s.imported = []
  step := step engines

theorem metadata_step {a : Action S I P} (hs : MetadataOk s) (h : step engines s a = some t) :
    MetadataOk t := by
  obtain ⟨b, hb, h⟩ := Option.bind_eq_some_iff.mp h
  obtain ⟨u, hu, rfl⟩ := Option.map_eq_some_iff.mp h
  obtain ⟨r, hr, hheap⟩ := Option.bind_eq_some_iff.mp hu
  obtain ⟨heap, -, rfl⟩ := Option.map_eq_some_iff.mp hheap
  constructor
  · have hgrown : Origins (known (s.received ++ newlyReceived engines s a)) s.store := by
      refine Origins.mono ?_ ?_ hs.known
      · exact fun c hc hsize => (hc hsize).imp_right (List.mem_append_left _)
      · exact fun _ h => h
    exact hgrown.effect (fun _ _ _ => trivial) (feeds_known hb) hr
  · intro c hc
    rcases List.mem_append.mp hc with hc | hc
    · exact hs.unwritten c hc
    · cases a with
      | receiveClauses malloc payload =>
        simp only [newlyReceived] at hc
        split at hc
        case h_1 d hd => exact received_lbd hd c hc
        case h_2 => simp at hc
      | _ => simp [newlyReceived] at hc

theorem metadata_start (h : (machine engines).Init s) : MetadataOk s := by
  obtain ⟨hstart, hreceived, -⟩ := h
  refine ⟨origins_start hstart, ?_⟩
  rw [hreceived]
  simp

/-- Over a whole run, every clause that an engine gets has its fields written
exactly if no import callback takes a clause that came in a message. -/
theorem metadata_initialised_iff (engines : Engines S I) (s t : State S I P)
    (hs : (machine engines).Init s) (as : List (Action S I P))
    (hrun : (machine engines).run s as = some t) :
    (∀ r ∈ t.imported, Initialised (engines.type r.1) r.2) ↔
      (machine engines).Meets TakesLocal s as := by
  have hstep (rs : List (S × ClauseExchange P)) (u : State S I P) (a : Action S I P)
      (v : State S I P) (hu : MetadataOk u ∧ u.imported = rs)
      (hv : (machine engines).step u a = some v) :
      ∃ new, (MetadataOk v ∧ v.imported = rs ++ new) ∧
        (TakesLocal u a ↔ ∀ r ∈ new, Initialised (engines.type r.1) r.2) := by
    refine ⟨newlyImported u a, ⟨metadata_step hu.1 hv, ?_⟩, takesLocal_iff hu.1 a⟩
    obtain ⟨b, -, h⟩ := Option.bind_eq_some_iff.mp hv
    obtain ⟨w, -, rfl⟩ := Option.map_eq_some_iff.mp h
    change u.imported ++ _ = _
    rw [hu.2]
  obtain ⟨new, ⟨-, himported⟩, hmeets⟩ :=
    Machine.run_meets_forall _ _ hstep ⟨metadata_start hs, hs.2.2⟩ as hrun
  rw [himported, List.nil_append]
  exact hmeets.symm

/-! ### A received clause -/

/-- A Lingeling and a Glucose solver behind one DistributionSharing. -/
def twoEngines : Engines (Fin 2) Unit where
  toSetup := pairSetup 10
  type s := if s = 0 then .lingeling else .glucose
  limit _ := 5
  id_nonneg _ := Int.natCast_nonneg _

/-- Rank 1 of two. -/
def quietRank : State (Fin 2) Unit ℕ where
  store :=
    { queues := fun _ => SolverQueues.empty
      strategy := fun _ => .distribution DistributionRounds.DistributionSharing.fresh
      filterFlag := false
      comm := (MpiComm.fresh (fun _ => 0) fun _ => 0).init 1 2 0
      log := fun _ => [] }
  heap := counting 0
  received := []
  imported := []

theorem quietRank_init : (machine twoEngines).Init quietRank :=
  ⟨⟨fun _ => rfl, fun _ => rfl, rfl, ⟨_, _, 1, 2, 0, rfl⟩, fun _ => rfl, rfl⟩, rfl, rfl⟩

/-- A message with the clause 1, 2 arrives, and both solvers get the clause. -/
def receivedRun : List (Action (Fin 2) Unit ℕ) :=
  [.receiveClauses id fun i => [3, 1, 2, 0].getD i 0, .doSharing (), .importClause 0,
    .importClause 1]

/-- Glucose learns the clause 1, 2, and Lingeling gets it. -/
def learnedRun : List (Action (Fin 2) Unit ℕ) :=
  [.exportClause 1 0 ⟨[1, 2], by decide, 2⟩, .doSharing (), .importClause 0]

theorem metadata_initialised_learned : ∃ t, (machine twoEngines).run quietRank learnedRun = some t ∧
    ((∀ r ∈ t.imported, Initialised (twoEngines.type r.1) r.2) ↔
      (machine twoEngines).Meets TakesLocal quietRank learnedRun) := by
  obtain ⟨t, ht⟩ : ∃ t, (machine twoEngines).run quietRank learnedRun = some t := ⟨_, rfl⟩
  exact ⟨t, ht, metadata_initialised_iff twoEngines quietRank t quietRank_init learnedRun ht⟩

/-- Lingeling reads an lbd that nobody wrote, and the assertion of Glucose
fails. -/
theorem received_clause_uninitialised :
    ∃ t c, (machine twoEngines).run quietRank receivedRun = some t ∧
      t.imported = [(0, c), (1, c)] ∧ c.lits = [1, 2] ∧
      ¬ Initialised (twoEngines.type 0) c ∧ ¬ Initialised (twoEngines.type 1) c := by
  refine ⟨_, ⟨0, none, -1, 2, [1, 2], rfl⟩, rfl, rfl, rfl, fun h => ?_, fun h => ?_⟩
  · exact (h (by decide)).1 rfl
  · exact absurd ((h (by decide)).2 rfl) (by decide)

end Painless.ClauseMetadata
