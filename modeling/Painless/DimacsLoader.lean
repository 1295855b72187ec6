import Painless.Decimal
import Painless.MachineIntegers
import Mathlib.Logic.Function.Iterate
import Mathlib.Tactic.Tauto

/-!
loadFormulaToSolvers: the loops over the characters of a DIMACS file. The
variable `c` is shared by all loops and holds the last character read, or end of
file. The loop that skips a comment stops at a newline only; the loop over the
digits of a number reads one character too many, which is dropped.
-/
namespace Painless.DimacsLoader

open Decimal MachineIntegers

/-! ### The loops -/

def isspace (c : Char) : Bool := c = ' ' || (9 ≤ c.toNat && c.toNat ≤ 13)

/-- Where the function stands. -/
inductive Loc where
  /-- the test of the outer loop -/
  | reading
  /-- the test of the loop that skips a line -/
  | skipping
  /-- the test of the loop over the digits of `num` -/
  | digits (num : ℤ)
  /-- behind the outer loop -/
  | done
  deriving DecidableEq

/-- The variables; `file` is what fgetc has not returned yet, one Char for each
byte, and `c` is none at end of file. -/
structure State where
  file : List Char
  c : Option Char
  neg : Bool
  cls : List ℤ
  clauses : List (List ℤ)
  loc : Loc

/-- At end of file fgetc returns EOF each time. -/
def State.fgetc (s : State) : State := { s with c := s.file.head?, file := s.file.tail }

def digitOf (c : Char) : ℤ := (c.toNat : ℤ) - '0'.toNat

/-- The end of a number: a literal of the current clause, or the zero that
closes it. -/
def State.addNumber (s : State) (num : ℤ) : State :=
  let num := if s.neg then intOf (num * -1) else num
  let s := { s with neg := false }
  if num ≠ 0 then { s with cls := s.cls ++ [num] }
  else { s with clauses := s.clauses ++ [s.cls], cls := [] }

/-- The body of the outer loop, up to its end, a `continue` or an inner loop. -/
def State.readChar (s : State) : State :=
  let s := s.fgetc
  match s.c with
  | none => s
  | some c =>
    if c = 'c' ∨ c = 'p' then { s with loc := .skipping }
    else if isspace c then s
    else if c = '-' then { s with neg := true }
    else if c.isDigit then { s.fgetc with loc := .digits (digitOf c) }
    else s

/-- One test of a loop with what follows it. -/
def step (s : State) : State :=
  match s.loc with
  | .reading => if s.c = none then { s with loc := .done } else s.readChar
  | .skipping => if s.c = some '\n' then { s with loc := .reading } else s.fgetc
  | .digits num =>
    match s.c with
    | some c =>
      if c.isDigit then { s.fgetc with loc := .digits (intOf (num * 10 + digitOf c)) }
      else { s.addNumber num with loc := .reading }
    | none => { s.addNumber num with loc := .reading }
  | .done => s

/-- `int c = 0` before the first character. -/
def start (file : List Char) : State :=
  ⟨file, some (Char.ofNat 0), false, [], [], .reading⟩

/-- The clauses with which the function comes to an end from here. -/
def Returns (s : State) (clauses : List (List ℤ)) : Prop :=
  ∃ n, (step^[n] s).loc = .done ∧ (step^[n] s).clauses = clauses

theorem returns_step (s : State) (clauses : List (List ℤ)) :
    Returns s clauses ↔ Returns (step s) clauses := by
  constructor
  · rintro ⟨n, hdone, hclauses⟩
    cases n with
    | zero =>
      have hstay : step s = s := by
        rw [Function.iterate_zero, id] at hdone
        rw [step, hdone]
      exact ⟨0, by rw [hstay]; exact hdone, by rw [hstay]; exact hclauses⟩
    | succ n => exact ⟨n, hdone, hclauses⟩
  · rintro ⟨n, hdone, hclauses⟩
    exact ⟨n + 1, hdone, hclauses⟩

/-! ### The file from front to back -/

/-- What is known between two characters: the sign, the current clause and the
clauses that are closed. -/
structure Parse where
  neg : Bool
  cls : List ℤ
  clauses : List (List ℤ)

def State.parse (s : State) : Parse := ⟨s.neg, s.cls, s.clauses⟩

def Parse.addNumber (p : Parse) (num : ℤ) : Parse :=
  let num := if p.neg then intOf (num * -1) else num
  if num ≠ 0 then ⟨false, p.cls ++ [num], p.clauses⟩ else ⟨false, [], p.clauses ++ [p.cls]⟩

/-- The clauses that the loader returns on the rest of a file, or none where it
skips a comment for ever. -/
def scan : Loc → Parse → List Char → Option (List (List ℤ))
  | .reading, p, [] => some p.clauses
  | .reading, p, c :: rest =>
    if c = 'c' ∨ c = 'p' then scan .skipping p rest
    else if isspace c then scan .reading p rest
    else if c = '-' then scan .reading { p with neg := true } rest
    else if c.isDigit then scan (.digits (digitOf c)) p rest
    else scan .reading p rest
  | .skipping, _, [] => none
  | .skipping, p, c :: rest =>
    if c = '\n' then scan .reading p rest else scan .skipping p rest
  | .digits num, p, [] => some (p.addNumber num).clauses
  | .digits num, p, c :: rest =>
    if c.isDigit then scan (.digits (intOf (num * 10 + digitOf c))) p rest
    else scan .reading (p.addNumber num) rest
  | .done, p, _ => some p.clauses

/-! ### The loops follow the file -/

/-- The state with these variables. -/
def stateOf (file : List Char) (c : Option Char) (p : Parse) (loc : Loc) : State :=
  ⟨file, c, p.neg, p.cls, p.clauses, loc⟩

theorem returns_done {file : List Char} {c : Option Char} {p : Parse}
    {clauses : List (List ℤ)} : Returns (stateOf file c p .done) clauses ↔ p.clauses = clauses := by
  have hstay : step (stateOf file c p .done) = stateOf file c p .done := rfl
  constructor
  · rintro ⟨n, -, hclauses⟩
    rw [Function.iterate_fixed hstay] at hclauses
    exact hclauses
  · exact fun h => ⟨0, rfl, h⟩

/-- At end of file the outer loop ends. -/
theorem returns_reading_none {file : List Char} {p : Parse} {clauses : List (List ℤ)} :
    Returns (stateOf file none p .reading) clauses ↔ p.clauses = clauses := by
  rw [returns_step]
  exact returns_done (c := none)

/-- At end of file the loop that skips a line goes on for ever. -/
theorem not_returns_skipping_none {p : Parse} {clauses : List (List ℤ)} :
    ¬ Returns (stateOf [] none p .skipping) clauses := by
  have hstay : step (stateOf [] none p .skipping) = stateOf [] none p .skipping := rfl
  rintro ⟨n, hdone, -⟩
  rw [Function.iterate_fixed hstay] at hdone
  cases hdone

theorem addNumber_stateOf (file : List Char) (c : Option Char) (p : Parse) (loc : Loc) (num : ℤ) :
    { (stateOf file c p loc).addNumber num with loc := .reading } =
      stateOf file c (p.addNumber num) .reading := by
  unfold State.addNumber Parse.addNumber stateOf
  dsimp only
  split_ifs <;> rfl

theorem step_reading (file : List Char) (c : Char) (p : Parse) :
    step (stateOf file (some c) p .reading) =
      (stateOf file (some c) p .reading).readChar := by
  simp [step, stateOf]

theorem readChar_cons (ch : Char) (rest : List Char) (c : Option Char) (p : Parse) :
    (stateOf (ch :: rest) c p .reading).readChar =
      if ch = 'c' ∨ ch = 'p' then stateOf rest (some ch) p .skipping
      else if isspace ch then stateOf rest (some ch) p .reading
      else if ch = '-' then stateOf rest (some ch) { p with neg := true } .reading
      else if ch.isDigit then stateOf rest.tail rest.head? p (.digits (digitOf ch))
      else stateOf rest (some ch) p .reading := by
  simp only [State.readChar, State.fgetc, stateOf, List.head?_cons, List.tail_cons]

theorem step_skipping (file : List Char) (ch : Char) (p : Parse) :
    step (stateOf file (some ch) p .skipping) =
      if ch = '\n' then stateOf file (some ch) p .reading
      else stateOf file.tail file.head? p .skipping := by
  simp only [step, stateOf, State.fgetc, Option.some.injEq]

theorem step_digits (file : List Char) (ch : Char) (p : Parse) (num : ℤ) :
    step (stateOf file (some ch) p (.digits num)) =
      if ch.isDigit then
        stateOf file.tail file.head? p (.digits (intOf (num * 10 + digitOf ch)))
      else stateOf file (some ch) (p.addNumber num) .reading := by
  rw [← addNumber_stateOf file (some ch) p (.digits num) num]
  rfl

/-- The three loops at once. In the inner loops the first character of the text
has been read. -/
theorem returns_iff_scan (text : List Char) (clauses : List (List ℤ)) :
    (∀ c p, Returns (stateOf text (some c) p .reading) clauses ↔
      scan .reading p text = some clauses) ∧
    (∀ p, Returns (stateOf text.tail text.head? p .skipping) clauses ↔
      scan .skipping p text = some clauses) ∧
    (∀ num p, Returns (stateOf text.tail text.head? p (.digits num)) clauses ↔
      scan (.digits num) p text = some clauses) := by
  induction text with
  | nil =>
    refine ⟨fun c p => ?_, fun p => ?_, fun num p => ?_⟩
    · rw [returns_step, scan, Option.some_inj]
      exact returns_reading_none
    · rw [scan]
      exact ⟨fun h => absurd h not_returns_skipping_none, fun h => by cases h⟩
    · rw [returns_step, scan, Option.some_inj]
      show Returns { (stateOf [] none p (.digits num)).addNumber num with loc := .reading } _ ↔ _
      rw [addNumber_stateOf]
      exact returns_reading_none
  | cons ch rest ih =>
    obtain ⟨hreading, hskipping, hdigits⟩ := ih
    have hskip (p : Parse) : Returns (stateOf rest (some ch) p .skipping) clauses ↔
        scan .skipping p (ch :: rest) = some clauses := by
      rw [returns_step, step_skipping, scan]
      split_ifs
      · exact hreading ch p
      · exact hskipping p
    refine ⟨fun c p => ?_, hskip, fun num p => ?_⟩
    · rw [returns_step, step_reading, readChar_cons, scan]
      split_ifs with hcomment
      · -- the first character of the comment is not a newline
        rw [hskip, scan, if_neg]
        rintro rfl
        exact absurd hcomment (by decide)
      · exact hreading ch p
      · exact hreading ch _
      · exact hdigits _ p
      · exact hreading ch p
    · show Returns (stateOf rest (some ch) p (.digits num)) clauses ↔ _
      rw [returns_step, step_digits, scan]
      split_ifs
      · exact hdigits _ p
      · exact hreading ch _

theorem returns_start (text : List Char) (clauses : List (List ℤ)) :
    Returns (start text) clauses ↔ scan .reading ⟨false, [], []⟩ text = some clauses :=
  (returns_iff_scan text clauses).1 (Char.ofNat 0) ⟨false, [], []⟩

/-! ### Termination -/

/-- The loader comes to its end, at the end of the file. -/
def Terminates (text : List Char) : Prop :=
  ∃ n, (step^[n] (start text)).loc = .done ∧ (step^[n] (start text)).c = none

/-- A `c` or a `p` that does not directly follow a digit stands on the last line,
the one that no newline closes. -/
def EndsInComment (afterDigit : Bool) : List Char → Prop
  | [] => False
  | c :: rest => ((c = 'c' ∨ c = 'p') ∧ afterDigit = false ∧ '\n' ∉ rest) ∨
      EndsInComment c.isDigit rest

instance decidableEndsInComment :
    ∀ (afterDigit : Bool) (text : List Char), Decidable (EndsInComment afterDigit text)
  | _, [] => inferInstanceAs (Decidable False)
  | _, c :: rest =>
    haveI := decidableEndsInComment c.isDigit rest
    inferInstanceAs (Decidable (_ ∨ _))

theorem not_isDigit_of_comment {c : Char} (h : c = 'c' ∨ c = 'p') : c.isDigit = false := by
  rcases h with rfl | rfl <;> decide

/-- Where a comment is skipped to the end of the file, it does not matter what
stands before it. -/
theorem endsInComment_or (b : Bool) (text : List Char) :
    '\n' ∉ text ∨ EndsInComment b text ↔ '\n' ∉ text ∨ EndsInComment false text := by
  cases text with
  | nil => simp
  | cons c rest =>
    have hnot : (c = 'c' ∨ c = 'p') ∧ '\n' ∉ rest → '\n' ∉ c :: rest := by
      rintro ⟨hc, hrest⟩ hmem
      rcases List.mem_cons.mp hmem with rfl | hmem
      · exact absurd hc (by decide)
      · exact hrest hmem
    cases b with
    | false => exact Iff.rfl
    | true =>
      simp only [EndsInComment]
      constructor
      · rintro (h | ⟨-, h, -⟩ | h)
        · exact Or.inl h
        · exact absurd h (by simp)
        · exact Or.inr (Or.inr h)
      · rintro (h | ⟨hc, -, hrest⟩ | h)
        · exact Or.inl h
        · exact Or.inl (hnot ⟨hc, hrest⟩)
        · exact Or.inr (Or.inr h)

theorem isDigit_bounds {c : Char} (h : c.isDigit = true) : 48 ≤ c.toNat ∧ c.toNat ≤ 57 := by
  simp only [Char.isDigit, Bool.and_eq_true, decide_eq_true_eq] at h
  exact h

theorem not_isspace_of_isDigit {c : Char} (h : c.isDigit = true) : isspace c = false := by
  have hbounds := isDigit_bounds h
  have hblank : c ≠ ' ' := by
    rintro rfl
    exact absurd h (by decide)
  simp only [isspace, hblank, decide_false, Bool.false_or, Bool.and_eq_false_iff,
    decide_eq_false_iff_not]
  omega

/-- A digit starts a number. -/
theorem scan_reading_digit {c : Char} (h : c.isDigit = true) (p : Parse) (rest : List Char) :
    scan .reading p (c :: rest) = scan (.digits (digitOf c)) p rest := by
  have hcomment : ¬ (c = 'c' ∨ c = 'p') := by
    rintro (rfl | rfl) <;> exact absurd h (by decide)
  have hminus : c ≠ '-' := by
    rintro rfl
    exact absurd h (by decide)
  rw [scan, if_neg hcomment, not_isspace_of_isDigit h, if_neg (by simp), if_neg hminus, if_pos h]

theorem scan_eq_none_iff (text : List Char) :
    (∀ p, scan .reading p text = none ↔ EndsInComment false text) ∧
    (∀ p, scan .skipping p text = none ↔ '\n' ∉ text ∨ EndsInComment false text) ∧
    (∀ num p, scan (.digits num) p text = none ↔ EndsInComment true text) := by
  induction text with
  | nil => simp [scan, EndsInComment]
  | cons c rest ih =>
    obtain ⟨hreading, hskipping, hdigits⟩ := ih
    refine ⟨fun p => ?_, fun p => ?_, fun num p => ?_⟩
    · rw [EndsInComment]
      by_cases hcomment : c = 'c' ∨ c = 'p'
      · rw [scan, if_pos hcomment, hskipping, not_isDigit_of_comment hcomment]
        simp [hcomment]
      · simp only [hcomment, false_and, false_or]
        by_cases hdigit : c.isDigit = true
        · rw [scan_reading_digit hdigit, hdigits, hdigit]
        · rw [scan, if_neg hcomment, if_neg hdigit, Bool.eq_false_iff.mpr hdigit]
          split_ifs <;> exact hreading _
    · rw [scan]
      by_cases hc : c = '\n'
      · rw [if_pos hc, hreading, hc]
        simp [EndsInComment]
      · rw [if_neg hc, hskipping, EndsInComment]
        have hmem : '\n' ∉ c :: rest ↔ '\n' ∉ rest := by
          simp [Ne.symm hc]
        have hany := endsInComment_or c.isDigit rest
        rw [hmem]
        tauto
    · rw [scan, EndsInComment]
      by_cases hdigit : c.isDigit = true
      · rw [if_pos hdigit, hdigits, hdigit]
        simp
      · rw [if_neg hdigit, hreading, Bool.eq_false_iff.mpr hdigit]
        simp

theorem readChar_loc {s : State} (h : s.readChar.loc = .done) : s.loc = .done := by
  unfold State.readChar at h
  dsimp only at h
  split at h
  · exact h
  · split_ifs at h <;> exact h

/-- Only the test of the outer loop leads out of the loops. -/
theorem step_done {s : State} (hs : s.loc = .done → s.c = none) (h : (step s).loc = .done) :
    (step s).c = none := by
  cases hloc : s.loc with
  | reading =>
    simp only [step, hloc] at h ⊢
    split_ifs at h ⊢ with hc
    · exact hc
    · rw [readChar_loc h] at hloc
      cases hloc
  | skipping =>
    simp only [step, hloc] at h
    split_ifs at h
    rw [show s.loc = .done from h] at hloc
    cases hloc
  | digits num =>
    simp only [step, hloc] at h
    split at h
    · split_ifs at h
    · cases h
  | done =>
    simp only [step, hloc]
    exact hs hloc

theorem done_at_end (text : List Char) (n : ℕ) :
    (step^[n] (start text)).loc = .done → (step^[n] (start text)).c = none := by
  induction n with
  | zero => exact fun h => by cases h
  | succ n ih =>
    rw [Function.iterate_succ_apply']
    exact step_done ih

/-- The loader terminates exactly on the files on whose last line no comment
starts. -/
theorem terminates_iff (text : List Char) : Terminates text ↔ ¬ EndsInComment false text := by
  have hreturns : Terminates text ↔ ∃ clauses, Returns (start text) clauses := by
    constructor
    · rintro ⟨n, hdone, -⟩
      exact ⟨_, n, hdone, rfl⟩
    · rintro ⟨clauses, n, hdone, -⟩
      exact ⟨n, hdone, done_at_end text n hdone⟩
  rw [hreturns, ← (scan_eq_none_iff text).1 ⟨false, [], []⟩, ← ne_eq, Option.ne_none_iff_exists']
  exact exists_congr fun clauses => returns_start text clauses

/-- A file of one character, which starts a comment. -/
theorem comment_without_newline : ¬ ∀ text : List Char, Terminates text := by
  intro h
  obtain ⟨n, hdone, -⟩ := h ['c']
  have hreturns : Returns (start ['c']) (step^[n] (start ['c'])).clauses := ⟨n, hdone, rfl⟩
  rw [returns_start] at hreturns
  cases hreturns

/-! ### Renderings -/

/-- A way to write down a list of integers, from a place where a line may have
just begun. Comment and header lines stand between lines; a number is closed by
white space, the last one perhaps by the end of the file. -/
inductive Rendering : Bool → List ℤ → List Char → Prop
  | nil (atLineStart : Bool) : Rendering atLineStart [] []
  | space {c : Char} (atLineStart : Bool) {ns : List ℤ} {rest : List Char} :
      isspace c = true → Rendering (c == '\n') ns rest → Rendering atLineStart ns (c :: rest)
  | comment {c : Char} {line : List Char} {ns : List ℤ} {rest : List Char} :
      c = 'c' ∨ c = 'p' → '\n' ∉ line → Rendering true ns rest →
        Rendering true ns (c :: line ++ '\n' :: rest)
  | number {n : ℤ} {digits : List Char} {c : Char} (atLineStart : Bool) {ns : List ℤ}
      {rest : List Char} : IsNumeral n digits → isspace c = true →
        Rendering (c == '\n') ns rest →
        Rendering atLineStart (n :: ns) (sign n ++ digits ++ c :: rest)
  | last {n : ℤ} {digits : List Char} (atLineStart : Bool) : IsNumeral n digits →
      Rendering atLineStart [n] (sign n ++ digits)

theorem scan_space {c : Char} (h : isspace c = true) (p : Parse) (rest : List Char) :
    scan .reading p (c :: rest) = scan .reading p rest := by
  have hcomment : ¬ (c = 'c' ∨ c = 'p') := by
    rintro (rfl | rfl) <;> exact absurd h (by decide)
  rw [scan, if_neg hcomment, if_pos h]

theorem scan_skipping {line : List Char} (h : '\n' ∉ line) (p : Parse) (rest : List Char) :
    scan .skipping p (line ++ '\n' :: rest) = scan .reading p rest := by
  induction line with
  | nil => rw [List.nil_append, scan, if_pos rfl]
  | cons c line ih =>
    rw [List.mem_cons, not_or] at h
    rw [List.cons_append, scan, if_neg (Ne.symm h.1), ih h.2]

/-- The digits of a number below 2^31 are read without an overflow. -/
theorem scan_digits {digits : List Char} (hdigit : ∀ d ∈ digits, d.isDigit = true) {num : ℕ}
    (hbound : Nat.ofDigitChars 10 digits num < 2 ^ 31) (p : Parse) (rest : List Char) :
    scan (.digits num) p (digits ++ rest) =
      scan (.digits (Nat.ofDigitChars 10 digits num)) p rest := by
  induction digits generalizing num with
  | nil => rw [List.nil_append, Nat.ofDigitChars_nil]
  | cons d digits ih =>
    rw [Nat.ofDigitChars_cons] at hbound ⊢
    have hd := isDigit_bounds (hdigit d List.mem_cons_self)
    have hle : 10 * num + (d.toNat - '0'.toNat) ≤
        Nat.ofDigitChars 10 digits (10 * num + (d.toNat - '0'.toNat)) :=
      le_ofDigitChars digits _
    have hzero : '0'.toNat = 48 := rfl
    have hnum : intOf ((num : ℤ) * 10 + digitOf d) =
        ((10 * num + (d.toNat - '0'.toNat) : ℕ) : ℤ) := by
      rw [← intOf_nat (hle.trans_lt hbound), digitOf, hzero]
      congr 1
      omega
    rw [List.cons_append, scan, if_pos (hdigit d List.mem_cons_self), hnum]
    exact ih (fun e he => hdigit e (List.mem_cons_of_mem d he)) hbound

/-- What a number does to the clauses. -/
def Parse.feed (p : Parse) (n : ℤ) : Parse :=
  if n ≠ 0 then ⟨false, p.cls ++ [n], p.clauses⟩ else ⟨false, [], p.clauses ++ [p.cls]⟩

theorem scan_numeral {n : ℤ} {digits : List Char} (h : IsNumeral n digits)
    (hn : n.natAbs < 2 ^ 31) {p : Parse} (hneg : p.neg = false) (rest : List Char) :
    scan .reading p (sign n ++ digits ++ rest) =
      scan (.digits n.natAbs) { p with neg := decide (n < 0) } rest := by
  obtain ⟨hne, hdigit, hvalue⟩ := h
  obtain ⟨d, digits, rfl⟩ := List.exists_cons_of_ne_nil hne
  have hd := isDigit_bounds (hdigit d List.mem_cons_self)
  have hzero : '0'.toNat = 48 := rfl
  have hdigits (q : Parse) : scan .reading q (d :: digits ++ rest) =
      scan (.digits n.natAbs) q rest := by
    rw [Nat.ofDigitChars_cons] at hvalue
    have hfirst : digitOf d = ((10 * 0 + (d.toNat - '0'.toNat) : ℕ) : ℤ) := by
      rw [digitOf, hzero]
      omega
    rw [List.cons_append, scan_reading_digit (hdigit d List.mem_cons_self), hfirst,
      scan_digits (fun e he => hdigit e (List.mem_cons_of_mem d he)) (by omega), hvalue]
  unfold sign
  by_cases hsign : n < 0
  · rw [if_pos hsign, List.append_assoc, List.singleton_append, scan, if_neg (by decide),
      if_neg (by decide), if_pos rfl, hdigits, decide_eq_true hsign]
  · rw [if_neg hsign, List.nil_append, hdigits, decide_eq_false hsign, ← hneg]

/-- The sign is put back at the end of the number. -/
theorem addNumber_natAbs {n : ℤ} (hn : n.natAbs < 2 ^ 31) (p : Parse) :
    { p with neg := decide (n < 0) }.addNumber n.natAbs = p.feed n := by
  have hvalue : (if decide (n < 0) then intOf ((n.natAbs : ℤ) * -1) else (n.natAbs : ℤ)) = n := by
    by_cases hsign : n < 0
    · rw [decide_eq_true hsign, if_pos rfl, intOf, Int.bmod_def]
      split_ifs <;> omega
    · rw [decide_eq_false hsign, if_neg (by simp)]
      omega
  unfold Parse.addNumber Parse.feed
  simp only [hvalue]

theorem feed_neg (p : Parse) (n : ℤ) : (p.feed n).neg = false := by
  unfold Parse.feed
  split_ifs <;> rfl

/-- The loader reads the integers of a rendering in order. -/
theorem scan_rendering {atLineStart : Bool} {ns : List ℤ} {text : List Char}
    (h : Rendering atLineStart ns text) (hns : ∀ n ∈ ns, n.natAbs < 2 ^ 31) {p : Parse}
    (hneg : p.neg = false) :
    scan .reading p text = some (ns.foldl Parse.feed p).clauses := by
  induction h generalizing p with
  | nil => rfl
  | space _ hc _ ih => rw [scan_space hc, ih hns hneg]
  | comment hc hline _ ih =>
    rw [List.cons_append, scan, if_pos hc, scan_skipping hline, ih hns hneg]
  | @number n digits c _ ns rest hnumeral hc _ ih =>
    have hn := hns n List.mem_cons_self
    have hdigit : c.isDigit = false := by
      refine Bool.eq_false_iff.mpr fun hdigit => ?_
      rw [not_isspace_of_isDigit hdigit] at hc
      exact absurd hc (by simp)
    rw [scan_numeral hnumeral hn hneg, scan, if_neg (by simp [hdigit]), addNumber_natAbs hn,
      ih (fun m hm => hns m (List.mem_cons_of_mem n hm)) (feed_neg p n), List.foldl_cons]
  | @last n digits _ hnumeral =>
    have hn := hns n List.mem_cons_self
    rw [← List.append_nil (sign n ++ digits), scan_numeral hnumeral hn hneg, scan,
      addNumber_natAbs hn]
    rfl

/-! ### The clauses and the solvers -/

theorem foldl_feed_clause (c cls : List ℤ) (clauses : List (List ℤ)) (hc : ∀ l ∈ c, l ≠ 0) :
    (c ++ [0]).foldl Parse.feed ⟨false, cls, clauses⟩ = ⟨false, [], clauses ++ [cls ++ c]⟩ := by
  induction c generalizing cls with
  | nil => simp [Parse.feed]
  | cons l rest ih =>
    have hl : Parse.feed ⟨false, cls, clauses⟩ l = ⟨false, cls ++ [l], clauses⟩ :=
      if_pos (hc l List.mem_cons_self)
    rw [List.cons_append, List.foldl_cons, hl,
      ih _ (fun m hm => hc m (List.mem_cons_of_mem l hm)), List.append_assoc,
      List.singleton_append]

theorem foldl_feed (cs clauses : List (List ℤ)) (hcs : ∀ c ∈ cs, ∀ l ∈ c, l ≠ 0) :
    (cs.flatMap fun c => c ++ [0]).foldl Parse.feed ⟨false, [], clauses⟩ =
      ⟨false, [], clauses ++ cs⟩ := by
  induction cs generalizing clauses with
  | nil => simp
  | cons c rest ih =>
    rw [List.flatMap_cons, List.foldl_append, foldl_feed_clause c [] clauses
      (hcs c List.mem_cons_self), ih _ fun d hd => hcs d (List.mem_cons_of_mem c hd)]
    simp

/-- The file is none if it cannot be opened. The result is none while the loops
are running; then it is the value returned and the solvers. -/
def loadFormulaToSolvers {S : Type} (addInitialClauses : S → List (List ℤ) → S)
    (solvers : List S) (file : Option (List Char)) (fuel : ℕ) : Option (Bool × List S) :=
  match file with
  | none => some (false, solvers)
  | some text =>
    let s := step^[fuel] (start text)
    if s.loc = .done then some (true, solvers.map fun solver => addInitialClauses solver s.clauses)
    else none

/-- A Lingeling solver, as the integers that it has been given. -/
structure Lingeling where
  lgladds : List ℤ

namespace Lingeling

def lgladd (s : Lingeling) (lit : ℤ) : Lingeling := ⟨s.lgladds ++ [lit]⟩

def addInitialClauses (s : Lingeling) (clauses : List (List ℤ)) : Lingeling :=
  clauses.foldl (fun s c => (c.foldl lgladd s).lgladd 0) s

theorem foldl_lgladd (s : Lingeling) (c : List ℤ) :
    (c.foldl lgladd s).lgladds = s.lgladds ++ c := by
  induction c generalizing s with
  | nil => simp
  | cons l rest ih =>
    rw [List.foldl_cons, ih]
    simp [lgladd]

theorem addInitialClauses_lgladds (s : Lingeling) (clauses : List (List ℤ)) :
    (s.addInitialClauses clauses).lgladds = s.lgladds ++ clauses.flatMap fun c => c ++ [0] := by
  unfold addInitialClauses
  induction clauses generalizing s with
  | nil => simp
  | cons c rest ih =>
    rw [List.foldl_cons, ih, List.flatMap_cons, lgladd, foldl_lgladd, List.append_assoc,
      List.append_assoc, List.append_assoc]

end Lingeling

/-- Every solver is given exactly the clauses of the file, in order, and a
Lingeling solver is given their literals in order, each clause closed by zero. -/
theorem load_rendering (cs : List (List ℤ)) (text : List Char)
    (hcs : ∀ c ∈ cs, ∀ l ∈ c, l ≠ 0 ∧ l.natAbs < 2 ^ 31)
    (htext : Rendering true (cs.flatMap fun c => c ++ [0]) text) :
    (∃ fuel, ∀ (S : Type) (addInitialClauses : S → List (List ℤ) → S) (solvers : List S),
      loadFormulaToSolvers addInitialClauses solvers (some text) fuel =
        some (true, solvers.map fun solver => addInitialClauses solver cs)) ∧
    ∀ s : Lingeling, (s.addInitialClauses cs).lgladds =
      s.lgladds ++ cs.flatMap fun c => c ++ [0] := by
  refine ⟨?_, fun s => s.addInitialClauses_lgladds cs⟩
  have hbound : ∀ n ∈ cs.flatMap fun c => c ++ [0], n.natAbs < 2 ^ 31 := by
    intro n hn
    obtain ⟨c, hc, hmem⟩ := List.mem_flatMap.mp hn
    rcases List.mem_append.mp hmem with hl | hzero
    · exact (hcs c hc n hl).2
    · rw [List.mem_singleton.mp hzero]
      decide
  have hscan := scan_rendering (p := ⟨false, [], []⟩) htext hbound rfl
  rw [foldl_feed cs [] fun c hc l hl => (hcs c hc l hl).1, List.nil_append] at hscan
  obtain ⟨n, hdone, hclauses⟩ := (returns_start text cs).mpr hscan
  refine ⟨n, fun S addInitialClauses solvers => ?_⟩
  unfold loadFormulaToSolvers
  dsimp only
  rw [if_pos hdone, hclauses]

/-- One number on each line. -/
theorem rendering_lines (atLineStart : Bool) (ns : List ℤ) :
    Rendering atLineStart ns (ns.flatMap fun n => decimal n ++ ['\n']) := by
  induction ns generalizing atLineStart with
  | nil => exact .nil atLineStart
  | cons n rest ih =>
    rw [List.flatMap_cons, List.append_assoc, List.singleton_append]
    exact .number atLineStart (isNumeral_toDigits n) (by decide) (ih _)

/-- A header line, and three clauses, of which one is empty. -/
def headerAndClauses : List Char :=
  'p' :: [' ', 'c', 'n', 'f'] ++ '\n' ::
    [1, -20, 0, 0, 3, 0].flatMap fun n => decimal n ++ ['\n']

theorem headerAndClauses_rendering :
    Rendering true ([[1, -20], [], [3]].flatMap fun c => c ++ [0]) headerAndClauses :=
  .comment (Or.inr rfl) (by decide) (rendering_lines true [1, -20, 0, 0, 3, 0])

theorem load_headerAndClauses : ∃ fuel, loadFormulaToSolvers Lingeling.addInitialClauses
    [⟨[]⟩] (some headerAndClauses) fuel = some (true, [⟨[1, -20, 0, 0, 3, 0]⟩]) := by
  have hload := load_rendering [[1, -20], [], [3]] headerAndClauses (by decide)
    headerAndClauses_rendering
  obtain ⟨fuel, hsolvers⟩ := hload.1
  exact ⟨fuel, hsolvers Lingeling Lingeling.addInitialClauses [⟨[]⟩]⟩

end Painless.DimacsLoader
