import Painless.Decimal

/-!
The printing of a model in lines of at most 80 columns. The printer counts the
columns of the open line, and starts a new one when the next literal does not
fit. The lines printed so far carry the invariant: each of them has a literal,
and together with the open line they hold the literals in order.
-/
namespace Painless.ModelPrinting

open Decimal

/-- The integer part of log10 is taken to be exact. -/
def intWidth (i : Int32) : ℕ :=
  if i = 0 then 1 else (if i < 0 then 1 else 0) + 1 + Nat.log 10 i.toInt.natAbs

/-- What has been printed, and the variable usedWidth. -/
structure Printer where
  out : List Char
  usedWidth : ℕ

/-- `usedWidth += printf(text)`. -/
def Printer.printf (p : Printer) (text : List Char) : Printer :=
  ⟨p.out ++ text, p.usedWidth + text.length⟩

/-- One round of the loop. -/
def Printer.printLiteral (p : Printer) (i : Int32) : Printer :=
  let p := if p.usedWidth + 1 + intWidth i > 80 then ⟨p.out ++ ['\n'], 0⟩ else p
  let p := if p.usedWidth = 0 then p.printf ['v'] else p
  p.printf (' ' :: decimal i.toInt)

def printModel (model : List Int32) : List Char :=
  ((model ++ [0]).foldl Printer.printLiteral ⟨[], 0⟩).out ++ ['\n']

/-! ### Reading the output -/

def readNumber (word : List Char) : Option ℤ :=
  if isNumber word then some (readInt word) else none

/-- The numbers of a line that starts with the word v. -/
def readLine (line : List Char) : Option (List ℤ) :=
  match line.splitOn ' ' with
  | ['v'] :: words => words.mapM readNumber
  | _ => none

/-- The numbers of an output line by line, where every line ends in a newline. -/
def readOutput (out : List Char) : Option (List (List ℤ)) :=
  let lines := out.splitOn '\n'
  if lines.getLast? = some [] then lines.dropLast.mapM readLine else none

section Splitting
variable {A : Type*} [BEq A] [LawfulBEq A] {a : A}

theorem splitOn_prefixed (first : List A) (words : List (List A)) (hfirst : a ∉ first)
    (hwords : ∀ word ∈ words, a ∉ word) :
    (first ++ words.flatMap fun word => a :: word).splitOn a = first :: words := by
  induction words generalizing first with
  | nil => rw [List.flatMap_nil, List.append_nil, List.splitOn_eq_singleton hfirst]
  | cons word rest ih =>
    rw [List.flatMap_cons, List.cons_append,
      List.splitOn_append_cons_self_of_not_mem hfirst,
      ih word (hwords word List.mem_cons_self) fun w hw => hwords w (List.mem_cons_of_mem _ hw)]

theorem splitOn_terminated (lines : List (List A)) (hlines : ∀ line ∈ lines, a ∉ line) :
    (lines.flatMap fun line => line ++ [a]).splitOn a = lines ++ [[]] := by
  induction lines with
  | nil => rfl
  | cons line rest ih =>
    rw [List.flatMap_cons, List.append_assoc, List.singleton_append,
      List.splitOn_append_cons_self_of_not_mem (hlines line List.mem_cons_self),
      ih fun l hl => hlines l (List.mem_cons_of_mem _ hl), List.cons_append]

end Splitting

theorem mapM_map_some {A B C : Type*} {f : B → Option C} {g : A → B} {h : A → C} {l : List A}
    (hfg : ∀ a ∈ l, f (g a) = some (h a)) : (l.map g).mapM f = some (l.map h) := by
  induction l with
  | nil => rfl
  | cons a rest ih =>
    rw [List.map_cons, List.mapM_cons, hfg a List.mem_cons_self,
      ih fun b hb => hfg b (List.mem_cons_of_mem a hb)]
    rfl

/-! ### The lines -/

def line (row : List Int32) : List Char :=
  'v' :: row.flatMap fun i => ' ' :: decimal i.toInt

/-- The open line; it is empty until its first literal is printed. -/
def openLine (row : List Int32) : List Char := if row = [] then [] else line row

theorem length_decimal_eq (i : Int32) : (decimal i.toInt).length = intWidth i := by
  rw [length_decimal]
  unfold intWidth
  by_cases hzero : i = 0
  · rw [if_pos hzero, hzero]
    rfl
  · rw [if_neg hzero]
    have hsign : i.toInt < 0 ↔ i < 0 := by
      rw [Int32.lt_iff_toInt_lt, Int32.toInt_zero]
    simp only [hsign]

theorem intWidth_le (i : Int32) : intWidth i ≤ 11 := by
  have hlower := i.le_toInt
  have hupper := i.toInt_lt
  have hlog : Nat.log 10 i.toInt.natAbs < 10 := Nat.log_lt_of_lt_pow' (by omega) (by omega)
  unfold intWidth
  split_ifs <;> omega

theorem length_line (row : List Int32) (i : Int32) :
    (line (row ++ [i])).length = (line row).length + 1 + intWidth i := by
  unfold line
  rw [List.flatMap_append, List.flatMap_singleton, List.length_cons, List.length_append,
    List.length_cons, length_decimal_eq, List.length_cons]
  omega

theorem line_append (row : List Int32) (i : Int32) :
    line (row ++ [i]) = line row ++ ' ' :: decimal i.toInt := by
  unfold line
  rw [List.flatMap_append, List.flatMap_singleton, List.cons_append]

theorem not_mem_decimal {c : Char} (hc : c ≠ '-') (hdigit : c.isDigit = false) (n : ℤ) :
    c ∉ decimal n := by
  intro h
  rcases of_mem_decimal h with hsign | htrue
  · exact hc hsign
  · rw [hdigit] at htrue
    exact Bool.false_ne_true htrue

theorem newline_not_mem_line (row : List Int32) : '\n' ∉ line row := by
  intro h
  rcases List.mem_cons.mp h with hv | hrow
  · exact absurd hv (by decide)
  · obtain ⟨i, -, hi⟩ := List.mem_flatMap.mp hrow
    rcases List.mem_cons.mp hi with hspace | hnumber
    · exact absurd hspace (by decide)
    · exact not_mem_decimal (by decide) (by decide) _ hnumber

theorem readNumber_decimal (n : ℤ) : readNumber (decimal n) = some n := by
  unfold readNumber
  rw [if_pos (isNumber_decimal n), readInt_decimal]

theorem readLine_line (row : List Int32) : readLine (line row) = some (row.map Int32.toInt) := by
  have hsplit : (line row).splitOn ' ' = ['v'] :: row.map fun i => decimal i.toInt := by
    have hwords := splitOn_prefixed ['v'] (row.map fun i => decimal i.toInt) (a := ' ')
      (by decide) fun word hword => by
        obtain ⟨i, -, rfl⟩ := List.mem_map.mp hword
        exact not_mem_decimal (by decide) (by decide) _
    rwa [List.flatMap_map] at hwords
  unfold readLine
  rw [hsplit]
  exact mapM_map_some fun i _ => readNumber_decimal i.toInt

/-- `rows` are the literals of the finished lines, `row` those of the open one. -/
structure Printed (rows : List (List Int32)) (row : List Int32) (p : Printer) : Prop where
  out : p.out = (rows.flatMap fun r => line r ++ ['\n']) ++ openLine row
  usedWidth : p.usedWidth = (openLine row).length
  finished : ∀ r ∈ rows, r ≠ [] ∧ (line r).length ≤ 80
  fits : (openLine row).length ≤ 80

theorem printed_start : Printed [] [] ⟨[], 0⟩ where
  out := rfl
  usedWidth := rfl
  finished := by simp
  fits := by decide

theorem openLine_of_ne {row : List Int32} (h : row ≠ []) : openLine row = line row := if_neg h

theorem line_singleton (i : Int32) : line [i] = ['v'] ++ ' ' :: decimal i.toInt :=
  line_append [] i

theorem length_line_singleton (i : Int32) : (line [i]).length = 2 + intWidth i := by
  have hlength := length_line [] i
  rw [List.nil_append] at hlength
  rw [hlength]
  show 1 + 1 + intWidth i = 2 + intWidth i
  rfl

theorem length_word (i : Int32) : (' ' :: decimal i.toInt).length = 1 + intWidth i := by
  rw [List.length_cons, length_decimal_eq, Nat.add_comm]

section Round
variable {p : Printer} {i : Int32}

theorem printLiteral_break (h : 80 < p.usedWidth + 1 + intWidth i) :
    p.printLiteral i = ⟨p.out ++ ['\n'] ++ line [i], (line [i]).length⟩ := by
  unfold Printer.printLiteral
  rw [if_pos h]
  dsimp only
  rw [if_pos rfl]
  unfold Printer.printf
  rw [length_word, length_line_singleton, line_singleton, List.append_assoc _ ['v']]
  congr 1
  dsimp only [List.length_singleton]
  omega

theorem printLiteral_first (h : p.usedWidth = 0) :
    p.printLiteral i = ⟨p.out ++ line [i], (line [i]).length⟩ := by
  have hwidth := intWidth_le i
  unfold Printer.printLiteral
  rw [if_neg (by omega)]
  dsimp only
  rw [if_pos h]
  unfold Printer.printf
  rw [length_word, length_line_singleton, line_singleton, List.append_assoc _ ['v']]
  congr 1
  dsimp only [List.length_singleton]
  omega

theorem printLiteral_fits (h : p.usedWidth ≠ 0) (hfits : p.usedWidth + 1 + intWidth i ≤ 80) :
    p.printLiteral i = p.printf (' ' :: decimal i.toInt) := by
  unfold Printer.printLiteral
  rw [if_neg (by omega)]
  dsimp only
  rw [if_neg h]

end Round

section Step
variable {rows : List (List Int32)} {row : List Int32} {p : Printer} {i : Int32}

theorem Printed.width (hp : Printed rows row p) (hrow : row ≠ []) :
    p.usedWidth = (line row).length ∧ (line row).length ≤ 80 := by
  have hused := hp.usedWidth
  have hfits := hp.fits
  rw [openLine_of_ne hrow] at hused hfits
  exact ⟨hused, hfits⟩

/-- The open line counts as finished when a newline follows it. -/
theorem Printed.close (hp : Printed rows row p) (hrow : row ≠ []) :
    p.out ++ ['\n'] = ((rows ++ [row]).flatMap fun r => line r ++ ['\n']) ∧
      ∀ r ∈ rows ++ [row], r ≠ [] ∧ (line r).length ≤ 80 := by
  constructor
  · rw [hp.out, openLine_of_ne hrow, List.flatMap_append, List.flatMap_singleton,
      List.append_assoc]
  · intro r hr
    rcases List.mem_append.mp hr with hold | hlast
    · exact hp.finished r hold
    · rw [List.mem_singleton.mp hlast]
      exact ⟨hrow, (hp.width hrow).2⟩

theorem openLine_singleton (i : Int32) : openLine [i] = line [i] :=
  openLine_of_ne (List.cons_ne_nil i [])

theorem openLine_singleton_le (i : Int32) : (openLine [i]).length ≤ 80 := by
  have hwidth := intWidth_le i
  rw [openLine_singleton, length_line_singleton]
  omega

theorem Printed.first (hp : Printed rows [] p) : Printed rows [i] (p.printLiteral i) := by
  rw [printLiteral_first hp.usedWidth]
  refine ⟨?_, rfl, hp.finished, openLine_singleton_le i⟩
  dsimp only
  rw [hp.out, openLine_singleton]
  show _ ++ [] ++ line [i] = _
  rw [List.append_nil]

theorem Printed.newLine (hp : Printed rows row p) (hrow : row ≠ [])
    (hbreak : 80 < p.usedWidth + 1 + intWidth i) :
    Printed (rows ++ [row]) [i] (p.printLiteral i) := by
  obtain ⟨hout, hfinished⟩ := hp.close hrow
  rw [printLiteral_break hbreak]
  refine ⟨?_, rfl, hfinished, openLine_singleton_le i⟩
  dsimp only
  rw [hout, openLine_singleton]

theorem Printed.append (hp : Printed rows row p) (hrow : row ≠ [])
    (hfits : p.usedWidth + 1 + intWidth i ≤ 80) :
    Printed rows (row ++ [i]) (p.printLiteral i) := by
  have hused := (hp.width hrow).1
  have hnonzero : p.usedWidth ≠ 0 := by
    rw [hused]
    exact Nat.succ_ne_zero _
  have hnext : openLine (row ++ [i]) = line (row ++ [i]) := openLine_of_ne (by simp)
  rw [printLiteral_fits hnonzero hfits]
  refine ⟨?_, ?_, hp.finished, ?_⟩
  · rw [hnext, line_append, ← List.append_assoc, ← openLine_of_ne hrow, ← hp.out]
    rfl
  · rw [hnext, length_line, ← hused]
    show p.usedWidth + (' ' :: decimal i.toInt).length = _
    rw [length_word]
    omega
  · rw [hnext, length_line]
    omega

/-- A literal goes to the open line, or to a new one when it does not fit. -/
theorem printed_printLiteral (hp : Printed rows row p) (i : Int32) :
    ∃ rows' row', Printed rows' row' (p.printLiteral i) ∧ row' ≠ [] ∧
      rows'.flatten ++ row' = rows.flatten ++ row ++ [i] := by
  by_cases hrow : row = []
  · subst hrow
    exact ⟨rows, [i], hp.first, by simp, by simp⟩
  · by_cases hbreak : 80 < p.usedWidth + 1 + intWidth i
    · exact ⟨rows ++ [row], [i], hp.newLine hrow hbreak, by simp, by simp⟩
    · exact ⟨rows, row ++ [i], hp.append hrow (by omega), by simp, by rw [List.append_assoc]⟩

end Step

theorem printed_foldl {rows : List (List Int32)} {row : List Int32} {p : Printer}
    (hp : Printed rows row p) (model : List Int32) :
    ∃ rows' row', Printed rows' row' (model.foldl Printer.printLiteral p) ∧
      rows'.flatten ++ row' = rows.flatten ++ row ++ model := by
  induction model generalizing rows row p with
  | nil => exact ⟨rows, row, hp, (List.append_nil _).symm⟩
  | cons i rest ih =>
    obtain ⟨rows₁, row₁, hnext, -, hliterals⟩ := printed_printLiteral hp i
    obtain ⟨rows₂, row₂, hend, hrest⟩ := ih hnext
    refine ⟨rows₂, row₂, hend, ?_⟩
    rw [hrest, hliterals, List.append_assoc, List.singleton_append]

/-- The output is made of lines that hold the model and the final 0. -/
theorem printModel_eq (model : List Int32) :
    ∃ rows : List (List Int32), printModel model = (rows.map line).flatMap (· ++ ['\n']) ∧
      (∀ row ∈ rows, row ≠ [] ∧ (line row).length ≤ 80) ∧ rows.flatten = model ++ [0] := by
  obtain ⟨rows₁, row₁, hmodel, hliterals⟩ := printed_foldl printed_start model
  obtain ⟨rows, row, hzero, hrow, hall⟩ := printed_printLiteral hmodel 0
  obtain ⟨hout, hfinished⟩ := hzero.close hrow
  refine ⟨rows ++ [row], ?_, hfinished, ?_⟩
  · unfold printModel
    rw [List.foldl_append, List.foldl_cons, List.foldl_nil, hout, List.flatMap_map]
  · rw [List.flatten_append, List.flatten_singleton, hall, hliterals]
    rfl

theorem splitOn_printModel {model : List Int32} {rows : List (List Int32)}
    (h : printModel model = (rows.map line).flatMap (· ++ ['\n'])) :
    (printModel model).splitOn '\n' = rows.map line ++ [[]] := by
  rw [h]
  apply splitOn_terminated
  intro l hl
  obtain ⟨row, -, rfl⟩ := List.mem_map.mp hl
  exact newline_not_mem_line row

/-- No line is wider than 80 columns, every line starts with v and has a number,
and the numbers are those of the model and a final 0. -/
theorem printModel_lines (model : List Int32) :
    (∀ l ∈ (printModel model).splitOn '\n', l.length ≤ 80) ∧
      ∃ rows, readOutput (printModel model) = some rows ∧ (∀ row ∈ rows, row ≠ []) ∧
        rows.flatten = model.map Int32.toInt ++ [0] := by
  obtain ⟨rows, hout, hrows, hall⟩ := printModel_eq model
  have hsplit := splitOn_printModel hout
  constructor
  · intro l hl
    rw [hsplit] at hl
    rcases List.mem_append.mp hl with hline | hlast
    · obtain ⟨row, hrow, rfl⟩ := List.mem_map.mp hline
      exact (hrows row hrow).2
    · rw [List.mem_singleton.mp hlast]
      exact Nat.zero_le _
  · refine ⟨rows.map (List.map Int32.toInt), ?_, ?_, ?_⟩
    · unfold readOutput
      dsimp only
      rw [hsplit, if_pos List.getLast?_concat, List.dropLast_concat]
      exact mapM_map_some fun row _ => readLine_line row
    · intro numbers hnumbers
      obtain ⟨row, hrow, rfl⟩ := List.mem_map.mp hnumbers
      intro hempty
      exact (hrows row hrow).1 (List.map_eq_nil_iff.mp hempty)
    · rw [← List.map_flatten, hall, List.map_append]
      rfl

end Painless.ModelPrinting
