import Mathlib.Algebra.Group.Nat.Defs
import Mathlib.Algebra.Ring.Int.Defs
import Mathlib.Data.List.Basic
import Mathlib.Logic.Function.Basic

/-!
The CUBE message of the distributed portfolio, from sendAssumption to the cube
the target solves under. Memory is an int at each word address. sendAssumption
fills a block from malloc with the length and the cube, but gives MPI_Ibsend the
address of the variable that holds the pointer to the block. What is sent are
the two halves of the pointer and the words of the stack after it.
-/
namespace Painless.CubeMessage

abbrev Memory := ℕ → ℤ

/-- Where the variable buf and the block it points to lie: the block does not
overlap the words from buf on that are sent. -/
structure Frame (length : ℕ) where
  buf : ℕ
  block : ℕ
  apart : block + length < buf ∨ buf + max length 1 < block

/-- 32 bits of a number, read as an int. -/
def toInt32 (n : ℕ) : ℤ := (BitVec.ofNat 32 n).toInt

/-- The two ints in which a pointer to the block is stored. -/
def pointerWords {length : ℕ} (frame : Frame length) : List ℤ :=
  [toInt32 (4 * frame.block), toInt32 (4 * frame.block / 2 ^ 32)]

def writeWords (mem : Memory) (address : ℕ) : List ℤ → Memory
  | [] => mem
  | word :: words => writeWords (Function.update mem address word) (address + 1) words

def readWords (mem : Memory) (address count : ℕ) : List ℤ :=
  (List.range count).map fun i => mem (address + i)

/-- The words MPI transmits; none when length + 1 overflows an int. -/
def sendAssumption (assumption : List ℤ) (frame : Frame assumption.length)
    (mem : Memory) : Option (List ℤ) :=
  let length := assumption.length
  let mem := writeWords mem frame.buf (pointerWords frame)
  let mem := writeWords mem (frame.block + 1) assumption
  let mem := writeWords mem frame.block [(length : ℤ)]
  if length + 1 < 2 ^ 31 then some (readWords mem frame.buf (length + 1)) else none

/-- The loop that fills the cube; none where it reads past the message. -/
def readCube (branchBuf : List ℤ) : ℕ → ℕ → Option (List ℤ)
  | _, 0 => some []
  | i, n + 1 =>
    match branchBuf[i]? with
    | some lit => (readCube branchBuf (i + 1) n).map fun cube => lit :: cube
    | none => none

/-- receiveIncomingMsg with CUBE_TAG: the cube given to childStrategy->solve. -/
def receiveCube (branchBuf : List ℤ) : Option (List ℤ) :=
  if 1 < branchBuf.length then readCube branchBuf 1 (branchBuf.headD 0).toNat
  else some []

/-- The cube the target solves under, when MPI delivers the words unchanged. -/
def deliver (assumption : List ℤ) (frame : Frame assumption.length) (mem : Memory) :
    Option (List ℤ) :=
  (sendAssumption assumption frame mem).bind receiveCube

/-- What lies at buf: the pointer, then the stack. -/
def stackWord {length : ℕ} (frame : Frame length) (mem : Memory) (i : ℕ) : ℤ :=
  (pointerWords frame).getD i (mem (frame.buf + i))

/-! ### The words sent -/

theorem writeWords_outside (words : List ℤ) (mem : Memory) {address x : ℕ}
    (h : x < address ∨ address + words.length ≤ x) :
    writeWords mem address words x = mem x := by
  induction words generalizing mem address with
  | nil => rfl
  | cons word rest ih =>
    simp only [List.length_cons] at h
    rw [writeWords, ih _ (by omega), Function.update_of_ne (by omega)]

theorem writeWords_pointer {length : ℕ} (frame : Frame length) (mem : Memory) (i : ℕ) :
    writeWords mem frame.buf (pointerWords frame) (frame.buf + i) =
      stackWord frame mem i := by
  rcases i with _ | _ | i
  · simp only [pointerWords, writeWords, stackWord, Nat.add_zero]
    rw [Function.update_of_ne (by omega), Function.update_self]
    rfl
  · simp only [pointerWords, writeWords, stackWord, Nat.zero_add]
    rw [Function.update_self]
    rfl
  · rw [writeWords_outside _ _ (by simp [pointerWords])]
    rfl

/-- The message is the pointer and the stack, whatever the cube. -/
theorem sendAssumption_eq (assumption : List ℤ) (frame : Frame assumption.length)
    (mem : Memory) (hlength : assumption.length + 1 < 2 ^ 31) :
    sendAssumption assumption frame mem =
      some ((List.range (assumption.length + 1)).map (stackWord frame mem)) := by
  rw [sendAssumption, if_pos hlength, readWords]
  refine congrArg some (List.map_congr_left fun i hi => ?_)
  have hbound : i < assumption.length + 1 := List.mem_range.mp hi
  have hapart := frame.apart
  have hmax : assumption.length ≤ max assumption.length 1 := Nat.le_max_left _ _
  rw [writeWords_outside _ _ (by simp; omega), writeWords_outside _ _ (by omega),
    writeWords_pointer]

/-! ### The words read -/

/-- The loop succeeds where the message has the words, and returns them. -/
theorem readCube_eq_some {branchBuf cube : List ℤ} {i n : ℕ} :
    readCube branchBuf i n = some cube ↔
      cube.length = n ∧ cube <+: branchBuf.drop i := by
  induction n generalizing i cube with
  | zero =>
    simp only [readCube, Option.some.injEq, List.length_eq_zero_iff]
    exact ⟨fun h => ⟨h.symm, h ▸ List.nil_prefix⟩, fun h => h.1.symm⟩
  | succ n ih =>
    rw [readCube]
    by_cases hi : i < branchBuf.length
    · rw [List.getElem?_eq_getElem hi, List.drop_eq_getElem_cons hi]
      simp only [Option.map_eq_some_iff]
      constructor
      · rintro ⟨rest, hrest, rfl⟩
        obtain ⟨hlength, hsub⟩ := ih.mp hrest
        exact ⟨by rw [List.length_cons, hlength],
          List.cons_prefix_cons.mpr ⟨rfl, hsub⟩⟩
      · rintro ⟨hlength, hsub⟩
        cases cube with
        | nil => simp at hlength
        | cons lit rest =>
          obtain ⟨rfl, hrest⟩ := List.cons_prefix_cons.mp hsub
          exact ⟨rest, ih.mpr ⟨Nat.succ.inj hlength, hrest⟩, rfl⟩
    · rw [List.getElem?_eq_none (Nat.le_of_not_lt hi), List.drop_of_length_le (by omega)]
      simp only [reduceCtorEq, List.prefix_nil, false_iff, not_and]
      rintro hlength rfl
      simp at hlength

/-- A message of a length word and as many literals is decoded to the literals,
and to nothing else if it is to be read inside the message. -/
theorem receiveCube_eq_some {branchBuf cube : List ℤ}
    (hlength : branchBuf.length = cube.length + 1) (hcube : cube ≠ []) :
    receiveCube branchBuf = some cube ↔ branchBuf = (cube.length : ℤ) :: cube := by
  have hpos : 0 < cube.length := List.length_pos_iff.mpr hcube
  rw [receiveCube, if_pos (by omega), readCube_eq_some]
  cases branchBuf with
  | nil => simp at hlength
  | cons first rest =>
    simp only [List.length_cons, Nat.add_right_cancel_iff] at hlength
    simp only [List.headD_cons, List.drop_succ_cons, List.drop_zero, List.cons.injEq]
    constructor
    · rintro ⟨hfirst, hsub⟩
      exact ⟨by omega, (hsub.eq_of_length hlength.symm).symm⟩
    · rintro ⟨rfl, rfl⟩
      exact ⟨by omega, List.prefix_refl rest⟩

/-- A cube survives the wire exactly if it is empty, or the pointer to its block
and the stack after it happen to be its length and its literals. -/
theorem cube_delivered_iff (cube : List ℤ) (frame : Frame cube.length) (mem : Memory) :
    deliver cube frame mem = some cube ↔
      cube = [] ∨ (cube.length + 1 < 2 ^ 31 ∧
        (List.range (cube.length + 1)).map (stackWord frame mem) =
          (cube.length : ℤ) :: cube) := by
  by_cases hcube : cube = []
  · subst hcube
    rw [deliver, sendAssumption_eq [] frame mem (by decide)]
    simp [receiveCube]
  · by_cases hlength : cube.length + 1 < 2 ^ 31
    · rw [deliver, sendAssumption_eq cube frame mem hlength, Option.bind_some,
        receiveCube_eq_some (by simp) hcube]
      simp only [hcube, hlength, false_or, true_and]
    · rw [deliver, sendAssumption, if_neg hlength]
      simp only [Option.bind_none, reduceCtorEq, hcube, hlength, false_and, or_self]

/-- A block at a small address, below the stack. -/
def lowBlock : Frame 1 := ⟨1000, 100, by decide⟩

/-- The cube with the literal 5 does not arrive: the pointer is read as its
length, and the loop runs past the message. -/
theorem cube_five_lost :
    sendAssumption [5] lowBlock (fun _ => 0) = some [400, 0] ∧
      deliver [5] lowBlock (fun _ => 0) = none := by
  constructor <;> decide

end Painless.CubeMessage
