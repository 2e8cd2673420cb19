import ArchSim.CString
import ArchSim.DataFlow

/-!
# The input of the dataflow analysis

`readOpsLatency` and `readProgram` of `HW3/dflow_main.c`, on the strings that
`fgets` delivers into a buffer of 81 bytes. An opened file is its text, and
`none` a file that cannot be opened. What they print is left out.
-/

namespace ArchSim

namespace DataFlow

open CString

/-- The size of `curLine`. -/
def lineSize : Nat := 81

/-! ## Latencies -/

/-- The loop over the lines, and what it returns. -/
def readLatencies : List (List Char) → Nat → (Fin maxOps → Nat) → Int × (Fin maxOps → Nat)
  | [], numOps, opsLatency => (numOps, opsLatency)
  | line :: lines, numOps, opsLatency =>
      if h : numOps < maxOps then
        let opsLatency := Function.update opsLatency ⟨numOps, h⟩ (uint32 (strtol line 10))
        if (strtolEnd line).dropWhile isspace = [] then readLatencies lines (numOps + 1) opsLatency
        else (-2, opsLatency)
      else (-3, opsLatency)

/-- The result, and the table. -/
def readOpsLatency (file : Option (List Char)) : Int × (Fin maxOps → Nat) :=
  match file with
  | none => (-1, fun _ => 0)
  | some file => readLatencies (fgets lineSize file) 0 fun _ => 0

theorem uint32_lt (k : Int) : uint32 k < uint32Size := by
  unfold uint32
  have hpos : (0 : Int) < uint32Size := by decide
  have := Int.emod_lt_of_pos k hpos
  have := Int.emod_nonneg k (Int.ne_of_gt hpos)
  omega

theorem readLatencies_lt {lines : List (List Char)} :
    ∀ {numOps : Nat} {opsLatency : Fin maxOps → Nat}, (∀ op, opsLatency op < uint32Size) →
      ∀ op, (readLatencies lines numOps opsLatency).2 op < uint32Size := by
  induction lines with
  | nil => exact fun h => h
  | cons line lines ih =>
      intro numOps opsLatency h
      unfold readLatencies
      split
      · rename_i hnum
        have hnew : ∀ op, Function.update opsLatency ⟨numOps, hnum⟩ (uint32 (strtol line 10)) op <
            uint32Size := by
          intro op
          by_cases hop : op = ⟨numOps, hnum⟩
          · rw [hop, Function.update_self]
            exact uint32_lt _
          · rw [Function.update_of_ne hop]
            exact h op
        simp only
        split
        · exact ih hnew
        · exact hnew
      · exact h

/-- The table holds `unsigned`s. -/
theorem readOpsLatency_lt (file : Option (List Char)) (op : Fin maxOps) :
    (readOpsLatency file).2 op < uint32Size := by
  have hzero : ∀ op : Fin maxOps, (fun _ => 0 : Fin maxOps → Nat) op < uint32Size := fun _ =>
    Nat.two_pow_pos 32
  cases file with
  | none => exact hzero op
  | some file => exact readLatencies_lt hzero op

/-! ## The program -/

/-- `PROG_SIZE_QUOTA`. -/
def progSizeQuota : Nat := 64

/-- An `InstInfo` as it is read, whatever its numbers are. -/
structure InstFields where
  opcode : BitVec 32
  dstIdx : BitVec 32
  src1Idx : BitVec 32
  src2Idx : BitVec 32
deriving DecidableEq, Repr

/-- Why the loop stops before the end of the file. -/
inductive Stop where
  | parseError
  /-- The program buffer is left. -/
  | outOfBounds
deriving DecidableEq, Repr

/-- The variables of the loop. `lineNum` counts the stores into the buffer;
the source's `unsigned` holds it modulo `2 ^ 32`. -/
structure ProgBuf where
  lineNum : Nat
  maxInsts : Nat
  progBuf : Nat → InstFields

/-- The first lines of the loop: the buffer is resized when it is full. -/
def ProgBuf.grow (s : ProgBuf) : ProgBuf :=
  if wrap s.lineNum = s.maxInsts then { s with maxInsts := s.maxInsts + progSizeQuota } else s

/-- `progBuf[lineNum] = ...; ++lineNum`. -/
def ProgBuf.store (s : ProgBuf) (inst : InstFields) : Except Stop ProgBuf :=
  if wrap s.lineNum < s.maxInsts then
    .ok { s with
      lineNum := s.lineNum + 1
      progBuf := Function.update s.progBuf (wrap s.lineNum) inst }
  else .error .outOfBounds

/-- Blank, or a comment. -/
def isIgnored (line : List Char) : Bool :=
  match line.dropWhile isspace with
  | [] => true
  | c :: _ => c == '#'

def delims : List Char := [' ', '\t', '\n', '\r']

/-- The loop over the fields of a line. -/
def parseFields : Nat → List Char → Option (List Int)
  | 0, _ => some []
  | i + 1, entry =>
      match strtokAny delims entry with
      | (none, _) => none
      | (some curField, entry) =>
          if strtolEnd curField = [] then (parseFields i entry).map (strtol curField 10 :: ·)
          else none

def readLine (s : ProgBuf) (line : List Char) : Except Stop ProgBuf :=
  let s := s.grow
  if isIgnored line then .ok s
  else
    match parseFields 4 (line.dropWhile isspace) with
    | some [opcode, dst, src1, src2] =>
        s.store ⟨BitVec.ofInt 32 opcode, BitVec.ofInt 32 dst, BitVec.ofInt 32 src1,
          BitVec.ofInt 32 src2⟩
    | _ => .error .parseError

/-- The loop over the lines. `heap` is what `realloc` returns. -/
def readLines (heap : Nat → InstFields) (lines : List (List Char)) : Except Stop ProgBuf :=
  lines.foldlM readLine { lineNum := 0, maxInsts := 0, progBuf := heap }

/-- The result, and what is stored in `prog`, `none` being `NULL`. -/
def readProgram (heap : Nat → InstFields) (file : Option (List Char)) :
    Except Stop (Int × Option (Nat → InstFields)) :=
  match file with
  | none => .ok (-1, none)
  | some file =>
      match readLines heap (fgets lineSize file) with
      | .ok s => .ok (int32 (wrap s.lineNum), if s.maxInsts = 0 then none else some s.progBuf)
      | .error .parseError => .ok (-2, none)
      | .error .outOfBounds => .error .outOfBounds

end DataFlow

end ArchSim
