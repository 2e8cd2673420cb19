import ArchSim.SimInst

/-!
# Loading an image

`SIM_MemReset` of `HW4/sim_api.c`. The loops run over the strings that
`fgets` delivers of the file. The loop that reads an instruction or data
block shares its line buffer with the loop that looks for the next block, so
that a line which ends a block is not looked at again. What storing a record
or a word does is a parameter of the loops, a `Loader`.
-/

namespace ArchSim

namespace SimApi

open CString MtCore

/-- The globals. -/
structure MemSim where
  loadLatency : BitVec 32
  storeLatency : BitVec 32
  switchCycles : BitVec 32
  threadnumber : BitVec 32
  progStart : BitVec 32
  dataStart : BitVec 32
  instructions : Nat → Nat → Instruction
  data : Nat → BitVec 32

/-- The loop up to the `N` line, and what it leaves of the file. `heap` is
what `malloc` returns for the instructions. -/
def readConfig (heap : Nat → Nat → Instruction) :
    List (List Char) → MemSim → MemSim × List (List Char)
  | [], s => (s, [])
  | line :: img, s =>
      match line with
      | 'S' :: rest => readConfig heap img { s with storeLatency := atoi rest }
      | 'L' :: rest => readConfig heap img { s with loadLatency := atoi rest }
      | 'O' :: rest => readConfig heap img { s with switchCycles := atoi rest }
      | 'N' :: rest => ({ s with threadnumber := atoi rest, instructions := heap }, img)
      | _ => readConfig heap img s

/-- A line that this loop does not skip. -/
def isSetting : List Char → Bool
  | c :: _ => c ∈ ['N', 'S', 'L', 'O']
  | [] => false

theorem readConfig_skip (heap : Nat → Nat → Instruction) {line : List Char}
    (h : isSetting line = false) (img : List (List Char)) (s : MemSim) :
    readConfig heap (line :: img) s = readConfig heap img s := by
  rw [readConfig] <;> rintro rest rfl <;> cases h

/-- The address of an `@` line, and what is left in the line buffer. -/
def getStart (line : List Char) : Except Fault (BitVec 32 × List Char) :=
  let newline := strtok '\n' line
  let segment := strtok '@' (newline.token.getD newline.saved)
  match (strtok '@' segment.saved).token with
  | none => .error .nullString
  | some s => .ok (BitVec.ofInt 32 (strtol s 0), segment.buffer)

/-- The number of `Instruction`s for which a thread's array has room: it is
allocated as 100 pointers of 8 bytes, and an `Instruction` takes 20. -/
def instSlots : Nat := 100 * 8 / 20

/-- `get_inst(line, inst, tid)`. -/
def storeInst (line : List Char) (inst : Nat) (tid : Option (BitVec 32)) (s : MemSim) :
    Except Fault MemSim :=
  match tid with
  | none => .error .uninitialised
  | some tid =>
      if 0 ≤ tid.toInt ∧ tid.toInt < s.threadnumber.toInt ∧ inst < instSlots then do
        let i ← getInst line (s.instructions tid.toNat inst)
        return { s with
          instructions := Function.update s.instructions tid.toNat
            (Function.update (s.instructions tid.toNat) inst i) }
      else .error .outOfBounds

/-- `get_data(line, data_i)`. -/
def getData (line : List Char) (i : Nat) (s : MemSim) : Except Fault MemSim :=
  match (strtok '\n' line).token with
  | none => .error .nullString
  | some line =>
      if i < dataSize then
        .ok { s with data := Function.update s.data i (BitVec.ofInt 32 (strtol line 0)) }
      else .error .outOfBounds

/-- A line that ends a block of instructions or data. `next` is the first
letter of the other kind of block. -/
def endsBlock (next : Char) : List Char → Bool
  | c :: _ => c == '\n' || c == '#' || c == next
  | [] => false

/-- What the loops do with what they read: with the address of a block of
instructions or data, an instruction line and its number, and a data line and
its number. -/
structure Loader (σ : Type) where
  progStart : BitVec 32 → σ → σ
  dataStart : BitVec 32 → σ → σ
  inst : List Char → Nat → Option (BitVec 32) → σ → Except Fault σ
  data : List Char → Nat → σ → Except Fault σ

section

variable {σ : Type} (load : Loader σ)

mutual

/-- The loop that looks for `T` lines and blocks. -/
def readSegments : List (List Char) → Option (BitVec 32) → σ → Except Fault σ
  | [], _, s => .ok s
  | line :: img, tid, s =>
      match line with
      | 'T' :: rest => readSegments img (some (atoi rest)) s
      | 'I' :: '@' :: _ => do
          let (start, buffer) ← getStart line
          let s := load.progStart start s
          match img with
          | [] =>
              -- The result of this `fgets` is not checked.
              if endsBlock 'D' buffer then .ok s else load.inst buffer 0 tid s
          | _ => readCode img 0 tid s
      | 'D' :: '@' :: _ => do
          let (start, buffer) ← getStart line
          let s := load.dataStart start s
          match img with
          | [] => if endsBlock 'I' buffer then .ok s else load.data buffer 0 s
          | _ => readData img 0 tid s
      | _ => readSegments img tid s

/-- The loop over instruction lines. -/
def readCode : List (List Char) → Nat → Option (BitVec 32) → σ → Except Fault σ
  | [], _, _, s => .ok s
  | line :: img, inst, tid, s =>
      if endsBlock 'D' line then readSegments img tid s
      else do
        let s ← load.inst line inst tid s
        readCode img (inst + 1) tid s

/-- The loop over data lines. -/
def readData : List (List Char) → Nat → Option (BitVec 32) → σ → Except Fault σ
  | [], _, _, s => .ok s
  | line :: img, i, tid, s =>
      if endsBlock 'I' line then readSegments img tid s
      else do
        let s ← load.data line i s
        readData img (i + 1) tid s

end

end

/-- A line that the loop which looks for blocks does not skip. -/
def isSegment : List Char → Bool
  | 'T' :: _ => true
  | 'I' :: '@' :: _ => true
  | 'D' :: '@' :: _ => true
  | _ => false

theorem readSegments_skip {σ : Type} (load : Loader σ) {line : List Char}
    (h : isSegment line = false) (img : List (List Char)) (tid : Option (BitVec 32)) (s : σ) :
    readSegments load (line :: img) tid s = readSegments load img tid s := by
  rw [readSegments] <;> rintro rest rfl <;> cases h

/-- The loops store in the globals, where there is room. -/
def MemSim.loader : Loader MemSim where
  progStart start s := { s with progStart := start }
  dataStart start s := { s with dataStart := start }
  inst := storeInst
  data := getData

/-- `SIM_MemReset`, with `none` for a file that cannot be opened. -/
def simMemReset (heap : Nat → Nat → Instruction) (file : Option (List Char)) (s : MemSim) :
    Except Fault (Int × MemSim) :=
  match file with
  | none => .ok (-1, s)
  | some file => do
      let (s, img) := readConfig heap (fgets 1024 file) s
      let s ← readSegments MemSim.loader img none s
      return (0, s)

end SimApi

end ArchSim
