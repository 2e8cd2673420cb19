import ArchSim.Uint32
import ArchSim.WhileLoop

/-!
# The multithreaded cores

`HW4/core_api.cpp` on the memory simulator of `HW4/sim_api.c`: a core
that switches threads when the current one blocks, and one that switches
every cycle. The `int`s of instructions, registers and data are 32-bit
words, their arithmetic modulo `2 ^ 32`.

An access outside the register file or the data array is undefined in
the source. Here it reads 0 or writes nothing, and `inBounds` records
that it has happened.
-/

namespace ArchSim

namespace MtCore

inductive CmdOpcode where
  | nop
  | add
  | sub
  | addi
  | subi
  | load
  | store
  | halt
deriving DecidableEq, Repr

structure Instruction where
  opcode : CmdOpcode
  dstIndex : BitVec 32
  src1Index : BitVec 32
  src2IndexImm : BitVec 32
  isSrc2Imm : Bool
deriving DecidableEq, Repr

/-- What `SIM_MemReset` has read from the image file: parameters, one
instruction list for each thread, and the data array. -/
structure Image where
  threadnumber : Nat
  loadLatency : Nat
  storeLatency : Nat
  switchCycles : Nat
  instructions : Nat → Nat → Instruction
  dataStart : BitVec 32
  data : Nat → BitVec 32

/-! ## Registers and data -/

def regsCount : Nat := 8

def dataSize : Nat := 100

/-- A register file. -/
abbrev Tcontext := Nat → BitVec 32

def Tcontext.get (regs : Tcontext) (i : BitVec 32) : BitVec 32 :=
  if i.toNat < regsCount then regs i.toNat else 0

def Tcontext.set (regs : Tcontext) (i v : BitVec 32) : Tcontext :=
  if i.toNat < regsCount then Function.update regs i.toNat v else regs

/-- The array index of an address: a signed difference, divided by 4
towards zero. -/
def addrI (img : Image) (addr : BitVec 32) : Int := (addr - img.dataStart).toInt.tdiv 4

/-- The word of the data array at an address, if there is one. -/
def word? (img : Image) (addr : BitVec 32) : Option Nat :=
  if 0 ≤ addrI img addr ∧ addrI img addr < dataSize then some (addrI img addr).toNat else none

/-- `SIM_MemDataRead`, or `none` outside the array. -/
def simMemDataRead? (img : Image) (data : Nat → BitVec 32) (addr : BitVec 32) :
    Option (BitVec 32) :=
  (word? img addr).map data

/-- `SIM_MemDataWrite`, or `none` outside the array. -/
def simMemDataWrite? (img : Image) (data : Nat → BitVec 32) (addr val : BitVec 32) :
    Option (Nat → BitVec 32) :=
  (word? img addr).map fun w => Function.update data w val

def simMemDataRead (img : Image) (data : Nat → BitVec 32) (addr : BitVec 32) : BitVec 32 :=
  (simMemDataRead? img data addr).getD 0

def simMemDataWrite (img : Image) (data : Nat → BitVec 32) (addr val : BitVec 32) :
    Nat → BitVec 32 :=
  (simMemDataWrite? img data addr val).getD data

theorem simMemDataRead_eq (img : Image) (data : Nat → BitVec 32) (addr : BitVec 32) :
    simMemDataRead img data addr =
      match word? img addr with
      | some w => data w
      | none => 0 := by
  unfold simMemDataRead simMemDataRead?
  cases word? img addr <;> rfl

theorem simMemDataWrite_eq (img : Image) (data : Nat → BitVec 32) (addr val : BitVec 32) :
    simMemDataWrite img data addr val =
      match word? img addr with
      | some w => Function.update data w val
      | none => data := by
  unfold simMemDataWrite simMemDataWrite?
  cases word? img addr <;> rfl

namespace Instruction

variable (inst : Instruction) (regs : Tcontext)

def addend : BitVec 32 :=
  if inst.isSrc2Imm then inst.src2IndexImm else regs.get inst.src2IndexImm

/-- The address of a LOAD. -/
def loadAddr : BitVec 32 := regs.get inst.src1Index + inst.addend regs

/-- The address of a STORE. -/
def storeAddr : BitVec 32 := regs.get inst.dstIndex + inst.addend regs

/-- The `switch` of `EXECUTE_inst`, as far as registers and data go. -/
def compute (img : Image) (data : Nat → BitVec 32) : Tcontext × (Nat → BitVec 32) :=
  match inst.opcode with
  | .nop => (regs, data)
  | .add => (regs.set inst.dstIndex (regs.get inst.src1Index + regs.get inst.src2IndexImm), data)
  | .addi => (regs.set inst.dstIndex (regs.get inst.src1Index + inst.src2IndexImm), data)
  | .sub => (regs.set inst.dstIndex (regs.get inst.src1Index - regs.get inst.src2IndexImm), data)
  | .subi => (regs.set inst.dstIndex (regs.get inst.src1Index - inst.src2IndexImm), data)
  | .load => (regs.set inst.dstIndex (simMemDataRead img data (inst.loadAddr regs)), data)
  | .store => (regs, simMemDataWrite img data (inst.storeAddr regs) (regs.get inst.src1Index))
  | .halt => (regs, data)

/-- The registers that the instruction names exist. -/
def regsOk : Bool :=
  match inst.opcode with
  | .nop | .halt => true
  | .add | .sub =>
      inst.dstIndex.toNat < regsCount && inst.src1Index.toNat < regsCount &&
        inst.src2IndexImm.toNat < regsCount
  | .addi | .subi => inst.dstIndex.toNat < regsCount && inst.src1Index.toNat < regsCount
  | .load | .store =>
      inst.dstIndex.toNat < regsCount && inst.src1Index.toNat < regsCount &&
        (inst.isSrc2Imm || inst.src2IndexImm.toNat < regsCount)

/-- The address that the instruction accesses is that of a data word. -/
def addrOk (img : Image) : Bool :=
  match inst.opcode with
  | .load => (word? img (inst.loadAddr regs)).isSome
  | .store => (word? img (inst.storeAddr regs)).isSome
  | _ => true

end Instruction

/-! ## The core -/

structure Thread where
  rip : Nat
  returnCycle : Nat
  regs : Tcontext

/-- What the debug output of `EXECUTE_inst` prints of an instruction. -/
structure Issue where
  cycle : Nat
  thread : Nat
  line : Nat
  opcode : CmdOpcode
deriving DecidableEq, Repr

/-- The struct `Core`, the two local counters of the loop that drives it,
and the data array. The constant fields are read off the image. The
counters that a number of threads bounds do not overflow; the others
wrap. `inBounds` and `log`, the latest instruction first, are not in the
source. -/
structure Core where
  cycleCount : Nat
  instCount : Nat
  rrIndex : Nat
  coreThreads : Nat → Thread
  haltCount : Nat
  idleCount : Nat
  data : Nat → BitVec 32
  inBounds : Bool
  log : List Issue

def coreInit (img : Image) : Core where
  cycleCount := 0
  instCount := 0
  rrIndex := 0
  coreThreads := fun _ => { rip := 0, returnCycle := 0, regs := fun _ => 0 }
  haltCount := 0
  idleCount := 0
  data := img.data
  inBounds := true
  log := []

/-- The return cycle that an instruction leaves its thread with. -/
def returnAfter (img : Image) (cycleCount old : Nat) : CmdOpcode → Nat
  | .load => wrap (cycleCount + 1 + img.loadLatency)
  | .store => wrap (cycleCount + 1 + img.storeLatency)
  | .halt => uint32Max
  | _ => old

def executeInst (img : Image) (s : Core) : Core :=
  let thread := s.coreThreads s.rrIndex
  let inst := img.instructions s.rrIndex thread.rip
  let result := inst.compute thread.regs img s.data
  { s with
    coreThreads := Function.update s.coreThreads s.rrIndex
      { rip := wrap (thread.rip + 1)
        returnCycle := returnAfter img s.cycleCount thread.returnCycle inst.opcode
        regs := result.1 }
    data := result.2
    idleCount := if inst.opcode = .load ∨ inst.opcode = .store then 1 else 0
    haltCount := if inst.opcode = .halt then s.haltCount + 1 else s.haltCount
    cycleCount := wrap (s.cycleCount + 1)
    instCount := wrap (s.instCount + 1)
    inBounds := s.inBounds && inst.regsOk && inst.addrOk thread.regs img
    log := ⟨s.cycleCount, s.rrIndex, thread.rip, inst.opcode⟩ :: s.log }

/-- Is the thread that `rr_index` selects available? -/
def Core.currentReady (s : Core) : Bool := (s.coreThreads s.rrIndex).returnCycle ≤ s.cycleCount

def Core.nextThread (img : Image) (s : Core) : Core :=
  { s with rrIndex := (s.rrIndex + 1) % img.threadnumber }

def Core.idle (s : Core) : Core := { s with idleCount := s.idleCount + 1 }

/-- The inner loop of `CORE_BlockedMT`, with the rounds it has left. -/
def scan (img : Image) : Nat → Core → Core
  | 0, s => s
  | k + 1, s =>
      let s := s.nextThread img
      if s.currentReady then { s with cycleCount := wrap (s.cycleCount + img.switchCycles) }
      else scan img k s.idle

def blockedStep (img : Image) (s : Core) : Core :=
  if s.currentReady then executeInst img s
  else
    let s := scan img img.threadnumber { s with idleCount := 0 }
    if s.idleCount = img.threadnumber then { s with cycleCount := wrap (s.cycleCount + 1) } else s

def finegrainedStep (img : Image) (s : Core) : Core :=
  let s :=
    if s.currentReady then { executeInst img s with idleCount := 0 }
    else
      let s := s.idle
      if img.threadnumber ≤ s.idleCount then
        { s with cycleCount := wrap (s.cycleCount + 1), idleCount := 0 }
      else s
  s.nextThread img

/-- At least one thread is not halted. -/
def Core.running (img : Image) (s : Core) : Bool := s.haltCount < img.threadnumber

def coreBlockedMT (img : Image) (fuel : Nat) : Option Core :=
  whileLoop (Core.running img) (blockedStep img) fuel (coreInit img)

def coreFinegrainedMT (img : Image) (fuel : Nat) : Option Core :=
  whileLoop (Core.running img) (finegrainedStep img) fuel (coreInit img)

/-- As long as the loop with this body runs, its instructions name registers
that there are and access words of the data array only. -/
def Image.StaysInBounds (img : Image) (body : Core → Core) : Prop :=
  ∀ k, (∀ j < k, (body^[j] (coreInit img)).running img = true) →
    (body^[k] (coreInit img)).inBounds = true

/-- It is enough to look at the iterations that there are. -/
theorem Image.staysInBounds_of_ends {img : Image} {body : Core → Core} {n : Nat}
    (hend : (body^[n] (coreInit img)).running img = false)
    (hin : ∀ k ≤ n, (body^[k] (coreInit img)).inBounds = true) : img.StaysInBounds body := by
  intro k hrun
  rcases Nat.lt_or_ge n k with hlt | hle
  · rw [hrun n hlt] at hend
    cases hend
  · exact hin k hle

end MtCore

end ArchSim
