import Mathlib

/-!
# The branch predictor

`HW1/bp.cpp` and the loop of `HW1/bp_main.c`. Addresses, histories and
counters are 32-bit words. The arrays are functions, and an access outside
of their bounds is a `Fault`, where the source goes on with whatever the
memory holds.

What the constructors leave unset is a parameter (`Unset`) that the
members start with.
-/

namespace ArchSim

namespace Bp

/-- An index, and the size of the array that it misses. -/
inductive Fault where
  | entries (index : BitVec 32) (btbSize : Nat)
  | fsm (index numOfFsm : BitVec 32)
deriving DecidableEq, Repr

/-! ## State machines -/

/-- The enumeration as the numbers that the source computes with. -/
abbrev BimodalState := Int

namespace BimodalState

/-- Used for capping the values. -/
def BIMODAL_MIN : BimodalState := -1

def SNT : BimodalState := 0

def WNT : BimodalState := 1

def WT : BimodalState := 2

def ST : BimodalState := 3

/-- Used for capping the values. -/
def BIMODAL_MAX : BimodalState := 4

def update (state : BimodalState) (taken : Bool) : BimodalState :=
  let state := state + if taken then 1 else -1
  let state := if state ≥ BIMODAL_MAX then ST else state
  if state ≤ BIMODAL_MIN then SNT else state

end BimodalState

structure FsmTable where
  defaultState : BitVec 32
  numOfFsm : BitVec 32
  fsm : Nat → BimodalState

namespace FsmTable

/-- `reset`, with or without allocation. -/
def reset (table : FsmTable) : FsmTable :=
  { table with fsm := fun _ => table.defaultState.toInt }

def new (historySize : Nat) (fsmState : BitVec 32) : FsmTable :=
  reset { defaultState := fsmState, numOfFsm := 1#32 <<< historySize, fsm := fun _ => 0 }

def update (table : FsmTable) (index : BitVec 32) (taken : Bool) : Except Fault FsmTable :=
  if index < table.numOfFsm then
    .ok { table with
      fsm := Function.update table.fsm index.toNat ((table.fsm index.toNat).update taken) }
  else
    .error (.fsm index table.numOfFsm)

def getStateByIndex (table : FsmTable) (index : BitVec 32) : Except Fault BimodalState :=
  if index < table.numOfFsm then .ok (table.fsm index.toNat)
  else .error (.fsm index table.numOfFsm)

end FsmTable

/-! ## Histories -/

/-- A branch history register. -/
structure Bhr where
  historySize : Nat
  historyRecord : BitVec 32
  historyMask : BitVec 32

namespace Bhr

/-- The constructor does not set the record. -/
def new (historySize : Nat) (record : BitVec 32) : Bhr where
  historySize := historySize
  historyRecord := record
  historyMask := (1#32 <<< historySize) - 1

def update (bhr : Bhr) (taken : Bool) : Bhr :=
  { bhr with
    historyRecord := ((bhr.historyRecord <<< 1) + if taken then 1 else 0) &&& bhr.historyMask }

def getHistory (bhr : Bhr) : BitVec 32 := bhr.historyRecord

def setHistory (bhr : Bhr) (history : BitVec 32) : Bhr :=
  { bhr with historyRecord := history }

end Bhr

/-! ## The branch target buffer -/

structure BtbEntry where
  valid : Bool
  tag : BitVec 32
  target : BitVec 32
  localBhr : Bhr
  localTable : FsmTable

/-! The `ShareStatus` values that the source compares with. -/

def NOT_USING_SHARE : Int := 0

def USING_SHARE_LSB : Int := 1

/-- The members of the `BTB` that its constructor sets for good. -/
structure Params where
  btbSize : Nat
  historySize : Nat
  tagSize : Nat
  isGlobalHist : Bool
  isGlobalTable : Bool
  shared : Int
deriving DecidableEq, Repr

/-- The sizes for which every shift of the source is defined. -/
structure Params.Valid (p : Params) : Prop where
  btbSize_pos : 1 ≤ p.btbSize
  btbSize_le : p.btbSize ≤ 2 ^ 29
  historySize_pos : 1 ≤ p.historySize
  historySize_le : p.historySize ≤ 30
  tagSize_le : p.tagSize ≤ 30

/-- What the memory held where no constructor stores anything: the global
history, and the tag, target and history of each entry. -/
structure Unset where
  globalHistory : BitVec 32
  tag : Nat → BitVec 32
  target : Nat → BitVec 32
  localHistory : Nat → BitVec 32

structure Btb extends Params where
  /-- For calculating the index. -/
  entryIndexMask : BitVec 32
  globalBhr : Bhr
  globalTable : FsmTable
  entries : Nat → BtbEntry
  updateCounter : BitVec 32
  flushCounter : BitVec 32

/-- The `BTB` that `BP_init` allocates. -/
def bpInit (p : Params) (fsmState : BitVec 32) (unset : Unset) : Btb where
  toParams := p
  entryIndexMask := (1#32 <<< p.btbSize.log2) - 1
  globalBhr := Bhr.new p.historySize unset.globalHistory
  globalTable := FsmTable.new p.historySize fsmState
  entries := fun i =>
    { valid := false
      tag := unset.tag i
      target := unset.target i
      localBhr := Bhr.new p.historySize (unset.localHistory i)
      localTable := FsmTable.new p.historySize fsmState }
  updateCounter := 0
  flushCounter := 0

namespace Btb

/-- The history masked according to the type of share. -/
def getSharedHistory (btb : Btb) (history pc : BitVec 32) : BitVec 32 :=
  if btb.shared = NOT_USING_SHARE then history
  else
    let historyMask : BitVec 32 := (1#32 <<< btb.historySize) - 1
    let maskedPc := if btb.shared = USING_SHARE_LSB then pc >>> 2 else pc >>> 16
    history ^^^ (maskedPc &&& historyMask)

def getTag (btb : Btb) (address : BitVec 32) : BitVec 32 :=
  (address >>> (2 + btb.btbSize.log2)) &&& ((1#32 <<< btb.tagSize) - 1)

def getEntryByIndex (btb : Btb) (address : BitVec 32) : BitVec 32 :=
  (address >>> 2) &&& btb.entryIndexMask

/-- `entries[getEntryByIndex(pc)]`. -/
def entryOf (btb : Btb) (pc : BitVec 32) : Except Fault BtbEntry :=
  if (btb.getEntryByIndex pc).toNat < btb.btbSize then
    .ok (btb.entries (btb.getEntryByIndex pc).toNat)
  else
    .error (.entries (btb.getEntryByIndex pc) btb.btbSize)

def mispredicted (pc targetPc : BitVec 32) (taken : Bool) (predDst : BitVec 32) : Bool :=
  (taken && targetPc ≠ predDst) || (!taken && predDst ≠ pc + 4)

/-- The entry of the branch when its histories and tables are about to be
updated. -/
def renew (btb : Btb) (entry : BtbEntry) (pc targetPc : BitVec 32) : BtbEntry :=
  let currentTag := btb.getTag pc
  let entry :=
    if !entry.valid || entry.tag ≠ currentTag then
      { entry with
        tag := currentTag
        target := targetPc
        localBhr := entry.localBhr.setHistory 0
        localTable := entry.localTable.reset }
    else
      entry
  { entry with valid := true, target := targetPc }

def update (btb : Btb) (pc targetPc : BitVec 32) (taken : Bool) (predDst : BitVec 32) :
    Except Fault Btb := do
  let updateCounter := btb.updateCounter + 1
  let flushCounter :=
    if mispredicted pc targetPc taken predDst then btb.flushCounter + 1 else btb.flushCounter
  let entry ← btb.entryOf pc
  let entry := btb.renew entry pc targetPc
  let histForUpdate := if btb.isGlobalHist then btb.globalBhr else entry.localBhr
  let maskedHistory := btb.getSharedHistory histForUpdate.getHistory pc
  let globalTable ← btb.globalTable.update maskedHistory taken
  let localTable ← entry.localTable.update histForUpdate.getHistory taken
  .ok { btb with
    updateCounter := updateCounter
    flushCounter := flushCounter
    globalTable := globalTable
    globalBhr := btb.globalBhr.update taken
    entries := Function.update btb.entries (btb.getEntryByIndex pc).toNat
      { entry with localTable := localTable, localBhr := entry.localBhr.update taken } }

/-- The decision, and what is stored in `dst`. -/
def predict (btb : Btb) (pc : BitVec 32) : Except Fault (Bool × BitVec 32) := do
  let entry ← btb.entryOf pc
  if entry.valid && btb.getTag pc = entry.tag then
    let historyIndex :=
      if btb.isGlobalHist then btb.globalBhr.getHistory else entry.localBhr.getHistory
    let fsmTable := if btb.isGlobalTable then btb.globalTable else entry.localTable
    let historyIndex :=
      if btb.isGlobalTable then btb.getSharedHistory historyIndex pc else historyIndex
    let biState ← fsmTable.getStateByIndex historyIndex
    if biState = BimodalState.WT ∨ biState = BimodalState.ST then .ok (true, entry.target)
    else .ok (false, pc + 4)
  else
    .ok (false, pc + 4)

end Btb

/-! ## Callers -/

inductive Call where
  | predict (pc : BitVec 32)
  | update (pc targetPc : BitVec 32) (taken : Bool) (predDst : BitVec 32)
deriving DecidableEq, Repr

def Call.run (btb : Btb) : Call → Except Fault Btb
  | .predict pc => do
      let _ ← btb.predict pc
      .ok btb
  | .update pc targetPc taken predDst => btb.update pc targetPc taken predDst

def runCalls : Btb → List Call → Except Fault Btb
  | btb, [] => .ok btb
  | btb, call :: calls => do
      let btb ← call.run btb
      runCalls btb calls

/-- A line of the trace. -/
structure Branch where
  pc : BitVec 32
  targetPc : BitVec 32
  taken : Bool
deriving DecidableEq, Repr

/-- The loop of `main`: what it prints for each line, and the final `BTB`. -/
def mainLoop : Btb → List Branch → Except Fault (List (Bool × BitVec 32) × Btb)
  | btb, [] => .ok ([], btb)
  | btb, b :: trace => do
      let prediction ← btb.predict b.pc
      let btb ← btb.update b.pc b.targetPc b.taken prediction.2
      let (predictions, btb) ← mainLoop btb trace
      .ok (prediction :: predictions, btb)

end Bp

end ArchSim
