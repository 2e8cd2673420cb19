import ArchSim.Uint32

/-!
# The dataflow analysis

`HW3/dflow_calc.cpp`. `InitData` first walks the program with the last
writer of each register, and then fills in the depths by a memoised
recursion from the instructions nobody depends on. An `int` that a
computation stores is reduced to the range of 32 bits (`int32`); -1, the
constant `NONE`, stands for "no instruction" and for "not computed".

Register indices and opcodes are those the arrays have. The recursion is
bounded by fuel, and `none` is the outcome when that runs out.
-/

namespace ArchSim

namespace DataFlow

/-- A number stored as an `int`. -/
def int32 (n : Int) : Int := n.bmod uint32Size

/-- A number stored as an `unsigned int`. -/
def uint32 (n : Int) : Nat := (n % uint32Size).toNat

theorem int32_of_lt {k : Nat} (h : k < 2 ^ 31) : int32 k = k :=
  Int.bmod_eq_of_le (by omega) (by simp only [uint32Size]; omega)

theorem int32_of_ge {k : Nat} (hge : 2 ^ 31 ≤ k) (hlt : k < 2 ^ 32) : int32 k = k - 2 ^ 32 := by
  have hmod : (k : Int) % uint32Size = k :=
    Int.emod_eq_of_lt (Int.natCast_nonneg k) (Int.ofNat_lt.mpr hlt)
  rw [int32, Int.bmod_def, hmod, if_neg]
  · rfl
  · simp only [uint32Size]
    omega

def NONE : Int := -1

abbrev maxOps : Nat := 32

abbrev numOfRegs : Nat := 32

instance : NeZero maxOps := ⟨Nat.succ_ne_zero 31⟩

instance : NeZero numOfRegs := ⟨Nat.succ_ne_zero 31⟩

structure InstInfo where
  opcode : Fin maxOps
  dstIdx : Fin numOfRegs
  src1Idx : Fin numOfRegs
  src2Idx : Fin numOfRegs
deriving DecidableEq, Repr

/-- The constructor leaves `opcode` and `latency` unset; `InitData` sets
them before anything reads them. -/
structure Node where
  opcode : Nat := 0
  dep1 : Int := NONE
  dep2 : Int := NONE
  maxDepth : Int := NONE
  latency : Nat := 0
deriving DecidableEq, Repr

end DataFlow

open DataFlow in
structure DataFlow where
  dependencies : Nat → Node
  regs : Fin numOfRegs → Nat
  exitNodes : Nat → Bool
  numOfInsts : Nat
  maxDepth : Int

/-- The type of contexts that the queries take. -/
abbrev ProgCtx := DataFlow

namespace DataFlow

variable (opsLatency : Fin maxOps → Nat) (progTrace : Nat → InstInfo)

/-- The members before `InitData`. -/
def start (numOfInsts : Nat) : DataFlow where
  dependencies := fun _ => {}
  regs := fun _ => uint32 NONE
  exitNodes := fun _ => true
  numOfInsts := numOfInsts
  maxDepth := NONE

/-- `exit_nodes[dependency] = false`, unless there is no dependency. -/
def clearExit (exitNodes : Nat → Bool) (dependency : Int) : Nat → Bool :=
  if dependency ≠ NONE then Function.update exitNodes dependency.toNat false else exitNodes

/-- One turn of the first loop of `InitData`. -/
def initNode (flow : DataFlow) (i : Nat) : DataFlow :=
  let currentInst := progTrace i
  let dependency1 := int32 (flow.regs currentInst.src1Idx)
  let dependency2 := int32 (flow.regs currentInst.src2Idx)
  { flow with
    dependencies := Function.update flow.dependencies i
      { flow.dependencies i with
        opcode := currentInst.opcode
        latency := opsLatency currentInst.opcode
        dep1 := dependency1
        dep2 := dependency2 }
    exitNodes := clearExit (clearExit flow.exitNodes dependency1) dependency2
    regs := Function.update flow.regs currentInst.dstIdx i }

/-- The result of the call, and the nodes after it. -/
def getDepthRecursive : Nat → (Nat → Node) → Int → Option (Int × (Nat → Node))
  | 0, _, _ => none
  | fuel + 1, nodes, nodeIndex =>
      if nodeIndex = NONE then
        some (0, nodes)
      else if (nodes nodeIndex.toNat).maxDepth ≠ NONE then
        some ((nodes nodeIndex.toNat).maxDepth, nodes)
      else do
        let maxDepth := int32 (nodes nodeIndex.toNat).latency
        let (max1, nodes) ← getDepthRecursive fuel nodes (nodes nodeIndex.toNat).dep1
        -- `current_node` is a reference: the first call may have changed the node.
        let (max2, nodes) ← getDepthRecursive fuel nodes (nodes nodeIndex.toNat).dep2
        let result := int32 (maxDepth + if max1 > max2 then max1 else max2)
        some (result, Function.update nodes nodeIndex.toNat
          { nodes nodeIndex.toNat with maxDepth := result })

/-- One turn of the second loop of `InitData`. -/
def visitExit (fuel : Nat) (flow : DataFlow) (i : Nat) : Option DataFlow :=
  if flow.exitNodes i then do
    let (maxTemp, nodes) ← getDepthRecursive fuel flow.dependencies (int32 i)
    some { flow with
      dependencies := nodes
      maxDepth := if flow.maxDepth > maxTemp then flow.maxDepth else maxTemp }
  else
    some flow

def initData (fuel : Nat) (flow : DataFlow) : Option DataFlow :=
  (List.range flow.numOfInsts).foldlM (visitExit fuel)
    ((List.range flow.numOfInsts).foldl (initNode opsLatency progTrace) flow)

/-- The context, which the source allocates. -/
def analyzeProg (fuel numOfInsts : Nat) : Option ProgCtx :=
  initData opsLatency progTrace fuel (start numOfInsts)

/-! ## Queries -/

def getInstDepth (ctx : ProgCtx) (theInst : Nat) : Int :=
  if theInst ≥ ctx.numOfInsts then NONE
  else
    let instNode := ctx.dependencies theInst
    if instNode.maxDepth = NONE then 0 else int32 (instNode.maxDepth - instNode.latency)

/-- The result, and what is stored for the two sources. -/
def getInstDeps (ctx : ProgCtx) (theInst : Nat) : Int × Option (Int × Int) :=
  if theInst ≥ ctx.numOfInsts then (NONE, none)
  else
    let instNode := ctx.dependencies theInst
    (0, some (instNode.dep1, instNode.dep2))

def getProgDepth (ctx : ProgCtx) : Int := ctx.maxDepth

end DataFlow

end ArchSim
