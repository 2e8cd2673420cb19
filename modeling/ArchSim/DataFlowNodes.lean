import ArchSim.DataFlow
import ArchSim.LongestPath
import ArchSim.WhileLoop

/-!
# The nodes of the dataflow analysis

An instruction depends on the last writers of its two sources. These
dependencies form a `Dag`, and the first loop of `InitData` builds its nodes
and marks its tops (`Built`).
-/

namespace ArchSim

namespace DataFlow

/-! ## Dependencies -/

/-- `j` is the last instruction before `i` that writes `r`. -/
structure IsLastWriter (progTrace : Nat → InstInfo) (r : Fin numOfRegs) (i j : Nat) : Prop where
  before : j < i
  writes : (progTrace j).dstIdx = r
  last : ∀ k, j < k → k < i → (progTrace k).dstIdx ≠ r

def DependsOn (progTrace : Nat → InstInfo) (i j : Nat) : Prop :=
  IsLastWriter progTrace (progTrace i).src1Idx i j ∨
    IsLastWriter progTrace (progTrace i).src2Idx i j

def lastWriter (progTrace : Nat → InstInfo) (r : Fin numOfRegs) : Nat → Option Nat
  | 0 => none
  | i + 1 => if (progTrace i).dstIdx = r then some i else lastWriter progTrace r i

variable {opsLatency : Fin maxOps → Nat} {progTrace : Nat → InstInfo} {n : Nat}

theorem lastWriter_eq_some {r : Fin numOfRegs} {i j : Nat} :
    lastWriter progTrace r i = some j ↔ IsLastWriter progTrace r i j := by
  induction i with
  | zero =>
      constructor
      · intro h
        cases h
      · rintro ⟨hlt, -, -⟩
        exact absurd hlt (Nat.not_lt_zero j)
  | succ i ih =>
      unfold lastWriter
      split
      · rename_i hw
        constructor
        · intro h
          cases h
          exact ⟨Nat.lt_succ_self j, hw, fun k hlt hle => absurd hle (by omega)⟩
        · rintro ⟨hlt, -, hlast⟩
          rcases Nat.lt_succ_iff_lt_or_eq.mp hlt with hlt | rfl
          · exact absurd hw (hlast i hlt (Nat.lt_succ_self i))
          · rfl
      · rename_i hw
        rw [ih]
        constructor
        · rintro ⟨hlt, hj, hlast⟩
          refine ⟨Nat.lt_succ_of_lt hlt, hj, ?_⟩
          intro k hjk hk
          rcases Nat.lt_succ_iff_lt_or_eq.mp hk with hk | rfl
          · exact hlast k hjk hk
          · exact hw
        · rintro ⟨hlt, hj, hlast⟩
          rcases Nat.lt_succ_iff_lt_or_eq.mp hlt with hlt | rfl
          · exact ⟨hlt, hj, fun k hjk hk => hlast k hjk (Nat.lt_succ_of_lt hk)⟩
          · exact absurd hj hw

theorem lastWriter_lt {r : Fin numOfRegs} {i j : Nat}
    (h : lastWriter progTrace r i = some j) : j < i :=
  (lastWriter_eq_some.mp h).before

/-- The instructions with their dependencies and latencies. -/
def graph (opsLatency : Fin maxOps → Nat) (progTrace : Nat → InstInfo) : Dag Nat where
  deps := fun i =>
    (lastWriter progTrace (progTrace i).src1Idx i).toFinset ∪
      (lastWriter progTrace (progTrace i).src2Idx i).toFinset
  weight := fun i => opsLatency (progTrace i).opcode
  lt := by
    intro i j hj
    rcases Finset.mem_union.mp hj with h | h <;>
      exact lastWriter_lt (Option.mem_toFinset.mp h)

theorem mem_deps {i j : Nat} :
    j ∈ (graph opsLatency progTrace).deps i ↔
      lastWriter progTrace (progTrace i).src1Idx i = some j ∨
        lastWriter progTrace (progTrace i).src2Idx i = some j := by
  simp only [graph, Finset.mem_union, Option.mem_toFinset, Option.mem_def]

theorem mem_deps_iff_dependsOn {i j : Nat} :
    j ∈ (graph opsLatency progTrace).deps i ↔ DependsOn progTrace i j := by
  rw [mem_deps, lastWriter_eq_some, lastWriter_eq_some]
  rfl

/-! ## The first loop -/

/-- The number of an instruction, or `NONE`. -/
def source : Option Nat → Int
  | none => NONE
  | some j => j

/-- What a register holds. -/
def stored : Option Nat → Nat
  | none => uint32 NONE
  | some j => j

theorem int32_stored {o : Option Nat} (h : ∀ j, o = some j → j < 2 ^ 31) :
    int32 (stored o) = source o := by
  cases o with
  | none => decide
  | some j => exact int32_of_lt (h j rfl)

theorem source_ne_none (j : Nat) : source (some j) ≠ NONE := by
  simp only [source, NONE]
  omega

theorem clearExit_source {exits : Nat → Bool} {o : Option Nat} {j : Nat} :
    clearExit exits (source o) j = true ↔ exits j = true ∧ o ≠ some j := by
  cases o with
  | none => simp [clearExit, source]
  | some k =>
      rw [clearExit, if_pos (source_ne_none k), source, Int.toNat_natCast]
      by_cases hjk : j = k
      · subst hjk
        simp
      · rw [Function.update_of_ne hjk]
        simp [Ne.symm hjk]

/-- A node before its depth is computed. -/
def node (opsLatency : Fin maxOps → Nat) (progTrace : Nat → InstInfo) (i : Nat) : Node where
  opcode := (progTrace i).opcode
  dep1 := source (lastWriter progTrace (progTrace i).src1Idx i)
  dep2 := source (lastWriter progTrace (progTrace i).src2Idx i)
  maxDepth := NONE
  latency := opsLatency (progTrace i).opcode

/-- The context of a program of `n` instructions when `m` have been seen. -/
structure Built (opsLatency : Fin maxOps → Nat) (progTrace : Nat → InstInfo) (n m : Nat)
    (flow : DataFlow) : Prop where
  numOfInsts : flow.numOfInsts = n
  regs : ∀ r, flow.regs r = stored (lastWriter progTrace r m)
  nodes : ∀ i < m, flow.dependencies i = node opsLatency progTrace i
  unset : ∀ i, m ≤ i → flow.dependencies i = {}
  exits : ∀ j, flow.exitNodes j = true ↔ ∀ i < m, j ∉ (graph opsLatency progTrace).deps i
  maxDepth : flow.maxDepth = NONE

theorem built_start : Built opsLatency progTrace n 0 (start n) where
  numOfInsts := rfl
  regs := fun _ => rfl
  nodes := fun i hi => absurd hi (Nat.not_lt_zero i)
  unset := fun _ _ => rfl
  exits := fun _ => ⟨fun _ i hi => absurd hi (Nat.not_lt_zero i), fun _ => rfl⟩
  maxDepth := rfl

theorem Built.int32_regs {m : Nat} {flow : DataFlow}
    (h : Built opsLatency progTrace n m flow) (hm : m ≤ 2 ^ 31) (r : Fin numOfRegs) :
    int32 (flow.regs r) = source (lastWriter progTrace r m) := by
  rw [h.regs]
  exact int32_stored fun j hj => Nat.lt_of_lt_of_le (lastWriter_lt hj) hm

theorem built_initNode {m : Nat} {flow : DataFlow}
    (h : Built opsLatency progTrace n m flow) (hm : m < 2 ^ 31) :
    Built opsLatency progTrace n (m + 1) (initNode opsLatency progTrace flow m) := by
  have hdep := h.int32_regs (Nat.le_of_lt hm)
  refine ⟨h.numOfInsts, ?_, ?_, ?_, ?_, h.maxDepth⟩
  · intro r
    simp only [initNode, lastWriter]
    by_cases hr : (progTrace m).dstIdx = r
    · subst hr
      rw [Function.update_self, if_pos rfl, stored]
    · rw [Function.update_of_ne (Ne.symm hr), if_neg hr, h.regs]
  · intro i hi
    simp only [initNode]
    rcases Nat.lt_succ_iff_lt_or_eq.mp hi with hi | rfl
    · rw [Function.update_of_ne (Nat.ne_of_lt hi), h.nodes i hi]
    · rw [Function.update_self, h.unset i (Nat.le_refl i), hdep, hdep]
      rfl
  · intro i hi
    simp only [initNode]
    rw [Function.update_of_ne (by omega), h.unset i (by omega)]
  · intro j
    simp only [initNode, hdep, clearExit_source, h.exits, Nat.forall_lt_succ_right, and_assoc]
    refine and_congr_right ?_
    intro _
    rw [mem_deps, not_or]

theorem built_loop (hn : n ≤ 2 ^ 31) :
    Built opsLatency progTrace n n
      ((List.range n).foldl (initNode opsLatency progTrace) (start n)) :=
  foldl_range_invariant
    (fun _ hi _ h => built_initNode h (Nat.lt_of_lt_of_le hi hn)) built_start

end DataFlow

end ArchSim
