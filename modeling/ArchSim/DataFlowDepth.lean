import ArchSim.DataFlowVisit

/-!
# The depths of the dataflow analysis

When the latencies of a program add up to an `int`, the ends that the
recursion stores are the exact ones: the depths of the `Dag` of its
dependencies. None of them looks uncomputed, so that the contexts of such
programs hold right depths only (`Visited`).
-/

namespace ArchSim

namespace DataFlow

variable {opsLatency : Fin maxOps → Nat} {progTrace : Nat → InstInfo} {n : Nat}

/-! ## Exact ends -/

/-- The time from the entry to the end of an instruction. -/
def finish (opsLatency : Fin maxOps → Nat) (progTrace : Nat → InstInfo) (i : Nat) : Nat :=
  (graph opsLatency progTrace).depth i + (graph opsLatency progTrace).weight i

/-- The time from the entry to where a dependency lets its user start. -/
def ready (opsLatency : Fin maxOps → Nat) (progTrace : Nat → InstInfo) : Option Nat → Nat
  | none => 0
  | some j => finish opsLatency progTrace j

/-- What the recursion computes. -/
theorem finish_eq (i : Nat) :
    finish opsLatency progTrace i = opsLatency (progTrace i).opcode +
      max (ready opsLatency progTrace (lastWriter progTrace (progTrace i).src1Idx i))
        (ready opsLatency progTrace (lastWriter progTrace (progTrace i).src2Idx i)) := by
  have hsup : ∀ o : Option Nat, o.toFinset.sup (finish opsLatency progTrace) =
      ready opsLatency progTrace o := by
    intro o
    cases o with
    | none => rfl
    | some j => exact Finset.sup_singleton
  have hdepth : (graph opsLatency progTrace).depth i =
      ((graph opsLatency progTrace).deps i).sup (finish opsLatency progTrace) :=
    Dag.depth_eq _ i
  rw [finish, hdepth, graph, Finset.sup_union, hsup, hsup, Nat.add_comm]

/-- The `int` arithmetic of the recursion does not overflow. -/
theorem intFinish_eq_finish
    (hsum : ∑ i ∈ Finset.range n, opsLatency (progTrace i).opcode < 2 ^ 31) {i : Nat}
    (hi : i < n) : intFinish opsLatency progTrace i = finish opsLatency progTrace i := by
  induction i using Nat.strong_induction_on with
  | _ i ih =>
      have hready : ∀ r : Fin numOfRegs,
          intReady opsLatency progTrace (lastWriter progTrace r i) =
            ready opsLatency progTrace (lastWriter progTrace r i) := by
        intro r
        cases hw : lastWriter progTrace r i with
        | none => rfl
        | some j => exact ih j (lastWriter_lt hw) (Nat.lt_trans (lastWriter_lt hw) hi)
      have hle : finish opsLatency progTrace i < 2 ^ 31 :=
        Nat.lt_of_le_of_lt (Dag.depth_add_le_sum hi) hsum
      have hlat : opsLatency (progTrace i).opcode < 2 ^ 31 :=
        Nat.lt_of_le_of_lt (Nat.le_add_left _ _) hle
      rw [intFinish_eq, intStart, hready, hready, int32_of_lt hlat, ← Nat.cast_max,
        ← Int.natCast_add, ← finish_eq]
      exact int32_of_lt hle

/-! ## Contexts without overflow -/

def Computed (nodes : Nat → Node) (i : Nat) : Prop := (nodes i).maxDepth ≠ NONE

/-- Only depths have been written: right ones, and none before those that
it depends on. -/
structure Memo (opsLatency : Fin maxOps → Nat) (progTrace : Nat → InstInfo) (n : Nat)
    (nodes : Nat → Node) : Prop where
  node : ∀ i < n, { nodes i with maxDepth := NONE } = node opsLatency progTrace i
  value : ∀ i < n, Computed nodes i → (nodes i).maxDepth = finish opsLatency progTrace i
  closed : ∀ i < n, Computed nodes i →
    ∀ j ∈ (graph opsLatency progTrace).deps i, Computed nodes j

theorem Memo.latency {nodes : Nat → Node} (h : Memo opsLatency progTrace n nodes) {i : Nat}
    (hi : i < n) : (nodes i).latency = opsLatency (progTrace i).opcode :=
  congrArg Node.latency (h.node i hi)

/-- The context when the tops below `m` have been visited. -/
structure Visited (opsLatency : Fin maxOps → Nat) (progTrace : Nat → InstInfo) (n m : Nat)
    (flow : DataFlow) : Prop where
  numOfInsts : flow.numOfInsts = n
  memo : Memo opsLatency progTrace n flow.dependencies
  exits : ∀ j < n, flow.exitNodes j = true ↔ (graph opsLatency progTrace).Top n j
  computed : ∀ e < m, (graph opsLatency progTrace).Top n e → Computed flow.dependencies e
  upper : ∀ e < m, (graph opsLatency progTrace).Top n e →
    finish opsLatency progTrace e ≤ flow.maxDepth
  attained : flow.maxDepth = NONE ∨ ∃ i < n, flow.maxDepth = finish opsLatency progTrace i

/-- All instructions are computed, whichever tops they lie below. -/
theorem Analyzed.visited {ctx : ProgCtx} (h : Analyzed opsLatency progTrace n ctx)
    (hsum : ∑ i ∈ Finset.range n, opsLatency (progTrace i).opcode < 2 ^ 31) :
    Visited opsLatency progTrace n n ctx := by
  have hend : ∀ i < n, (ctx.dependencies i).maxDepth = finish opsLatency progTrace i := by
    intro i hi
    rw [h.nodes i hi]
    exact intFinish_eq_finish hsum hi
  have hcomputed : ∀ i < n, Computed ctx.dependencies i := by
    intro i hi
    rw [Computed, hend i hi]
    exact source_ne_none _
  obtain ⟨hmem, hupper⟩ := h.maxDepth
  refine ⟨h.numOfInsts, ⟨?_, fun i hi _ => hend i hi, ?_⟩, h.exits, fun e he _ => hcomputed e he,
    ?_, ?_⟩
  · intro i hi
    rw [h.nodes i hi]
    rfl
  · exact fun i hi _ j hj => hcomputed j (Nat.lt_trans ((graph opsLatency progTrace).lt i j hj) hi)
  · intro e he htop
    exact Int.le_trans (Int.le_of_eq (intFinish_eq_finish hsum he).symm)
      (hupper (Or.inr ⟨e, htop, rfl⟩))
  · rcases hmem with hnone | ⟨e, htop, hd⟩
    · exact Or.inl hnone
    · exact Or.inr ⟨e, htop.1, hd.trans (intFinish_eq_finish hsum htop.1)⟩

theorem analyzeProg_visited (hn : n ≤ 2 ^ 31)
    (hsum : ∑ i ∈ Finset.range n, opsLatency (progTrace i).opcode < 2 ^ 31) {fuel : Nat}
    (hfuel : n < fuel) :
    ∃ ctx, analyzeProg opsLatency progTrace fuel n = some ctx ∧
      Visited opsLatency progTrace n n ctx := by
  obtain ⟨ctx, hrun, h⟩ : ∃ ctx, analyzeProg opsLatency progTrace fuel n = some ctx ∧
      Analyzed opsLatency progTrace n ctx := analyzeProg_analyzed hn hfuel
  exact ⟨ctx, hrun, h.visited hsum⟩

/-! ## The answers -/

namespace Visited

variable {ctx : DataFlow} (h : Visited opsLatency progTrace n n ctx)

include h

/-- No instruction is left out: each lies below a top. -/
theorem computed_all {i : Nat} (hi : i < n) : Computed ctx.dependencies i :=
  Dag.of_tops (fun e htop => h.computed e htop.1 htop) h.memo.closed hi

theorem getInstDepth_eq (hsum : ∑ i ∈ Finset.range n, opsLatency (progTrace i).opcode < 2 ^ 31)
    {i : Nat} (hi : i < n) :
    getInstDepth ctx i = (graph opsLatency progTrace).depth i := by
  have hc := h.computed_all hi
  have hle : finish opsLatency progTrace i < 2 ^ 31 :=
    Nat.lt_of_le_of_lt (Dag.depth_add_le_sum hi) hsum
  have hsub : (finish opsLatency progTrace i : Int) - opsLatency (progTrace i).opcode =
      (graph opsLatency progTrace).depth i := by
    rw [finish, Int.natCast_add]
    exact Int.add_sub_cancel _ _
  rw [getInstDepth, h.numOfInsts, if_neg (Nat.not_le.mpr hi)]
  simp only
  rw [if_neg hc, h.memo.value i hi hc, h.memo.latency hi, hsub]
  exact int32_of_lt (Nat.lt_of_le_of_lt (Nat.le_add_right _ _) hle)

/-- The last of the tops is as deep as the deepest instruction. -/
theorem isGreatest_maxDepth (hn : 1 ≤ n) :
    IsGreatest {d : Int | ∃ i < n, d = finish opsLatency progTrace i} ctx.maxDepth := by
  have hupper : ∀ i < n, (finish opsLatency progTrace i : Int) ≤ ctx.maxDepth := by
    intro i hi
    obtain ⟨e, htop, hle⟩ := Dag.exists_top (g := graph opsLatency progTrace) hi
    exact Int.le_trans (Int.ofNat_le.mpr hle) (h.upper e htop.1 htop)
  refine ⟨?_, ?_⟩
  · rcases h.attained with hnone | hsome
    · have := hupper 0 hn
      rw [hnone, NONE] at this
      omega
    · exact hsome
  · rintro d ⟨i, hi, rfl⟩
    exact hupper i hi

end Visited

theorem path_iff {i : Nat} {l : List Nat} :
    (graph opsLatency progTrace).Path i l ↔ List.IsChain (DependsOn progTrace) (i :: l) := by
  simp only [Dag.Path, mem_deps_iff_dependsOn]

/-- The weight that the chain before `i` adds up to. -/
def chainLatency (opsLatency : Fin maxOps → Nat) (progTrace : Nat → InstInfo) (l : List Nat) :
    Nat :=
  (l.map fun j => opsLatency (progTrace j).opcode).sum

theorem isGreatest_chainLatency (i : Nat) :
    IsGreatest {d : Int | ∃ l, List.IsChain (DependsOn progTrace) (i :: l) ∧
      d = chainLatency opsLatency progTrace l} ((graph opsLatency progTrace).depth i) := by
  obtain ⟨⟨l, hl, hsum⟩, hupper⟩ := Dag.isGreatest_depth (g := graph opsLatency progTrace) i
  refine ⟨⟨l, path_iff.mp hl, congrArg Nat.cast hsum⟩, ?_⟩
  rintro d ⟨l', hl', rfl⟩
  exact Int.ofNat_le.mpr (hupper ⟨l', path_iff.mpr hl', rfl⟩)

/-- The depth of an instruction is the greatest latency of a chain of
dependencies that leads to it, and the depth of the program the greatest
end of an instruction. -/
theorem depths_exact (hn : 1 ≤ n) (hn' : n ≤ 2 ^ 31)
    (hsum : ∑ i ∈ Finset.range n, opsLatency (progTrace i).opcode < 2 ^ 31)
    {fuel : Nat} (hfuel : n < fuel) :
    ∃ ctx, analyzeProg opsLatency progTrace fuel n = some ctx ∧
      (∀ i < n, (ctx.dependencies i).maxDepth ≠ NONE) ∧
      (∀ i < n, IsGreatest {d : Int | ∃ l, List.IsChain (DependsOn progTrace) (i :: l) ∧
        d = chainLatency opsLatency progTrace l} (getInstDepth ctx i)) ∧
      IsGreatest {d : Int | ∃ i < n, d = getInstDepth ctx i + opsLatency (progTrace i).opcode}
        (getProgDepth ctx) := by
  obtain ⟨ctx, hrun, h⟩ := analyzeProg_visited hn' hsum hfuel
  refine ⟨ctx, hrun, fun i hi => h.computed_all hi, ?_, ?_⟩
  · intro i hi
    rw [h.getInstDepth_eq hsum hi]
    exact isGreatest_chainLatency i
  · have hends : {d : Int | ∃ i < n, d = getInstDepth ctx i + opsLatency (progTrace i).opcode} =
        {d : Int | ∃ i < n, d = finish opsLatency progTrace i} := by
      ext d
      refine exists_congr fun i => and_congr_right ?_
      intro hi
      rw [h.getInstDepth_eq hsum hi]
      rfl
    rw [hends]
    exact h.isGreatest_maxDepth hn

/-- Two instructions, the second one after the first. -/
def smallProg (i : Nat) : InstInfo :=
  if i = 0 then ⟨1, 1, 0, 0⟩ else ⟨2, 2, 1, 1⟩

theorem depths_exact_smallProg :
    ∃ ctx, analyzeProg (fun op => op.val) smallProg 3 2 = some ctx ∧
      (∀ i < 2, (ctx.dependencies i).maxDepth ≠ NONE) ∧
      (∀ i < 2, IsGreatest {d : Int | ∃ l, List.IsChain (DependsOn smallProg) (i :: l) ∧
        d = chainLatency (fun op => op.val) smallProg l} (getInstDepth ctx i)) ∧
      IsGreatest {d : Int | ∃ i < 2, d = getInstDepth ctx i + ((smallProg i).opcode.val : Nat)}
        (getProgDepth ctx) :=
  depths_exact (by decide) (by decide) (by decide) (by decide)

end DataFlow

end ArchSim
