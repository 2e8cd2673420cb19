import ArchSim.DataFlowDepth

/-!
# Executing by dependencies

What the answers of the analysis are good for. A machine that executes an
instruction as soon as those that `getInstDeps` reports have been executed,
and takes its operands from them instead of from the registers, computes in
any order what the program computes (`any_order_computes`). If every
instruction takes its latency, none can start before its `getInstDepth`, and
no execution is over before `getProgDepth`; starting each one exactly at its
depth is such an execution (`depths_are_earliest`).
-/

namespace ArchSim

namespace DataFlow

variable {opsLatency : Fin maxOps → Nat} {progTrace : Nat → InstInfo} {n : Nat}

/-! ## Time -/

/-- Start times of the instructions that respect the dependencies reported
for them. -/
def Respects (ctx : ProgCtx) (latency start : Nat → Nat) : Prop :=
  ∀ i < ctx.numOfInsts, ∀ dep1 dep2, getInstDeps ctx i = (0, some (dep1, dep2)) →
    ∀ j : Nat, dep1 = j ∨ dep2 = j → start j + latency j ≤ start i

/-- When the last of `n` instructions has ended. -/
def makespan (n : Nat) (latency start : Nat → Nat) : Nat :=
  (Finset.range n).sup fun i => start i + latency i

/-- The latency of an instruction of the program. -/
def latencyOf (opsLatency : Fin maxOps → Nat) (progTrace : Nat → InstInfo) (i : Nat) : Nat :=
  opsLatency (progTrace i).opcode

theorem Analyzed.respects_iff {ctx : ProgCtx} (h : Analyzed opsLatency progTrace n ctx)
    {start : Nat → Nat} : Respects ctx (latencyOf opsLatency progTrace) start ↔
      (graph opsLatency progTrace).Feasible (· < n) start := by
  unfold Respects
  rw [h.numOfInsts]
  refine forall_congr' fun i => forall_congr' fun hi => ?_
  constructor
  · intro hdeps j hj
    refine hdeps _ _ (h.getInstDeps_eq hi) j ?_
    rw [source_eq_natCast, source_eq_natCast]
    exact mem_deps.mp hj
  · intro hfeas dep1 dep2 hdep j hj
    rw [h.getInstDeps_eq hi] at hdep
    obtain ⟨rfl, rfl⟩ : source _ = dep1 ∧ source _ = dep2 := by simpa using hdep
    rw [source_eq_natCast, source_eq_natCast] at hj
    exact hfeas j (mem_deps.mpr hj)

theorem deps_lt {i : Nat} (hi : i < n) : ∀ j ∈ (graph opsLatency progTrace).deps i, j < n :=
  fun j hj => Nat.lt_trans ((graph opsLatency progTrace).lt i j hj) hi

/-- The greatest end is the makespan of the depths. -/
theorem Visited.getProgDepth_eq {ctx : ProgCtx} (h : Visited opsLatency progTrace n n ctx)
    (hn : 1 ≤ n) : getProgDepth ctx =
      makespan n (latencyOf opsLatency progTrace) (graph opsLatency progTrace).depth := by
  obtain ⟨⟨i, hi, hmax⟩, hupper⟩ := h.isGreatest_maxDepth hn
  have hle : ∀ j < n, finish opsLatency progTrace j ≤ finish opsLatency progTrace i := by
    intro j hj
    have hjle := hupper ⟨j, hj, rfl⟩
    rw [hmax] at hjle
    exact Int.ofNat_le.mp hjle
  rw [getProgDepth, hmax]
  refine congrArg Nat.cast (Nat.le_antisymm ?_ ?_)
  · exact Finset.le_sup (f := finish opsLatency progTrace) (Finset.mem_range.mpr hi)
  · exact Finset.sup_le fun j hj => hle j (Finset.mem_range.mp hj)

/-- The depths are start times that respect the dependencies, and there are
no earlier ones, nor an earlier end. -/
theorem depths_are_earliest (hn : 1 ≤ n) (hn' : n ≤ 2 ^ 31)
    (hsum : ∑ i ∈ Finset.range n, opsLatency (progTrace i).opcode < 2 ^ 31)
    {fuel : Nat} (hfuel : n < fuel) :
    ∃ ctx, analyzeProg opsLatency progTrace fuel n = some ctx ∧
      (∃ start, (∀ i < n, getInstDepth ctx i = (start i : Nat)) ∧
        Respects ctx (latencyOf opsLatency progTrace) start ∧
        getProgDepth ctx = makespan n (latencyOf opsLatency progTrace) start) ∧
      ∀ start, Respects ctx (latencyOf opsLatency progTrace) start →
        (∀ i < n, getInstDepth ctx i ≤ start i) ∧
          getProgDepth ctx ≤ makespan n (latencyOf opsLatency progTrace) start := by
  obtain ⟨ctx, hrun, h⟩ : ∃ ctx, analyzeProg opsLatency progTrace fuel n = some ctx ∧
      Analyzed opsLatency progTrace n ctx := analyzeProg_analyzed hn' hfuel
  have hv := h.visited hsum
  refine ⟨ctx, hrun, ⟨(graph opsLatency progTrace).depth, fun i hi => hv.getInstDepth_eq hsum hi,
    h.respects_iff.mpr (Dag.feasible_depth _ _), hv.getProgDepth_eq hn⟩, ?_⟩
  intro start hstart
  have hle : ∀ i < n, (graph opsLatency progTrace).depth i ≤ start i := fun i hi =>
    (h.respects_iff.mp hstart).depth_le (fun _ hk => deps_lt hk) hi
  refine ⟨fun i hi => ?_, ?_⟩
  · rw [hv.getInstDepth_eq hsum hi]
    exact Int.ofNat_le.mpr (hle i hi)
  · rw [hv.getProgDepth_eq hn]
    exact Int.ofNat_le.mpr (Finset.sup_mono_fun fun i hi =>
      Nat.add_le_add_right (hle i (Finset.mem_range.mp hi)) _)

/-- Two chains of two instructions, and one that needs both. -/
def joinProg (i : Nat) : InstInfo :=
  match i with
  | 0 => ⟨1, 1, 0, 0⟩
  | 1 => ⟨2, 2, 0, 0⟩
  | 2 => ⟨1, 1, 1, 1⟩
  | _ => ⟨0, 3, 1, 2⟩

theorem depths_are_earliest_joinProg :
    ∃ ctx, analyzeProg (fun op => op.val + 1) joinProg 5 4 = some ctx ∧
      (∃ start, (∀ i < 4, getInstDepth ctx i = (start i : Nat)) ∧
        Respects ctx (latencyOf (fun op => op.val + 1) joinProg) start ∧
        getProgDepth ctx = makespan 4 (latencyOf (fun op => op.val + 1) joinProg) start) ∧
      ∀ start, Respects ctx (latencyOf (fun op => op.val + 1) joinProg) start →
        (∀ i < 4, getInstDepth ctx i ≤ start i) ∧
          getProgDepth ctx ≤ makespan 4 (latencyOf (fun op => op.val + 1) joinProg) start :=
  depths_are_earliest (by omega) (by omega) (by decide) (by omega)

/-! ## The sequential program -/

section Values

variable {V : Type*} (op : Fin maxOps → V → V → V) (progTrace : Nat → InstInfo)
  (regs : Fin numOfRegs → V)

/-- The registers after the first instructions of the program. -/
def regsAfter : Nat → Fin numOfRegs → V
  | 0 => regs
  | i + 1 =>
      Function.update (regsAfter i) (progTrace i).dstIdx
        (op (progTrace i).opcode (regsAfter i (progTrace i).src1Idx)
          (regsAfter i (progTrace i).src2Idx))

/-- What an instruction computes in its place in the program. -/
def valueOf (i : Nat) : V :=
  op (progTrace i).opcode (regsAfter op progTrace regs i (progTrace i).src1Idx)
    (regsAfter op progTrace regs i (progTrace i).src2Idx)

/-- A register holds what its last writer has computed. -/
theorem regsAfter_eq (r : Fin numOfRegs) (i : Nat) :
    regsAfter op progTrace regs i r =
      ((lastWriter progTrace r i).map (valueOf op progTrace regs)).getD (regs r) := by
  induction i with
  | zero => rfl
  | succ i ih =>
      rw [regsAfter, lastWriter]
      by_cases hr : (progTrace i).dstIdx = r
      · subst hr
        rw [Function.update_self, if_pos rfl]
        rfl
      · rw [Function.update_of_ne (Ne.symm hr), if_neg hr, ih]

/-! ## Any order -/

/-- An operand: what the reported instruction has computed, or the initial
register. -/
def operand (results : Nat → Option V) (src : Fin numOfRegs) (dep : Int) : Option V :=
  if dep = NONE then some (regs src) else results dep.toNat

/-- Execute instruction `i`, which has not been executed yet. -/
def fire (ctx : ProgCtx) (results : Nat → Option V) (i : Nat) : Option (Nat → Option V) :=
  match results i, getInstDeps ctx i with
  | none, (_, some (dep1, dep2)) => do
      let v1 ← operand regs results (progTrace i).src1Idx dep1
      let v2 ← operand regs results (progTrace i).src2Idx dep2
      some (Function.update results i (some (op (progTrace i).opcode v1 v2)))
  | _, _ => none

/-- The results after executing the instructions of a list, the latest
first. -/
def runOrder (ctx : ProgCtx) : List Nat → Option (Nat → Option V)
  | [] => some fun _ => none
  | i :: past => (runOrder ctx past).bind fun results => fire op progTrace regs ctx results i

/-- The registers when the results are written back in program order. -/
def commit (results : Nat → Option V) : Nat → Fin numOfRegs → Option V
  | 0 => fun r => some (regs r)
  | i + 1 => Function.update (commit results i) (progTrace i).dstIdx (results i)

variable {op progTrace regs} {order : List Nat} {results : Nat → Option V}

/-- The executed instructions have computed what they compute in the
program, and the others nothing. -/
structure Executed (op : Fin maxOps → V → V → V) (progTrace : Nat → InstInfo)
    (regs : Fin numOfRegs → V) (n : Nat) (order : List Nat) (results : Nat → Option V) :
    Prop where
  nodup : order.Nodup
  lt : ∀ i ∈ order, i < n
  results : ∀ i, results i = if i ∈ order then some (valueOf op progTrace regs i) else none

theorem Executed.operand_eq_some (h : Executed op progTrace regs n order results)
    {src : Fin numOfRegs} {i : Nat} {v : V}
    (hv : operand regs results src (source (lastWriter progTrace src i)) = some v) :
    v = regsAfter op progTrace regs i src := by
  rw [regsAfter_eq]
  cases hw : lastWriter progTrace src i with
  | none =>
      have hnone : source none = NONE := rfl
      rw [hw, operand, if_pos hnone] at hv
      exact (Option.some.inj hv).symm
  | some j =>
      rw [hw, operand, if_neg (source_ne_none j), source, Int.toNat_natCast, h.results] at hv
      split at hv
      · exact (Option.some.inj hv).symm
      · cases hv

theorem Executed.operand_of_mem (h : Executed op progTrace regs n order results)
    {src : Fin numOfRegs} {i : Nat}
    (hmem : ∀ j, lastWriter progTrace src i = some j → j ∈ order) :
    operand regs results src (source (lastWriter progTrace src i)) =
      some (regsAfter op progTrace regs i src) := by
  rw [regsAfter_eq]
  cases hw : lastWriter progTrace src i with
  | none => rfl
  | some j =>
      rw [operand, if_neg (source_ne_none j), source, Int.toNat_natCast, h.results,
        if_pos (hmem j hw)]
      rfl

theorem Executed.cons (h : Executed op progTrace regs n order results) {i : Nat} (hi : i < n)
    (hnew : i ∉ order) : Executed op progTrace regs n (i :: order)
      (Function.update results i (some (valueOf op progTrace regs i))) where
  nodup := List.nodup_cons.mpr ⟨hnew, h.nodup⟩
  lt := List.forall_mem_cons.mpr ⟨hi, h.lt⟩
  results := fun j => by
    by_cases hj : j = i
    · subst hj
      rw [Function.update_self, if_pos (List.mem_cons_self ..)]
    · rw [Function.update_of_ne hj, h.results]
      simp only [List.mem_cons, hj, false_or]

/-- One step keeps what has been computed right. -/
theorem Executed.fire {ctx : ProgCtx} (hctx : Analyzed opsLatency progTrace n ctx)
    (h : Executed op progTrace regs n order results) {i : Nat} {results' : Nat → Option V}
    (hfire : fire op progTrace regs ctx results i = some results') :
    Executed op progTrace regs n (i :: order) results' := by
  unfold DataFlow.fire at hfire
  split at hfire
  · rename_i dep1 dep2 hnone hdeps
    have hi : i < n := by
      by_contra hge
      rw [getInstDeps, hctx.numOfInsts, if_pos (Nat.le_of_not_lt hge)] at hdeps
      cases hdeps
    rw [hctx.getInstDeps_eq hi] at hdeps
    cases hdeps
    obtain ⟨v1, hv1, hfire⟩ := Option.bind_eq_some_iff.mp hfire
    obtain ⟨v2, hv2, hfire⟩ := Option.bind_eq_some_iff.mp hfire
    cases hfire
    rw [h.operand_eq_some hv1, h.operand_eq_some hv2]
    refine h.cons hi fun hmem => ?_
    rw [h.results, if_pos hmem] at hnone
    cases hnone
  · cases hfire

theorem executed_runOrder {ctx : ProgCtx} (hctx : Analyzed opsLatency progTrace n ctx) :
    ∀ {order : List Nat} {results : Nat → Option V},
      runOrder op progTrace regs ctx order = some results →
      Executed op progTrace regs n order results
  | [], results, hrun => by
      cases hrun
      exact ⟨List.nodup_nil, fun _ hi => absurd hi List.not_mem_nil, fun _ => rfl⟩
  | i :: past, results, hrun => by
      obtain ⟨results₁, hpast, hfire⟩ := Option.bind_eq_some_iff.mp hrun
      exact (executed_runOrder hctx hpast).fire hctx hfire

/-- The first instruction that has not been executed can be. -/
theorem Executed.exists_fire {ctx : ProgCtx} (hctx : Analyzed opsLatency progTrace n ctx)
    (h : Executed op progTrace regs n order results) (hlen : order.length < n) :
    ∃ i, (DataFlow.fire op progTrace regs ctx results i).isSome = true := by
  have hleft : ∃ i, i < n ∧ i ∉ order := by
    by_contra hall
    have hsub : List.range n ⊆ order := fun i hi => by
      by_contra hno
      exact hall ⟨i, List.mem_range.mp hi, hno⟩
    have hle := (List.subperm_of_subset List.nodup_range hsub).length_le
    rw [List.length_range] at hle
    omega
  obtain ⟨hi, hnew⟩ := Nat.find_spec hleft
  have hbefore : ∀ j < Nat.find hleft, j ∈ order := fun j hj => by
    by_contra hno
    exact Nat.find_min hleft hj ⟨Nat.lt_trans hj hi, hno⟩
  have hops : ∀ src, operand regs results src (source (lastWriter progTrace src (Nat.find hleft))) =
      some (regsAfter op progTrace regs (Nat.find hleft) src) := fun src =>
    h.operand_of_mem fun j hj => hbefore j (lastWriter_lt hj)
  refine ⟨Nat.find hleft, ?_⟩
  simp only [DataFlow.fire, h.results, hnew, if_false, hctx.getInstDeps_eq hi]
  simp only [hops]
  rfl

/-- Written back in program order, the results are the registers of the
program. -/
theorem Executed.commit_eq (h : Executed op progTrace regs n order results)
    (hlen : order.length = n) (r : Fin numOfRegs) :
    ∀ m ≤ n, commit progTrace regs results m r = some (regsAfter op progTrace regs m r) := by
  have hall : ∀ i < n, i ∈ order := by
    have hperm : order.Subperm (List.range n) :=
      List.subperm_of_subset h.nodup fun i hi => List.mem_range.mpr (h.lt i hi)
    have hfull := hperm.perm_of_length_le (by rw [List.length_range, hlen])
    exact fun i hi => hfull.mem_iff.mpr (List.mem_range.mpr hi)
  intro m
  induction m with
  | zero => exact fun _ => rfl
  | succ m ih =>
      intro hm
      rw [commit, regsAfter]
      by_cases hr : r = (progTrace m).dstIdx
      · subst hr
        rw [Function.update_self, Function.update_self, h.results, if_pos (hall m hm)]
        rfl
      · rw [Function.update_of_ne hr, Function.update_of_ne hr]
        exact ih (Nat.le_of_succ_le hm)

/-- In whatever order the instructions are executed once those that
`getInstDeps` reports have been, each computes what it computes in the
program; there is always one that can be executed, until all have been; and
then the results are those of the program. -/
theorem any_order_computes (opsLatency : Fin maxOps → Nat) (op : Fin maxOps → V → V → V)
    (progTrace : Nat → InstInfo) (regs : Fin numOfRegs → V) (hn : n ≤ 2 ^ 31) {fuel : Nat}
    (hfuel : n < fuel) :
    ∃ ctx, analyzeProg opsLatency progTrace fuel n = some ctx ∧
      ∀ order results, runOrder op progTrace regs ctx order = some results →
        (∀ i ∈ order, results i = some (valueOf op progTrace regs i)) ∧
        order.length ≤ n ∧
        (order.length < n → ∃ i, (runOrder op progTrace regs ctx (i :: order)).isSome = true) ∧
        (order.length = n →
          ∀ r, commit progTrace regs results n r = some (regsAfter op progTrace regs n r)) := by
  obtain ⟨ctx, hrun, hctx⟩ : ∃ ctx, analyzeProg opsLatency progTrace fuel n = some ctx ∧
      Analyzed opsLatency progTrace n ctx := analyzeProg_analyzed hn hfuel
  refine ⟨ctx, hrun, fun order results horder => ?_⟩
  have h := executed_runOrder hctx horder
  refine ⟨fun i hi => by rw [h.results, if_pos hi], ?_, fun hlt => ?_,
    fun hlen r => h.commit_eq hlen r n (Nat.le_refl n)⟩
  · have hle := (List.subperm_of_subset h.nodup fun i hi =>
      List.mem_range.mpr (h.lt i hi)).length_le
    rwa [List.length_range] at hle
  · obtain ⟨i, hfire⟩ := h.exists_fire hctx hlt
    refine ⟨i, ?_⟩
    rw [runOrder, horder]
    exact hfire

/-- Two chains that join, whatever order they are fired in. -/
theorem any_order_computes_joinProg :
    ∃ ctx, analyzeProg (fun _ => 1) joinProg 5 4 = some ctx ∧
      ∀ order results,
        runOrder (fun o (v w : Nat) => 10 * v + w + o) joinProg (fun _ => 1) ctx order =
          some results →
        (∀ i ∈ order, results i =
          some (valueOf (fun o (v w : Nat) => 10 * v + w + o) joinProg (fun _ => 1) i)) ∧
        order.length ≤ 4 ∧
        (order.length < 4 → ∃ i, (runOrder (fun o (v w : Nat) => 10 * v + w + o) joinProg
          (fun _ => 1) ctx (i :: order)).isSome = true) ∧
        (order.length = 4 → ∀ r, commit joinProg (fun _ => 1) results 4 r =
          some (regsAfter (fun o (v w : Nat) => 10 * v + w + o) joinProg (fun _ => 1) 4 r)) :=
  any_order_computes (fun _ => 1) _ joinProg (fun _ => 1) (by omega) (by omega)

end Values

end DataFlow

end ArchSim
