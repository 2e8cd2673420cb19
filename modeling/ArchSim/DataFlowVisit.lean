import ArchSim.DataFlowNodes

/-!
# The memoised recursion

What `InitData` computes for any latencies, in the `int`s of the source: the
end of an instruction is the same number whichever exit the recursion comes
from, and whether it finds depths of earlier calls or not (`intFinish`). An
end of -1 is stored like any other and looks as if it had not been computed,
so that "computed" does not say how far the recursion has come; an
instruction is settled when all that it depends on hold their ends.
-/

namespace ArchSim

namespace DataFlow

variable {opsLatency : Fin maxOps → Nat} {progTrace : Nat → InstInfo} {n : Nat}

/-! ## Ends -/

/-- A value that is computed for every instruction from those of the last
writers of the registers. -/
def alongWriters {β : Type*} (combine : Nat → (Fin numOfRegs → Option β) → β)
    (progTrace : Nat → InstInfo) (i : Nat) : β :=
  combine i fun r =>
    match _h : lastWriter progTrace r i with
    | none => none
    | some j => some (alongWriters combine progTrace j)
termination_by i
decreasing_by exact lastWriter_lt _h

theorem alongWriters_eq {β : Type*} (combine : Nat → (Fin numOfRegs → Option β) → β)
    (progTrace : Nat → InstInfo) (i : Nat) :
    alongWriters combine progTrace i =
      combine i fun r => (lastWriter progTrace r i).map (alongWriters combine progTrace) := by
  rw [alongWriters]
  refine congrArg (combine i) (funext fun r => ?_)
  split <;> rename_i h <;> rw [h] <;> rfl

/-- The end of an instruction in the arithmetic of the recursion. -/
def intFinish (opsLatency : Fin maxOps → Nat) (progTrace : Nat → InstInfo) : Nat → Int :=
  alongWriters (fun i ends =>
    int32 (int32 (opsLatency (progTrace i).opcode) +
      max ((ends (progTrace i).src1Idx).getD 0) ((ends (progTrace i).src2Idx).getD 0))) progTrace

/-- What a call of the recursion returns. -/
def intReady (opsLatency : Fin maxOps → Nat) (progTrace : Nat → InstInfo) : Option Nat → Int
  | none => 0
  | some j => intFinish opsLatency progTrace j

/-- Where an instruction starts: when the later of its sources is there. -/
def intStart (opsLatency : Fin maxOps → Nat) (progTrace : Nat → InstInfo) (i : Nat) : Int :=
  max (intReady opsLatency progTrace (lastWriter progTrace (progTrace i).src1Idx i))
    (intReady opsLatency progTrace (lastWriter progTrace (progTrace i).src2Idx i))

theorem intFinish_eq (i : Nat) :
    intFinish opsLatency progTrace i =
      int32 (int32 (opsLatency (progTrace i).opcode) + intStart opsLatency progTrace i) := by
  have hready : ∀ o : Option Nat,
      (o.map (intFinish opsLatency progTrace)).getD 0 = intReady opsLatency progTrace o := by
    intro o
    cases o <;> rfl
  rw [intStart, ← hready, ← hready]
  exact alongWriters_eq _ progTrace i

theorem int32_int32 (k : Int) : int32 (int32 k) = int32 k := Int.bmod_bmod

theorem int32_intFinish (i : Nat) :
    int32 (intFinish opsLatency progTrace i) = intFinish opsLatency progTrace i := by
  rw [intFinish_eq, int32_int32]

theorem int32_intStart (i : Nat) :
    int32 (intStart opsLatency progTrace i) = intStart opsLatency progTrace i := by
  have hready : ∀ o, int32 (intReady opsLatency progTrace o) = intReady opsLatency progTrace o := by
    intro o
    cases o with
    | none => rfl
    | some j => exact int32_intFinish j
  unfold intStart
  rcases max_choice (intReady opsLatency progTrace
      (lastWriter progTrace (progTrace i).src1Idx i)) (intReady opsLatency progTrace
      (lastWriter progTrace (progTrace i).src2Idx i)) with hmax | hmax <;> rw [hmax, hready]

/-- The latency is subtracted again. -/
theorem int32_intFinish_sub (i : Nat) :
    int32 (intFinish opsLatency progTrace i - opsLatency (progTrace i).opcode) =
      intStart opsLatency progTrace i := by
  have hsub : ∀ l s : Int, int32 (int32 (int32 l + s) - l) = int32 s := by
    intro l s
    unfold int32
    rw [Int.bmod_sub_bmod, Int.add_sub_assoc, Int.bmod_add_bmod, add_sub_cancel]
  rw [intFinish_eq, hsub, int32_intStart]

/-! ## Settled instructions -/

/-- The write at the end of the recursion. -/
def store (nodes : Nat → Node) (i : Nat) (d : Int) : Nat → Node :=
  Function.update nodes i { nodes i with maxDepth := d }

theorem store_self (nodes : Nat → Node) (i : Nat) (d : Int) :
    store nodes i d i = { nodes i with maxDepth := d } :=
  Function.update_self ..

theorem store_of_ne {nodes : Nat → Node} {i j : Nat} {d : Int} (h : j ≠ i) :
    store nodes i d j = nodes j :=
  Function.update_of_ne h ..

/-- The instruction and all below it hold their ends. -/
def Settled (opsLatency : Fin maxOps → Nat) (progTrace : Nat → InstInfo) (nodes : Nat → Node)
    (i : Nat) : Prop :=
  ∀ j, Relation.ReflTransGen (fun a b => b ∈ (graph opsLatency progTrace).deps a) i j →
    (nodes j).maxDepth = intFinish opsLatency progTrace j

/-- Ends are kept. -/
def Keeps (opsLatency : Fin maxOps → Nat) (progTrace : Nat → InstInfo) (nodes nodes' : Nat → Node) :
    Prop :=
  ∀ j, (nodes j).maxDepth = intFinish opsLatency progTrace j →
    (nodes' j).maxDepth = intFinish opsLatency progTrace j

/-- Only depths have been written, and only those of settled instructions. -/
structure Partial (opsLatency : Fin maxOps → Nat) (progTrace : Nat → InstInfo) (n : Nat)
    (nodes : Nat → Node) : Prop where
  node : ∀ i < n, { nodes i with maxDepth := NONE } = node opsLatency progTrace i
  settled : ∀ i < n, (nodes i).maxDepth ≠ NONE → Settled opsLatency progTrace nodes i

theorem Settled.maxDepth_eq {nodes : Nat → Node} {i : Nat}
    (h : Settled opsLatency progTrace nodes i) :
    (nodes i).maxDepth = intFinish opsLatency progTrace i :=
  h i .refl

theorem Settled.keeps {nodes nodes' : Nat → Node} {i : Nat}
    (h : Settled opsLatency progTrace nodes i) (hkeeps : Keeps opsLatency progTrace nodes nodes') :
    Settled opsLatency progTrace nodes' i :=
  fun j hj => hkeeps j (h j hj)

theorem Settled.of_mem_deps {nodes : Nat → Node} {i j : Nat}
    (h : Settled opsLatency progTrace nodes i) (hj : j ∈ (graph opsLatency progTrace).deps i) :
    Settled opsLatency progTrace nodes j :=
  fun k hk => h k (.head hj hk)

theorem settled_of_deps {nodes : Nat → Node} {i : Nat}
    (hi : (nodes i).maxDepth = intFinish opsLatency progTrace i)
    (hdeps : ∀ j ∈ (graph opsLatency progTrace).deps i, Settled opsLatency progTrace nodes j) :
    Settled opsLatency progTrace nodes i := by
  intro k hk
  rcases Relation.ReflTransGen.cases_head hk with rfl | ⟨j, hj, hjk⟩
  · exact hi
  · exact hdeps j hj k hjk

theorem keeps_store (nodes : Nat → Node) (i : Nat) :
    Keeps opsLatency progTrace nodes (store nodes i (intFinish opsLatency progTrace i)) := by
  intro j hj
  by_cases hji : j = i
  · subst hji
    rw [store_self]
  · rwa [store_of_ne hji]

namespace Partial

variable {nodes : Nat → Node} {i : Nat}

theorem of_built {flow : DataFlow} (h : Built opsLatency progTrace n n flow) :
    Partial opsLatency progTrace n flow.dependencies where
  node := fun i hi => by rw [h.nodes i hi]; rfl
  settled := fun i hi hc => absurd (congrArg Node.maxDepth (h.nodes i hi)) hc

theorem dep1 (h : Partial opsLatency progTrace n nodes) (hi : i < n) :
    (nodes i).dep1 = source (lastWriter progTrace (progTrace i).src1Idx i) :=
  congrArg Node.dep1 (h.node i hi)

theorem dep2 (h : Partial opsLatency progTrace n nodes) (hi : i < n) :
    (nodes i).dep2 = source (lastWriter progTrace (progTrace i).src2Idx i) :=
  congrArg Node.dep2 (h.node i hi)

theorem latency (h : Partial opsLatency progTrace n nodes) (hi : i < n) :
    (nodes i).latency = opsLatency (progTrace i).opcode :=
  congrArg Node.latency (h.node i hi)

/-- An instruction whose dependencies are settled is settled by the write. -/
theorem settle (h : Partial opsLatency progTrace n nodes)
    (hdeps : ∀ j ∈ (graph opsLatency progTrace).deps i, Settled opsLatency progTrace nodes j) :
    Partial opsLatency progTrace n (store nodes i (intFinish opsLatency progTrace i)) ∧
      Settled opsLatency progTrace (store nodes i (intFinish opsLatency progTrace i)) i := by
  have hkeeps : Keeps opsLatency progTrace nodes _ := keeps_store nodes i
  have hset :
      Settled opsLatency progTrace (store nodes i (intFinish opsLatency progTrace i)) i := by
    refine settled_of_deps ?_ fun j hj => (hdeps j hj).keeps hkeeps
    rw [store_self]
  refine ⟨⟨?_, ?_⟩, hset⟩
  · intro j hj
    by_cases hji : j = i
    · subst hji
      rw [store_self]
      exact h.node j hj
    · rw [store_of_ne hji]
      exact h.node j hj
  · intro j hj hc
    by_cases hji : j = i
    · exact hji ▸ hset
    · rw [store_of_ne hji] at hc
      exact (h.settled j hj hc).keeps hkeeps

end Partial

/-! ## The recursion -/

/-- A call settles its instruction. It needs a level of recursion for each
instruction up to it and one for `NONE`. -/
theorem getDepthRecursive_settles :
    ∀ {fuel : Nat} {nodes : Nat → Node} {o : Option Nat}, Partial opsLatency progTrace n nodes →
      (∀ i, o = some i → i < n ∧ i + 1 < fuel) → 0 < fuel →
      ∃ nodes', getDepthRecursive fuel nodes (source o) =
          some (intReady opsLatency progTrace o, nodes') ∧
        Partial opsLatency progTrace n nodes' ∧ Keeps opsLatency progTrace nodes nodes' ∧
        ∀ i, o = some i → Settled opsLatency progTrace nodes' i := by
  intro fuel
  induction fuel with
  | zero => exact fun _ _ hfuel => absurd hfuel (Nat.lt_irrefl 0)
  | succ fuel ih =>
      intro nodes o hpart hi _
      cases o with
      | none => exact ⟨nodes, rfl, hpart, fun _ hj => hj, fun _ h => nomatch h⟩
      | some i =>
          obtain ⟨hin, hfuel⟩ := hi i rfl
          by_cases hc : (nodes i).maxDepth ≠ NONE
          · have hset := hpart.settled i hin hc
            refine ⟨nodes, ?_, hpart, fun _ hj => hj, ?_⟩
            · rw [getDepthRecursive, if_neg (source_ne_none i), source, Int.toNat_natCast,
                if_pos hc, hset.maxDepth_eq]
              rfl
            · rintro j ⟨⟩
              exact hset
          · -- The node looks as if it had not been computed: first the two calls, then the write.
            have hbelow : ∀ {r j}, lastWriter progTrace r i = some j → j < n ∧ j + 1 < fuel := by
              intro r j hj
              have hlt := lastWriter_lt hj
              omega
            obtain ⟨nodes₁, hrun₁, hpart₁, hkeeps₁, hset₁⟩ := ih hpart
              (fun j hj => hbelow (r := (progTrace i).src1Idx) hj) (by omega)
            obtain ⟨nodes₂, hrun₂, hpart₂, hkeeps₂, hset₂⟩ := ih hpart₁
              (fun j hj => hbelow (r := (progTrace i).src2Idx) hj) (by omega)
            have hdeps : ∀ j ∈ (graph opsLatency progTrace).deps i,
                Settled opsLatency progTrace nodes₂ j := by
              intro j hj
              rcases mem_deps.mp hj with hj | hj
              · exact (hset₁ j hj).keeps hkeeps₂
              · exact hset₂ j hj
            obtain ⟨hpart', hset'⟩ := hpart₂.settle hdeps
            refine ⟨store nodes₂ i (intFinish opsLatency progTrace i), ?_, hpart',
              fun j hj => keeps_store nodes₂ i j (hkeeps₂ j (hkeeps₁ j hj)), ?_⟩
            · rw [getDepthRecursive, if_neg (source_ne_none i), source, Int.toNat_natCast,
                if_neg hc]
              simp only [hpart.dep1 hin, hrun₁, hpart₁.dep2 hin, hrun₂, hpart.latency hin,
                Option.bind_eq_bind, Option.bind_some, ← max_def_lt, gt_iff_lt]
              rw [intReady, max_comm, intFinish_eq, intStart]
              rfl
            · rintro j ⟨⟩
              exact hset'

/-! ## The second loop -/

/-- The context when the tops below `m` have been visited. -/
structure Swept (opsLatency : Fin maxOps → Nat) (progTrace : Nat → InstInfo) (n m : Nat)
    (flow : DataFlow) : Prop where
  numOfInsts : flow.numOfInsts = n
  nodes : Partial opsLatency progTrace n flow.dependencies
  exits : ∀ j < n, flow.exitNodes j = true ↔ (graph opsLatency progTrace).Top n j
  settled : ∀ e < m, (graph opsLatency progTrace).Top n e →
    Settled opsLatency progTrace flow.dependencies e
  maxDepth : IsGreatest {d : Int | d = NONE ∨
    ∃ e < m, (graph opsLatency progTrace).Top n e ∧ d = intFinish opsLatency progTrace e}
    flow.maxDepth

theorem Built.swept {flow : DataFlow} (h : Built opsLatency progTrace n n flow) :
    Swept opsLatency progTrace n 0 flow where
  numOfInsts := h.numOfInsts
  nodes := Partial.of_built h
  exits := fun j hj => (h.exits j).trans ⟨fun hno => ⟨hj, hno⟩, fun htop => htop.2⟩
  settled := fun e he => absurd he (Nat.not_lt_zero e)
  maxDepth := by
    refine ⟨Or.inl h.maxDepth, ?_⟩
    rintro d (rfl | ⟨e, he, -⟩)
    · exact Int.le_of_eq h.maxDepth.symm
    · exact absurd he (Nat.not_lt_zero e)

theorem swept_visitExit (hn : n ≤ 2 ^ 31) {fuel m : Nat} (hfuel : n < fuel) (hm : m < n)
    {flow : DataFlow} (h : Swept opsLatency progTrace n m flow) :
    ∃ flow', visitExit fuel flow m = some flow' ∧
      Swept opsLatency progTrace n (m + 1) flow' := by
  obtain ⟨hmem, hupper⟩ := h.maxDepth
  by_cases hexit : flow.exitNodes m = true
  · have hcall : ∀ i, some m = some i → i < n ∧ i + 1 < fuel := by
      rintro i ⟨⟩
      omega
    obtain ⟨nodes, hrun, hpart, hkeeps, hset⟩ :=
      getDepthRecursive_settles h.nodes hcall (Nat.zero_lt_of_lt hfuel)
    have hindex : int32 m = source (some m) := int32_of_lt (by omega)
    refine ⟨{ flow with
        dependencies := nodes
        maxDepth := max (intFinish opsLatency progTrace m) flow.maxDepth }, ?_,
      h.numOfInsts, hpart, h.exits, ?_, ?_, ?_⟩
    · rw [visitExit, if_pos hexit, hindex, hrun, max_def_lt]
      rfl
    · intro e he htop
      rcases Nat.lt_succ_iff_lt_or_eq.mp he with he | rfl
      · exact (h.settled e he htop).keeps hkeeps
      · exact hset e rfl
    · rcases max_choice (intFinish opsLatency progTrace m) flow.maxDepth with hmax | hmax
      · exact Or.inr ⟨m, Nat.lt_succ_self m, (h.exits m hm).mp hexit, hmax⟩
      · simp only [hmax]
        exact hmem.imp id fun ⟨e, he, htop⟩ => ⟨e, Nat.lt_succ_of_lt he, htop⟩
    · rintro d (rfl | ⟨e, he, htop, rfl⟩)
      · exact Int.le_trans (hupper (Or.inl rfl)) (le_max_right _ _)
      · rcases Nat.lt_succ_iff_lt_or_eq.mp he with he | rfl
        · exact Int.le_trans (hupper (Or.inr ⟨e, he, htop, rfl⟩)) (le_max_right _ _)
        · exact le_max_left _ _
  · have htops : ∀ e < m + 1, (graph opsLatency progTrace).Top n e → e < m := by
      intro e he htop
      rcases Nat.lt_succ_iff_lt_or_eq.mp he with he | rfl
      · exact he
      · exact absurd ((h.exits e hm).mpr htop) hexit
    refine ⟨flow, by rw [visitExit, if_neg hexit], h.numOfInsts, h.nodes, h.exits,
      fun e he htop => h.settled e (htops e he htop) htop, ?_, ?_⟩
    · exact hmem.imp id fun ⟨e, he, htop⟩ => ⟨e, Nat.lt_succ_of_lt he, htop⟩
    · rintro d (rfl | ⟨e, he, htop, rfl⟩)
      · exact hupper (Or.inl rfl)
      · exact hupper (Or.inr ⟨e, htops e he htop, htop, rfl⟩)

/-! ## The context -/

/-- What `analyzeProg` leaves, for any latencies. -/
structure Analyzed (opsLatency : Fin maxOps → Nat) (progTrace : Nat → InstInfo) (n : Nat)
    (ctx : ProgCtx) : Prop where
  numOfInsts : ctx.numOfInsts = n
  nodes : ∀ i < n, ctx.dependencies i =
    { node opsLatency progTrace i with maxDepth := intFinish opsLatency progTrace i }
  exits : ∀ j < n, ctx.exitNodes j = true ↔ (graph opsLatency progTrace).Top n j
  maxDepth : IsGreatest {d : Int | d = NONE ∨
    ∃ e, (graph opsLatency progTrace).Top n e ∧ d = intFinish opsLatency progTrace e}
    ctx.maxDepth

/-- No instruction is left out: each lies below a top. -/
theorem Swept.analyzed {ctx : ProgCtx} (h : Swept opsLatency progTrace n n ctx) :
    Analyzed opsLatency progTrace n ctx where
  numOfInsts := h.numOfInsts
  nodes := by
    intro i hi
    have hset : Settled opsLatency progTrace ctx.dependencies i :=
      Dag.of_tops (fun e htop => h.settled e htop.1 htop)
        (fun _ _ hk _ hj => hk.of_mem_deps hj) hi
    rw [← h.nodes.node i hi, ← hset.maxDepth_eq]
  exits := h.exits
  maxDepth := by
    have hset : {d : Int | d = NONE ∨ ∃ e, (graph opsLatency progTrace).Top n e ∧
        d = intFinish opsLatency progTrace e} = {d : Int | d = NONE ∨
        ∃ e < n, (graph opsLatency progTrace).Top n e ∧
          d = intFinish opsLatency progTrace e} := by
      ext d
      refine or_congr_right (exists_congr fun e => ?_)
      exact ⟨fun hd => ⟨hd.1.1, hd⟩, fun hd => hd.2⟩
    rw [hset]
    exact h.maxDepth

theorem analyzeProg_analyzed (hn : n ≤ 2 ^ 31) {fuel : Nat} (hfuel : n < fuel) :
    ∃ ctx, analyzeProg opsLatency progTrace fuel n = some ctx ∧
      Analyzed opsLatency progTrace n ctx := by
  have hbuilt : Built opsLatency progTrace n n _ := built_loop hn
  obtain ⟨ctx, hrun, h⟩ :=
    foldlM_range_total (fun _ hi _ h => swept_visitExit hn hfuel hi h) hbuilt.swept
  exact ⟨ctx, hrun, h.analyzed⟩

theorem Analyzed.getInstDeps_eq {ctx : ProgCtx} (h : Analyzed opsLatency progTrace n ctx) {i : Nat}
    (hi : i < n) :
    getInstDeps ctx i = (0, some (source (lastWriter progTrace (progTrace i).src1Idx i),
      source (lastWriter progTrace (progTrace i).src2Idx i))) := by
  rw [getInstDeps, h.numOfInsts, if_neg (Nat.not_le.mpr hi), h.nodes i hi]
  rfl

/-- An instruction with an end of -1 is taken for one without. -/
theorem Analyzed.getInstDepth_eq {ctx : ProgCtx} (h : Analyzed opsLatency progTrace n ctx) {i : Nat}
    (hi : i < n) :
    getInstDepth ctx i = if intFinish opsLatency progTrace i = NONE then 0
      else intStart opsLatency progTrace i := by
  rw [getInstDepth, h.numOfInsts, if_neg (Nat.not_le.mpr hi), h.nodes i hi]
  simp only [node, int32_intFinish_sub]

/-! ## The last writers -/

/-- `dep` is the last instruction before `i` that writes `r`, or `NONE`. -/
def IsSource (progTrace : Nat → InstInfo) (r : Fin numOfRegs) (i : Nat) (dep : Int) : Prop :=
  (dep = NONE ∧ ∀ j < i, (progTrace j).dstIdx ≠ r) ∨
    ∃ j : Nat, dep = j ∧ IsGreatest {j | j < i ∧ (progTrace j).dstIdx = r} j

theorem isGreatest_of_isLastWriter {r : Fin numOfRegs} {i j : Nat}
    (h : IsLastWriter progTrace r i j) : IsGreatest {j | j < i ∧ (progTrace j).dstIdx = r} j := by
  refine ⟨⟨h.before, h.writes⟩, ?_⟩
  rintro k ⟨hk, hwrites⟩
  by_contra hlt
  exact h.last k (Nat.lt_of_not_le hlt) hk hwrites

theorem lastWriter_eq_none {r : Fin numOfRegs} {i : Nat} (h : lastWriter progTrace r i = none) :
    ∀ j < i, (progTrace j).dstIdx ≠ r := by
  induction i with
  | zero => exact fun j hj => absurd hj (Nat.not_lt_zero j)
  | succ i ih =>
      unfold lastWriter at h
      split at h
      · cases h
      · rename_i hi
        intro j hj
        rcases Nat.lt_succ_iff_lt_or_eq.mp hj with hj | rfl
        · exact ih h j hj
        · exact hi

theorem isSource_lastWriter (r : Fin numOfRegs) (i : Nat) :
    IsSource progTrace r i (source (lastWriter progTrace r i)) := by
  cases hw : lastWriter progTrace r i with
  | none => exact Or.inl ⟨rfl, lastWriter_eq_none hw⟩
  | some j => exact Or.inr ⟨j, rfl, isGreatest_of_isLastWriter (lastWriter_eq_some.mp hw)⟩

theorem source_eq_natCast {o : Option Nat} {i : Nat} : source o = i ↔ o = some i := by
  cases o with
  | none => simp only [source, NONE, reduceCtorEq]
  | some j => simp only [source, Int.natCast_inj, Option.some.injEq]

/-- The two dependencies of an instruction are the last writers of its
sources, and those instructions are left as exits that are no dependency. -/
theorem deps_are_last_writers (opsLatency : Fin maxOps → Nat) (progTrace : Nat → InstInfo)
    (hn : n < 2 ^ 31) {fuel : Nat} (hfuel : n < fuel) :
    ∃ ctx, analyzeProg opsLatency progTrace fuel n = some ctx ∧
      ∀ i < n, (∃ dep1 dep2, getInstDeps ctx i = (0, some (dep1, dep2)) ∧
          IsSource progTrace (progTrace i).src1Idx i dep1 ∧
          IsSource progTrace (progTrace i).src2Idx i dep2) ∧
        (ctx.exitNodes i = true ↔ ∀ k < n, ∀ dep1 dep2,
          getInstDeps ctx k = (0, some (dep1, dep2)) → dep1 ≠ i ∧ dep2 ≠ i) := by
  obtain ⟨ctx, hrun, h⟩ : ∃ ctx, analyzeProg opsLatency progTrace fuel n = some ctx ∧
      Analyzed opsLatency progTrace n ctx := analyzeProg_analyzed (Nat.le_of_lt hn) hfuel
  refine ⟨ctx, hrun, ?_⟩
  intro i hi
  refine ⟨⟨_, _, h.getInstDeps_eq hi, isSource_lastWriter _ i, isSource_lastWriter _ i⟩, ?_⟩
  have hno : ∀ k < n, i ∉ (graph opsLatency progTrace).deps k ↔ ∀ dep1 dep2,
      getInstDeps ctx k = (0, some (dep1, dep2)) → dep1 ≠ i ∧ dep2 ≠ i := by
    intro k hk
    rw [mem_deps, not_or, ← source_eq_natCast, ← source_eq_natCast, h.getInstDeps_eq hk]
    constructor
    · rintro hne dep1 dep2 ⟨⟩
      exact hne
    · exact fun hall => hall _ _ rfl
  rw [h.exits i hi, Dag.Top, and_iff_right hi]
  exact forall₂_congr hno

/-- An instruction that overwrites its own source, and a reader of both. -/
def overwriteProg (i : Nat) : InstInfo :=
  if i = 2 then ⟨0, 3, 1, 2⟩ else ⟨0, 1, 1, 0⟩

theorem deps_are_last_writers_overwriteProg :
    ∃ ctx, analyzeProg (fun _ => 1) overwriteProg 4 3 = some ctx ∧
      ∀ i < 3, (∃ dep1 dep2, getInstDeps ctx i = (0, some (dep1, dep2)) ∧
          IsSource overwriteProg (overwriteProg i).src1Idx i dep1 ∧
          IsSource overwriteProg (overwriteProg i).src2Idx i dep2) ∧
        (ctx.exitNodes i = true ↔ ∀ k < 3, ∀ dep1 dep2,
          getInstDeps ctx k = (0, some (dep1, dep2)) → dep1 ≠ i ∧ dep2 ≠ i) :=
  deps_are_last_writers (fun _ => 1) overwriteProg (by omega) (by omega)

end DataFlow

end ArchSim
