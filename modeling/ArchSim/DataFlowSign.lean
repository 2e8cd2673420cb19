import ArchSim.DataFlowDepth
import ArchSim.DataFlowMain

/-!
# The signs of the depths

`main` takes a negative depth for an invalid instruction number. The depths
are `int`s, and latencies are any `unsigned`s. Over one table of latencies
every program of `n` instructions is reported rightly exactly when `n` times
the largest latency is an `int`; otherwise a chain of instructions overflows
(`not_endsRight_chainProg`). An overflow is taken to wrap, as it does where the
program is built without trapping it. One program is then reported rightly
even with overflows, as long as no instruction has two sources that both end
below zero, unless its own end is -1 (`negativeMeansInvalid_iff`).
-/

namespace ArchSim

namespace DataFlow

variable {opsLatency : Fin maxOps → Nat} {progTrace : Nat → InstInfo} {n : Nat}

/-- What `main` relies on. -/
def NegativeMeansInvalid (n : Nat) (ctx : ProgCtx) : Prop :=
  (∀ i, getInstDepth ctx i < 0 ↔ n ≤ i) ∧ 0 ≤ getProgDepth ctx

/-- With ends that wrap: where both sources end below zero the end is -1, and
some instruction that no other depends on ends at zero or later. -/
structure EndsRight (opsLatency : Fin maxOps → Nat) (progTrace : Nat → InstInfo) (n : Nat) :
    Prop where
  late : ∀ i < n, ∀ j k, IsLastWriter progTrace (progTrace i).src1Idx i j →
    IsLastWriter progTrace (progTrace i).src2Idx i k → intFinish opsLatency progTrace j < 0 →
      intFinish opsLatency progTrace k < 0 → intFinish opsLatency progTrace i = NONE
  exit : ∃ e < n, (∀ k < n, ¬DependsOn progTrace k e) ∧ 0 ≤ intFinish opsLatency progTrace e

/-! ## One program -/

theorem intReady_neg {o : Option Nat} :
    intReady opsLatency progTrace o < 0 ↔
      ∃ j, o = some j ∧ intFinish opsLatency progTrace j < 0 := by
  cases o with
  | none => exact ⟨fun h => absurd h (Int.lt_irrefl 0), fun ⟨_, h, _⟩ => nomatch h⟩
  | some j => exact ⟨fun h => ⟨j, rfl, h⟩, fun ⟨_, hj, h⟩ => Option.some.inj hj ▸ h⟩

theorem intStart_neg {i : Nat} :
    intStart opsLatency progTrace i < 0 ↔ ∃ j k,
      IsLastWriter progTrace (progTrace i).src1Idx i j ∧
      IsLastWriter progTrace (progTrace i).src2Idx i k ∧
      intFinish opsLatency progTrace j < 0 ∧ intFinish opsLatency progTrace k < 0 := by
  simp only [intStart, max_lt_iff, intReady_neg, ← lastWriter_eq_some]
  constructor
  · rintro ⟨⟨j, hj, hjneg⟩, k, hk, hkneg⟩
    exact ⟨j, k, hj, hk, hjneg, hkneg⟩
  · rintro ⟨j, k, hj, hk, hjneg, hkneg⟩
    exact ⟨⟨j, hj, hjneg⟩, k, hk, hkneg⟩

theorem getProgDepth_nonneg_iff {ctx : ProgCtx} (h : Analyzed opsLatency progTrace n ctx) :
    0 ≤ getProgDepth ctx ↔
      ∃ e < n, (∀ k < n, ¬DependsOn progTrace k e) ∧ 0 ≤ intFinish opsLatency progTrace e := by
  obtain ⟨hmem, hupper⟩ := h.maxDepth
  have hdep : ∀ k e, DependsOn progTrace k e ↔ e ∈ (graph opsLatency progTrace).deps k :=
    fun _ _ => mem_deps_iff_dependsOn.symm
  simp only [hdep]
  constructor
  · intro hpos
    rcases hmem with hnone | ⟨e, htop, hd⟩
    · rw [getProgDepth, hnone] at hpos
      exact absurd hpos (by decide)
    · exact ⟨e, htop.1, htop.2, Int.le_trans hpos (Int.le_of_eq hd)⟩
  · rintro ⟨e, he, htop, hpos⟩
    exact Int.le_trans hpos (hupper (Or.inr ⟨e, ⟨he, htop⟩, rfl⟩))

theorem negativeMeansInvalid_iff {ctx : ProgCtx} (h : Analyzed opsLatency progTrace n ctx) :
    NegativeMeansInvalid n ctx ↔ EndsRight opsLatency progTrace n := by
  have hinvalid : ∀ i, n ≤ i → getInstDepth ctx i < 0 := by
    intro i hi
    rw [getInstDepth, h.numOfInsts, if_pos hi]
    decide
  constructor
  · rintro ⟨hdepth, hprog⟩
    refine ⟨?_, (getProgDepth_nonneg_iff h).mp hprog⟩
    intro i hi j k hj hk hjneg hkneg
    by_contra hend
    have hneg : getInstDepth ctx i < 0 := by
      rw [h.getInstDepth_eq hi, if_neg hend]
      exact intStart_neg.mpr ⟨j, k, hj, hk, hjneg, hkneg⟩
    exact absurd ((hdepth i).mp hneg) (Nat.not_le.mpr hi)
  · rintro ⟨hlate, hexit⟩
    refine ⟨?_, (getProgDepth_nonneg_iff h).mpr hexit⟩
    intro i
    refine ⟨?_, hinvalid i⟩
    intro hneg
    by_contra hlt
    have hi := Nat.lt_of_not_le hlt
    rw [h.getInstDepth_eq hi] at hneg
    split at hneg
    · exact absurd hneg (Int.lt_irrefl 0)
    · rename_i hend
      obtain ⟨j, k, hj, hk, hjneg, hkneg⟩ := intStart_neg.mp hneg
      exact hend (hlate i hi j k hj hk hjneg hkneg)

/-! ## All programs -/

/-- Each instruction depends on the one before. -/
def chainProg (op : Fin maxOps) : Nat → InstInfo := fun _ => ⟨op, 0, 0, 0⟩

theorem isLastWriter_chainProg (op : Fin maxOps) (i : Nat) :
    IsLastWriter (chainProg op) 0 (i + 1) i :=
  ⟨Nat.lt_succ_self i, rfl, fun _ hk hk' => absurd hk (Nat.not_lt.mpr (Nat.le_of_lt_succ hk'))⟩

theorem intFinish_chainProg_zero (op : Fin maxOps) :
    intFinish opsLatency (chainProg op) 0 = int32 (opsLatency op) := by
  have hstart : intStart opsLatency (chainProg op) 0 = 0 := max_self 0
  rw [intFinish_eq, hstart, Int.add_zero, int32_int32, chainProg]

theorem intStart_chainProg_succ (op : Fin maxOps) (i : Nat) :
    intStart opsLatency (chainProg op) (i + 1) = intFinish opsLatency (chainProg op) i := by
  have hw : lastWriter (chainProg op) 0 (i + 1) = some i :=
    lastWriter_eq_some.mpr (isLastWriter_chainProg op i)
  exact (congrArg₂ max (congrArg _ hw) (congrArg _ hw)).trans (max_self _)

theorem intFinish_chainProg_succ (op : Fin maxOps) (i : Nat) :
    intFinish opsLatency (chainProg op) (i + 1) =
      int32 (opsLatency op + intFinish opsLatency (chainProg op) i) := by
  rw [intFinish_eq, intStart_chainProg_succ, int32, int32, int32, Int.bmod_add_bmod, chainProg]

theorem intFinish_chainProg (op : Fin maxOps) (i : Nat) :
    intFinish opsLatency (chainProg op) i = int32 ((i + 1) * opsLatency op : Nat) := by
  induction i with
  | zero => rw [intFinish_chainProg_zero, Nat.zero_add, Nat.one_mul]
  | succ i ih =>
      rw [intFinish_chainProg_succ, ih, Nat.succ_mul (i + 1), Int.natCast_add, int32, int32, int32,
        Int.add_bmod_bmod, Int.add_comm]

/-- The end after one at -1 is not -1 again. -/
theorem int32_sub_one_ne {k : Nat} (hpos : 0 < k) (hlt : k < 2 ^ 32) :
    int32 (k + NONE) ≠ NONE := by
  obtain ⟨k, rfl⟩ := Nat.exists_eq_add_of_lt hpos
  have hk : ((0 + k + 1 : Nat) : Int) + NONE = k := by
    rw [NONE]
    omega
  rw [hk, NONE]
  rcases Nat.lt_or_ge k (2 ^ 31) with hk | hk
  · rw [int32_of_lt hk]
    omega
  · rw [int32_of_ge hk (by omega)]
    omega

/-- The first sum that is no `int`. -/
theorem exists_negative {m k : Nat} (hm : m < 2 ^ 32) (hge : 2 ^ 31 ≤ (k + 1) * m) :
    ∃ i ≤ k, int32 ((i + 1) * m : Nat) < 0 := by
  induction k with
  | zero =>
      rw [Nat.zero_add, Nat.one_mul] at hge
      refine ⟨0, Nat.le_refl 0, ?_⟩
      rw [Nat.zero_add, Nat.one_mul, int32_of_ge hge hm]
      omega
  | succ k ih =>
      by_cases hbefore : 2 ^ 31 ≤ (k + 1) * m
      · obtain ⟨i, hi, hneg⟩ := ih hbefore
        exact ⟨i, Nat.le_succ_of_le hi, hneg⟩
      · have hle : m ≤ (k + 1) * m := Nat.le_mul_of_pos_left m (Nat.succ_pos k)
        refine ⟨k + 1, Nat.le_refl _, ?_⟩
        rw [Nat.succ_mul] at hge ⊢
        rw [int32_of_ge hge (by omega)]
        omega

/-- Nothing that comes after a negative end mends it. -/
theorem not_endsRight_chainProg {op : Fin maxOps} (hlt : opsLatency op < 2 ^ 32)
    (hge : 2 ^ 31 ≤ n * opsLatency op) : ¬EndsRight opsLatency (chainProg op) n := by
  rintro ⟨hlate, e, he, hexit, hpos⟩
  obtain rfl : n = e + 1 := by
    by_contra hne
    exact hexit (e + 1) (by omega) (Or.inl (isLastWriter_chainProg op e))
  have hlatency : 0 < opsLatency op := Nat.pos_of_ne_zero fun hzero => by
    rw [hzero, Nat.mul_zero] at hge
    omega
  have hnext : ∀ i < e, intFinish opsLatency (chainProg op) i < 0 →
      intFinish opsLatency (chainProg op) (i + 1) = NONE := fun i hi hneg =>
    hlate (i + 1) (Nat.succ_lt_succ hi) i i (isLastWriter_chainProg op i)
      (isLastWriter_chainProg op i) hneg hneg
  obtain ⟨i, hi, hneg⟩ := exists_negative hlt hge
  rw [← intFinish_chainProg] at hneg
  rcases Nat.lt_or_eq_of_le hi with hi | rfl
  · have hone := hnext i hi hneg
    rcases Nat.lt_or_eq_of_le (Nat.succ_le_of_lt hi) with hi | rfl
    · have htwo := hnext (i + 1) hi (hone ▸ by decide)
      rw [intFinish_chainProg_succ, hone] at htwo
      exact int32_sub_one_ne hlatency hlt htwo
    · rw [hone] at hpos
      exact absurd hpos (by decide)
  · exact absurd hneg (Int.not_lt.mpr hpos)

/-- Without overflow every end is right. -/
theorem endsRight_of_sum (hn : 1 ≤ n)
    (hsum : ∑ i ∈ Finset.range n, opsLatency (progTrace i).opcode < 2 ^ 31) :
    EndsRight opsLatency progTrace n := by
  have hend : ∀ i < n, 0 ≤ intFinish opsLatency progTrace i := fun i hi =>
    intFinish_eq_finish hsum hi ▸ Int.natCast_nonneg _
  refine ⟨?_, ?_⟩
  · intro i hi j _ hj _ hneg _
    exact absurd hneg (Int.not_lt.mpr (hend j (Nat.lt_trans hj.before hi)))
  · obtain ⟨e, ⟨he, htop⟩, -⟩ :=
      Dag.exists_top (g := graph opsLatency progTrace) (Nat.lt_of_lt_of_le Nat.one_pos hn)
    exact ⟨e, he, fun k hk hdep => htop k hk (mem_deps_iff_dependsOn.mpr hdep), hend e he⟩

/-- The exact condition for all programs of `n` instructions over a table that
has been read, and for one program, where overflow wraps. -/
theorem negative_means_invalid_iff (file : Option (List Char)) (hn : 1 ≤ n) (hn' : n ≤ 2 ^ 31)
    {fuel : Nat} (hfuel : n < fuel) :
    ((∀ progTrace ctx, analyzeProg (readOpsLatency file).2 progTrace fuel n = some ctx →
        NegativeMeansInvalid n ctx) ↔
      n * Finset.univ.sup (readOpsLatency file).2 < 2 ^ 31) ∧
    (∀ progTrace, ∃ ctx, analyzeProg (readOpsLatency file).2 progTrace fuel n = some ctx ∧
      (NegativeMeansInvalid n ctx ↔ EndsRight (readOpsLatency file).2 progTrace n)) := by
  have hrun : ∀ progTrace, ∃ ctx,
      analyzeProg (readOpsLatency file).2 progTrace fuel n = some ctx ∧
        (NegativeMeansInvalid n ctx ↔ EndsRight (readOpsLatency file).2 progTrace n) := by
    intro progTrace
    obtain ⟨ctx, hctx, h⟩ : ∃ ctx, analyzeProg (readOpsLatency file).2 progTrace fuel n =
      some ctx ∧ Analyzed (readOpsLatency file).2 progTrace n ctx := analyzeProg_analyzed hn' hfuel
    exact ⟨ctx, hctx, negativeMeansInvalid_iff h⟩
  refine ⟨⟨?_, ?_⟩, hrun⟩
  · intro hall
    obtain ⟨op, -, hop⟩ := Finset.exists_mem_eq_sup Finset.univ Finset.univ_nonempty
      (readOpsLatency file).2
    rw [hop]
    by_contra hge
    obtain ⟨ctx, hctx, hiff⟩ := hrun (chainProg op)
    exact not_endsRight_chainProg (readOpsLatency_lt file op) (Nat.le_of_not_lt hge)
      (hiff.mp (hall _ ctx hctx))
  · intro hlt progTrace ctx hctx
    obtain ⟨ctx', hctx', hiff⟩ := hrun progTrace
    obtain rfl : ctx = ctx' := Option.some.inj (hctx.symm.trans hctx')
    refine hiff.mpr (endsRight_of_sum hn (Nat.lt_of_le_of_lt ?_ hlt))
    have hle := Finset.sum_le_card_nsmul (Finset.range n)
      (fun i => (readOpsLatency file).2 (progTrace i).opcode) _
      fun i _ => Finset.le_sup (Finset.mem_univ (progTrace i).opcode)
    rwa [Finset.card_range, smul_eq_mul] at hle

/-- One opcode, of a latency that is no `int`. -/
def lateFile : List Char := ['2', '1', '4', '7', '4', '8', '3', '6', '4', '8', '\n']

theorem negative_means_invalid_iff_lateFile :
    ((∀ progTrace ctx, analyzeProg (readOpsLatency (some lateFile)).2 progTrace 3 2 = some ctx →
        NegativeMeansInvalid 2 ctx) ↔
      2 * Finset.univ.sup (readOpsLatency (some lateFile)).2 < 2 ^ 31) ∧
    (∀ progTrace, ∃ ctx, analyzeProg (readOpsLatency (some lateFile)).2 progTrace 3 2 = some ctx ∧
      (NegativeMeansInvalid 2 ctx ↔ EndsRight (readOpsLatency (some lateFile)).2 progTrace 2)) :=
  negative_means_invalid_iff (some lateFile) (by omega) (by omega) (by omega)

/-- The table is accepted, and the second of two instructions, which waits for
the first, has a negative depth. -/
theorem negative_depth_lateFile :
    (readOpsLatency (some lateFile)).1 = 1 ∧
      ∃ ctx, analyzeProg (readOpsLatency (some lateFile)).2 (chainProg 0) 3 2 = some ctx ∧
        getInstDepth ctx 1 = -2147483648 ∧
        ¬((∀ i, getInstDepth ctx i < 0 ↔ 2 ≤ i) ∧ 0 ≤ getProgDepth ctx) := by
  have hread : (readOpsLatency (some lateFile)).1 = 1 ∧
      (readOpsLatency (some lateFile)).2 0 = 2147483648 := by decide +kernel
  obtain ⟨ctx, hctx, h⟩ : ∃ ctx, analyzeProg (readOpsLatency (some lateFile)).2 (chainProg 0) 3 2 =
    some ctx ∧ Analyzed (readOpsLatency (some lateFile)).2 (chainProg 0) 2 ctx :=
    analyzeProg_analyzed (by omega) (by omega)
  have hdepth : getInstDepth ctx 1 = -2147483648 := by
    rw [h.getInstDepth_eq (by omega), intStart_chainProg_succ, intFinish_chainProg,
      intFinish_chainProg, hread.2]
    decide
  refine ⟨hread.1, ctx, hctx, hdepth, ?_⟩
  rintro ⟨hiff, -⟩
  exact absurd ((hiff 1).mp (hdepth ▸ by decide)) (by decide)

end DataFlow

end ArchSim
