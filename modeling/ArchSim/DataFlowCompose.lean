import ArchSim.DataFlowMachine

/-!
# Programs in parts

Running one program after another changes no answer about the first one. An
instruction of the second one gets no less deep, and at most as much deeper
as the first program is (`append_composes`). More dependencies and longer
latencies only make a program deeper (`depths_monotone`), so that the depths
are determined by what `getInstDeps` reports.
-/

namespace ArchSim

namespace DataFlow

variable {opsLatency : Fin maxOps → Nat} {n : Nat}

/-- A greatest end is reached by an instruction, and no smaller than any. -/
theorem makespan_le_iff {latency start : Nat → Nat} {d : Nat} :
    makespan n latency start ≤ d ↔ ∀ i < n, start i + latency i ≤ d := by
  rw [makespan, Finset.sup_le_iff]
  exact forall_congr' fun i => by rw [Finset.mem_range]

theorem end_le_makespan (progTrace : Nat → InstInfo) {i : Nat} (hi : i < n) :
    (graph opsLatency progTrace).depth i + opsLatency (progTrace i).opcode ≤
      makespan n (latencyOf opsLatency progTrace) (graph opsLatency progTrace).depth := by
  have hall : ∀ j < n,
      (graph opsLatency progTrace).depth j + latencyOf opsLatency progTrace j ≤ _ :=
    makespan_le_iff.mp (Nat.le_refl _)
  exact hall i hi

/-! ## One program after another -/

/-- The first `m` instructions of the first program, and then the second one. -/
def appendProg (m : Nat) (first second : Nat → InstInfo) (i : Nat) : InstInfo :=
  if i < m then first i else second (i - m)

section Append

variable {m : Nat} {first second : Nat → InstInfo}

theorem appendProg_of_lt {i : Nat} (hi : i < m) : appendProg m first second i = first i :=
  if_pos hi

theorem appendProg_add (i : Nat) : appendProg m first second (m + i) = second i := by
  rw [appendProg, if_neg (by omega), Nat.add_sub_cancel_left]

theorem lastWriter_append_of_le (r : Fin numOfRegs) {i : Nat} (hi : i ≤ m) :
    lastWriter (appendProg m first second) r i = lastWriter first r i := by
  induction i with
  | zero => rfl
  | succ i ih => rw [lastWriter, lastWriter, appendProg_of_lt hi, ih (Nat.le_of_succ_le hi)]

/-- The second program finds the last writers of the first one where it has
none of its own. -/
theorem lastWriter_append_add (r : Fin numOfRegs) (i : Nat) :
    lastWriter (appendProg m first second) r (m + i) =
      ((lastWriter second r i).map (m + ·)).or (lastWriter first r m) := by
  induction i with
  | zero => exact lastWriter_append_of_le r (Nat.le_refl m)
  | succ i ih =>
      rw [Nat.add_succ, lastWriter, lastWriter, appendProg_add, ih]
      split <;> rfl

theorem mem_deps_append_of_lt {i j : Nat} (hi : i < m) :
    j ∈ (graph opsLatency (appendProg m first second)).deps i ↔
      j ∈ (graph opsLatency first).deps i := by
  rw [mem_deps, mem_deps, appendProg_of_lt hi, lastWriter_append_of_le _ (Nat.le_of_lt hi),
    lastWriter_append_of_le _ (Nat.le_of_lt hi)]

/-- The two answers of the analysis about an instruction of the first part. -/
theorem depth_append_of_lt {i : Nat} (hi : i < m) :
    (graph opsLatency (appendProg m first second)).depth i =
      (graph opsLatency first).depth i := by
  have hweight : ∀ j < m, (graph opsLatency (appendProg m first second)).weight j =
      (graph opsLatency first).weight j := by
    intro j hj
    simp only [graph, appendProg_of_lt hj]
  refine Nat.le_antisymm ?_ ?_
  · refine Dag.depth_le_depth_map (p := (· < m)) (f := id) (fun _ hk => deps_lt hk) ?_ hi
    intro k hk j hj
    exact ⟨(mem_deps_append_of_lt hk).mp hj, Nat.le_of_eq (hweight j (deps_lt hk j hj))⟩
  · refine Dag.depth_le_depth_map (p := (· < m)) (f := id) (fun _ hk => deps_lt hk) ?_ hi
    intro k hk j hj
    exact ⟨(mem_deps_append_of_lt hk).mpr hj, Nat.le_of_eq (hweight j (deps_lt hk j hj)).symm⟩

theorem lastWriter_append_cases {r : Fin numOfRegs} {i k : Nat}
    (h : lastWriter (appendProg m first second) r (m + i) = some k) :
    k < m ∨ ∃ j, lastWriter second r i = some j ∧ m + j = k := by
  rw [lastWriter_append_add] at h
  cases hw : lastWriter second r i with
  | none =>
      rw [hw] at h
      exact Or.inl (lastWriter_lt h)
  | some j =>
      rw [hw] at h
      exact Or.inr ⟨j, rfl, Option.some.inj h⟩

theorem lastWriter_append_of_some {r : Fin numOfRegs} {i j : Nat}
    (h : lastWriter second r i = some j) :
    lastWriter (appendProg m first second) r (m + i) = some (m + j) := by
  rw [lastWriter_append_add, h]
  rfl

theorem weight_append_add (j : Nat) :
    (graph opsLatency (appendProg m first second)).weight (m + j) =
      (graph opsLatency second).weight j := by
  simp only [graph, appendProg_add]

theorem depth_le_depth_append (i : Nat) :
    (graph opsLatency second).depth i ≤
      (graph opsLatency (appendProg m first second)).depth (m + i) := by
  refine Dag.depth_le_depth_map (p := fun _ => True) (f := (m + ·)) (fun _ _ _ _ => trivial) ?_
    trivial
  intro k _ j hj
  refine ⟨?_, Nat.le_of_eq (weight_append_add j).symm⟩
  rw [mem_deps, appendProg_add]
  exact (mem_deps.mp hj).imp lastWriter_append_of_some lastWriter_append_of_some

/-- Whatever the first part computes is there when it is over. -/
theorem depth_append_le (i : Nat) :
    (graph opsLatency (appendProg m first second)).depth (m + i) ≤
      makespan m (latencyOf opsLatency first) (graph opsLatency first).depth +
        (graph opsLatency second).depth i := by
  refine Dag.depth_map_le_add (p := fun _ => True) (f := (m + ·)) (fun _ _ _ _ => trivial) ?_
    trivial
  intro i' _ k hk
  rw [mem_deps, appendProg_add] at hk
  have hcases : k < m ∨ ∃ j ∈ (graph opsLatency second).deps i', m + j = k := by
    rcases hk with hk | hk
    · exact (lastWriter_append_cases hk).imp_right
        fun ⟨j, hj, heq⟩ => ⟨j, mem_deps.mpr (Or.inl hj), heq⟩
    · exact (lastWriter_append_cases hk).imp_right
        fun ⟨j, hj, heq⟩ => ⟨j, mem_deps.mpr (Or.inr hj), heq⟩
  rcases hcases with hlt | ⟨j, hj, rfl⟩
  · left
    have hweight : (graph opsLatency (appendProg m first second)).weight k =
        latencyOf opsLatency first k := by
      simp only [graph, appendProg_of_lt hlt, latencyOf]
    rw [depth_append_of_lt hlt, hweight]
    exact end_le_makespan first hlt
  · exact Or.inr ⟨j, hj, rfl, Nat.le_of_eq (weight_append_add j)⟩

theorem sum_append (m k : Nat) (first second : Nat → InstInfo) :
    ∑ i ∈ Finset.range (m + k), opsLatency (appendProg m first second i).opcode =
      ∑ i ∈ Finset.range m, opsLatency (first i).opcode +
        ∑ i ∈ Finset.range k, opsLatency (second i).opcode := by
  rw [Finset.sum_range_add]
  refine congrArg₂ _ (Finset.sum_congr rfl fun i hi => ?_) (Finset.sum_congr rfl fun i _ => ?_)
  · rw [appendProg_of_lt (Finset.mem_range.mp hi)]
  · rw [appendProg_add]

theorem le_makespan_append (m k : Nat) (first second : Nat → InstInfo) :
    makespan m (latencyOf opsLatency first) (graph opsLatency first).depth ≤
        makespan (m + k) (latencyOf opsLatency (appendProg m first second))
          (graph opsLatency (appendProg m first second)).depth ∧
      makespan k (latencyOf opsLatency second) (graph opsLatency second).depth ≤
        makespan (m + k) (latencyOf opsLatency (appendProg m first second))
          (graph opsLatency (appendProg m first second)).depth := by
  constructor
  · refine makespan_le_iff.mpr fun i hi => ?_
    have hle := @end_le_makespan opsLatency _ (appendProg m first second) _
      (Nat.lt_of_lt_of_le hi (Nat.le_add_right m k))
    rwa [depth_append_of_lt hi, appendProg_of_lt hi] at hle
  · refine makespan_le_iff.mpr fun i hi => ?_
    have hle := @end_le_makespan opsLatency _ (appendProg m first second) _
      (Nat.add_lt_add_left hi m)
    rw [appendProg_add] at hle
    exact Nat.le_trans (Nat.add_le_add_right (depth_le_depth_append i) _) hle

theorem makespan_append_le (m k : Nat) (first second : Nat → InstInfo) :
    makespan (m + k) (latencyOf opsLatency (appendProg m first second))
        (graph opsLatency (appendProg m first second)).depth ≤
      makespan m (latencyOf opsLatency first) (graph opsLatency first).depth +
        makespan k (latencyOf opsLatency second) (graph opsLatency second).depth := by
  refine makespan_le_iff.mpr fun i hi => ?_
  rcases Nat.lt_or_ge i m with hlt | hge
  · rw [depth_append_of_lt hlt, latencyOf, appendProg_of_lt hlt]
    exact Nat.le_trans (end_le_makespan first hlt) (Nat.le_add_right _ _)
  · obtain ⟨j, rfl⟩ := Nat.exists_eq_add_of_le hge
    have hj : j < k := by omega
    have hend := @end_le_makespan opsLatency _ second _ hj
    have hdepth := @depth_append_le opsLatency m first second j
    rw [latencyOf, appendProg_add]
    omega

/-- Appending a program changes nothing before it, and what comes after it
takes the more time, but no more than the two programs one by one. -/
theorem append_composes {m k : Nat} (first second : Nat → InstInfo) (hm : 1 ≤ m) (hk : 1 ≤ k)
    (hn : m + k ≤ 2 ^ 31)
    (hsum : ∑ i ∈ Finset.range (m + k), opsLatency (appendProg m first second i).opcode < 2 ^ 31)
    {fuel : Nat} (hfuel : m + k < fuel) :
    ∃ ctx₁ ctx₂ ctx, analyzeProg opsLatency first fuel m = some ctx₁ ∧
      analyzeProg opsLatency second fuel k = some ctx₂ ∧
      analyzeProg opsLatency (appendProg m first second) fuel (m + k) = some ctx ∧
      (∀ i < m, getInstDeps ctx i = getInstDeps ctx₁ i ∧
        getInstDepth ctx i = getInstDepth ctx₁ i) ∧
      (∀ i < k, getInstDepth ctx₂ i ≤ getInstDepth ctx (m + i) ∧
        getInstDepth ctx (m + i) ≤ getProgDepth ctx₁ + getInstDepth ctx₂ i) ∧
      max (getProgDepth ctx₁) (getProgDepth ctx₂) ≤ getProgDepth ctx ∧
        getProgDepth ctx ≤ getProgDepth ctx₁ + getProgDepth ctx₂ := by
  have hsums := @sum_append opsLatency m k first second
  have hsum₁ : ∑ i ∈ Finset.range m, opsLatency (first i).opcode < 2 ^ 31 := by omega
  have hsum₂ : ∑ i ∈ Finset.range k, opsLatency (second i).opcode < 2 ^ 31 := by omega
  obtain ⟨ctx₁, hrun₁, h₁⟩ : ∃ ctx, analyzeProg opsLatency first fuel m = some ctx ∧
      Analyzed opsLatency first m ctx := analyzeProg_analyzed (by omega) (by omega)
  obtain ⟨ctx₂, hrun₂, h₂⟩ : ∃ ctx, analyzeProg opsLatency second fuel k = some ctx ∧
      Analyzed opsLatency second k ctx := analyzeProg_analyzed (by omega) (by omega)
  obtain ⟨ctx, hrun, h⟩ : ∃ ctx,
      analyzeProg opsLatency (appendProg m first second) fuel (m + k) = some ctx ∧
      Analyzed opsLatency (appendProg m first second) (m + k) ctx := analyzeProg_analyzed hn hfuel
  have hv₁ := h₁.visited hsum₁
  have hv₂ := h₂.visited hsum₂
  have hv := h.visited hsum
  have hprog₁ := hv₁.getProgDepth_eq hm
  have hprog₂ := hv₂.getProgDepth_eq hk
  have hprog := hv.getProgDepth_eq (Nat.le_trans hm (Nat.le_add_right m k))
  refine ⟨ctx₁, ctx₂, ctx, hrun₁, hrun₂, hrun, fun i hi => ⟨?_, ?_⟩, fun i hi => ?_, ?_, ?_⟩
  · rw [h.getInstDeps_eq (by omega), h₁.getInstDeps_eq hi, appendProg_of_lt hi,
      lastWriter_append_of_le _ (Nat.le_of_lt hi), lastWriter_append_of_le _ (Nat.le_of_lt hi)]
  · rw [hv.getInstDepth_eq hsum (by omega), hv₁.getInstDepth_eq hsum₁ hi, depth_append_of_lt hi]
  · rw [hv.getInstDepth_eq hsum (by omega), hv₂.getInstDepth_eq hsum₂ hi, hprog₁]
    exact ⟨Int.ofNat_le.mpr (depth_le_depth_append i), Int.ofNat_le.mpr (depth_append_le i)⟩
  · obtain ⟨hle₁, hle₂⟩ := @le_makespan_append opsLatency m k first second
    rw [hprog, hprog₁, hprog₂]
    exact max_le (Int.ofNat_le.mpr hle₁) (Int.ofNat_le.mpr hle₂)
  · rw [hprog, hprog₁, hprog₂]
    exact Int.ofNat_le.mpr (makespan_append_le m k first second)

theorem append_composes_joinProg :
    ∃ ctx₁ ctx₂ ctx, analyzeProg (fun _ => 2) joinProg 9 4 = some ctx₁ ∧
      analyzeProg (fun _ => 2) joinProg 9 3 = some ctx₂ ∧
      analyzeProg (fun _ => 2) (appendProg 4 joinProg joinProg) 9 (4 + 3) = some ctx ∧
      (∀ i < 4, getInstDeps ctx i = getInstDeps ctx₁ i ∧
        getInstDepth ctx i = getInstDepth ctx₁ i) ∧
      (∀ i < 3, getInstDepth ctx₂ i ≤ getInstDepth ctx (4 + i) ∧
        getInstDepth ctx (4 + i) ≤ getProgDepth ctx₁ + getInstDepth ctx₂ i) ∧
      max (getProgDepth ctx₁) (getProgDepth ctx₂) ≤ getProgDepth ctx ∧
        getProgDepth ctx ≤ getProgDepth ctx₁ + getProgDepth ctx₂ :=
  append_composes joinProg joinProg (by omega) (by omega) (by omega)
    (by decide) (by omega)

end Append

/-! ## More dependencies -/

/-- `getInstDeps` names instruction `j`. -/
def Reports (ctx : ProgCtx) (i j : Nat) : Prop :=
  ∃ dep1 dep2, getInstDeps ctx i = (0, some (dep1, dep2)) ∧ (dep1 = j ∨ dep2 = j)

theorem Analyzed.reports_iff {progTrace : Nat → InstInfo} {ctx : ProgCtx}
    (h : Analyzed opsLatency progTrace n ctx) {i : Nat} (hi : i < n) {j : Nat} :
    Reports ctx i j ↔ j ∈ (graph opsLatency progTrace).deps i := by
  rw [mem_deps, ← source_eq_natCast, ← source_eq_natCast, Reports, h.getInstDeps_eq hi]
  constructor
  · rintro ⟨dep1, dep2, ⟨⟩, hdep⟩
    exact hdep
  · exact fun hdep => ⟨_, _, rfl, hdep⟩

theorem sum_latencies_le {opsLatency opsLatency' : Fin maxOps → Nat} {prog prog' : Nat → InstInfo}
    (hlat : ∀ i < n, latencyOf opsLatency prog i ≤ latencyOf opsLatency' prog' i) :
    ∑ i ∈ Finset.range n, opsLatency (prog i).opcode ≤
      ∑ i ∈ Finset.range n, opsLatency' (prog' i).opcode :=
  Finset.sum_le_sum fun i hi => hlat i (Finset.mem_range.mp hi)

/-- Programs whose instructions report more dependencies and take longer have
greater depths. -/
theorem depths_monotone {opsLatency opsLatency' : Fin maxOps → Nat} (prog prog' : Nat → InstInfo)
    (hn : 1 ≤ n) (hn' : n ≤ 2 ^ 31)
    (hlat : ∀ i < n, latencyOf opsLatency prog i ≤ latencyOf opsLatency' prog' i)
    (hsum : ∑ i ∈ Finset.range n, opsLatency' (prog' i).opcode < 2 ^ 31)
    {fuel : Nat} (hfuel : n < fuel) :
    ∃ ctx ctx', analyzeProg opsLatency prog fuel n = some ctx ∧
      analyzeProg opsLatency' prog' fuel n = some ctx' ∧
      ((∀ i < n, ∀ j, Reports ctx i j → Reports ctx' i j) →
        (∀ i < n, getInstDepth ctx i ≤ getInstDepth ctx' i) ∧
          getProgDepth ctx ≤ getProgDepth ctx') := by
  have hsum₁ := Nat.lt_of_le_of_lt (sum_latencies_le hlat) hsum
  obtain ⟨ctx, hrun, h⟩ : ∃ ctx, analyzeProg opsLatency prog fuel n = some ctx ∧
      Analyzed opsLatency prog n ctx := analyzeProg_analyzed hn' hfuel
  obtain ⟨ctx', hrun', h'⟩ : ∃ ctx, analyzeProg opsLatency' prog' fuel n = some ctx ∧
      Analyzed opsLatency' prog' n ctx := analyzeProg_analyzed hn' hfuel
  refine ⟨ctx, ctx', hrun, hrun', fun hdeps => ?_⟩
  have hle : ∀ i < n, (graph opsLatency prog).depth i ≤ (graph opsLatency' prog').depth i := by
    intro i hi
    refine Dag.depth_le_depth_map (p := (· < n)) (f := id) (fun _ hk => deps_lt hk) ?_ hi
    intro k hk j hj
    refine ⟨?_, hlat j (deps_lt hk j hj)⟩
    exact (h'.reports_iff hk).mp (hdeps k hk j ((h.reports_iff hk).mpr hj))
  have hv := h.visited hsum₁
  have hv' := h'.visited hsum
  constructor
  · intro i hi
    rw [hv.getInstDepth_eq hsum₁ hi, hv'.getInstDepth_eq hsum hi]
    exact Int.ofNat_le.mpr (hle i hi)
  · rw [hv.getProgDepth_eq hn, hv'.getProgDepth_eq hn]
    refine Int.ofNat_le.mpr (makespan_le_iff.mpr fun i hi => ?_)
    exact Nat.le_trans (Nat.add_le_add (hle i hi) (hlat i hi)) (end_le_makespan prog' hi)

theorem depths_monotone_joinProg :
    ∃ ctx ctx', analyzeProg (fun _ => 1) joinProg 5 4 = some ctx ∧
      analyzeProg (fun op => op.val + 1) joinProg 5 4 = some ctx' ∧
      ((∀ i < 4, ∀ j, Reports ctx i j → Reports ctx' i j) →
        (∀ i < 4, getInstDepth ctx i ≤ getInstDepth ctx' i) ∧
          getProgDepth ctx ≤ getProgDepth ctx') :=
  depths_monotone joinProg joinProg (by omega) (by omega) (fun _ _ => Nat.le_add_left 1 _)
    (by decide) (by omega)

end DataFlow

end ArchSim
