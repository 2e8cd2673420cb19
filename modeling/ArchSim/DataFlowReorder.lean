import ArchSim.DataFlowVisit

/-!
# Reordering independent instructions

Two adjacent instructions are independent when neither writes a register
that the other one reads or writes. Exchanging them keeps every dependency
up to the numbers of the instructions (`Renumbers`), and hence, without
overflow, every answer of the analysis. Renumberings compose, so that the
same holds for any sequence of such exchanges (`exchanges_keep_analysis`).
-/

namespace ArchSim

namespace DataFlow

variable {opsLatency : Fin maxOps → Nat} {n : Nat}

/-- `a` writes no register that `b` reads or writes. -/
def Avoids (a b : InstInfo) : Prop :=
  a.dstIdx ≠ b.src1Idx ∧ a.dstIdx ≠ b.src2Idx ∧ a.dstIdx ≠ b.dstIdx

def Independent (a b : InstInfo) : Prop := Avoids a b ∧ Avoids b a

/-- The program with instructions `i` and `i + 1` exchanged. -/
def exchange (progTrace : Nat → InstInfo) (i : Nat) : Nat → InstInfo := fun k =>
  progTrace (Equiv.swap i (i + 1) k)

/-- One exchange of adjacent independent instructions. -/
def Exchanged (n : Nat) (progTrace progTrace' : Nat → InstInfo) : Prop :=
  ∃ i, i + 1 < n ∧ Independent (progTrace i) (progTrace (i + 1)) ∧
    progTrace' = exchange progTrace i

/-! ## Writers after an exchange -/

section Exchange

variable {progTrace : Nat → InstInfo} {i : Nat}

theorem swap_of_lt {k : Nat} (hk : k < i) : Equiv.swap i (i + 1) k = k :=
  Equiv.swap_apply_of_ne_of_ne (Nat.ne_of_lt hk) (by omega)

theorem swap_of_gt {k : Nat} (hk : i + 1 < k) : Equiv.swap i (i + 1) k = k :=
  Equiv.swap_apply_of_ne_of_ne (by omega) (by omega)

theorem exchange_swap (progTrace : Nat → InstInfo) (i k : Nat) :
    exchange progTrace i (Equiv.swap i (i + 1) k) = progTrace k := by
  rw [exchange, Equiv.swap_apply_self]

theorem lastWriter_map_of_le (r : Fin numOfRegs) {k : Nat} (hk : k ≤ i) :
    (lastWriter progTrace r k).map (Equiv.swap i (i + 1)) = lastWriter progTrace r k := by
  cases hw : lastWriter progTrace r k with
  | none => rfl
  | some j => exact congrArg some (swap_of_lt (Nat.lt_of_lt_of_le (lastWriter_lt hw) hk))

theorem lastWriter_exchange_of_le (r : Fin numOfRegs) {k : Nat} (hk : k ≤ i) :
    lastWriter (exchange progTrace i) r k = lastWriter progTrace r k := by
  induction k with
  | zero => rfl
  | succ k ih =>
      rw [lastWriter, lastWriter, exchange, swap_of_lt hk, ih (Nat.le_of_succ_le hk)]

/-- After both instructions at most one of them is a last writer. -/
theorem lastWriter_exchange_of_gt (hne : (progTrace i).dstIdx ≠ (progTrace (i + 1)).dstIdx)
    (r : Fin numOfRegs) {k : Nat} (hk : i + 2 ≤ k) :
    lastWriter (exchange progTrace i) r k =
      (lastWriter progTrace r k).map (Equiv.swap i (i + 1)) := by
  induction k, hk using Nat.le_induction with
  | base =>
      have hleft : exchange progTrace i i = progTrace (i + 1) := by
        rw [exchange, Equiv.swap_apply_left]
      have hright : exchange progTrace i (i + 1) = progTrace i := by
        rw [exchange, Equiv.swap_apply_right]
      simp only [lastWriter, hleft, hright, lastWriter_exchange_of_le r (Nat.le_refl i)]
      by_cases hi : (progTrace i).dstIdx = r
      · rw [if_pos hi, if_neg (fun h => hne (hi.trans h.symm)), if_pos hi]
        exact congrArg some (Equiv.swap_apply_left ..).symm
      · rw [if_neg hi, if_neg hi]
        split
        · exact congrArg some (Equiv.swap_apply_right ..).symm
        · exact (lastWriter_map_of_le r (Nat.le_refl i)).symm
  | succ k hk ih =>
      have hfix : Equiv.swap i (i + 1) k = k := swap_of_gt (by omega)
      rw [lastWriter, lastWriter, exchange, hfix, ih]
      split
      · exact congrArg some hfix.symm
      · rfl

/-- A source that the other one of the two does not write. -/
theorem lastWriter_exchange (hne : (progTrace i).dstIdx ≠ (progTrace (i + 1)).dstIdx)
    {r : Fin numOfRegs} {k : Nat} (hi : k = i → (progTrace (i + 1)).dstIdx ≠ r)
    (hi' : k = i + 1 → (progTrace i).dstIdx ≠ r) :
    lastWriter (exchange progTrace i) r (Equiv.swap i (i + 1) k) =
      (lastWriter progTrace r k).map (Equiv.swap i (i + 1)) := by
  rcases Nat.lt_trichotomy k i with hk | rfl | hk
  · rw [swap_of_lt hk, lastWriter_exchange_of_le r (Nat.le_of_lt hk),
      lastWriter_map_of_le r (Nat.le_of_lt hk)]
  · rw [Equiv.swap_apply_left, lastWriter, exchange, Equiv.swap_apply_left, if_neg (hi rfl)]
    rw [lastWriter_map_of_le r (Nat.le_refl k)]
    exact lastWriter_exchange_of_le r (Nat.le_refl k)
  · rcases Nat.lt_or_ge (i + 1) k with hk | hk
    · rw [swap_of_gt hk]
      exact lastWriter_exchange_of_gt hne r hk
    · obtain rfl : k = i + 1 := by omega
      rw [Equiv.swap_apply_right, lastWriter_exchange_of_le r (Nat.le_refl i), lastWriter,
        if_neg (hi' rfl), lastWriter_map_of_le r (Nat.le_refl i)]

end Exchange

/-! ## Renumbered programs -/

/-- The second program is the first one under other numbers: with the same
instructions, and the same dependencies. -/
structure Renumbers (n : Nat) (σ : Equiv.Perm Nat) (progTrace progTrace' : Nat → InstInfo) :
    Prop where
  lt_iff : ∀ k, σ k < n ↔ k < n
  inst : ∀ k, progTrace' (σ k) = progTrace k
  src1 : ∀ k, lastWriter progTrace' (progTrace k).src1Idx (σ k) =
    (lastWriter progTrace (progTrace k).src1Idx k).map σ
  src2 : ∀ k, lastWriter progTrace' (progTrace k).src2Idx (σ k) =
    (lastWriter progTrace (progTrace k).src2Idx k).map σ

theorem renumbers_refl (progTrace : Nat → InstInfo) :
    Renumbers n (Equiv.refl Nat) progTrace progTrace where
  lt_iff := fun _ => Iff.rfl
  inst := fun _ => rfl
  src1 := fun _ => by rw [Equiv.refl_apply, Equiv.coe_refl, Option.map_id, id]
  src2 := fun _ => by rw [Equiv.refl_apply, Equiv.coe_refl, Option.map_id, id]

theorem Renumbers.trans {σ τ : Equiv.Perm Nat} {prog₁ prog₂ prog₃ : Nat → InstInfo}
    (h : Renumbers n σ prog₁ prog₂) (h' : Renumbers n τ prog₂ prog₃) :
    Renumbers n (σ.trans τ) prog₁ prog₃ where
  lt_iff := fun k => (h'.lt_iff (σ k)).trans (h.lt_iff k)
  inst := fun k => (h'.inst (σ k)).trans (h.inst k)
  src1 := by
    intro k
    have hsrc := h'.src1 (σ k)
    rw [h.inst, h.src1, Option.map_map] at hsrc
    exact hsrc
  src2 := by
    intro k
    have hsrc := h'.src2 (σ k)
    rw [h.inst, h.src2, Option.map_map] at hsrc
    exact hsrc

theorem renumbers_exchange {progTrace : Nat → InstInfo} {i : Nat} (hi : i + 1 < n)
    (hind : Independent (progTrace i) (progTrace (i + 1))) :
    Renumbers n (Equiv.swap i (i + 1)) progTrace (exchange progTrace i) := by
  obtain ⟨⟨hfst1, hfst2, hne⟩, hsnd1, hsnd2, -⟩ := hind
  refine ⟨?_, exchange_swap progTrace i, ?_, ?_⟩
  · intro k
    rcases Nat.lt_trichotomy k i with hk | rfl | hk
    · rw [swap_of_lt hk]
    · rw [Equiv.swap_apply_left]
      omega
    · rcases Nat.lt_or_ge (i + 1) k with hk | hk
      · rw [swap_of_gt hk]
      · obtain rfl : k = i + 1 := by omega
        rw [Equiv.swap_apply_right]
        omega
  · refine fun k => lastWriter_exchange hne ?_ ?_
    · rintro rfl
      exact hsnd1
    · rintro rfl
      exact hfst1
  · refine fun k => lastWriter_exchange hne ?_ ?_
    · rintro rfl
      exact hsnd2
    · rintro rfl
      exact hfst2

theorem renumbers_of_exchanged {progTrace progTrace' : Nat → InstInfo}
    (h : Relation.ReflTransGen (Exchanged n) progTrace progTrace') :
    ∃ σ, Renumbers n σ progTrace progTrace' := by
  induction h with
  | refl => exact ⟨_, renumbers_refl progTrace⟩
  | tail _ hlast ih =>
      obtain ⟨σ, hσ⟩ := ih
      obtain ⟨i, hi, hind, rfl⟩ := hlast
      exact ⟨_, hσ.trans (renumbers_exchange hi hind)⟩

/-! ## Their graphs -/

namespace Renumbers

variable {σ : Equiv.Perm Nat} {progTrace progTrace' : Nat → InstInfo}
  (h : Renumbers n σ progTrace progTrace')

include h

theorem deps (k : Nat) :
    (graph opsLatency progTrace').deps (σ k) = ((graph opsLatency progTrace).deps k).image σ := by
  ext j
  simp only [Finset.mem_image, mem_deps, h.inst, h.src1, h.src2, Option.map_eq_some_iff]
  constructor
  · rintro (⟨a, ha, rfl⟩ | ⟨a, ha, rfl⟩)
    · exact ⟨a, Or.inl ha, rfl⟩
    · exact ⟨a, Or.inr ha, rfl⟩
  · rintro ⟨a, ha | ha, rfl⟩
    · exact Or.inl ⟨a, ha, rfl⟩
    · exact Or.inr ⟨a, ha, rfl⟩

/-- The same numbers are computed, also where they overflow. -/
theorem intFinish_eq (k : Nat) :
    intFinish opsLatency progTrace' (σ k) = intFinish opsLatency progTrace k ∧
      intStart opsLatency progTrace' (σ k) = intStart opsLatency progTrace k := by
  induction k using Nat.strong_induction_on with
  | _ k ih =>
      have hready : ∀ r : Fin numOfRegs,
          intReady opsLatency progTrace' ((lastWriter progTrace r k).map σ) =
            intReady opsLatency progTrace (lastWriter progTrace r k) := by
        intro r
        cases hw : lastWriter progTrace r k with
        | none => rfl
        | some j => exact (ih j (lastWriter_lt hw)).1
      have hstart : intStart opsLatency progTrace' (σ k) = intStart opsLatency progTrace k := by
        rw [intStart, h.inst, h.src1, h.src2, hready, hready, intStart]
      rw [DataFlow.intFinish_eq, DataFlow.intFinish_eq, h.inst, hstart]
      exact ⟨rfl, rfl⟩

theorem top_iff (e : Nat) :
    (graph opsLatency progTrace').Top n (σ e) ↔ (graph opsLatency progTrace).Top n e := by
  have hmem : ∀ k, σ e ∈ (graph opsLatency progTrace').deps (σ k) ↔
      e ∈ (graph opsLatency progTrace).deps k := by
    intro k
    rw [h.deps, σ.injective.mem_finset_image]
  refine and_congr (h.lt_iff e) ⟨?_, ?_⟩
  · intro htop k hk hmem'
    exact htop (σ k) ((h.lt_iff k).mpr hk) ((hmem k).mpr hmem')
  · intro htop k hk hmem'
    obtain ⟨k, rfl⟩ := σ.surjective k
    exact htop k ((h.lt_iff k).mp hk) ((hmem k).mp hmem')

end Renumbers

/-! ## Their analyses -/

/-- The number of a dependency under the new numbers. -/
def renumber (σ : Equiv.Perm Nat) (dep : Int) : Int := if dep = NONE then NONE else σ dep.toNat

/-- The answers about two programs are the same under the new numbers. -/
structure SameAnalysis (n : Nat) (σ : Equiv.Perm Nat) (ctx ctx' : ProgCtx) : Prop where
  depth : ∀ k < n, getInstDepth ctx' (σ k) = getInstDepth ctx k
  deps : ∀ k < n, getInstDeps ctx' (σ k) = ((getInstDeps ctx k).1,
    (getInstDeps ctx k).2.map fun dep => (renumber σ dep.1, renumber σ dep.2))
  progDepth : getProgDepth ctx' = getProgDepth ctx

theorem source_map (σ : Equiv.Perm Nat) (o : Option Nat) :
    source (o.map σ) = renumber σ (source o) := by
  cases o with
  | none => rfl
  | some j => rw [renumber, if_neg (source_ne_none j), source, Int.toNat_natCast]; rfl

theorem Renumbers.sameAnalysis {σ : Equiv.Perm Nat} {progTrace progTrace' : Nat → InstInfo}
    (h : Renumbers n σ progTrace progTrace') {ctx ctx' : ProgCtx}
    (hctx : Analyzed opsLatency progTrace n ctx) (hctx' : Analyzed opsLatency progTrace' n ctx') :
    SameAnalysis n σ ctx ctx' := by
  refine ⟨?_, ?_, ?_⟩
  · intro k hk
    obtain ⟨hfinish, hstart⟩ : intFinish opsLatency progTrace' (σ k) = _ ∧
        intStart opsLatency progTrace' (σ k) = _ := h.intFinish_eq k
    rw [hctx'.getInstDepth_eq ((h.lt_iff k).mpr hk), hctx.getInstDepth_eq hk, hfinish, hstart]
  · intro k hk
    rw [hctx'.getInstDeps_eq ((h.lt_iff k).mpr hk), hctx.getInstDeps_eq hk, h.inst, h.src1, h.src2,
      source_map, source_map]
    rfl
  · have hends : ∀ d : Int,
        (∃ e, (graph opsLatency progTrace').Top n e ∧ d = intFinish opsLatency progTrace' e) ↔
          ∃ e, (graph opsLatency progTrace).Top n e ∧ d = intFinish opsLatency progTrace e := by
      intro d
      rw [σ.surjective.exists]
      refine exists_congr fun e => ?_
      rw [h.top_iff, (h.intFinish_eq e).1]
    have hgreatest := hctx'.maxDepth
    simp only [hends] at hgreatest
    exact hgreatest.unique hctx.maxDepth

/-- Exchanging two adjacent independent instructions, and any sequence of
such exchanges, renumbers the answers and changes nothing else in them. -/
theorem exchanges_keep_analysis (opsLatency : Fin maxOps → Nat) (progTrace : Nat → InstInfo)
    (hn : n ≤ 2 ^ 31) {fuel : Nat} (hfuel : n < fuel) :
    (∀ i, i + 1 < n → Independent (progTrace i) (progTrace (i + 1)) →
      ∃ ctx ctx', analyzeProg opsLatency progTrace fuel n = some ctx ∧
        analyzeProg opsLatency (exchange progTrace i) fuel n = some ctx' ∧
        SameAnalysis n (Equiv.swap i (i + 1)) ctx ctx') ∧
    ∀ progTrace', Relation.ReflTransGen (Exchanged n) progTrace progTrace' →
      ∃ σ : Equiv.Perm Nat, (∀ k, σ k < n ↔ k < n) ∧ (∀ k, progTrace' (σ k) = progTrace k) ∧
        ∃ ctx ctx', analyzeProg opsLatency progTrace fuel n = some ctx ∧
          analyzeProg opsLatency progTrace' fuel n = some ctx' ∧ SameAnalysis n σ ctx ctx' := by
  have hrun : ∀ prog, ∃ ctx, analyzeProg opsLatency prog fuel n = some ctx ∧
      Analyzed opsLatency prog n ctx := fun _ => analyzeProg_analyzed hn hfuel
  obtain ⟨ctx, hctx, h⟩ := hrun progTrace
  refine ⟨?_, ?_⟩
  · intro i hi hind
    obtain ⟨ctx', hctx', h'⟩ := hrun (exchange progTrace i)
    exact ⟨ctx, ctx', hctx, hctx', (renumbers_exchange hi hind).sameAnalysis h h'⟩
  · intro progTrace' hexchanged
    obtain ⟨σ, hσ⟩ := renumbers_of_exchanged hexchanged
    obtain ⟨ctx', hctx', h'⟩ := hrun progTrace'
    exact ⟨σ, hσ.lt_iff, hσ.inst, ctx, ctx', hctx, hctx', hσ.sameAnalysis h h'⟩

/-- The first two instructions write different registers, the third reads
both. -/
def forkProg (i : Nat) : InstInfo :=
  if i = 0 then ⟨3, 1, 0, 0⟩ else if i = 1 then ⟨5, 2, 0, 0⟩ else ⟨1, 3, 1, 2⟩

theorem exchanges_keep_analysis_forkProg :
    Independent (forkProg 0) (forkProg 1) ∧
    (∀ i, i + 1 < 3 → Independent (forkProg i) (forkProg (i + 1)) →
      ∃ ctx ctx', analyzeProg (fun op => op.val) forkProg 4 3 = some ctx ∧
        analyzeProg (fun op => op.val) (exchange forkProg i) 4 3 = some ctx' ∧
        SameAnalysis 3 (Equiv.swap i (i + 1)) ctx ctx') ∧
    ∀ prog, Relation.ReflTransGen (Exchanged 3) forkProg prog →
      ∃ σ : Equiv.Perm Nat, (∀ k, σ k < 3 ↔ k < 3) ∧ (∀ k, prog (σ k) = forkProg k) ∧
        ∃ ctx ctx', analyzeProg (fun op => op.val) forkProg 4 3 = some ctx ∧
          analyzeProg (fun op => op.val) prog 4 3 = some ctx' ∧ SameAnalysis 3 σ ctx ctx' :=
  ⟨⟨⟨by decide, by decide, by decide⟩, by decide, by decide, by decide⟩,
    exchanges_keep_analysis (fun op => op.val) forkProg (by omega) (by omega)⟩

end DataFlow

end ArchSim
