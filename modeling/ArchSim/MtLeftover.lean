import ArchSim.MtResult
import ArchSim.MtTiming

/-!
# What one simulation leaves to the next

`main` runs the fine-grained core after the blocked one. `CORE_init` sets up
all of a core, but the data array belongs to the memory simulator and is
loaded once, so that the second simulation starts on the words that the
first has left. It is affected only by words that it loads before storing
to them.
-/

namespace ArchSim

namespace MtCore

/-- The two simulations of `main`, on one data array. -/
def simulate (img : Image) (fuel fuel' : Nat) : Option (Core × Core) :=
  (coreBlockedMT img fuel).bind fun blocked =>
    (coreFinegrainedMT (img.withData blocked.data) fuel').map fun finegrained =>
      (blocked, finegrained)

/-- The register files that `main` reports. -/
def Core.registers (s : Core) : Nat → Tcontext := fun t => (s.coreThreads t).regs

/-! ## Words loaded before they are stored -/

namespace Instruction

variable (inst : Instruction) (regs : Tcontext) (img : Image)

/-- The word that the instruction loads. -/
def loaded? : Option Nat :=
  match inst.opcode with
  | .load => word? img (inst.loadAddr regs)
  | _ => none

/-- The word that the instruction stores. -/
def stored? : Option Nat :=
  match inst.opcode with
  | .store => word? img (inst.storeAddr regs)
  | _ => none

variable {inst regs img} {data left : Nat → BitVec 32} {stale : Nat → Prop}

/-- Registers do not see a word that is not loaded. -/
theorem compute_fst_congr (hleft : ∀ w, ¬stale w → left w = data w)
    (hload : ∀ w, inst.loaded? regs img = some w → ¬stale w) :
    (inst.compute regs img left).1 = (inst.compute regs img data).1 := by
  cases hop : inst.opcode with
  | load =>
      simp only [loaded?, hop] at hload
      simp only [compute, hop, simMemDataRead_eq]
      cases hw : word? img (inst.loadAddr regs) with
      | none => rfl
      | some w => simp only [hleft w (hload w hw)]
  | _ => simp only [compute, hop]

/-- A stored word is no longer stale. -/
theorem compute_snd_congr (hleft : ∀ w, ¬stale w → left w = data w) {w : Nat}
    (hw : ¬stale w ∨ inst.stored? regs img = some w) :
    (inst.compute regs img left).2 w = (inst.compute regs img data).2 w := by
  cases hop : inst.opcode with
  | store =>
      simp only [stored?, hop] at hw
      simp only [compute, hop, simMemDataWrite_eq]
      cases hv : word? img (inst.storeAddr regs) with
      | none => exact hleft w (hw.resolve_right fun h => by rw [hv] at h; cases h)
      | some v =>
          by_cases hvw : w = v
          · subst hvw
            simp only [Function.update_self]
          · simp only [Function.update_of_ne hvw]
            refine hleft w (hw.resolve_right fun h => hvw ?_)
            rw [hv] at h
            exact (Option.some.inj h).symm
  | _ =>
      simp only [stored?, hop] at hw
      simp only [compute, hop]
      exact hleft w (hw.resolve_right fun h => (nomatch h))

end Instruction

/-- The instruction that the current thread has come to. -/
def Core.instruction (img : Image) (s : Core) : Instruction :=
  img.instructions s.rrIndex (s.coreThreads s.rrIndex).rip

/-- The word that the next iteration of the loop loads. -/
def Core.loads? (img : Image) (s : Core) : Option Nat :=
  if s.currentReady then (s.instruction img).loaded? (s.registers s.rrIndex) img else none

/-- The word that the next iteration of the loop stores. -/
def Core.stores? (img : Image) (s : Core) : Option Nat :=
  if s.currentReady then (s.instruction img).stored? (s.registers s.rrIndex) img else none

/-- The state of `CORE_FinegrainedMT` after `k` iterations. -/
def finegrainedAt (img : Image) (k : Nat) : Core := (finegrainedStep img)^[k] (coreInit img)

/-- `CORE_FinegrainedMT` loads the word before it has stored to it. -/
def Image.LoadsFirst (img : Image) (w : Nat) : Prop :=
  ∃ k, (∀ j ≤ k, (finegrainedAt img j).running img = true) ∧
    (finegrainedAt img k).loads? img = some w ∧
    ∀ j < k, (finegrainedAt img j).stores? img ≠ some w

/-! ## In step -/

/-- The same core on a data array that may differ in stale words. -/
structure SameBut (stale : Nat → Prop) (s s' : Core) : Prop where
  core : s' = { s with data := s'.data }
  data : ∀ w, ¬stale w → s'.data w = s.data w

namespace SameBut

variable {img : Image} {stale stale' : Nat → Prop} {s s' : Core}

theorem executeInst (h : SameBut stale s s') (hready : s.currentReady = true)
    (hload : ∀ w, s.loads? img = some w → ¬stale w)
    (hstale : ∀ w, ¬stale' w → ¬stale w ∨ s.stores? img = some w) :
    SameBut stale' (executeInst img s) (executeInst img s') := by
  have hregs := Instruction.compute_fst_congr h.data fun w hw =>
    hload w ((if_pos hready).trans hw)
  constructor
  · rw [Core.instruction, Core.registers] at hregs
    rw [h.core]
    simp only [MtCore.executeInst, hregs]
  · intro w hw
    rw [h.core]
    exact Instruction.compute_snd_congr h.data
      ((hstale w hw).imp_right fun hst => (if_pos hready).symm.trans hst)

theorem idle (h : SameBut stale s s') : SameBut stale s.idle s'.idle := by
  refine ⟨?_, h.data⟩
  rw [h.core]
  rfl

theorem nextThread (h : SameBut stale s s') :
    SameBut stale (s.nextThread img) (s'.nextThread img) := by
  refine ⟨?_, h.data⟩
  rw [h.core]
  rfl

/-- One iteration of `CORE_FinegrainedMT`. -/
theorem finegrainedStep (h : SameBut stale s s') (hload : ∀ w, s.loads? img = some w → ¬stale w)
    (hstale : ∀ w, ¬stale' w → ¬stale w ∨ s.stores? img = some w) :
    SameBut stale' (finegrainedStep img s) (finegrainedStep img s') := by
  have hready : s'.currentReady = s.currentReady := by
    rw [h.core]
    rfl
  rw [MtCore.finegrainedStep, MtCore.finegrainedStep, hready]
  refine nextThread ?_
  cases hr : s.currentReady with
  | true =>
      have hexec := h.executeInst hr hload hstale
      refine ⟨?_, hexec.data⟩
      rw [if_pos rfl, if_pos rfl, hexec.core]
  | false =>
      have hidle : SameBut stale' s.idle s'.idle := by
        refine ⟨h.idle.core, fun w hw => h.data w ((hstale w hw).resolve_right ?_)⟩
        rw [Core.stores?, hr]
        rintro ⟨⟩
      have hcount : s'.idle.idleCount = s.idle.idleCount := by rw [hidle.core]
      have hcycle : s'.idle.cycleCount = s.idle.cycleCount := by rw [hidle.core]
      rw [if_neg Bool.false_ne_true, if_neg Bool.false_ne_true]
      dsimp only
      rw [hcount, hcycle]
      split
      · refine ⟨?_, hidle.data⟩
        rw [hidle.core]
      · exact hidle

end SameBut

/-! ## Whole runs -/

/-- The words that are stale after `k` iterations. -/
def Image.staleAt (img : Image) (left : Nat → BitVec 32) (k w : Nat) : Prop :=
  left w ≠ img.data w ∧ ∀ j < k, (finegrainedAt img j).stores? img ≠ some w

theorem finegrainedAt_succ (img : Image) (k : Nat) :
    finegrainedAt img (k + 1) = finegrainedStep img (finegrainedAt img k) :=
  Function.iterate_succ_apply' ..

/-- The two runs after as many iterations, all of which were taken. -/
def InStep (img : Image) (left : Nat → BitVec 32) (s s' : Core) : Prop :=
  ∃ k, s = finegrainedAt img k ∧ (∀ j < k, (finegrainedAt img j).running img = true) ∧
    SameBut (img.staleAt left k) s s'

namespace InStep

variable {img : Image} {left : Nat → BitVec 32} {s s' : Core}

theorem init (img : Image) (left : Nat → BitVec 32) :
    InStep img left (coreInit img) (coreInit (img.withData left)) := by
  refine ⟨0, rfl, fun j hj => absurd hj (Nat.not_lt_zero j), rfl, ?_⟩
  intro w hw
  by_contra hne
  exact hw ⟨hne, fun j hj => absurd hj (Nat.not_lt_zero j)⟩

theorem running (h : InStep img left s s') :
    s.running img = s'.running (img.withData left) := by
  obtain ⟨k, -, -, hs⟩ := h
  rw [hs.core]
  rfl

theorem registers (h : InStep img left s s') : s'.registers = s.registers := by
  obtain ⟨k, -, -, hs⟩ := h
  rw [hs.core]
  rfl

theorem finegrainedStep (hfirst : ∀ w, left w ≠ img.data w → ¬img.LoadsFirst w)
    (h : InStep img left s s') (hrun : s.running img = true) :
    InStep img left (finegrainedStep img s) (finegrainedStep (img.withData left) s') := by
  obtain ⟨k, rfl, hbefore, hs⟩ := h
  have hrunning : ∀ j ≤ k, (finegrainedAt img j).running img = true := by
    intro j hj
    rcases Nat.lt_or_eq_of_le hj with hlt | rfl
    · exact hbefore j hlt
    · exact hrun
  refine ⟨k + 1, (finegrainedAt_succ img k).symm,
    fun j hj => hrunning j (Nat.le_of_lt_succ hj), hs.finegrainedStep ?_ ?_⟩
  · rintro w hload ⟨hne, hstores⟩
    exact hfirst w hne ⟨k, hrunning, hload, hstores⟩
  · intro w hw
    by_cases hstale : img.staleAt left k w
    · -- It has been stale until now, so that this iteration stores it.
      right
      by_contra hst
      refine hw ⟨hstale.1, ?_⟩
      intro j hj
      rcases Nat.lt_succ_iff_lt_or_eq.mp hj with hlt | rfl
      · exact hstale.2 j hlt
      · exact hst
    · exact Or.inl hstale

end InStep

/-- After any number of iterations. -/
theorem InStep.iterate {img : Image} {left : Nat → BitVec 32}
    (hfirst : ∀ w, left w ≠ img.data w → ¬img.LoadsFirst w) : ∀ k,
    (∀ j < k, ((MtCore.finegrainedStep (img.withData left))^[j]
      (coreInit (img.withData left))).running (img.withData left) = true) →
    InStep img left (finegrainedAt img k) ((MtCore.finegrainedStep (img.withData left))^[k]
      (coreInit (img.withData left)))
  | 0, _ => InStep.init img left
  | k + 1, hrun => by
      have h := InStep.iterate hfirst k fun j hj => hrun j (Nat.lt_succ_of_lt hj)
      rw [finegrainedAt_succ, Function.iterate_succ_apply']
      exact h.finegrainedStep hfirst (h.running.trans (hrun k (Nat.lt_succ_self k)))

theorem finegrained_withData (img : Image) {left : Nat → BitVec 32}
    (hfirst : ∀ w, left w ≠ img.data w → ¬img.LoadsFirst w) (fuel : Nat) :
    (coreFinegrainedMT (img.withData left) fuel).map Core.registers =
      (coreFinegrainedMT img fuel).map Core.registers := by
  have hinit := InStep.init img left
  refine (whileLoop_map_eq (R := InStep img left) (fun s s' h => h.running)
    (fun s s' h hrun => h.finegrainedStep hfirst hrun) (fun s s' h => ?_) hinit fuel).symm
  exact h.registers.symm

/-- The second simulation stays within registers and data if it does on the
freshly loaded image. -/
theorem staysInBounds_withData {img : Image} {left : Nat → BitVec 32}
    (hfirst : ∀ w, left w ≠ img.data w → ¬img.LoadsFirst w)
    (hin : img.StaysInBounds (finegrainedStep img)) :
    (img.withData left).StaysInBounds (finegrainedStep (img.withData left)) := by
  intro k hrun
  have h := InStep.iterate hfirst k hrun
  obtain ⟨j, hj, hbefore, hs⟩ := id h
  rw [hs.core]
  show (finegrainedAt img k).inBounds = true
  refine hin k fun i hi => ?_
  exact (InStep.iterate hfirst i fun j hj => hrun j (Nat.lt_trans hj hi)).running.trans
    (hrun i hi)

/-! ## Images in the accepted format -/

/-- Every thread has a HALT, and each of the two simulations names registers
that there are and accesses words of the data array only. -/
structure Image.Accepted (img : Image) (h : Nat → Nat) : Prop where
  halts : img.HaltsAt h
  blocked : img.StaysInBounds (blockedStep img)
  finegrained : img.StaysInBounds (finegrainedStep img)

/-- What the blocked simulation leaves in the data array reaches the
registers of the fine-grained one only through words that this loads before
it has stored to them: without such words `main` reports what
`CORE_FinegrainedMT` computes on the freshly loaded image, and neither of its
simulations leaves registers or data. -/
theorem finegrained_after_blocked (img : Image) {h : Nat → Nat} (hacc : img.Accepted h)
    {fuel : Nat} {b : Core} (hb : coreBlockedMT img fuel = some b)
    (hfirst : ∀ w, b.data w ≠ img.data w → ¬img.LoadsFirst w) :
    b.inBounds = true ∧
      (img.withData b.data).StaysInBounds (finegrainedStep (img.withData b.data)) ∧
      ∀ fuel', (simulate img fuel fuel').map (fun r => r.2.registers) =
        (coreFinegrainedMT img fuel').map Core.registers := by
  refine ⟨?_, staysInBounds_withData hfirst hacc.finegrained, fun fuel' => ?_⟩
  · obtain ⟨k, -, rfl, hrun, -⟩ := whileLoop_eq_some_iff.mp hb
    exact hacc.blocked k hrun
  · rw [← finegrained_withData img hfirst fuel', simulate, hb, Option.bind_some, Option.map_map]
    rfl

/-- One thread that adds 1 to the first data word. -/
def bumpImage : Image where
  threadnumber := 1
  loadLatency := 2
  storeLatency := 1
  switchCycles := 1
  instructions := fun _ i =>
    match i with
    | 0 => ⟨.load, 1, 0, 0, true⟩
    | 1 => ⟨.addi, 1, 1, 1, true⟩
    | 2 => ⟨.store, 0, 1, 0, true⟩
    | _ => ⟨.halt, 0, 0, 0, false⟩
  dataStart := 0
  data := fun _ => 0

theorem bumpImage_accepted : bumpImage.Accepted fun _ => 3 := by
  refine ⟨by decide, Image.staysInBounds_of_ends (n := 7) rfl ?_,
    Image.staysInBounds_of_ends (n := 7) rfl ?_⟩
  · decide
  · decide

/-- After the blocked simulation the word is 1 and not 0, and the
fine-grained one adds to that. -/
theorem finegrained_after_blocked_bumpImage :
    bumpImage.Accepted (fun _ => 3) ∧
      (coreFinegrainedMT bumpImage 20).map (fun f => f.registers 0 1) = some 1 ∧
      (simulate bumpImage 20 20).map (fun r => r.2.registers 0 1) = some 2 :=
  ⟨bumpImage_accepted, rfl, rfl⟩

/-- One thread that stores a word and loads it again. -/
def storeImage : Image where
  threadnumber := 1
  loadLatency := 2
  storeLatency := 1
  switchCycles := 1
  instructions := fun _ i =>
    match i with
    | 0 => ⟨.addi, 1, 1, 5, true⟩
    | 1 => ⟨.store, 0, 1, 0, true⟩
    | 2 => ⟨.load, 2, 0, 0, true⟩
    | _ => ⟨.halt, 0, 0, 0, false⟩
  dataStart := 0
  data := fun _ => 0

theorem storeImage_accepted : storeImage.Accepted fun _ => 3 := by
  refine ⟨by decide, Image.staysInBounds_of_ends (n := 7) rfl ?_,
    Image.staysInBounds_of_ends (n := 7) rfl ?_⟩
  · decide
  · decide

theorem finegrained_after_blocked_storeImage :
    storeImage.Accepted (fun _ => 3) ∧ ∃ b, coreBlockedMT storeImage 20 = some b ∧
      b.inBounds = true ∧ (simulate storeImage 20 20).map (fun r => r.2.registers) =
        (coreFinegrainedMT storeImage 20).map Core.registers := by
  have hleft : (coreBlockedMT storeImage 20).map Core.data =
      some (Function.update storeImage.data 0 5) := rfl
  obtain ⟨b, hb, hdata⟩ := Option.map_eq_some_iff.mp hleft
  have hfirst : ∀ w, b.data w ≠ storeImage.data w → ¬storeImage.LoadsFirst w := by
    rintro w hne ⟨k, -, hload, hstores⟩
    obtain rfl : w = 0 := by
      by_contra hw
      rw [hdata, Function.update_of_ne hw] at hne
      exact hne rfl
    -- Iteration 1 stores the word, and no earlier one loads it.
    rcases Nat.lt_or_ge 1 k with hlt | hle
    · exact hstores 1 hlt rfl
    · have hnone : ∀ k ≤ 1, (finegrainedAt storeImage k).loads? storeImage ≠ some 0 := by decide
      exact hnone k hle hload
  obtain ⟨hin, -, hsame⟩ := finegrained_after_blocked storeImage storeImage_accepted hb hfirst
  exact ⟨storeImage_accepted, b, hb, hin, hsame 20⟩

end MtCore

end ArchSim
