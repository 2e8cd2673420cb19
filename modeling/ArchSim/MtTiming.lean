import ArchSim.MtSchedule

/-!
# Timing does not depend on data

Two cores whose programs have the same opcodes and whose parameters agree
stay in step: the same thread issues the same line at the same cycle
(`SameTiming`), whatever registers and memory hold.
-/

namespace ArchSim

namespace MtCore

variable {img₁ img₂ : Image} {h : Nat → Nat} {s₁ s₂ : Core}

/-- The image with the data array as an earlier simulation has left it. -/
def Image.withData (img : Image) (left : Nat → BitVec 32) : Image := { img with data := left }

/-- Number of cycles for one instruction, not yet rounded to a `double`. -/
def Core.cpi (s : Core) : Rat := s.cycleCount / s.instCount

/-- Parameters and opcodes agree, the latter up to the HALTs. -/
structure SameOpcodes (img₁ img₂ : Image) (h : Nat → Nat) : Prop where
  threadnumber : img₂.threadnumber = img₁.threadnumber
  loadLatency : img₂.loadLatency = img₁.loadLatency
  storeLatency : img₂.storeLatency = img₁.storeLatency
  switchCycles : img₂.switchCycles = img₁.switchCycles
  opcode : ∀ t < img₁.threadnumber, ∀ i ≤ h t,
    (img₂.instructions t i).opcode = (img₁.instructions t i).opcode

/-- Everything but registers and data agrees. -/
structure SameTiming (s₁ s₂ : Core) : Prop where
  cycleCount : s₂.cycleCount = s₁.cycleCount
  instCount : s₂.instCount = s₁.instCount
  rrIndex : s₂.rrIndex = s₁.rrIndex
  rip : ∀ t, (s₂.coreThreads t).rip = (s₁.coreThreads t).rip
  returnCycle : ∀ t, (s₂.coreThreads t).returnCycle = (s₁.coreThreads t).returnCycle
  haltCount : s₂.haltCount = s₁.haltCount
  idleCount : s₂.idleCount = s₁.idleCount
  log : s₂.log = s₁.log

theorem SameTiming.init (img₁ img₂ : Image) : SameTiming (coreInit img₁) (coreInit img₂) :=
  ⟨rfl, rfl, rfl, fun _ => rfl, fun _ => rfl, rfl, rfl, rfl⟩

theorem returnAfter_congr (hp : SameOpcodes img₁ img₂ h) (cycle old : Nat) (op : CmdOpcode) :
    returnAfter img₂ cycle old op = returnAfter img₁ cycle old op := by
  cases op with
  | load => rw [returnAfter, returnAfter, hp.loadLatency]
  | store => rw [returnAfter, returnAfter, hp.storeLatency]
  | _ => rfl

namespace SameTiming

theorem currentReady (hs : SameTiming s₁ s₂) : s₂.currentReady = s₁.currentReady := by
  rw [Core.currentReady, Core.currentReady, hs.rrIndex, hs.returnCycle, hs.cycleCount]

theorem running (hp : SameOpcodes img₁ img₂ h) (hs : SameTiming s₁ s₂) :
    Core.running img₁ s₁ = Core.running img₂ s₂ := by
  rw [Core.running, Core.running, hs.haltCount, hp.threadnumber]

/-- Both cores execute the same opcode, on whatever operands. -/
theorem executeInst (hp : SameOpcodes img₁ img₂ h) (hs : SameTiming s₁ s₂)
    (hrr : s₁.rrIndex < img₁.threadnumber) (hle : (s₁.coreThreads s₁.rrIndex).rip ≤ h s₁.rrIndex) :
    SameTiming (executeInst img₁ s₁) (executeInst img₂ s₂) := by
  have hop := hp.opcode s₁.rrIndex hrr _ hle
  refine ⟨?_, ?_, hs.rrIndex, ?_, ?_, ?_, ?_, ?_⟩
  · simp only [MtCore.executeInst, hs.cycleCount]
  · simp only [MtCore.executeInst, hs.instCount]
  · intro t
    simp only [MtCore.executeInst, hs.rrIndex]
    by_cases ht : t = s₁.rrIndex
    · rw [ht, Function.update_self, Function.update_self, hs.rip]
    · rw [Function.update_of_ne ht, Function.update_of_ne ht, hs.rip]
  · intro t
    simp only [MtCore.executeInst, hs.rrIndex, hs.rip, hop, hs.cycleCount, hs.returnCycle]
    by_cases ht : t = s₁.rrIndex
    · rw [ht, Function.update_self, Function.update_self]
      exact returnAfter_congr hp _ _ _
    · rw [Function.update_of_ne ht, Function.update_of_ne ht, hs.returnCycle]
  · simp only [MtCore.executeInst, hs.rrIndex, hs.rip, hop, hs.haltCount]
  · simp only [MtCore.executeInst, hs.rrIndex, hs.rip, hop]
  · simp only [MtCore.executeInst, hs.rrIndex, hs.rip, hop, hs.log, hs.cycleCount]

/-- Time passes, and polls are counted, in both cores. -/
theorem wait (hs : SameTiming s₁ s₂) {c₁ c₂ i₁ i₂ : Nat} (hc : c₂ = c₁) (hi : i₂ = i₁) :
    SameTiming { s₁ with cycleCount := c₁, idleCount := i₁ }
      { s₂ with cycleCount := c₂, idleCount := i₂ } :=
  ⟨hc, hs.instCount, hs.rrIndex, hs.rip, hs.returnCycle, hs.haltCount, hi, hs.log⟩

theorem idle (hs : SameTiming s₁ s₂) : SameTiming s₁.idle s₂.idle :=
  hs.wait hs.cycleCount (congrArg (· + 1) hs.idleCount)

theorem nextThread (hp : SameOpcodes img₁ img₂ h) (hs : SameTiming s₁ s₂) :
    SameTiming (s₁.nextThread img₁) (s₂.nextThread img₂) :=
  ⟨hs.cycleCount, hs.instCount, by simp only [Core.nextThread, hs.rrIndex, hp.threadnumber],
    hs.rip, hs.returnCycle, hs.haltCount, hs.idleCount, hs.log⟩

theorem scan (hp : SameOpcodes img₁ img₂ h) : ∀ (k : Nat) {s₁ s₂ : Core}, SameTiming s₁ s₂ →
    SameTiming (scan img₁ k s₁) (scan img₂ k s₂)
  | 0, _, _, hs => hs
  | k + 1, s₁, s₂, hs => by
      have hnext := hs.nextThread hp
      rw [MtCore.scan, MtCore.scan, hnext.currentReady]
      by_cases hready : (s₁.nextThread img₁).currentReady = true
      · rw [if_pos hready, if_pos hready]
        refine hnext.wait ?_ hnext.idleCount
        rw [hnext.cycleCount, hp.switchCycles]
      · rw [if_neg hready, if_neg hready]
        exact scan hp k hnext.idle

/-- One iteration of `CORE_BlockedMT`. -/
theorem blockedStep (hp : SameOpcodes img₁ img₂ h) (hs : SameTiming s₁ s₂)
    (hrr : s₁.rrIndex < img₁.threadnumber)
    (hle : s₁.currentReady = true → (s₁.coreThreads s₁.rrIndex).rip ≤ h s₁.rrIndex) :
    SameTiming (blockedStep img₁ s₁) (blockedStep img₂ s₂) := by
  rw [MtCore.blockedStep, MtCore.blockedStep, hs.currentReady]
  by_cases hready : s₁.currentReady = true
  · rw [if_pos hready, if_pos hready]
    exact hs.executeInst hp hrr (hle hready)
  · rw [if_neg hready, if_neg hready, hp.threadnumber]
    have hwait := hs.wait hs.cycleCount (Eq.refl 0)
    have hscan := hwait.scan hp img₁.threadnumber
    dsimp only at hscan ⊢
    rw [hscan.idleCount]
    split
    · refine hscan.wait ?_ rfl
      rw [hscan.cycleCount]
    · exact hscan

/-- One iteration of `CORE_FinegrainedMT`. -/
theorem finegrainedStep (hp : SameOpcodes img₁ img₂ h) (hs : SameTiming s₁ s₂)
    (hrr : s₁.rrIndex < img₁.threadnumber)
    (hle : s₁.currentReady = true → (s₁.coreThreads s₁.rrIndex).rip ≤ h s₁.rrIndex) :
    SameTiming (finegrainedStep img₁ s₁) (finegrainedStep img₂ s₂) := by
  rw [MtCore.finegrainedStep, MtCore.finegrainedStep, hs.currentReady]
  refine nextThread hp ?_
  by_cases hready : s₁.currentReady = true
  · rw [if_pos hready, if_pos hready]
    have hexec := hs.executeInst hp hrr (hle hready)
    exact hexec.wait hexec.cycleCount rfl
  · rw [if_neg hready, if_neg hready, hp.threadnumber]
    dsimp only
    rw [hs.idle.idleCount]
    split
    · refine hs.idle.wait ?_ rfl
      rw [hs.idle.cycleCount]
    · exact hs.idle

end SameTiming

/-! ## Whole runs -/

/-- An available thread has its HALT before it. -/
theorem Sched.rip_le {img : Image} {step : Nat} {s : Core} (hh : img.HaltsAt h)
    (hs : Sched img h step s) (hc : s.cycleCount < uint32Max) (hready : s.currentReady = true) :
    (s.coreThreads s.rrIndex).rip ≤ h s.rrIndex := by
  rw [hs.tracks.rip]
  exact (hs.ok.follows.running_iff hh hs.rr_lt).mp ((hs.currentReady_iff hh hc).mp hready).running

theorem blocked_lockstep (hp : SameOpcodes img₁ img₂ h) (hh : img₁.HaltsAt h)
    (hbound : img₁.blockedSpan * img₁.total h < uint32Max) {fuel : Nat}
    (hrun : coreBlockedMT img₁ fuel = some s₁) (hn : 0 < img₁.threadnumber) :
    ∃ s₂, coreBlockedMT img₂ fuel = some s₂ ∧ SameTiming s₁ s₂ := by
  have hstep : ∀ s t, Blocked img₁ h s ∧ SameTiming s t → Core.running img₁ s = true →
      Blocked img₁ h (blockedStep img₁ s) ∧
        SameTiming (blockedStep img₁ s) (blockedStep img₂ t) := by
    rintro s t ⟨hs, hst⟩ hcond
    have hlt := of_decide_eq_true hcond
    exact ⟨(hs.blockedStep hh hbound hcond).1, hst.blockedStep hp hs.sched.rr_lt
      (hs.sched.rip_le hh (hs.cycle_lt hh hbound hlt))⟩
  obtain ⟨s₂, hrun₂, -, hst⟩ := whileLoop_lockstep (fun s t hst => hst.2.running hp) hstep
    ⟨Blocked.init hn h, SameTiming.init img₁ img₂⟩ hrun
  exact ⟨s₂, hrun₂, hst⟩

theorem finegrained_lockstep (hp : SameOpcodes img₁ img₂ h) (hh : img₁.HaltsAt h)
    (hbound : (1 + img₁.maxLatency) * img₁.total h < uint32Max) {fuel : Nat}
    (hrun : coreFinegrainedMT img₁ fuel = some s₁) (hn : 0 < img₁.threadnumber) :
    ∃ s₂, coreFinegrainedMT img₂ fuel = some s₂ ∧ SameTiming s₁ s₂ := by
  have hstep : ∀ s t, Fine img₁ h s ∧ SameTiming s t → Core.running img₁ s = true →
      Fine img₁ h (finegrainedStep img₁ s) ∧
        SameTiming (finegrainedStep img₁ s) (finegrainedStep img₂ t) := by
    rintro s t ⟨hs, hst⟩ hcond
    have hlt := of_decide_eq_true hcond
    exact ⟨(hs.finegrainedStep hh hbound hcond).1, hst.finegrainedStep hp hs.sched.rr_lt
      (hs.sched.rip_le hh (hs.cycle_lt hh hbound hlt))⟩
  obtain ⟨s₂, hrun₂, -, hst⟩ := whileLoop_lockstep (fun s t hst => hst.2.running hp) hstep
    ⟨Fine.init hn h, SameTiming.init img₁ img₂⟩ hrun
  exact ⟨s₂, hrun₂, hst⟩

/-- What can be told from the outside apart from registers and memory: the
thread, line and cycle of every instruction, and the counts. -/
structure TimedAlike (s₁ s₂ : Core) : Prop where
  log : s₂.log = s₁.log
  cycleCount : s₂.cycleCount = s₁.cycleCount
  instCount : s₂.instCount = s₁.instCount
  cpi : s₂.cpi = s₁.cpi

theorem SameTiming.timedAlike (hs : SameTiming s₁ s₂) : TimedAlike s₁ s₂ :=
  ⟨hs.log, hs.cycleCount, hs.instCount, by rw [Core.cpi, Core.cpi, hs.cycleCount, hs.instCount]⟩

/-- Timing does not depend on operands, immediates, data words or what an
earlier simulation has left in memory. -/
theorem timing_independent_of_data (img₁ img₂ : Image) (h : Nat → Nat)
    (hp : SameOpcodes img₁ img₂ h) (hh : img₁.HaltsAt h)
    (hbound : (1 + max img₁.loadLatency img₁.storeLatency + img₁.switchCycles) *
      ∑ t ∈ Finset.range img₁.threadnumber, (h t + 1) < 2 ^ 32 - 1)
    (left₁ left₂ : Nat → BitVec 32) :
    (∃ fuel b₁ b₂, coreBlockedMT (img₁.withData left₁) fuel = some b₁ ∧
      coreBlockedMT (img₂.withData left₂) fuel = some b₂ ∧ TimedAlike b₁ b₂) ∧
    ∃ fuel f₁ f₂, coreFinegrainedMT (img₁.withData left₁) fuel = some f₁ ∧
      coreFinegrainedMT (img₂.withData left₂) fuel = some f₂ ∧ TimedAlike f₁ f₂ := by
  have hp' : SameOpcodes (img₁.withData left₁) (img₂.withData left₂) h :=
    ⟨hp.threadnumber, hp.loadLatency, hp.storeLatency, hp.switchCycles, hp.opcode⟩
  have hh' : (img₁.withData left₁).HaltsAt h := hh
  rcases Nat.eq_zero_or_pos img₁.threadnumber with hzero | hn
  · -- Without threads neither loop does anything.
    have hstop : Core.running (img₁.withData left₁) (coreInit (img₁.withData left₁)) = false := by
      simp [Core.running, Image.withData, hzero]
    have hinit := SameTiming.init (img₁.withData left₁) (img₂.withData left₂)
    have hstop' := hstop
    rw [hinit.running hp'] at hstop'
    refine ⟨⟨0, _, _, ?_, ?_, hinit.timedAlike⟩, ⟨0, _, _, ?_, ?_, hinit.timedAlike⟩⟩
    · simp [coreBlockedMT, whileLoop, hstop]
    · simp [coreBlockedMT, whileLoop, hstop']
    · simp [coreFinegrainedMT, whileLoop, hstop]
    · simp [coreFinegrainedMT, whileLoop, hstop']
  · have hfine : (1 + (img₁.withData left₁).maxLatency) * (img₁.withData left₁).total h <
        uint32Max :=
      Nat.lt_of_le_of_lt (Nat.mul_le_mul_right _ (Nat.le_add_right ..)) hbound
    have hn' : 0 < (img₁.withData left₁).threadnumber := hn
    obtain ⟨fuel, b₁, hb₁, -⟩ := Blocked.run hn' hh' hbound
    obtain ⟨fuel', f₁, hf₁, -⟩ := Fine.run hn' hh' hfine
    obtain ⟨b₂, hb₂, hb⟩ := blocked_lockstep hp' hh' hbound hb₁ hn'
    obtain ⟨f₂, hf₂, hf⟩ := finegrained_lockstep hp' hh' hfine hf₁ hn'
    exact ⟨⟨fuel, b₁, b₂, hb₁, hb₂, hb.timedAlike⟩, ⟨fuel', f₁, f₂, hf₁, hf₂, hf.timedAlike⟩⟩

/-- One thread that loads a word and adds to it. -/
def loadImage (imm : BitVec 32) : Image where
  threadnumber := 1
  loadLatency := 3
  storeLatency := 1
  switchCycles := 2
  instructions := fun _ i =>
    match i with
    | 0 => ⟨.load, 1, 0, imm, true⟩
    | 1 => ⟨.addi, 1, 1, imm, true⟩
    | _ => ⟨.halt, 0, 0, 0, false⟩
  dataStart := 0
  data := fun _ => 0

theorem timing_independent_of_data_loadImage :
    (∃ fuel b₁ b₂, coreBlockedMT ((loadImage 4).withData fun _ => 0) fuel = some b₁ ∧
      coreBlockedMT ((loadImage 8).withData fun _ => 7) fuel = some b₂ ∧ TimedAlike b₁ b₂) ∧
    ∃ fuel f₁ f₂, coreFinegrainedMT ((loadImage 4).withData fun _ => 0) fuel = some f₁ ∧
      coreFinegrainedMT ((loadImage 8).withData fun _ => 7) fuel = some f₂ ∧ TimedAlike f₁ f₂ :=
  timing_independent_of_data (loadImage 4) (loadImage 8) (fun _ => 2)
    ⟨rfl, rfl, rfl, rfl, by decide⟩ (by decide) (by decide) _ _

end MtCore

end ArchSim
