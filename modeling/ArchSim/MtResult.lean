import ArchSim.Interleave
import ArchSim.MtOrder

/-!
# What the threads compute

The registers and the data array of a core are those of the interleaving
that its log describes. Threads that do not interfere therefore compute
under both cores what they compute alone.
-/

namespace ArchSim

namespace MtCore

variable {img : Image} {h : Nat → Nat} {step : Nat}

/-! ## A thread alone -/

/-- Registers and data after the first `k` instructions of thread `t`
when it is run alone. -/
def runAlone (img : Image) (t : Nat) : Nat → Tcontext × (Nat → BitVec 32)
  | 0 => (fun _ => 0, img.data)
  | k + 1 => (img.instructions t k).compute (runAlone img t k).1 img (runAlone img t k).2

/-- The word that instruction `k` of thread `t` alone stores. -/
def storedWord? (img : Image) (t k : Nat) : Option Nat :=
  match (img.instructions t k).opcode with
  | .store => word? img ((img.instructions t k).storeAddr (runAlone img t k).1)
  | _ => none

/-- The word that instruction `k` of thread `t` alone loads or stores. -/
def touchedWord? (img : Image) (t k : Nat) : Option Nat :=
  match (img.instructions t k).opcode with
  | .load => word? img ((img.instructions t k).loadAddr (runAlone img t k).1)
  | .store => word? img ((img.instructions t k).storeAddr (runAlone img t k).1)
  | _ => none

/-- No word stored by thread `t` alone is loaded or stored by `u` alone. -/
def Image.Separate (img : Image) (h : Nat → Nat) (t u : Nat) : Prop :=
  ∀ i ≤ h t, ∀ j ≤ h u, (storedWord? img t i).isSome → touchedWord? img u j ≠ storedWord? img t i

def Image.NonInterfering (img : Image) (h : Nat → Nat) : Prop :=
  ∀ t < img.threadnumber, ∀ u < img.threadnumber, t ≠ u → img.Separate h t u

/-- Every thread alone names existing registers and accesses words of the
data array only. -/
def Image.InBounds (img : Image) (h : Nat → Nat) : Prop :=
  ∀ t < img.threadnumber, ∀ k ≤ h t,
    (img.instructions t k).regsOk = true ∧
      (img.instructions t k).addrOk (runAlone img t k).1 img = true

/-! ## Threads as agents -/

/-- The next action of thread `t` in line `rip` with registers `regs`. -/
def access (img : Image) (t : Nat) :
    Nat × Tcontext → Access Nat (BitVec 32) (Nat × Tcontext)
  | (rip, regs) =>
      let inst := img.instructions t rip
      match inst.opcode with
      | .load =>
          match word? img (inst.loadAddr regs) with
          | some w => .load w fun v => (rip + 1, regs.set inst.dstIndex v)
          | none => .pass (rip + 1, regs.set inst.dstIndex 0)
      | .store =>
          match word? img (inst.storeAddr regs) with
          | some w => .store w (regs.get inst.src1Index) (rip + 1, regs)
          | none => .pass (rip + 1, regs)
      | _ => .pass (rip + 1, (inst.compute regs img img.data).1)

/-- An action has the effect of its instruction. -/
theorem perform_access (img : Image) (t rip : Nat) (regs : Tcontext) (data : Nat → BitVec 32) :
    (access img t (rip, regs)).perform data =
      ((rip + 1, ((img.instructions t rip).compute regs img data).1),
        ((img.instructions t rip).compute regs img data).2) := by
  unfold access Instruction.compute
  simp only [simMemDataRead_eq, simMemDataWrite_eq]
  cases (img.instructions t rip).opcode <;> dsimp only [Access.perform]
  · cases word? img ((img.instructions t rip).loadAddr regs) <;> rfl
  · cases word? img ((img.instructions t rip).storeAddr regs) <;> rfl

abbrev start : Nat → Nat × Tcontext := fun _ => (0, fun _ => 0)

theorem alone_access (img : Image) (t : Nat) : ∀ k,
    alone (access img) start img.data t k = ((k, (runAlone img t k).1), (runAlone img t k).2)
  | 0 => rfl
  | k + 1 => by
      rw [alone, alone_access img t k]
      exact perform_access img t k _ _

theorem action_access (img : Image) (t k : Nat) :
    action (access img) start img.data t k = access img t (k, (runAlone img t k).1) := by
  rw [action, alone_access]

/-- What an action touches is what its instruction loads or stores. -/
theorem touches_action {t k w : Nat}
    (ht : (action (access img) start img.data t k).Touches w) :
    touchedWord? img t k = some w := by
  rw [action_access] at ht
  unfold access at ht
  unfold touchedWord?
  dsimp only at ht
  cases hop : (img.instructions t k).opcode <;> simp only [hop] at ht ⊢ <;>
    first | exact ht.elim | skip
  all_goals
    split at ht
    · rename_i w' hw
      exact hw.trans (congrArg some ht)
    · exact ht.elim

theorem stores_action {t k w : Nat}
    (hs : (action (access img) start img.data t k).Stores w) :
    storedWord? img t k = some w := by
  rw [action_access] at hs
  unfold access at hs
  unfold storedWord?
  dsimp only at hs
  cases hop : (img.instructions t k).opcode <;> simp only [hop] at hs ⊢ <;>
    first | exact hs.elim | skip
  all_goals
    split at hs
    · rename_i w' hw
      first | exact hw.trans (congrArg some hs) | exact hs.elim
    · exact hs.elim

/-- How many steps of each agent matter. -/
def Image.steps (img : Image) (h : Nat → Nat) (t : Nat) : Nat :=
  if t < img.threadnumber then h t + 1 else 0

theorem Image.lt_steps {t k : Nat} :
    k < img.steps h t ↔ t < img.threadnumber ∧ k ≤ h t := by
  unfold Image.steps
  split <;> omega

theorem Image.NonInterfering.agents (hind : img.NonInterfering h) :
    ArchSim.NonInterfering (access img) start img.data (img.steps h) := by
  intro t u hne i hi j hj w hs htouch
  obtain ⟨ht, hi⟩ := Image.lt_steps.mp hi
  obtain ⟨hu, hj⟩ := Image.lt_steps.mp hj
  have hstored := stores_action hs
  exact hind t ht u hu hne i hi j hj (by rw [hstored]; rfl)
    ((touches_action htouch).trans hstored.symm)

/-- The schedule of a log. -/
def schedule (log : List Issue) : List Nat := log.map (·.thread)

theorem count_schedule (log : List Issue) (t : Nat) : (schedule log).count t = issued log t := by
  rw [schedule, List.count, List.countP_map, issued]
  rfl

theorem Follows.count_le {log : List Issue} (hf : Follows img h log) (t : Nat) :
    (schedule log).count t ≤ img.steps h t := by
  rw [count_schedule]
  unfold Image.steps
  split
  · exact hf.issued_le t
  · rename_i ht
    refine Nat.le_of_eq (List.countP_eq_zero.mpr ?_)
    intro e he
    have := (hf.program e he).1
    simp only [decide_eq_true_eq]
    omega

/-! ## The cores interleave -/

/-- The threads and the data array are as the interleaving of the log
leaves them, and no access has been out of bounds. -/
structure Computes (img : Image) (s : Core) : Prop where
  threads : ∀ t, ((s.coreThreads t).rip, (s.coreThreads t).regs) =
    (interleave (access img) start img.data (schedule s.log)).1 t
  data : s.data = (interleave (access img) start img.data (schedule s.log)).2
  inBounds : s.inBounds = true

theorem Computes.init (img : Image) : Computes img (coreInit img) := ⟨fun _ => rfl, rfl, rfl⟩

/-- A running thread has the registers it would have alone. -/
theorem Computes.regs_eq (hind : img.NonInterfering h) {s : Core} (hc : Computes img s)
    (hf : Follows img h s.log) (t : Nat) :
    (s.coreThreads t).rip = issued s.log t ∧
      (s.coreThreads t).regs = (runAlone img t (issued s.log t)).1 := by
  have hlocal := (interleaved_interleave hind.agents hf.count_le).locals t
  rw [← hc.threads, alone_access, count_schedule] at hlocal
  exact Prod.mk.inj hlocal

theorem Computes.executeInst (hh : img.HaltsAt h) (hin : img.InBounds h)
    (hind : img.NonInterfering h) {s : Core} (hc : Computes img s) (hs : Sched img h step s)
    (hav : Available img s.log s.rrIndex s.cycleCount) (hlen : s.log.length < uint32Max) :
    Computes img (executeInst img s) := by
  obtain ⟨hrip, hregs⟩ := hc.regs_eq hind hs.ok.follows s.rrIndex
  have hle := (hs.ok.follows.running_iff hh hs.rr_lt).mp hav.running
  have hwrap : wrap ((s.coreThreads s.rrIndex).rip + 1) = (s.coreThreads s.rrIndex).rip + 1 := by
    have := issued_le_length s.log s.rrIndex
    exact wrap_of_le (by omega)
  have hstep := perform_access img s.rrIndex (s.coreThreads s.rrIndex).rip
    (s.coreThreads s.rrIndex).regs s.data
  have hlast : interleave (access img) start img.data (schedule (MtCore.executeInst img s).log) =
      (Function.update (interleave (access img) start img.data (schedule s.log)).1 s.rrIndex
        ((access img s.rrIndex ((s.coreThreads s.rrIndex).rip,
          (s.coreThreads s.rrIndex).regs)).perform s.data).1,
        ((access img s.rrIndex ((s.coreThreads s.rrIndex).rip,
          (s.coreThreads s.rrIndex).regs)).perform s.data).2) := by
    rw [hc.threads, hc.data]
    rfl
  rw [hstep] at hlast
  refine ⟨?_, ?_, ?_⟩
  · intro t
    rw [hlast]
    rcases eq_or_ne t s.rrIndex with rfl | hne
    · simp only [MtCore.executeInst, Function.update_self, hwrap]
    · simp only [MtCore.executeInst, Function.update_of_ne hne]
      exact hc.threads t
  · rw [hlast]
    rfl
  · obtain ⟨hr, ha⟩ := hin s.rrIndex hs.rr_lt _ hle
    simp only [MtCore.executeInst, hc.inBounds, hrip, hregs, hr, ha, Bool.true_and]

theorem Computes.wait {s s' : Core} (hc : Computes img s)
    (hthreads : s'.coreThreads = s.coreThreads) (hdata : s'.data = s.data)
    (hin : s'.inBounds = s.inBounds) (hlog : s'.log = s.log) : Computes img s' :=
  ⟨by rw [hthreads, hlog]; exact hc.threads, by rw [hdata, hlog]; exact hc.data,
    hin.trans hc.inBounds⟩

theorem Fine.computes (hh : img.HaltsAt h) (hin : img.InBounds h) (hind : img.NonInterfering h)
    (hbound : (1 + img.maxLatency) * img.total h < uint32Max) {s : Core} (hs : Fine img h s)
    (hc : Computes img s) (hrun : s.haltCount < img.threadnumber) :
    Computes img (MtCore.finegrainedStep img s) := by
  have hready := hs.sched.currentReady_iff hh (hs.cycle_lt hh hbound hrun)
  have hlen : s.log.length < uint32Max := by
    rw [hs.sched.tracks.haltCount] at hrun
    exact Nat.lt_trans (hs.sched.ok.length_lt hh (by omega) hrun) hbound
  unfold MtCore.finegrainedStep
  cases hr : s.currentReady with
  | true =>
      exact (hc.executeInst hh hin hind hs.sched (hready.mp hr) hlen).wait rfl rfl rfl rfl
  | false =>
      simp only [Bool.false_eq_true, if_false]
      split
      · exact hc.wait rfl rfl rfl rfl
      · exact hc.wait rfl rfl rfl rfl

theorem Blocked.computes (hh : img.HaltsAt h) (hin : img.InBounds h)
    (hind : img.NonInterfering h) (hbound : img.blockedSpan * img.total h < uint32Max)
    {s : Core} (hs : Blocked img h s) (hc : Computes img s)
    (hrun : s.haltCount < img.threadnumber) : Computes img (MtCore.blockedStep img s) := by
  obtain ⟨hle, hle'⟩ := hs.cycle_le hh hrun
  have hrun' := hrun
  rw [hs.sched.tracks.haltCount] at hrun'
  obtain ⟨-, hroom, hroom'⟩ := hs.sched.ok.room hh hrun'
  have hready := hs.sched.currentReady_iff hh (hs.cycle_lt hh hbound hrun)
  have hlen : s.log.length < uint32Max := Nat.lt_trans
    (hs.sched.ok.length_lt hh (by unfold Image.blockedSpan; omega) hrun') hbound
  cases hr : s.currentReady with
  | true =>
      rw [MtCore.blockedStep, if_pos hr]
      exact hc.executeInst hh hin hind hs.sched (hready.mp hr) hlen
  | false =>
      have hlt := hle' fun hav => by
        rw [hready.mpr hav] at hr
        cases hr
      obtain ⟨r, i, c, heq, -⟩ :=
        hs.blockedStep_of_not_ready hh (by unfold Image.blockedSpan at *; omega) hr
      rw [heq]
      exact hc.wait rfl rfl rfl rfl

/-- The registers of a stopped core, thread by thread. -/
theorem Computes.final (hind : img.NonInterfering h) {s : Core} (hc : Computes img s)
    (hf : Follows img h s.log) (hall : ∀ t < img.threadnumber, issued s.log t = h t + 1) :
    ∀ t < img.threadnumber, (s.coreThreads t).regs = (runAlone img t (h t + 1)).1 := by
  intro t ht
  rw [(hc.regs_eq hind hf t).2, hall t ht]

/-- Scheduling does not change what threads compute: both cores stop with
every thread's registers as they are when the thread is run alone to its
HALT, and with the same data array. -/
theorem scheduling_irrelevant (img : Image) (h : Nat → Nat) (hh : img.HaltsAt h)
    (hin : img.InBounds h) (hind : img.NonInterfering h)
    (hbound : (1 + max img.loadLatency img.storeLatency + img.switchCycles) *
      ∑ t ∈ Finset.range img.threadnumber, (h t + 1) < 2 ^ 32 - 1) :
    ∃ b f, (∃ fuel, coreBlockedMT img fuel = some b) ∧
      (∃ fuel, coreFinegrainedMT img fuel = some f) ∧
      b.inBounds = true ∧ f.inBounds = true ∧
      (∀ t < img.threadnumber, (b.coreThreads t).regs = (runAlone img t (h t + 1)).1 ∧
        (f.coreThreads t).regs = (runAlone img t (h t + 1)).1) ∧
      b.data = f.data := by
  rcases Nat.eq_zero_or_pos img.threadnumber with hzero | hn
  · -- Without threads neither loop does anything.
    have hstop : Core.running img (coreInit img) = false := by simp [Core.running, hzero]
    refine ⟨coreInit img, coreInit img, ⟨0, ?_⟩, ⟨0, ?_⟩, rfl, rfl, ?_, rfl⟩
    · simp [coreBlockedMT, whileLoop, hstop]
    · simp [coreFinegrainedMT, whileLoop, hstop]
    · intro t ht
      omega
  · have hfine : (1 + img.maxLatency) * img.total h < uint32Max :=
      Nat.lt_of_le_of_lt (Nat.mul_le_mul_right _ (Nat.le_add_right ..)) hbound
    obtain ⟨fuel, b, hrun, hb, hstop⟩ := Blocked.run hn hh hbound
    obtain ⟨fuel', f, hrun', hf, hstop'⟩ := Fine.run hn hh hfine
    have hstepb : ∀ s, Blocked img h s ∧ Computes img s → Core.running img s = true →
        Blocked img h (MtCore.blockedStep img s) ∧ Computes img (MtCore.blockedStep img s) := by
      intro s hs hr
      exact ⟨(hs.1.blockedStep hh hbound hr).1,
        hs.1.computes hh hin hind hbound hs.2 (of_decide_eq_true hr)⟩
    have hstepf : ∀ s, Fine img h s ∧ Computes img s → Core.running img s = true →
        Fine img h (MtCore.finegrainedStep img s) ∧
          Computes img (MtCore.finegrainedStep img s) := by
      intro s hs hr
      exact ⟨(hs.1.finegrainedStep hh hfine hr).1,
        hs.1.computes hh hin hind hfine hs.2 (of_decide_eq_true hr)⟩
    have hcb := (whileLoop_invariant hstepb ⟨Blocked.init hn h, Computes.init img⟩ hrun).2
    have hcf := (whileLoop_invariant hstepf ⟨Fine.init hn h, Computes.init img⟩ hrun').2
    have hallb := (hb.sched.stop hn hh hstop).1
    have hallf := (hf.sched.stop hn hh hstop').1
    have hsame : ∀ t, (schedule b.log).count t = (schedule f.log).count t := fun t => by
      rw [count_schedule, count_schedule]
      by_cases ht : t < img.threadnumber
      · rw [hallb t ht, hallf t ht]
      · have hb0 := hb.sched.ok.follows.count_le t
        have hf0 := hf.sched.ok.follows.count_le t
        rw [count_schedule, Image.steps, if_neg ht] at hb0 hf0
        omega
    refine ⟨b, f, ⟨fuel, hrun⟩, ⟨fuel', hrun'⟩, hcb.inBounds, hcf.inBounds, fun t ht =>
      ⟨hcb.final hind hb.sched.ok.follows hallb t ht,
        hcf.final hind hf.sched.ok.follows hallf t ht⟩, ?_⟩
    rw [hcb.data, hcf.data, interleave_congr hind.agents hf.sched.ok.follows.count_le hsame]

instance (img : Image) (h : Nat → Nat) : Decidable (img.InBounds h) :=
  inferInstanceAs (Decidable (∀ t < img.threadnumber, ∀ k ≤ h t,
    (img.instructions t k).regsOk = true ∧
      (img.instructions t k).addrOk (runAlone img t k).1 img = true))

instance (img : Image) (h : Nat → Nat) (t u : Nat) : Decidable (img.Separate h t u) :=
  inferInstanceAs (Decidable (∀ i ≤ h t, ∀ j ≤ h u,
    (storedWord? img t i).isSome → touchedWord? img u j ≠ storedWord? img t i))

instance (img : Image) (h : Nat → Nat) : Decidable (img.NonInterfering h) :=
  inferInstanceAs (Decidable (∀ t < img.threadnumber, ∀ u < img.threadnumber, t ≠ u →
    img.Separate h t u))

theorem scheduling_irrelevant_smallImage :
    ∃ b f, (∃ fuel, coreBlockedMT smallImage fuel = some b) ∧
      (∃ fuel, coreFinegrainedMT smallImage fuel = some f) ∧
      (b.coreThreads 1).regs 3 = 20 ∧ (f.coreThreads 0).regs 2 = 5 ∧ b.data = f.data := by
  obtain ⟨b, f, hb, hf, -, -, hregs, hdata⟩ := scheduling_irrelevant smallImage smallHalts
    (by decide) (by decide) (by decide) (by decide)
  refine ⟨b, f, hb, hf, ?_, ?_, hdata⟩
  · rw [(hregs 1 (by decide)).1]
    decide
  · rw [(hregs 0 (by decide)).2]
    decide

end MtCore

end ArchSim
