import ArchSim.MtLeftover
import ArchSim.MtMakespan

/-!
# One thread after the other

What the cores compute is what the threads compute when they are run one
after the other, each to its HALT, on one data array. That is a run without
cores, cycles or a round robin; it says what the second simulation of `main`
makes of the data array that the first has left, and what in an image
matters at all.
-/

namespace ArchSim

namespace MtCore

variable {img : Image} {h : Nat → Nat} {n t k step : Nat}

/-- Registers and data after threads `0, ..., n - 1`, one after the other. -/
def serial (img : Image) (h : Nat → Nat) : Nat → (Nat → Tcontext) × (Nat → BitVec 32)
  | 0 => (fun _ _ => 0, img.data)
  | n + 1 =>
      let s := serial img h n
      let r := runAlone (img.withData s.2) n (h n + 1)
      (Function.update s.1 n r.1, r.2)

/-! ## As a schedule -/

/-- The latest step first. -/
def serialSchedule (h : Nat → Nat) : Nat → List Nat
  | 0 => []
  | n + 1 => List.replicate (h n + 1) n ++ serialSchedule h n

theorem lt_of_mem_serialSchedule : ∀ {n}, t ∈ serialSchedule h n → t < n
  | 0, ht => absurd ht List.not_mem_nil
  | n + 1, ht => by
      rcases List.mem_append.mp ht with ht | ht
      · exact List.eq_of_mem_replicate ht ▸ Nat.lt_succ_self _
      · exact Nat.lt_succ_of_lt (lt_of_mem_serialSchedule ht)

theorem count_serialSchedule (h : Nat → Nat) (t : Nat) : ∀ n,
    (serialSchedule h n).count t = if t < n then h t + 1 else 0
  | 0 => by simp [serialSchedule]
  | n + 1 => by
      rw [serialSchedule, List.count_append, count_serialSchedule h t n]
      rcases eq_or_ne n t with rfl | hne
      · rw [List.count_replicate_self, if_neg (Nat.lt_irrefl n), if_pos (Nat.lt_succ_self n)]
      · rw [List.count_replicate, if_neg (by simpa using hne), Nat.zero_add]
        exact if_congr (by omega) rfl rfl

/-- An action does not depend on the initial data. -/
theorem access_withData (img : Image) (data : Nat → BitVec 32) :
    access (img.withData data) = access img := by
  funext t ⟨rip, regs⟩
  unfold access Instruction.compute
  dsimp only [Image.withData]
  cases (img.instructions t rip).opcode <;> rfl

theorem alone_withData (img : Image) (data : Nat → BitVec 32) (t k : Nat) :
    alone (access img) start data t k =
      ((k, (runAlone (img.withData data) t k).1), (runAlone (img.withData data) t k).2) := by
  have h := alone_access (img.withData data) t k
  rwa [access_withData] at h

theorem interleave_serialSchedule (img : Image) (h : Nat → Nat) : ∀ n,
    (∀ t, ((interleave (access img) start img.data (serialSchedule h n)).1 t).2 =
      (serial img h n).1 t) ∧
    (interleave (access img) start img.data (serialSchedule h n)).2 = (serial img h n).2
  | 0 => ⟨fun _ => rfl, rfl⟩
  | n + 1 => by
      obtain ⟨hregs, hdata⟩ := interleave_serialSchedule img h n
      have hnot : n ∉ serialSchedule h n := fun hmem =>
        Nat.lt_irrefl n (lt_of_mem_serialSchedule hmem)
      rw [serialSchedule, interleave_replicate_append hnot, hdata, alone_withData]
      refine ⟨fun t => ?_, rfl⟩
      rw [serial]
      rcases eq_or_ne t n with rfl | hne
      · simp only [Function.update_self]
      · simp only [Function.update_of_ne hne]
        exact hregs t

/-! ## The cores -/

/-- The core has stopped with what the threads compute one after the other,
and has taken from 1 to `step` cycles for an instruction. -/
structure Serially (img : Image) (h : Nat → Nat) (step : Nat) (s : Core) : Prop where
  inBounds : s.inBounds = true
  registers : ∀ t < img.threadnumber, s.registers t = (serial img h img.threadnumber).1 t
  data : s.data = (serial img h img.threadnumber).2
  instCount : s.instCount = img.total h
  total_le : img.total h ≤ s.cycleCount
  cycleCount_le : s.cycleCount ≤ step * img.total h

theorem Serially.init (hzero : img.threadnumber = 0) : Serially img h step (coreInit img) where
  inBounds := rfl
  registers := fun t ht => absurd ht (by omega)
  data := by rw [hzero]; rfl
  instCount := by rw [Image.total, hzero]; rfl
  total_le := by rw [Image.total, hzero]; exact Nat.le_refl _
  cycleCount_le := Nat.zero_le _

theorem Computes.serially (hn : 0 < img.threadnumber) (hh : img.HaltsAt h)
    (hind : img.NonInterfering h) {s : Core} (hc : Computes img s) (hs : Sched img h step s)
    (hstop : img.threadnumber ≤ s.haltCount) : Serially img h step s := by
  have hall := (hs.stop hn hh hstop).1
  have hcount : ∀ t, (schedule s.log).count t =
      (serialSchedule h img.threadnumber).count t := by
    intro t
    rw [count_serialSchedule]
    split
    · rename_i ht
      rw [count_schedule, hall t ht]
    · rename_i ht
      have hle := hs.ok.follows.count_le t
      rw [Image.steps, if_neg ht] at hle
      exact Nat.le_zero.mp hle
  have hsame : interleave (access img) start img.data (schedule s.log) =
      interleave (access img) start img.data (serialSchedule h img.threadnumber) :=
    interleave_congr hind.agents (fun t => hcount t ▸ hs.ok.follows.count_le t) hcount
  obtain ⟨hregs, hdata⟩ := interleave_serialSchedule img h img.threadnumber
  have hlen : s.log.length = img.total h := by
    rw [hs.ok.follows.length_eq]
    exact Finset.sum_congr rfl fun t ht => hall t (Finset.mem_range.mp ht)
  have hclock := hs.stopped hstop
  refine ⟨hc.inBounds, fun t _ => ?_, ?_, (hs.executedOnce hn hh hstop).instCount, ?_, ?_⟩
  · rw [← hregs t, ← hsame, ← hc.threads t]
    rfl
  · rw [hc.data, hsame, hdata]
  · rw [hclock, ← hlen]
    exact length_le_clock hs.ok.ordered
  · rw [hclock, ← hlen]
    exact hs.ok.bound

theorem exists_blocked_serially (hh : img.HaltsAt h) (hin : img.InBounds h)
    (hind : img.NonInterfering h) (hbound : img.blockedSpan * img.total h < uint32Max) :
    ∃ fuel s, coreBlockedMT img fuel = some s ∧ Serially img h img.blockedSpan s := by
  rcases Nat.eq_zero_or_pos img.threadnumber with hzero | hn
  · have hstop : Core.running img (coreInit img) = false := by simp [Core.running, hzero]
    exact ⟨0, coreInit img, by simp [coreBlockedMT, whileLoop, hstop], Serially.init hzero⟩
  · obtain ⟨fuel, s, hrun, hs, hstop⟩ := Blocked.run hn hh hbound
    have hstep : ∀ s, Blocked img h s ∧ Computes img s → Core.running img s = true →
        Blocked img h (MtCore.blockedStep img s) ∧ Computes img (MtCore.blockedStep img s) := by
      rintro s ⟨hs, hc⟩ hr
      exact ⟨(hs.blockedStep hh hbound hr).1,
        hs.computes hh hin hind hbound hc (of_decide_eq_true hr)⟩
    have hc := (whileLoop_invariant hstep ⟨Blocked.init hn h, Computes.init img⟩ hrun).2
    exact ⟨fuel, s, hrun, hc.serially hn hh hind hs.sched hstop⟩

theorem exists_finegrained_serially (hh : img.HaltsAt h) (hin : img.InBounds h)
    (hind : img.NonInterfering h) (hbound : (1 + img.maxLatency) * img.total h < uint32Max) :
    ∃ fuel s, coreFinegrainedMT img fuel = some s ∧ Serially img h (1 + img.maxLatency) s := by
  rcases Nat.eq_zero_or_pos img.threadnumber with hzero | hn
  · have hstop : Core.running img (coreInit img) = false := by simp [Core.running, hzero]
    exact ⟨0, coreInit img, by simp [coreFinegrainedMT, whileLoop, hstop], Serially.init hzero⟩
  · obtain ⟨fuel, s, hrun, hs, hstop⟩ := Fine.run hn hh hbound
    have hstep : ∀ s, Fine img h s ∧ Computes img s → Core.running img s = true →
        Fine img h (MtCore.finegrainedStep img s) ∧
          Computes img (MtCore.finegrainedStep img s) := by
      rintro s ⟨hs, hc⟩ hr
      exact ⟨(hs.finegrainedStep hh hbound hr).1,
        hs.computes hh hin hind hbound hc (of_decide_eq_true hr)⟩
    have hc := (whileLoop_invariant hstep ⟨Fine.init hn h, Computes.init img⟩ hrun).2
    exact ⟨fuel, s, hrun, hc.serially hn hh hind hs.sched hstop⟩

/-- The image with the data that the first simulation leaves. -/
def Image.again (img : Image) (h : Nat → Nat) : Image :=
  img.withData (serial img h img.threadnumber).2

/-- The two simulations of `main`. -/
theorem exists_simulate_serially (hh : img.HaltsAt h) (hin : img.InBounds h)
    (hind : img.NonInterfering h) (hin' : (img.again h).InBounds h)
    (hind' : (img.again h).NonInterfering h)
    (hbound : img.blockedSpan * img.total h < uint32Max) :
    ∃ fuel fuel' b f, simulate img fuel fuel' = some (b, f) ∧
      Serially img h img.blockedSpan b ∧ Serially (img.again h) h (1 + img.maxLatency) f := by
  obtain ⟨fuel, b, hb, hsb⟩ := exists_blocked_serially hh hin hind hbound
  have hfine : (1 + img.maxLatency) * img.total h < uint32Max :=
    Nat.lt_of_le_of_lt (Nat.mul_le_mul_right _ (Nat.le_add_right ..)) hbound
  obtain ⟨fuel', f, hf, hsf⟩ :=
    @exists_finegrained_serially (img.again h) h hh hin' hind' hfine
  refine ⟨fuel, fuel', b, f, ?_, hsb, hsf⟩
  rw [simulate, hb, Option.bind_some, hsb.data]
  exact congrArg (Option.map (b, ·)) hf

/-! ## What matters of an image -/

/-- Equal, as far as they are executed: a NOP has an opcode only. -/
def Instruction.Same (i j : Instruction) : Prop := i = j ∨ i.opcode = .nop ∧ j.opcode = .nop

namespace Instruction.Same

variable {i j : Instruction}

theorem opcode_eq : i.Same j → i.opcode = j.opcode
  | .inl heq => congrArg Instruction.opcode heq
  | .inr ⟨hi, hj⟩ => hi.trans hj.symm

theorem compute_eq (hs : i.Same j) (regs : Tcontext) (img : Image) (data : Nat → BitVec 32) :
    i.compute regs img data = j.compute regs img data := by
  rcases hs with rfl | ⟨hi, hj⟩
  · rfl
  · simp only [Instruction.compute, hi, hj]

theorem regsOk_eq (hs : i.Same j) : i.regsOk = j.regsOk := by
  rcases hs with rfl | ⟨hi, hj⟩
  · rfl
  · simp only [Instruction.regsOk, hi, hj]

theorem addrOk_eq (hs : i.Same j) (regs : Tcontext) (img : Image) :
    i.addrOk regs img = j.addrOk regs img := by
  rcases hs with rfl | ⟨hi, hj⟩
  · rfl
  · simp only [Instruction.addrOk, hi, hj]

end Instruction.Same

def Image.withInstructions (img : Image) (code : Nat → Nat → Instruction) : Image :=
  { img with instructions := code }

/-- `code` is the program of the image up to the HALTs. -/
def Image.Code (img : Image) (h : Nat → Nat) (code : Nat → Nat → Instruction) : Prop :=
  ∀ t < img.threadnumber, ∀ k ≤ h t, (img.instructions t k).Same (code t k)

namespace Image.Code

variable {code : Nat → Nat → Instruction}

theorem haltsAt (hcode : img.Code h code) (hh : img.HaltsAt h) :
    (img.withInstructions code).HaltsAt h := by
  intro t ht
  obtain ⟨hhalt, hnot⟩ := hh t ht
  refine ⟨(hcode t ht (h t) (Nat.le_refl _)).opcode_eq ▸ hhalt, fun i hi => ?_⟩
  exact (hcode t ht i (Nat.le_of_lt hi)).opcode_eq ▸ hnot i hi

theorem runAlone_eq (hcode : img.Code h code) (ht : t < img.threadnumber) :
    ∀ {k}, k ≤ h t + 1 → runAlone (img.withInstructions code) t k = runAlone img t k
  | 0, _ => rfl
  | k + 1, hk => by
      rw [runAlone, runAlone, runAlone_eq hcode ht (by omega),
        (hcode t ht k (by omega)).compute_eq]
      rfl

theorem storedWord?_eq (hcode : img.Code h code) (ht : t < img.threadnumber) (hk : k ≤ h t) :
    storedWord? (img.withInstructions code) t k = storedWord? img t k := by
  unfold storedWord?
  rw [hcode.runAlone_eq ht (by omega)]
  rcases hcode t ht k hk with heq | ⟨hi, hj⟩
  · rw [heq]
    rfl
  · rw [hi, show ((img.withInstructions code).instructions t k).opcode = .nop from hj]

theorem touchedWord?_eq (hcode : img.Code h code) (ht : t < img.threadnumber) (hk : k ≤ h t) :
    touchedWord? (img.withInstructions code) t k = touchedWord? img t k := by
  unfold touchedWord?
  rw [hcode.runAlone_eq ht (by omega)]
  rcases hcode t ht k hk with heq | ⟨hi, hj⟩
  · rw [heq]
    rfl
  · rw [hi, show ((img.withInstructions code).instructions t k).opcode = .nop from hj]

theorem inBounds (hcode : img.Code h code) (hin : img.InBounds h) :
    (img.withInstructions code).InBounds h := by
  intro t ht k hk
  obtain ⟨hregs, haddr⟩ := hin t ht k hk
  have hsame := hcode t ht k hk
  rw [hcode.runAlone_eq ht (by omega)]
  exact ⟨hsame.regsOk_eq ▸ hregs, hsame.addrOk_eq _ img ▸ haddr⟩

theorem nonInterfering (hcode : img.Code h code) (hind : img.NonInterfering h) :
    (img.withInstructions code).NonInterfering h := by
  intro t ht u hu hne i hi j hj
  rw [hcode.storedWord?_eq ht hi, hcode.touchedWord?_eq hu hj]
  exact hind t ht u hu hne i hi j hj

theorem withData (hcode : img.Code h code) (data : Nat → BitVec 32) :
    (img.withData data).Code h code := hcode

theorem serial_eq (hcode : img.Code h code) : ∀ {n}, n ≤ img.threadnumber →
    serial (img.withInstructions code) h n = serial img h n
  | 0, _ => rfl
  | n + 1, hn => by
      rw [serial, serial, serial_eq hcode (by omega)]
      have hrun := (hcode.withData (serial img h n).2).runAlone_eq (t := n) hn (Nat.le_refl _)
      exact congrArg (fun r => (Function.update (serial img h n).1 n r.1, r.2)) hrun

end Image.Code

end MtCore

end ArchSim
