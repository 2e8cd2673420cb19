import ArchSim.MtCore

/-!
# A single thread

With one thread there is nothing to schedule: the core that switches when a
thread blocks and the core that switches every cycle are one machine. The
thread need not halt, and the counters may wrap.
-/

namespace ArchSim

namespace MtCore

variable {img : Image} {s t : Core}

/-- A core without `idle_count`, which is local to the loop that drives it. -/
def Core.forget (s : Core) : Core := { s with idleCount := 0 }

/-- Both cores have the only thread selected, and agree but for `idle_count`. -/
def Alike (s t : Core) : Prop := s.rrIndex = 0 ∧ s.forget = t.forget

namespace Alike

theorem exists_idle (h : Alike s t) : ∃ i, t = { s with idleCount := i } := by
  refine ⟨t.idleCount, ?_⟩
  have hforget := congrArg (fun c : Core => { c with idleCount := t.idleCount }) h.2
  exact hforget.symm

/-- The scan of the threads comes back to the one that is waiting. -/
theorem scan_one (hone : img.threadnumber = 1) (hr : s.rrIndex = 0)
    (hwait : s.currentReady = false) :
    scan img img.threadnumber { s with idleCount := 0 } = { s with idleCount := 1 } := by
  have hnext : ({ s with idleCount := 0 } : Core).nextThread img = { s with idleCount := 0 } := by
    rw [Core.nextThread, hone, Nat.mod_one, ← hr]
  have hready : ({ s with idleCount := 0 } : Core).currentReady = false := hwait
  rw [hone, scan, hnext]
  simp only [hready, Bool.false_eq_true, if_false]
  rfl

/-- One iteration of either loop. -/
theorem step (hone : img.threadnumber = 1) (h : Alike s t) :
    Alike (blockedStep img s) (finegrainedStep img t) := by
  have hr := h.1
  obtain ⟨i, rfl⟩ := h.exists_idle
  have hsame : ({ s with idleCount := i } : Core).currentReady = s.currentReady := rfl
  cases hready : s.currentReady with
  | true =>
      rw [blockedStep, if_pos hready]
      simp only [finegrainedStep, hsame, hready, if_true]
      refine ⟨hr, ?_⟩
      simp only [Core.forget, Core.nextThread, executeInst, hone, Nat.mod_one, hr]
  | false =>
      have hround : img.threadnumber ≤ ({ s with idleCount := i } : Core).idle.idleCount := by
        rw [hone]
        exact Nat.le_add_left 1 i
      rw [blockedStep, if_neg (by rw [hready]; exact Bool.false_ne_true)]
      simp only [finegrainedStep, hsame, hready, Bool.false_eq_true, if_false, hround, if_true,
        scan_one hone hr hready, hone.symm]
      refine ⟨hr, ?_⟩
      simp only [Core.forget, Core.nextThread, Core.idle, hone, Nat.mod_one, hr]

theorem running (h : Alike s t) : s.running img = t.running img := by
  obtain ⟨i, rfl⟩ := h.exists_idle
  rfl

/-- After any number of iterations. -/
theorem iterate (hone : img.threadnumber = 1) (k : Nat) :
    Alike ((blockedStep img)^[k] (coreInit img)) ((finegrainedStep img)^[k] (coreInit img)) := by
  induction k with
  | zero => exact ⟨rfl, rfl⟩
  | succ k ih =>
      rw [Function.iterate_succ_apply', Function.iterate_succ_apply']
      exact ih.step hone

end Alike

/-- One LOAD, with a latency, and a HALT. -/
def loadHalt : Image where
  threadnumber := 1
  loadLatency := 2
  storeLatency := 0
  switchCycles := 3
  instructions := fun _ k => ⟨if k = 0 then .load else .halt, 1, 0, 0, true⟩
  dataStart := 0
  data := fun _ => 7

/-- The overhead of a switch is never paid. -/
example : (coreBlockedMT loadHalt 4).map (·.cycleCount) = some 4 := rfl

end MtCore

end ArchSim
