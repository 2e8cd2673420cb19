import ArchSim.MtOrder

/-!
# Waiting and halting, for runs of any length

`cycle_count` and the return cycles wrap. A run is followed here together
with the exact number of cycles that have gone by, and each instruction is
logged with it. A thread waits for its LOADs and STOREs and stops at its HALT
as long as no thread is selected whose return cycle has wrapped while
`cycle_count` has not, and none that is halted at the one value of
`cycle_count` that is not below the mark of a halted thread.
-/

namespace ArchSim

namespace MtCore

/-! ## Runs with their exact time -/

/-- A core, the cycles that have gone by, and the instructions with the
cycles that had gone by, latest first. -/
structure Timed where
  core : Core
  elapsed : Nat
  log : List (Nat × Issue)

def timedInit (img : Image) : Timed := ⟨coreInit img, 0, []⟩

/-- One iteration of a loop, and what it adds to `cycle_count`. -/
def timedStep (img : Image) (body : Core → Core) (adds : Core → Nat) (x : Timed) : Timed where
  core := body x.core
  elapsed := x.elapsed + adds x.core
  log := if x.core.currentReady then (x.elapsed, x.core.current img) :: x.log else x.log

def timedRun (img : Image) (body : Core → Core) (adds : Core → Nat) : Nat → Timed
  | 0 => timedInit img
  | k + 1 => timedStep img body adds (timedRun img body adds k)

/-- What an iteration of `CORE_FinegrainedMT` adds. -/
def finegrainedAdds (img : Image) (s : Core) : Nat :=
  if s.currentReady ∨ img.threadnumber ≤ s.idleCount + 1 then 1 else 0

/-- What an iteration of `CORE_BlockedMT` adds: the overhead if the inner
loop breaks. -/
def blockedAdds (img : Image) (s : Core) : Nat :=
  if s.currentReady ∨
      (scan img img.threadnumber { s with idleCount := 0 }).idleCount = img.threadnumber then 1
  else img.switchCycles

/-- The run of `CORE_FinegrainedMT` up to iteration `k`. -/
def finegrainedRun (img : Image) : Nat → Timed :=
  timedRun img (finegrainedStep img) (finegrainedAdds img)

/-- The run of `CORE_BlockedMT` up to iteration `k`. -/
def blockedRun (img : Image) : Nat → Timed :=
  timedRun img (blockedStep img) (blockedAdds img)

theorem timedStep_log_of_ready {img : Image} {body : Core → Core} {adds : Core → Nat} {x : Timed}
    (hready : x.core.currentReady = true) :
    (timedStep img body adds x).log = (x.elapsed, x.core.current img) :: x.log := if_pos hready

theorem timedStep_log_of_not_ready {img : Image} {body : Core → Core} {adds : Core → Nat}
    {x : Timed} (hready : x.core.currentReady = false) :
    (timedStep img body adds x).log = x.log := if_neg (ne_true_of_eq_false hready)

theorem timedRun_core (img : Image) (body : Core → Core) (adds : Core → Nat) (k : Nat) :
    (timedRun img body adds k).core = body^[k] (coreInit img) := by
  induction k with
  | zero => rfl
  | succ k ih =>
      rw [Function.iterate_succ_apply', ← ih]
      rfl

/-! ## What is claimed, and when it holds -/

/-- Thread by thread: no instruction follows a HALT, nor a LOAD or STORE
before its latency is over. -/
def Waits (img : Image) (log : List (Nat × Issue)) : Prop :=
  log.Pairwise fun e' e => e.2.thread = e'.2.thread →
    e.2.opcode ≠ .halt ∧
      (e.2.opcode.isMem = true → e.1 + 1 + img.latency e.2.opcode ≤ e'.1)

/-- The last LOAD, STORE or HALT of a thread. -/
def lastBlocking (t : Nat) (log : List (Nat × Issue)) : Option (Nat × Issue) :=
  log.find? fun e => e.2.thread == t && e.2.opcode.blocks

/-- If the selected thread is halted, `cycle_count` is not `UINT32_MAX`. If it
has executed a LOAD or STORE last, the return cycle has not wrapped, or
`cycle_count` has since. -/
def Meets (img : Image) (x : Timed) : Prop :=
  ∀ e, lastBlocking x.core.rrIndex x.log = some e →
    if e.2.opcode = .halt then x.core.cycleCount ≠ uint32Max
    else e.2.cycle + 1 + img.latency e.2.opcode ≤ uint32Max ∨
      e.1 / uint32Size < x.elapsed / uint32Size

/-! ## One iteration -/

/-- What an iteration of either loop does to the threads and the time. -/
structure Iterates (img : Image) (body : Core → Core) (adds : Core → Nat) : Prop where
  issue : ∀ s, s.currentReady = true → (body s).coreThreads = (executeInst img s).coreThreads ∧
    (body s).log = s.current img :: s.log ∧ 0 < adds s
  pass : ∀ s, s.currentReady = false → (body s).coreThreads = s.coreThreads ∧
    (body s).log = s.log
  cycle : ∀ s, s.cycleCount < uint32Size → (body s).cycleCount = wrap (s.cycleCount + adds s)

theorem finegrained_iterates (img : Image) :
    Iterates img (finegrainedStep img) (finegrainedAdds img) := by
  refine ⟨fun s hready => ?_, fun s hready => ?_, fun s hlt => ?_⟩
  · simp only [finegrainedStep, hready, if_true, finegrainedAdds, true_or]
    exact ⟨rfl, rfl, Nat.one_pos⟩
  · simp only [finegrainedStep, hready, Bool.false_eq_true, if_false]
    split <;> exact ⟨rfl, rfl⟩
  · unfold finegrainedStep finegrainedAdds
    cases hready : s.currentReady with
    | true => rfl
    | false =>
        simp only [Bool.false_eq_true, if_false, false_or]
        by_cases hround : img.threadnumber ≤ s.idleCount + 1
        · simp only [Core.idle, hround, if_true]
          rfl
        · simp only [Core.idle, hround, if_false]
          exact (wrap_of_lt hlt).symm

/-- The inner loop of the blocked core. -/
theorem scan_spec (img : Image) (s : Core) : ∀ k, ∃ s', scan img k s = s' ∧
    s'.coreThreads = s.coreThreads ∧ s'.log = s.log ∧
      ((s'.idleCount = s.idleCount + k ∧ s'.cycleCount = s.cycleCount) ∨
        (s'.idleCount < s.idleCount + k ∧
          s'.cycleCount = wrap (s.cycleCount + img.switchCycles))) := by
  intro k
  induction k generalizing s with
  | zero => exact ⟨s, rfl, rfl, rfl, Or.inl ⟨rfl, rfl⟩⟩
  | succ k ih =>
      rw [scan]
      cases (s.nextThread img).currentReady with
      | true => exact ⟨_, rfl, rfl, rfl, Or.inr ⟨Nat.lt_add_of_pos_right (Nat.succ_pos k), rfl⟩⟩
      | false =>
          obtain ⟨s', hscan, hthreads, hlog, hcase⟩ := ih (s.nextThread img).idle
          refine ⟨s', hscan, hthreads, hlog, ?_⟩
          have hidle : (s.nextThread img).idle.idleCount = s.idleCount + 1 := rfl
          rcases hcase with ⟨hcount, hcycle⟩ | ⟨hcount, hcycle⟩
          · exact Or.inl ⟨by omega, hcycle⟩
          · exact Or.inr ⟨by omega, hcycle⟩

theorem blocked_iterates (img : Image) :
    Iterates img (blockedStep img) (blockedAdds img) := by
  refine ⟨fun s hready => ?_, fun s hready => ?_, fun s hlt => ?_⟩
  · rw [blockedStep, if_pos hready, blockedAdds, if_pos (Or.inl hready)]
    exact ⟨rfl, rfl, Nat.one_pos⟩
  · obtain ⟨s', hscan, hthreads, hlog, -⟩ :=
      scan_spec img { s with idleCount := 0 } img.threadnumber
    simp only [blockedStep, hready, Bool.false_eq_true, if_false, hscan]
    split <;> exact ⟨hthreads, hlog⟩
  · obtain ⟨s', hscan, -, -, hcase⟩ :=
      scan_spec img { s with idleCount := 0 } img.threadnumber
    unfold blockedStep blockedAdds
    cases hready : s.currentReady with
    | true => rfl
    | false =>
        simp only [Bool.false_eq_true, if_false, false_or, hscan]
        rcases hcase with ⟨hcount, hcycle⟩ | ⟨hcount, hcycle⟩
        · simp only [hcount.trans (Nat.zero_add _), if_true, hcycle]
        · have hne : s'.idleCount ≠ img.threadnumber := by
            have hzero : ({ s with idleCount := 0 } : Core).idleCount = 0 := rfl
            omega
          simp only [hne, if_false, hcycle]

/-! ## The invariant -/

/-- The core's counters are those of the exact time. -/
structure Clocked (img : Image) (x : Timed) : Prop where
  cycle : x.core.cycleCount = wrap x.elapsed
  logged : ∀ e ∈ x.log, e.1 < x.elapsed ∧ e.2.cycle = wrap e.1
  returnCycle : ∀ t, (x.core.coreThreads t).returnCycle =
    match lastBlocking t x.log with
    | none => 0
    | some e => returnAfter img e.2.cycle 0 e.2.opcode
  log_eq : x.log.map Prod.snd = x.core.log

theorem clocked_init (img : Image) : Clocked img (timedInit img) :=
  ⟨rfl, fun _ he => absurd he List.not_mem_nil, fun _ => rfl, rfl⟩

theorem returnAfter_of_blocks {img : Image} {cycle old : Nat} {op : CmdOpcode} :
    returnAfter img cycle old op = if op.blocks then returnAfter img cycle 0 op else old := by
  cases op <;> rfl

variable {img : Image} {body : Core → Core} {adds : Core → Nat} {x : Timed}

theorem Clocked.step (hbody : Iterates img body adds) (hx : Clocked img x) :
    Clocked img (timedStep img body adds x) := by
  have hcycle : (body x.core).cycleCount = wrap (x.elapsed + adds x.core) := by
    rw [hbody.cycle _ (hx.cycle ▸ Nat.mod_lt _ (Nat.two_pow_pos 32)), hx.cycle]
    exact Nat.mod_add_mod ..
  cases hready : x.core.currentReady with
  | false =>
      obtain ⟨hthreads, hlog⟩ := hbody.pass _ hready
      have hlog' : (timedStep img body adds x).log = x.log := timedStep_log_of_not_ready hready
      refine ⟨hcycle, fun e he => ?_, fun t => ?_, ?_⟩
      · obtain ⟨hlt, hwrap⟩ := hx.logged e (hlog' ▸ he)
        exact ⟨Nat.lt_of_lt_of_le hlt (Nat.le_add_right ..), hwrap⟩
      · rw [hlog', ← hx.returnCycle]
        exact congrArg (fun f : Nat → Thread => (f t).returnCycle) hthreads
      · rw [hlog', hx.log_eq]
        exact hlog.symm
  | true =>
      obtain ⟨hthreads, hlog, hpos⟩ := hbody.issue _ hready
      have hlog' : (timedStep img body adds x).log = (x.elapsed, x.core.current img) :: x.log :=
        timedStep_log_of_ready hready
      refine ⟨hcycle, fun e he => ?_, fun t => ?_, ?_⟩
      · rcases List.mem_cons.mp (hlog' ▸ he) with rfl | he
        · exact ⟨Nat.lt_add_of_pos_right hpos, hx.cycle⟩
        · obtain ⟨hlt, hwrap⟩ := hx.logged e he
          exact ⟨Nat.lt_of_lt_of_le hlt (Nat.le_add_right ..), hwrap⟩
      · have hthread : ((timedStep img body adds x).core.coreThreads t).returnCycle =
            ((executeInst img x.core).coreThreads t).returnCycle :=
          congrArg (fun f : Nat → Thread => (f t).returnCycle) hthreads
        rw [hthread, hlog', lastBlocking]
        by_cases ht : x.core.rrIndex = t
        · subst ht
          simp only [executeInst, Function.update_self]
          rw [returnAfter_of_blocks]
          by_cases hblocks : (x.core.current img).opcode.blocks = true
          · rw [List.find?_cons_of_pos (by simp [hblocks, current_thread])]
            exact if_pos hblocks
          · rw [List.find?_cons_of_neg (by simp [hblocks])]
            exact (if_neg hblocks).trans (hx.returnCycle _)
        · rw [List.find?_cons_of_neg (by simp [current_thread, ht])]
          refine Eq.trans ?_ (hx.returnCycle t)
          exact congrArg Thread.returnCycle (Function.update_of_ne (Ne.symm ht) ..)
      · rw [hlog', List.map_cons, hx.log_eq]
        exact hlog.symm

/-! ## When an iteration keeps the order -/

/-- The earlier instructions of the selected thread are over. -/
def Over (img : Image) (x : Timed) : Prop :=
  ∀ e ∈ x.log, e.2.thread = x.core.rrIndex → e.2.opcode ≠ .halt ∧
    (e.2.opcode.isMem = true → e.1 + 1 + img.latency e.2.opcode ≤ x.elapsed)

/-- What is logged before the last LOAD, STORE or HALT of a thread, and after
it. -/
theorem lastBlocking_some {t : Nat} {log : List (Nat × Issue)} {b : Nat × Issue}
    (h : lastBlocking t log = some b) : b.2.thread = t ∧ b.2.opcode.blocks = true ∧
      ∃ later earlier, log = later ++ b :: earlier ∧
        ∀ e ∈ later, e.2.thread = t → e.2.opcode.blocks = false := by
  obtain ⟨hb, later, earlier, hlog, hlater⟩ := List.find?_eq_some_iff_append.mp h
  obtain ⟨hthread, hblocks⟩ := Bool.and_eq_true_iff.mp hb
  refine ⟨beq_iff_eq.mp hthread, hblocks, later, earlier, hlog, fun e he ht => ?_⟩
  have hnot := hlater e he
  rw [Bool.not_eq_true', Bool.and_eq_false_imp] at hnot
  exact hnot (beq_iff_eq.mpr ht)

theorem lastBlocking_none {t : Nat} {log : List (Nat × Issue)} (h : lastBlocking t log = none) :
    ∀ e ∈ log, e.2.thread = t → e.2.opcode.blocks = false := by
  intro e he ht
  have hnot := List.find?_eq_none.mp h e he
  rw [Bool.and_eq_true_iff, not_and, Bool.not_eq_true] at hnot
  exact hnot (beq_iff_eq.mpr ht)

/-- An instruction that does not block is over. -/
theorem over_of_not_blocks {op : CmdOpcode} {P : Prop} (h : op.blocks = false) :
    op ≠ .halt ∧ (op.isMem = true → P) := by
  have hnot : ¬(op = .halt ∨ op.isMem = true) := by
    rw [← CmdOpcode.blocks_iff, h]
    exact Bool.false_ne_true
  exact ⟨fun hop => hnot (Or.inl hop), fun hmem => absurd (Or.inr hmem) hnot⟩

/-- It is enough to look at the last LOAD, STORE or HALT. -/
theorem over_iff_lastBlocking (hx : Clocked img x) (hw : Waits img x.log) :
    Over img x ↔ ∀ b, lastBlocking x.core.rrIndex x.log = some b → b.2.opcode ≠ .halt ∧
      (b.2.opcode.isMem = true → b.1 + 1 + img.latency b.2.opcode ≤ x.elapsed) := by
  refine ⟨fun hover b hb => ?_, fun hlast e he ht => ?_⟩
  · obtain ⟨hthread, -, -⟩ := lastBlocking_some hb
    exact hover b (List.mem_of_find?_eq_some hb) hthread
  · cases hb : lastBlocking x.core.rrIndex x.log with
    | none => exact over_of_not_blocks (lastBlocking_none hb e he ht)
    | some b =>
        obtain ⟨hthread, -, later, earlier, hlog, hlater⟩ := lastBlocking_some hb
        rw [hlog] at he hw
        rcases List.mem_append.mp he with he | he
        · exact over_of_not_blocks (hlater e he ht)
        rcases List.mem_cons.mp he with rfl | he
        · exact hlast _ hb
        -- an earlier one was over when the last one was executed
        · have hbefore := (List.pairwise_cons.mp (List.pairwise_append.mp hw).2.1).1 e he
          obtain ⟨hhalt, hmem⟩ := hbefore (ht.trans hthread.symm)
          have hlt := (hx.logged b (List.mem_of_find?_eq_some hb)).1
          exact ⟨hhalt, fun h => Nat.le_trans (hmem h) (Nat.le_of_lt hlt)⟩

theorem returnAfter_of_isMem {cycle old : Nat} {op : CmdOpcode} (h : op.isMem = true) :
    returnAfter img cycle old op = wrap (cycle + 1 + img.latency op) := by
  cases op <;> first | rfl | cases h

/-- The latencies are `int`s that are not negative. -/
def Image.LatencyOk (img : Image) : Prop :=
  img.loadLatency < 2 ^ 31 ∧ img.storeLatency < 2 ^ 31

theorem Image.LatencyOk.le {img : Image} (h : img.LatencyOk) (op : CmdOpcode) :
    1 + img.latency op ≤ uint32Size := by
  obtain ⟨hload, hstore⟩ := h
  unfold uint32Size
  cases op <;> simp only [Image.latency] <;> omega

theorem currentReady_iff (hx : Clocked img x) {b : Nat × Issue}
    (hb : lastBlocking x.core.rrIndex x.log = some b) :
    x.core.currentReady = true ↔ returnAfter img (wrap b.1) 0 b.2.opcode ≤ wrap x.elapsed := by
  have hret := hx.returnCycle x.core.rrIndex
  rw [hb] at hret
  have hcycle := (hx.logged b (List.mem_of_find?_eq_some hb)).2
  rw [← hcycle, ← hx.cycle]
  unfold Core.currentReady
  rw [decide_eq_true_iff, hret]

/-- A thread that is not available meets the condition. -/
theorem meets_of_not_ready (hlat : img.LatencyOk) (hx : Clocked img x)
    (hready : x.core.currentReady = false) : Meets img x := by
  intro b hb
  obtain ⟨hlt, hcycle⟩ := hx.logged b (List.mem_of_find?_eq_some hb)
  obtain ⟨-, hblocks, -⟩ := lastBlocking_some hb
  have hnot : ¬returnAfter img (wrap b.1) 0 b.2.opcode ≤ wrap x.elapsed := by
    rw [← currentReady_iff hx hb, hready]
    exact Bool.false_ne_true
  rw [hx.cycle]
  split
  · rename_i hop
    rw [hop] at hnot
    exact fun heq => hnot (Nat.le_of_eq heq.symm)
  · rename_i hop
    have hmem := (CmdOpcode.blocks_iff.mp hblocks).resolve_left hop
    rw [returnAfter_of_isMem hmem, Nat.add_assoc] at hnot
    rw [hcycle, Nat.add_assoc]
    exact no_wrap_of_lt_wrap hlt (Or.inl (Nat.lt_of_not_le hnot)) (hlat.le _)

/-- An available thread meets the condition if and only if its earlier
instructions are over. -/
theorem over_iff_meets (hlat : img.LatencyOk) (hx : Clocked img x) (hw : Waits img x.log)
    (hready : x.core.currentReady = true) : Over img x ↔ Meets img x := by
  rw [over_iff_lastBlocking hx hw]
  refine forall_congr' fun b => forall_congr' fun hb => ?_
  obtain ⟨hlt, hcycle⟩ := hx.logged b (List.mem_of_find?_eq_some hb)
  obtain ⟨-, hblocks, -⟩ := lastBlocking_some hb
  have hle := (currentReady_iff hx hb).mp hready
  rw [hx.cycle]
  split
  · rename_i hop
    rw [hop] at hle
    -- only `UINT32_MAX` is not below the mark
    have hmax : wrap x.elapsed = uint32Max := Nat.le_antisymm (wrap_le _) hle
    exact ⟨fun h => absurd hop h.1, fun h => absurd hmax h⟩
  · rename_i hop
    have hmem := (CmdOpcode.blocks_iff.mp hblocks).resolve_left hop
    rw [returnAfter_of_isMem hmem, Nat.add_assoc] at hle
    rw [hcycle, Nat.add_assoc, Nat.add_assoc]
    refine ⟨fun h => ?_, fun h => ⟨hop, fun _ => ?_⟩⟩
    · exact no_wrap_of_lt_wrap hlt (Or.inr (h.2 hmem)) (hlat.le _)
    · exact le_of_wrap_le hlt hle h (hlat.le _)

/-! ## Runs -/

/-- An iteration keeps the order if and only if it meets the condition. -/
theorem waits_step_iff (hlat : img.LatencyOk) (hx : Clocked img x) (hw : Waits img x.log) :
    Waits img (timedStep img body adds x).log ↔ Meets img x := by
  cases hready : x.core.currentReady with
  | false =>
      rw [timedStep_log_of_not_ready hready]
      exact ⟨fun _ => meets_of_not_ready hlat hx hready, fun _ => hw⟩
  | true =>
      rw [timedStep_log_of_ready hready, ← over_iff_meets hlat hx hw hready]
      refine ⟨fun h e he ht => ?_, fun h => List.pairwise_cons.mpr ⟨fun e he ht => ?_, hw⟩⟩
      · exact (List.pairwise_cons.mp h).1 e he ht
      · exact h e he ht

theorem clocked_run (hbody : Iterates img body adds) (k : Nat) :
    Clocked img (timedRun img body adds k) := by
  induction k with
  | zero => exact clocked_init img
  | succ k ih => exact ih.step hbody

/-- What is in order after an iteration was in order before it. -/
theorem Waits.of_step (h : Waits img (timedStep img body adds x).log) : Waits img x.log := by
  cases hready : x.core.currentReady with
  | false => exact timedStep_log_of_not_ready hready ▸ h
  | true =>
      rw [timedStep_log_of_ready hready] at h
      exact (List.pairwise_cons.mp h).2

theorem waits_run_iff (hlat : img.LatencyOk) (hbody : Iterates img body adds) (k : Nat) :
    Waits img (timedRun img body adds k).log ↔ ∀ j < k, Meets img (timedRun img body adds j) := by
  induction k with
  | zero => exact ⟨fun _ j hj => absurd hj (Nat.not_lt_zero j), fun _ => List.Pairwise.nil⟩
  | succ k ih =>
      have hstep : Waits img (timedRun img body adds k).log →
          (Waits img (timedRun img body adds (k + 1)).log ↔ Meets img (timedRun img body adds k)) :=
        waits_step_iff hlat (clocked_run hbody k)
      refine ⟨fun h => ?_, fun h => ?_⟩
      · have hw : Waits img (timedRun img body adds k).log := Waits.of_step h
        intro j hj
        rcases Nat.lt_succ_iff_lt_or_eq.mp hj with hj | rfl
        · exact ih.mp hw j hj
        · exact (hstep hw).mp h
      · have hw := ih.mpr fun j hj => h j (Nat.lt_succ_of_lt hj)
        exact (hstep hw).mpr (h k (Nat.lt_succ_self k))

/-- A thread waits for its LOADs and STOREs and stops at its HALT, up to any
iteration, if and only if every iteration before meets the condition. -/
theorem waits_iff_meets (img : Image) (hlat : img.LatencyOk) (k : Nat) :
    (Waits img (blockedRun img k).log ↔ ∀ j < k, Meets img (blockedRun img j)) ∧
      (Waits img (finegrainedRun img k).log ↔ ∀ j < k, Meets img (finegrainedRun img j)) :=
  ⟨waits_run_iff hlat (blocked_iterates img) k, waits_run_iff hlat (finegrained_iterates img) k⟩

/-- What a loop returns is the run after some number of iterations, all of which
the loop makes. -/
theorem exists_timedRun (hlat : img.LatencyOk) (hbody : Iterates img body adds) {fuel : Nat}
    {s : Core} (hrun : whileLoop (Core.running img) body fuel (coreInit img) = some s) :
    ∃ k ≤ fuel, (∀ j < k, (timedRun img body adds j).core.running img = true) ∧
      (timedRun img body adds k).core = s ∧ (timedRun img body adds k).log.map Prod.snd = s.log ∧
      (Waits img (timedRun img body adds k).log ↔
        ∀ j < k, Meets img (timedRun img body adds j)) := by
  obtain ⟨k, hk, hiter, hrunning, -⟩ := whileLoop_eq_some_iff.mp hrun
  have hcore : (timedRun img body adds k).core = s := (timedRun_core img body adds k).trans hiter
  refine ⟨k, hk, fun j hj => ?_, hcore, ?_, waits_run_iff hlat hbody k⟩
  · rw [timedRun_core]
    exact hrunning j hj
  · rw [(clocked_run hbody k).log_eq, hcore]

/-- The instructions that `CORE_BlockedMT` has executed when it returns. -/
theorem coreBlockedMT_waits_iff (hlat : img.LatencyOk) {fuel : Nat} {s : Core}
    (hrun : coreBlockedMT img fuel = some s) :
    ∃ k ≤ fuel, (∀ j < k, (blockedRun img j).core.running img = true) ∧
      (blockedRun img k).core = s ∧ (blockedRun img k).log.map Prod.snd = s.log ∧
      (Waits img (blockedRun img k).log ↔ ∀ j < k, Meets img (blockedRun img j)) :=
  exists_timedRun hlat (blocked_iterates img) hrun

/-- The instructions that `CORE_FinegrainedMT` has executed when it returns. -/
theorem coreFinegrainedMT_waits_iff (hlat : img.LatencyOk) {fuel : Nat} {s : Core}
    (hrun : coreFinegrainedMT img fuel = some s) :
    ∃ k ≤ fuel, (∀ j < k, (finegrainedRun img j).core.running img = true) ∧
      (finegrainedRun img k).core = s ∧ (finegrainedRun img k).log.map Prod.snd = s.log ∧
      (Waits img (finegrainedRun img k).log ↔ ∀ j < k, Meets img (finegrainedRun img j)) :=
  exists_timedRun hlat (finegrained_iterates img) hrun

/-- Before any counter wraps the condition is met. -/
theorem Clocked.meets (hx : Clocked img x) (hshort : x.elapsed + img.maxLatency < uint32Max) :
    Meets img x := by
  intro b hb
  obtain ⟨hlt, hcycle⟩ := hx.logged b (List.mem_of_find?_eq_some hb)
  have hle := img.latency_le b.2.opcode
  have hwrap : ∀ n ≤ x.elapsed, wrap n = n := fun n hn => wrap_of_le (by omega)
  split
  · rw [hx.cycle, hwrap _ le_rfl]
    omega
  · refine Or.inl ?_
    rw [hcycle, hwrap _ (Nat.le_of_lt hlt)]
    omega

theorem elapsed_le {c : Nat} (hadds : ∀ s, adds s ≤ c) (k : Nat) :
    (timedRun img body adds k).elapsed ≤ k * c := by
  induction k with
  | zero => exact Nat.zero_le _
  | succ k ih =>
      rw [Nat.succ_mul]
      exact Nat.add_le_add ih (hadds _)

theorem finegrainedAdds_le (img : Image) (s : Core) : finegrainedAdds img s ≤ 1 := by
  unfold finegrainedAdds
  split <;> omega

theorem blockedAdds_le (img : Image) (s : Core) : blockedAdds img s ≤ max 1 img.switchCycles := by
  unfold blockedAdds
  split <;> omega

theorem waits_iff_meets_smallImage :
    Waits smallImage (blockedRun smallImage 1000).log ∧
      Waits smallImage (finegrainedRun smallImage 1000).log := by
  obtain ⟨hblocked, hfinegrained⟩ := waits_iff_meets smallImage ⟨by decide, by decide⟩ 1000
  have hmax : smallImage.maxLatency = 3 := rfl
  refine ⟨hblocked.mpr fun j hj => ?_, hfinegrained.mpr fun j hj => ?_⟩
  · refine (clocked_run (blocked_iterates smallImage) j).meets ?_
    have hle : (blockedRun smallImage j).elapsed ≤ j * 2 := elapsed_le (blockedAdds_le _) j
    simp only [blockedRun, uint32Max, hmax] at hle ⊢
    omega
  · refine (clocked_run (finegrained_iterates smallImage) j).meets ?_
    have hle : (finegrainedRun smallImage j).elapsed ≤ j * 1 := elapsed_le (finegrainedAdds_le _) j
    simp only [finegrainedRun, uint32Max, hmax] at hle ⊢
    omega

/-! ## A return cycle that wraps -/

/-- While its only thread waits, the core counts cycles. -/
theorem finegrainedStep_waiting (hn : img.threadnumber = 1) {s : Core} (hrr : s.rrIndex = 0)
    (hidle : s.idleCount = 0) (hlt : s.cycleCount < (s.coreThreads 0).returnCycle)
    (hmax : (s.coreThreads 0).returnCycle ≤ uint32Max) :
    finegrainedStep img s = { s with cycleCount := s.cycleCount + 1 } ∧
      finegrainedAdds img s = 1 := by
  have hready : s.currentReady = false := by
    unfold Core.currentReady
    rw [hrr, decide_eq_false_iff_not, Nat.not_le]
    exact hlt
  have hwrap : wrap (s.cycleCount + 1) = s.cycleCount + 1 := wrap_of_le (Nat.le_trans hlt hmax)
  refine ⟨?_, if_pos (Or.inr (by rw [hn, hidle]))⟩
  have hrr' : (s.rrIndex + 1) % img.threadnumber = s.rrIndex := by rw [hn, hrr]
  have hidle' : img.threadnumber ≤ s.idleCount + 1 := by rw [hn, hidle]
  simp only [finegrainedStep, hready, Bool.false_eq_true, if_false, Core.idle, hidle', if_true,
    Core.nextThread, hrr', hwrap, ← hidle]

/-- It does so until the return cycle of the thread. -/
theorem finegrainedRun_waiting (hn : img.threadnumber = 1) {k : Nat}
    (hx : finegrainedRun img k = x) (hrr : x.core.rrIndex = 0) (hidle : x.core.idleCount = 0)
    (hmax : (x.core.coreThreads 0).returnCycle ≤ uint32Max) : ∀ j,
    x.core.cycleCount + j ≤ (x.core.coreThreads 0).returnCycle →
      finegrainedRun img (k + j) =
        ⟨{ x.core with cycleCount := x.core.cycleCount + j }, x.elapsed + j, x.log⟩ := by
  intro j
  induction j with
  | zero => exact fun _ => hx
  | succ j ih =>
      intro hle
      have hstep : finegrainedRun img (k + (j + 1)) = timedStep img (finegrainedStep img)
          (finegrainedAdds img) (finegrainedRun img (k + j)) := rfl
      rw [hstep, ih (by omega), timedStep]
      have hlt : x.core.cycleCount + j < (x.core.coreThreads 0).returnCycle := hle
      obtain ⟨hbody, hadds⟩ := finegrainedStep_waiting hn
        (s := { x.core with cycleCount := x.core.cycleCount + j }) hrr hidle hlt hmax
      have hready : ({ x.core with cycleCount := x.core.cycleCount + j } : Core).currentReady =
          false := by
        unfold Core.currentReady
        rw [decide_eq_false_iff_not, Nat.not_le, hrr]
        exact hlt
      rw [hbody, hadds, hready]
      rfl

/-- One thread, LOAD, LOAD, HALT, with the longest latency there is. -/
def slowImage : Image where
  threadnumber := 1
  loadLatency := 2 ^ 31 - 1
  storeLatency := 0
  switchCycles := 0
  instructions := fun _ i => ⟨if i < 2 then .load else .halt, 0, 0, 0, true⟩
  dataStart := 0
  data := fun _ => 0

theorem slowImage_ok : slowImage.LatencyOk ∧ slowImage.HaltsAt fun _ => 2 := by
  refine ⟨⟨by decide, by decide⟩, fun t _ => ⟨rfl, fun i hi => ?_⟩⟩
  have hop : (slowImage.instructions t i).opcode = if i < 2 then .load else .halt := rfl
  rw [hop, if_pos hi]
  exact CmdOpcode.noConfusion

/-- The second LOAD is executed at cycle `2 ^ 31`, its return cycle is 0, and
the HALT follows in the next cycle. -/
theorem not_waits_slowImage : slowImage.LatencyOk ∧ (slowImage.HaltsAt fun _ => 2) ∧
    ∃ k, (∀ j < k, (finegrainedRun slowImage j).core.running slowImage = true) ∧
      ¬Waits slowImage (finegrainedRun slowImage k).log := by
  have hwait : ∀ j, 1 + j ≤ 2147483648 → finegrainedRun slowImage (1 + j) =
      ⟨{ (finegrainedRun slowImage 1).core with cycleCount := 1 + j }, 1 + j,
        (finegrainedRun slowImage 1).log⟩ := fun j hj =>
    @finegrainedRun_waiting slowImage _ rfl 1 rfl rfl rfl (by decide) j hj
  have hsucc : ∀ k, finegrainedRun slowImage (k + 1) = timedStep slowImage
      (finegrainedStep slowImage) (finegrainedAdds slowImage) (finegrainedRun slowImage k) :=
    fun _ => rfl
  refine ⟨slowImage_ok.1, slowImage_ok.2, 1 + 2147483647 + 1 + 1, fun j hj => ?_,
    fun hwaits => ?_⟩
  · rcases Nat.eq_zero_or_pos j with rfl | hpos
    · rfl
    obtain ⟨i, rfl⟩ : ∃ i, j = 1 + i := ⟨j - 1, by omega⟩
    rcases Nat.lt_or_ge 2147483648 (1 + i) with hlast | hle
    · obtain rfl : i = 2147483647 + 1 := by omega
      rw [← Nat.add_assoc, hsucc, hwait _ (by decide)]
      rfl
    · rw [hwait i hle]
      rfl
  · rw [hsucc, hsucc, hwait _ (by decide)] at hwaits
    have hload : 2147483648 + 1 + slowImage.loadLatency ≤ 2147483649 :=
      ((List.pairwise_cons.mp hwaits).1 (2147483648, ⟨2147483648, 0, 1, .load⟩)
        (List.mem_cons_self ..) rfl).2 rfl
    exact absurd hload (by decide)

end MtCore

end ArchSim
