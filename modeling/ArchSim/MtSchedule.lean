import ArchSim.MtLog

/-!
# The schedules of the two cores

One invariant for each loop. Both say that the core is where its log has
brought it and how long it can have been waiting since the last
instruction; `Fine` and `Blocked` add how far the search for the next
thread has got. From these follow the order in which the instructions
issue, the cycle of each, and that the loops end.
-/

namespace ArchSim

namespace MtCore

variable {img : Image} {h : Nat → Nat} {step : Nat}

/-! ## Common to both cores -/

/-- `R` relates each instruction to the one before it and to what was
issued earlier. -/
def Consecutive (R : Issue → Issue → List Issue → Prop) (log : List Issue) : Prop :=
  ∀ e' e past, e' :: e :: past <:+ log → R e' e past

theorem Consecutive.cons {R : Issue → Issue → List Issue → Prop} {log : List Issue}
    (hc : Consecutive R log) {e' : Issue} (hR : ∀ e past, log = e :: past → R e' e past) :
    Consecutive R (e' :: log) := by
  intro f' f past hsuf
  rcases List.suffix_cons_iff.mp hsuf with heq | hsuf
  · obtain ⟨rfl, hlog⟩ := List.cons.inj heq
    exact hR f past hlog.symm
  · exact hc f' f past hsuf

/-- The first instruction issues at cycle 0 from thread 0. -/
def FirstIssue (log : List Issue) : Prop :=
  ∀ e, log.getLast? = some e → e.cycle = 0 ∧ e.thread = 0

theorem FirstIssue.cons {log : List Issue} (hf : FirstIssue log) {e' : Issue}
    (he' : log = [] → e'.cycle = 0 ∧ e'.thread = 0) : FirstIssue (e' :: log) := by
  intro e he
  cases log with
  | nil => exact Option.some.inj he ▸ he' rfl
  | cons f past => exact hf e (by rwa [List.getLast?_cons_cons] at he)

/-- What both cores keep true of their logs, where at most `step` cycles
go by from one instruction to the next. -/
structure LogOk (img : Image) (h : Nat → Nat) (step : Nat) (log : List Issue) : Prop where
  follows : Follows img h log
  ordered : log.Pairwise fun e' e => e.cycle < e'.cycle
  legal : ∀ e past, e :: past <:+ log → Available img past e.thread e.cycle
  bound : clock log ≤ step * log.length

namespace LogOk

theorem nil (img : Image) (h : Nat → Nat) (step : Nat) : LogOk img h step [] :=
  ⟨trivial, List.Pairwise.nil, fun _ _ hsuf => by simp at hsuf, Nat.zero_le _⟩

theorem cycle_lt_clock {log : List Issue} (hok : LogOk img h step log) :
    ∀ e ∈ log, e.cycle < clock log := by
  intro e he
  cases log with
  | nil => cases he
  | cons f past =>
      rcases List.mem_cons.mp he with rfl | he
      · exact Nat.lt_succ_self _
      · exact Nat.lt_succ_of_lt (List.rel_of_pairwise_cons hok.ordered he)

/-- A thread that is not halted waits at most for its latency. -/
theorem available (hh : img.HaltsAt h) {log : List Issue} (hok : LogOk img h step log)
    {t : Nat} (ht : t < img.threadnumber) (hle : issued log t ≤ h t) :
    Available img log t (clock log + img.maxLatency) where
  running := (hok.follows.running_iff hh ht).mpr hle
  done := fun e he => by
    have := hok.cycle_lt_clock e (List.mem_of_find?_eq_some he)
    have := img.latency_le e.opcode
    omega

/-- While a thread is running, it is available soon and there is room for
another instruction below the bound. -/
theorem room (hh : img.HaltsAt h) {log : List Issue} (hok : LogOk img h step log)
    (hrun : log.countP (·.opcode = .halt) < img.threadnumber) :
    (∃ u < img.threadnumber, Available img log u (clock log + img.maxLatency)) ∧
      clock log + step ≤ step * (log.length + 1) ∧
      step * (log.length + 1) ≤ step * img.total h := by
  obtain ⟨u, hu, hle⟩ := hok.follows.exists_running hh hrun
  refine ⟨⟨u, hu, hok.available hh hu hle⟩, ?_,
    Nat.mul_le_mul_left step (hok.follows.length_lt hu hle)⟩
  rw [Nat.mul_succ]
  exact Nat.add_le_add_right hok.bound step

theorem length_lt (hh : img.HaltsAt h) (hstep : 0 < step) {log : List Issue}
    (hok : LogOk img h step log)
    (hrun : log.countP (·.opcode = .halt) < img.threadnumber) :
    log.length < step * img.total h :=
  Nat.lt_of_lt_of_le (Nat.le_mul_of_pos_left (log.length + 1) hstep) (hok.room hh hrun).2.2

/-- A thread that has just issued a LOAD or STORE goes on after it. -/
theorem length_lt_of_isMem (hh : img.HaltsAt h) {e : Issue} {past : List Issue}
    (hok : LogOk img h step (e :: past)) (hop : e.opcode.isMem = true) :
    past.length + 1 < img.total h := by
  obtain ⟨ht, hline, hle, hprog, -⟩ := hok.follows
  refine hok.follows.length_lt ht ?_
  have hne : e.line ≠ h e.thread := fun heq => by
    rw [hprog, heq, (hh _ ht).1] at hop
    cases hop
  rw [issued_cons, if_pos rfl]
  omega

/-- The current thread, available at the current cycle, issues. -/
theorem issue (hh : img.HaltsAt h) {s : Core} (hok : LogOk img h step s.log)
    (ht : Tracks img s) (hrr : s.rrIndex < img.threadnumber)
    (hav : Available img s.log s.rrIndex s.cycleCount) (hclock : clock s.log ≤ s.cycleCount)
    (hstep : s.cycleCount + 1 ≤ step * (s.log.length + 1)) :
    LogOk img h step (s.current img :: s.log) where
  follows := ⟨hrr, ht.rip _,
    Nat.le_trans (Nat.le_of_eq (ht.rip _)) ((hok.follows.running_iff hh hrr).mp hav.running),
    rfl, hok.follows⟩
  ordered := List.pairwise_cons.mpr
    ⟨fun e he => Nat.lt_of_lt_of_le (hok.cycle_lt_clock e he) hclock, hok.ordered⟩
  legal := fun e past hsuf => by
    rcases List.suffix_cons_iff.mp hsuf with heq | hsuf
    · obtain ⟨rfl, rfl⟩ := List.cons.inj heq
      exact hav
    · exact hok.legal e past hsuf
  bound := hstep

end LogOk

/-- The core is where its log has brought it. -/
structure Sched (img : Image) (h : Nat → Nat) (step : Nat) (s : Core) : Prop where
  tracks : Tracks img s
  ok : LogOk img h step s.log
  rr_lt : s.rrIndex < img.threadnumber
  clock_le : clock s.log ≤ s.cycleCount
  stopped : img.threadnumber ≤ s.haltCount → s.cycleCount = clock s.log

namespace Sched

theorem init (hn : 0 < img.threadnumber) (h : Nat → Nat) (step : Nat) :
    Sched img h step (coreInit img) :=
  ⟨Tracks.init img, LogOk.nil img h step, hn, Nat.le_refl _, fun _ => rfl⟩

theorem currentReady_iff (hh : img.HaltsAt h) {s : Core} (hs : Sched img h step s)
    (hc : s.cycleCount < uint32Max) :
    s.currentReady = true ↔ Available img s.log s.rrIndex s.cycleCount := by
  rw [Core.currentReady, decide_eq_true_iff, hs.tracks.returnCycle,
    hs.ok.follows.returnCycle_le_iff hh hc _ hs.rr_lt]

/-- One executed instruction: nothing wraps. -/
theorem executeInst (hh : img.HaltsAt h) (hlat : 1 + img.maxLatency ≤ step)
    (hbound : step * img.total h < uint32Max) {s : Core} (hs : Sched img h step s)
    (hrun : s.haltCount < img.threadnumber)
    (hav : Available img s.log s.rrIndex s.cycleCount)
    (hstep : s.cycleCount + 1 ≤ step * (s.log.length + 1)) :
    Sched img h step (executeInst img s) ∧ (executeInst img s).cycleCount = s.cycleCount + 1 := by
  rw [hs.tracks.haltCount] at hrun
  have hroom := (hs.ok.room hh hrun).2.2
  have hok := hs.ok.issue hh hs.tracks hs.rr_lt hav hs.clock_le hstep
  have hlen := hs.ok.length_lt hh (by omega) hrun
  have hmem : (s.current img).opcode.isMem = true →
      s.cycleCount + 1 + img.maxLatency ≤ uint32Max := fun hop => by
    have := Nat.mul_le_mul_left step (Nat.succ_le_of_lt (hok.length_lt_of_isMem hh hop))
    rw [Nat.mul_succ] at this
    omega
  have hwrap : (MtCore.executeInst img s).cycleCount = s.cycleCount + 1 :=
    wrap_of_le (by omega)
  exact ⟨⟨hs.tracks.executeInst hmem (by omega), hok, hs.rr_lt, Nat.le_of_eq hwrap.symm,
    fun _ => hwrap⟩, hwrap⟩

/-- Time passes, or another thread is looked at. -/
theorem wait {s s' : Core} (hs : Sched img h step s) (hrun : s.haltCount < img.threadnumber)
    (hthreads : s'.coreThreads = s.coreThreads) (hhalt : s'.haltCount = s.haltCount)
    (hinst : s'.instCount = s.instCount) (hlog : s'.log = s.log)
    (hrr : s'.rrIndex < img.threadnumber) (hcycle : s.cycleCount ≤ s'.cycleCount) :
    Sched img h step s' where
  tracks := ⟨by rw [hthreads, hlog]; exact hs.tracks.rip,
    by rw [hthreads, hlog]; exact hs.tracks.returnCycle,
    by rw [hhalt, hlog]; exact hs.tracks.haltCount,
    by rw [hinst, hlog]; exact hs.tracks.instCount⟩
  ok := hlog.symm ▸ hs.ok
  rr_lt := hrr
  clock_le := by rw [hlog]; exact Nat.le_trans hs.clock_le hcycle
  stopped := fun hstop => absurd hstop (by omega)

end Sched

/-! ## Fine-grained -/

/-- Fine-grained multithreading: the first available thread in cyclic
order at the first cycle at which any is available. -/
def FinegrainedNext (avail : List Issue → Nat → Nat → Prop) (n : Nat) (e' e : Issue)
    (past : List Issue) : Prop :=
  NextTime (avail (e :: past)) n e.cycle e'.cycle ∧
    FirstAfter (fun u => avail (e :: past) u e'.cycle) n e.thread e'.thread

/-- The invariant of the loop: `idle_count` threads have been polled at
the current cycle. -/
structure Fine (img : Image) (h : Nat → Nat) (s : Core) : Prop where
  sched : Sched img h (1 + img.maxLatency) s
  idle_lt : s.idleCount < img.threadnumber
  start : s.log = [] → s.cycleCount = 0 ∧ s.rrIndex = 0
  first : FirstIssue s.log
  polling : ∀ e past, s.log = e :: past →
    Polling (Available img s.log) img.threadnumber e.thread e.cycle s.cycleCount s.idleCount ∧
      s.rrIndex = (e.thread + 1 + s.idleCount) % img.threadnumber
  consecutive : Consecutive (FinegrainedNext (Available img) img.threadnumber) s.log

namespace Fine

theorem init (hn : 0 < img.threadnumber) (h : Nat → Nat) : Fine img h (coreInit img) :=
  ⟨Sched.init hn h _, hn, fun _ => ⟨rfl, rfl⟩, fun _ he => (nomatch he),
    fun _ _ hlog => (nomatch hlog), fun _ _ _ hsuf => by simp [coreInit] at hsuf⟩

/-- The current cycle is one at which some thread may still be available. -/
theorem cycle_le (hh : img.HaltsAt h) {s : Core} (hs : Fine img h s)
    (hrun : s.haltCount < img.threadnumber) : s.cycleCount ≤ clock s.log + img.maxLatency := by
  have hrun' := hrun
  rw [hs.sched.tracks.haltCount] at hrun'
  obtain ⟨⟨u, hu, hav⟩, -⟩ := hs.sched.ok.room hh hrun'
  cases hlog : s.log with
  | nil => rw [(hs.start hlog).1]; exact Nat.zero_le _
  | cons e past =>
      rw [← hlog]
      refine (hs.polling e past hlog).1.now_le hu ?_ hav
      rw [hlog]
      exact Nat.lt_of_lt_of_le (Nat.lt_succ_self _) (Nat.le_add_right ..)

theorem cycle_lt (hh : img.HaltsAt h) (hbound : (1 + img.maxLatency) * img.total h < uint32Max)
    {s : Core} (hs : Fine img h s) (hrun : s.haltCount < img.threadnumber) :
    s.cycleCount < uint32Max := by
  have hle := hs.cycle_le hh hrun
  rw [hs.sched.tracks.haltCount] at hrun
  have := hs.sched.ok.room hh hrun
  omega

/-- The rank of a state: a whole round of polls for each cycle left. -/
def rank (img : Image) (s : Core) : Nat :=
  (uint32Max - s.cycleCount) * (img.threadnumber + 1) - s.idleCount

theorem issue (hh : img.HaltsAt h) (hbound : (1 + img.maxLatency) * img.total h < uint32Max)
    {s : Core} (hs : Fine img h s) (hrun : s.haltCount < img.threadnumber)
    (hav : Available img s.log s.rrIndex s.cycleCount) :
    Fine img h (({ executeInst img s with idleCount := 0 } : Core).nextThread img) ∧
      (executeInst img s).cycleCount = s.cycleCount + 1 := by
  have hn : 0 < img.threadnumber := Nat.lt_of_le_of_lt (Nat.zero_le _) hrun
  have hcycle := hs.cycle_le hh hrun
  have hrun' := hrun
  rw [hs.sched.tracks.haltCount] at hrun'
  obtain ⟨-, hroom, hroom'⟩ := hs.sched.ok.room hh hrun'
  obtain ⟨hsched, hcycle'⟩ :=
    hs.sched.executeInst hh (Nat.le_refl _) hbound hrun hav (by omega)
  refine ⟨⟨⟨⟨hsched.tracks.rip, hsched.tracks.returnCycle, hsched.tracks.haltCount,
    hsched.tracks.instCount⟩, hsched.ok, Nat.mod_lt _ hn, hsched.clock_le, hsched.stopped⟩,
    hn, fun hlog => (nomatch hlog), ?_, ?_, ?_⟩, hcycle'⟩
  · exact fun e he => hs.first.cons (fun hlog => hs.start hlog) e he
  · rintro e past hlog
    obtain ⟨rfl, rfl⟩ := List.cons.inj hlog
    exact ⟨hcycle' ▸ Polling.start, rfl⟩
  · refine hs.consecutive.cons ?_
    intro e past hlog
    obtain ⟨hpoll, hrr⟩ := hs.polling e past hlog
    rw [hlog] at hav hpoll
    refine ⟨hpoll.nextTime hs.sched.rr_lt hav, ?_⟩
    rw [hrr] at hav
    show FirstAfter _ _ _ s.rrIndex
    rw [hrr]
    exact hpoll.firstAfter hs.idle_lt hav

theorem rank_tick {n c c' i : Nat} (hc : c < uint32Max) (hc' : c' = c + 1) (hi : i < n) :
    (uint32Max - c') * (n + 1) - 0 < (uint32Max - c) * (n + 1) - i := by
  rw [show uint32Max - c = uint32Max - c' + 1 by omega, Nat.succ_mul]
  omega

/-- The current thread is not available. -/
theorem poll (hs : Fine img h s) (hrun : s.haltCount < img.threadnumber)
    (hno : ¬Available img s.log s.rrIndex s.cycleCount) {s' : Core}
    (hthreads : s'.coreThreads = s.coreThreads) (hhalt : s'.haltCount = s.haltCount)
    (hinst : s'.instCount = s.instCount) (hlog : s'.log = s.log)
    (hrr : s'.rrIndex = (s.rrIndex + 1) % img.threadnumber)
    (hidle : (s'.cycleCount = s.cycleCount ∧ s'.idleCount = s.idleCount + 1 ∧
        s.idleCount + 1 < img.threadnumber) ∨
      (s'.cycleCount = s.cycleCount + 1 ∧ s'.idleCount = 0 ∧
        img.threadnumber ≤ s.idleCount + 1)) : Fine img h s' := by
  have hn : 0 < img.threadnumber := Nat.lt_of_le_of_lt (Nat.zero_le _) hrun
  have hne : s.log ≠ [] := fun hnil => hno (hnil ▸ available_nil ..)
  refine ⟨hs.sched.wait hrun hthreads hhalt hinst hlog (hrr ▸ Nat.mod_lt _ hn) (by omega),
    by omega, fun hnil => absurd (hlog ▸ hnil) hne, hlog ▸ hs.first, ?_,
    hlog ▸ hs.consecutive⟩
  intro e past hcons
  obtain ⟨hpoll, hrr'⟩ := hs.polling e past (hlog ▸ hcons)
  have hskip := hpoll.skip (hrr' ▸ hno)
  rw [hlog, hrr, hrr', Nat.mod_add_mod]
  rcases hidle with ⟨hc, hi, -⟩ | ⟨hc, hi, hround⟩
  · rw [hc, hi]
    exact ⟨hskip, rfl⟩
  · rw [hc, hi, show e.thread + 1 + s.idleCount + 1 = e.thread + 1 + img.threadnumber by
      have := hs.idle_lt; omega, Nat.add_mod_right]
    exact ⟨hskip.tick hround, rfl⟩

/-- One iteration. -/
theorem finegrainedStep (hh : img.HaltsAt h)
    (hbound : (1 + img.maxLatency) * img.total h < uint32Max) {s : Core} (hs : Fine img h s)
    (hrun : s.running img = true) :
    Fine img h (finegrainedStep img s) ∧ rank img (finegrainedStep img s) < rank img s := by
  have hrun : s.haltCount < img.threadnumber := of_decide_eq_true hrun
  have hcycle := hs.cycle_lt hh hbound hrun
  have hready := hs.sched.currentReady_iff hh hcycle
  unfold MtCore.finegrainedStep
  cases hr : s.currentReady with
  | true =>
      obtain ⟨hfine, hc⟩ := hs.issue hh hbound hrun (hready.mp hr)
      exact ⟨hfine, rank_tick hcycle hc hs.idle_lt⟩
  | false =>
      have hno : ¬Available img s.log s.rrIndex s.cycleCount := fun hav => by
        rw [hready.mpr hav] at hr
        cases hr
      simp only [Bool.false_eq_true, if_false]
      by_cases hround : img.threadnumber ≤ s.idle.idleCount
      · have hwrap : wrap (s.cycleCount + 1) = s.cycleCount + 1 := wrap_of_le hcycle
        rw [if_pos hround]
        exact ⟨hs.poll hrun hno rfl rfl rfl rfl rfl (Or.inr ⟨hwrap, rfl, hround⟩),
          rank_tick hcycle hwrap hs.idle_lt⟩
      · rw [if_neg hround]
        refine ⟨hs.poll hrun hno rfl rfl rfl rfl rfl
          (Or.inl ⟨rfl, rfl, Nat.lt_of_not_le hround⟩), ?_⟩
        have : img.threadnumber + 1 ≤ (uint32Max - s.cycleCount) * (img.threadnumber + 1) :=
          Nat.le_mul_of_pos_left _ (Nat.sub_pos_of_lt hcycle)
        have := hs.idle_lt
        show _ - (s.idleCount + 1) < _ - s.idleCount
        simp only [Core.nextThread, Core.idle]
        omega

/-- The loop ends, and what it ends with. -/
theorem run (hn : 0 < img.threadnumber) (hh : img.HaltsAt h)
    (hbound : (1 + img.maxLatency) * img.total h < uint32Max) :
    ∃ fuel s, coreFinegrainedMT img fuel = some s ∧ Fine img h s ∧
      img.threadnumber ≤ s.haltCount := by
  have hstep : ∀ s, Fine img h s → Core.running img s = true →
      Fine img h (MtCore.finegrainedStep img s) ∧
        rank img (MtCore.finegrainedStep img s) < rank img s :=
    fun s hs hrun => hs.finegrainedStep hh hbound hrun
  obtain ⟨fuel, s, hrun, hs, hstop⟩ := whileLoop_total hstep (Fine.init hn h)
  exact ⟨fuel, s, hrun, hs, Nat.le_of_not_lt (of_decide_eq_false hstop)⟩

end Fine

/-! ## Blocked -/

/-- Blocked multithreading: at the first cycle `d` at which any thread is
available the current one goes on if it can; otherwise the first
available thread in cyclic order takes over, after the overhead. -/
def BlockedNext (img : Image) (e' e : Issue) (past : List Issue) : Prop :=
  ∃ d, NextTime (Available img (e :: past)) img.threadnumber e.cycle d ∧
    (Available img (e :: past) e.thread d → e'.thread = e.thread ∧ e'.cycle = d) ∧
    (¬Available img (e :: past) e.thread d →
      FirstAfter (fun u => Available img (e :: past) u d) img.threadnumber e.thread e'.thread ∧
        e'.cycle = d + img.switchCycles)

/-- The largest number of cycles from one instruction to the next. -/
def Image.blockedSpan (img : Image) : Nat := 1 + img.maxLatency + img.switchCycles

/-- The thread that takes over at cycle `d` has been found. -/
structure Switched (img : Image) (e : Issue) (past : List Issue) (s : Core) (d : Nat) :
    Prop where
  next : NextTime (Available img (e :: past)) img.threadnumber e.cycle d
  blocked : ¬Available img (e :: past) e.thread d
  first : FirstAfter (fun u => Available img (e :: past) u d) img.threadnumber e.thread s.rrIndex
  cycle_eq : s.cycleCount = d + img.switchCycles

/-- The invariant of the loop: either the thread of the last instruction
is still current, or another one has taken over. -/
structure Blocked (img : Image) (h : Nat → Nat) (s : Core) : Prop where
  sched : Sched img h img.blockedSpan s
  start : s.log = [] → s.cycleCount = 0 ∧ s.rrIndex = 0
  first : FirstIssue s.log
  search : ∀ e past, s.log = e :: past →
    (s.rrIndex = e.thread ∧
      Polling (Available img (e :: past)) img.threadnumber e.thread e.cycle s.cycleCount 0) ∨
    ∃ d, Switched img e past s d
  consecutive : Consecutive (BlockedNext img) s.log

theorem Available.mono {log : List Issue} {t c c' : Nat} (hav : Available img log t c)
    (hle : c ≤ c') : Available img log t c' :=
  ⟨hav.running, fun e he => Nat.le_trans (hav.done e he) hle⟩

/-- What the inner loop does: it stops at the first available thread, and
comes back to where it started if there is none. -/
theorem scan_eq (img : Image) : ∀ (k : Nat) (s : Core), s.rrIndex < img.threadnumber →
    (∃ i < k, (s.coreThreads ((s.rrIndex + 1 + i) % img.threadnumber)).returnCycle ≤
          s.cycleCount ∧
        (∀ j < i, ¬(s.coreThreads ((s.rrIndex + 1 + j) % img.threadnumber)).returnCycle ≤
          s.cycleCount) ∧
        scan img k s = { s with
          rrIndex := (s.rrIndex + 1 + i) % img.threadnumber
          idleCount := s.idleCount + i
          cycleCount := wrap (s.cycleCount + img.switchCycles) }) ∨
    ((∀ j < k, ¬(s.coreThreads ((s.rrIndex + 1 + j) % img.threadnumber)).returnCycle ≤
        s.cycleCount) ∧
      scan img k s = { s with
        rrIndex := (s.rrIndex + k) % img.threadnumber
        idleCount := s.idleCount + k })
  | 0, s, hrr => Or.inr ⟨fun _ hj => absurd hj (Nat.not_lt_zero _), by
      simp only [scan, Nat.add_zero, Nat.mod_eq_of_lt hrr]⟩
  | k + 1, s, hrr => by
      have hn : 0 < img.threadnumber := Nat.lt_of_le_of_lt (Nat.zero_le _) hrr
      have hshift : ∀ i, ((s.rrIndex + 1) % img.threadnumber + 1 + i) % img.threadnumber =
          (s.rrIndex + 1 + (i + 1)) % img.threadnumber := fun i => by
        rw [Nat.add_assoc, Nat.mod_add_mod, Nat.add_comm 1 i]
      rw [scan]
      by_cases hready : (s.nextThread img).currentReady = true
      · have hready' := of_decide_eq_true hready
        refine Or.inl ⟨0, Nat.succ_pos k, hready', fun _ hj => absurd hj (Nat.not_lt_zero _), ?_⟩
        rw [if_pos hready]
        rfl
      · have hready' := fun hle => hready (decide_eq_true hle)
        rw [if_neg hready]
        rcases scan_eq img k (s.nextThread img).idle (Nat.mod_lt _ hn) with
          ⟨i, hi, hav, hnot, heq⟩ | ⟨hnot, heq⟩
        · refine Or.inl ⟨i + 1, Nat.succ_lt_succ hi, ?_, ?_, ?_⟩
          · rw [← hshift]
            exact hav
          · intro j hj
            cases j with
            | zero => exact hready'
            | succ j =>
                rw [← hshift]
                exact hnot j (Nat.lt_of_succ_lt_succ hj)
          · rw [heq]
            simp only [Core.idle, Core.nextThread, hshift]
            rw [show s.idleCount + 1 + i = s.idleCount + (i + 1) by omega]
        · refine Or.inr ⟨?_, ?_⟩
          · intro j hj
            cases j with
            | zero => exact hready'
            | succ j =>
                rw [← hshift]
                exact hnot j (Nat.lt_of_succ_lt_succ hj)
          · rw [heq]
            simp only [Core.idle, Core.nextThread, Nat.mod_add_mod]
            rw [show s.idleCount + 1 + k = s.idleCount + (k + 1) by omega,
              show s.rrIndex + 1 + k = s.rrIndex + (k + 1) by omega]

namespace Blocked

theorem init (hn : 0 < img.threadnumber) (h : Nat → Nat) : Blocked img h (coreInit img) :=
  ⟨Sched.init hn h _, fun _ => ⟨rfl, rfl⟩, fun _ he => (nomatch he),
    fun _ _ hlog => (nomatch hlog), fun _ _ _ hsuf => by simp [coreInit] at hsuf⟩

/-- A thread that has taken over is available. -/
theorem switched_available {e : Issue} {past : List Issue} {s : Core} {d : Nat}
    (hsw : Switched img e past s d) : Available img (e :: past) s.rrIndex s.cycleCount := by
  obtain ⟨i, -, -, hav, -⟩ := hsw.first
  rw [hsw.cycle_eq]
  exact hav.mono (Nat.le_add_right ..)

/-- How late it can be, before and after a switch. -/
theorem cycle_le (hh : img.HaltsAt h) {s : Core} (hs : Blocked img h s)
    (hrun : s.haltCount < img.threadnumber) :
    s.cycleCount + 1 ≤ clock s.log + img.blockedSpan ∧
      (¬Available img s.log s.rrIndex s.cycleCount →
        s.cycleCount ≤ clock s.log + img.maxLatency) := by
  have hrun' := hrun
  rw [hs.sched.tracks.haltCount] at hrun'
  obtain ⟨⟨u, hu, hav⟩, -⟩ := hs.sched.ok.room hh hrun'
  unfold Image.blockedSpan
  cases hlog : s.log with
  | nil =>
      have := (hs.start hlog).1
      exact ⟨by omega, fun _ => by omega⟩
  | cons e past =>
      rw [hlog] at hav
      have hlater : e.cycle < clock (e :: past) + img.maxLatency :=
        Nat.lt_of_lt_of_le (Nat.lt_succ_self _) (Nat.le_add_right ..)
      rcases hs.search e past hlog with ⟨-, hpoll⟩ | ⟨d, hsw⟩
      · have := hpoll.now_le hu hlater hav
        exact ⟨by omega, fun _ => this⟩
      · have hd : d ≤ clock (e :: past) + img.maxLatency :=
          Nat.le_of_not_lt fun hlt => hsw.next.none_before _ hlater hlt u hu hav
        have := hsw.cycle_eq
        exact ⟨by omega, fun hno => absurd (switched_available hsw) hno⟩

theorem cycle_lt (hh : img.HaltsAt h) (hbound : img.blockedSpan * img.total h < uint32Max)
    {s : Core} (hs : Blocked img h s) (hrun : s.haltCount < img.threadnumber) :
    s.cycleCount < uint32Max := by
  have hle := (hs.cycle_le hh hrun).1
  rw [hs.sched.tracks.haltCount] at hrun
  have := hs.sched.ok.room hh hrun
  omega

theorem issue (hh : img.HaltsAt h) (hbound : img.blockedSpan * img.total h < uint32Max)
    {s : Core} (hs : Blocked img h s) (hrun : s.haltCount < img.threadnumber)
    (hav : Available img s.log s.rrIndex s.cycleCount) :
    Blocked img h (executeInst img s) ∧ (executeInst img s).cycleCount = s.cycleCount + 1 := by
  have hcycle := (hs.cycle_le hh hrun).1
  have hrun' := hrun
  rw [hs.sched.tracks.haltCount] at hrun'
  obtain ⟨-, hroom, -⟩ := hs.sched.ok.room hh hrun'
  obtain ⟨hsched, hcycle'⟩ := hs.sched.executeInst hh
    (Nat.le_add_right ..) hbound hrun hav (Nat.le_trans hcycle hroom)
  refine ⟨⟨hsched, fun hlog => (nomatch hlog), hs.first.cons fun hlog => hs.start hlog, ?_, ?_⟩,
    hcycle'⟩
  · rintro e past hlog
    obtain ⟨rfl, rfl⟩ := List.cons.inj hlog
    exact Or.inl ⟨rfl, hcycle' ▸ Polling.start⟩
  · refine hs.consecutive.cons ?_
    intro e past hlog
    rw [hlog] at hav
    rcases hs.search e past hlog with ⟨hrr, hpoll⟩ | ⟨d, hsw⟩
    · exact ⟨s.cycleCount, hpoll.nextTime hs.sched.rr_lt hav, fun _ => ⟨hrr, rfl⟩,
        fun hno => absurd (hrr ▸ hav) hno⟩
    · exact ⟨d, hsw.next, fun hav' => absurd hav' hsw.blocked, fun _ => ⟨hsw.first, hsw.cycle_eq⟩⟩

/-- The current thread is not available: then it is still the thread of
the last instruction, and the inner loop looks for another one. -/
theorem search_of_not_available {s : Core} (hs : Blocked img h s)
    (hno : ¬Available img s.log s.rrIndex s.cycleCount) :
    ∃ e past, s.log = e :: past ∧ s.rrIndex = e.thread ∧
      Polling (Available img (e :: past)) img.threadnumber e.thread e.cycle s.cycleCount 0 := by
  cases hlog : s.log with
  | nil => exact absurd (hlog ▸ available_nil ..) hno
  | cons e past =>
      rcases hs.search e past hlog with ⟨hrr, hpoll⟩ | ⟨d, hsw⟩
      · exact ⟨e, past, rfl, hrr, hpoll⟩
      · exact absurd (hlog ▸ switched_available hsw) hno

def rank (s : Core) : Nat :=
  2 * (uint32Max - s.cycleCount) + if s.currentReady then 0 else 1

/-- No thread is available: a cycle passes. -/
theorem tick {s : Core} (hs : Blocked img h s) (hrun : s.haltCount < img.threadnumber)
    (hno : ¬Available img s.log s.rrIndex s.cycleCount)
    (hnone : ∀ u < img.threadnumber, ¬Available img s.log u s.cycleCount) (i : Nat) :
    Blocked img h { s with idleCount := i, cycleCount := s.cycleCount + 1 } := by
  obtain ⟨e, past, hlog, hrr, hpoll⟩ := hs.search_of_not_available hno
  refine ⟨hs.sched.wait hrun rfl rfl rfl rfl hs.sched.rr_lt (Nat.le_succ _),
    ?_, hs.first, ?_, hs.consecutive⟩
  · intro hnil
    cases hlog.symm.trans hnil
  · intro e' past' hlog'
    obtain ⟨rfl, rfl⟩ := List.cons.inj (hlog.symm.trans hlog')
    exact Or.inl ⟨hrr, hpoll.pass (hlog ▸ hnone)⟩

/-- Another thread takes over. -/
theorem switch {s : Core} (hs : Blocked img h s) (hrun : s.haltCount < img.threadnumber)
    (hno : ¬Available img s.log s.rrIndex s.cycleCount) {r : Nat} (hr : r < img.threadnumber)
    (hfirst : FirstAfter (fun u => Available img s.log u s.cycleCount) img.threadnumber
      s.rrIndex r) (i : Nat) :
    Blocked img h { s with
      rrIndex := r, idleCount := i, cycleCount := s.cycleCount + img.switchCycles } ∧
    Available img s.log r (s.cycleCount + img.switchCycles) := by
  obtain ⟨e, past, hlog, hrr, hpoll⟩ := hs.search_of_not_available hno
  rw [hlog, hrr] at hno hfirst
  obtain ⟨j, hj, rfl, hav, hnot⟩ := hfirst
  refine ⟨⟨hs.sched.wait hrun rfl rfl rfl rfl hr (Nat.le_add_right ..),
    ?_, hs.first, ?_, hs.consecutive⟩, ?_⟩
  · intro hnil
    cases hlog.symm.trans hnil
  · intro e' past' hlog'
    obtain ⟨rfl, rfl⟩ := List.cons.inj (hlog.symm.trans hlog')
    exact Or.inr ⟨s.cycleCount, hpoll.nextTime hr hav, hno, ⟨j, hj, rfl, hav, hnot⟩, rfl⟩
  · rw [hlog]
    exact hav.mono (Nat.le_add_right ..)

/-- The inner loop, and the cycle that passes when it finds no thread. -/
theorem blockedStep_of_not_ready (hh : img.HaltsAt h) {s : Core} (hs : Blocked img h s)
    (hcycle : s.cycleCount + img.switchCycles < uint32Max) (hr : s.currentReady = false) :
    ∃ r i c, blockedStep img s = { s with rrIndex := r, idleCount := i, cycleCount := c } ∧
      r < img.threadnumber ∧
      ((r = s.rrIndex ∧ c = s.cycleCount + 1 ∧
          ∀ u < img.threadnumber, ¬Available img s.log u s.cycleCount) ∨
        (c = s.cycleCount + img.switchCycles ∧
          FirstAfter (fun u => Available img s.log u s.cycleCount) img.threadnumber s.rrIndex
            r)) := by
  have hn : 0 < img.threadnumber := Nat.lt_of_le_of_lt (Nat.zero_le _) hs.sched.rr_lt
  have hready : ∀ u < img.threadnumber,
      (s.coreThreads u).returnCycle ≤ s.cycleCount ↔ Available img s.log u s.cycleCount :=
    fun u hu => by
      rw [hs.sched.tracks.returnCycle]
      exact hs.sched.ok.follows.returnCycle_le_iff hh (by omega) u hu
  simp only [blockedStep, hr, Bool.false_eq_true, if_false]
  rcases scan_eq img img.threadnumber { s with idleCount := 0 } hs.sched.rr_lt with
    ⟨i, hi, hav, hnot, heq⟩ | ⟨hnot, heq⟩ <;> rw [heq] <;> dsimp only at *
  · refine ⟨_, _, _, if_neg (by omega), Nat.mod_lt _ hn, Or.inr ⟨wrap_of_le (by omega), ?_⟩⟩
    exact ⟨i, hi, rfl, (hready _ (Nat.mod_lt _ hn)).mp hav,
      fun j hj hav' => hnot j hj ((hready _ (Nat.mod_lt _ hn)).mpr hav')⟩
  · have hrr : (s.rrIndex + img.threadnumber) % img.threadnumber = s.rrIndex := by
      rw [Nat.add_mod_right, Nat.mod_eq_of_lt hs.sched.rr_lt]
    refine ⟨_, _, _, if_pos (Nat.zero_add _), Nat.mod_lt _ hn,
      Or.inl ⟨hrr, wrap_of_le (by omega), ?_⟩⟩
    exact none_avail_of_round s.rrIndex fun j hj hav =>
      hnot j hj ((hready _ (Nat.mod_lt _ hn)).mpr hav)

/-- One iteration. -/
theorem blockedStep (hh : img.HaltsAt h) (hbound : img.blockedSpan * img.total h < uint32Max)
    {s : Core} (hs : Blocked img h s) (hrun : s.running img = true) :
    Blocked img h (blockedStep img s) ∧ rank (blockedStep img s) < rank s := by
  have hrun : s.haltCount < img.threadnumber := of_decide_eq_true hrun
  obtain ⟨hle, hle'⟩ := hs.cycle_le hh hrun
  have hrun' := hrun
  rw [hs.sched.tracks.haltCount] at hrun'
  obtain ⟨-, hroom, hroom'⟩ := hs.sched.ok.room hh hrun'
  have hready := hs.sched.currentReady_iff hh (hs.cycle_lt hh hbound hrun)
  cases hr : s.currentReady with
  | true =>
      obtain ⟨hblocked, hc⟩ := hs.issue hh hbound hrun (hready.mp hr)
      rw [MtCore.blockedStep, if_pos hr]
      refine ⟨hblocked, ?_⟩
      simp only [rank, hc, hr, if_true]
      split <;> omega
  | false =>
      have hno : ¬Available img s.log s.rrIndex s.cycleCount := fun hav => by
        rw [hready.mpr hav] at hr
        cases hr
      have hlt := hle' hno
      obtain ⟨r, i, c, heq, hr', hcase⟩ :=
        hs.blockedStep_of_not_ready hh (by unfold Image.blockedSpan at *; omega) hr
      rw [heq]
      rcases hcase with ⟨rfl, rfl, hnone⟩ | ⟨rfl, hfirst⟩
      · refine ⟨hs.tick hrun hno hnone i, ?_⟩
        simp only [rank, hr, Bool.false_eq_true, if_false]
        split <;> omega
      · have hc : s.cycleCount + img.switchCycles < uint32Max := by
          unfold Image.blockedSpan at *
          omega
        obtain ⟨hblocked, hav⟩ := hs.switch hrun hno hr' hfirst i
        refine ⟨hblocked, ?_⟩
        simp only [rank, hr, (hblocked.sched.currentReady_iff hh hc).mpr hav, Bool.false_eq_true,
          if_false, if_true]
        omega

/-- The loop ends, and what it ends with. -/
theorem run (hn : 0 < img.threadnumber) (hh : img.HaltsAt h)
    (hbound : img.blockedSpan * img.total h < uint32Max) :
    ∃ fuel s, coreBlockedMT img fuel = some s ∧ Blocked img h s ∧
      img.threadnumber ≤ s.haltCount := by
  have hstep : ∀ s, Blocked img h s → Core.running img s = true →
      Blocked img h (MtCore.blockedStep img s) ∧ rank (MtCore.blockedStep img s) < rank s :=
    fun s hs hrun => hs.blockedStep hh hbound hrun
  obtain ⟨fuel, s, hrun, hs, hstop⟩ := whileLoop_total hstep (init hn h)
  exact ⟨fuel, s, hrun, hs, Nat.le_of_not_lt (of_decide_eq_false hstop)⟩

end Blocked

end MtCore

end ArchSim
