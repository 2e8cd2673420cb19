import ArchSim.MtSchedule

/-!
# Issue order and termination of the cores

What the invariants of the two loops say at their end: the order in
which the instructions issue and the cycle of each, and that every
thread executes its instructions up to its HALT once each and in order.
-/

namespace ArchSim

namespace MtCore

variable {img : Image} {h : Nat → Nat} {step : Nat}

/-! ## Availability, read off a thread's last instruction -/

/-- Thread `t` has not executed HALT, and if its last instruction was a
LOAD or STORE, that is done at cycle `c`. -/
structure AvailableLast (img : Image) (log : List Issue) (t c : Nat) : Prop where
  running : ∀ e ∈ log, e.thread = t → e.opcode ≠ .halt
  done : ∀ e, log.find? (fun e => e.thread == t) = some e → e.opcode.isMem = true →
    e.cycle + 1 + img.latency e.opcode ≤ c

/-- A LOAD or STORE that is not the last instruction of its thread was
done when that was issued. -/
theorem available_iff_last {log : List Issue}
    (hlegal : ∀ e past, e :: past <:+ log → Available img past e.thread e.cycle) {t c : Nat}
    (hc : ∀ e ∈ log, e.cycle < c) : Available img log t c ↔ AvailableLast img log t c := by
  have hsplit : ∀ {e}, log.find? (fun e => e.thread == t) = some e →
      ∃ past, e :: past <:+ log ∧ e.thread = t ∧
        log.find? (fun e => e.thread == t && e.opcode.isMem) =
          (e :: past).find? (fun e => e.thread == t && e.opcode.isMem) := by
    intro e he
    obtain ⟨het, pre, past, rfl, hpre⟩ := List.find?_eq_some_iff_append.mp he
    refine ⟨past, List.suffix_append .., beq_iff_eq.mp het, ?_⟩
    have hnone : pre.find? (fun e => e.thread == t && e.opcode.isMem) = none :=
      List.find?_eq_none.mpr fun x hx => by
        have := hpre x hx
        simp_all
    rw [List.find?_append, hnone]
    rfl
  constructor
  · refine fun hav => ⟨hav.running, fun e he hmem => hav.done e ?_⟩
    obtain ⟨past, -, het, hfind⟩ := hsplit he
    rw [hfind]
    exact List.find?_cons_of_pos (by simp [het, hmem])
  · refine fun hav => ⟨hav.running, ?_⟩
    intro e₁ he₁
    have het₁ : e₁.thread = t := by
      have := List.find?_some he₁
      simp_all
    cases he : log.find? (fun e => e.thread == t) with
    | none =>
        have := List.find?_eq_none.mp he e₁ (List.mem_of_find?_eq_some he₁)
        exact absurd (beq_iff_eq.mpr het₁) this
    | some e =>
        obtain ⟨past, hsuf, het, hfind⟩ := hsplit he
        rw [hfind] at he₁
        by_cases hmem : e.opcode.isMem = true
        · rw [List.find?_cons_of_pos (by simp [het, hmem])] at he₁
          obtain rfl := Option.some.inj he₁
          exact hav.done e he hmem
        · rw [List.find?_cons_of_neg (by simp [hmem])] at he₁
          have hdone := (hlegal e past hsuf).done e₁ (het ▸ he₁)
          have := hc e (List.mem_of_find?_eq_some he)
          omega

theorem finegrainedNext_last {log : List Issue} (hn : 0 < img.threadnumber)
    (hok : LogOk img h step log)
    (hnext : Consecutive (FinegrainedNext (Available img) img.threadnumber) log) :
    Consecutive (FinegrainedNext (AvailableLast img) img.threadnumber) log := by
  intro e' e past hsuf
  have hsuf' : e :: past <:+ log := (List.suffix_cons e' _).trans hsuf
  have hiff : ∀ d, e.cycle < d → ∀ u < img.threadnumber,
      Available img (e :: past) u d ↔ AvailableLast img (e :: past) u d := by
    intro d hd u _
    refine available_iff_last (fun f rest hf => hok.legal f rest (hf.trans hsuf')) ?_
    intro f hf
    rcases List.mem_cons.mp hf with rfl | hf
    · exact hd
    · have hord := hok.ordered.sublist hsuf'.sublist
      exact Nat.lt_trans (List.rel_of_pairwise_cons hord hf) hd
  obtain ⟨htime, hfirst⟩ := hnext e' e past hsuf
  exact ⟨htime.congr hiff, hfirst.congr hn (hiff _ htime.later)⟩

/-! ## The end of a run -/

/-- The core has stopped with all threads halted. -/
theorem Sched.stop (hn : 0 < img.threadnumber) (hh : img.HaltsAt h) {s : Core}
    (hs : Sched img h step s) (hstop : img.threadnumber ≤ s.haltCount) :
    (∀ t < img.threadnumber, issued s.log t = h t + 1) ∧
      ∃ e past, s.log = e :: past ∧ e.opcode = .halt ∧ s.cycleCount = e.cycle + 1 := by
  have hclock := hs.stopped hstop
  rw [hs.tracks.haltCount] at hstop
  have hall := hs.ok.follows.all_halted hh hstop
  refine ⟨hall, ?_⟩
  cases hlog : s.log with
  | nil =>
      have := hall 0 hn
      rw [hlog] at this
      cases this
  | cons e past =>
      refine ⟨e, past, rfl, ?_, by rw [hclock, hlog]; rfl⟩
      have hfollows := hs.ok.follows
      rw [hlog] at hfollows hall
      obtain ⟨ht, hline, hle, hop, -⟩ := hfollows
      have := hall e.thread ht
      rw [issued_cons, if_pos rfl] at this
      rw [hop, show e.line = h e.thread by omega]
      exact (hh _ ht).1

/-- Every thread has executed its instructions up to its HALT, each once
and in their order, and these are all the instructions counted. -/
structure ExecutedOnce (img : Image) (h : Nat → Nat) (s : Core) : Prop where
  lines : ∀ t < img.threadnumber,
    (s.log.reverse.filter (·.thread = t)).map (·.line) = List.range (h t + 1)
  program : ∀ e ∈ s.log, e.thread < img.threadnumber ∧
    e.opcode = (img.instructions e.thread e.line).opcode
  instCount : s.instCount = ∑ t ∈ Finset.range img.threadnumber, (h t + 1)

theorem Follows.program {log : List Issue} (hf : Follows img h log) :
    ∀ e ∈ log, e.thread < img.threadnumber ∧
      e.opcode = (img.instructions e.thread e.line).opcode := by
  induction log with
  | nil => exact fun e he => (nomatch he)
  | cons f past ih =>
      obtain ⟨ht, -, -, hop, hpast⟩ := hf
      intro e he
      rcases List.mem_cons.mp he with rfl | he
      · exact ⟨ht, hop⟩
      · exact ih hpast e he

theorem Sched.executedOnce (hn : 0 < img.threadnumber) (hh : img.HaltsAt h) {s : Core}
    (hs : Sched img h step s) (hstop : img.threadnumber ≤ s.haltCount) :
    ExecutedOnce img h s := by
  obtain ⟨hall, -⟩ := hs.stop hn hh hstop
  refine ⟨?_, hs.ok.follows.program, ?_⟩
  · intro t ht
    rw [List.filter_reverse, List.map_reverse, hs.ok.follows.lines_eq, List.reverse_reverse,
      hall t ht]
  · rw [hs.tracks.instCount, hs.ok.follows.length_eq]
    exact Finset.sum_congr rfl fun t ht => hall t (Finset.mem_range.mp ht)

/-! ## What the cores do -/

/-- The issue order of the fine-grained core: at most one instruction in
a cycle, the first one at cycle 0 from thread 0, and after each the first
available thread in cyclic order at the first cycle at which any is. It
stops one cycle after the last HALT. -/
theorem finegrained_order (img : Image) (h : Nat → Nat) (hn : 1 ≤ img.threadnumber)
    (hh : img.HaltsAt h)
    (hbound : (1 + max img.loadLatency img.storeLatency) *
      ∑ t ∈ Finset.range img.threadnumber, (h t + 1) < 2 ^ 32 - 1) :
    ∃ fuel s, coreFinegrainedMT img fuel = some s ∧
      (s.log.Pairwise fun e' e => e.cycle < e'.cycle) ∧
      FirstIssue s.log ∧
      Consecutive (FinegrainedNext (AvailableLast img) img.threadnumber) s.log ∧
      ∃ e past, s.log = e :: past ∧ e.opcode = .halt ∧ s.cycleCount = e.cycle + 1 := by
  obtain ⟨fuel, s, hrun, hs, hstop⟩ := Fine.run hn hh hbound
  exact ⟨fuel, s, hrun, hs.sched.ok.ordered, hs.first,
    finegrainedNext_last hn hs.sched.ok hs.consecutive, (hs.sched.stop hn hh hstop).2⟩

/-- Two threads: one adds, stores and loads, the other loads and adds. -/
def smallImage : Image where
  threadnumber := 2
  loadLatency := 3
  storeLatency := 1
  switchCycles := 2
  instructions := fun t i =>
    match t, i with
    | 0, 0 => ⟨.addi, 1, 0, 5, true⟩
    | 0, 1 => ⟨.store, 0, 1, 0, true⟩
    | 0, 2 => ⟨.load, 2, 0, 0, true⟩
    | 1, 0 => ⟨.load, 3, 0, 4, true⟩
    | 1, 1 => ⟨.add, 3, 3, 3, false⟩
    | _, _ => ⟨.halt, 0, 0, 0, false⟩
  dataStart := 0
  data := fun w => BitVec.ofNat 32 (10 * w)

def smallHalts (t : Nat) : Nat := if t = 0 then 3 else 2

theorem finegrained_order_smallImage :
    ∃ fuel s, coreFinegrainedMT smallImage fuel = some s ∧ FirstIssue s.log ∧
      Consecutive (FinegrainedNext (AvailableLast smallImage) 2) s.log := by
  obtain ⟨fuel, s, hrun, -, hfirst, hnext, -⟩ := finegrained_order smallImage smallHalts
    (by decide) (by decide) (by decide)
  exact ⟨fuel, s, hrun, hfirst, hnext⟩

/-- The issue order of the blocked core: the first instruction issues at
cycle 0 from thread 0, a thread that can go on does, another one takes
over after the overhead, and no thread issues while it is unavailable. -/
theorem blocked_order (img : Image) (h : Nat → Nat) (hn : 1 ≤ img.threadnumber)
    (hh : img.HaltsAt h)
    (hbound : (1 + max img.loadLatency img.storeLatency + img.switchCycles) *
      ∑ t ∈ Finset.range img.threadnumber, (h t + 1) < 2 ^ 32 - 1) :
    ∃ fuel s, coreBlockedMT img fuel = some s ∧
      (s.log.Pairwise fun e' e => e.cycle < e'.cycle) ∧
      FirstIssue s.log ∧
      Consecutive (BlockedNext img) s.log ∧
      (∀ e past, e :: past <:+ s.log → Available img past e.thread e.cycle) ∧
      ∃ e past, s.log = e :: past ∧ e.opcode = .halt ∧ s.cycleCount = e.cycle + 1 := by
  obtain ⟨fuel, s, hrun, hs, hstop⟩ := Blocked.run hn hh hbound
  exact ⟨fuel, s, hrun, hs.sched.ok.ordered, hs.first, hs.consecutive, hs.sched.ok.legal,
    (hs.sched.stop hn hh hstop).2⟩

theorem blocked_order_smallImage :
    ∃ fuel s, coreBlockedMT smallImage fuel = some s ∧ FirstIssue s.log ∧
      Consecutive (BlockedNext smallImage) s.log := by
  obtain ⟨fuel, s, hrun, -, hfirst, hnext, -, -⟩ := blocked_order smallImage smallHalts
    (by decide) (by decide) (by decide)
  exact ⟨fuel, s, hrun, hfirst, hnext⟩

/-- Both cores stop, having executed every thread's instructions up to
its HALT exactly once. -/
theorem executes_once (img : Image) (h : Nat → Nat) (hn : 1 ≤ img.threadnumber)
    (hh : img.HaltsAt h)
    (hbound : (1 + max img.loadLatency img.storeLatency + img.switchCycles) *
      ∑ t ∈ Finset.range img.threadnumber, (h t + 1) < 2 ^ 32 - 1) :
    (∃ fuel s, coreBlockedMT img fuel = some s ∧ ExecutedOnce img h s) ∧
      ∃ fuel s, coreFinegrainedMT img fuel = some s ∧ ExecutedOnce img h s := by
  constructor
  · obtain ⟨fuel, s, hrun, hs, hstop⟩ := Blocked.run hn hh hbound
    exact ⟨fuel, s, hrun, hs.sched.executedOnce hn hh hstop⟩
  · obtain ⟨fuel, s, hrun, hs, hstop⟩ := Fine.run hn hh (Nat.lt_of_le_of_lt
      (Nat.mul_le_mul_right _ (Nat.le_add_right ..)) hbound)
    exact ⟨fuel, s, hrun, hs.sched.executedOnce hn hh hstop⟩

theorem executes_once_smallImage :
    (∃ fuel s, coreBlockedMT smallImage fuel = some s ∧ s.instCount = 7) ∧
      ∃ fuel s, coreFinegrainedMT smallImage fuel = some s ∧ s.instCount = 7 := by
  obtain ⟨⟨f, s, hs, hb⟩, ⟨f', s', hs', hf⟩⟩ := executes_once smallImage smallHalts
    (by decide) (by decide) (by decide)
  have htotal : ∑ t ∈ Finset.range smallImage.threadnumber, (smallHalts t + 1) = 7 := by decide
  exact ⟨⟨f, s, hs, hb.instCount.trans htotal⟩, ⟨f', s', hs', hf.instCount.trans htotal⟩⟩

end MtCore

end ArchSim
