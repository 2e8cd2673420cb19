import ArchSim.Intervals
import ArchSim.MtOrder

/-!
# Bounds on the cycle count

A thread alone takes a cycle for each instruction and the latencies of its
LOADs and STOREs. No core is faster than the longest thread, nor faster than
one instruction a cycle. From above, every cycle before the last instruction
is that of an instruction, or lies in the latency of one, or is part of the
overhead of a switch, which follows an instruction that blocks its thread.
-/

namespace ArchSim

namespace MtCore

variable {img : Image} {h : Nat → Nat} {step cost : Nat}

/-! ## The work of a thread -/

/-- How many of the instructions of thread `t` up to its HALT are `op`. -/
def Image.executed (img : Image) (h : Nat → Nat) (op : CmdOpcode) (t : Nat) : Nat :=
  ((Finset.range (h t + 1)).filter fun i => (img.instructions t i).opcode = op).card

/-- The cycles that thread `t` takes alone. -/
def Image.solo (img : Image) (h : Nat → Nat) (t : Nat) : Nat :=
  h t + 1 + img.executed h .load t * img.loadLatency + img.executed h .store t * img.storeLatency

/-- The cycles of an instruction and its latency. -/
def Image.span (img : Image) (op : CmdOpcode) : Nat := 1 + img.latency op

theorem sum_if_opcode (img : Image) (h : Nat → Nat) (op : CmdOpcode) (t c : Nat) :
    (∑ i ∈ Finset.range (h t + 1), if (img.instructions t i).opcode = op then c else 0) =
      img.executed h op t * c := by
  rw [← Finset.sum_filter, Finset.sum_const, smul_eq_mul]
  rfl

theorem sum_span (img : Image) (h : Nat → Nat) (t : Nat) :
    ∑ i ∈ Finset.range (h t + 1), img.span (img.instructions t i).opcode = img.solo h t := by
  have hspan : ∀ op, img.span op = 1 + (if op = .load then img.loadLatency else 0) +
      if op = .store then img.storeLatency else 0 := fun op => by
    cases op <;> rfl
  simp only [hspan, Finset.sum_add_distrib, sum_if_opcode, Finset.sum_const, Finset.card_range,
    smul_eq_mul, Nat.mul_one]
  rfl

theorem executed_halt (hh : img.HaltsAt h) {t : Nat} (ht : t < img.threadnumber) :
    img.executed h .halt t = 1 := by
  obtain ⟨hhalt, hnot⟩ := hh t ht
  refine Finset.card_eq_one.mpr ⟨h t, ?_⟩
  ext i
  rw [Finset.mem_filter, Finset.mem_range, Finset.mem_singleton]
  constructor
  · rintro ⟨hi, hop⟩
    by_contra hne
    exact hnot i (by omega) hop
  · rintro rfl
    exact ⟨Nat.lt_succ_self _, hhalt⟩

theorem sum_blocks (hh : img.HaltsAt h) {t : Nat} (ht : t < img.threadnumber) (cost : Nat) :
    (∑ i ∈ Finset.range (h t + 1), if (img.instructions t i).opcode.blocks then cost else 0) =
      (img.executed h .load t + img.executed h .store t + 1) * cost := by
  have hblocks : ∀ op : CmdOpcode, (if op.blocks then cost else 0) =
      (if op = .load then cost else 0) + (if op = .store then cost else 0) +
        if op = .halt then cost else 0 := fun op => by
    cases op <;> simp [CmdOpcode.blocks]
  simp only [hblocks, Finset.sum_add_distrib, sum_if_opcode, executed_halt hh ht]
  ring

/-- A sum over the log, thread by thread. -/
theorem Follows.sum_opcodes (f : CmdOpcode → Nat) : ∀ {log : List Issue}, Follows img h log →
    (log.map fun e => f e.opcode).sum = ∑ t ∈ Finset.range img.threadnumber,
      ∑ i ∈ Finset.range (issued log t), f (img.instructions t i).opcode
  | [], _ => by simp [issued]
  | e :: past, hf => by
      obtain ⟨ht, hline, -, hop, hpast⟩ := hf
      have hstep : ∀ t, ∑ i ∈ Finset.range (issued (e :: past) t), f (img.instructions t i).opcode =
          (∑ i ∈ Finset.range (issued past t), f (img.instructions t i).opcode) +
            if e.thread = t then f e.opcode else 0 := by
        intro t
        rw [issued_cons]
        split
        · rename_i het
          subst het
          rw [Finset.sum_range_succ, ← hline, ← hop]
        · rfl
      simp only [hstep, Finset.sum_add_distrib, Finset.sum_ite_eq, Finset.mem_range, if_pos ht,
        List.map_cons, List.sum_cons, ← hpast.sum_opcodes f]
      exact Nat.add_comm _ _

/-! ## From below -/

theorem length_le_clock : ∀ {log : List Issue},
    (log.Pairwise fun e' e => e.cycle < e'.cycle) → log.length ≤ clock log
  | [], _ => Nat.zero_le _
  | [e], _ => Nat.succ_le_succ (Nat.zero_le _)
  | e' :: e :: past, hord => by
      have hlt := List.rel_of_pairwise_cons hord (List.mem_cons_self ..)
      have ih := length_le_clock hord.of_cons
      simp only [List.length_cons, clock] at ih ⊢
      omega

/-- The cycle from which thread `t`, if it is not halted, may go on. -/
def doneAt (img : Image) : List Issue → Nat → Nat
  | [], _ => 0
  | e :: past, t => if e.thread = t then e.cycle + img.span e.opcode else doneAt img past t

theorem doneAt_le {log : List Issue} {t c : Nat} (hav : AvailableLast img log t c)
    (hc : ∀ e ∈ log, e.cycle < c) : doneAt img log t ≤ c := by
  induction log with
  | nil => exact Nat.zero_le _
  | cons e past ih =>
      rw [doneAt]
      split
      · rename_i het
        have hlt := hc e (List.mem_cons_self ..)
        have hdone := hav.done e (List.find?_cons_of_pos (by simp [het]))
        unfold Image.span
        cases hop : e.opcode <;> rw [hop] at hdone <;>
          first | exact (Nat.add_assoc ..).symm.trans_le (hdone rfl) | exact hlt
      · rename_i het
        have hfind : (e :: past).find? (fun e => e.thread == t) =
            past.find? fun e => e.thread == t := List.find?_cons_of_neg (by simp [het])
        exact ih ⟨fun e' he' => hav.running e' (List.mem_cons_of_mem _ he'),
          fun e' he' => hav.done e' (hfind.trans he')⟩
          fun e' he' => hc e' (List.mem_cons_of_mem _ he')

/-- A thread's own instructions do not overlap. -/
theorem work_le_doneAt : ∀ {log : List Issue}, Follows img h log →
    (log.Pairwise fun e' e => e.cycle < e'.cycle) →
    (∀ e past, e :: past <:+ log → Available img past e.thread e.cycle) → ∀ t,
    ∑ i ∈ Finset.range (issued log t), img.span (img.instructions t i).opcode ≤ doneAt img log t
  | [], _, _, _, t => by simp [issued]
  | e :: past, hf, hord, hlegal, t => by
      obtain ⟨-, hline, -, hop, hpast⟩ := hf
      have hlegal' : ∀ e' rest, e' :: rest <:+ past → Available img rest e'.thread e'.cycle :=
        fun e' rest hsuf => hlegal e' rest (hsuf.trans (List.suffix_cons e past))
      have ih := work_le_doneAt hpast hord.of_cons hlegal' t
      rw [issued_cons, doneAt]
      split
      · rename_i het
        subst het
        have hlt : ∀ e' ∈ past, e'.cycle < e.cycle := fun e' => List.rel_of_pairwise_cons hord
        have hav := (available_iff_last hlegal' hlt).mp (hlegal e past (List.suffix_refl _))
        have hle := ih.trans (doneAt_le hav hlt)
        rw [Finset.sum_range_succ, ← hline, ← hop]
        rw [← hline] at hle
        exact Nat.add_le_add_right hle _
      · exact ih

/-- A thread that has executed its HALT is done by then. -/
theorem doneAt_le_clock (hh : img.HaltsAt h) : ∀ {log : List Issue}, Follows img h log →
    (log.Pairwise fun e' e => e.cycle < e'.cycle) → ∀ t, issued log t = h t + 1 →
    doneAt img log t ≤ clock log
  | [], _, _, t, _ => Nat.zero_le _
  | e :: past, hf, hord, t, hall => by
      obtain ⟨ht, hline, -, hop, hpast⟩ := hf
      rw [issued_cons] at hall
      rw [doneAt]
      split
      · rename_i het
        subst het
        rw [if_pos rfl, ← hline] at hall
        rw [hop, Nat.succ.inj hall, (hh _ ht).1]
        exact Nat.le_refl _
      · rename_i het
        rw [if_neg het] at hall
        refine (doneAt_le_clock hh hpast hord.of_cons t hall).trans ?_
        cases past with
        | nil => exact Nat.zero_le _
        | cons f past =>
            have hlt := List.rel_of_pairwise_cons hord (List.mem_cons_self ..)
            exact Nat.le_succ_of_le (Nat.succ_le_of_lt hlt)

/-! ## From above -/

/-- The thread that goes on was not available before cycle `d`, and goes on
then, or, after an instruction that blocks its thread, within `cost` more
cycles. -/
def GoesOn (img : Image) (cost : Nat) (e' e : Issue) (past : List Issue) : Prop :=
  ∃ d, (∀ d', e.cycle < d' → d' < d → ¬Available img (e :: past) e'.thread d') ∧
    (e'.cycle ≤ d ∨ e.opcode.blocks = true ∧ e'.cycle ≤ d + cost)

/-- A running thread that is not available has a LOAD or STORE open. -/
theorem exists_open {log : List Issue} {t c : Nat}
    (hrun : ∀ e ∈ log, e.thread = t → e.opcode ≠ .halt) (hno : ¬Available img log t c) :
    ∃ e ∈ log, c < e.cycle + img.span e.opcode := by
  by_contra hall
  refine hno ⟨hrun, fun e he => Nat.le_of_not_lt fun hlt => hall ⟨e, ?_, ?_⟩⟩
  · exact List.mem_of_find?_eq_some he
  · rwa [Image.span, ← Nat.add_assoc]

/-- A cycle between two instructions is before the end of an earlier one, or
belongs to a switch. -/
theorem covered_between {e' e : Issue} {past : List Issue} {d x : Nat}
    (hnone : ∀ d', e.cycle < d' → d' < d → ¬Available img (e :: past) e'.thread d')
    (hcycle : e'.cycle ≤ d ∨ e.opcode.blocks = true ∧ e'.cycle ≤ d + cost)
    (hrun : ∀ f ∈ e :: past, f.thread = e'.thread → f.opcode ≠ .halt)
    (hlt : e.cycle < x) (hx : x < e'.cycle) :
    (∃ f ∈ e :: past, x < f.cycle + img.span f.opcode) ∨
      (d ≤ x ∧ x < d + if e.opcode.blocks then cost else 0) := by
  rcases Nat.lt_or_ge x d with hxd | hdx
  · exact Or.inl (exists_open hrun (hnone x hlt hxd))
  · obtain ⟨hblocks, hcycle⟩ := hcycle.resolve_left (by omega)
    rw [if_pos hblocks]
    exact Or.inr ⟨hdx, Nat.lt_of_lt_of_le hx hcycle⟩

/-- Every cycle up to the last instruction lies in the time of an
instruction or in the overhead of a switch. -/
theorem exists_covers : ∀ {log : List Issue},
    (log.Pairwise fun e' e => e.cycle < e'.cycle) →
    (∀ e past, e :: past <:+ log → Available img past e.thread e.cycle) → FirstIssue log →
    Consecutive (GoesOn img cost) log →
    ∃ ivs, Covers ivs (clock log) ∧ (∀ e ∈ log, (e.cycle, img.span e.opcode) ∈ ivs) ∧
      (ivs.map Prod.snd).sum ≤ (log.map fun e => img.span e.opcode).sum +
        (log.tail.map fun e => if e.opcode.blocks then cost else 0).sum
  | [], _, _, _, _ => ⟨[], Covers.nil, fun _ he => absurd he List.not_mem_nil, Nat.le_refl _⟩
  | [e], _, _, hfirst, _ => by
      have hzero := (hfirst e rfl).1
      refine ⟨[(e.cycle, img.span e.opcode)], ?_, ?_, ?_⟩
      · intro d hd
        refine ⟨_, List.mem_singleton_self _, ?_⟩
        simp only [clock, Image.span] at hd ⊢
        omega
      · intro e' he'
        rw [List.mem_singleton.mp he']
        exact List.mem_singleton_self _
      · exact Nat.le_refl _
  | e' :: e :: past, hord, hlegal, hfirst, hnext => by
      obtain ⟨ivs, hcovers, hmem, hsum⟩ := @exists_covers (e :: past) hord.of_cons
        (fun f rest hsuf => hlegal f rest (hsuf.trans (List.suffix_cons e' _)))
        (fun f hf => hfirst f (by rwa [List.getLast?_cons_cons]))
        fun f' f rest hsuf => hnext f' f rest (hsuf.trans (List.suffix_cons e' _))
      obtain ⟨d, hnone, hcycle⟩ := hnext e' e past (List.suffix_refl _)
      have hrun := (hlegal e' (e :: past) (List.suffix_refl _)).running
      -- The switch, if there is one, is an interval of its own.
      refine ⟨(e'.cycle, img.span e'.opcode) :: (d, if e.opcode.blocks then cost else 0) :: ivs,
        ?_, ?_, ?_⟩
      · refine hcovers.extend
          (fun p hp => List.mem_cons_of_mem _ (List.mem_cons_of_mem _ hp)) ?_
        intro x hx hlt
        rcases Nat.lt_or_ge x e'.cycle with hxe | hex
        · rcases covered_between hnone hcycle hrun hx hxe with ⟨f, hf, hopen⟩ | hswitch
          · have hfe : f.cycle ≤ e.cycle := by
              rcases List.mem_cons.mp hf with rfl | hf
              · exact Nat.le_refl _
              · exact Nat.le_of_lt (List.rel_of_pairwise_cons hord.of_cons hf)
            exact ⟨_, List.mem_cons_of_mem _ (List.mem_cons_of_mem _ (hmem f hf)),
              hfe.trans (Nat.le_of_lt hx), hopen⟩
          · exact ⟨_, List.mem_cons_of_mem _ (List.mem_cons_self ..), hswitch⟩
        · refine ⟨_, List.mem_cons_self .., hex, ?_⟩
          simp only [clock, Image.span] at hlt ⊢
          omega
      · intro f hf
        rcases List.mem_cons.mp hf with rfl | hf
        · exact List.mem_cons_self ..
        · exact List.mem_cons_of_mem _ (List.mem_cons_of_mem _ (hmem f hf))
      · simp only [List.map_cons, List.sum_cons, List.tail_cons] at hsum ⊢
        omega

theorem goesOn_of_finegrainedNext {log : List Issue} (hf : Follows img h log)
    (hnext : Consecutive (FinegrainedNext (Available img) img.threadnumber) log) :
    Consecutive (GoesOn img 0) log := by
  intro e' e past hsuf
  have hthread := (hf.program e' (hsuf.subset (List.mem_cons_self ..))).1
  obtain ⟨htime, -⟩ := hnext e' e past hsuf
  exact ⟨e'.cycle, fun d' hd' hlt => htime.none_before d' hd' hlt _ hthread,
    Or.inl (Nat.le_refl _)⟩

/-- Another thread takes over only after an instruction that blocks its
thread. -/
theorem blocks_of_not_available {e : Issue} {past : List Issue} {c : Nat}
    (hav : Available img past e.thread e.cycle) (hlt : e.cycle < c)
    (hno : ¬Available img (e :: past) e.thread c) : e.opcode.blocks = true := by
  by_contra hblocks
  rw [CmdOpcode.blocks_iff, not_or] at hblocks
  exact hno ((available_cons_of_not_isMem hblocks.2 hblocks.1).mpr (hav.mono (Nat.le_of_lt hlt)))

/-- A single thread never makes way for another one. -/
theorem goesOn_of_blockedNext {log : List Issue} (hf : Follows img h log)
    (hlegal : ∀ e past, e :: past <:+ log → Available img past e.thread e.cycle)
    (hnext : Consecutive (BlockedNext img) log)
    (hcost : img.threadnumber = 1 ∨ cost = img.switchCycles) :
    Consecutive (GoesOn img cost) log := by
  intro e' e past hsuf
  have hsuf' := (List.suffix_cons e' _).trans hsuf
  have hthread' := (hf.program e' (hsuf.subset (List.mem_cons_self ..))).1
  have hthread := (hf.program e (hsuf'.subset (List.mem_cons_self ..))).1
  obtain ⟨d, htime, hsame, hother⟩ := hnext e' e past hsuf
  refine ⟨d, fun d' hd' hlt => htime.none_before d' hd' hlt _ hthread', ?_⟩
  by_cases hgo : Available img (e :: past) e.thread d
  · exact Or.inl (Nat.le_of_eq (hsame hgo).2)
  · refine Or.inr ⟨blocks_of_not_available (hlegal e past hsuf') htime.later hgo, ?_⟩
    rcases hcost with hone | hcost
    · obtain ⟨u, hu, hav⟩ := htime.some_avail
      obtain rfl : u = e.thread := by omega
      exact absurd hav hgo
    · rw [hcost]
      exact Nat.le_of_eq (hother hgo).2

/-! ## The cycle count -/

/-- The total of a core that stops is between its bounds. -/
theorem cycleCount_bounds (hn : 0 < img.threadnumber) (hh : img.HaltsAt h) {s : Core}
    (hs : Sched img h step s) (hstop : img.threadnumber ≤ s.haltCount)
    (hfirst : FirstIssue s.log) (hnext : Consecutive (GoesOn img cost) s.log) :
    max (img.total h) ((Finset.range img.threadnumber).sup (img.solo h)) ≤ s.cycleCount ∧
      s.cycleCount ≤ (∑ t ∈ Finset.range img.threadnumber, img.solo h t) +
        cost * ((∑ t ∈ Finset.range img.threadnumber,
          (img.executed h .load t + img.executed h .store t)) + img.threadnumber - 1) := by
  obtain ⟨hall, e, past, hlog, hhalt, -⟩ := hs.stop hn hh hstop
  have hfollows := hs.ok.follows
  have hordered := hs.ok.ordered
  have hlegal := hs.ok.legal
  have hsum : ∀ f : CmdOpcode → Nat, (s.log.map fun e => f e.opcode).sum =
      ∑ t ∈ Finset.range img.threadnumber, ∑ i ∈ Finset.range (h t + 1),
        f (img.instructions t i).opcode := fun f => by
    rw [hfollows.sum_opcodes f]
    exact Finset.sum_congr rfl fun t ht => by rw [hall t (Finset.mem_range.mp ht)]
  rw [hs.stopped hstop]
  constructor
  · refine max_le ?_ (Finset.sup_le fun t ht => ?_)
    · have hlen : s.log.length = img.total h := by
        rw [hfollows.length_eq]
        exact Finset.sum_congr rfl fun t ht => hall t (Finset.mem_range.mp ht)
      rw [← hlen]
      exact length_le_clock hordered
    · have hdone := hall t (Finset.mem_range.mp ht)
      have hwork := work_le_doneAt hfollows hordered hlegal t
      rw [hdone, sum_span] at hwork
      exact hwork.trans (doneAt_le_clock hh hfollows hordered t hdone)
  · obtain ⟨ivs, hcovers, -, hivs⟩ := exists_covers hordered hlegal hfirst hnext
    have hspans : (s.log.map fun e => img.span e.opcode).sum =
        ∑ t ∈ Finset.range img.threadnumber, img.solo h t := by
      rw [hsum]
      exact Finset.sum_congr rfl fun t _ => sum_span img h t
    -- The last HALT is followed by no switch.
    have hswitches : (s.log.tail.map fun e => if e.opcode.blocks then cost else 0).sum + cost =
        ((∑ t ∈ Finset.range img.threadnumber,
          (img.executed h .load t + img.executed h .store t)) + img.threadnumber) * cost := by
      have hblocks := hsum fun op => if op.blocks then cost else 0
      rw [Finset.sum_congr rfl fun t ht => sum_blocks hh (Finset.mem_range.mp ht) cost,
        ← Finset.sum_mul, Finset.sum_add_distrib, Finset.sum_const, Finset.card_range,
        smul_eq_mul, Nat.mul_one] at hblocks
      rw [← hblocks, hlog, List.tail_cons, List.map_cons, List.sum_cons, hhalt]
      exact Nat.add_comm _ _
    have hle := hcovers.le_sum.trans hivs
    rw [hspans] at hle
    rw [Nat.mul_sub, Nat.mul_one, Nat.mul_comm cost]
    omega

/-- A single thread takes as long as it takes alone. -/
theorem cycleCount_single (hone : img.threadnumber = 1) (hh : img.HaltsAt h) {s : Core}
    (hs : Sched img h step s) (hstop : img.threadnumber ≤ s.haltCount)
    (hfirst : FirstIssue s.log) (hnext : Consecutive (GoesOn img 0) s.log) :
    s.cycleCount = img.solo h 0 := by
  have hn : 0 < img.threadnumber := by omega
  obtain ⟨hlower, hupper⟩ := cycleCount_bounds hn hh hs hstop hfirst hnext
  rw [Nat.zero_mul, Nat.add_zero, hone, Finset.sum_range_one] at hupper
  rw [hone, Finset.range_one, Finset.sup_singleton] at hlower
  exact Nat.le_antisymm hupper ((Nat.le_max_right ..).trans hlower)

/-- The cycle counts of both cores lie between the bounds on any schedule,
and a single thread takes on either as long as alone. -/
theorem makespan_bounds (img : Image) (h : Nat → Nat) (hn : 1 ≤ img.threadnumber)
    (hh : img.HaltsAt h)
    (hbound : (1 + max img.loadLatency img.storeLatency + img.switchCycles) *
      ∑ t ∈ Finset.range img.threadnumber, (h t + 1) < 2 ^ 32 - 1) :
    (∃ fuel s, coreFinegrainedMT img fuel = some s ∧
      max (∑ t ∈ Finset.range img.threadnumber, (h t + 1))
          ((Finset.range img.threadnumber).sup (img.solo h)) ≤ s.cycleCount ∧
      s.cycleCount ≤ ∑ t ∈ Finset.range img.threadnumber, img.solo h t ∧
      (img.threadnumber = 1 → s.cycleCount = img.solo h 0)) ∧
    ∃ fuel s, coreBlockedMT img fuel = some s ∧
      max (∑ t ∈ Finset.range img.threadnumber, (h t + 1))
          ((Finset.range img.threadnumber).sup (img.solo h)) ≤ s.cycleCount ∧
      s.cycleCount ≤ (∑ t ∈ Finset.range img.threadnumber, img.solo h t) +
        img.switchCycles * ((∑ t ∈ Finset.range img.threadnumber,
          (img.executed h .load t + img.executed h .store t)) + img.threadnumber - 1) ∧
      (img.threadnumber = 1 → s.cycleCount = img.solo h 0) := by
  constructor
  · obtain ⟨fuel, s, hrun, hs, hstop⟩ := Fine.run hn hh (Nat.lt_of_le_of_lt
      (Nat.mul_le_mul_right _ (Nat.le_add_right ..)) hbound)
    have hnext := goesOn_of_finegrainedNext hs.sched.ok.follows hs.consecutive
    obtain ⟨hlower, hupper⟩ := cycleCount_bounds hn hh hs.sched hstop hs.first hnext
    rw [Nat.zero_mul, Nat.add_zero] at hupper
    exact ⟨fuel, s, hrun, hlower, hupper,
      fun hone => cycleCount_single hone hh hs.sched hstop hs.first hnext⟩
  · obtain ⟨fuel, s, hrun, hs, hstop⟩ := Blocked.run hn hh hbound
    have hok := hs.sched.ok
    obtain ⟨hlower, hupper⟩ := cycleCount_bounds hn hh hs.sched hstop hs.first
      (goesOn_of_blockedNext hok.follows hok.legal hs.consecutive (Or.inr rfl))
    exact ⟨fuel, s, hrun, hlower, hupper, fun hone => cycleCount_single hone hh hs.sched hstop
      hs.first (goesOn_of_blockedNext hok.follows hok.legal hs.consecutive (Or.inl hone))⟩

theorem makespan_bounds_smallImage :
    (∃ fuel s, coreFinegrainedMT smallImage fuel = some s ∧ 8 ≤ s.cycleCount ∧
      s.cycleCount ≤ 14) ∧
    ∃ fuel s, coreBlockedMT smallImage fuel = some s ∧ 8 ≤ s.cycleCount ∧
      s.cycleCount ≤ 22 := by
  obtain ⟨⟨f, s, hs, hlower, hupper, -⟩, ⟨f', s', hs', hlower', hupper', -⟩⟩ :=
    makespan_bounds smallImage smallHalts (by decide) (by decide) (by decide)
  exact ⟨⟨f, s, hs, hlower, hupper⟩, ⟨f', s', hs', hlower', hupper'⟩⟩

end MtCore

end ArchSim
