import ArchSim.MtOrder

/-!
# Waiting for one's turn

The fine-grained core starves nobody: an available thread issues within as
many cycles as there are threads. Meanwhile the core issues in every cycle,
and the cyclic distance from the thread that has issued to the waiting one
falls with each instruction.
-/

namespace ArchSim

namespace MtCore

variable {img : Image} {h : Nat → Nat}

/-- What has been issued before cycle `c`. -/
def before (log : List Issue) (c : Nat) : List Issue := log.filter (·.cycle < c)

/-- The log splits at a cycle. -/
theorem exists_before {log : List Issue} (hord : log.Pairwise fun e' e => e.cycle < e'.cycle)
    (c : Nat) : ∃ later, log = later ++ before log c ∧ ∀ e ∈ later, c ≤ e.cycle := by
  induction log with
  | nil => exact ⟨[], rfl, fun _ he => absurd he List.not_mem_nil⟩
  | cons e log ih =>
      obtain ⟨hlt, hord⟩ := List.pairwise_cons.mp hord
      by_cases hc : e.cycle < c
      · have hall : ∀ f ∈ e :: log, f.cycle < c :=
          List.forall_mem_cons.mpr ⟨hc, fun f hf => Nat.lt_trans (hlt f hf) hc⟩
        refine ⟨[], ?_, fun _ he => absurd he List.not_mem_nil⟩
        exact (List.filter_eq_self.mpr fun f hf => decide_eq_true (hall f hf)).symm
      · obtain ⟨later, hlog, hlater⟩ := ih hord
        refine ⟨e :: later, ?_, List.forall_mem_cons.mpr ⟨Nat.le_of_not_lt hc, hlater⟩⟩
        rw [before, List.filter_cons_of_neg (by simpa using hc), List.cons_append]
        exact congrArg (e :: ·) hlog

/-- An available thread is not one that has issued all its instructions. -/
theorem ne_nil_of_available {s : Core} (hh : img.HaltsAt h) (hdone : ExecutedOnce img h s)
    {later past : List Issue} (hlog : s.log = later ++ past) {u c : Nat}
    (hu : u < img.threadnumber) (hav : Available img past u c) : later ≠ [] := by
  rintro rfl
  rw [List.nil_append] at hlog
  have hline : h u ∈ (s.log.reverse.filter (·.thread = u)).map (·.line) := by
    rw [hdone.lines u hu]
    exact List.mem_range.mpr (Nat.lt_succ_self _)
  obtain ⟨e, he, heq⟩ := List.mem_map.mp hline
  obtain ⟨hmem, hthread⟩ := List.mem_filter.mp he
  have hthread := of_decide_eq_true hthread
  have hmem := List.mem_reverse.mp hmem
  refine hav.running e (hlog ▸ hmem) hthread ?_
  rw [(hdone.program e hmem).2, hthread, heq, (hh u hu).1]

/-- A thread that is `i` places after the one that issued last waits for at
most `i` cycles. -/
theorem issues_soon {s : Core} (hs : Fine img h s) (hh : img.HaltsAt h)
    (hdone : ExecutedOnce img h s) {u : Nat} (hu : u < img.threadnumber) :
    ∀ (i : Nat) {c : Nat} {e : Issue} {past later : List Issue}, i < img.threadnumber →
      s.log = later ++ e :: past → (∀ f ∈ later, c ≤ f.cycle) → e.cycle < c →
      Available img (e :: past) u c → (e.thread + 1 + i) % img.threadnumber = u →
      ∃ f ∈ s.log, f.thread = u ∧ c ≤ f.cycle ∧ f.cycle ≤ c + i := by
  intro i
  induction i using Nat.strong_induction_on with
  | h i ih =>
      intro c e past later hi hlog hlater hec hav hdist
      have hne := ne_nil_of_available hh hdone hlog hu hav
      obtain ⟨older, e', rfl⟩ : ∃ older e', later = older ++ [e'] :=
        ⟨later.dropLast, later.getLast hne, (List.dropLast_append_getLast hne).symm⟩
      rw [List.append_assoc, List.singleton_append] at hlog
      have hmem : e' ∈ s.log := hlog ▸ List.mem_append_right _ (List.mem_cons_self ..)
      obtain ⟨htime, hfirst⟩ := hs.consecutive e' e past (hlog ▸ List.suffix_append _ _)
      -- The thread is available at `c`, so that some thread issues then.
      have hcycle : e'.cycle = c := by
        refine Nat.le_antisymm (Nat.le_of_not_lt fun hlt => htime.none_before c hec hlt u hu hav) ?_
        exact hlater e' (List.mem_append_right _ (List.mem_singleton_self _))
      rw [hcycle] at hfirst
      rcases hfirst.closer hi (hdist.symm ▸ hav) with hself | ⟨i', hi', hdist'⟩
      · exact ⟨e', hmem, hself.trans hdist, Nat.le_of_eq hcycle.symm, by omega⟩
      · rw [hdist] at hdist'
        by_cases hself : e'.thread = u
        · exact ⟨e', hmem, hself, Nat.le_of_eq hcycle.symm, by omega⟩
        · have hord := hs.sched.ok.ordered
          rw [hlog] at hord
          have holder : ∀ f ∈ older, c + 1 ≤ f.cycle := fun f hf =>
            hcycle ▸ (List.pairwise_append.mp hord).2.2 f hf e' (List.mem_cons_self ..)
          obtain ⟨f, hf, hfu, hlo, hhi⟩ := ih i' hi' (hi'.trans hi) hlog holder
            (by omega) ((available_cons_of_ne hself).mpr (hav.mono (Nat.le_succ c))) hdist'
          exact ⟨f, hf, hfu, by omega, by omega⟩

/-- A thread available at cycle `c` issues in that cycle or in one of the
`threadnumber - 1` next ones. -/
theorem served_within {s : Core} (hn : 0 < img.threadnumber) (hs : Fine img h s)
    (hh : img.HaltsAt h) (hdone : ExecutedOnce img h s) {u c : Nat} (hu : u < img.threadnumber)
    (hav : Available img (before s.log c) u c) :
    ∃ f ∈ s.log, f.thread = u ∧ c ≤ f.cycle ∧ f.cycle < c + img.threadnumber := by
  obtain ⟨later, hlog, hlater⟩ := exists_before hs.sched.ok.ordered c
  cases hpast : before s.log c with
  | cons e past =>
      have hec : e.cycle < c := of_decide_eq_true
        (List.mem_filter.mp (show e ∈ before s.log c from hpast ▸ List.mem_cons_self ..)).2
      rw [hpast] at hlog hav
      obtain ⟨i, hi, hdist⟩ := exists_cyclic e.thread hu
      obtain ⟨f, hf, hfu, hlo, hhi⟩ := issues_soon hs hh hdone hu i hi hlog hlater hec hav hdist
      exact ⟨f, hf, hfu, hlo, by omega⟩
  | nil =>
      -- Nothing has been issued, so that this is cycle 0 and thread 0 issues now.
      rw [hpast] at hlog hav
      have hne := ne_nil_of_available hh hdone hlog hu hav
      obtain ⟨older, e, rfl⟩ : ∃ older e, later = older ++ [e] :=
        ⟨later.dropLast, later.getLast hne, (List.dropLast_append_getLast hne).symm⟩
      rw [List.append_assoc, List.singleton_append] at hlog
      have hmem : e ∈ s.log := hlog ▸ List.mem_append_right _ (List.mem_cons_self ..)
      obtain ⟨hcycle, hthread⟩ := hs.first e (by rw [hlog, List.getLast?_append]; rfl)
      have hc : c = 0 := Nat.le_zero.mp <|
        hcycle ▸ hlater e (List.mem_append_right _ (List.mem_singleton_self _))
      subst hc
      by_cases hself : e.thread = u
      · exact ⟨e, hmem, hself, Nat.zero_le _, by omega⟩
      · have hord := hs.sched.ok.ordered
        rw [hlog] at hord
        have holder : ∀ f ∈ older, 0 + 1 ≤ f.cycle := fun f hf =>
          Nat.lt_of_le_of_lt (Nat.zero_le _)
            ((List.pairwise_append.mp hord).2.2 f hf e (List.mem_cons_self ..))
        have hdist : (e.thread + 1 + (u - 1)) % img.threadnumber = u := by
          rw [show e.thread + 1 + (u - 1) = u by omega, Nat.mod_eq_of_lt hu]
        obtain ⟨f, hf, hfu, -, hhi⟩ := issues_soon hs hh hdone hu (u - 1) (by omega) hlog holder
          (by omega) ((available_cons_of_ne hself).mpr (available_nil ..)) hdist
        exact ⟨f, hf, hfu, Nat.zero_le _, by omega⟩

/-- The fine-grained core starves no thread: one that is available at cycle
`c`, after what has been issued before `c`, issues in one of the
`threadnumber` cycles from `c` on, whatever the other threads do. -/
theorem finegrained_serves (img : Image) (h : Nat → Nat) (hn : 1 ≤ img.threadnumber)
    (hh : img.HaltsAt h)
    (hbound : (1 + max img.loadLatency img.storeLatency) *
      ∑ t ∈ Finset.range img.threadnumber, (h t + 1) < 2 ^ 32 - 1) :
    ∃ fuel s, coreFinegrainedMT img fuel = some s ∧
      ∀ c, ∀ u < img.threadnumber, Available img (before s.log c) u c →
        ∃ e ∈ s.log, e.thread = u ∧ c ≤ e.cycle ∧ e.cycle < c + img.threadnumber := by
  obtain ⟨fuel, s, hrun, hs, hstop⟩ := Fine.run hn hh hbound
  exact ⟨fuel, s, hrun, fun c u hu hav =>
    served_within hn hs hh (hs.sched.executedOnce hn hh hstop) hu hav⟩

theorem finegrained_serves_smallImage :
    ∃ fuel s, coreFinegrainedMT smallImage fuel = some s ∧
      ∃ e ∈ s.log, e.thread = 1 ∧ e.cycle < 2 := by
  obtain ⟨fuel, s, hrun, hserves⟩ := finegrained_serves smallImage smallHalts
    (by decide) (by decide) (by decide)
  have hnone : before s.log 0 = [] :=
    List.filter_eq_nil_iff.mpr fun e _ he => absurd (of_decide_eq_true he) (Nat.not_lt_zero _)
  obtain ⟨e, he, hthread, -, hlt⟩ := hserves 0 1 (by decide) (hnone ▸ available_nil _ 1 0)
  exact ⟨fuel, s, hrun, e, he, hthread, hlt⟩

end MtCore

end ArchSim
