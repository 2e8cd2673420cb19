import ArchSim.MtCore
import ArchSim.RoundRobin

/-!
# What the issued instructions determine

The list of the instructions that a core has issued, latest first,
determines its scheduling state: how far each thread is, until when it
is unavailable, and how many have halted (`Tracks`). The rest of this
module is about such lists alone: which threads are available, how the
instructions of a program follow one another (`Follows`), and how long
it can take until some thread is available again (`LogOk`).
-/

namespace ArchSim

namespace MtCore

def CmdOpcode.isMem : CmdOpcode → Bool
  | .load | .store => true
  | _ => false

/-- The instructions that can make another thread take over. -/
def CmdOpcode.blocks : CmdOpcode → Bool
  | .load | .store | .halt => true
  | _ => false

theorem CmdOpcode.blocks_iff {op : CmdOpcode} :
    op.blocks = true ↔ op = .halt ∨ op.isMem = true := by
  cases op <;> simp [blocks, isMem]

def Image.latency (img : Image) : CmdOpcode → Nat
  | .load => img.loadLatency
  | .store => img.storeLatency
  | _ => 0

/-- The longest time that a LOAD or STORE blocks its thread. -/
def Image.maxLatency (img : Image) : Nat := max img.loadLatency img.storeLatency

theorem Image.latency_le (img : Image) (op : CmdOpcode) : img.latency op ≤ img.maxLatency := by
  cases op <;> simp [Image.latency, Image.maxLatency]

/-- Each thread's instructions contain a HALT; thread `t` has its first
one in line `h t`. -/
def Image.HaltsAt (img : Image) (h : Nat → Nat) : Prop :=
  ∀ t < img.threadnumber, (img.instructions t (h t)).opcode = .halt ∧
    ∀ i < h t, (img.instructions t i).opcode ≠ .halt

instance (img : Image) (h : Nat → Nat) : Decidable (img.HaltsAt h) :=
  inferInstanceAs (Decidable (∀ t < img.threadnumber, (img.instructions t (h t)).opcode = .halt ∧
    ∀ i < h t, (img.instructions t i).opcode ≠ .halt))

/-- The number of instructions up to the HALTs. -/
def Image.total (img : Image) (h : Nat → Nat) : Nat :=
  ∑ t ∈ Finset.range img.threadnumber, (h t + 1)

/-! ## Reading the log -/

/-- After the instructions `log` thread `t` is available at cycle `c`: it
has not executed HALT, and its last LOAD or STORE is done. -/
structure Available (img : Image) (log : List Issue) (t c : Nat) : Prop where
  running : ∀ e ∈ log, e.thread = t → e.opcode ≠ .halt
  done : ∀ e, log.find? (fun e => e.thread == t && e.opcode.isMem) = some e →
    e.cycle + 1 + img.latency e.opcode ≤ c

theorem available_nil (img : Image) (t c : Nat) : Available img [] t c :=
  ⟨fun _ he => (nomatch he), fun _ he => (nomatch he)⟩

section

variable {img : Image} {e : Issue} {past : List Issue} {t c : Nat}

theorem available_cons_of_ne (h : e.thread ≠ t) :
    Available img (e :: past) t c ↔ Available img past t c := by
  have hfind : (e :: past).find? (fun e' => e'.thread == t && e'.opcode.isMem) =
      past.find? (fun e' => e'.thread == t && e'.opcode.isMem) :=
    List.find?_cons_of_neg (by simp [h])
  refine ⟨fun hav => ⟨fun e' he' => hav.running e' (List.mem_cons_of_mem _ he'),
    fun e' he' => hav.done e' (hfind.symm ▸ he')⟩,
    fun hav => ⟨?_, fun e' he' => hav.done e' (hfind ▸ he')⟩⟩
  intro e' he' ht
  rcases List.mem_cons.mp he' with rfl | he'
  · exact absurd ht h
  · exact hav.running e' he' ht

theorem not_available_cons_of_halt (h : e.opcode = .halt) :
    ¬Available img (e :: past) e.thread c := fun hav =>
  hav.running e (List.mem_cons_self ..) rfl h

theorem available_cons_of_isMem (hmem : e.opcode.isMem = true) (hhalt : e.opcode ≠ .halt)
    (hrun : ∀ e' ∈ past, e'.thread = e.thread → e'.opcode ≠ .halt) :
    Available img (e :: past) e.thread c ↔ e.cycle + 1 + img.latency e.opcode ≤ c := by
  have hfind : (e :: past).find? (fun e' => e'.thread == e.thread && e'.opcode.isMem) = some e :=
    List.find?_cons_of_pos (by simp [hmem])
  refine ⟨fun hav => hav.done e hfind, fun hle => ⟨?_, ?_⟩⟩
  · intro e' he' ht
    rcases List.mem_cons.mp he' with rfl | he'
    · exact hhalt
    · exact hrun e' he' ht
  · intro e' he'
    obtain rfl := Option.some.inj (hfind.symm.trans he')
    exact hle

theorem available_cons_of_not_isMem (hmem : ¬e.opcode.isMem = true) (hhalt : e.opcode ≠ .halt) :
    Available img (e :: past) e.thread c ↔ Available img past e.thread c := by
  have hfind : (e :: past).find? (fun e' => e'.thread == e.thread && e'.opcode.isMem) =
      past.find? (fun e' => e'.thread == e.thread && e'.opcode.isMem) :=
    List.find?_cons_of_neg (by simp [hmem])
  refine ⟨fun hav => ⟨fun e' he' => hav.running e' (List.mem_cons_of_mem _ he'),
    fun e' he' => hav.done e' (hfind.symm ▸ he')⟩,
    fun hav => ⟨?_, fun e' he' => hav.done e' (hfind ▸ he')⟩⟩
  intro e' he' ht
  rcases List.mem_cons.mp he' with rfl | he'
  · exact hhalt
  · exact hav.running e' he' ht

end

/-- How many instructions thread `t` has issued. -/
def issued (log : List Issue) (t : Nat) : Nat := log.countP (·.thread = t)

/-- The return cycle of thread `t`. -/
def returnCycle (img : Image) : List Issue → Nat → Nat
  | [], _ => 0
  | e :: past, t =>
      if e.thread = t then
        if e.opcode = .halt then uint32Max
        else if e.opcode.isMem then e.cycle + 1 + img.latency e.opcode
        else returnCycle img past t
      else returnCycle img past t

/-- The cycle after the last instruction. -/
def clock : List Issue → Nat
  | [] => 0
  | e :: _ => e.cycle + 1

theorem issued_cons (e : Issue) (past : List Issue) (t : Nat) :
    issued (e :: past) t = issued past t + if e.thread = t then 1 else 0 := by
  simp [issued, List.countP_cons]

theorem issued_le_length (log : List Issue) (t : Nat) : issued log t ≤ log.length :=
  List.countP_le_length

/-- The core's state is that after the instructions of its log. -/
structure Tracks (img : Image) (s : Core) : Prop where
  rip : ∀ t, (s.coreThreads t).rip = issued s.log t
  returnCycle : ∀ t, (s.coreThreads t).returnCycle = returnCycle img s.log t
  haltCount : s.haltCount = s.log.countP (·.opcode = .halt)
  instCount : s.instCount = s.log.length

theorem Tracks.init (img : Image) : Tracks img (coreInit img) :=
  ⟨fun _ => rfl, fun _ => rfl, rfl, rfl⟩

/-- The instruction that the current thread would issue. -/
def Core.current (img : Image) (s : Core) : Issue :=
  ⟨s.cycleCount, s.rrIndex, (s.coreThreads s.rrIndex).rip,
    (img.instructions s.rrIndex (s.coreThreads s.rrIndex).rip).opcode⟩

theorem current_thread (img : Image) (s : Core) : (s.current img).thread = s.rrIndex := rfl

theorem executeInst_log (img : Image) (s : Core) :
    (executeInst img s).log = s.current img :: s.log := rfl

theorem returnAfter_eq {img : Image} {cycle : Nat} {op : CmdOpcode}
    (h : op.isMem = true → cycle + 1 + img.maxLatency ≤ uint32Max) (old : Nat) :
    returnAfter img cycle old op =
      if op = .halt then uint32Max
      else if op.isMem then cycle + 1 + img.latency op else old := by
  have hle : op.isMem = true → cycle + 1 + img.latency op ≤ uint32Max := fun hop =>
    Nat.le_trans (Nat.add_le_add_left (img.latency_le op) _) (h hop)
  cases op <;> first | rfl | exact wrap_of_le (hle rfl)

/-- As long as no counter wraps, an executed instruction is logged. -/
theorem Tracks.executeInst {img : Image} {s : Core} (h : Tracks img s)
    (hcycle : (s.current img).opcode.isMem = true →
      (s.current img).cycle + 1 + img.maxLatency ≤ uint32Max)
    (hlen : s.log.length + 1 ≤ uint32Max) : Tracks img (executeInst img s) := by
  refine ⟨?_, ?_, ?_, ?_⟩
  · intro t
    rw [executeInst_log, issued_cons]
    by_cases ht : (s.current img).thread = t
    · subst ht
      have hle := issued_le_length s.log s.rrIndex
      simp only [MtCore.executeInst, current_thread, Function.update_self, if_true, h.rip]
      exact wrap_of_le (by omega)
    · rw [if_neg ht]
      refine (congrArg Thread.rip ?_).trans (h.rip t)
      exact Function.update_of_ne (fun heq => ht heq.symm) ..
  · intro t
    rw [executeInst_log, MtCore.returnCycle]
    by_cases ht : (s.current img).thread = t
    · subst ht
      rw [if_pos rfl, ← h.returnCycle, ← returnAfter_eq hcycle]
      simp only [MtCore.executeInst, current_thread, Function.update_self]
      rfl
    · rw [if_neg ht]
      exact (congrArg Thread.returnCycle (Function.update_of_ne (fun heq => ht heq.symm) ..)).trans
        (h.returnCycle t)
  · rw [executeInst_log, List.countP_cons, ← h.haltCount]
    simp only [decide_eq_true_eq]
    split
    · rename_i hop
      exact if_pos hop
    · rename_i hop
      exact if_neg hop
  · simp only [List.length_cons, MtCore.executeInst, h.instCount]
    exact wrap_of_le hlen

/-! ## Programs -/

/-- Every thread has issued its lines 0, 1, 2, ..., none beyond its HALT. -/
def Follows (img : Image) (h : Nat → Nat) : List Issue → Prop
  | [] => True
  | e :: past => e.thread < img.threadnumber ∧ e.line = issued past e.thread ∧
      e.line ≤ h e.thread ∧ e.opcode = (img.instructions e.thread e.line).opcode ∧
      Follows img h past

namespace Follows

variable {img : Image} {h : Nat → Nat}

theorem issued_le : ∀ {log : List Issue}, Follows img h log → ∀ t, issued log t ≤ h t + 1
  | [], _, _ => Nat.zero_le _
  | e :: past, hf, t => by
      obtain ⟨-, hline, hle, -, hpast⟩ := hf
      rw [issued_cons]
      split
      · rename_i ht
        subst ht
        omega
      · exact hpast.issued_le t

/-- A thread has executed HALT when it has issued all its lines. -/
theorem halted_iff (hh : img.HaltsAt h) : ∀ {log : List Issue}, Follows img h log →
    ∀ t < img.threadnumber,
      (∃ e ∈ log, e.thread = t ∧ e.opcode = .halt) ↔ issued log t = h t + 1
  | [], _, t, _ => by simp [issued]
  | e :: past, hf, t, ht => by
      obtain ⟨-, hline, hle, hop, hpast⟩ := hf
      have ih := hpast.halted_iff hh t ht
      rw [issued_cons]
      by_cases het : e.thread = t
      · subst het
        rw [if_pos rfl, ← hline]
        constructor
        · rintro ⟨e', he', hthread, hhalt⟩
          rcases List.mem_cons.mp he' with rfl | he'
          · by_contra hne
            exact (hh _ ht).2 e'.line (by omega) (hop ▸ hhalt)
          · have := ih.mp ⟨e', he', hthread, hhalt⟩
            omega
        · intro heq
          refine ⟨e, List.mem_cons_self .., rfl, ?_⟩
          rw [hop, show e.line = h e.thread by omega]
          exact (hh _ ht).1
      · rw [if_neg het, Nat.add_zero, ← ih]
        simp [het]

theorem running_iff (hh : img.HaltsAt h) {log : List Issue} (hf : Follows img h log) {t : Nat}
    (ht : t < img.threadnumber) :
    (∀ e ∈ log, e.thread = t → e.opcode ≠ .halt) ↔ issued log t ≤ h t := by
  have hle := hf.issued_le t
  rw [show issued log t ≤ h t ↔ ¬issued log t = h t + 1 by omega, ← hf.halted_iff hh t ht]
  simp only [not_exists, not_and, ne_eq]

/-- The core's test for an available thread. -/
theorem returnCycle_le_iff (hh : img.HaltsAt h) {c : Nat} (hc : c < uint32Max) :
    ∀ {log : List Issue}, Follows img h log → ∀ t < img.threadnumber,
      returnCycle img log t ≤ c ↔ Available img log t c
  | [], _, t, _ => by
      refine ⟨fun _ => ⟨by simp, by simp⟩, fun _ => Nat.zero_le _⟩
  | e :: past, hf, t, ht => by
      obtain ⟨-, hline, hle, -, hpast⟩ := hf
      have ih := hpast.returnCycle_le_iff hh hc t ht
      rw [returnCycle]
      by_cases het : e.thread = t
      · subst het
        have hpastrun := (hpast.running_iff hh ht).mpr (hline ▸ hle)
        rw [if_pos rfl]
        split
        · rename_i hhalt
          exact iff_of_false (by omega) (not_available_cons_of_halt hhalt)
        · rename_i hhalt
          split
          · rename_i hmem
            exact (available_cons_of_isMem hmem hhalt hpastrun).symm
          · rename_i hmem
            rw [ih, available_cons_of_not_isMem hmem hhalt]
      · rw [if_neg het, ih, available_cons_of_ne het]

/-- The lines of a thread, latest first. -/
theorem lines_eq : ∀ {log : List Issue}, Follows img h log → ∀ t,
    (log.filter (·.thread = t)).map (·.line) = (List.range (issued log t)).reverse
  | [], _, _ => rfl
  | e :: past, hf, t => by
      obtain ⟨-, hline, -, -, hpast⟩ := hf
      have ih := hpast.lines_eq t
      by_cases het : e.thread = t
      · subst het
        rw [List.filter_cons_of_pos (by simp), List.map_cons, ih, issued_cons, if_pos rfl,
          List.range_succ, List.reverse_append, hline]
        rfl
      · rw [List.filter_cons_of_neg (by simp [het]), ih, issued_cons, if_neg het, Nat.add_zero]

/-- Every instruction belongs to one of the threads. -/
theorem length_eq : ∀ {log : List Issue}, Follows img h log →
    log.length = ∑ t ∈ Finset.range img.threadnumber, issued log t
  | [], _ => by simp [issued]
  | e :: past, hf => by
      obtain ⟨ht, -, -, -, hpast⟩ := hf
      simp only [issued_cons, Finset.sum_add_distrib, ← hpast.length_eq, Finset.sum_ite_eq,
        Finset.mem_range, if_pos ht, List.length_cons]

/-- The HALTs counted are the halted threads. -/
theorem countP_halt (hh : img.HaltsAt h) : ∀ {log : List Issue}, Follows img h log →
    log.countP (·.opcode = .halt) =
      ((Finset.range img.threadnumber).filter fun t => issued log t = h t + 1).card
  | [], _ => by simp [issued]
  | e :: past, hf => by
      have hhalted := hf.halted_iff hh
      obtain ⟨ht, hline, hle, hop, hpast⟩ := hf
      have hother : ∀ t, t ≠ e.thread → issued (e :: past) t = issued past t := fun t hne => by
        rw [issued_cons, if_neg hne.symm, Nat.add_zero]
      have hself : issued (e :: past) e.thread = e.line + 1 := by
        rw [issued_cons, if_pos rfl, hline]
      rw [List.countP_cons, hpast.countP_halt hh]
      by_cases hhalt : e.opcode = .halt
      · have hnot : e.thread ∉ (Finset.range img.threadnumber).filter
            fun t => issued past t = h t + 1 := by
          simp only [Finset.mem_filter, not_and]
          omega
        simp only [hhalt, decide_true, if_true]
        rw [← Finset.card_insert_of_notMem hnot]
        congr 1
        ext t
        simp only [Finset.mem_insert, Finset.mem_filter, Finset.mem_range]
        rcases eq_or_ne t e.thread with rfl | hne
        · have := (hhalted _ ht).mp ⟨e, List.mem_cons_self .., rfl, hhalt⟩
          simp [ht, this]
        · simp [hother t hne, hne]
      · simp only [hhalt, decide_false, Bool.false_eq_true, if_false, Nat.add_zero]
        congr 1
        ext t
        simp only [Finset.mem_filter, Finset.mem_range]
        rcases eq_or_ne t e.thread with rfl | hne
        · have hne : e.line ≠ h e.thread := fun heq => hhalt (hop ▸ heq ▸ (hh _ ht).1)
          rw [hself, ← hline]
          omega
        · rw [hother t hne]

/-- As long as not all threads are halted, some thread is not. -/
theorem exists_running (hh : img.HaltsAt h) {log : List Issue} (hf : Follows img h log)
    (hlt : log.countP (·.opcode = .halt) < img.threadnumber) :
    ∃ t < img.threadnumber, issued log t ≤ h t := by
  by_contra hno
  rw [hf.countP_halt hh, Finset.filter_true_of_mem, Finset.card_range] at hlt
  · exact Nat.lt_irrefl _ hlt
  · intro t ht
    have := hf.issued_le t
    by_contra hne
    exact hno ⟨t, Finset.mem_range.mp ht, by omega⟩

theorem all_halted (hh : img.HaltsAt h) {log : List Issue} (hf : Follows img h log)
    (hle : img.threadnumber ≤ log.countP (·.opcode = .halt)) :
    ∀ t < img.threadnumber, issued log t = h t + 1 := by
  rw [hf.countP_halt hh] at hle
  have hcard := Finset.card_filter_le (Finset.range img.threadnumber)
    fun t => issued log t = h t + 1
  rw [Finset.card_range] at hcard
  intro t ht
  exact Finset.card_filter_eq_iff.mp
    ((Nat.le_antisymm hcard hle).trans (Finset.card_range _).symm) t (Finset.mem_range.mpr ht)

theorem length_lt {log : List Issue} (hf : Follows img h log) {t : Nat}
    (ht : t < img.threadnumber) (hle : issued log t ≤ h t) : log.length < img.total h := by
  rw [hf.length_eq]
  exact Finset.sum_lt_sum (fun u _ => hf.issued_le u)
    ⟨t, Finset.mem_range.mpr ht, Nat.lt_succ_of_le hle⟩

end Follows

end MtCore

end ArchSim
