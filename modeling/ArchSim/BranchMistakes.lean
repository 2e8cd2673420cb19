import ArchSim.BranchMain
import ArchSim.Mistakes

/-!
# Flushes of the branch predictor

How many flushes a trace causes, in every mode. Local tables are emptied
when their entry is taken over, so a cell of a local table is one of a
residency: it is named by when the residency began. With these names every
mode has one table of counters, and a flush is a taken branch that is not in
the buffer, a target that has changed, or a mistake of a counter
(`flushes_le`).
-/

namespace ArchSim

namespace Bp

variable {p : Params} {past : List Branch} {pc : BitVec 32}

/-! ## Residencies -/

/-- How many branches there were before the residency that a branch at `pc`
belongs to. -/
def birth (p : Params) (past : List Branch) (pc : BitVec 32) : Nat :=
  ((residencyOf p past pc).getLast?.map fun o => o.2.length).getD past.length

/-- The cell that a branch reads and writes. -/
def cellOf (p : Params) (o : Occurrence) : Nat × Nat :=
  if p.isGlobalTable then (0, globalCell p (lastBits p.historySize) o.2 o.1.pc)
  else (birth p o.2 o.1.pc, historyOf p (lastBits p.historySize) o.2 o.1.pc)

theorem birth_of_nil (h : residencyOf p past pc = []) : birth p past pc = past.length := by
  rw [birth, h]
  rfl

/-- A branch that finds its entry goes on with the residency. -/
theorem birth_cons_of_eq {b : Branch} (hi : btbIndex p b.pc = btbIndex p pc)
    (ht : btbTag p b.pc = btbTag p pc) : birth p (b :: past) pc = birth p past b.pc := by
  rw [birth, residencyOf_cons_of_eq past hi ht]
  cases hrun : residencyOf p past b.pc with
  | nil =>
      rw [birth_of_nil hrun]
      rfl
  | cons o run =>
      rw [birth, hrun, List.getLast?_cons_cons]
      rfl

theorem birth_cons_of_index_ne {b : Branch} (hi : btbIndex p b.pc ≠ btbIndex p pc)
    (hne : residencyOf p past pc ≠ []) : birth p (b :: past) pc = birth p past pc := by
  rw [birth, residencyOf_cons_of_index_ne past hi, birth]
  obtain ⟨o, run, hrun⟩ := List.exists_cons_of_ne_nil hne
  rw [hrun]
  rfl

/-- The first branch of a residency is one of the past, of the same entry and
tag. -/
theorem exists_birth (hne : residencyOf p past pc ≠ []) :
    ∃ o ∈ occurrences past, o.2.length = birth p past pc ∧
      btbIndex p o.1.pc = btbIndex p pc ∧ btbTag p o.1.pc = btbTag p pc := by
  obtain ⟨hmem, hindex, htag⟩ := mem_residency _ _ (List.getLast_mem hne)
  refine ⟨_, hmem, ?_, hindex, htag⟩
  rw [birth, List.getLast?_eq_some_getLast hne]
  rfl

theorem birth_le (p : Params) (past : List Branch) (pc : BitVec 32) :
    birth p past pc ≤ past.length := by
  by_cases hrun : residencyOf p past pc = []
  · exact Nat.le_of_eq (birth_of_nil hrun)
  · obtain ⟨o, ho, hbirth, -⟩ := exists_birth hrun
    exact hbirth ▸ Nat.le_of_lt (length_lt_of_mem_occurrences ho)

/-- Different residencies have begun at different times. -/
theorem birth_ne (hne : residencyOf p past pc ≠ []) {pc' : BitVec 32}
    (hother : btbIndex p pc' = btbIndex p pc → btbTag p pc' ≠ btbTag p pc) :
    birth p past pc' ≠ birth p past pc := by
  obtain ⟨o, ho, hbirth, hindex, htag⟩ := exists_birth hne
  rw [← hbirth]
  by_cases hrun : residencyOf p past pc' = []
  · rw [birth_of_nil hrun]
    exact Nat.ne_of_gt (length_lt_of_mem_occurrences ho)
  · obtain ⟨o', ho', hbirth', hindex', htag'⟩ := exists_birth hrun
    rw [← hbirth']
    intro hlen
    obtain rfl := eq_of_length_eq ho' ho hlen
    exact hother (hindex'.symm.trans hindex) (htag'.symm.trans htag)

/-- A residency is the branches that have its birth. -/
theorem filter_birth : ∀ {past : List Branch} {pc : BitVec 32}, residencyOf p past pc ≠ [] →
    ((occurrences past).filter fun o => birth p o.2 o.1.pc = birth p past pc) =
      residencyOf p past pc
  | [], pc, hne => absurd residencyOf_nil hne
  | b :: past, pc, hne => by
      rw [occurrences]
      by_cases hi : btbIndex p b.pc = btbIndex p pc
      · by_cases ht : btbTag p b.pc = btbTag p pc
        · rw [birth_cons_of_eq hi ht, residencyOf_cons_of_eq past hi ht,
            List.filter_cons, if_pos (decide_eq_true rfl)]
          refine congrArg (List.cons _) ?_
          by_cases hrun : residencyOf p past b.pc = []
          · rw [hrun, birth_of_nil hrun, List.filter_eq_nil_iff]
            intro o ho hbirth
            have hle := birth_le p o.2 o.1.pc
            rw [of_decide_eq_true hbirth] at hle
            exact absurd (length_lt_of_mem_occurrences ho) (Nat.not_lt.mpr hle)
          · exact filter_birth hrun
        · exact absurd (residencyOf_cons_of_tag_ne past hi ht) hne
      · have hold : residencyOf p past pc ≠ [] := by
          rwa [← residencyOf_cons_of_index_ne past hi]
        rw [birth_cons_of_index_ne hi hold, residencyOf_cons_of_index_ne past hi,
          List.filter_cons, if_neg, filter_birth hold]
        intro hbirth
        exact birth_ne hold (fun h => absurd h hi) (of_decide_eq_true hbirth)

/-! ## One table -/

/-- The outcomes that decide a prediction are those of its cell. -/
theorem cellOutcomes_eq_seen (o : Occurrence) (hne : residencyOf p o.2 o.1.pc ≠ []) :
    cellOutcomes p (lastBits p.historySize) o.2 o.1.pc =
      seen (cellOf p) Branch.taken o.2 (cellOf p o) := by
  by_cases hg : p.isGlobalTable = true
  · simp only [cellOutcomes, globalOutcomes, outcomes, seen, cellOf, hg, if_true, Prod.mk.injEq,
      true_and]
  · simp only [cellOutcomes, localOutcomes, outcomes, seen, cellOf, hg, Bool.false_eq_true,
      if_false, Prod.mk.injEq]
    rw [← filter_birth hne, List.filter_filter]
    refine congrArg (List.map _) (List.filter_congr fun o' _ => ?_)
    rw [← Bool.decide_and]
    exact decide_eq_decide.mpr and_comm

/-- What a branch that finds its entry is predicted. -/
theorem twoBitPrediction_of_cons (fsmState : Nat) (o : Occurrence) {last : Occurrence}
    {run : List Occurrence} (hrun : residencyOf p o.2 o.1.pc = last :: run) :
    twoBitPrediction p fsmState o.2 o.1.pc =
      if 2 ≤ counter (cellOf p) Branch.taken 3 fsmState o.2 (cellOf p o) then
        (true, last.1.targetPc)
      else (false, o.1.pc + 4) := by
  have hne : residencyOf p o.2 o.1.pc ≠ [] := hrun ▸ List.cons_ne_nil _ _
  rw [twoBitPrediction, predictionOf, hrun, cellOutcomes_eq_seen o hne]
  exact if_congr decide_eq_true_iff rfl rfl

/-! ## Flushes -/

/-- A taken branch that is not in the buffer. -/
def takenMiss (p : Params) (o : Occurrence) : Bool :=
  (residencyOf p o.2 o.1.pc).isEmpty && o.1.taken

/-- A taken branch with another target than the last time. -/
def newTarget (p : Params) (o : Occurrence) : Bool :=
  o.1.taken && (residencyOf p o.2 o.1.pc).head?.any fun last => last.1.targetPc ≠ o.1.targetPc

/-- An outcome that is not in the direction chosen for its cell. -/
def against (p : Params) (dir : Nat × Nat → Bool) (o : Occurrence) : Bool :=
  dir (cellOf p o) ≠ o.1.taken

/-- What a flush can be blamed on. -/
theorem flushes_cases {fsmState : Nat} {o : Occurrence}
    (h : flushes (o.1, twoBitPrediction p fsmState o.2 o.1.pc) = true) :
    takenMiss p o = true ∨ newTarget p o = true ∨
      errs (cellOf p) Branch.taken 3 2 fsmState o = true := by
  have hdst := of_decide_eq_true h
  cases hrun : residencyOf p o.2 o.1.pc with
  | nil =>
      left
      rw [takenMiss, hrun]
      rw [twoBitPrediction, predictionOf, hrun] at hdst
      cases htaken : o.1.taken with
      | true => rfl
      | false =>
          rw [Branch.nextPc, htaken] at hdst
          exact absurd rfl hdst
  | cons last run =>
      right
      rw [twoBitPrediction_of_cons fsmState o hrun, Branch.nextPc] at hdst
      by_cases hcount : 2 ≤ counter (cellOf p) Branch.taken 3 fsmState o.2 (cellOf p o) <;>
        cases htaken : o.1.taken
      -- Predicted taken, and it is not; or it is, to another target.
      · right
        rw [errs, htaken, decide_eq_true hcount]
        rfl
      · left
        rw [if_pos hcount, htaken] at hdst
        rw [newTarget, htaken, hrun]
        exact decide_eq_true hdst
      -- Predicted not taken, and it is not; or it is.
      · rw [if_neg hcount, htaken] at hdst
        exact absurd rfl hdst
      · right
        rw [errs, htaken, decide_eq_false hcount]
        rfl

theorem countP_le_of_cases {α : Type*} {q a b c : α → Bool} {l : List α}
    (h : ∀ x ∈ l, q x = true → a x = true ∨ b x = true ∨ c x = true) :
    l.countP q ≤ l.countP a + (l.countP b + l.countP c) := by
  induction l with
  | nil => exact Nat.le_refl 0
  | cons x l ih =>
      obtain ⟨hx, hl⟩ := List.forall_mem_cons.mp h
      have hrest := ih hl
      have hone : (if q x = true then 1 else 0) ≤ (if a x = true then 1 else 0) +
          ((if b x = true then 1 else 0) + if c x = true then 1 else 0) := by
        by_cases hq : q x = true
        · rcases hx hq with ha | hb | hc
          · rw [if_pos hq, if_pos ha]
            omega
          · rw [if_pos hq, if_pos hb]
            omega
          · rw [if_pos hq, if_pos hc]
            omega
        · rw [if_neg hq]
          omega
      simp only [List.countP_cons]
      omega

/-- The branches of a trace with their predictions, counted in either order. -/
theorem countP_zip_predictions (predict : List Branch → BitVec 32 → Bool × BitVec 32)
    (q : Branch × Bool × BitVec 32 → Bool) {branches : List Branch} :
    ∀ {past : List Branch}, (branches.zip (predictions predict past branches)).countP q +
        (occurrences past).countP (fun o => q (o.1, predict o.2 o.1.pc)) =
      (occurrences (branches.reverse ++ past)).countP fun o => q (o.1, predict o.2 o.1.pc) := by
  induction branches with
  | nil =>
      intro past
      rw [List.zip_nil_left, List.countP_nil, Nat.zero_add]
      rfl
  | cons b branches ih =>
      intro past
      have hrest := @ih (b :: past)
      rw [occurrences, List.countP_cons] at hrest
      simp only at hrest
      rw [predictions, List.zip_cons_cons, List.countP_cons, List.reverse_cons, List.append_assoc,
        List.singleton_append, ← hrest]
      omega

/-- In every mode a trace causes no more flushes than it has taken branches
that are not in the buffer, targets that change, and twice the outcomes that
differ from a direction chosen for each cell, apart from the outcomes that a
counter takes to get from its initial state to that direction. -/
theorem flushes_le (hp : p.Valid) {fsmState : BitVec 32} (hfsm : fsmState ≤ 3) {unset : Unset}
    (hunset : p.isGlobalHist = true → unset.globalHistory = 0) (branches : List Branch)
    (dir : Nat × Nat → Bool) :
    ∃ printed btb, mainLoop (bpInit p fsmState unset) branches = .ok (printed, btb) ∧
      btb.flushCounter = BitVec.ofNat 32 ((branches.zip printed).countP flushes) ∧
      (branches.zip printed).countP flushes ≤
        (occurrences branches.reverse).countP (takenMiss p) +
          (occurrences branches.reverse).countP (newTarget p) +
          2 * (occurrences branches.reverse).countP (against p dir) +
          ∑ c ∈ ((occurrences branches.reverse).map (cellOf p)).toFinset,
            distance 2 (dir c) fsmState.toNat := by
  obtain ⟨btb, hrun⟩ := mainLoop_twoBit hp hfsm hunset branches
  obtain ⟨-, -, hflush⟩ := mainLoop_counts hrun
  refine ⟨_, btb, hrun, hflush.trans (BitVec.zero_add _), ?_⟩
  have hzip := @countP_zip_predictions (twoBitPrediction p fsmState.toNat) flushes branches []
  rw [List.append_nil] at hzip
  have hcases := @countP_le_of_cases _ _ _ _ _ (occurrences branches.reverse) fun o _ =>
    @flushes_cases p fsmState.toNat o
  have hmistakes : (occurrences branches.reverse).countP
        (errs (cellOf p) Branch.taken 3 2 fsmState.toNat) + _ ≤
      _ + 2 * (occurrences branches.reverse).countP (against p dir) :=
    mistakes_le (cellOf p) Branch.taken (by omega) (by omega) fsmState.toNat dir fun o ho =>
      List.mem_toFinset.mpr (List.mem_map_of_mem ho)
  have hnil : (occurrences ([] : List Branch)).countP (fun o => flushes (o.1,
      twoBitPrediction p fsmState.toNat o.2 o.1.pc)) = 0 := rfl
  rw [hnil, Nat.add_zero] at hzip
  rw [hzip]
  omega

/-- A branch that alternates. -/
def alternating : List Branch := [⟨0, 8, true⟩, ⟨0, 8, false⟩, ⟨0, 8, true⟩]

theorem flushes_le_alternating :
    ∃ printed btb, mainLoop (bpInit tinyParams 1 { staleUnset with globalHistory := 0 })
        alternating = .ok (printed, btb) ∧
      btb.flushCounter = BitVec.ofNat 32 ((alternating.zip printed).countP flushes) ∧
      (alternating.zip printed).countP flushes ≤
        (occurrences alternating.reverse).countP (takenMiss tinyParams) +
          (occurrences alternating.reverse).countP (newTarget tinyParams) +
          2 * (occurrences alternating.reverse).countP (against tinyParams fun c => c.2 = 0) +
          ∑ c ∈ ((occurrences alternating.reverse).map (cellOf tinyParams)).toFinset,
            distance 2 (c.2 = 0) (1 : BitVec 32).toNat :=
  flushes_le tinyParams_valid (by decide) (fun _ => rfl) _ fun c => c.2 = 0

end Bp

end ArchSim
