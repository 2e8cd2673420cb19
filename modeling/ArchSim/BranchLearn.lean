import ArchSim.BranchRun

/-!
# Learning a branch that never changes

A streak of updates of one branch with one outcome fills its history with
that outcome, whatever was there before. From then on the branch uses one
cell in every mode, and the next two updates drive the counter of that cell
past the middle: after `historySize + 2` updates the branch is predicted
(`learns_constant_branch`).
-/

namespace ArchSim

namespace Bp

variable {p : Params} {fsmState : BitVec 32} {h0 : Nat} {past : List Branch} {btb : Btb}

/-! ## What has happened in a run that ended well -/

/-- Calls that succeed have found the history in range, and add their
branches to the past. -/
theorem refines_of_runCalls (hp : p.Valid) {calls : List Call} {btb' : Btb} :
    ∀ {past : List Branch} {btb : Btb}, Refines p fsmState h0 past btb →
      runCalls btb calls = .ok btb' → Refines p fsmState h0 (pastOf calls ++ past) btb' := by
  induction calls with
  | nil =>
      intro past btb h hrun
      cases hrun
      exact h
  | cons call calls ih =>
      intro past btb h hrun
      cases call with
      | predict pc =>
          rw [runCalls_cons_of_ok (run_predict hp h pc)] at hrun
          exact ih h hrun
      | update pc targetPc taken predDst =>
          rw [pastOf_update, List.append_assoc]
          by_cases hlt : historyOf p (globFrom p h0) past pc < 2 ^ p.historySize
          · obtain ⟨btb₁, hupdate, h₁⟩ :=
              update_refines hp h ⟨pc, targetPc, taken⟩ predDst hlt
            have hcall : (Call.update pc targetPc taken predDst).run btb = .ok btb₁ := hupdate
            rw [runCalls_cons_of_ok hcall] at hrun
            exact ih h₁ hrun
          · obtain ⟨index, -, hfault⟩ := update_fault hp h ⟨pc, targetPc, taken⟩ predDst hlt
            simp only [runCalls, Call.run, hfault, bind, Except.bind] at hrun
            cases hrun

/-! ## Streaks -/

/-- Branches at `pc` with one outcome, to the given targets. -/
def streak (pc : BitVec 32) (taken : Bool) (targets : List (BitVec 32)) : List Branch :=
  targets.map fun targetPc => ⟨pc, targetPc, taken⟩

/-- The calls that tell of such branches, with any predicted destinations. -/
def streakCalls (pc : BitVec 32) (taken : Bool) (updates : List (BitVec 32 × BitVec 32)) :
    List Call :=
  updates.map fun u => .update pc u.1 taken u.2

variable {pc : BitVec 32} {taken : Bool} {targets : List (BitVec 32)}

theorem streak_cons (targetPc : BitVec 32) (targets : List (BitVec 32)) :
    streak pc taken (targetPc :: targets) = ⟨pc, targetPc, taken⟩ :: streak pc taken targets :=
  rfl

theorem pastOf_streakCalls (updates : List (BitVec 32 × BitVec 32)) :
    pastOf (streakCalls pc taken updates) =
      streak pc taken (updates.reverse.map Prod.fst) := by
  have hbranches : (streakCalls pc taken updates).filterMap Call.branch? =
      updates.map fun u => ⟨pc, u.1, taken⟩ := by
    induction updates with
    | nil => rfl
    | cons u updates ih => exact congrArg (_ :: ·) ih
  rw [pastOf, hbranches, streak, List.map_map, List.map_reverse]
  rfl

theorem map_taken_streak (pc : BitVec 32) (taken : Bool) (targets : List (BitVec 32)) :
    (streak pc taken targets).map Branch.taken = List.replicate targets.length taken := by
  rw [streak, List.map_map]
  exact List.map_const ..

/-- A streak belongs to one residency. -/
theorem outcomes_residencyOf_streak (past : List Branch) (targets : List (BitVec 32)) :
    outcomes (residencyOf p (streak pc taken targets ++ past) pc) =
      List.replicate targets.length taken ++ outcomes (residencyOf p past pc) := by
  induction targets with
  | nil => rfl
  | cons targetPc targets ih =>
      rw [streak_cons, List.cons_append, residencyOf_cons_of_eq _ rfl rfl]
      exact congrArg (taken :: ·) ih

/-- A streak as long as the history is all that is left in it. -/
theorem historyOf_streak (hp : p.Valid) (h0 : Nat) (past : List Branch) (pc : BitVec 32)
    (taken : Bool) {targets : List (BitVec 32)} (hlen : p.historySize ≤ targets.length) :
    historyOf p (globFrom p h0) (streak pc taken targets ++ past) pc =
      lastBits p.historySize (List.replicate p.historySize taken) := by
  have hbits : ∀ bits : List Bool,
      lastBits p.historySize (List.replicate targets.length taken ++ bits) =
        lastBits p.historySize (List.replicate p.historySize taken) := by
    intro bits
    rw [lastBits_append (by rwa [List.length_replicate]), lastBits, lastBits,
      List.take_replicate, List.take_replicate, Nat.min_eq_left hlen, Nat.min_self]
  unfold historyOf
  by_cases hg : p.isGlobalHist = true
  · rw [if_pos hg, List.map_append, map_taken_streak, globFrom,
      replay_shiftIn_of_length h0 hp.historySize_pos, hbits]
    rw [List.length_append, List.length_replicate]
    omega
  · rw [if_neg hg, outcomes_residencyOf_streak, hbits]

/-- After two more branches the cell has seen the outcome twice in a row. -/
theorem cellOutcomes_streak (hp : p.Valid) (h0 : Nat) (past : List Branch) (pc : BitVec 32)
    (taken : Bool) (t₁ t₂ : BitVec 32) (hlen : p.historySize ≤ targets.length) :
    ∃ bits, cellOutcomes p (globFrom p h0) (streak pc taken (t₁ :: t₂ :: targets) ++ past) pc =
      taken :: taken :: bits := by
  have hlen₁ : p.historySize ≤ (t₂ :: targets).length := Nat.le_succ_of_le hlen
  have hlen₂ : p.historySize ≤ (t₁ :: t₂ :: targets).length := Nat.le_succ_of_le hlen₁
  have h₀ := historyOf_streak hp h0 past pc taken hlen
  have h₁ := historyOf_streak hp h0 past pc taken hlen₁
  have h₂ := historyOf_streak hp h0 past pc taken hlen₂
  unfold cellOutcomes
  simp only [streak_cons, List.cons_append] at h₁ h₂ ⊢
  by_cases hg : p.isGlobalTable = true
  · rw [if_pos hg, globalOutcomes_cons, globalOutcomes_cons]
    simp only [globalCell, h₀, h₁, h₂, if_true]
    exact ⟨_, rfl⟩
  · rw [if_neg hg, residencyOf_cons_of_eq _ rfl rfl, residencyOf_cons_of_eq _ rfl rfl,
      localOutcomes_cons, localOutcomes_cons]
    simp only [h₀, h₁, h₂, if_true]
    exact ⟨_, rfl⟩

/-- What is predicted after a streak of at least `historySize + 2`. -/
theorem predictionOf_streak (hp : p.Valid) (hfsm : fsmState ≤ 3) (h0 : Nat)
    (past : List Branch) (t₁ t₂ : BitVec 32) (hlen : p.historySize ≤ targets.length) :
    predictionOf p (globFrom p h0)
        (fun bits => predictsTaken (replay BimodalState.update fsmState.toInt bits))
        (streak pc taken (t₁ :: t₂ :: targets) ++ past) pc =
      if taken then (true, t₁) else (false, pc + 4) := by
  obtain ⟨bits, hcell⟩ := cellOutcomes_streak hp h0 past pc taken t₁ t₂ hlen
  have hdecide := two_le_replay_saturate (show fsmState.toNat ≤ 3 from hfsm) taken bits
  have hrun : residencyOf p (streak pc taken (t₁ :: t₂ :: targets) ++ past) pc = _ :=
    residencyOf_cons_of_eq _ rfl rfl
  simp only [predictionOf, hrun, hcell, predictsTaken_replay hfsm, hdecide, decide_eq_true_eq]

/-! ## The predictor -/

/-- From any reached state on, `historySize + 2` or more updates of a branch
with one outcome make the predictor answer with it, and with the last of the
targets if it is taken. -/
theorem learns_constant_branch (hp : p.Valid) (hfsm : fsmState ≤ 3) (unset : Unset)
    (calls : List Call) (hreached : runCalls (bpInit p fsmState unset) calls = .ok btb)
    (hglob : btb.globalBhr.historyRecord.toNat < 2 ^ p.historySize) (pc : BitVec 32)
    (taken : Bool) (updates : List (BitVec 32 × BitVec 32)) (last : BitVec 32 × BitVec 32)
    (hlen : p.historySize + 2 ≤ (updates ++ [last]).length) :
    ∃ btb', runCalls btb (streakCalls pc taken (updates ++ [last])) = .ok btb' ∧
      btb'.predict pc = .ok (if taken then (true, last.1) else (false, pc + 4)) := by
  have h := refines_of_runCalls hp (refines_bpInit p fsmState unset) hreached
  rw [h.globalHistory] at hglob
  obtain ⟨btb', hrun, h'⟩ := @runCalls_past _ _ _ hp
    (streakCalls pc taken (updates ++ [last])) _ _ h fun _ => hglob
  refine ⟨btb', hrun, ?_⟩
  rw [pastOf_streakCalls, List.reverse_append, List.reverse_singleton, List.singleton_append,
    List.map_cons] at h'
  rw [predict_eq hp h']
  have hlen' : p.historySize + 1 ≤ (updates.reverse.map Prod.fst).length := by
    rw [List.length_map, List.length_reverse]
    rw [List.length_append, List.length_singleton] at hlen
    omega
  cases htargets : updates.reverse.map Prod.fst with
  | nil =>
      rw [htargets, List.length_nil] at hlen'
      omega
  | cons t₂ targets =>
      rw [htargets, List.length_cons] at hlen'
      rw [predictionOf_streak hp hfsm _ _ last.1 t₂ (by omega)]

/-- A branch that was not taken at first. -/
theorem learns_constant_branch_tinyParams :
    ∃ btb, runCalls (bpInit tinyParams 1 { staleUnset with globalHistory := 0 })
        [.update 0 8 false 4] = .ok btb ∧
      ∃ btb', runCalls btb (streakCalls 0 true ([(8, 4), (8, 4)] ++ [(16, 8)])) = .ok btb' ∧
        btb'.predict 0 = .ok (if true then (true, 16) else (false, 0 + 4)) :=
  ⟨_, rfl, learns_constant_branch tinyParams_valid (show (1 : BitVec 32) ≤ 3 by decide)
    { staleUnset with globalHistory := 0 } [.update 0 8 false 4] rfl (by decide) 0 true
    [(8, 4), (8, 4)] (16, 8) (Nat.le_refl 3)⟩

end Bp

end ArchSim
