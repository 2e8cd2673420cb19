import ArchSim.BranchRefine

/-!
# Runs of the branch predictor

A run of calls stays in the range of the tables exactly when the global
history register is not used, or was left at a value in range, or nothing
is ever updated (`indices_in_range_iff`). From an empty register on, the
loop of `main` prints for each branch what a two-bit counter says about the
earlier outcomes in its cell (`mainLoop_predicts`).
-/

namespace ArchSim

namespace Bp

variable {p : Params} {fsmState : BitVec 32} {h0 : Nat} {past : List Branch} {btb : Btb}

/-! ## Calls -/

def Call.isUpdate : Call → Bool
  | .predict _ => false
  | .update .. => true

theorem run_predict (hp : p.Valid) (h : Refines p fsmState h0 past btb) (pc : BitVec 32) :
    (Call.predict pc).run btb = .ok btb := by
  simp only [Call.run, predict_eq hp h pc, bind, Except.bind]

theorem runCalls_cons_of_ok {call : Call} {btb' : Btb} (h : call.run btb = .ok btb')
    (calls : List Call) : runCalls btb (call :: calls) = runCalls btb' calls := by
  simp only [runCalls, h, bind, Except.bind]

/-- The branch that a call tells the predictor about. -/
def Call.branch? : Call → Option Branch
  | .predict _ => none
  | .update pc targetPc taken _ => some ⟨pc, targetPc, taken⟩

/-- The branches that the calls have added, the newest first. -/
def pastOf (calls : List Call) : List Branch := (calls.filterMap Call.branch?).reverse

theorem pastOf_predict (pc : BitVec 32) (calls : List Call) :
    pastOf (.predict pc :: calls) = pastOf calls := rfl

theorem pastOf_update (pc targetPc : BitVec 32) (taken : Bool) (predDst : BitVec 32)
    (calls : List Call) :
    pastOf (.update pc targetPc taken predDst :: calls) =
      pastOf calls ++ [⟨pc, targetPc, taken⟩] := by
  simp [pastOf, Call.branch?]

/-- With a history in range no call fails, and the updates are the past. -/
theorem runCalls_past (hp : p.Valid) {calls : List Call} :
    ∀ {past : List Branch} {btb : Btb}, Refines p fsmState h0 past btb →
      (p.isGlobalHist = true → globFrom p h0 (past.map Branch.taken) < 2 ^ p.historySize) →
      ∃ btb', runCalls btb calls = .ok btb' ∧
        Refines p fsmState h0 (pastOf calls ++ past) btb' := by
  induction calls with
  | nil => exact fun {past btb} h _ => ⟨btb, rfl, h⟩
  | cons call calls ih =>
      intro past btb h hglob
      cases call with
      | predict pc =>
          rw [runCalls_cons_of_ok (run_predict hp h pc), pastOf_predict]
          exact ih h hglob
      | update pc targetPc taken predDst =>
          obtain ⟨btb', hrun, h'⟩ := update_refines hp h ⟨pc, targetPc, taken⟩ predDst
            (historyOf_lt hglob pc)
          have hcall : (Call.update pc targetPc taken predDst).run btb = .ok btb' := hrun
          rw [runCalls_cons_of_ok hcall, pastOf_update, List.append_assoc]
          exact ih h' fun _ => shiftIn_lt _ _ _

theorem runCalls_refines (hp : p.Valid) (calls : List Call) (h : Refines p fsmState h0 past btb)
    (hglob : p.isGlobalHist = true →
      globFrom p h0 (past.map Branch.taken) < 2 ^ p.historySize) :
    ∃ past' btb', runCalls btb calls = .ok btb' ∧ Refines p fsmState h0 past' btb' := by
  obtain ⟨btb', hrun, h'⟩ := runCalls_past hp h hglob
  exact ⟨_, btb', hrun, h'⟩

/-- Without updates nothing changes. -/
theorem runCalls_predicts (hp : p.Valid) (h : Refines p fsmState h0 past btb) {calls : List Call}
    (hcalls : ∀ call ∈ calls, call.isUpdate = false) : runCalls btb calls = .ok btb := by
  induction calls with
  | nil => rfl
  | cons call calls ih =>
      obtain ⟨hcall, hrest⟩ := List.forall_mem_cons.mp hcalls
      cases call with
      | predict pc =>
          rw [runCalls_cons_of_ok (run_predict hp h pc)]
          exact ih hrest
      | update pc targetPc taken predDst => cases hcall

/-- The first update reads what the register was left at. -/
theorem runCalls_fault (hp : p.Valid) (hglob : p.isGlobalHist = true)
    (hge : ¬h0 < 2 ^ p.historySize) (h : Refines p fsmState h0 [] btb) {calls : List Call}
    (hcalls : ∃ call ∈ calls, call.isUpdate = true) :
    ∃ index, runCalls btb calls = .error (.fsm index (1#32 <<< p.historySize)) := by
  induction calls with
  | nil =>
      obtain ⟨call, hmem, -⟩ := hcalls
      cases hmem
  | cons call calls ih =>
      cases call with
      | predict pc =>
          rw [runCalls_cons_of_ok (run_predict hp h pc)]
          refine ih ?_
          obtain ⟨call, hmem, hcall⟩ := hcalls
          rcases List.mem_cons.mp hmem with rfl | hmem
          · cases hcall
          · exact ⟨call, hmem, hcall⟩
      | update pc targetPc taken predDst =>
          have hhist : historyOf p (globFrom p h0) [] pc = h0 := by
            rw [historyOf, if_pos hglob]
            rfl
          obtain ⟨index, -, hfault⟩ := update_fault hp h ⟨pc, targetPc, taken⟩ predDst
            (hhist.symm ▸ hge)
          exact ⟨index, by simp only [runCalls, Call.run, hfault, bind, Except.bind]⟩

/-- Every index into a table is below the number of its state machines,
`2 ^ historySize`: the run of the calls ends without a fault. -/
def IndicesInRange (p : Params) (fsmState : BitVec 32) (unset : Unset) (calls : List Call) :
    Prop :=
  ∃ btb, runCalls (bpInit p fsmState unset) calls = .ok btb ∧
    btb.globalTable.numOfFsm.toNat = 2 ^ p.historySize ∧
    ∀ i, (btb.entries i).localTable.numOfFsm.toNat = 2 ^ p.historySize

theorem Refines.tables_sized (h : Refines p fsmState h0 past btb) (hp : p.Valid) :
    btb.globalTable.numOfFsm.toNat = 2 ^ p.historySize ∧
      ∀ i, (btb.entries i).localTable.numOfFsm.toNat = 2 ^ p.historySize := by
  refine ⟨?_, ?_⟩
  · rw [h.globalNumOfFsm, toNat_one_shiftLeft hp.historySize_le]
  · intro i
    rw [(h.sized i).numOfFsm, toNat_one_shiftLeft hp.historySize_le]

theorem indices_in_range_iff (hp : p.Valid) (fsmState : BitVec 32) (unset : Unset)
    (calls : List Call) :
    IndicesInRange p fsmState unset calls ↔
      p.isGlobalHist = false ∨ unset.globalHistory.toNat < 2 ^ p.historySize ∨
        ∀ call ∈ calls, call.isUpdate = false := by
  have hinit := refines_bpInit p fsmState unset
  constructor
  · rintro ⟨btb, hrun, -⟩
    by_contra hcond
    simp only [not_or, Bool.not_eq_false, not_forall] at hcond
    obtain ⟨hglob, hge, call, hmem, hcall⟩ := hcond
    obtain ⟨index, hfault⟩ := runCalls_fault hp hglob hge hinit ⟨call, hmem, hcall⟩
    rw [hfault] at hrun
    cases hrun
  · intro hcond
    suffices hsuff : ∃ past btb, runCalls (bpInit p fsmState unset) calls = .ok btb ∧
        Refines p fsmState unset.globalHistory.toNat past btb by
      obtain ⟨past, btb, hrun, h⟩ := hsuff
      exact ⟨btb, hrun, h.tables_sized hp⟩
    rcases hcond with hloc | hlt | hcalls
    · exact runCalls_refines hp calls hinit fun hglob => absurd (hloc.symm.trans hglob) (by decide)
    · exact runCalls_refines hp calls hinit fun _ => hlt
    · exact ⟨[], _, runCalls_predicts hp hinit hcalls, hinit⟩

/-- One entry, and one bit of global history. -/
def tinyParams : Params where
  btbSize := 1
  historySize := 1
  tagSize := 0
  isGlobalHist := true
  isGlobalTable := true
  shared := NOT_USING_SHARE

theorem tinyParams_valid : tinyParams.Valid :=
  ⟨by decide, by decide, by decide, by decide, by decide⟩

/-- Memory that held a 2 where the global history register is. -/
def staleUnset : Unset where
  globalHistory := 2
  tag := fun _ => 0
  target := fun _ => 0
  localHistory := fun _ => 0

/-- An update and a prediction: with a 1 there they form indices in range, with
the 2 they do not. -/
theorem indices_in_range_iff_tinyParams :
    IndicesInRange tinyParams 1 { staleUnset with globalHistory := 1 }
        [.update 0 8 true 4, .predict 0] ∧
      ¬IndicesInRange tinyParams 1 staleUnset [.update 0 8 true 4, .predict 0] := by
  refine ⟨(indices_in_range_iff tinyParams_valid 1 _ _).mpr (Or.inr (Or.inl (by decide))), ?_⟩
  intro h
  rcases (indices_in_range_iff tinyParams_valid 1 _ _).mp h with hloc | hlt | hcalls
  · cases hloc
  · exact absurd hlt (by decide)
  · exact nomatch hcalls _ (List.mem_cons_self ..)

/-- The first update uses state machine 2 of 2. -/
theorem stale_history_out_of_range :
    ¬(tinyParams.Valid → IndicesInRange tinyParams 1 staleUnset [.update 0 8 true 4]) := by
  intro h
  obtain ⟨btb, hrun, -⟩ := h tinyParams_valid
  have hfault : runCalls (bpInit tinyParams 1 staleUnset) [.update 0 8 true 4] =
      .error (.fsm 2 2) := rfl
  rw [hfault] at hrun
  cases hrun

/-! ## The loop of main -/

/-- The predictions of a predictor for the branches of a trace. -/
def predictions (predict : List Branch → BitVec 32 → Bool × BitVec 32) :
    List Branch → List Branch → List (Bool × BitVec 32)
  | _, [] => []
  | past, b :: branches => predict past b.pc :: predictions predict (b :: past) branches

theorem length_predictions (predict : List Branch → BitVec 32 → Bool × BitVec 32)
    (past branches : List Branch) :
    (predictions predict past branches).length = branches.length := by
  induction branches generalizing past with
  | nil => rfl
  | cons b branches ih => exact congrArg Nat.succ (ih (b :: past))

/-- Prediction `i` is made after the first `i` branches. -/
theorem getElem?_predictions (predict : List Branch → BitVec 32 → Bool × BitVec 32)
    (past branches : List Branch) {i : Nat} (hi : i < branches.length) :
    (predictions predict past branches)[i]? =
      some (predict ((branches.take i).reverse ++ past) branches[i].pc) := by
  induction branches generalizing past i with
  | nil => exact absurd hi (Nat.not_lt_zero i)
  | cons b branches ih =>
      cases i with
      | zero => rfl
      | succ i =>
          have hrest := ih (b :: past) (Nat.lt_of_succ_lt_succ hi)
          simpa [predictions] using hrest

theorem mainLoop_refines (hp : p.Valid) (branches : List Branch) :
    ∀ {past : List Branch} {btb : Btb}, Refines p fsmState h0 past btb →
      (p.isGlobalHist = true → globFrom p h0 (past.map Branch.taken) < 2 ^ p.historySize) →
      ∃ btb', mainLoop btb branches = .ok (predictions (predictionOf p (globFrom p h0) fun bits =>
        predictsTaken (replay BimodalState.update fsmState.toInt bits)) past branches, btb') := by
  induction branches with
  | nil => exact fun {past btb} _ _ => ⟨btb, rfl⟩
  | cons b branches ih =>
      intro past btb h hglob
      have hpredict := predict_eq hp h b.pc
      obtain ⟨btb₁, hupdate, h₁⟩ := update_refines hp h b (predictionOf p (globFrom p h0)
        (fun bits => predictsTaken (replay BimodalState.update fsmState.toInt bits))
        past b.pc).2 (historyOf_lt hglob b.pc)
      obtain ⟨btb₂, hrest⟩ := ih h₁ fun _ => shiftIn_lt _ _ _
      exact ⟨btb₂, by simp only [mainLoop, hpredict, hupdate, hrest, predictions, bind,
        Except.bind]⟩

/-- The source's capped states count like a counter from 0 to 3. -/
theorem update_saturate {s : BimodalState} {c : Nat} {b : Bool} (h : s = c ∧ c ≤ 3) :
    s.update b = saturate 3 c b ∧ saturate 3 c b ≤ 3 := by
  obtain ⟨rfl, hle⟩ := h
  refine ⟨?_, saturate_le hle b⟩
  have hcases : c = 0 ∨ c = 1 ∨ c = 2 ∨ c = 3 := by omega
  rcases hcases with rfl | rfl | rfl | rfl <;> cases b <;> rfl

theorem predictsTaken_natCast {c : Nat} (h : c ≤ 3) :
    predictsTaken (c : Int) = decide (2 ≤ c) := by
  have hcases : c = 0 ∨ c = 1 ∨ c = 2 ∨ c = 3 := by omega
  rcases hcases with rfl | rfl | rfl | rfl <;> rfl

theorem predictsTaken_replay {fsmState : BitVec 32} (hfsm : fsmState ≤ 3) (bits : List Bool) :
    predictsTaken (replay BimodalState.update fsmState.toInt bits) =
      decide (2 ≤ replay (saturate 3) fsmState.toNat bits) := by
  have hle : fsmState.toNat ≤ 3 := hfsm
  have hint : fsmState.toInt = fsmState.toNat := BitVec.toInt_eq_toNat_of_lt (by omega)
  obtain ⟨heq, hlast⟩ := replay_simulates (R := fun (s : BimodalState) (c : Nat) => s = c ∧ c ≤ 3)
    (fun s c b h => update_saturate (b := b) h) ⟨hint, hle⟩ bits
  rw [heq]
  exact predictsTaken_natCast hlast

/-- The prediction of a two-bit counter for the outcomes of the cell. -/
def twoBitPrediction (p : Params) (fsmState : Nat) (past : List Branch) (pc : BitVec 32) :
    Bool × BitVec 32 :=
  predictionOf p (lastBits p.historySize) (fun bits => 2 ≤ replay (saturate 3) fsmState bits)
    past pc

theorem mainLoop_predicts (hp : p.Valid) {fsmState : BitVec 32} (hfsm : fsmState ≤ 3)
    {unset : Unset} (hunset : unset.globalHistory = 0) (branches : List Branch) :
    ∃ printed btb, mainLoop (bpInit p fsmState unset) branches = .ok (printed, btb) ∧
      printed.length = branches.length ∧
      ∀ i (hi : i < branches.length), printed[i]? =
        some (twoBitPrediction p fsmState.toNat (branches.take i).reverse branches[i].pc) := by
  have hinit := refines_bpInit p fsmState unset
  have hzero : unset.globalHistory.toNat = 0 := by
    rw [hunset]
    rfl
  rw [hzero] at hinit
  have hglob : globFrom p 0 = lastBits p.historySize := funext (replay_shiftIn p.historySize)
  obtain ⟨btb, hrun⟩ := mainLoop_refines hp branches hinit fun _ =>
    Nat.two_pow_pos p.historySize
  refine ⟨_, btb, hrun, length_predictions _ _ _, ?_⟩
  intro i hi
  rw [getElem?_predictions _ _ _ hi, List.append_nil, twoBitPrediction]
  simp only [hglob, predictsTaken_replay hfsm]

theorem mainLoop_predicts_tinyParams :
    ∃ printed btb, mainLoop (bpInit tinyParams 1 { staleUnset with globalHistory := 0 })
        [⟨0, 8, true⟩, ⟨0, 8, true⟩] = .ok (printed, btb) ∧
      printed.length = [(⟨0, 8, true⟩ : Branch), ⟨0, 8, true⟩].length ∧
      ∀ i (hi : i < [(⟨0, 8, true⟩ : Branch), ⟨0, 8, true⟩].length), printed[i]? =
        some (twoBitPrediction tinyParams (1 : BitVec 32).toNat
          ([(⟨0, 8, true⟩ : Branch), ⟨0, 8, true⟩].take i).reverse
          ([(⟨0, 8, true⟩ : Branch), ⟨0, 8, true⟩][i]).pc) :=
  mainLoop_predicts tinyParams_valid (by decide) rfl _

end Bp

end ArchSim
