import ArchSim.BranchRun

/-!
# Local predictions

With local histories and local tables a prediction is a function of the
targets and outcomes of the current residency alone (`localPrediction`).
Every branch of a residency finds the history that the older branches of the
same residency have left, so the cells of the table can be read off the
outcomes of the residency (`ownOutcomes`).
-/

namespace ArchSim

namespace Bp

variable {p : Params} {past : List Branch}

/-! ## Histories inside a residency -/

/-- The branches of a residency are of one entry and tag, and each has found
the rest of the residency. -/
theorem residencyOf_eq_cons {pc : BitVec 32} {o : Occurrence} {run : List Occurrence}
    (h : residencyOf p past pc = o :: run) : run = residencyOf p o.2 o.1.pc := by
  induction past with
  | nil => cases h
  | cons b past ih =>
      by_cases hi : btbIndex p b.pc = btbIndex p pc
      · by_cases ht : btbTag p b.pc = btbTag p pc
        · rw [residencyOf_cons_of_eq past hi ht] at h
          obtain ⟨rfl, rfl⟩ := List.cons.inj h
          rfl
        · rw [residencyOf_cons_of_tag_ne past hi ht] at h
          cases h
      · rw [residencyOf_cons_of_index_ne past hi] at h
        exact ih h

/-- The outcomes of a residency that cell `c` of its local table has seen:
those that the last `n` outcomes before them led to it. -/
def ownOutcomes (n : Nat) (c : Nat) : List Bool → List Bool
  | [] => []
  | b :: bits => if lastBits n bits = c then b :: ownOutcomes n c bits else ownOutcomes n c bits

theorem historyOf_of_local (hhist : p.isGlobalHist = false) (glob : List Bool → Nat)
    (past : List Branch) (pc : BitVec 32) :
    historyOf p glob past pc = lastBits p.historySize (outcomes (residencyOf p past pc)) :=
  if_neg (Bool.eq_false_iff.mp hhist)

theorem localOutcomes_residencyOf (hhist : p.isGlobalHist = false) (glob : List Bool → Nat)
    (c : Nat) {run : List Occurrence} :
    ∀ {past : List Branch} {pc : BitVec 32}, residencyOf p past pc = run →
      localOutcomes p glob run c = ownOutcomes p.historySize c (outcomes run) := by
  induction run with
  | nil => exact fun _ => rfl
  | cons o run ih =>
      intro past pc hrun
      obtain ⟨b, before⟩ := o
      have hrest : residencyOf p before b.pc = run := (residencyOf_eq_cons hrun).symm
      have hcell : historyOf p glob before b.pc = lastBits p.historySize (outcomes run) := by
        rw [historyOf_of_local hhist, hrest]
      rw [localOutcomes_cons, hcell, ih hrest]
      rfl

/-! ## The prediction -/

/-- The targets and outcomes since the entry of `pc` has last been taken
over, if it was by a branch with the tag of `pc`. The newest comes first. -/
def ownUpdates (p : Params) (past : List Branch) (pc : BitVec 32) : List (BitVec 32 × Bool) :=
  (residency (fun b : Branch => btbIndex p b.pc) (fun b => btbTag p b.pc) past (btbIndex p pc)
    (btbTag p pc)).map fun b => (b.targetPc, b.taken)

def localPrediction (n : Nat) (takes : List Bool → Bool) (pc : BitVec 32) :
    List (BitVec 32 × Bool) → Bool × BitVec 32
  | [] => (false, pc + 4)
  | (target, taken) :: run =>
      let bits := taken :: run.map Prod.snd
      if takes (ownOutcomes n (lastBits n bits) bits) then (true, target) else (false, pc + 4)

/-- The residency with and without what its branches have found. -/
theorem ownUpdates_eq (p : Params) (past : List Branch) (pc : BitVec 32) :
    ownUpdates p past pc = (residencyOf p past pc).map fun o => (o.1.targetPc, o.1.taken) := by
  have hmap := residency_map (fun b : Branch => btbIndex p b.pc) (fun b => btbTag p b.pc)
    (Prod.fst : Occurrence → Branch) (occurrences past) (btbIndex p pc) (btbTag p pc)
  rw [map_fst_occurrences] at hmap
  rw [ownUpdates, hmap, List.map_map]
  rfl

theorem predictionOf_of_local (hhist : p.isGlobalHist = false) (htable : p.isGlobalTable = false)
    (glob : List Bool → Nat) (takes : List Bool → Bool) (past : List Branch) (pc : BitVec 32) :
    predictionOf p glob takes past pc =
      localPrediction p.historySize takes pc (ownUpdates p past pc) := by
  have hcell : cellOutcomes p glob past pc =
      ownOutcomes p.historySize (historyOf p glob past pc) (outcomes (residencyOf p past pc)) := by
    rw [cellOutcomes, if_neg (Bool.eq_false_iff.mp htable)]
    exact localOutcomes_residencyOf hhist glob _ rfl
  rw [predictionOf, hcell, historyOf_of_local hhist, ownUpdates_eq]
  cases residencyOf p past pc with
  | nil => rfl
  | cons last run =>
      simp only [outcomes, List.map_cons, localPrediction, List.map_map]
      rfl

/-! ## Runs -/

/-- The decision and the target that `predict` gives after the calls. -/
theorem predict_runCalls (hp : p.Valid) (hhist : p.isGlobalHist = false)
    (htable : p.isGlobalTable = false) (fsmState : BitVec 32) (unset : Unset) (calls : List Call)
    (pc : BitVec 32) :
    ∃ btb, runCalls (bpInit p fsmState unset) calls = .ok btb ∧
      btb.predict pc = .ok (localPrediction p.historySize
        (fun bits => predictsTaken (replay BimodalState.update fsmState.toInt bits)) pc
        (ownUpdates p (pastOf calls) pc)) := by
  have hglob : p.isGlobalHist ≠ true := fun hglob =>
    absurd (hhist.symm.trans hglob) Bool.false_ne_true
  obtain ⟨btb, hrun, h⟩ : ∃ btb, runCalls (bpInit p fsmState unset) calls = .ok btb ∧
      Refines p fsmState unset.globalHistory.toNat (pastOf calls ++ []) btb :=
    runCalls_past hp (refines_bpInit p fsmState unset) fun h => absurd h hglob
  refine ⟨btb, hrun, ?_⟩
  rw [List.append_nil] at h
  rw [predict_eq hp h, predictionOf_of_local hhist htable]

/-- Two runs that have left the same updates in the entry of `pc` predict the
same for it, whatever else they have done. -/
theorem predict_eq_of_ownUpdates_eq (hp : p.Valid) (hhist : p.isGlobalHist = false)
    (htable : p.isGlobalTable = false) (fsmState : BitVec 32) (unset₁ unset₂ : Unset)
    (calls₁ calls₂ : List Call) (pc : BitVec 32)
    (hown : ownUpdates p (pastOf calls₁) pc = ownUpdates p (pastOf calls₂) pc) :
    ∃ btb₁ btb₂ decision, runCalls (bpInit p fsmState unset₁) calls₁ = .ok btb₁ ∧
      runCalls (bpInit p fsmState unset₂) calls₂ = .ok btb₂ ∧
      btb₁.predict pc = .ok decision ∧ btb₂.predict pc = .ok decision := by
  obtain ⟨btb₁, hrun₁, hpredict₁⟩ := predict_runCalls hp hhist htable fsmState unset₁ calls₁ pc
  obtain ⟨btb₂, hrun₂, hpredict₂⟩ := predict_runCalls hp hhist htable fsmState unset₂ calls₂ pc
  rw [← hown] at hpredict₂
  exact ⟨btb₁, btb₂, _, hrun₁, hrun₂, hpredict₁, hpredict₂⟩

/-- Two entries, with a local history and table of one bit. -/
def localParams : Params where
  btbSize := 2
  historySize := 1
  tagSize := 4
  isGlobalHist := false
  isGlobalTable := false
  shared := NOT_USING_SHARE

theorem localParams_valid : localParams.Valid :=
  ⟨by decide, by decide, by decide, by decide, by decide⟩

/-- The second run has a branch of another tag in the entry before, and one
in the other entry after. -/
theorem predict_eq_of_ownUpdates_eq_localParams :
    ∃ btb₁ btb₂ decision,
      runCalls (bpInit localParams 1 staleUnset) [.update 0 16 true 4] = .ok btb₁ ∧
      runCalls (bpInit localParams 1 staleUnset)
        [.update 8 32 true 4, .update 0 16 true 4, .predict 8, .update 4 64 false 4] = .ok btb₂ ∧
      btb₁.predict 0 = .ok decision ∧ btb₂.predict 0 = .ok decision :=
  predict_eq_of_ownUpdates_eq localParams_valid rfl rfl 1 staleUnset staleUnset _ _ 0 (by decide)

end Bp

end ArchSim
