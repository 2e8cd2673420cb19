import ArchSim.BranchSpec

/-!
# The branch target buffer holds what the branches have left

`Refines` says what every register, table and valid entry holds after the
branches of a past. A call of `update` whose history is in range succeeds
and adds its branch to the past; `predict` never changes anything, and
succeeds in any case: it reads a table only when some branch has passed,
and that branch has masked the history.
-/

namespace ArchSim

namespace Bp

/-- What the global history register holds, from its initial value on. -/
def globFrom (p : Params) (h0 : Nat) : List Bool → Nat := replay (shiftIn p.historySize) h0

/-- The sizes and masks that the constructor has given an entry. -/
structure EntrySized (p : Params) (fsmState : BitVec 32) (entry : BtbEntry) : Prop where
  mask : entry.localBhr.historyMask = (1#32 <<< p.historySize) - 1
  numOfFsm : entry.localTable.numOfFsm = 1#32 <<< p.historySize
  defaultState : entry.localTable.defaultState = fsmState

/-- The local history and table are those that `run` has left. -/
structure EntryKnows (p : Params) (fsmState : BitVec 32) (h0 : Nat) (run : List Occurrence)
    (entry : BtbEntry) : Prop where
  history : entry.localBhr.historyRecord.toNat = lastBits p.historySize (outcomes run)
  table : ∀ c, entry.localTable.fsm c =
    replay BimodalState.update fsmState.toInt (localOutcomes p (globFrom p h0) run c)

/-- The entry at the index of `pc` hits if its last run of branches has the
tag of `pc`, which is `tag`, and then it knows that run. -/
structure EntryFor (p : Params) (fsmState : BitVec 32) (h0 : Nat) (past : List Branch)
    (pc tag : BitVec 32) (entry : BtbEntry) : Prop where
  hit : (entry.valid = true ∧ entry.tag = tag) ↔ residencyOf p past pc ≠ []
  target : ∀ last run, residencyOf p past pc = last :: run → entry.target = last.1.targetPc
  knows : residencyOf p past pc ≠ [] → EntryKnows p fsmState h0 (residencyOf p past pc) entry

structure Refines (p : Params) (fsmState : BitVec 32) (h0 : Nat) (past : List Branch)
    (btb : Btb) : Prop where
  params : btb.toParams = p
  indexMask : btb.entryIndexMask = (1#32 <<< p.btbSize.log2) - 1
  globalMask : btb.globalBhr.historyMask = (1#32 <<< p.historySize) - 1
  globalNumOfFsm : btb.globalTable.numOfFsm = 1#32 <<< p.historySize
  globalHistory : btb.globalBhr.historyRecord.toNat = globFrom p h0 (past.map Branch.taken)
  globalTable : ∀ c, btb.globalTable.fsm c =
    replay BimodalState.update fsmState.toInt (globalOutcomes p (globFrom p h0) past c)
  sized : ∀ i, EntrySized p fsmState (btb.entries i)
  entry : ∀ pc,
    EntryFor p fsmState h0 past pc (btb.getTag pc) (btb.entries (btbIndex p pc))

variable {p : Params} {fsmState : BitVec 32} {h0 : Nat} {past : List Branch} {btb : Btb}

theorem refines_bpInit (p : Params) (fsmState : BitVec 32) (unset : Unset) :
    Refines p fsmState unset.globalHistory.toNat [] (bpInit p fsmState unset) where
  params := rfl
  indexMask := rfl
  globalMask := rfl
  globalNumOfFsm := rfl
  globalHistory := rfl
  globalTable := fun _ => rfl
  sized := fun _ => ⟨rfl, rfl, rfl⟩
  entry := fun pc =>
    { hit := by simp [bpInit, residencyOf_nil]
      target := fun _ _ h => nomatch h
      knows := fun h => absurd rfl h }

/-! ## Tables -/

namespace FsmTable

variable {table : FsmTable} {index : BitVec 32} {n : Nat}

theorem lt_numOfFsm_iff (hn : n ≤ 30) (hnum : table.numOfFsm = 1#32 <<< n) :
    index < table.numOfFsm ↔ index.toNat < 2 ^ n := by
  rw [BitVec.lt_def, hnum, toNat_one_shiftLeft hn]

theorem update_of_lt (hn : n ≤ 30) (hnum : table.numOfFsm = 1#32 <<< n)
    (hlt : index.toNat < 2 ^ n) (taken : Bool) :
    table.update index taken =
      .ok { table with
        fsm := Function.update table.fsm index.toNat ((table.fsm index.toNat).update taken) } :=
  if_pos ((lt_numOfFsm_iff hn hnum).mpr hlt)

theorem update_of_not_lt (hn : n ≤ 30) (hnum : table.numOfFsm = 1#32 <<< n)
    (hlt : ¬index.toNat < 2 ^ n) (taken : Bool) :
    table.update index taken = .error (.fsm index table.numOfFsm) :=
  if_neg (mt (lt_numOfFsm_iff hn hnum).mp hlt)

theorem getStateByIndex_of_lt (hn : n ≤ 30) (hnum : table.numOfFsm = 1#32 <<< n)
    (hlt : index.toNat < 2 ^ n) : table.getStateByIndex index = .ok (table.fsm index.toNat) :=
  if_pos ((lt_numOfFsm_iff hn hnum).mpr hlt)

end FsmTable

/-- One state machine reads one more outcome. -/
theorem replay_update {s : BimodalState} {fsm : Nat → BimodalState} {seen seen' : Nat → List Bool}
    {cell : Nat} {taken : Bool} (h : ∀ c, fsm c = replay BimodalState.update s (seen c))
    (hseen : ∀ c, seen' c = if cell = c then taken :: seen c else seen c) (c : Nat) :
    Function.update fsm cell ((fsm cell).update taken) c =
      replay BimodalState.update s (seen' c) := by
  rw [hseen]
  by_cases hc : cell = c
  · subst hc
    rw [Function.update_self, if_pos rfl, h, replay_cons]
  · rw [Function.update_of_ne (Ne.symm hc), if_neg hc, h]

/-! ## Entries -/

namespace Refines

theorem entryOf_eq (h : Refines p fsmState h0 past btb) (hp : p.Valid) (pc : BitVec 32) :
    (btb.getEntryByIndex pc).toNat = btbIndex p pc ∧
      btb.entryOf pc = .ok (btb.entries (btbIndex p pc)) := by
  obtain rfl := h.params
  have hindex := Btb.toNat_getEntryByIndex hp h.indexMask pc
  refine ⟨hindex, ?_⟩
  rw [Btb.entryOf, hindex, if_pos (btbIndex_lt hp pc)]

theorem getTag_eq_iff (h : Refines p fsmState h0 past btb) (hp : p.Valid) {pc pc' : BitVec 32} :
    btb.getTag pc = btb.getTag pc' ↔ btbTag p pc = btbTag p pc' := by
  obtain rfl := h.params
  rw [← BitVec.toNat_inj, Btb.toNat_getTag hp, Btb.toNat_getTag hp]

/-- After `renew` the entry is that of the branch, whether it was before or
not. -/
structure Renewed (p : Params) (fsmState : BitVec 32) (h0 : Nat) (past : List Branch)
    (tag target pc : BitVec 32) (entry : BtbEntry) : Prop
    extends EntrySized p fsmState entry,
      EntryKnows p fsmState h0 (residencyOf p past pc) entry where
  isValid : entry.valid = true
  tag_eq : entry.tag = tag
  target_eq : entry.target = target

theorem renewed (h : Refines p fsmState h0 past btb) (pc target : BitVec 32) :
    Renewed p fsmState h0 past (btb.getTag pc) target pc
      (btb.renew (btb.entries (btbIndex p pc)) pc target) := by
  have hsized := h.sized (btbIndex p pc)
  by_cases hhit : (btb.entries (btbIndex p pc)).valid = true ∧
      (btb.entries (btbIndex p pc)).tag = btb.getTag pc
  · have hknows := (h.entry pc).knows ((h.entry pc).hit.mp hhit)
    have hkeep : btb.renew (btb.entries (btbIndex p pc)) pc target =
        { btb.entries (btbIndex p pc) with valid := true, target := target } := by
      simp [Btb.renew, hhit.1, hhit.2]
    rw [hkeep]
    exact ⟨⟨hsized.mask, hsized.numOfFsm, hsized.defaultState⟩, ⟨hknows.history, hknows.table⟩,
      rfl, hhit.2, rfl⟩
  · have hmiss : residencyOf p past pc = [] := by
      by_contra hne
      exact hhit ((h.entry pc).hit.mpr hne)
    have hreset : (!(btb.entries (btbIndex p pc)).valid ||
        decide ((btb.entries (btbIndex p pc)).tag ≠ btb.getTag pc)) = true := by
      cases hv : (btb.entries (btbIndex p pc)).valid with
      | false => rfl
      | true => exact decide_eq_true fun htag => hhit ⟨hv, htag⟩
    simp only [Btb.renew]
    rw [if_pos hreset]
    refine ⟨⟨hsized.mask, hsized.numOfFsm, hsized.defaultState⟩, ⟨?_, ?_⟩, rfl, rfl, rfl⟩
    · rw [hmiss]
      exact (lastBits_nil p.historySize).symm
    · intro c
      rw [hmiss]
      exact congrArg BitVec.toInt hsized.defaultState

/-- The history that an access to an entry reads. -/
theorem toNat_history (h : Refines p fsmState h0 past btb) {pc : BitVec 32} {entry : BtbEntry}
    (hknows : EntryKnows p fsmState h0 (residencyOf p past pc) entry) :
    (if btb.isGlobalHist then btb.globalBhr.getHistory else entry.localBhr.getHistory).toNat =
      historyOf p (globFrom p h0) past pc := by
  obtain rfl := h.params
  unfold historyOf
  by_cases hg : btb.isGlobalHist = true
  · rw [if_pos hg, if_pos hg]
    exact h.globalHistory
  · rw [if_neg hg, if_neg hg]
    exact hknows.history

theorem toNat_sharedHistory (h : Refines p fsmState h0 past btb) (hp : p.Valid)
    (pc : BitVec 32) {history : BitVec 32}
    (hhist : history.toNat = historyOf p (globFrom p h0) past pc) :
    (btb.getSharedHistory history pc).toNat = globalCell p (globFrom p h0) past pc := by
  obtain rfl := h.params
  rw [Btb.toNat_getSharedHistory hp, hhist, globalCell]

end Refines

/-! ## Updates -/

/-- What `update` stores in the entry of the branch. -/
def BtbEntry.see (entry : BtbEntry) (cell : Nat) (taken : Bool) : BtbEntry :=
  { entry with
    localTable := { entry.localTable with
      fsm := Function.update entry.localTable.fsm cell
        ((entry.localTable.fsm cell).update taken) }
    localBhr := entry.localBhr.update taken }

/-- The `BTB` after `update`, its counters apart. -/
def Btb.see (btb : Btb) (entry : BtbEntry) (index globalCell localCell : Nat) (taken : Bool) :
    Btb :=
  { btb with
    globalTable := { btb.globalTable with
      fsm := Function.update btb.globalTable.fsm globalCell
        ((btb.globalTable.fsm globalCell).update taken) }
    globalBhr := btb.globalBhr.update taken
    entries := Function.update btb.entries index (entry.see localCell taken) }

theorem entryKnows_see (hp : p.Valid) {entry : BtbEntry} {run : List Occurrence} {b : Branch}
    (hsized : EntrySized p fsmState entry) (h : EntryKnows p fsmState h0 run entry) :
    EntryKnows p fsmState h0 ((b, past) :: run)
      (entry.see (historyOf p (globFrom p h0) past b.pc) b.taken) where
  history := by
    rw [BtbEntry.see, Bhr.toNat_update hp.historySize_le hsized.mask, h.history]
    exact (lastBits_cons _ _ _).symm
  table := replay_update h.table (localOutcomes_cons run)

theorem entrySized_see {entry : BtbEntry} (h : EntrySized p fsmState entry) (cell : Nat)
    (taken : Bool) : EntrySized p fsmState (entry.see cell taken) :=
  ⟨h.mask, h.numOfFsm, h.defaultState⟩

theorem Btb.see_entries_self (btb : Btb) (entry : BtbEntry) (index g l : Nat) (taken : Bool) :
    (btb.see entry index g l taken).entries index = entry.see l taken :=
  Function.update_self ..

theorem Btb.see_entries_of_ne {btb : Btb} {entry : BtbEntry} {i index g l : Nat} {taken : Bool}
    (hi : i ≠ index) : (btb.see entry index g l taken).entries i = btb.entries i :=
  Function.update_of_ne hi ..

namespace Refines

/-! The entry at the index of `pc` after branch `b`: that of `b`, for another
tag than `pc`'s or the same, or one that `b` has left alone. -/

theorem entryFor_see_of_eq (h : Refines p fsmState h0 past btb) (hp : p.Valid) {b : Branch}
    {pc : BitVec 32} (hi : btbIndex p b.pc = btbIndex p pc) (ht : btbTag p b.pc = btbTag p pc) :
    EntryFor p fsmState h0 (b :: past) pc (btb.getTag pc)
      ((btb.renew (btb.entries (btbIndex p b.pc)) b.pc b.targetPc).see
        (historyOf p (globFrom p h0) past b.pc) b.taken) := by
  have hnew := h.renewed b.pc b.targetPc
  have hrun := residencyOf_cons_of_eq past hi ht
  refine ⟨?_, ?_, ?_⟩ <;> rw [hrun]
  · exact ⟨fun _ => List.cons_ne_nil _ _, fun _ =>
      ⟨hnew.isValid, hnew.tag_eq.trans ((h.getTag_eq_iff hp).mpr ht)⟩⟩
  · rintro last run ⟨⟩
    exact hnew.target_eq
  · intro _
    exact entryKnows_see hp hnew.toEntrySized hnew.toEntryKnows

theorem entryFor_see_of_tag_ne (h : Refines p fsmState h0 past btb) (hp : p.Valid) {b : Branch}
    {pc : BitVec 32} (hi : btbIndex p b.pc = btbIndex p pc) (ht : btbTag p b.pc ≠ btbTag p pc)
    (cell : Nat) :
    EntryFor p fsmState h0 (b :: past) pc (btb.getTag pc)
      ((btb.renew (btb.entries (btbIndex p b.pc)) b.pc b.targetPc).see cell b.taken) := by
  have hnew := h.renewed b.pc b.targetPc
  have hrun := residencyOf_cons_of_tag_ne past hi ht
  refine ⟨?_, ?_, ?_⟩ <;> rw [hrun]
  · constructor
    · intro hhit
      exact absurd ((h.getTag_eq_iff hp).mp (hnew.tag_eq.symm.trans hhit.2)) ht
    · exact fun hne => absurd rfl hne
  · exact fun _ _ hlast => nomatch hlast
  · exact fun hne => absurd rfl hne

theorem entryFor_of_index_ne (h : Refines p fsmState h0 past btb) {b : Branch} {pc : BitVec 32}
    (hi : btbIndex p b.pc ≠ btbIndex p pc) :
    EntryFor p fsmState h0 (b :: past) pc (btb.getTag pc) (btb.entries (btbIndex p pc)) := by
  have hrun := residencyOf_cons_of_index_ne past hi
  have hold := h.entry pc
  refine ⟨?_, ?_, ?_⟩ <;> rw [hrun]
  · exact hold.hit
  · exact hold.target
  · exact hold.knows

end Refines

/-- One more branch. -/
theorem refines_see (hp : p.Valid) (h : Refines p fsmState h0 past btb) (b : Branch) :
    Refines p fsmState h0 (b :: past)
      (btb.see (btb.renew (btb.entries (btbIndex p b.pc)) b.pc b.targetPc) (btbIndex p b.pc)
        (globalCell p (globFrom p h0) past b.pc) (historyOf p (globFrom p h0) past b.pc)
        b.taken) := by
  refine ⟨h.params, h.indexMask, h.globalMask, h.globalNumOfFsm, ?_, ?_, ?_, ?_⟩
  · rw [Btb.see, Bhr.toNat_update hp.historySize_le h.globalMask, h.globalHistory]
    rfl
  · exact replay_update h.globalTable globalOutcomes_cons
  · intro i
    by_cases hi : i = btbIndex p b.pc
    · rw [hi, Btb.see_entries_self]
      exact entrySized_see (h.renewed b.pc b.targetPc).toEntrySized _ _
    · rw [Btb.see_entries_of_ne hi]
      exact h.sized i
  · intro pc
    by_cases hi : btbIndex p b.pc = btbIndex p pc
    · rw [← hi, Btb.see_entries_self]
      by_cases ht : btbTag p b.pc = btbTag p pc
      · exact h.entryFor_see_of_eq hp hi ht
      · exact h.entryFor_see_of_tag_ne hp hi ht _
    · rw [Btb.see_entries_of_ne (Ne.symm hi)]
      exact h.entryFor_of_index_ne hi

theorem Refines.count (h : Refines p fsmState h0 past btb) (u f : BitVec 32) :
    Refines p fsmState h0 past { btb with updateCounter := u, flushCounter := f } :=
  ⟨h.params, h.indexMask, h.globalMask, h.globalNumOfFsm, h.globalHistory, h.globalTable, h.sized,
    h.entry⟩

/-- The history that `update` reads. -/
theorem Refines.toNat_histForUpdate (h : Refines p fsmState h0 past btb) (b : Branch) :
    (if btb.isGlobalHist then btb.globalBhr
      else (btb.renew (btb.entries (btbIndex p b.pc)) b.pc b.targetPc).localBhr).getHistory.toNat =
      historyOf p (globFrom p h0) past b.pc := by
  rw [apply_ite Bhr.getHistory]
  exact h.toNat_history (h.renewed b.pc b.targetPc).toEntryKnows

/-- Within the range of the tables `update` adds the branch to the past. -/
theorem update_refines (hp : p.Valid) (h : Refines p fsmState h0 past btb) (b : Branch)
    (predDst : BitVec 32) (hlt : historyOf p (globFrom p h0) past b.pc < 2 ^ p.historySize) :
    ∃ btb', btb.update b.pc b.targetPc b.taken predDst = .ok btb' ∧
      Refines p fsmState h0 (b :: past) btb' := by
  have hnew := h.renewed b.pc b.targetPc
  have hhist := h.toNat_histForUpdate b
  have hshared := h.toNat_sharedHistory hp b.pc hhist
  obtain ⟨hindex, hentry⟩ := h.entryOf_eq hp b.pc
  have hglobal := FsmTable.update_of_lt hp.historySize_le h.globalNumOfFsm
    (hshared ▸ globalCell_lt_iff.mpr hlt) b.taken
  have hlocal := FsmTable.update_of_lt hp.historySize_le hnew.numOfFsm (hhist ▸ hlt) b.taken
  rw [hshared] at hglobal
  rw [hhist] at hlocal
  refine ⟨_, ?_, (refines_see hp h b).count (btb.updateCounter + 1)
    (if Btb.mispredicted b.pc b.targetPc b.taken predDst then btb.flushCounter + 1
      else btb.flushCounter)⟩
  simp only [Btb.update, hentry, hindex, hglobal, hlocal, bind, Except.bind]
  rfl

/-- Outside of it `update` fails. -/
theorem update_fault (hp : p.Valid) (h : Refines p fsmState h0 past btb) (b : Branch)
    (predDst : BitVec 32) (hge : ¬historyOf p (globFrom p h0) past b.pc < 2 ^ p.historySize) :
    ∃ index : BitVec 32, 2 ^ p.historySize ≤ index.toNat ∧
      btb.update b.pc b.targetPc b.taken predDst =
        .error (.fsm index (1#32 <<< p.historySize)) := by
  have hshared := h.toNat_sharedHistory hp b.pc (h.toNat_histForUpdate b)
  have hout := mt globalCell_lt_iff.mp hge
  rw [← hshared] at hout
  have hglobal := FsmTable.update_of_not_lt hp.historySize_le h.globalNumOfFsm hout b.taken
  refine ⟨_, Nat.le_of_not_lt hout, ?_⟩
  simp only [Btb.update, (h.entryOf_eq hp b.pc).2, hglobal, bind, Except.bind, h.globalNumOfFsm]

/-! ## Predictions -/

/-- What a counter is taken to predict. -/
def predictsTaken (state : BimodalState) : Bool :=
  state = BimodalState.WT ∨ state = BimodalState.ST

/-- After at least one branch the global history is in range too. -/
theorem historyOf_lt_of_residency (h0 : Nat) {pc : BitVec 32} (hne : residencyOf p past pc ≠ []) :
    historyOf p (globFrom p h0) past pc < 2 ^ p.historySize := by
  refine historyOf_lt ?_ pc
  intro _
  cases past with
  | nil => exact absurd rfl hne
  | cons b past => exact shiftIn_lt _ _ _

theorem EntryFor.hit_iff {tag : BitVec 32} {pc : BitVec 32} {entry : BtbEntry}
    (h : EntryFor p fsmState h0 past pc tag entry) :
    (entry.valid && decide (tag = entry.tag)) = true ↔ residencyOf p past pc ≠ [] := by
  rw [Bool.and_eq_true, decide_eq_true_eq, @eq_comm _ tag]
  exact h.hit

/-- The state machine that `predict` reads. -/
theorem getStateByIndex_eq (hp : p.Valid) (h : Refines p fsmState h0 past btb) {pc : BitVec 32}
    (hne : residencyOf p past pc ≠ []) {history : BitVec 32}
    (hhist : history.toNat = historyOf p (globFrom p h0) past pc) :
    (if btb.isGlobalTable then btb.globalTable
      else (btb.entries (btbIndex p pc)).localTable).getStateByIndex
        (if btb.isGlobalTable then btb.getSharedHistory history pc else history) =
      .ok (replay BimodalState.update fsmState.toInt
        (cellOutcomes p (globFrom p h0) past pc)) := by
  have hparams := h.params
  have hlt := historyOf_lt_of_residency h0 hne
  unfold cellOutcomes
  by_cases hg : p.isGlobalTable = true
  · have hshared := h.toNat_sharedHistory hp pc hhist
    rw [hparams, if_pos hg, if_pos hg, if_pos hg, FsmTable.getStateByIndex_of_lt hp.historySize_le
      h.globalNumOfFsm (hshared ▸ globalCell_lt_iff.mpr hlt), hshared, h.globalTable]
  · rw [hparams, if_neg hg, if_neg hg, if_neg hg, FsmTable.getStateByIndex_of_lt hp.historySize_le
      (h.sized _).numOfFsm (hhist ▸ hlt), hhist, ((h.entry pc).knows hne).table]

/-- `predict` never fails. -/
theorem predict_eq (hp : p.Valid) (h : Refines p fsmState h0 past btb) (pc : BitVec 32) :
    btb.predict pc = .ok (predictionOf p (globFrom p h0)
      (fun bits => predictsTaken (replay BimodalState.update fsmState.toInt bits)) past pc) := by
  have hfor := h.entry pc
  simp only [Btb.predict, (h.entryOf_eq hp pc).2, bind, Except.bind, predictionOf]
  cases hrun : residencyOf p past pc with
  | nil => rw [if_neg (mt hfor.hit_iff.mp (not_not_intro hrun))]
  | cons last run =>
      have hne : residencyOf p past pc ≠ [] := hrun ▸ List.cons_ne_nil last run
      have hstate := getStateByIndex_eq hp h hne (h.toNat_history (hfor.knows hne))
      rw [if_pos (hfor.hit_iff.mpr hne), hstate, hfor.target last run hrun]
      simp only [predictsTaken, decide_eq_true_eq]
      split <;> rfl

end Bp

end ArchSim
