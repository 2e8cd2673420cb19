import ArchSim.BranchPredictor
import ArchSim.History

/-!
# What a prediction depends on

The predictor as a function of the branches before, the newest one first.
A branch finds the histories and counters that these have left: its own
residency in the branch target buffer, the outcomes in the history that
selects its cell, and the outcomes of the earlier branches that used the
same cell.

The global history register starts with whatever it was left at, so what it
holds after given outcomes is a parameter, `glob`.
-/

namespace ArchSim

namespace Bp

/-- The index and the tag of a branch, with `k` the logarithm of the size:
the low `k` bits of the address from bit 2 on, and the bits above these. -/
def btbIndex (p : Params) (pc : BitVec 32) : Nat := pc.toNat / 4 % 2 ^ p.btbSize.log2

def btbTag (p : Params) (pc : BitVec 32) : Nat :=
  pc.toNat / 2 ^ (2 + p.btbSize.log2) % 2 ^ p.tagSize

/-- A branch, and the branches before it. -/
abbrev Occurrence := Branch × List Branch

def outcomes (run : List Occurrence) : List Bool := run.map fun o => o.1.taken

/-- The branches since the entry of `pc` has last been taken over, if it was
by a branch with the tag of `pc`. -/
def residencyOf (p : Params) (past : List Branch) (pc : BitVec 32) : List Occurrence :=
  residency (fun o : Occurrence => btbIndex p o.1.pc) (fun o => btbTag p o.1.pc)
    (occurrences past) (btbIndex p pc) (btbTag p pc)

/-- The history that a branch at `pc` finds. -/
def historyOf (p : Params) (glob : List Bool → Nat) (past : List Branch) (pc : BitVec 32) : Nat :=
  if p.isGlobalHist then glob (past.map Branch.taken)
  else lastBits p.historySize (outcomes (residencyOf p past pc))

/-- The bits of the address that a shared table adds to the history. -/
def sharedBits (p : Params) (pc : BitVec 32) : Nat :=
  if p.shared = NOT_USING_SHARE then 0
  else if p.shared = USING_SHARE_LSB then pc.toNat / 4 % 2 ^ p.historySize
  else pc.toNat / 2 ^ 16 % 2 ^ p.historySize

/-- The state machine of the global table that a branch at `pc` uses. -/
def globalCell (p : Params) (glob : List Bool → Nat) (past : List Branch) (pc : BitVec 32) : Nat :=
  historyOf p glob past pc ^^^ sharedBits p pc

/-- The outcomes that state machine `c` of the global table has seen. -/
def globalOutcomes (p : Params) (glob : List Bool → Nat) (past : List Branch) (c : Nat) :
    List Bool :=
  outcomes ((occurrences past).filter fun o => globalCell p glob o.2 o.1.pc = c)

/-- Those that state machine `c` of an entry has seen during `run`. -/
def localOutcomes (p : Params) (glob : List Bool → Nat) (run : List Occurrence) (c : Nat) :
    List Bool :=
  outcomes (run.filter fun o => historyOf p glob o.2 o.1.pc = c)

/-- Those that decide the prediction of a branch at `pc`. -/
def cellOutcomes (p : Params) (glob : List Bool → Nat) (past : List Branch) (pc : BitVec 32) :
    List Bool :=
  if p.isGlobalTable then globalOutcomes p glob past (globalCell p glob past pc)
  else localOutcomes p glob (residencyOf p past pc) (historyOf p glob past pc)

/-- The prediction, where `takes` says what the outcomes of a cell amount
to. -/
def predictionOf (p : Params) (glob : List Bool → Nat) (takes : List Bool → Bool)
    (past : List Branch) (pc : BitVec 32) : Bool × BitVec 32 :=
  match residencyOf p past pc with
  | [] => (false, pc + 4)
  | last :: _ =>
      if takes (cellOutcomes p glob past pc) then (true, last.1.targetPc) else (false, pc + 4)

/-! ## One more branch -/

section Cons

variable {p : Params} {glob : List Bool → Nat} {past : List Branch} {b : Branch} {pc : BitVec 32}

theorem residencyOf_nil : residencyOf p [] pc = [] := rfl

theorem residencyOf_cons_of_eq (past : List Branch) (hi : btbIndex p b.pc = btbIndex p pc)
    (ht : btbTag p b.pc = btbTag p pc) :
    residencyOf p (b :: past) pc = (b, past) :: residencyOf p past b.pc := by
  unfold residencyOf
  rw [← hi, ← ht]
  exact residency_cons_of_eq (fun o : Occurrence => btbIndex p o.1.pc)
    (fun o => btbTag p o.1.pc) (b, past) (occurrences past)

theorem residencyOf_cons_of_tag_ne (past : List Branch) (hi : btbIndex p b.pc = btbIndex p pc)
    (ht : btbTag p b.pc ≠ btbTag p pc) : residencyOf p (b :: past) pc = [] := by
  rw [residencyOf, ← hi]
  exact residency_cons_of_tag_ne (fun o : Occurrence => btbIndex p o.1.pc)
    (fun o => btbTag p o.1.pc) (a := (b, past)) (occurrences past) ht

theorem residencyOf_cons_of_index_ne (past : List Branch)
    (hi : btbIndex p b.pc ≠ btbIndex p pc) :
    residencyOf p (b :: past) pc = residencyOf p past pc :=
  residency_cons_of_index_ne (fun o : Occurrence => btbIndex p o.1.pc)
    (fun o => btbTag p o.1.pc) (a := (b, past)) (occurrences past) hi

theorem globalOutcomes_cons (c : Nat) :
    globalOutcomes p glob (b :: past) c =
      if globalCell p glob past b.pc = c then b.taken :: globalOutcomes p glob past c
      else globalOutcomes p glob past c := by
  simp only [globalOutcomes, occurrences, List.filter_cons, decide_eq_true_eq]
  split <;> rfl

theorem localOutcomes_cons (run : List Occurrence) (c : Nat) :
    localOutcomes p glob ((b, past) :: run) c =
      if historyOf p glob past b.pc = c then b.taken :: localOutcomes p glob run c
      else localOutcomes p glob run c := by
  simp only [localOutcomes, List.filter_cons, decide_eq_true_eq]
  split <;> rfl

end Cons

/-! ## Bounds -/

theorem sharedBits_lt (p : Params) (pc : BitVec 32) : sharedBits p pc < 2 ^ p.historySize := by
  have hpos := Nat.two_pow_pos p.historySize
  unfold sharedBits
  split
  · exact hpos
  · split <;> exact Nat.mod_lt _ hpos

theorem historyOf_lt {p : Params} {glob : List Bool → Nat} {past : List Branch}
    (hglob : p.isGlobalHist = true → glob (past.map Branch.taken) < 2 ^ p.historySize)
    (pc : BitVec 32) : historyOf p glob past pc < 2 ^ p.historySize := by
  unfold historyOf
  split
  · exact hglob ‹_›
  · exact lastBits_lt _ _

/-- A cell is in range exactly when the history is. -/
theorem globalCell_lt_iff {p : Params} {glob : List Bool → Nat} {past : List Branch}
    {pc : BitVec 32} :
    globalCell p glob past pc < 2 ^ p.historySize ↔
      historyOf p glob past pc < 2 ^ p.historySize := by
  constructor
  · intro h
    have hx := Nat.xor_lt_two_pow h (sharedBits_lt p pc)
    rwa [globalCell, Nat.xor_assoc, Nat.xor_self, Nat.xor_zero] at hx
  · intro h
    exact Nat.xor_lt_two_pow h (sharedBits_lt p pc)

theorem btbIndex_lt {p : Params} (hp : p.Valid) (pc : BitVec 32) : btbIndex p pc < p.btbSize :=
  Nat.lt_of_lt_of_le (Nat.mod_lt _ (Nat.two_pow_pos _))
    (Nat.log2_self_le (Nat.ne_of_gt hp.btbSize_pos))

/-! ## The words of the source -/

theorem toNat_one_shiftLeft {n : Nat} (hn : n ≤ 30) : (1#32 <<< n).toNat = 2 ^ n := by
  have hlt : 2 ^ n ≤ 2 ^ 30 := Nat.pow_le_pow_right (by decide) hn
  rw [BitVec.toNat_shiftLeft, Nat.shiftLeft_eq, BitVec.toNat_ofNat, Nat.one_mod, Nat.one_mul,
    Nat.mod_eq_of_lt (by omega)]

/-- The word of `n` low ones, as the source makes masks. -/
theorem toNat_mask {n : Nat} (hn : n ≤ 30) : ((1#32 <<< n) - 1).toNat = 2 ^ n - 1 := by
  have hlt : 2 ^ n ≤ 2 ^ 30 := Nat.pow_le_pow_right (by decide) hn
  have hpos := Nat.two_pow_pos n
  have hone : (1 : BitVec 32).toNat = 1 := rfl
  rw [BitVec.toNat_sub, toNat_one_shiftLeft hn, hone]
  omega

theorem toNat_and_mask (w : BitVec 32) {n : Nat} (hn : n ≤ 30) :
    (w &&& ((1#32 <<< n) - 1)).toNat = w.toNat % 2 ^ n := by
  rw [BitVec.toNat_and, toNat_mask hn, Nat.and_two_pow_sub_one_eq_mod]

theorem log2_le {p : Params} (hp : p.Valid) : p.btbSize.log2 ≤ 30 := by
  have hlt : p.btbSize.log2 < 30 :=
    (Nat.log2_lt (Nat.ne_of_gt hp.btbSize_pos)).mpr (Nat.lt_of_le_of_lt hp.btbSize_le (by decide))
  exact Nat.le_of_lt hlt

namespace Btb

variable {btb : Btb}

theorem toNat_getTag (hp : btb.toParams.Valid) (pc : BitVec 32) :
    (btb.getTag pc).toNat = btbTag btb.toParams pc := by
  rw [getTag, toNat_and_mask _ hp.tagSize_le, BitVec.toNat_ushiftRight, Nat.shiftRight_eq_div_pow]
  rfl

theorem toNat_getEntryByIndex (hp : btb.toParams.Valid)
    (hmask : btb.entryIndexMask = (1#32 <<< btb.btbSize.log2) - 1) (pc : BitVec 32) :
    (btb.getEntryByIndex pc).toNat = btbIndex btb.toParams pc := by
  rw [getEntryByIndex, hmask, toNat_and_mask _ (log2_le hp), BitVec.toNat_ushiftRight,
    Nat.shiftRight_eq_div_pow]
  rfl

theorem toNat_getSharedHistory (hp : btb.toParams.Valid) (history pc : BitVec 32) :
    (btb.getSharedHistory history pc).toNat =
      history.toNat ^^^ sharedBits btb.toParams pc := by
  unfold getSharedHistory sharedBits
  by_cases hnot : btb.shared = NOT_USING_SHARE
  · rw [if_pos hnot, if_pos hnot, Nat.xor_zero]
  · rw [if_neg hnot, if_neg hnot, BitVec.toNat_xor, toNat_and_mask _ hp.historySize_le]
    by_cases hlsb : btb.shared = USING_SHARE_LSB
    · rw [if_pos hlsb, if_pos hlsb, BitVec.toNat_ushiftRight, Nat.shiftRight_eq_div_pow]
    · rw [if_neg hlsb, if_neg hlsb, BitVec.toNat_ushiftRight, Nat.shiftRight_eq_div_pow]

end Btb

theorem Bhr.toNat_update {n : Nat} (hn : n ≤ 30) {bhr : Bhr}
    (hmask : bhr.historyMask = (1#32 <<< n) - 1) (taken : Bool) :
    (bhr.update taken).historyRecord.toNat = shiftIn n bhr.historyRecord.toNat taken := by
  have hdvd : 2 ^ n ∣ 2 ^ 32 := Nat.pow_dvd_pow 2 (by omega)
  have hbit : (if taken then 1 else 0 : BitVec 32).toNat = taken.toNat := by
    cases taken <;> rfl
  simp only [Bhr.update, hmask, toNat_and_mask _ hn, shiftIn, BitVec.toNat_add, hbit,
    BitVec.toNat_shiftLeft, Nat.shiftLeft_eq, Nat.mod_mod_of_dvd _ hdvd, Nat.mod_add_mod]
  rw [Nat.pow_one, Nat.mul_comm]

end Bp

end ArchSim
