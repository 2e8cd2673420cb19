import ArchSim.BranchMain

/-!
# Predictors that agree

The sizes of the buffer and of its tags matter only through which branches of
the trace share an entry, and which of these share a tag (`sizes_agree`).

Local tables that local histories select keep branches apart. A branch with
an entry to itself is then predicted as if there were no other branch, and
the branches of a single address are predicted the same in every mode
(`predicted_alone`).
-/

namespace ArchSim

namespace Bp

variable {p : Params} {past : List Branch} {pc : BitVec 32}

/-! ## Predictions for some of the branches -/

/-- Where a predictor says of the branches of one kind what another one says
when it is shown only these. -/
theorem predictions_filter {predict predict' : List Branch → BitVec 32 → Bool × BitVec 32}
    (q : Branch → Bool) {branches : List Branch} :
    ∀ {past : List Branch}, (∀ o ∈ occurrences (branches.reverse ++ past), q o.1 = true →
        predict o.2 o.1.pc = predict' (o.2.filter q) o.1.pc) →
      ((branches.zip (predictions predict past branches)).filter fun step => q step.1).map
          Prod.snd = predictions predict' (past.filter q) (branches.filter q) := by
  induction branches with
  | nil => exact fun _ => rfl
  | cons b branches ih =>
      intro past h
      rw [List.reverse_cons, List.append_assoc, List.singleton_append] at h
      have hrest := ih h
      have hb := h (b, past) (mem_occurrences_append (List.mem_cons_self ..) _)
      rw [predictions, List.zip_cons_cons]
      by_cases hq : q b = true
      · simp only [List.filter_cons, hq, if_true, List.map_cons, predictions, hb hq] at hrest ⊢
        rw [hrest]
      · simp only [List.filter_cons, hq, if_false, Bool.false_eq_true] at hrest ⊢
        exact hrest

theorem predictions_congr {predict predict' : List Branch → BitVec 32 → Bool × BitVec 32}
    {branches : List Branch}
    (h : ∀ o ∈ occurrences branches.reverse, predict o.2 o.1.pc = predict' o.2 o.1.pc) :
    predictions predict [] branches = predictions predict' [] branches := by
  have hall := @predictions_filter predict predict' (fun _ => true) branches [] fun o ho _ => by
    rw [List.append_nil] at ho
    rw [List.filter_true]
    exact h o ho
  simp only [List.filter_true] at hall
  rwa [List.map_snd_zip (Nat.le_of_eq (length_predictions _ _ _))] at hall

/-! ## Sizes -/

/-- The same modes with another buffer. -/
def Params.resize (p : Params) (btbSize tagSize : Nat) : Params :=
  { p with btbSize := btbSize, tagSize := tagSize }

/-- The same addresses share an entry, and the same of these a tag. -/
structure SharesAs (p p' : Params) (pcs : List (BitVec 32)) : Prop where
  index : ∀ pc ∈ pcs, ∀ pc' ∈ pcs,
    btbIndex p pc = btbIndex p pc' ↔ btbIndex p' pc = btbIndex p' pc'
  tag : ∀ pc ∈ pcs, ∀ pc' ∈ pcs, btbIndex p pc = btbIndex p pc' →
    (btbTag p pc = btbTag p pc' ↔ btbTag p' pc = btbTag p' pc')

/-- Buffers in which every branch has an entry of its own. -/
theorem sharesAs_of_own {p p' : Params} {pcs : List (BitVec 32)}
    (h : ∀ pc ∈ pcs, ∀ pc' ∈ pcs, btbIndex p pc = btbIndex p pc' → pc = pc')
    (h' : ∀ pc ∈ pcs, ∀ pc' ∈ pcs, btbIndex p' pc = btbIndex p' pc' → pc = pc') :
    SharesAs p p' pcs where
  index := fun pc hpc pc' hpc' =>
    ⟨fun hi => congrArg _ (h pc hpc pc' hpc' hi), fun hi => congrArg _ (h' pc hpc pc' hpc' hi)⟩
  tag := fun pc hpc pc' hpc' hi =>
    iff_of_true (congrArg _ (h pc hpc pc' hpc' hi)) (congrArg _ (h pc hpc pc' hpc' hi))

section Sizes

variable {btbSize tagSize : Nat} {pcs : List (BitVec 32)}
  (h : SharesAs p (p.resize btbSize tagSize) pcs)
include h

theorem residencyOf_resize (hpast : ∀ b ∈ past, b.pc ∈ pcs) (hpc : pc ∈ pcs) :
    residencyOf (p.resize btbSize tagSize) past pc = residencyOf p past pc :=
  (residency_congr (fun _ ho => h.index _ (hpast _ (mem_of_mem_occurrences ho).1) _ hpc)
    fun _ ho => h.tag _ (hpast _ (mem_of_mem_occurrences ho).1) _ hpc).symm

theorem historyOf_resize (glob : List Bool → Nat) (hpast : ∀ b ∈ past, b.pc ∈ pcs)
    (hpc : pc ∈ pcs) :
    historyOf (p.resize btbSize tagSize) glob past pc = historyOf p glob past pc := by
  rw [historyOf, residencyOf_resize h hpast hpc]
  rfl

theorem cellOutcomes_resize (glob : List Bool → Nat) (hpast : ∀ b ∈ past, b.pc ∈ pcs)
    (hpc : pc ∈ pcs) :
    cellOutcomes (p.resize btbSize tagSize) glob past pc = cellOutcomes p glob past pc := by
  have hhist : ∀ o ∈ occurrences past,
      historyOf (p.resize btbSize tagSize) glob o.2 o.1.pc = historyOf p glob o.2 o.1.pc :=
    fun o ho => historyOf_resize h glob
      (fun b hb => hpast b ((mem_of_mem_occurrences ho).2 hb))
      (hpast _ (mem_of_mem_occurrences ho).1)
  have hpc' := historyOf_resize h glob hpast hpc
  have hcell : globalCell (p.resize btbSize tagSize) glob past pc = globalCell p glob past pc :=
    congrArg (· ^^^ sharedBits p pc) hpc'
  rw [cellOutcomes, cellOutcomes, hpc', hcell, residencyOf_resize h hpast hpc]
  refine if_congr Iff.rfl (congrArg outcomes ?_) (congrArg outcomes ?_)
  · refine List.filter_congr fun o ho => ?_
    have hcell' : globalCell (p.resize btbSize tagSize) glob o.2 o.1.pc =
        globalCell p glob o.2 o.1.pc := congrArg (· ^^^ sharedBits p o.1.pc) (hhist o ho)
    rw [hcell']
  · refine List.filter_congr fun o ho => ?_
    rw [hhist o (mem_residency _ _ ho).1]

theorem twoBitPrediction_resize (fsmState : Nat) (hpast : ∀ b ∈ past, b.pc ∈ pcs)
    (hpc : pc ∈ pcs) :
    twoBitPrediction (p.resize btbSize tagSize) fsmState past pc =
      twoBitPrediction p fsmState past pc := by
  simp only [twoBitPrediction, predictionOf, residencyOf_resize h hpast hpc]
  have hcell := cellOutcomes_resize h (lastBits p.historySize) hpast hpc
  rw [show (p.resize btbSize tagSize).historySize = p.historySize from rfl, hcell]

end Sizes

/-- Two buffers in which the same branches share entries and tags predict the
same, and flush as often, whatever their sizes. -/
theorem sizes_agree (hp : p.Valid) {btbSize tagSize : Nat}
    (hp' : (p.resize btbSize tagSize).Valid) {branches : List Branch}
    (hshares : SharesAs p (p.resize btbSize tagSize) (branches.map Branch.pc))
    {fsmState : BitVec 32} (hfsm : fsmState ≤ 3) {unset unset' : Unset}
    (hunset : p.isGlobalHist = true → unset.globalHistory = 0 ∧ unset'.globalHistory = 0) :
    ∃ printed btb btb', mainLoop (bpInit p fsmState unset) branches = .ok (printed, btb) ∧
      mainLoop (bpInit (p.resize btbSize tagSize) fsmState unset') branches =
        .ok (printed, btb') ∧
      btb'.flushCounter = btb.flushCounter := by
  obtain ⟨btb, hrun⟩ := mainLoop_twoBit hp hfsm (fun hg => (hunset hg).1) branches
  obtain ⟨btb', hrun'⟩ := mainLoop_twoBit hp' hfsm (fun hg => (hunset hg).2) branches
  have hsame : predictions (twoBitPrediction (p.resize btbSize tagSize) fsmState.toNat) []
      branches = predictions (twoBitPrediction p fsmState.toNat) [] branches := by
    refine predictions_congr fun o ho => ?_
    obtain ⟨hmem, hsub⟩ := mem_of_mem_occurrences ho
    have hpcs : ∀ b ∈ branches.reverse, b.pc ∈ branches.map Branch.pc := fun b hb =>
      List.mem_map_of_mem (List.mem_reverse.mp hb)
    exact twoBitPrediction_resize hshares _ (fun b hb => hpcs b (hsub hb)) (hpcs _ hmem)
  rw [hsame] at hrun'
  refine ⟨_, btb, btb', hrun, hrun', ?_⟩
  rw [(mainLoop_counts hrun).2.2, (mainLoop_counts hrun').2.2]
  rfl

/-- Two entries, which two branches use. -/
def twoEntries : Params := { tinyParams with btbSize := 2 }

theorem twoEntries_valid : twoEntries.Valid :=
  ⟨by decide, by decide, by decide, by decide, by decide⟩

def crossing : List Branch := [⟨0, 8, true⟩, ⟨4, 16, false⟩, ⟨0, 8, true⟩]

theorem crossing_own {p : Params} (hne : btbIndex p 0#32 ≠ btbIndex p 4#32) :
    ∀ pc ∈ crossing.map Branch.pc, ∀ pc' ∈ crossing.map Branch.pc,
      btbIndex p pc = btbIndex p pc' → pc = pc' := by
  simp [crossing, hne, hne.symm]

theorem sizes_agree_crossing :
    ∃ printed btb btb', mainLoop (bpInit twoEntries 1 { staleUnset with globalHistory := 0 })
        crossing = .ok (printed, btb) ∧
      mainLoop (bpInit (twoEntries.resize 4 3) 1 { staleUnset with globalHistory := 0 })
        crossing = .ok (printed, btb') ∧
      btb'.flushCounter = btb.flushCounter :=
  sizes_agree twoEntries_valid ⟨by decide, by decide, by decide, by decide, by decide⟩
    (sharesAs_of_own (crossing_own (by decide)) (crossing_own (by decide))) (by decide)
    fun _ => ⟨rfl, rfl⟩

/-! ## One branch -/

/-- A branch that is the only one sees all of the history. -/
def soloHistory (n : Nat) (past : List Branch) : Nat := lastBits n (past.map Branch.taken)

/-- The outcomes after the same history. -/
def soloOutcomes (n : Nat) (past : List Branch) : List Bool :=
  outcomes ((occurrences past).filter fun o => soloHistory n o.2 = soloHistory n past)

def soloPrediction (n fsmState : Nat) (past : List Branch) (pc : BitVec 32) :
    Bool × BitVec 32 :=
  match past with
  | [] => (false, pc + 4)
  | last :: _ =>
      if 2 ≤ replay (saturate 3) fsmState (soloOutcomes n past) then (true, last.targetPc)
      else (false, pc + 4)

/-- The branches at an address. -/
def isAt (pc : BitVec 32) (b : Branch) : Bool := b.pc = pc

theorem twoBitPrediction_of_solo {n : Nat} {past' : List Branch} (fsmState : Nat)
    (hrun : (residencyOf p past pc).map Prod.fst = past')
    (hcell : cellOutcomes p (lastBits p.historySize) past pc = soloOutcomes n past') :
    twoBitPrediction p fsmState past pc = soloPrediction n fsmState past' pc := by
  subst hrun
  rw [twoBitPrediction, predictionOf, hcell]
  cases residencyOf p past pc with
  | nil => rfl
  | cons last run => exact if_congr decide_eq_true_iff rfl rfl

/-- An entry that no other branch uses. -/
theorem residencyOf_own (hown : ∀ b ∈ past, btbIndex p b.pc = btbIndex p pc → b.pc = pc) :
    residencyOf p past pc = (occurrences past).filter fun o => isAt pc o.1 := by
  have hfilter : ((occurrences past).filter fun o => btbIndex p o.1.pc = btbIndex p pc) =
      (occurrences past).filter fun o => isAt pc o.1 := by
    refine List.filter_congr fun o ho => decide_eq_decide.mpr ?_
    exact ⟨hown _ (mem_of_mem_occurrences ho).1, fun hpc => congrArg _ hpc⟩
  rw [residencyOf, residency, hfilter, List.takeWhile_eq_self_iff]
  intro o ho
  have hpc : o.1.pc = pc := of_decide_eq_true (List.mem_filter.mp ho).2
  exact decide_eq_true (congrArg _ hpc)

theorem map_fst_residencyOf_own
    (hown : ∀ b ∈ past, btbIndex p b.pc = btbIndex p pc → b.pc = pc) :
    (residencyOf p past pc).map Prod.fst = past.filter (isAt pc) := by
  have h := map_fst_occurrences (past.filter (isAt pc))
  rw [occurrences_filter, List.map_map] at h
  rw [residencyOf_own hown]
  exact h

theorem historyOf_own (hhist : p.isGlobalHist = false) (glob : List Bool → Nat)
    (hown : ∀ b ∈ past, btbIndex p b.pc = btbIndex p pc → b.pc = pc) :
    historyOf p glob past pc = soloHistory p.historySize (past.filter (isAt pc)) := by
  rw [historyOf, hhist, soloHistory, ← map_fst_residencyOf_own hown, List.map_map]
  rfl

/-- With a local history and a local table. -/
theorem twoBitPrediction_own (hhist : p.isGlobalHist = false) (htable : p.isGlobalTable = false)
    (fsmState : Nat) (hown : ∀ b ∈ past, btbIndex p b.pc = btbIndex p pc → b.pc = pc) :
    twoBitPrediction p fsmState past pc =
      soloPrediction p.historySize fsmState (past.filter (isAt pc)) pc := by
  refine twoBitPrediction_of_solo fsmState (map_fst_residencyOf_own hown) ?_
  rw [cellOutcomes, htable, if_neg Bool.false_ne_true, historyOf_own hhist _ hown,
    residencyOf_own hown, localOutcomes, soloOutcomes, occurrences_filter, List.filter_map,
    outcomes, outcomes, List.map_map]
  refine congrArg (List.map _) (List.filter_congr fun o ho => decide_eq_decide.mpr ?_)
  obtain ⟨hmem, hat⟩ := List.mem_filter.mp ho
  have hpc : o.1.pc = pc := of_decide_eq_true hat
  rw [hpc, historyOf_own hhist _ fun b hb => hown b ((mem_of_mem_occurrences hmem).2 hb)]

/-- In any mode, when there is no other branch. -/
theorem historyOf_alone (halone : ∀ b ∈ past, b.pc = pc) :
    historyOf p (lastBits p.historySize) past pc = soloHistory p.historySize past := by
  have hrun : (residencyOf p past pc).map Prod.fst = past := by
    rw [map_fst_residencyOf_own fun b hb _ => halone b hb, List.filter_eq_self]
    exact fun b hb => decide_eq_true (halone b hb)
  have hlocal : outcomes (residencyOf p past pc) = past.map Branch.taken := by
    rw [outcomes, ← congrArg (List.map Branch.taken) hrun, List.map_map]
    rfl
  rw [historyOf, hlocal, ite_self]
  rfl

theorem twoBitPrediction_alone (fsmState : Nat) (halone : ∀ b ∈ past, b.pc = pc) :
    twoBitPrediction p fsmState past pc = soloPrediction p.historySize fsmState past pc := by
  have hall : past.filter (isAt pc) = past :=
    List.filter_eq_self.mpr fun b hb => decide_eq_true (halone b hb)
  have hmem : ∀ {o : Occurrence}, o ∈ occurrences past → o.1.pc = pc ∧ ∀ b ∈ o.2, b.pc = pc :=
    fun ho => ⟨halone _ (mem_of_mem_occurrences ho).1,
      fun b hb => halone b ((mem_of_mem_occurrences ho).2 hb)⟩
  refine twoBitPrediction_of_solo fsmState
    ((map_fst_residencyOf_own fun b hb _ => halone b hb).trans hall) ?_
  rw [cellOutcomes, historyOf_alone halone, globalCell, historyOf_alone halone]
  split
  · -- The address adds the same bits to every history.
    refine congrArg outcomes (List.filter_congr fun o ho => decide_eq_decide.mpr ?_)
    obtain ⟨hpc, hpast⟩ := hmem ho
    rw [globalCell, hpc, historyOf_alone hpast]
    exact Nat.xor_left_inj
  · rw [residencyOf_own fun b hb _ => halone b hb, localOutcomes, List.filter_filter]
    refine congrArg outcomes (List.filter_congr fun o ho => ?_)
    obtain ⟨hpc, hpast⟩ := hmem ho
    rw [hpc, historyOf_alone hpast, isAt, decide_eq_true hpc, Bool.and_true]

/-- With local histories and tables a branch that has an entry to itself is
predicted as if the trace had no other branches, and then by any mode and any
buffer with histories of that size. -/
theorem predicted_alone (hp : p.Valid) (hhist : p.isGlobalHist = false)
    (htable : p.isGlobalTable = false) {p' : Params} (hp' : p'.Valid)
    (hsize : p'.historySize = p.historySize) {branches : List Branch} {pc : BitVec 32}
    (hown : ∀ b ∈ branches, btbIndex p b.pc = btbIndex p pc → b.pc = pc)
    {fsmState : BitVec 32} (hfsm : fsmState ≤ 3) {unset unset' : Unset}
    (hunset : p'.isGlobalHist = true → unset'.globalHistory = 0) :
    ∃ printed btb printed' btb', mainLoop (bpInit p fsmState unset) branches = .ok (printed, btb) ∧
      mainLoop (bpInit p' fsmState unset') (branches.filter (isAt pc)) = .ok (printed', btb') ∧
      ((branches.zip printed).filter fun step => isAt pc step.1).map Prod.snd = printed' := by
  have hlocal : p.isGlobalHist = true → unset.globalHistory = 0 := fun hg =>
    absurd (hhist.symm.trans hg) Bool.false_ne_true
  obtain ⟨btb, hrun⟩ := mainLoop_twoBit hp hfsm hlocal branches
  obtain ⟨btb', hrun'⟩ := mainLoop_twoBit hp' hfsm hunset (branches.filter (isAt pc))
  refine ⟨_, btb, _, btb', hrun, hrun', predictions_filter (isAt pc) fun o ho hat => ?_⟩
  rw [List.append_nil] at ho
  obtain ⟨-, hsub⟩ := mem_of_mem_occurrences ho
  have hpc : o.1.pc = pc := of_decide_eq_true hat
  have hown' : ∀ b ∈ o.2, btbIndex p b.pc = btbIndex p pc → b.pc = pc := fun b hb =>
    hown b (List.mem_reverse.mp (hsub hb))
  have halone : ∀ b ∈ o.2.filter (isAt pc), b.pc = pc := fun b hb =>
    of_decide_eq_true (List.mem_filter.mp hb).2
  rw [hpc, twoBitPrediction_own hhist htable _ hown', twoBitPrediction_alone _ halone, hsize]

def twoLocalEntries : Params := { twoEntries with isGlobalHist := false, isGlobalTable := false }

theorem twoLocalEntries_valid : twoLocalEntries.Valid :=
  ⟨by decide, by decide, by decide, by decide, by decide⟩

theorem predicted_alone_crossing :
    ∃ printed btb printed' btb', mainLoop (bpInit twoLocalEntries 1 staleUnset) crossing =
        .ok (printed, btb) ∧
      mainLoop (bpInit tinyParams 1 { staleUnset with globalHistory := 0 })
        (crossing.filter (isAt 0)) = .ok (printed', btb') ∧
      ((crossing.zip printed).filter fun step => isAt 0 step.1).map Prod.snd = printed' :=
  predicted_alone twoLocalEntries_valid rfl rfl tinyParams_valid rfl
    (fun _ hb => crossing_own (by decide) _ (List.mem_map_of_mem hb) 0 (List.mem_cons_self ..))
    (by decide) fun _ => rfl

end Bp

end ArchSim
