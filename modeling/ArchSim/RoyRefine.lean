import ArchSim.CacheRun
import ArchSim.RoyOrder

/-!
# The second cache simulator refines recency lists

The ranked ways of `cacheSimRoy.cpp` behave as the same hierarchy that
`cacheSim.cpp` refines, so the two programs agree on every trace. Only
the dirty flags of L2 differ: a block that a write brings in is dirty in
L2 from the start here. No search of the hierarchy reads them.
-/

namespace ArchSim

namespace RoySim

open CacheSim (Config Geometry Cache)

/-- A simulator state and the hierarchy's contents it stands for. -/
structure Refines {cfg : Config} (s : State cfg) (m : Contents Nat Nat Nat) : Prop where
  level1 : LevelRank cfg.geom1 s.L1 m.order₁ m.dirty₁
  level2 : ∃ dirty, LevelRank cfg.geom2 s.L2 m.order₂ dirty
  incl : Inclusive cfg.hierarchy m
  strayed : s.strayed = false

variable {cfg : Config}

/-! ## Counters -/

def State.counters (s : State cfg) : BitVec 32 × BitVec 32 × BitVec 32 × BitVec 32 × BitVec 32 :=
  (s.total, s.l1NumOfAccesses, s.l1miss, s.l2NumOfAccesses, s.l2miss)

/-- Between `s` and `s'` the counters went up by the outcomes `os`. -/
structure Counted (s s' : State cfg) (os : List Outcome) : Prop where
  total : s'.total = s.total + BitVec.ofNat 32 os.length
  l1Access : s'.l1NumOfAccesses = s.l1NumOfAccesses + BitVec.ofNat 32 os.length
  l1Miss : s'.l1miss = s.l1miss + BitVec.ofNat 32 (os.countP (· ≠ .l1Hit))
  l2Access : s'.l2NumOfAccesses = s.l2NumOfAccesses + BitVec.ofNat 32 (os.countP (· ≠ .l1Hit))
  l2Miss : s'.l2miss = s.l2miss + BitVec.ofNat 32 (os.countP (· = .miss))

theorem Counted.nil (s : State cfg) : Counted s s [] := by
  constructor <;> simp

theorem Counted.cons {s s' s'' : State cfg} {o : Outcome} {os : List Outcome}
    (h : Counted s s' [o]) (h' : Counted s' s'' os) : Counted s s'' (o :: os) := by
  obtain ⟨t, a1, m1, a2, m2⟩ := h
  obtain ⟨t', a1', m1', a2', m2'⟩ := h'
  have hcount : ∀ p : Outcome → Bool, (o :: os).countP p = [o].countP p + os.countP p :=
    fun p => show ([o] ++ os).countP p = _ from List.countP_append
  have hlen : (o :: os).length = [o].length + os.length :=
    show ([o] ++ os).length = _ from List.length_append
  constructor
  · rw [t', t, hlen, BitVec.ofNat_add, BitVec.add_assoc]
  · rw [a1', a1, hlen, BitVec.ofNat_add, BitVec.add_assoc]
  · rw [m1', m1, hcount, BitVec.ofNat_add, BitVec.add_assoc]
  · rw [a2', a2, hcount, BitVec.ofNat_add, BitVec.add_assoc]
  · rw [m2', m2, hcount, BitVec.ofNat_add, BitVec.add_assoc]

/-- The line counter, then counters for L1 and where it is asked for L2. -/
theorem counted_l1Hit {s s' : State cfg}
    (h : s'.counters = s.countLine.counters) :
    Counted s (s'.updateCacheCounters1 false) [.l1Hit] := by
  simp only [State.counters, Prod.mk.injEq] at h
  obtain ⟨t, a1, m1, a2, m2⟩ := h
  constructor <;> simp [State.updateCacheCounters1, State.countLine, t, a1, m1, a2, m2]

theorem counted_l2Hit {s s' : State cfg}
    (h : s'.counters = s.countLine.counters) :
    Counted s ((s'.updateCacheCounters1 true).updateCacheCounters2 false) [.l2Hit] := by
  simp only [State.counters, Prod.mk.injEq] at h
  obtain ⟨t, a1, m1, a2, m2⟩ := h
  constructor <;>
    simp [State.updateCacheCounters1, State.updateCacheCounters2, State.countLine, t, a1, m1, a2,
      m2]

theorem counted_miss {s s' : State cfg}
    (h : s'.counters = s.countLine.counters) :
    Counted s ((s'.updateCacheCounters1 true).updateCacheCounters2 true) [.miss] := by
  simp only [State.counters, Prod.mk.injEq] at h
  obtain ⟨t, a1, m1, a2, m2⟩ := h
  constructor <;>
    simp [State.updateCacheCounters1, State.updateCacheCounters2, State.countLine, t, a1, m1, a2,
      m2]

/-! ## Sets and tags -/

theorem l1Set_eq {a : Nat} (ha : a < uint32Size) :
    l1Set cfg a = cfg.geom1.setOf (cfg.block a) := by
  rw [l1Set, l1Levels_eq]
  exact (set_tag_eq cfg.geom1 ha).1

theorem l1Tag_eq {a : Nat} (ha : a < uint32Size) :
    l1Tag cfg a = cfg.block a / cfg.geom1.numOfSets := by
  rw [l1Tag, l1Levels_eq]
  exact (set_tag_eq cfg.geom1 ha).2

theorem l2Set_eq {a : Nat} (ha : a < uint32Size) :
    l2Set cfg a = cfg.geom2.setOf (cfg.block a) := by
  rw [l2Set, l2Levels_eq]
  exact (set_tag_eq cfg.geom2 ha).1

theorem l2Tag_eq {a : Nat} (ha : a < uint32Size) :
    l2Tag cfg a = cfg.block a / cfg.geom2.numOfSets := by
  rw [l2Tag, l2Levels_eq]
  exact (set_tag_eq cfg.geom2 ha).2

theorem assoc1_eq (cfg : Config) : assoc1 cfg = cfg.geom1.numOfWays := rfl

theorem assoc2_eq (cfg : Config) : assoc2 cfg = cfg.geom2.numOfWays := rfl

theorem block_lt {a : Nat} (ha : a < uint32Size) : cfg.block a < uint32Size := by
  rw [Config.block, Nat.shiftRight_eq_div_pow]
  exact Nat.lt_of_le_of_lt (Nat.div_le_self ..) ha

/-! ## One lemma for each operation -/

namespace Refines

variable {s : State cfg} {m : Contents Nat Nat Nat} {b : Nat}

theorem init (cfg : Config) (mem1 mem2 : Nat → Nat → Way) :
    Refines (State.init cfg mem1 mem2) Contents.empty :=
  ⟨LevelRank.init _ _ _, ⟨_, LevelRank.init _ _ fun _ => false⟩, Inclusive.empty _, rfl⟩

/-- The counters play no part. -/
theorem congr (h : Refines s m) (s' : State cfg) (h1 : s'.L1 = s.L1) (h2 : s'.L2 = s.L2)
    (hs : s'.strayed = s.strayed) : Refines s' m :=
  ⟨h1 ▸ h.level1, h2 ▸ h.level2, h.incl, hs ▸ h.strayed⟩

theorem searchL1_none (h : Refines s m) (hb : ¬Resident cfg.geom1.setOf m.order₁ b) :
    searchCache (s.L1 (cfg.geom1.setOf b)) (assoc1 cfg) (b / cfg.geom1.numOfSets) = none :=
  h.level1.searchCache_eq_none hb

theorem searchL2_none (h : Refines s m) (hb : ¬Resident cfg.geom2.setOf m.order₂ b) :
    searchCache (s.L2 (cfg.geom2.setOf b)) (assoc2 cfg) (b / cfg.geom2.numOfSets) = none := by
  obtain ⟨d, h2⟩ := h.level2
  exact h2.searchCache_eq_none hb

theorem useL1 (h : Refines s m) (hb : Resident cfg.geom1.setOf m.order₁ b) (op : Op) :
    ∃ i, searchCache (s.L1 (cfg.geom1.setOf b)) (assoc1 cfg) (b / cfg.geom1.numOfSets) = some i ∧
      Refines (s.useL1 (cfg.geom1.setOf b) i op) (m.hit₁ cfg.hierarchy op b) := by
  obtain ⟨i, hfind, hway⟩ := h.level1.searchCache_eq_some h.incl.lists₁ hb
  refine ⟨i, hfind, ?_, h.level2, h.incl.hit₁ op hb, h.strayed⟩
  cases op with
  | read => exact h.level1.use h.incl.lists₁ hway
  | write => exact h.level1.useDirty h.incl.lists₁ hway

/-- A use of a way of L2, also one that marks it. -/
theorem useL2 (h : Refines s m) (hb : Resident cfg.geom2.setOf m.order₂ b) :
    ∃ i, searchCache (s.L2 (cfg.geom2.setOf b)) (assoc2 cfg) (b / cfg.geom2.numOfSets) = some i ∧
      Refines (s.useL2 (cfg.geom2.setOf b) i false) (m.use₂ cfg.hierarchy b) ∧
      Refines (s.useL2 (cfg.geom2.setOf b) i true) (m.writeBack cfg.hierarchy b) := by
  obtain ⟨d, h2⟩ := h.level2
  obtain ⟨i, hfind, hway⟩ := h2.searchCache_eq_some h.incl.lists₂ hb
  exact ⟨i, hfind,
    ⟨h.level1, ⟨_, h2.use h.incl.lists₂ hway⟩, h.incl.use₂ hb, h.strayed⟩,
    ⟨h.level1, ⟨_, h2.useDirty h.incl.lists₂ hway⟩, h.incl.writeBack hb, h.strayed⟩⟩

/-- A dirty line of L1 is found in L2 and marked there. -/
theorem saveLine (h : Refines s m) (hlt : b < uint32Size)
    (hb : Resident cfg.geom2.setOf m.order₂ b) :
    Refines (s.saveLine (cfg.geom1.setOf b) (b / cfg.geom1.numOfSets))
      (m.writeBack cfg.hierarchy b) := by
  have hb' : b / cfg.geom1.numOfSets * cfg.geom1.numOfSets + cfg.geom1.setOf b = b :=
    Nat.div_add_mod' b _
  have hline := fullLine_eq cfg.geom1 (show _ + cfg.geom1.setOf b < _ by rw [hb']; exact hlt)
  obtain ⟨d, h2⟩ := h.level2
  obtain ⟨i, hfind, hway⟩ := h2.searchCache_eq_some h.incl.lists₂ hb
  rw [State.saveLine, l1Levels_eq, l2Levels_eq, hline, hb', (line_set_tag cfg.geom2 b).1,
    (line_set_tag cfg.geom2 b).2, assoc2_eq, hfind]
  exact ⟨h.level1, ⟨_, h2.dirtyUse h.incl.lists₂ hway⟩, h.incl.writeBack hb, h.strayed⟩

theorem saveLine_counters (s : State cfg) (set tag : Nat) :
    (s.saveLine set tag).counters = s.counters ∧ (s.saveLine set tag).L1 = s.L1 := by
  unfold State.saveLine
  dsimp only
  split <;> exact ⟨rfl, rfl⟩

/-- Filling a victim of L1 once its line is saved. -/
theorem fillL1 {i : Nat} {op : Op} (h : Refines s (m.evict₁ cfg.hierarchy b))
    (hvict : LevelRank.VictimOf cfg.geom1 s.L1 m.order₁ m.dirty₁ b i) (hlt : b < uint32Size)
    (hb₁ : ¬Resident cfg.geom1.setOf m.order₁ b)
    (hincl : Inclusive cfg.hierarchy (m.insert₁ cfg.hierarchy b (op == .write))) :
    Refines (s.setL1 (cfg.geom1.setOf b) (insertToSlot (s.L1 (cfg.geom1.setOf b))
      (b / cfg.geom1.numOfSets) i op (assoc1 cfg)))
      (m.insert₁ cfg.hierarchy b (op == .write)) := by
  have h1 := h.level1
  have hl1 := h.incl.lists₁
  rw [Inclusive.evict₁_order₁] at h1 hl1
  rw [Inclusive.evict₁_dirty₁] at h1
  refine ⟨?_, h.level2, hincl, h.strayed⟩
  simp only [Contents.insert₁, Inclusive.evict₁_order₁, Inclusive.evict₁_dirty₁]
  exact h1.insert hl1 hvict hlt hb₁ op

theorem insertToL1 (h : Refines s m) (hlt : b < uint32Size)
    (hb₁ : ¬Resident cfg.geom1.setOf m.order₁ b) (hb₂ : Resident cfg.geom2.setOf m.order₂ b)
    (op : Op) :
    ∃ s', s.insertToL1 (cfg.geom1.setOf b) (b / cfg.geom1.numOfSets) op = .ok s' ∧
      s'.counters = s.counters ∧
      Refines s' (m.insert₁ cfg.hierarchy b (op == .write)) := by
  have hincl := h.incl.insert₁ hb₁ hb₂ (op == .write)
  rcases h.level1.victim b with
    ⟨i, hempty, hvict, hev⟩ | ⟨hempty, i, v, hget, hvict, hline, hev⟩ <;>
    change evictee? cfg.hierarchy.ways₁ (m.order₁ (cfg.hierarchy.set₁ b)) = _ at hev
  · -- An empty slot: nothing is evicted.
    have h' : Refines s (m.evict₁ cfg.hierarchy b) := by
      rw [Contents.evict₁, hev]
      exact h
    refine ⟨_, ?_, ?_, h'.fillL1 hvict hlt hb₁ hincl⟩
    · simp only [State.insertToL1, assoc1_eq, hempty]
    · rfl
  · -- `getLRU` returns the way of the evictee, which is saved if it is dirty.
    by_cases hd : (s.L1 (cfg.geom1.setOf b) i).dirty = true
    · have hsave := h.saveLine hline.line_lt (h.incl.resident₂_of_evictee hev)
      rw [hline.set_eq, ← hline.tag_eq] at hsave
      obtain ⟨hcount, hL1⟩ := saveLine_counters s (cfg.geom1.setOf b)
        (s.L1 (cfg.geom1.setOf b) i).tag
      have h' : Refines (s.saveLine (cfg.geom1.setOf b) (s.L1 (cfg.geom1.setOf b) i).tag)
          (m.evict₁ cfg.hierarchy b) := by
        simp only [Contents.evict₁, hev, hline.dirty_eq ▸ hd, if_true]
        exact hsave
      refine ⟨_, ?_, ?_, h'.fillL1 (hL1.symm ▸ hvict) hlt hb₁ hincl⟩
      · simp only [State.insertToL1, assoc1_eq, hempty, hget, hd, if_true]
      · exact hcount
    · have h' : Refines s (m.evict₁ cfg.hierarchy b) := by
        simp only [Contents.evict₁, hev, hline.dirty_eq ▸ hd, Bool.false_eq_true, if_false]
        exact h
      refine ⟨_, ?_, ?_, h'.fillL1 hvict hlt hb₁ hincl⟩
      · simp only [State.insertToL1, assoc1_eq, hempty, hget, hd, Bool.false_eq_true, if_false]
      · rfl

/-- The line of a block that L2 gives up leaves L1. -/
theorem dropLine (h : Refines s m) {v : Nat} (hlt : v < uint32Size)
    (hev : evictee? cfg.hierarchy.ways₂ (m.order₂ (cfg.hierarchy.set₂ b)) = some v) :
    Refines (s.dropLine (cfg.geom2.setOf v) (v / cfg.geom2.numOfSets))
      (m.evict₂ cfg.hierarchy b) := by
  have hv : v / cfg.geom2.numOfSets * cfg.geom2.numOfSets + cfg.geom2.setOf v = v :=
    Nat.div_add_mod' v _
  have hline := fullLine_eq cfg.geom2 (show _ + cfg.geom2.setOf v < _ by rw [hv]; exact hlt)
  have hincl := h.incl.evict₂ b
  rw [Contents.evict₂, hev] at hincl ⊢
  rw [State.dropLine, l2Levels_eq, l1Levels_eq, hline, hv, (line_set_tag cfg.geom1 v).1,
    (line_set_tag cfg.geom1 v).2, assoc1_eq]
  by_cases hres : Resident cfg.geom1.setOf m.order₁ v
  · obtain ⟨i, hfind, hway⟩ := h.level1.searchCache_eq_some h.incl.lists₁ hres
    rw [hfind]
    exact ⟨h.level1.evac h.incl.lists₁ hway, h.level2, hincl, h.strayed⟩
  · rw [h.level1.searchCache_eq_none hres]
    have hsame : removeIn cfg.hierarchy.set₁ v m.order₁ = m.order₁ :=
      removeIn_of_not_resident hres
    refine ⟨?_, h.level2, hincl, h.strayed⟩
    dsimp only
    rw [hsame]
    exact h.level1

theorem dropLine_counters (s : State cfg) (set tag : Nat) :
    (s.dropLine set tag).counters = s.counters ∧ (s.dropLine set tag).L2 = s.L2 := by
  unfold State.dropLine
  dsimp only
  split <;> exact ⟨rfl, rfl⟩

theorem fillL2 {i : Nat} {dirty : Nat → Bool} (op : Op) (h : Refines s (m.evict₂ cfg.hierarchy b))
    (h2 : LevelRank cfg.geom2 s.L2 m.order₂ dirty)
    (hvict : LevelRank.VictimOf cfg.geom2 s.L2 m.order₂ dirty b i) (hlt : b < uint32Size)
    (hb₂ : ¬Resident cfg.geom2.setOf m.order₂ b)
    (hincl : Inclusive cfg.hierarchy (m.insert₂ cfg.hierarchy b)) :
    Refines (s.setL2 (cfg.geom2.setOf b) (insertToSlot (s.L2 (cfg.geom2.setOf b))
      (b / cfg.geom2.numOfSets) i op (assoc2 cfg)))
      (m.insert₂ cfg.hierarchy b) := by
  have hl2 := h.incl.lists₂
  rw [Inclusive.evict₂_order₂] at hl2
  have hfill := h2.insert hl2 hvict hlt hb₂ op
  refine ⟨h.level1, ⟨Function.update dirty b (op == .write), ?_⟩, hincl, h.strayed⟩
  simp only [Contents.insert₂, Inclusive.evict₂_order₂]
  exact hfill

theorem insertToL2 (h : Refines s m) (hlt : b < uint32Size)
    (hb₂ : ¬Resident cfg.geom2.setOf m.order₂ b) (op : Op) :
    ∃ s', s.insertToL2 (cfg.geom2.setOf b) (b / cfg.geom2.numOfSets) op = .ok s' ∧
      s'.counters = s.counters ∧ Refines s' (m.insert₂ cfg.hierarchy b) := by
  have hincl := h.incl.insert₂ hb₂
  obtain ⟨d, h2⟩ := h.level2
  rcases h2.victim b with
    ⟨i, hempty, hvict, hev⟩ | ⟨hempty, i, v, hget, hvict, hline, hev⟩ <;>
    change evictee? cfg.hierarchy.ways₂ (m.order₂ (cfg.hierarchy.set₂ b)) = _ at hev
  · have h' : Refines s (m.evict₂ cfg.hierarchy b) := by
      rw [Contents.evict₂, hev]
      exact h
    refine ⟨_, ?_, ?_, h'.fillL2 op h2 hvict hlt hb₂ hincl⟩
    · simp only [State.insertToL2, assoc2_eq, hempty]
    · rfl
  · have h' := h.dropLine hline.line_lt hev
    rw [hline.set_eq, ← hline.tag_eq] at h'
    obtain ⟨hcount, hL2⟩ := dropLine_counters s (cfg.geom2.setOf b)
      (s.L2 (cfg.geom2.setOf b) i).tag
    refine ⟨_, ?_, ?_, h'.fillL2 op (hL2.symm ▸ h2) (hL2.symm ▸ hvict) hlt hb₂ hincl⟩
    · simp only [State.insertToL2, assoc2_eq, hempty, hget]
    · exact hcount

/-! ## Accesses -/

theorem countLine (h : Refines s m) : Refines s.countLine m := h.congr _ rfl rfl rfl

variable {a : Nat}

theorem outcome_eq (h : Refines s m) (ha : a < uint32Size) :
    s.outcome a = m.lookup cfg.hierarchy (cfg.block a) := by
  unfold State.outcome Contents.lookup
  rw [l1Set_eq ha, l1Tag_eq ha, l2Set_eq ha, l2Tag_eq ha]
  by_cases hb₁ : Resident cfg.hierarchy.set₁ m.order₁ (cfg.block a)
  · obtain ⟨i, hi, -⟩ := h.useL1 hb₁ .read
    rw [hi, if_pos hb₁]
  · rw [h.searchL1_none hb₁, if_neg hb₁]
    by_cases hb₂ : Resident cfg.hierarchy.set₂ m.order₂ (cfg.block a)
    · obtain ⟨i, hi, -⟩ := h.useL2 hb₂
      rw [hi, if_pos hb₂]
    · rw [h.searchL2_none hb₂, if_neg hb₂]

theorem access_l1Hit (h : Refines s m) (ha : a < uint32Size) (op : Op)
    (hb₁ : Resident cfg.geom1.setOf m.order₁ (cfg.block a)) :
    ∃ s', s.access (op, a) = .ok s' ∧ Counted s s' [.l1Hit] ∧
      Refines s' (m.hit₁ cfg.hierarchy op (cfg.block a)) := by
  obtain ⟨i, hi, h'⟩ := h.countLine.useL1 hb₁ op
  refine ⟨(s.countLine.useL1 _ i op).updateCacheCounters1 false, ?_, counted_l1Hit rfl,
    h'.congr _ rfl rfl rfl⟩
  cases op <;> simp only [State.access, State.read, State.write, l1Set_eq ha, l1Tag_eq ha, hi]

theorem access_l2Hit (h : Refines s m) (ha : a < uint32Size) (op : Op)
    (hb₁ : ¬Resident cfg.geom1.setOf m.order₁ (cfg.block a))
    (hb₂ : Resident cfg.geom2.setOf m.order₂ (cfg.block a)) :
    ∃ s', s.access (op, a) = .ok s' ∧ Counted s s' [.l2Hit] ∧
      Refines s' (m.hit₂ cfg.hierarchy op (cfg.block a)) := by
  have h₀ := h.countLine
  have hnone := h₀.searchL1_none hb₁
  obtain ⟨i, hi, huse, hwrite⟩ := h₀.useL2 hb₂
  obtain ⟨s', hins, hcount, h'⟩ := huse.insertToL1 (block_lt ha) hb₁
    ((resident_useIn hb₂).mpr hb₂) op
  have hcounted := counted_l2Hit (s := s) (hcount.trans rfl)
  have hfinal := h'.congr
    ((s'.updateCacheCounters1 true).updateCacheCounters2 false) rfl rfl rfl
  cases op with
  | read =>
      refine ⟨_, ?_, hcounted, hfinal⟩
      simp only [State.access, State.read, l1Set_eq ha, l1Tag_eq ha, l2Set_eq ha, l2Tag_eq ha,
        hnone, hi, hins, bind, Except.bind, pure, Except.pure]
  | write =>
      cases hpol : cfg.wrAlloc with
      | writeAllocate =>
          have hf : Contents.fetches cfg.hierarchy .write = true := by
            simp [Contents.fetches, Config.hierarchy, hpol]
          rw [Contents.hit₂, if_pos hf]
          refine ⟨_, ?_, hcounted, hfinal⟩
          simp only [State.access, State.write, l1Set_eq ha, l1Tag_eq ha, l2Set_eq ha, l2Tag_eq ha,
            hnone, hi, hpol, hins, bind, Except.bind, pure, Except.pure]
      | noWriteAllocate =>
          have hf : Contents.fetches cfg.hierarchy .write = false := by
            simp [Contents.fetches, Config.hierarchy, hpol]
          rw [Contents.hit₂, hf]
          refine ⟨((s.countLine.useL2 _ i true).updateCacheCounters1 true).updateCacheCounters2
            false, ?_, counted_l2Hit rfl, hwrite.congr _ rfl rfl rfl⟩
          simp only [State.access, State.write, l1Set_eq ha, l1Tag_eq ha, l2Set_eq ha, l2Tag_eq ha,
            hnone, hi, hpol]

theorem access_miss (h : Refines s m) (ha : a < uint32Size) (op : Op)
    (hb₁ : ¬Resident cfg.geom1.setOf m.order₁ (cfg.block a))
    (hb₂ : ¬Resident cfg.geom2.setOf m.order₂ (cfg.block a)) :
    ∃ s', s.access (op, a) = .ok s' ∧ Counted s s' [.miss] ∧
      Refines s' (m.miss cfg.hierarchy op (cfg.block a)) := by
  have h₀ := h.countLine
  have hnone₁ := h₀.searchL1_none hb₁
  have hnone₂ := h₀.searchL2_none hb₂
  obtain ⟨s₁, hins₁, hcount₁, h₁⟩ := h₀.insertToL2 (block_lt ha) hb₂ op
  obtain ⟨s', hins, hcount, h'⟩ := h₁.insertToL1 (block_lt ha)
    (fun hb => hb₁ (h.incl.evict₂_resident₁.mp hb).1) (h.incl.insert₂_resident₂ _) op
  have hcounted := counted_miss (s := s) (hcount.trans hcount₁)
  have hfinal := h'.congr
    ((s'.updateCacheCounters1 true).updateCacheCounters2 true) rfl rfl rfl
  cases op with
  | read =>
      refine ⟨_, ?_, hcounted, hfinal⟩
      simp only [State.access, State.read, l1Set_eq ha, l1Tag_eq ha, l2Set_eq ha, l2Tag_eq ha,
        hnone₁, hnone₂, hins₁, hins, bind, Except.bind, pure, Except.pure]
  | write =>
      cases hpol : cfg.wrAlloc with
      | writeAllocate =>
          have hf : Contents.fetches cfg.hierarchy .write = true := by
            simp [Contents.fetches, Config.hierarchy, hpol]
          rw [Contents.miss, if_pos hf]
          refine ⟨_, ?_, hcounted, hfinal⟩
          simp only [State.access, State.write, l1Set_eq ha, l1Tag_eq ha, l2Set_eq ha, l2Tag_eq ha,
            hnone₁, hnone₂, hpol, hins₁, hins, bind, Except.bind, pure, Except.pure]
      | noWriteAllocate =>
          have hf : Contents.fetches cfg.hierarchy .write = false := by
            simp [Contents.fetches, Config.hierarchy, hpol]
          rw [Contents.miss, hf]
          refine ⟨(s.countLine.updateCacheCounters1 true).updateCacheCounters2 true, ?_,
            counted_miss rfl, h₀.congr _ rfl rfl rfl⟩
          simp only [State.access, State.write, l1Set_eq ha, l1Tag_eq ha, l2Set_eq ha, l2Tag_eq ha,
            hnone₁, hnone₂, hpol]

/-- Every access does to the simulator what it does to the hierarchy. -/
theorem access (h : Refines s m) (ha : a < uint32Size) (op : Op) :
    ∃ s', s.access (op, a) = .ok s' ∧ Counted s s' [s.outcome a] ∧
      Refines s' (m.access cfg.hierarchy op (cfg.block a)) := by
  rw [h.outcome_eq ha]
  unfold Contents.access Contents.lookup
  by_cases hb₁ : Resident cfg.hierarchy.set₁ m.order₁ (cfg.block a)
  · simpa only [if_pos hb₁] using h.access_l1Hit ha op hb₁
  · by_cases hb₂ : Resident cfg.hierarchy.set₂ m.order₂ (cfg.block a)
    · simpa only [if_neg hb₁, if_pos hb₂] using h.access_l2Hit ha op hb₁ hb₂
    · simpa only [if_neg hb₁, if_neg hb₂] using h.access_miss ha op hb₁ hb₂

/-- A run of the simulator is a run of the hierarchy. -/
theorem run :
    ∀ (trace : List (Op × Nat)) {s : State cfg} {m : Contents Nat Nat Nat}, Refines s m →
      (∀ a ∈ trace, a.2 < uint32Size) →
      ∃ s', s.run trace = .ok ((m.run cfg.hierarchy (cfg.blocks trace)).1, s') ∧
        Counted s s' (m.run cfg.hierarchy (cfg.blocks trace)).1 ∧
        Refines s' (m.run cfg.hierarchy (cfg.blocks trace)).2
  | [], s, m, h, _ => ⟨s, rfl, Counted.nil s, h⟩
  | a :: rest, s, m, h, haddr => by
      have ha := haddr a (List.mem_cons_self ..)
      obtain ⟨s₁, hacc, hcnt₁, h₁⟩ := h.access ha a.1
      obtain ⟨s', hrun, hcnt, h'⟩ := run rest h₁ fun b hb => haddr b (List.mem_cons_of_mem _ hb)
      rw [h.outcome_eq ha] at hcnt₁
      refine ⟨s', ?_, hcnt₁.cons hcnt, h'⟩
      simp only [State.run, hacc, hrun, bind, Except.bind, pure, Except.pure, h.outcome_eq ha]
      rfl

end Refines

/-! ## Agreement -/

/-- The hits and misses of a trace add up. -/
theorem outcome_counts : ∀ os : List Outcome,
    os.length = os.countP (· = .l1Hit) + os.countP (· = .l2Hit) + os.countP (· = .miss) ∧
      os.countP (· ≠ .l1Hit) = os.countP (· = .l2Hit) + os.countP (· = .miss)
  | [] => ⟨rfl, rfl⟩
  | o :: os => by
      obtain ⟨hlen, hmiss⟩ := outcome_counts os
      cases o <;> simp [hlen] at hmiss ⊢ <;> omega

theorem time_eq (cfg : Config) : ∀ os : List Outcome,
    (os.map cfg.time).sum = os.countP (· = .l1Hit) * cfg.l1Cyc +
      os.countP (· = .l2Hit) * (cfg.l1Cyc + cfg.l2Cyc) +
      os.countP (· = .miss) * (cfg.l1Cyc + cfg.l2Cyc + cfg.memCyc)
  | [] => by simp
  | o :: os => by
      rw [List.map_cons, List.sum_cons, time_eq cfg os]
      cases o <;> simp [Config.time] <;> ring

/-- The `unsigned` formulas at the end of `main` give the access time. -/
theorem totalTime_eq {s s' : State cfg} {os : List Outcome} (h : Counted s s' os)
    (htotal : s.total = 0#32) (h1 : s.l1miss = 0#32) (h2 : s.l2miss = 0#32) :
    s'.totalTime = BitVec.ofNat 32 (os.map cfg.time).sum := by
  obtain ⟨hlen, hmiss⟩ := outcome_counts os
  have hl1Hit : s'.total - s'.l1miss = BitVec.ofNat 32 (os.countP (· = .l1Hit)) := by
    rw [h.total, h.l1Miss, htotal, h1, hlen, hmiss, Nat.add_assoc, BitVec.ofNat_add,
      BitVec.zero_add, BitVec.zero_add, BitVec.add_sub_cancel]
  have hl2Hit : s'.total - s'.l2miss - BitVec.ofNat 32 (os.countP (· = .l1Hit)) =
      BitVec.ofNat 32 (os.countP (· = .l2Hit)) := by
    rw [h.total, h.l2Miss, htotal, h2, hlen, BitVec.ofNat_add, BitVec.zero_add, BitVec.zero_add,
      BitVec.add_sub_cancel, Nat.add_comm, BitVec.ofNat_add, BitVec.add_sub_cancel]
  rw [State.totalTime, hl1Hit, hl2Hit, h.l2Miss, h2, BitVec.zero_add, time_eq]
  simp only [BitVec.ofNat_add, BitVec.ofNat_mul]

theorem toInt_count {x : BitVec 32} {k n : Nat} (hx : x = 0#32 + BitVec.ofNat 32 k) (hk : k ≤ n)
    (hn : n < 2 ^ 31) : x.toInt = k := by
  have hnat : (BitVec.ofNat 32 k).toNat = k := by
    rw [BitVec.toNat_ofNat]
    omega
  rw [hx, BitVec.zero_add, BitVec.toInt_eq_toNat_of_lt (by rw [hnat]; omega), hnat]

/-- The two simulators agree: from whatever the uninitialised ways hold,
both finish with the same outcomes, counters and access time, and the
ranked one on the way neither dereferences `NULL` nor strays into the
branch for a dirty block missing from L2. -/
theorem simulators_agree (cfg : Config) (mem1 mem2 : Nat → Nat → Way) (trace : List (Op × Nat))
    (haddr : ∀ a ∈ trace, a.2 < 2 ^ 32) (hlen : trace.length < 2 ^ 31)
    (hcycle : (Cache.new cfg).StaysBelow (2 ^ 32 - 1) trace)
    (htime : ∀ r, (Cache.new cfg).run trace = .ok r → r.2.tAccessTotal < 2 ^ 32) :
    ∃ os c s, (Cache.new cfg).run trace = .ok (os, c) ∧
      (State.init cfg mem1 mem2).run trace = .ok (os, s) ∧ s.strayed = false ∧
      s.l1NumOfAccesses.toInt = c.L1.accessCount ∧ s.l1miss.toInt = c.L1.missCount ∧
      s.l2NumOfAccesses.toInt = c.L2.accessCount ∧ s.l2miss.toInt = c.L2.missCount ∧
      s.totalTime.toNat = c.tAccessTotal := by
  obtain ⟨c, hrun, hcnt, -⟩ := (CacheSim.Refines.new cfg).run trace haddr hcycle
  obtain ⟨s, hrun', hcnt', href⟩ := (Refines.init cfg mem1 mem2).run trace haddr
  have htot := htime _ hrun
  have hos : ((Contents.empty : Contents Nat Nat Nat).run cfg.hierarchy
      (cfg.blocks trace)).1.length = trace.length := by
    rw [Contents.length_run, Config.blocks, List.length_map]
  generalize ((Contents.empty : Contents Nat Nat Nat).run cfg.hierarchy
    (cfg.blocks trace)).1 = os at hrun hcnt hrun' hcnt' hos
  have hle : ∀ p : Outcome → Bool, os.countP p ≤ trace.length := fun p =>
    hos ▸ List.countP_le_length
  refine ⟨os, c, s, hrun, hrun', href.strayed, ?_, ?_, ?_, ?_, ?_⟩
  · rw [toInt_count hcnt'.l1Access (Nat.le_of_eq hos) hlen, hcnt.l1Access]
    exact congrArg Nat.cast (Nat.zero_add _).symm
  · rw [toInt_count hcnt'.l1Miss (hle _) hlen, hcnt.l1Miss]
    exact congrArg Nat.cast (Nat.zero_add _).symm
  · rw [toInt_count hcnt'.l2Access (hle _) hlen, hcnt.l2Access]
    exact congrArg Nat.cast (Nat.zero_add _).symm
  · rw [toInt_count hcnt'.l2Miss (hle _) hlen, hcnt.l2Miss]
    exact congrArg Nat.cast (Nat.zero_add _).symm
  · have hsum : c.tAccessTotal = (os.map cfg.time).sum := hcnt.time.trans (Nat.zero_add _)
    rw [totalTime_eq hcnt' rfl rfl rfl, BitVec.toNat_ofNat, ← hsum]
    exact Nat.mod_eq_of_lt htot

/-- Memory left over from before. -/
def staleWays : Nat → Nat → Way := fun _ i => ⟨7, true, true, i⟩

theorem simulators_agree_smallTrace :
    ∃ s, (State.init CacheSim.smallConfig staleWays staleWays).run CacheSim.smallTrace =
        .ok ([.miss, .miss, .l2Hit, .miss, .l2Hit], s) ∧ s.totalTime.toNat = 355 := by
  have hrun : ((Cache.new CacheSim.smallConfig).run CacheSim.smallTrace).map
      (fun r => (r.1, r.2.tAccessTotal)) = .ok ([.miss, .miss, .l2Hit, .miss, .l2Hit], 355) := rfl
  obtain ⟨os, c, s, hc, hs, -, -, -, -, -, htime⟩ :=
    simulators_agree CacheSim.smallConfig staleWays staleWays CacheSim.smallTrace
      CacheSim.smallTrace_lt (by decide) CacheSim.smallTrace_staysBelow fun r hr => by
        rw [hr] at hrun
        injection hrun with hrun
        rw [(Prod.mk.inj hrun).2]
        decide
  rw [hc] at hrun
  injection hrun with hrun
  obtain ⟨rfl, hc'⟩ := Prod.mk.inj hrun
  exact ⟨s, hs, htime.trans hc'⟩

end RoySim

end ArchSim
