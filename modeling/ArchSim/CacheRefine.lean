import ArchSim.CacheOrder

/-!
# The cache simulator refines recency lists

The time-stamped way arrays of `cacheSim.cpp` behave as the inclusive
two-level LRU hierarchy of `ArchSim.Hierarchy` over block numbers:
`Refines` ties a simulator state to the hierarchy's contents, every
operation keeps it (one lemma for each function of the source), and a
run from the empty cache therefore never faults, finds its blocks where
the hierarchy finds them, and ends with the same contents.

All of this holds as long as `pseudo_cycle` does not reach the bound
`__UINT32_MAX__` of the victim search, where stamps stop being ordered.
-/

namespace ArchSim

namespace CacheSim

/-- The hierarchy that a configuration describes, over block numbers. -/
def Config.hierarchy (cfg : Config) : Hierarchy Nat Nat Nat where
  set₁ := cfg.geom1.setOf
  set₂ := cfg.geom2.setOf
  ways₁ := cfg.geom1.numOfWays
  ways₂ := cfg.geom2.numOfWays
  ways₁_pos := cfg.geom1.numOfWays_pos
  ways₂_pos := cfg.geom2.numOfWays_pos
  writeAllocate := cfg.wrAlloc == .writeAllocate

/-- A simulator state and the hierarchy's contents it stands for. -/
structure Refines {cfg : Config} (c : Cache cfg) (m : Contents Nat Nat Nat) : Prop where
  level1 : LevelOrder c.L1 c.pseudoCycle m.order₁ m.dirty₁
  level2 : LevelOrder c.L2 c.pseudoCycle m.order₂ m.dirty₂
  incl : Inclusive cfg.hierarchy m

/-- In addition `p` is the L1 entry of the block of `a`. -/
structure RefinesAt {cfg : Config} (c : Cache cfg) (m : Contents Nat Nat Nat) (a : Nat)
    (p : Slot) : Prop extends Refines c m where
  entryOf : LevelOrder.EntryOf c.L1 c.pseudoCycle m.order₁ m.dirty₁ a p

/-! ## Counters -/

/-- The access time charged for an outcome. -/
def Config.time (cfg : Config) : Outcome → Nat
  | .l1Hit => cfg.l1Cyc
  | .l2Hit => cfg.l1Cyc + cfg.l2Cyc
  | .miss => cfg.l1Cyc + cfg.l2Cyc + cfg.memCyc

/-- Between `c` and `c'` the counters went up by the outcomes `os`. -/
structure Counted {cfg : Config} (c c' : Cache cfg) (os : List Outcome) : Prop where
  time : c'.tAccessTotal = c.tAccessTotal + (os.map cfg.time).sum
  l1Access : c'.L1.accessCount = c.L1.accessCount + os.length
  l1Miss : c'.L1.missCount = c.L1.missCount + os.countP (· ≠ .l1Hit)
  l2Access : c'.L2.accessCount = c.L2.accessCount + os.countP (· ≠ .l1Hit)
  l2Miss : c'.L2.missCount = c.L2.missCount + os.countP (· = .miss)

variable {cfg : Config}

theorem Counted.cons {c c' c'' : Cache cfg} {o : Outcome} {os : List Outcome}
    (h : Counted c c' [o]) (h' : Counted c' c'' os) : Counted c c'' (o :: os) := by
  obtain ⟨t, a1, m1, a2, m2⟩ := h
  obtain ⟨t', a1', m1', a2', m2'⟩ := h'
  constructor <;>
    simp only [List.map_cons, List.map_nil, List.sum_cons, List.sum_nil, List.length_cons,
      List.length_nil, List.countP_cons, List.countP_nil] at * <;> omega

theorem Counted.trans_nil {c c' c'' : Cache cfg} {os : List Outcome}
    (h : Counted c c' os) (h' : Counted c' c'' []) : Counted c c'' os := by
  obtain ⟨t, a1, m1, a2, m2⟩ := h
  obtain ⟨t', a1', m1', a2', m2'⟩ := h'
  constructor <;>
    simp only [List.map_nil, List.sum_nil, List.length_nil, List.countP_nil] at * <;> omega

theorem counted_l1Hit (c : Cache cfg) : Counted c c.countL1 [.l1Hit] := by
  constructor <;> simp [Cache.countL1, Config.time]

theorem counted_l2Hit (c : Cache cfg) : Counted c c.countL1.countL2 [.l2Hit] := by
  constructor <;> simp [Cache.countL1, Cache.countL2, Config.time, Nat.add_assoc]

theorem counted_miss (c : Cache cfg) : Counted c c.countL1.countL2.countMemory [.miss] := by
  constructor <;>
    simp [Cache.countL1, Cache.countL2, Cache.countMemory, Config.time, Nat.add_assoc]

/-! Dropping the L2 victim from L1 touches neither L2 nor any counter. -/

@[simp] theorem Cache.dropL2Victim_L2 (c : Cache cfg) (p : Slot) :
    (c.dropL2Victim p).L2 = c.L2 := by
  unfold Cache.dropL2Victim
  split
  · split <;> rfl
  · rfl

@[simp] theorem Cache.dropL2Victim_pseudoCycle (c : Cache cfg) (p : Slot) :
    (c.dropL2Victim p).pseudoCycle = c.pseudoCycle := by
  unfold Cache.dropL2Victim
  split
  · split <;> rfl
  · rfl

theorem Cache.counted_dropL2Victim (c : Cache cfg) (p : Slot) :
    Counted c (c.dropL2Victim p) [] := by
  unfold Cache.dropL2Victim
  split
  · split <;> constructor <;> rfl
  · constructor <;> rfl

/-! ## One lemma for each operation

A bound on `c.pseudoCycle` before an operation is what its victim
searches need; the same after it is what makes the stamps it has set
the true times. -/

theorem Cache.stamp_eq {c : Cache cfg} (h : c.pseudoCycle ≤ uint32Max) :
    c.stamp = c.pseudoCycle :=
  Nat.mod_eq_of_lt (Nat.lt_of_le_of_lt h (by decide))

namespace Refines

variable {c : Cache cfg} {m : Contents Nat Nat Nat} {a : Nat} {p : Slot}

theorem new (cfg : Config) : Refines (Cache.new cfg) Contents.empty :=
  ⟨LevelOrder.new _ _ _, LevelOrder.new _ _ _, Inclusive.empty _⟩

theorem countL1 (h : Refines c m) : Refines c.countL1 m := ⟨h.level1, h.level2, h.incl⟩

theorem countL2 (h : Refines c m) : Refines c.countL2 m := ⟨h.level1, h.level2, h.incl⟩

theorem countMemory (h : Refines c m) : Refines c.countMemory m :=
  ⟨h.level1, h.level2, h.incl⟩

theorem touchL1 (h : Refines c m) (hc : c.pseudoCycle ≤ uint32Max) {op : Op} {d : Bool}
    (hb : Resident cfg.geom1.setOf m.order₁ (cfg.block a))
    (hp : LevelOrder.EntryOf c.L1 c.pseudoCycle m.order₁ m.dirty₁ a p)
    (hd : Function.update m.dirty₁ (cfg.block a) d =
      if op = .write then Function.update m.dirty₁ (cfg.block a) true else m.dirty₁) :
    Refines (c.touchL1 p d) (m.hit₁ cfg.hierarchy op (cfg.block a)) where
  level1 := by
    have htouch := h.level1.touch h.incl.lists₁ hp d
    rw [show cfg.geom1.block a = cfg.block a from rfl, hd] at htouch
    simp only [Cache.touchL1, Cache.stamp_eq hc]
    exact htouch
  level2 := h.level2.mono (Nat.le_succ _)
  incl := h.incl.hit₁ op hb

/-- A use of an L2 entry that sets its dirty flag to `d`. -/
theorem touchL2 (h : Refines c m) (hc : c.pseudoCycle ≤ uint32Max) (d : Bool)
    (hb : Resident cfg.geom2.setOf m.order₂ (cfg.block a))
    (hp : LevelOrder.EntryOf c.L2 c.pseudoCycle m.order₂ m.dirty₂ a p) :
    Refines (c.touchL2 p d)
      { m.use₂ cfg.hierarchy (cfg.block a) with
        dirty₂ := Function.update m.dirty₂ (cfg.block a) d } where
  level1 := h.level1.mono (Nat.le_succ _)
  level2 := by
    simp only [Cache.touchL2, Cache.stamp_eq hc]
    exact h.level2.touch h.incl.lists₂ hp d
  incl := ⟨h.incl.lists₁, (h.incl.use₂ hb).lists₂, (h.incl.use₂ hb).incl⟩

/-- Before the L1 victim is overwritten its modification is saved, and
the `L2` entry this takes is there. -/
theorem saveL1Victim (h : Refines c m) (hc : c.pseudoCycle ≤ uint32Max)
    (hp : LevelOrder.VictimOf c.L1 c.pseudoCycle m.order₁ m.dirty₁ a p) :
    ∃ c', c.saveL1Victim p = .ok c' ∧ c'.L1 = c.L1 ∧ c.pseudoCycle ≤ c'.pseudoCycle ∧
      Counted c c' [] ∧ Refines c' (m.evict₁ cfg.hierarchy (cfg.block a)) := by
  have hev : evictee? cfg.hierarchy.ways₁ (m.order₁ (cfg.hierarchy.set₁ (cfg.block a))) = _ :=
    hp.evictee?
  unfold Cache.saveL1Victim Contents.evict₁
  rw [hev]
  by_cases hv : (c.L1.entry p).valid = true
  · obtain ⟨hlt, hentry⟩ := hp.entryOf hv
    have hdirty := hentry.dirty_eq
    simp only [hv, Bool.true_and, if_true]
    by_cases hd : (c.L1.entry p).dirty = true
    · rw [if_pos hv] at hev
      have hres : Resident cfg.geom2.setOf m.order₂ (cfg.block (c.L1.entry p).address) :=
        h.incl.resident₂_of_evictee hev
      obtain ⟨q, hq, hentry₂⟩ := h.level2.blockExists_eq_some h.incl.lists₂ hlt hres
      rw [if_pos hd, hq, if_pos (hdirty ▸ hd)]
      exact ⟨_, rfl, rfl, Nat.le_succ _, by constructor <;> rfl, h.touchL2 hc true hres hentry₂⟩
    · rw [if_neg hd, if_neg (hdirty ▸ hd)]
      exact ⟨c, rfl, rfl, Nat.le_refl _, by constructor <;> rfl, h⟩
  · simp only [hv, Bool.false_and, Bool.false_eq_true, if_false]
    exact ⟨c, rfl, rfl, Nat.le_refl _, by constructor <;> rfl, h⟩

theorem fetchToL1 (h : Refines c m) (hc : c.pseudoCycle ≤ uint32Max) (ha : a < uint32Size)
    (hb₁ : ¬Resident cfg.geom1.setOf m.order₁ (cfg.block a))
    (hb₂ : Resident cfg.geom2.setOf m.order₂ (cfg.block a)) :
    ∃ c' p, c.fetchToL1 a = .ok (c', p) ∧ Counted c c' [] ∧
      (c'.pseudoCycle ≤ uint32Max →
        RefinesAt c' (m.insert₁ cfg.hierarchy (cfg.block a) false) a p) := by
  obtain ⟨p, hget, hp⟩ := h.level1.getEntryForNewBlock hc ha
  obtain ⟨c₁, hsave, hL1, hle, hcnt, h₁⟩ := h.saveL1Victim hc hp
  refine ⟨c₁.fillL1 p a, p, ?_, hcnt.trans_nil (by constructor <;> rfl), fun hc' => ?_⟩
  · simp only [Cache.fetchToL1, hget, hsave, bind, Except.bind, pure, Except.pure]
  · have hc₁ : c₁.pseudoCycle ≤ uint32Max := Nat.le_of_succ_le hc'
    have hp₁ : LevelOrder.VictimOf c₁.L1 c₁.pseudoCycle
        (m.evict₁ cfg.hierarchy (cfg.block a)).order₁
        (m.evict₁ cfg.hierarchy (cfg.block a)).dirty₁ a p := by
      rw [hL1, Inclusive.evict₁_order₁, Inclusive.evict₁_dirty₁]
      exact hp.mono hle
    have hb₁' : ¬Resident cfg.geom1.setOf
        (m.evict₁ cfg.hierarchy (cfg.block a)).order₁ (cfg.block a) := by
      rw [Inclusive.evict₁_order₁]
      exact hb₁
    have hfill := h₁.level1.fill h₁.incl.lists₁ ha hp₁ hb₁'
    have href : Refines (c₁.fillL1 p a) (m.insert₁ cfg.hierarchy (cfg.block a) false) := by
      refine ⟨?_, h₁.level2.mono (Nat.le_succ _), h.incl.insert₁ hb₁ hb₂ false⟩
      simp only [Cache.fillL1, Cache.stamp_eq hc₁]
      exact hfill
    refine { href with entryOf := href.level1.entryOf_of_valid hp.way_lt ?_ hp.1 ?_ } <;>
      simp only [Cache.fillL1, CacheLevel.entry_setEntry, Cache.filled]

/-- Before the L2 victim is overwritten its block leaves L1. -/
theorem dropL2Victim (h : Refines c m)
    (hp : LevelOrder.VictimOf c.L2 c.pseudoCycle m.order₂ m.dirty₂ a p) :
    Refines (c.dropL2Victim p) (m.evict₂ cfg.hierarchy (cfg.block a)) := by
  refine ⟨?_, ?_, h.incl.evict₂ _⟩
  · have hev : evictee? cfg.hierarchy.ways₂ (m.order₂ (cfg.hierarchy.set₂ (cfg.block a))) = _ :=
      hp.evictee?
    unfold Cache.dropL2Victim Contents.evict₂
    rw [hev]
    by_cases hv : (c.L2.entry p).valid = true
    · obtain ⟨hlt, -⟩ := hp.entryOf hv
      rw [if_pos hv, if_pos hv]
      by_cases hres : Resident cfg.geom1.setOf m.order₁ (cfg.block (c.L2.entry p).address)
      · obtain ⟨q, hq, hentry⟩ := h.level1.blockExists_eq_some h.incl.lists₁ hlt hres
        rw [hq]
        exact h.level1.invalidate h.incl.lists₁ hentry
      · rw [h.level1.blockExists_eq_none hlt hres]
        have hsame := removeIn_of_not_resident hres
        simp only [Config.hierarchy]
        rw [show cfg.geom2.block (c.L2.entry p).address =
          cfg.block (c.L2.entry p).address from rfl, hsame]
        exact h.level1
    · rw [if_neg hv, if_neg hv]
      exact h.level1
  · rw [Cache.dropL2Victim_L2, Cache.dropL2Victim_pseudoCycle, Inclusive.evict₂_order₂,
      Inclusive.evict₂_dirty₂]
    exact h.level2

theorem fetchBlockFromMemory (h : Refines c m) (hc : c.pseudoCycle < uint32Max)
    (ha : a < uint32Size) (hb₂ : ¬Resident cfg.geom2.setOf m.order₂ (cfg.block a)) :
    ∃ c' p, c.fetchBlockFromMemory a = .ok (c', p) ∧ Counted c c' [] ∧
      (c'.pseudoCycle ≤ uint32Max →
        RefinesAt c' ((m.insert₂ cfg.hierarchy (cfg.block a)).insert₁
          cfg.hierarchy (cfg.block a) false) a p) := by
  obtain ⟨p, hget, hp⟩ := h.level2.getEntryForNewBlock (Nat.le_of_lt hc) ha
  have h₁ := h.dropL2Victim hp
  have hp₁ : LevelOrder.VictimOf (c.dropL2Victim p).L2 (c.dropL2Victim p).pseudoCycle
      (m.evict₂ cfg.hierarchy (cfg.block a)).order₂
      (m.evict₂ cfg.hierarchy (cfg.block a)).dirty₂ a p := by
    rw [Cache.dropL2Victim_L2, Cache.dropL2Victim_pseudoCycle, Inclusive.evict₂_order₂,
      Inclusive.evict₂_dirty₂]
    exact hp
  have hstamp : (c.dropL2Victim p).stamp = (c.dropL2Victim p).pseudoCycle :=
    Cache.stamp_eq (by rw [Cache.dropL2Victim_pseudoCycle]; exact Nat.le_of_lt hc)
  have hb₂' : ¬Resident cfg.geom2.setOf
      (m.evict₂ cfg.hierarchy (cfg.block a)).order₂ (cfg.block a) := by
    rw [Inclusive.evict₂_order₂]
    exact hb₂
  have h₂ : Refines ((c.dropL2Victim p).fillL2 p a) (m.insert₂ cfg.hierarchy (cfg.block a)) := by
    refine ⟨h₁.level1.mono (Nat.le_succ _), ?_, h.incl.insert₂ hb₂⟩
    have hfill := h₁.level2.fill h₁.incl.lists₂ ha hp₁ hb₂'
    simp only [Cache.fillL2, hstamp]
    exact hfill
  have hc₂ : ((c.dropL2Victim p).fillL2 p a).pseudoCycle ≤ uint32Max := by
    simp only [Cache.fillL2, Cache.dropL2Victim_pseudoCycle]
    exact hc
  have hb₁ : ¬Resident cfg.geom1.setOf
      (m.insert₂ cfg.hierarchy (cfg.block a)).order₁ (cfg.block a) := fun hb =>
    hb₂ (h.incl.incl _ (h.incl.evict₂_resident₁.mp hb).1)
  obtain ⟨c', q, hfetch, hcnt, hpost⟩ :=
    h₂.fetchToL1 hc₂ ha hb₁ (h.incl.insert₂_resident₂ _)
  refine ⟨c', q, ?_, (c.counted_dropL2Victim p).trans_nil
    (Counted.trans_nil (by constructor <;> rfl) hcnt), hpost⟩
  simp only [Cache.fetchBlockFromMemory, hget, bind, Except.bind]
  exact hfetch

/-! ## Accesses -/

theorem outcome_eq (h : Refines c m) (ha : a < uint32Size) :
    c.outcome a = m.lookup cfg.hierarchy (cfg.block a) := by
  unfold Cache.outcome Contents.lookup
  by_cases hb₁ : Resident cfg.hierarchy.set₁ m.order₁ (cfg.block a)
  · obtain ⟨q, hq, -⟩ := h.level1.blockExists_eq_some h.incl.lists₁ ha hb₁
    rw [hq, if_pos hb₁]
  · rw [h.level1.blockExists_eq_none ha hb₁, if_neg hb₁]
    by_cases hb₂ : Resident cfg.hierarchy.set₂ m.order₂ (cfg.block a)
    · obtain ⟨q, hq, -⟩ := h.level2.blockExists_eq_some h.incl.lists₂ ha hb₂
      rw [hq, if_pos hb₂]
    · rw [h.level2.blockExists_eq_none ha hb₂, if_neg hb₂]

/-- Writing to the block just brought into L1. -/
theorem markDirtyL1 (h : RefinesAt c (m.insert₁ cfg.hierarchy (cfg.block a) false) a p) :
    Refines (c.markDirtyL1 p) (m.insert₁ cfg.hierarchy (cfg.block a) true) := by
  rw [← Contents.insert₁_dirty]
  exact ⟨h.level1.markDirty h.incl.lists₁ h.entryOf, h.level2,
    ⟨h.incl.lists₁, h.incl.lists₂, h.incl.incl⟩⟩

/-- An L1 hit. -/
theorem access_l1Hit (h : Refines c m) (hc : c.pseudoCycle < uint32Max) (ha : a < uint32Size)
    (op : Op) (hb₁ : Resident cfg.geom1.setOf m.order₁ (cfg.block a)) :
    ∃ c', c.access (op, a) = .ok c' ∧ Counted c c' [.l1Hit] ∧
      (c'.pseudoCycle ≤ uint32Max → Refines c' (m.hit₁ cfg.hierarchy op (cfg.block a))) := by
  have h₀ := h.countL1
  obtain ⟨q, hq, hentry⟩ := h₀.level1.blockExists_eq_some h.incl.lists₁ ha hb₁
  cases op with
  | read =>
      refine ⟨_, ?_, ?_, fun _ => h₀.touchL1 (Nat.le_of_lt hc) hb₁ hentry
        (d := (c.countL1.L1.entry q).dirty) ?_⟩
      · simp only [Cache.access, Cache.cacheRead, hq]
      · exact (counted_l1Hit c).trans_nil (by constructor <;> rfl)
      · rw [hentry.dirty_eq]
        exact Function.update_eq_self _ _
  | write =>
      refine ⟨_, ?_, ?_, fun _ => h₀.touchL1 (Nat.le_of_lt hc) hb₁ hentry (d := true) ?_⟩
      · simp only [Cache.access, Cache.cacheWrite, hq]
      · exact (counted_l1Hit c).trans_nil (by constructor <;> rfl)
      · rfl

/-- The part of an L2 hit that copies the block to L1. -/
theorem copyToL1 (h : Refines c m) (hc : c.pseudoCycle < uint32Max) (ha : a < uint32Size)
    (hb₁ : ¬Resident cfg.geom1.setOf m.order₁ (cfg.block a))
    (hb₂ : Resident cfg.geom2.setOf m.order₂ (cfg.block a))
    (hp : LevelOrder.EntryOf c.L2 c.pseudoCycle m.order₂ m.dirty₂ a p) :
    ∃ c' q, (c.touchL2 p (c.L2.entry p).dirty).fetchToL1 a = .ok (c', q) ∧ Counted c c' [] ∧
      (c'.pseudoCycle ≤ uint32Max →
        RefinesAt c' ((m.use₂ cfg.hierarchy (cfg.block a)).insert₁
          cfg.hierarchy (cfg.block a) false) a q) := by
  have h₁ := h.touchL2 (Nat.le_of_lt hc) (c.L2.entry p).dirty hb₂ hp
  rw [hp.dirty_eq, show cfg.geom2.block a = cfg.block a from rfl,
    Function.update_eq_self] at h₁
  rw [hp.dirty_eq]
  obtain ⟨c', q, hfetch, hcnt, hpost⟩ :=
    h₁.fetchToL1 hc ha hb₁ ((resident_useIn hb₂).mpr hb₂)
  exact ⟨c', q, hfetch, Counted.trans_nil (by constructor <;> rfl) hcnt, hpost⟩

/-- An L2 hit. -/
theorem access_l2Hit (h : Refines c m) (hc : c.pseudoCycle < uint32Max) (ha : a < uint32Size)
    (op : Op) (hb₁ : ¬Resident cfg.geom1.setOf m.order₁ (cfg.block a))
    (hb₂ : Resident cfg.geom2.setOf m.order₂ (cfg.block a)) :
    ∃ c', c.access (op, a) = .ok c' ∧ Counted c c' [.l2Hit] ∧
      (c'.pseudoCycle ≤ uint32Max → Refines c' (m.hit₂ cfg.hierarchy op (cfg.block a))) := by
  have h₀ := h.countL1.countL2
  have hq₁ := h.countL1.level1.blockExists_eq_none ha hb₁
  obtain ⟨q, hq, hentry⟩ := h₀.level2.blockExists_eq_some h.incl.lists₂ ha hb₂
  obtain ⟨c', p, hfetch, hcnt, hpost⟩ := h₀.copyToL1 hc ha hb₁ hb₂ hentry
  cases op with
  | read =>
      refine ⟨c', ?_, (counted_l2Hit c).trans_nil hcnt, fun hc' => (hpost hc').toRefines⟩
      simp only [Cache.access, Cache.cacheRead, hq₁, hq, hfetch, bind, Except.bind, pure,
        Except.pure]
  | write =>
      cases hpol : cfg.wrAlloc with
      | writeAllocate =>
          refine ⟨c'.markDirtyL1 p, ?_,
            (counted_l2Hit c).trans_nil (hcnt.trans_nil (by constructor <;> rfl)), fun hc' => ?_⟩
          · simp only [Cache.access, Cache.cacheWrite, hq₁, hq, hpol, hfetch, bind, Except.bind,
              pure, Except.pure]
          · have hf : Contents.fetches cfg.hierarchy .write = true := by
              simp [Contents.fetches, Config.hierarchy, hpol]
            rw [Contents.hit₂, if_pos hf]
            exact markDirtyL1 (hpost hc')
      | noWriteAllocate =>
          refine ⟨c.countL1.countL2.touchL2 q true, ?_,
            (counted_l2Hit c).trans_nil (by constructor <;> rfl), fun _ => ?_⟩
          · simp only [Cache.access, Cache.cacheWrite, hq₁, hq, hpol]
          · have hf : Contents.fetches cfg.hierarchy .write = false := by
              simp [Contents.fetches, Config.hierarchy, hpol]
            rw [Contents.hit₂, hf]
            exact h₀.touchL2 (Nat.le_of_lt hc) true hb₂ hentry

/-- A miss in both levels. -/
theorem access_miss (h : Refines c m) (hc : c.pseudoCycle < uint32Max) (ha : a < uint32Size)
    (op : Op) (hb₂ : ¬Resident cfg.geom2.setOf m.order₂ (cfg.block a)) :
    ∃ c', c.access (op, a) = .ok c' ∧ Counted c c' [.miss] ∧
      (c'.pseudoCycle ≤ uint32Max → Refines c' (m.miss cfg.hierarchy op (cfg.block a))) := by
  have h₀ := h.countL1.countL2.countMemory
  have hb₁ : ¬Resident cfg.geom1.setOf m.order₁ (cfg.block a) := fun hb =>
    hb₂ (h.incl.incl _ hb)
  have hq₁ := h.countL1.level1.blockExists_eq_none ha hb₁
  have hq₂ := h.countL1.countL2.level2.blockExists_eq_none ha hb₂
  obtain ⟨c', p, hfetch, hcnt, hpost⟩ := h₀.fetchBlockFromMemory hc ha hb₂
  cases op with
  | read =>
      refine ⟨c', ?_, (counted_miss c).trans_nil hcnt, fun hc' => (hpost hc').toRefines⟩
      simp only [Cache.access, Cache.cacheRead, hq₁, hq₂, hfetch, bind, Except.bind, pure,
        Except.pure]
  | write =>
      cases hpol : cfg.wrAlloc with
      | writeAllocate =>
          refine ⟨c'.markDirtyL1 p, ?_,
            (counted_miss c).trans_nil (hcnt.trans_nil (by constructor <;> rfl)), fun hc' => ?_⟩
          · simp only [Cache.access, Cache.cacheWrite, hq₁, hq₂, hpol, hfetch, bind, Except.bind,
              pure, Except.pure]
          · have hf : Contents.fetches cfg.hierarchy .write = true := by
              simp [Contents.fetches, Config.hierarchy, hpol]
            rw [Contents.miss, if_pos hf]
            exact markDirtyL1 (hpost hc')
      | noWriteAllocate =>
          refine ⟨c.countL1.countL2.countMemory, ?_, counted_miss c, ?_⟩
          · simp only [Cache.access, Cache.cacheWrite, hq₁, hq₂, hpol]
          · intro _
            have hf : Contents.fetches cfg.hierarchy .write = false := by
              simp [Contents.fetches, Config.hierarchy, hpol]
            rw [Contents.miss, hf]
            exact h₀

/-- Every access does to the simulator what it does to the hierarchy. -/
theorem access (h : Refines c m) (hc : c.pseudoCycle < uint32Max) (ha : a < uint32Size)
    (op : Op) :
    ∃ c', c.access (op, a) = .ok c' ∧ Counted c c' [c.outcome a] ∧
      (c'.pseudoCycle ≤ uint32Max → Refines c' (m.access cfg.hierarchy op (cfg.block a))) := by
  rw [h.outcome_eq ha]
  unfold Contents.access Contents.lookup
  by_cases hb₁ : Resident cfg.hierarchy.set₁ m.order₁ (cfg.block a)
  · simpa only [if_pos hb₁] using h.access_l1Hit hc ha op hb₁
  · by_cases hb₂ : Resident cfg.hierarchy.set₂ m.order₂ (cfg.block a)
    · simpa only [if_neg hb₁, if_pos hb₂] using h.access_l2Hit hc ha op hb₁ hb₂
    · simpa only [if_neg hb₁, if_neg hb₂] using h.access_miss hc ha op hb₂

end Refines

end CacheSim

end ArchSim
