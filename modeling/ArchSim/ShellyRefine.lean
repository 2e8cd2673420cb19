import ArchSim.CacheMain
import ArchSim.CachePaging
import ArchSim.LateUse
import ArchSim.ShellyOrder

/-!
# What the third cache simulator computes

`cacheSimShelly.cpp` behaves as the hierarchy with late uses, and indexes with
an uninitialised `set` exactly when that hierarchy would strand a block. So it
agrees with `cacheSim.cpp` on the traces that L2 has room for; on a trace of
reads it agrees unless an access takes from L2 a block that L1 still holds.
-/

namespace ArchSim

namespace ShellySim

open CacheSim (Config Geometry opChar)

/-- A simulator state and the hierarchy's contents it stands for. -/
structure Refines {cfg : Config} (s : Memory cfg) (m : Contents Nat Nat Nat) : Prop where
  level1 : LevelHolds s.L1cache m.order₁ m.dirty₁
  level2 : ∃ dirty, LevelHolds s.L2cache m.order₂ dirty
  incl : Inclusive cfg.hierarchy m

variable {cfg : Config}

/-! ## Counters -/

/-- Between `s` and `s'` the counters went up by the outcomes `os`. -/
structure Counted (s s' : Memory cfg) (os : List Outcome) : Prop where
  l1Access : s'.accessCountL1 = s.accessCountL1 + BitVec.ofNat 32 os.length
  l1Miss : s'.missCountL1 = s.missCountL1 + BitVec.ofNat 32 (os.countP (· ≠ .l1Hit))
  l2Access : s'.accessCountL2 = s.accessCountL2 + BitVec.ofNat 32 (os.countP (· ≠ .l1Hit))
  l2Miss : s'.missCountL2 = s.missCountL2 + BitVec.ofNat 32 (os.countP (· = .miss))
  mem : s'.accessCountMem = s.accessCountMem + BitVec.ofNat 32 (os.countP (· = .miss))

theorem Counted.nil (s : Memory cfg) : Counted s s [] := by
  constructor <;> simp

theorem Counted.cons {s s' s'' : Memory cfg} {o : Outcome} {os : List Outcome}
    (h : Counted s s' [o]) (h' : Counted s' s'' os) : Counted s s'' (o :: os) := by
  have hcount : ∀ p : Outcome → Bool, (o :: os).countP p = [o].countP p + os.countP p :=
    fun p => show ([o] ++ os).countP p = _ from List.countP_append
  have hlen : (o :: os).length = [o].length + os.length :=
    show ([o] ++ os).length = _ from List.length_append
  constructor
  · rw [h'.l1Access, h.l1Access, hlen, BitVec.ofNat_add, BitVec.add_assoc]
  · rw [h'.l1Miss, h.l1Miss, hcount, BitVec.ofNat_add, BitVec.add_assoc]
  · rw [h'.l2Access, h.l2Access, hcount, BitVec.ofNat_add, BitVec.add_assoc]
  · rw [h'.l2Miss, h.l2Miss, hcount, BitVec.ofNat_add, BitVec.add_assoc]
  · rw [h'.mem, h.mem, hcount, BitVec.ofNat_add, BitVec.add_assoc]

/-- The caches play no part. -/
theorem counted_l1Hit (s : Memory cfg) (l1 : Cache cfg.geom1) (l2 : Cache cfg.geom2) :
    Counted s { s.countL1 with L1cache := l1, L2cache := l2 } [.l1Hit] := by
  constructor <;> simp [Memory.countL1]

theorem counted_l2Hit (s : Memory cfg) (l1 : Cache cfg.geom1) (l2 : Cache cfg.geom2) :
    Counted s { s.countL1.countL2 with L1cache := l1, L2cache := l2 } [.l2Hit] := by
  constructor <;> simp [Memory.countL1, Memory.countL2]

theorem counted_miss (s : Memory cfg) (l1 : Cache cfg.geom1) (l2 : Cache cfg.geom2) :
    Counted s { s.countL1.countL2.countMem with L1cache := l1, L2cache := l2 } [.miss] := by
  constructor <;> simp [Memory.countL1, Memory.countL2, Memory.countMem]

theorem allocates_opChar (cfg : Config) (op : Op) :
    Memory.allocates cfg (opChar op) = Contents.fetches cfg.hierarchy op := by
  cases op
  · rfl
  · rw [CacheSim.fetches_write]
    simp [Memory.allocates, opChar]

/-! ## One lemma for each operation -/

namespace Refines

variable {s : Memory cfg} {m : Contents Nat Nat Nat} {a b : Nat}

theorem new (cfg : Config) : Refines (Memory.new cfg) Contents.empty :=
  ⟨LevelHolds.new _ _, ⟨_, LevelHolds.new _ fun _ => false⟩, Inclusive.empty _⟩

theorem inCacheL1 (h : Refines s m) (a : Nat) :
    s.L1cache.inCache a false =
      decide (Resident cfg.hierarchy.set₁ m.order₁ (cfg.block a)) :=
  h.level1.inCache_address h.incl.lists₁ a

theorem inCacheL2 (h : Refines s m) (a : Nat) :
    s.L2cache.inCache a false =
      decide (Resident cfg.hierarchy.set₂ m.order₂ (cfg.block a)) := by
  obtain ⟨d, h2⟩ := h.level2
  exact h2.inCache_address h.incl.lists₂ a

theorem outcome_eq (h : Refines s m) (a : Nat) :
    s.outcome a = m.lookup cfg.hierarchy (cfg.block a) := by
  rw [Memory.outcome, h.inCacheL1, h.inCacheL2, Contents.lookup]
  simp only [decide_eq_true_eq]

/-- A hit in L1. -/
theorem calcOperation_l1Hit (h : Refines s m) (ha : a < uint32Size) (op : Op)
    (hb : Resident cfg.hierarchy.set₁ m.order₁ (cfg.block a)) :
    ∃ s', s.calcOperation a (opChar op) = .ok s' ∧ Counted s s' [.l1Hit] ∧
      Refines s' (m.hit₁ cfg.hierarchy op (cfg.block a)) := by
  have hin : s.countL1.L1cache.inCache a false = true := by
    rw [show s.countL1.L1cache = s.L1cache from rfl, h.inCacheL1, decide_eq_true hb]
  have huse := h.level1.lruUpdate_address h.incl.lists₁ (RoySim.block_lt ha) hb
  have hincl := h.incl.hit₁ op hb
  refine ⟨_, ?_, counted_l1Hit s (if opChar op == 'w' then
    (s.L1cache.lruUpdate a true).changeWay (cfg.block a) .dirty
    else s.L1cache.lruUpdate a true) s.L2cache, ?_, h.level2, hincl⟩
  · rw [Memory.calcOperation, if_pos hin, LevelHolds.changeIf]
    rfl
  · cases op with
    | read => exact huse
    | write => exact huse.changeWay hincl.lists₁ ((resident_useIn hb).mpr hb) (by decide)

/-- Adding a block to L1, before its `LRUupdate`. The block to evacuate is the
one that the hierarchy writes back. -/
theorem addL1 (h : Refines s m) (ha : a < uint32Size)
    (hb₁ : ¬Resident cfg.hierarchy.set₁ m.order₁ (cfg.block a)) :
    ∃ l1 needEvac,
      s.L1cache.add a (s.L1cache.lruGetLeastRecentlyUsed a) true = (l1, needEvac) ∧
      LevelHolds (l1.lruUpdate a true)
        (insertIn cfg.hierarchy.set₁ cfg.hierarchy.ways₁ (cfg.block a) m.order₁)
        (Function.update m.dirty₁ (cfg.block a) false) ∧
      ((Memory.evacuee needEvac (s.L1cache.lruGetLeastRecentlyUsed a) = none ∧
          m.evict₁ cfg.hierarchy (cfg.block a) = m) ∨
        ∃ v, Memory.evacuee needEvac (s.L1cache.lruGetLeastRecentlyUsed a) = some v ∧
          v < uint32Size ∧ Resident cfg.hierarchy.set₂ m.order₂ v ∧
          m.evict₁ cfg.hierarchy (cfg.block a) = m.writeBack cfg.hierarchy v) := by
  obtain ⟨l1, hadd, hl1, hget⟩ := h.level1.add h.incl.lists₁ (RoySim.block_lt ha) hb₁ true
  change _ = (l1, LevelHolds.needsEvac true m.dirty₁
    (evictee? cfg.hierarchy.ways₁ (m.order₁ (cfg.hierarchy.set₁ (cfg.block a))))) at hadd
  change ∀ v ∈ evictee? cfg.hierarchy.ways₁
    (m.order₁ (cfg.hierarchy.set₁ (cfg.block a))), _ at hget
  refine ⟨l1, _, hadd, hl1, ?_⟩
  unfold Contents.evict₁
  cases hev : evictee? cfg.hierarchy.ways₁ (m.order₁ (cfg.hierarchy.set₁ (cfg.block a))) with
  | none => exact Or.inl ⟨rfl, rfl⟩
  | some v =>
      have hneeds : LevelHolds.needsEvac true m.dirty₁ (some v) = m.dirty₁ v := Bool.or_false _
      obtain ⟨hv, hlt⟩ := hget v hev
      rw [hneeds]
      cases hd : m.dirty₁ v with
      | false => exact Or.inl ⟨rfl, by simp only [hd, Bool.false_eq_true, if_false]⟩
      | true =>
          refine Or.inr ⟨v, hv, hlt, h.incl.resident₂_of_evictee hev, ?_⟩
          simp only [hd, if_true]

/-- L1 once a block that has been added to it has got its status. -/
theorem fillL1 (h : Refines s m) {l1 : Cache cfg.geom1} (hl1 : LevelHolds (l1.lruUpdate a true)
      (insertIn cfg.hierarchy.set₁ cfg.hierarchy.ways₁ b m.order₁)
      (Function.update m.dirty₁ b false))
    (hb₁ : ¬Resident cfg.hierarchy.set₁ m.order₁ b)
    (hb₂ : Resident cfg.hierarchy.set₂ m.order₂ b) {status : DataStatus}
    (hstatus : status ≠ .doesntExist) :
    LevelHolds ((l1.lruUpdate a true).changeWay b status)
      (m.insert₁ cfg.hierarchy b (status == .dirty)).order₁
      (m.insert₁ cfg.hierarchy b (status == .dirty)).dirty₁ := by
  have hlists := (h.incl.insert₁ hb₁ hb₂ (status == .dirty)).lists₁
  simp only [Contents.insert₁, Inclusive.evict₁_order₁, Inclusive.evict₁_dirty₁] at hlists ⊢
  have hmark := hl1.changeWay hlists resident_insertIn_self hstatus
  rwa [Function.update_idem] at hmark

/-- L2 once it has taken back what L1 gives up. -/
theorem takeBack (h : Refines s m) {lru : Option Nat}
    (hb₂ : Resident cfg.hierarchy.set₂ m.order₂ (cfg.block a))
    (hlru : (lru = none ∧ m.evict₁ cfg.hierarchy (cfg.block a) = m) ∨
      ∃ v, lru = some v ∧ v < uint32Size ∧ Resident cfg.hierarchy.set₂ m.order₂ v ∧
        m.evict₁ cfg.hierarchy (cfg.block a) = m.writeBack cfg.hierarchy v) :
    (∃ l2 d, Memory.takeBack s.L2cache a lru = .ok l2 ∧
      LevelHolds l2 (m.evict₁ cfg.hierarchy (cfg.block a)).order₂ d) ∧
    ∃ d, LevelHolds (Memory.takeBackOnMiss s.L2cache lru)
      (m.evict₁ cfg.hierarchy (cfg.block a)).order₂ d := by
  obtain ⟨d, h2⟩ := h.level2
  rcases hlru with ⟨rfl, hsame⟩ | ⟨v, rfl, hv, hres, hwrite⟩
  · rw [hsame]
    exact ⟨⟨s.L2cache, d, rfl, h2⟩, d, h2⟩
  · have huse := h2.lruUpdate_tag h.incl.lists₂ hv hres
    rw [hwrite]
    refine ⟨⟨_, _, LevelHolds.changeToX .., huse.changeWay (b := cfg.block a)
      (h.incl.lists₂.useIn hres) ((resident_useIn hres).mpr hb₂) (by decide)⟩, d, huse⟩

/-- The branch for a block that L2 holds and that L1 gets. -/
theorem serveFromL2 (h : Refines s m) (ha : a < uint32Size) (op : Op)
    (hf : Contents.fetches cfg.hierarchy op = true)
    (hb₁ : ¬Resident cfg.hierarchy.set₁ m.order₁ (cfg.block a))
    (hb₂ : Resident cfg.hierarchy.set₂ m.order₂ (cfg.block a)) :
    ∃ l1 l2, s.serveFromL2 a (opChar op) = .ok { s with L1cache := l1, L2cache := l2 } ∧
      Refines { s with L1cache := l1, L2cache := l2 }
        (m.hit₂Late cfg.hierarchy op (cfg.block a)) := by
  have hlt : cfg.block a < uint32Size := RoySim.block_lt ha
  obtain ⟨l1, needEvac, hadd, hl1, hevac⟩ := h.addL1 ha hb₁
  obtain ⟨⟨l2, d, hback, h2⟩, -⟩ := h.takeBack hb₂ hevac
  have hlists := (h.incl.evict₁ (cfg.block a)).lists₂
  have hb₂' : Resident cfg.hierarchy.set₂ (m.evict₁ cfg.hierarchy (cfg.block a)).order₂
      (cfg.block a) := h.incl.evict₁_resident₂.mpr hb₂
  have hincl := (h.incl.insert₁ hb₁ hb₂ (op == .write)).use₂
    (h.incl.insert₁_resident₂.mpr hb₂)
  rw [Contents.hit₂Late, if_pos hf]
  simp only [Memory.serveFromL2, hadd, hback, LevelHolds.changeIf, bind, Except.bind, pure,
    Except.pure]
  cases op with
  | read =>
      have hexist : DataStatus.exist ≠ .doesntExist := by decide
      have hmark := h2.changeWay hlists hb₂' hexist
      refine ⟨_, _, rfl, ?_, ⟨_, hmark.lruUpdate_address hlists hlt hb₂'⟩, hincl⟩
      exact LevelHolds.changeWay_lruUpdate l1 _ a .exist true ▸ h.fillL1 hl1 hb₁ hb₂ hexist
  | write =>
      have hdirty : DataStatus.dirty ≠ .doesntExist := by decide
      refine ⟨_, _, rfl, ?_, ⟨d, h2.lruUpdate_address hlists hlt hb₂'⟩, hincl⟩
      exact LevelHolds.changeWay_lruUpdate l1 _ a .dirty true ▸ h.fillL1 hl1 hb₁ hb₂ hdirty

/-- Adding a block to L2, before its `LRUupdate`. If L1 holds the block that
L2 gives up then `changeToX` fails, and else L1 stays as it is. -/
theorem addL2 (h : Refines s m) (ha : a < uint32Size) {op : Op}
    (hf : Contents.fetches cfg.hierarchy op = true)
    (hmiss : m.lookup cfg.hierarchy (cfg.block a) = .miss)
    (hb₂ : ¬Resident cfg.hierarchy.set₂ m.order₂ (cfg.block a)) :
    ∃ l2 needEvac d,
      s.L2cache.add a (s.L2cache.lruGetLeastRecentlyUsed a) false = (l2, needEvac) ∧
      LevelHolds (l2.lruUpdate a true)
        (insertIn cfg.hierarchy.set₂ cfg.hierarchy.ways₂ (cfg.block a) m.order₂) d ∧
      ((m.Strands cfg.hierarchy op (cfg.block a) ∧
          Memory.followEvac s.L1cache
            (Memory.evacuee needEvac (s.L2cache.lruGetLeastRecentlyUsed a)) =
              .error .uninitialised) ∨
        (¬m.Strands cfg.hierarchy op (cfg.block a) ∧
          m.evict₂ cfg.hierarchy (cfg.block a) = m ∧
          Memory.followEvac s.L1cache
            (Memory.evacuee needEvac (s.L2cache.lruGetLeastRecentlyUsed a)) =
              .ok s.L1cache)) := by
  obtain ⟨d, h2⟩ := h.level2
  obtain ⟨l2, hadd, hl2, hget⟩ := h2.add h.incl.lists₂ (RoySim.block_lt ha) hb₂ false
  change _ = (l2, LevelHolds.needsEvac false d
    (evictee? cfg.hierarchy.ways₂ (m.order₂ (cfg.hierarchy.set₂ (cfg.block a))))) at hadd
  change ∀ v ∈ evictee? cfg.hierarchy.ways₂
    (m.order₂ (cfg.hierarchy.set₂ (cfg.block a))), _ at hget
  refine ⟨l2, _, _, hadd, hl2, ?_⟩
  unfold Contents.evict₂ Contents.Strands
  cases hev : evictee? cfg.hierarchy.ways₂ (m.order₂ (cfg.hierarchy.set₂ (cfg.block a))) with
  | none => exact Or.inr ⟨by simp, rfl, rfl⟩
  | some v =>
      have hneeds : LevelHolds.needsEvac false d (some v) = true := Bool.or_true _
      rw [hneeds, Memory.evacuee, if_pos rfl, (hget v hev).1, Memory.followEvac,
        h.level1.inCache_tag h.incl.lists₁]
      by_cases hres : Resident cfg.hierarchy.set₁ m.order₁ v
      · refine Or.inl ⟨⟨hmiss, hf, v, rfl, hres⟩, ?_⟩
        have hin : decide (Resident cfg.geom1.setOf m.order₁ v) = true := decide_eq_true hres
        rw [hin]
        rfl
      · refine Or.inr ⟨?_, ?_, ?_⟩
        · rintro ⟨-, -, w, hw, hresw⟩
          exact hres (Option.some.inj hw ▸ hresw)
        · dsimp only
          rw [removeIn_of_not_resident hres]
        · have hout : decide (Resident cfg.geom1.setOf m.order₁ v) = false := decide_eq_false hres
          rw [hout]
          rfl

/-- The branch for a block that both get. -/
theorem serveFromMem (h : Refines s m) (ha : a < uint32Size) (op : Op)
    (hf : Contents.fetches cfg.hierarchy op = true)
    (hmiss : m.lookup cfg.hierarchy (cfg.block a) = .miss)
    (hb₂ : ¬Resident cfg.hierarchy.set₂ m.order₂ (cfg.block a)) :
    (m.Strands cfg.hierarchy op (cfg.block a) ∧
        s.serveFromMem a (opChar op) = .error .uninitialised) ∨
      (¬m.Strands cfg.hierarchy op (cfg.block a) ∧
        ∃ l1 l2, s.serveFromMem a (opChar op) = .ok { s with L1cache := l1, L2cache := l2 } ∧
          Refines { s with L1cache := l1, L2cache := l2 }
            (m.miss cfg.hierarchy op (cfg.block a))) := by
  have hlt : cfg.block a < uint32Size := RoySim.block_lt ha
  obtain ⟨l2, needEvac, d, hadd, hl2, ⟨hstr, hevac⟩ | ⟨hstay, hsame, hevac⟩⟩ :=
    h.addL2 ha hf hmiss hb₂
  · refine Or.inl ⟨hstr, ?_⟩
    simp only [Memory.serveFromMem, hadd, hevac, bind, Except.bind]
  · refine Or.inr ⟨hstay, ?_⟩
    have hb₁ : ¬Resident cfg.hierarchy.set₁ m.order₁ (cfg.block a) := fun hb =>
      hb₂ (h.incl.incl _ hb)
    have horder₁ : (m.insert₂ cfg.hierarchy (cfg.block a)).order₁ = m.order₁ := by
      simp only [Contents.insert₂, hsame]
    have h' : Refines { s with L2cache := l2.lruUpdate a true }
        (m.insert₂ cfg.hierarchy (cfg.block a)) := by
      refine ⟨?_, ⟨d, ?_⟩, h.incl.insert₂ hb₂⟩
      · simp only [Contents.insert₂, hsame]
        exact h.level1
      · simp only [Contents.insert₂, hsame]
        exact hl2
    have hb₁' : ¬Resident cfg.hierarchy.set₁
        (m.insert₂ cfg.hierarchy (cfg.block a)).order₁ (cfg.block a) := by
      rw [horder₁]
      exact hb₁
    have hb₂' := h.incl.insert₂_resident₂ (cfg.block a)
    obtain ⟨l1, needEvac', hadd', hl1, hevac'⟩ := h'.addL1 ha hb₁'
    obtain ⟨-, d', h2⟩ := h'.takeBack hb₂' hevac'
    have hincl := h'.incl.insert₁ hb₁' hb₂' (op == .write)
    rw [Contents.miss, if_pos hf]
    simp only [Memory.serveFromMem, hadd, hevac, hadd', LevelHolds.changeIf, bind, Except.bind,
      pure, Except.pure]
    cases op with
    | read =>
        refine ⟨_, _, rfl, ?_, ⟨d', h2⟩, hincl⟩
        simp only [Contents.insert₁, Inclusive.evict₁_order₁, Inclusive.evict₁_dirty₁]
        exact hl1
    | write =>
        have hdirty : DataStatus.dirty ≠ .doesntExist := by decide
        exact ⟨_, _, rfl, h'.fillL1 hl1 hb₁' hb₂' hdirty, ⟨d', h2⟩, hincl⟩

/-! ## Operations and runs -/

/-- A miss in L1 that L2 serves. -/
theorem calcOperation_l2Hit (h : Refines s m) (ha : a < uint32Size) (op : Op)
    (hb₁ : ¬Resident cfg.hierarchy.set₁ m.order₁ (cfg.block a))
    (hb₂ : Resident cfg.hierarchy.set₂ m.order₂ (cfg.block a)) :
    ∃ s', s.calcOperation a (opChar op) = .ok s' ∧ Counted s s' [.l2Hit] ∧
      Refines s' (m.hit₂Late cfg.hierarchy op (cfg.block a)) := by
  have hin₁ : s.countL1.L1cache.inCache a false = false :=
    (h.inCacheL1 a).trans (decide_eq_false hb₁)
  have hin₂ : s.countL1.countL2.L2cache.inCache a false = true :=
    (h.inCacheL2 a).trans (decide_eq_true hb₂)
  unfold Memory.calcOperation
  simp only [hin₁, hin₂, Bool.false_eq_true, if_false, if_true, allocates_opChar]
  by_cases hf : Contents.fetches cfg.hierarchy op = true
  · have h' : Refines s.countL1.countL2 m := ⟨h.level1, h.level2, h.incl⟩
    obtain ⟨l1, l2, hserve, href⟩ := h'.serveFromL2 ha op hf hb₁ hb₂
    rw [if_pos hf]
    exact ⟨_, hserve, counted_l2Hit s l1 l2, href⟩
  · obtain ⟨d, h2⟩ := h.level2
    have huse := h2.lruUpdate_address h.incl.lists₂ (RoySim.block_lt ha) hb₂
    have hdirty : DataStatus.dirty ≠ .doesntExist := by decide
    rw [if_neg hf, LevelHolds.changeToX, Contents.hit₂Late, if_neg hf]
    refine ⟨_, rfl, counted_l2Hit s s.L1cache _, h.level1, ⟨_, huse.changeWay
      (h.incl.lists₂.useIn hb₂) ((resident_useIn hb₂).mpr hb₂) hdirty⟩, h.incl.writeBack hb₂⟩

/-- A miss in both. -/
theorem calcOperation_miss (h : Refines s m) (ha : a < uint32Size) (op : Op)
    (hmiss : m.lookup cfg.hierarchy (cfg.block a) = .miss)
    (hb₁ : ¬Resident cfg.hierarchy.set₁ m.order₁ (cfg.block a))
    (hb₂ : ¬Resident cfg.hierarchy.set₂ m.order₂ (cfg.block a)) :
    (m.Strands cfg.hierarchy op (cfg.block a) ∧
        s.calcOperation a (opChar op) = .error .uninitialised) ∨
      (¬m.Strands cfg.hierarchy op (cfg.block a) ∧
        ∃ s', s.calcOperation a (opChar op) = .ok s' ∧ Counted s s' [.miss] ∧
          Refines s' (m.miss cfg.hierarchy op (cfg.block a))) := by
  have hin₁ : s.countL1.L1cache.inCache a false = false :=
    (h.inCacheL1 a).trans (decide_eq_false hb₁)
  have hin₂ : s.countL1.countL2.L2cache.inCache a false = false :=
    (h.inCacheL2 a).trans (decide_eq_false hb₂)
  unfold Memory.calcOperation
  simp only [hin₁, hin₂, Bool.false_eq_true, if_false, allocates_opChar]
  by_cases hf : Contents.fetches cfg.hierarchy op = true
  · have h' : Refines s.countL1.countL2.countMem m := ⟨h.level1, h.level2, h.incl⟩
    rw [if_pos hf]
    rcases h'.serveFromMem ha op hf hmiss hb₂ with hstr | ⟨hstay, l1, l2, hserve, href⟩
    · exact Or.inl hstr
    · exact Or.inr ⟨hstay, _, hserve, counted_miss s l1 l2, href⟩
  · rw [if_neg hf, Contents.miss, if_neg hf]
    exact Or.inr ⟨fun hstr => hf hstr.2.1, _, rfl, counted_miss s s.L1cache s.L2cache,
      h.level1, h.level2, h.incl⟩

/-- An operation fails exactly where the hierarchy strands a block, and else
does to the simulator what it does to the hierarchy. -/
theorem calcOperation (h : Refines s m) (ha : a < uint32Size) (op : Op) :
    (m.Strands cfg.hierarchy op (cfg.block a) ∧
        s.calcOperation a (opChar op) = .error .uninitialised) ∨
      (¬m.Strands cfg.hierarchy op (cfg.block a) ∧
        ∃ s', s.calcOperation a (opChar op) = .ok s' ∧
          Counted s s' [m.lookup cfg.hierarchy (cfg.block a)] ∧
          Refines s' (m.accessLate cfg.hierarchy op (cfg.block a))) := by
  by_cases hb₁ : Resident cfg.hierarchy.set₁ m.order₁ (cfg.block a)
  · have hlook : m.lookup cfg.hierarchy (cfg.block a) = .l1Hit := lookup_eq_l1Hit.mpr hb₁
    have hlate : m.accessLate cfg.hierarchy op (cfg.block a) =
        m.hit₁ cfg.hierarchy op (cfg.block a) := by
      rw [Contents.accessLate, Contents.access, hlook]
      rfl
    refine Or.inr ⟨fun hstr => Outcome.noConfusion (hlook.symm.trans hstr.1), ?_⟩
    rw [hlook, hlate]
    exact h.calcOperation_l1Hit ha op hb₁
  by_cases hb₂ : Resident cfg.hierarchy.set₂ m.order₂ (cfg.block a)
  · have hlook := lookup_eq_l2Hit.mpr ⟨hb₁, hb₂⟩
    have hlate : m.accessLate cfg.hierarchy op (cfg.block a) =
        m.hit₂Late cfg.hierarchy op (cfg.block a) := if_pos hlook
    refine Or.inr ⟨fun hstr => Outcome.noConfusion (hlook.symm.trans hstr.1), ?_⟩
    rw [hlook, hlate]
    exact h.calcOperation_l2Hit ha op hb₁ hb₂
  · have hlook : m.lookup cfg.hierarchy (cfg.block a) = .miss := by
      rw [Contents.lookup, if_neg hb₁, if_neg hb₂]
    have hlate : m.accessLate cfg.hierarchy op (cfg.block a) =
        m.miss cfg.hierarchy op (cfg.block a) := by
      rw [Contents.accessLate, Contents.access, hlook]
      rfl
    rw [hlook, hlate]
    exact h.calcOperation_miss ha op hlook hb₁ hb₂

end Refines

/-- A trace as `main` reads it. -/
def operations (trace : List (Op × Nat)) : List (Char × Nat) :=
  trace.map fun a => (opChar a.1, a.2)

/-- A run of the simulator is a run of the hierarchy with late uses. -/
theorem Refines.run :
    ∀ (trace : List (Op × Nat)) {s : Memory cfg} {m : Contents Nat Nat Nat}, Refines s m →
      (∀ a ∈ trace, a.2 < uint32Size) →
      (m.runLate cfg.hierarchy (cfg.blocks trace) = none →
        s.run (operations trace) = .error .uninitialised) ∧
      ∀ r, m.runLate cfg.hierarchy (cfg.blocks trace) = some r →
        ∃ s', s.run (operations trace) = .ok (r.1, s') ∧ Counted s s' r.1 ∧ Refines s' r.2
  | [], s, m, h, _ => by
      refine ⟨fun hnone => absurd hnone (Option.some_ne_none _), fun r hr => ?_⟩
      cases hr
      exact ⟨s, rfl, Counted.nil s, h⟩
  | a :: rest, s, m, h, haddr => by
      have ha := haddr a (List.mem_cons_self ..)
      have hout := h.outcome_eq a.2
      change (Contents.runLate cfg.hierarchy ((a.1, cfg.block a.2) :: cfg.blocks rest) m = none →
          s.run ((opChar a.1, a.2) :: operations rest) = _) ∧
        ∀ r, Contents.runLate cfg.hierarchy ((a.1, cfg.block a.2) :: cfg.blocks rest) m = some r →
          ∃ s', s.run ((opChar a.1, a.2) :: operations rest) = _ ∧ _
      rw [Contents.runLate, Memory.run]
      rcases h.calcOperation ha a.1 with ⟨hstr, hcalc⟩ | ⟨hstay, s₁, hcalc, hcnt₁, h₁⟩
      · rw [if_pos hstr, hcalc]
        exact ⟨fun _ => rfl, fun r hr => absurd hr.symm (Option.some_ne_none r)⟩
      · rw [if_neg hstay, hcalc, hout]
        obtain ⟨hfail, hok⟩ := run rest h₁ fun b hb => haddr b (List.mem_cons_of_mem _ hb)
        refine ⟨fun hnone => ?_, fun r hr => ?_⟩
        · simp only [hfail (Option.map_eq_none_iff.mp hnone), bind, Except.bind]
        · obtain ⟨r', hr', rfl⟩ := Option.map_eq_some_iff.mp hr
          obtain ⟨s', hrun, hcnt, href⟩ := hok r' hr'
          refine ⟨s', ?_, hcnt₁.cons hcnt, href⟩
          simp only [hrun, bind, Except.bind, pure, Except.pure]

/-! ## What a run computes -/

/-- The blocks in the ways of a row. -/
def Cache.blocks {g : Geometry} (c : Cache g) (row : Nat) : List Nat :=
  ((List.range g.numOfWays).filter fun i => (c.data row i).2 != .doesntExist).map fun i =>
    blockIn g row (c.data row i)

theorem LevelHolds.blocks_perm {g : Geometry} {c : Cache g} {order : Nat → List Nat}
    {dirty : Nat → Bool} (h : LevelHolds c order dirty) (row : Nat) :
    c.lruVector row = (order row).reverse ∧ (c.blocks row).Perm (order row) := by
  obtain ⟨ws, hws⟩ := h row
  refine ⟨hws.lru_eq, ?_⟩
  have hperm : ((List.range g.numOfWays).filter fun i =>
      (c.data row i).2 != .doesntExist).Perm ws := by
    refine (List.perm_ext_iff_of_nodup (List.nodup_range.filter _) hws.holds.order.nodup).mpr
      fun i => ?_
    rw [List.mem_filter, List.mem_range, hws.holds.order.mem_iff]
  rw [← hws.holds.keys]
  exact hperm.map _

/-- The sum of the access times, from the counters. -/
theorem totalTime_eq {s s' : Memory cfg} {os : List Outcome} (h : Counted s s' os)
    (h1 : s.accessCountL1 = 0#32) (h2 : s.accessCountL2 = 0#32) (hm : s.accessCountMem = 0#32) :
    s'.totalTime = BitVec.ofNat 32 (os.map cfg.time).sum := by
  obtain ⟨hlen, hmiss⟩ := RoySim.outcome_counts os
  have hsum : (os.map cfg.time).sum = os.length * cfg.l1Cyc +
      os.countP (· ≠ .l1Hit) * cfg.l2Cyc + os.countP (· = .miss) * cfg.memCyc := by
    rw [RoySim.time_eq, hlen, hmiss]
    ring
  rw [Memory.totalTime, h.l1Access, h.l2Access, h.mem, h1, h2, hm, BitVec.zero_add,
    BitVec.zero_add, BitVec.zero_add, hsum]
  simp only [BitVec.ofNat_add, BitVec.ofNat_mul]

/-- A run ends in the uninitialised `set` if and only if some access, after
accesses that have not, makes L2 give up a block that L1 holds. -/
theorem fails_iff_strands (cfg : Config) (trace : List (Op × Nat))
    (haddr : ∀ a ∈ trace, a.2 < 2 ^ 32) :
    (Memory.new cfg).run (operations trace) = .error .uninitialised ↔
      ∃ pre a post os m, trace = pre ++ a :: post ∧
        Contents.empty.runLate cfg.hierarchy (cfg.blocks pre) = some (os, m) ∧
        m.Strands cfg.hierarchy a.1 (cfg.block a.2) := by
  obtain ⟨hfail, hok⟩ := (Refines.new cfg).run trace haddr
  have hiff : (Memory.new cfg).run (operations trace) = .error .uninitialised ↔
      Contents.empty.runLate cfg.hierarchy (cfg.blocks trace) = none := by
    refine ⟨fun herr => ?_, hfail⟩
    cases hlate : Contents.empty.runLate cfg.hierarchy (cfg.blocks trace) with
    | none => rfl
    | some r =>
        obtain ⟨s, hrun, -⟩ := hok r hlate
        rw [hrun] at herr
        exact absurd herr (by simp)
  rw [hiff, Contents.runLate_eq_none_iff]
  constructor
  · rintro ⟨pre, b, post, ⟨os, m⟩, hsplit, hrun, hstr⟩
    obtain ⟨pre', rest, rfl, rfl, hrest⟩ := List.map_eq_append_iff.mp hsplit
    obtain ⟨a, post', rfl, rfl, -⟩ := List.map_eq_cons_iff.mp hrest
    exact ⟨pre', a, post', os, m, rfl, hrun, hstr⟩
  · rintro ⟨pre, a, post, os, m, rfl, hrun, hstr⟩
    exact ⟨cfg.blocks pre, (a.1, cfg.block a.2), cfg.blocks post, (os, m), List.map_append ..,
      hrun, hstr⟩

/-- L2 gives up block 2, which L1 holds, because block 0 has been written back
later. -/
theorem fails_iff_strands_smallConfig :
    (Memory.new CacheSim.smallConfig).run (operations [(.write, 0), (.write, 8), (.read, 16)]) =
      .error .uninitialised :=
  (fails_iff_strands CacheSim.smallConfig [(.write, 0), (.write, 8), (.read, 16)]
    (by decide)).mpr
    ⟨[(.write, 0), (.write, 8)], (.read, 16), [], _, _, rfl, rfl, by decide⟩

/-- A run that does not fail finds what the hierarchy with late uses finds.
The vector of every row lists the blocks in the ways of the row, each once and
the most recently used one last, and L2 holds what L1 holds. -/
theorem run_refines_late (cfg : Config) (trace : List (Op × Nat))
    (haddr : ∀ a ∈ trace, a.2 < 2 ^ 32) :
    (Memory.new cfg).run (operations trace) = .error .uninitialised ∨
      ∃ os m s, Contents.empty.runLate cfg.hierarchy (cfg.blocks trace) = some (os, m) ∧
        (Memory.new cfg).run (operations trace) = .ok (os, s) ∧
        Inclusive cfg.hierarchy m ∧
        (∀ row, s.L1cache.lruVector row = (m.order₁ row).reverse ∧
          (s.L1cache.blocks row).Perm (m.order₁ row)) ∧
        (∀ row, s.L2cache.lruVector row = (m.order₂ row).reverse ∧
          (s.L2cache.blocks row).Perm (m.order₂ row)) ∧
        s.accessCountL1 = BitVec.ofNat 32 trace.length ∧
        s.missCountL1 = BitVec.ofNat 32 (os.countP (· ≠ .l1Hit)) ∧
        s.accessCountL2 = s.missCountL1 ∧
        s.missCountL2 = BitVec.ofNat 32 (os.countP (· = .miss)) ∧
        s.totalTime = BitVec.ofNat 32 (os.map cfg.time).sum := by
  obtain ⟨hfail, hok⟩ := (Refines.new cfg).run trace haddr
  cases hlate : Contents.empty.runLate cfg.hierarchy (cfg.blocks trace) with
  | none => exact Or.inl (hfail hlate)
  | some r =>
      obtain ⟨s, hrun, hcnt, href⟩ := hok r hlate
      obtain ⟨d, h2⟩ := href.level2
      have hlen := Contents.length_runLate hlate
      rw [Config.blocks, List.length_map] at hlen
      refine Or.inr ⟨r.1, r.2, s, rfl, hrun, href.incl, href.level1.blocks_perm, h2.blocks_perm,
        ?_, ?_, ?_, ?_, totalTime_eq hcnt rfl rfl rfl⟩
      · rw [hcnt.l1Access, hlen]
        exact BitVec.zero_add _
      · rw [hcnt.l1Miss]
        exact BitVec.zero_add _
      · rw [hcnt.l1Miss, hcnt.l2Access]
        rfl
      · rw [hcnt.l2Miss]
        exact BitVec.zero_add _

/-- The write-back of block 2 makes it older in L2 than block 0. -/
theorem run_refines_late_smallTrace :
    ∃ s, (Memory.new CacheSim.smallConfig).run (operations CacheSim.smallTrace) =
      .ok ([.miss, .miss, .l2Hit, .miss, .miss], s) ∧ s.accessCountL2 = s.missCountL1 := by
  have hlate : (Contents.empty.runLate CacheSim.smallConfig.hierarchy
      (CacheSim.smallConfig.blocks CacheSim.smallTrace)).map Prod.fst =
      some [.miss, .miss, .l2Hit, .miss, .miss] := by decide
  rcases run_refines_late CacheSim.smallConfig CacheSim.smallTrace CacheSim.smallTrace_lt with
    herr | ⟨os, m, s, hm, hrun, -, -, -, -, -, hacc, -⟩
  · have hrun : ((Memory.new CacheSim.smallConfig).run
        (operations CacheSim.smallTrace)).isOk = true := rfl
    rw [herr] at hrun
    exact absurd hrun Bool.false_ne_true
  · rw [hm] at hlate
    obtain rfl := Option.some.inj hlate
    exact ⟨s, hrun, hacc⟩

/-! ## Agreement -/

/-- The outcomes decide the counters of both programs. -/
theorem counters_eq {c : CacheSim.Cache cfg} {s : Memory cfg} {os : List Outcome}
    (h : CacheSim.Counted (CacheSim.Cache.new cfg) c os) (h' : Counted (Memory.new cfg) s os) :
    s.accessCountL1 = BitVec.ofNat 32 c.L1.accessCount ∧
      s.missCountL1 = BitVec.ofNat 32 c.L1.missCount ∧
      s.accessCountL2 = BitVec.ofNat 32 c.L2.accessCount ∧
      s.missCountL2 = BitVec.ofNat 32 c.L2.missCount ∧
      s.totalTime = BitVec.ofNat 32 c.tAccessTotal := by
  have hzero : ∀ n, 0 + n = n := Nat.zero_add
  refine ⟨?_, ?_, ?_, ?_, ?_⟩
  · rw [h'.l1Access, h.l1Access]
    exact (BitVec.zero_add _).trans (congrArg _ (hzero _).symm)
  · rw [h'.l1Miss, h.l1Miss]
    exact (BitVec.zero_add _).trans (congrArg _ (hzero _).symm)
  · rw [h'.l2Access, h.l2Access]
    exact (BitVec.zero_add _).trans (congrArg _ (hzero _).symm)
  · rw [h'.l2Miss, h.l2Miss]
    exact (BitVec.zero_add _).trans (congrArg _ (hzero _).symm)
  · rw [totalTime_eq h' rfl rfl rfl, h.time]
    exact congrArg _ (hzero _).symm

/-- Where L2 has room for the blocks of the trace the model of the other two
programs is the model of this one. -/
theorem runLate_of_fits (cfg : Config) {trace : List (Op × Nat)}
    (hfits : cfg.hierarchy.Fits₂ (trace.map fun a => cfg.block a.2).toFinset) :
    ∃ m, Contents.empty.runLate cfg.hierarchy (cfg.blocks trace) = some ((cfg.lru trace).1, m) := by
  have hkeeps : Contents.empty.KeepsAll cfg.hierarchy (cfg.blocks trace) := by
    refine Contents.keepsAll_of_fits hfits (fun c hc => absurd hc List.not_mem_nil)
      (Inclusive.empty _) fun a ha => ?_
    rw [← CacheSim.map_snd_blocks, List.mem_toFinset]
    exact List.mem_map_of_mem ha
  obtain ⟨m, hrun, -⟩ := hkeeps.runLate (SameBlocks.refl _) (Inclusive.empty _) (Inclusive.empty _)
  exact ⟨m, hrun⟩

/-- To look at every place of a list is to look at every index. -/
theorem forall_split {α : Type} {l : List α} {P : List α → α → Prop}
    (h : ∀ i (hi : i < l.length), P (l.take i) l[i]) :
    ∀ pre a post, l = pre ++ a :: post → P pre a := by
  rintro pre a post rfl
  have hsplit := h pre.length (by rw [List.length_append, List.length_cons]; omega)
  simpa using hsplit

end ShellySim

end ArchSim
