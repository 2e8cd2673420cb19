import ArchSim.RoySim

/-!
# LRU ranks as recency lists

How the ranked ways of `cacheSimRoy.cpp` stand for recency lists: in
every set the valid ways, listed by their ranks 1, 2, 3, ..., hold the
blocks of the recency list. The lemmas parallel those of
`ArchSim.CacheOrder`, set by set and then for a whole level.
-/

namespace ArchSim

namespace RoySim

open CacheSim (Config Geometry)

/-! ## Masks and shifts -/

theorem createMask_eq (b : Nat) : ∀ k, b + k ≤ 32 → createMask b k = (2 ^ k - 1) <<< b
  | 0, _ => by simp [createMask]
  | k + 1, h => by
      have ih := createMask_eq b k (by omega)
      have hpow : 2 ^ (b + k) < uint32Size := Nat.pow_lt_pow_right (by decide) (by omega)
      have hsum : (2 ^ k - 1) * 2 ^ b + 2 ^ (b + k) = (2 ^ (k + 1) - 1) * 2 ^ b := by
        have := Nat.one_le_two_pow (n := k)
        rw [Nat.add_comm b k, Nat.pow_add 2 k b, ← Nat.add_mul, Nat.pow_succ]
        congr 1
        omega
      have hlt : (2 ^ (k + 1) - 1) * 2 ^ b < uint32Size := by
        have h1 : 2 ^ (k + 1) * 2 ^ b ≤ uint32Size := by
          rw [← Nat.pow_add]
          exact Nat.pow_le_pow_right (by decide) (by omega)
        refine Nat.lt_of_lt_of_le ((Nat.mul_lt_mul_right (Nat.two_pow_pos b)).mpr ?_) h1
        have := Nat.two_pow_pos (k + 1)
        omega
      unfold createMask at *
      rw [List.range'_concat, List.foldl_append, ih, List.foldl_cons, List.foldl_nil,
        Nat.one_mul, Nat.one_shiftLeft, Nat.mod_eq_of_lt hpow, Nat.shiftLeft_eq, hsum,
        Nat.mod_eq_of_lt hlt, Nat.shiftLeft_eq]

/-- Masking out the set bits in place and shifting them down. -/
theorem set_bits (num : Nat) {b k : Nat} (h : b + k ≤ 32) (hk : k < 32) :
    ((num &&& createMask b k) >>> b) % uint32Size = (num >>> b) % 2 ^ k := by
  rw [createMask_eq b k h, Nat.shiftRight_and_distrib, Nat.shiftLeft_shiftRight,
    Nat.and_two_pow_sub_one_eq_mod]
  refine Nat.mod_eq_of_lt (Nat.lt_trans (Nat.mod_lt _ (Nat.two_pow_pos k)) ?_)
  exact Nat.pow_lt_pow_right (by decide) hk

theorem l1Levels_eq (cfg : Config) : l1Levels cfg = cfg.geom1.numOfSets := by
  have h := cfg.l1_fits
  unfold l1Levels Geometry.numOfSets Geometry.numOfBlocks
  rw [Nat.pow_div (show cfg.bSize ≤ cfg.l1Size by omega) (by decide)]
  rfl

theorem l2Levels_eq (cfg : Config) : l2Levels cfg = cfg.geom2.numOfSets := by
  have h := cfg.l2_fits
  unfold l2Levels Geometry.numOfSets Geometry.numOfBlocks
  rw [Nat.pow_div (show cfg.bSize ≤ cfg.l2Size by omega) (by decide)]
  rfl

/-- Set and tag of an address, for a level of the given geometry. -/
theorem set_tag_eq (g : Geometry) {num : Nat} (h : num < uint32Size) :
    ((num &&& createMask g.blockSizeLog (Nat.log2 g.numOfSets)) >>> g.blockSizeLog) % uint32Size =
        g.setOf (g.block num) ∧
      (num >>> (g.blockSizeLog + Nat.log2 g.numOfSets)) % uint32Size =
        g.block num / g.numOfSets := by
  have hfits := g.fits
  have hle := g.le_30
  have hlog : g.blockSizeLog + g.setsLog ≤ 32 := by
    unfold Geometry.setsLog
    omega
  have hlog' : g.setsLog < 32 := by
    unfold Geometry.setsLog
    omega
  constructor
  · rw [g.log2_numOfSets, set_bits num hlog hlog', Geometry.setOf, Geometry.block,
      g.numOfSets_eq]
  · rw [g.log2_numOfSets, Nat.shiftRight_add, Nat.shiftRight_eq_div_pow _ g.setsLog,
      ← g.numOfSets_eq]
    refine Nat.mod_eq_of_lt (Nat.lt_of_le_of_lt (Nat.div_le_self ..) ?_)
    rw [Nat.shiftRight_eq_div_pow]
    exact Nat.lt_of_le_of_lt (Nat.div_le_self ..) h

/-- The line rebuilt from the tag and set of a block is the block. -/
theorem fullLine_eq (g : Geometry) {tag s : Nat}
    (h : tag * g.numOfSets + s < uint32Size) :
    ((tag <<< Nat.log2 g.numOfSets) % uint32Size + s) % uint32Size =
      tag * g.numOfSets + s := by
  rw [g.log2_numOfSets, Nat.shiftLeft_eq, ← g.numOfSets_eq,
    Nat.mod_eq_of_lt (Nat.lt_of_le_of_lt (Nat.le_add_right ..) h), Nat.mod_eq_of_lt h]

theorem line_div_mod (g : Geometry) (tag : Nat) {s : Nat} (hs : s < g.numOfSets) :
    g.setOf (tag * g.numOfSets + s) = s ∧ (tag * g.numOfSets + s) / g.numOfSets = tag := by
  constructor
  · rw [Geometry.setOf, Nat.add_comm, Nat.add_mul_mod_self_right, Nat.mod_eq_of_lt hs]
  · rw [Nat.add_comm, Nat.add_mul_div_right _ _ g.numOfSets_pos, Nat.div_eq_of_lt hs,
      Nat.zero_add]

/-- Set and tag of a line number. -/
theorem line_set_tag (g : Geometry) (b : Nat) :
    b &&& createMask 0 (Nat.log2 g.numOfSets) = g.setOf b ∧
      b >>> Nat.log2 g.numOfSets = b / g.numOfSets := by
  have hlog : 0 + g.setsLog ≤ 32 := by
    have := g.le_30
    unfold Geometry.setsLog
    omega
  rw [g.log2_numOfSets, createMask_eq 0 _ hlog, Nat.shiftLeft_zero,
    Nat.and_two_pow_sub_one_eq_mod, Nat.shiftRight_eq_div_pow, ← g.numOfSets_eq]
  exact ⟨rfl, rfl⟩

/-! ## What the loops change -/

theorem updateLRU_tag (ways : Nat → Way) (limit assoc i : Nat) :
    (updateLRU ways limit assoc i).tag = (ways i).tag := by
  unfold updateLRU
  split
  · split
    · rfl
    · split <;> rfl
  · rfl

theorem updateLRU_validBit (ways : Nat → Way) (limit assoc i : Nat) :
    (updateLRU ways limit assoc i).validBit = (ways i).validBit := by
  unfold updateLRU
  split
  · split
    · rfl
    · split <;> rfl
  · rfl

theorem updateLRU_dirty (ways : Nat → Way) (limit assoc i : Nat) :
    (updateLRU ways limit assoc i).dirty = (ways i).dirty := by
  unfold updateLRU
  split
  · split
    · rfl
    · split <;> rfl
  · rfl

theorem updateLRU_lru (ways : Nat → Way) (limit : Nat) {assoc i : Nat} (hi : i < assoc)
    (hv : (ways i).validBit = true) :
    (updateLRU ways limit assoc i).lru =
      if (ways i).lru = limit then 1
      else if (ways i).lru < limit then (ways i).lru + 1 else (ways i).lru := by
  unfold updateLRU
  rw [if_pos ⟨hi, hv⟩]
  split
  · rfl
  · split <;> rfl

theorem updateLRUforEvac_eq (ways : Nat → Way) (limit assoc i : Nat) :
    updateLRUforEvac ways limit assoc i =
      { ways i with lru := (updateLRUforEvac ways limit assoc i).lru } := by
  unfold updateLRUforEvac
  split <;> rfl

/-! ## One set -/

/-- A valid way of set `s`. -/
structure WayOK (g : Geometry) (s : Nat) (dirty : Nat → Bool) (w : Way) : Prop where
  set_lt : s < g.numOfSets
  block_lt : w.tag * g.numOfSets + s < uint32Size
  dirty_eq : w.dirty = dirty (w.tag * g.numOfSets + s)

/-- The ways `ws` of set `s`, in the order of their ranks, hold the
recency list `l`. -/
structure RankOrder (g : Geometry) (s : Nat) (dirty : Nat → Bool) (ways : Nat → Way)
    (ws l : List Nat) : Prop where
  holds : Holds g.numOfWays (fun i => (ways i).validBit)
    (fun i => (ways i).tag * g.numOfSets + s) ws l
  ranked : Ranked (fun i => (ways i).lru) 1 ws
  wayOK : ∀ i ∈ ws, WayOK g s dirty (ways i)

namespace RankOrder

variable {g : Geometry} {s : Nat} {dirty : Nat → Bool} {ways : Nat → Way} {ws l : List Nat}

theorem mem_lt (h : RankOrder g s dirty ways ws l) {i : Nat} (hi : i ∈ ws) :
    i < g.numOfWays ∧ (ways i).validBit = true :=
  (h.holds.order.mem_iff i).mp hi

theorem congr_dirty (h : RankOrder g s dirty ways ws l) {dirty' : Nat → Bool}
    (hd : ∀ b ∈ l, dirty' b = dirty b) : RankOrder g s dirty' ways ws l :=
  { h with
    wayOK := fun i hi => { h.wayOK i hi with
      dirty_eq := (h.wayOK i hi).dirty_eq.trans
        (hd _ (by rw [← h.holds.keys]; exact List.mem_map_of_mem hi)).symm } }

/-- Renumbering after a use. -/
theorem use (h : RankOrder g s dirty ways ws l) (hl : l.Nodup) {i : Nat} (hi : i ∈ ws) :
    RankOrder g s dirty (updateLRU ways (ways i).lru g.numOfWays) (toFront i ws)
      (toFront ((ways i).tag * g.numOfSets + s) l) where
  holds := (h.holds.touch hl hi).congr (fun j => updateLRU_validBit ..)
    (fun j => by rw [updateLRU_tag])
  ranked := by
    refine h.ranked.touch h.holds.order.nodup hi ?_ ?_ ?_
    · rw [updateLRU_lru _ _ (h.mem_lt hi).1 (h.mem_lt hi).2, if_pos rfl]
    · intro j hj hlt
      rw [updateLRU_lru _ _ (h.mem_lt hj).1 (h.mem_lt hj).2, if_neg (by omega), if_pos hlt]
    · intro j hj hgt
      rw [updateLRU_lru _ _ (h.mem_lt hj).1 (h.mem_lt hj).2, if_neg (by omega),
        if_neg (by omega)]
  wayOK := fun j hj => by
    have hok := h.wayOK j ((mem_toFront hi).mp hj)
    refine ⟨hok.set_lt, ?_, ?_⟩
    · rw [updateLRU_tag]
      exact hok.block_lt
    · rw [updateLRU_tag, updateLRU_dirty]
      exact hok.dirty_eq

/-- Setting the dirty flag of a listed way. -/
theorem markDirty (h : RankOrder g s dirty ways ws l) (hl : l.Nodup) {i : Nat} (hi : i ∈ ws) :
    RankOrder g s (Function.update dirty ((ways i).tag * g.numOfSets + s) true)
      (Function.update ways i { ways i with dirty := true }) ws l where
  holds := by
    refine h.holds.congr (fun j => ?_) (fun j => ?_) <;>
      rcases eq_or_ne j i with rfl | hj <;> simp [*]
  ranked := h.ranked.congr fun j _ => by
    rcases eq_or_ne j i with rfl | hj <;> simp [*]
  wayOK := fun j hj => by
    have hok := h.wayOK j hj
    rcases eq_or_ne j i with rfl | hne
    · refine ⟨hok.set_lt, ?_, ?_⟩ <;> simp [hok.block_lt]
    · have hkey := fun heq => hne (h.holds.key_inj hl hj hi heq)
      rw [Function.update_of_ne hne]
      exact ⟨hok.set_lt, hok.block_lt, by rw [Function.update_of_ne hkey]; exact hok.dirty_eq⟩

/-- Filling a victim way. -/
theorem insert (h : RankOrder g s dirty ways ws l) {i : Nat}
    (hi : Holds.Victim g.numOfWays (fun i => (ways i).validBit) ws i) {tag : Nat}
    (hs : s < g.numOfSets) (hlt : tag * g.numOfSets + s < uint32Size)
    (hb : tag * g.numOfSets + s ∉ l) (op : Op) :
    RankOrder g s (Function.update dirty (tag * g.numOfSets + s) (op == .write))
      (insertToSlot ways tag i op g.numOfWays) (toFront i ws)
      ((tag * g.numOfSets + s) :: makeRoom g.numOfWays l) where
  holds := by
    refine h.holds.fill hi ?_ ?_ (fun j hj => ?_) (fun j hj => ?_) <;>
      simp [insertToSlot, updateLRU_validBit, updateLRU_tag, *]
  ranked := by
    -- What stays has a rank below `assoc`, so the loop moves all of it up.
    have hkeep : Ranked (fun i => (ways i).lru) 1 (ws.erase i) := by
      rw [Holds.Victim.erase_eq h.holds.order hi]
      exact h.ranked.makeRoom
    have hlen : (ws.erase i).length < g.numOfWays := by
      rw [Holds.Victim.erase_eq h.holds.order hi]
      exact length_makeRoom_lt g.numOfWays_pos h.holds.order.length_le
    refine ⟨?_, hkeep.up ?_⟩
    · have hv : (Function.update ways i
          ({ tag := tag, validBit := true, dirty := op == .write, lru := g.numOfWays } : Way)
            i).validBit = true := by simp
      show (insertToSlot ways tag i op g.numOfWays i).lru = 1
      rw [insertToSlot, updateLRU_lru _ _ hi.1 hv]
      simp
    · intro j hj
      have hj' : j ∈ ws := List.mem_of_mem_erase hj
      have hne : j ≠ i := fun heq => h.holds.order.nodup.not_mem_erase (heq ▸ hj)
      have hrank := hkeep.bounds j hj
      rw [insertToSlot, updateLRU_lru _ _ (h.mem_lt hj').1
        (by rw [Function.update_of_ne hne]; exact (h.mem_lt hj').2),
        Function.update_of_ne hne, if_neg (by omega), if_pos (by omega)]
  wayOK := fun j hj => by
    rcases eq_or_ne j i with rfl | hne
    · refine ⟨hs, ?_, ?_⟩ <;> simp [insertToSlot, updateLRU_tag, updateLRU_dirty, hlt]
    · have hj' : j ∈ ws := List.mem_of_mem_erase ((List.mem_cons.mp hj).resolve_left hne)
      have hok := h.wayOK j hj'
      have hkey : (ways j).tag * g.numOfSets + s ≠ tag * g.numOfSets + s := fun heq =>
        hb (by rw [← heq, ← h.holds.keys]; exact List.mem_map_of_mem hj')
      refine ⟨hs, ?_, ?_⟩
      · rw [insertToSlot, updateLRU_tag, Function.update_of_ne hne]
        exact hok.block_lt
      · rw [insertToSlot, updateLRU_tag, updateLRU_dirty, Function.update_of_ne hne,
          Function.update_of_ne hkey]
        exact hok.dirty_eq

/-- Invalidating a listed way and closing the gap in the ranks. -/
theorem evac (h : RankOrder g s dirty ways ws l) (hl : l.Nodup) {i : Nat} (hi : i ∈ ws) :
    RankOrder g s dirty
      (updateLRUforEvac (Function.update ways i { ways i with validBit := false })
        (ways i).lru g.numOfWays)
      (ws.erase i) (l.erase ((ways i).tag * g.numOfSets + s)) where
  holds := by
    refine h.holds.drop hl hi ?_ ?_ ?_
    · rw [updateLRUforEvac_eq]
      simp
    · intro j hj
      rw [updateLRUforEvac_eq]
      simp [hj]
    · intro j
      rw [updateLRUforEvac_eq]
      rcases eq_or_ne j i with rfl | hj <;> simp [*]
  ranked := by
    have hother : ∀ {j}, j ∈ ws → (ways j).lru ≠ (ways i).lru → j ≠ i := fun {j} _ hne heq =>
      hne (by rw [heq])
    refine h.ranked.drop h.holds.order.nodup hi ?_ ?_
    · intro j hj hlt
      have hne := hother hj (by omega)
      rw [updateLRUforEvac, Function.update_of_ne hne, if_neg (by omega)]
    · intro j hj hgt
      have hne := hother hj (by omega)
      rw [updateLRUforEvac, Function.update_of_ne hne,
        if_pos ⟨(h.mem_lt hj).1, (h.mem_lt hj).2, hgt⟩]
  wayOK := fun j hj => by
    have hne : j ≠ i := fun heq => h.holds.order.nodup.not_mem_erase (heq ▸ hj)
    have hok := h.wayOK j (List.mem_of_mem_erase hj)
    rw [updateLRUforEvac_eq, Function.update_of_ne hne]
    exact ⟨hok.set_lt, hok.block_lt, hok.dirty_eq⟩

/-- `emptySlot` and `getLRU` between them find a victim. -/
theorem victim (h : RankOrder g s dirty ways ws l) :
    (∃ i, emptySlot ways g.numOfWays = some i ∧ (ways i).validBit = false ∧
        Holds.Victim g.numOfWays (fun i => (ways i).validBit) ws i) ∨
    (emptySlot ways g.numOfWays = none ∧
      ∃ i, getLRU ways g.numOfWays = some i ∧ i ∈ ws ∧
        Holds.Victim g.numOfWays (fun i => (ways i).validBit) ws i) := by
  cases hempty : emptySlot ways g.numOfWays with
  | some i =>
      have hi : i < g.numOfWays := List.mem_range.mp (List.mem_of_find?_eq_some hempty)
      have hv : (ways i).validBit = false := by simpa using List.find?_some hempty
      exact Or.inl ⟨i, rfl, hv, hi, Or.inl hv⟩
  | none =>
      have hall : ∀ i < g.numOfWays, (ways i).validBit = true := fun i hi => by
        simpa using List.find?_eq_none.mp hempty i (List.mem_range.mpr hi)
      have hfull := h.holds.order.full_iff.mpr hall
      have hlen : ws.length = g.numOfWays := Nat.le_antisymm h.holds.order.length_le hfull
      have hlast : ∃ k ∈ ws, (ways k).lru = ws.length := by
        rcases List.eq_nil_or_concat ws with rfl | ⟨xs, x, rfl⟩
        · have := g.numOfWays_pos
          simp only [List.length_nil] at hlen
          omega
        · refine ⟨x, by simp, ?_⟩
          have hranked := h.ranked
          rw [List.concat_eq_append] at hranked
          obtain ⟨-, hr, -⟩ := Ranked.append.mp hranked
          change (ways x).lru = 1 + xs.length at hr
          rw [List.length_concat]
          omega
      cases hget : getLRU ways g.numOfWays with
      | none =>
          obtain ⟨k, hk, hrk⟩ := hlast
          have := List.find?_eq_none.mp hget k (List.mem_range.mpr (h.mem_lt hk).1)
          rw [hrk, hlen] at this
          simp at this
      | some i =>
          have hi : i < g.numOfWays := List.mem_range.mp (List.mem_of_find?_eq_some hget)
          have hmem : i ∈ ws := (h.holds.order.mem_iff i).mpr ⟨hi, hall i hi⟩
          have hr : (ways i).lru = ws.length := by
            rw [hlen]
            simpa using List.find?_some hget
          exact Or.inr ⟨rfl, i, rfl, hmem, hi, Or.inr ⟨hfull, h.ranked.getLast?_of_rank hmem hr⟩⟩

theorem searchCache_eq_none (h : RankOrder g s dirty ways ws l) {b : Nat} (hs : g.setOf b = s)
    (hb : b ∉ l) : searchCache ways g.numOfWays (b / g.numOfSets) = none := by
  refine List.find?_eq_none.mpr fun i hi => ?_
  simp only [Bool.and_eq_true, beq_iff_eq, not_and]
  intro htag hv
  refine hb (h.holds.mem_iff.mpr ⟨i, List.mem_range.mp hi, hv, ?_⟩)
  rw [htag, ← hs]
  exact Nat.div_add_mod' b g.numOfSets

theorem searchCache_eq_some (h : RankOrder g s dirty ways ws l) (hl : l.Nodup) {b : Nat}
    (hs : g.setOf b = s) (hb : b ∈ l) :
    ∃ i ∈ ws, searchCache ways g.numOfWays (b / g.numOfSets) = some i ∧
      (ways i).tag * g.numOfSets + s = b := by
  obtain ⟨i, hi, hv, hkey⟩ := h.holds.mem_iff.mp hb
  have hmem : i ∈ ws := (h.holds.order.mem_iff i).mpr ⟨hi, hv⟩
  have hb' : b / g.numOfSets * g.numOfSets + s = b := hs ▸ Nat.div_add_mod' b g.numOfSets
  refine ⟨i, hmem, CacheSim.CacheLevel.find?_range hi ?_ fun j hj hpj => ?_, hkey⟩
  · have htag : (ways i).tag = b / g.numOfSets :=
      Nat.eq_of_mul_eq_mul_right g.numOfSets_pos (by omega)
    simp [htag, hv]
  · simp only [Bool.and_eq_true, beq_iff_eq] at hpj
    refine h.holds.key_inj hl ((h.holds.order.mem_iff j).mpr ⟨hj, hpj.2⟩) hmem ?_
    rw [hpj.1, hkey, hb']

end RankOrder

/-! ## One level -/

/-- Every set of the level holds its recency list. -/
def LevelRank (g : Geometry) (L : Nat → Nat → Way) (order : Nat → List Nat)
    (dirty : Nat → Bool) : Prop :=
  ∀ s, ∃ ws, RankOrder g s dirty (L s) ws (order s)

namespace LevelRank

variable {g : Geometry} {L : Nat → Nat → Way} {order : Nat → List Nat} {dirty : Nat → Bool}

theorem init (g : Geometry) (mem : Nat → Nat → Way) (dirty : Nat → Bool) :
    LevelRank g (fun s i => { mem s i with validBit := false }) (fun _ => []) dirty := fun _ =>
  ⟨[], ⟨⟨⟨List.nodup_nil, fun i => by simp⟩, rfl⟩, trivial,
    fun _ hi => absurd hi List.not_mem_nil⟩⟩

/-- New ways for one set concern that set only. -/
theorem setWays (h : LevelRank g L order dirty) (hlists : Lists g.setOf g.numOfWays order)
    {s : Nat} {ways : Nat → Way} {dirty' : Nat → Bool} {ws l : List Nat}
    (hd : ∀ b, g.setOf b ≠ s → dirty' b = dirty b) (hset : RankOrder g s dirty' ways ws l) :
    LevelRank g (Function.update L s ways) (Function.update order s l) dirty' := by
  intro t
  rcases eq_or_ne t s with rfl | hts
  · refine ⟨ws, ?_⟩
    rw [Function.update_self, Function.update_self]
    exact hset
  · obtain ⟨ws', hws'⟩ := h t
    refine ⟨ws', ?_⟩
    rw [Function.update_of_ne hts, Function.update_of_ne hts]
    exact hws'.congr_dirty fun b hb => hd b (by rw [hlists.set_eq t b hb]; exact hts)

/-- Way `i` of its set is the one that holds `b`. -/
def WayOf (g : Geometry) (L : Nat → Nat → Way) (order : Nat → List Nat) (dirty : Nat → Bool)
    (b i : Nat) : Prop :=
  (L (g.setOf b) i).tag * g.numOfSets + g.setOf b = b ∧
    ∃ ws, i ∈ ws ∧ RankOrder g (g.setOf b) dirty (L (g.setOf b)) ws (order (g.setOf b))

theorem searchCache_eq_none (h : LevelRank g L order dirty) {b : Nat}
    (hb : ¬Resident g.setOf order b) :
    searchCache (L (g.setOf b)) g.numOfWays (b / g.numOfSets) = none := by
  obtain ⟨ws, hws⟩ := h (g.setOf b)
  exact hws.searchCache_eq_none rfl hb

theorem searchCache_eq_some (h : LevelRank g L order dirty)
    (hlists : Lists g.setOf g.numOfWays order) {b : Nat} (hb : Resident g.setOf order b) :
    ∃ i, searchCache (L (g.setOf b)) g.numOfWays (b / g.numOfSets) = some i ∧
      WayOf g L order dirty b i := by
  obtain ⟨ws, hws⟩ := h (g.setOf b)
  obtain ⟨i, hi, hfind, hkey⟩ := hws.searchCache_eq_some (hlists.nodup _) rfl hb
  exact ⟨i, hfind, hkey, ws, hi, hws⟩

/-- A use renumbers the set. -/
theorem use (h : LevelRank g L order dirty) (hlists : Lists g.setOf g.numOfWays order)
    {b i : Nat} (hi : WayOf g L order dirty b i) :
    LevelRank g
      (Function.update L (g.setOf b)
        (updateLRU (L (g.setOf b)) (L (g.setOf b) i).lru g.numOfWays))
      (useIn g.setOf b order) dirty := by
  obtain ⟨hkey, ws, hmem, hws⟩ := hi
  have huse := hws.use (hlists.nodup _) hmem
  rw [hkey] at huse
  exact h.setWays hlists (fun _ _ => rfl) huse

/-- Renumber, then mark. -/
theorem useDirty (h : LevelRank g L order dirty) (hlists : Lists g.setOf g.numOfWays order)
    {b i : Nat} (hi : WayOf g L order dirty b i) :
    LevelRank g
      (Function.update L (g.setOf b)
        (Function.update (updateLRU (L (g.setOf b)) (L (g.setOf b) i).lru g.numOfWays) i
          { updateLRU (L (g.setOf b)) (L (g.setOf b) i).lru g.numOfWays i with dirty := true }))
      (useIn g.setOf b order) (Function.update dirty b true) := by
  obtain ⟨hkey, ws, hmem, hws⟩ := hi
  have huse := hws.use (hlists.nodup _) hmem
  have hmark := huse.markDirty (nodup_toFront (hlists.nodup _)) (i := i) (List.mem_cons_self ..)
  rw [updateLRU_tag, hkey] at hmark
  exact h.setWays hlists (fun _ hc => Function.update_of_ne (ne_of_apply_ne g.setOf hc) ..) hmark

/-- Mark, then renumber. -/
theorem dirtyUse (h : LevelRank g L order dirty) (hlists : Lists g.setOf g.numOfWays order)
    {b i : Nat} (hi : WayOf g L order dirty b i) :
    LevelRank g
      (Function.update L (g.setOf b)
        (updateLRU (Function.update (L (g.setOf b)) i { L (g.setOf b) i with dirty := true })
          (L (g.setOf b) i).lru g.numOfWays))
      (useIn g.setOf b order) (Function.update dirty b true) := by
  obtain ⟨hkey, ws, hmem, hws⟩ := hi
  have hmark := hws.markDirty (hlists.nodup _) hmem
  have huse := hmark.use (hlists.nodup _) hmem
  simp only [Function.update_self] at huse
  rw [hkey] at huse
  exact h.setWays hlists (fun _ hc => Function.update_of_ne (ne_of_apply_ne g.setOf hc) ..) huse

/-- Invalidating a block's way. -/
theorem evac (h : LevelRank g L order dirty) (hlists : Lists g.setOf g.numOfWays order)
    {b i : Nat} (hi : WayOf g L order dirty b i) :
    LevelRank g
      (Function.update L (g.setOf b)
        (updateLRUforEvac
          (Function.update (L (g.setOf b)) i { L (g.setOf b) i with validBit := false })
          (L (g.setOf b) i).lru g.numOfWays))
      (removeIn g.setOf b order) dirty := by
  obtain ⟨hkey, ws, hmem, hws⟩ := hi
  have hevac := hws.evac (hlists.nodup _) hmem
  rw [hkey] at hevac
  exact h.setWays hlists (fun _ _ => rfl) hevac

/-- Way `i` of its set is one to put `b` into. -/
def VictimOf (g : Geometry) (L : Nat → Nat → Way) (order : Nat → List Nat)
    (dirty : Nat → Bool) (b i : Nat) : Prop :=
  ∃ ws, Holds.Victim g.numOfWays (fun i => (L (g.setOf b) i).validBit) ws i ∧
    RankOrder g (g.setOf b) dirty (L (g.setOf b)) ws (order (g.setOf b))

/-- The line in way `i` of the set of `b` is that of the block `v`. -/
structure LineOf (g : Geometry) (L : Nat → Nat → Way) (dirty : Nat → Bool) (b i v : Nat) :
    Prop where
  line_lt : v < uint32Size
  set_eq : g.setOf v = g.setOf b
  tag_eq : (L (g.setOf b) i).tag = v / g.numOfSets
  dirty_eq : (L (g.setOf b) i).dirty = dirty v

/-- `emptySlot` and `getLRU` between them find a victim; that of
`getLRU` is the evictee of the full set. -/
theorem victim (h : LevelRank g L order dirty) (b : Nat) :
    (∃ i, emptySlot (L (g.setOf b)) g.numOfWays = some i ∧ VictimOf g L order dirty b i ∧
        evictee? g.numOfWays (order (g.setOf b)) = none) ∨
    (emptySlot (L (g.setOf b)) g.numOfWays = none ∧
      ∃ i v, getLRU (L (g.setOf b)) g.numOfWays = some i ∧ VictimOf g L order dirty b i ∧
        LineOf g L dirty b i v ∧ evictee? g.numOfWays (order (g.setOf b)) = some v) := by
  obtain ⟨ws, hws⟩ := h (g.setOf b)
  rcases hws.victim with ⟨i, hempty, hv, hvict⟩ | ⟨hnone, i, hget, hmem, hvict⟩
  · refine Or.inl ⟨i, hempty, ⟨ws, hvict, hws⟩, ?_⟩
    rw [Holds.Victim.evictee? hws.holds hvict, hv]
    rfl
  · have hok := hws.wayOK i hmem
    have hdiv := line_div_mod g (L (g.setOf b) i).tag hok.set_lt
    refine Or.inr ⟨hnone, i, _, hget, ⟨ws, hvict, hws⟩,
      ⟨hok.block_lt, hdiv.1, hdiv.2.symm, hok.dirty_eq⟩, ?_⟩
    rw [Holds.Victim.evictee? hws.holds hvict, if_pos (hws.mem_lt hmem).2]

/-- A filled victim puts the new block in front. -/
theorem insert (h : LevelRank g L order dirty) (hlists : Lists g.setOf g.numOfWays order)
    {b i : Nat} (hi : VictimOf g L order dirty b i) (hlt : b < uint32Size)
    (hb : ¬Resident g.setOf order b) (op : Op) :
    LevelRank g
      (Function.update L (g.setOf b)
        (insertToSlot (L (g.setOf b)) (b / g.numOfSets) i op g.numOfWays))
      (insertIn g.setOf g.numOfWays b order) (Function.update dirty b (op == .write)) := by
  obtain ⟨ws, hvict, hws⟩ := hi
  have hkey : b / g.numOfSets * g.numOfSets + g.setOf b = b := Nat.div_add_mod' b g.numOfSets
  have hlt' : b / g.numOfSets * g.numOfSets + g.setOf b < uint32Size := by
    rw [hkey]
    exact hlt
  have hins := hws.insert hvict (Nat.mod_lt _ g.numOfSets_pos) hlt' (by rw [hkey]; exact hb) op
  rw [hkey] at hins
  exact h.setWays hlists (fun _ hc => Function.update_of_ne (ne_of_apply_ne g.setOf hc) ..) hins

end LevelRank

end RoySim

end ArchSim
