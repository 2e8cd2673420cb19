import ArchSim.RoyOrder
import ArchSim.ShellySim

/-!
# Blocks kept twice

How a row of `cacheSimShelly.cpp` stands for a recency list: its ways hold the
blocks of the list, in any places, and its `LRU_vector` is the list from back
to front. The two are changed at different times, so the lemmas are about what
an operation leaves after the `LRUupdate` that belongs to it.
-/

namespace ArchSim

/-! ## Searches -/

namespace Holds

variable {α : Type*} {n : Nat} {valid : Nat → Bool} {key : Nat → α} {ws : List Nat} {l : List α}
  {p : Nat → Bool} {b : α}

theorem find?_eq_none (h : Holds n valid key ws l)
    (hp : ∀ i, p i = true → valid i = true ∧ key i = b) (hb : b ∉ l) :
    (List.range n).find? p = none := by
  refine List.find?_eq_none.mpr fun i hi hpi => ?_
  obtain ⟨hv, hkey⟩ := hp i hpi
  exact hb (h.mem_iff.mpr ⟨i, List.mem_range.mp hi, hv, hkey⟩)

/-- A search for a key finds the slot that holds it. -/
theorem find?_eq_some (h : Holds n valid key ws l) (hl : l.Nodup)
    (hp : ∀ i, p i = true ↔ valid i = true ∧ key i = b) (hb : b ∈ l) :
    ∃ i ∈ ws, (List.range n).find? p = some i ∧ key i = b := by
  obtain ⟨i, hi, hv, hkey⟩ := h.mem_iff.mp hb
  have hmem : i ∈ ws := (h.order.mem_iff i).mpr ⟨hi, hv⟩
  refine ⟨i, hmem, CacheSim.CacheLevel.find?_range hi ((hp i).mpr ⟨hv, hkey⟩) ?_, hkey⟩
  intro j hj hpj
  obtain ⟨hvj, hkeyj⟩ := (hp j).mp hpj
  exact h.key_inj hl ((h.order.mem_iff j).mpr ⟨hj, hvj⟩) hmem (hkeyj.trans hkey.symm)

end Holds

namespace ShellySim

open CacheSim (Config Geometry)

namespace Cache

/-! ## Rows and tags -/

theorem numOfRows_eq (g : Geometry) : numOfRows g = g.numOfSets := by
  have h := g.fits
  rw [numOfRows, blockSize, Nat.pow_div (by omega) (by decide)]
  rfl

theorem tagOf_eq (g : Geometry) (address : Nat) : tagOf g address = g.block address := by
  rw [tagOf, blockSize, Nat.log2_two_pow, Geometry.block]

theorem setOf_eq (g : Geometry) (tag : Nat) : setOf g tag = g.setOf tag := by
  rw [setOf, numOfRows_eq, Geometry.setOf]

theorem upper_eq (g : Geometry) (tag : Nat) : upper g tag = tag / g.numOfSets := by
  rw [upper, numOfRows_eq, g.log2_numOfSets, Nat.shiftRight_eq_div_pow, ← g.numOfSets_eq]

theorem associativeLevel_eq (g : Geometry) : associativeLevel g = g.numOfWays := rfl

end Cache

/-! ## One row -/

/-- The block that a way of row `s` has the tag of. -/
def blockIn (g : Geometry) (s : Nat) (way : Way) : Nat := way.1 * g.numOfSets + s

/-- The ways `ws` of row `s` hold the blocks of the recency list `l`, and `lru`
is the list from its end. -/
structure RowHolds (g : Geometry) (s : Nat) (dirty : Nat → Bool) (row : Nat → Way)
    (lru ws l : List Nat) : Prop where
  holds : Holds g.numOfWays (fun i => (row i).2 != .doesntExist) (fun i => blockIn g s (row i)) ws l
  lru_eq : lru = l.reverse
  lt : ∀ b ∈ l, b < uint32Size
  dirty_eq : ∀ i ∈ ws, ((row i).2 == .dirty) = dirty (blockIn g s (row i))

namespace RowHolds

variable {g : Geometry} {s : Nat} {dirty : Nat → Bool} {row : Nat → Way} {lru ws l : List Nat}
  {b : Nat}

/-- Dirty flags matter on the listed blocks only. -/
theorem congr_dirty {dirty' : Nat → Bool} (h : RowHolds g s dirty row lru ws l)
    (hd : ∀ b ∈ l, dirty' b = dirty b) : RowHolds g s dirty' row lru ws l where
  holds := h.holds
  lru_eq := h.lru_eq
  lt := h.lt
  dirty_eq := fun i hi => by
    rw [h.dirty_eq i hi, hd _ (h.holds.keys ▸ List.mem_map_of_mem hi)]

theorem findWay_iff (hs : g.setOf b = s) (i : Nat) :
    ((row i).1 == b / g.numOfSets && (row i).2 != .doesntExist) = true ↔
      ((row i).2 != .doesntExist) = true ∧ blockIn g s (row i) = b := by
  have hb : b / g.numOfSets * g.numOfSets + s = b := hs ▸ Nat.div_add_mod' b g.numOfSets
  rw [Bool.and_eq_true, beq_iff_eq, and_comm, blockIn]
  refine and_congr_right fun _ => ⟨fun htag => by rw [htag, hb], fun hkey => ?_⟩
  exact Nat.eq_of_mul_eq_mul_right g.numOfSets_pos (by omega)

theorem findWay_eq_none (h : RowHolds g s dirty row lru ws l) (hs : g.setOf b = s) (hb : b ∉ l) :
    Cache.findWay row g.numOfWays (b / g.numOfSets) = none :=
  h.holds.find?_eq_none (fun i hi => (findWay_iff hs i).mp hi) hb

theorem findWay_eq_some (h : RowHolds g s dirty row lru ws l) (hl : l.Nodup) (hs : g.setOf b = s)
    (hb : b ∈ l) :
    ∃ i ∈ ws, Cache.findWay row g.numOfWays (b / g.numOfSets) = some i ∧
      blockIn g s (row i) = b :=
  h.holds.find?_eq_some hl (findWay_iff hs) hb

/-- Taking a listed block to the back of the vector. -/
theorem use (h : RowHolds g s dirty row lru ws l) (hl : l.Nodup) (hlt : b < uint32Size)
    (hb : b ∈ l) :
    ∃ ws', RowHolds g s dirty row ((lru.filter fun t => t != b) ++ [b % uint32Size]) ws'
      (toFront b l) := by
  obtain ⟨i, hi, rfl⟩ := List.mem_map.mp (h.holds.keys.symm ▸ hb)
  refine ⟨toFront i ws, h.holds.touch hl hi, ?_, fun c hc => h.lt c ((mem_toFront hb).mp hc),
    fun j hj => h.dirty_eq j ((mem_toFront hi).mp hj)⟩
  rw [h.lru_eq, List.filter_reverse, ← hl.erase_eq_filter, Nat.mod_eq_of_lt hlt, toFront,
    List.reverse_cons]

/-- Another status for a listed block. -/
theorem mark (h : RowHolds g s dirty row lru ws l) (hl : l.Nodup) {i : Nat} (hi : i ∈ ws)
    {status : DataStatus} (hstatus : status ≠ .doesntExist) :
    RowHolds g s (Function.update dirty (blockIn g s (row i)) (status == .dirty))
      (Function.update row i ((row i).1, status)) lru ws l where
  holds := by
    have hv := ((h.holds.order.mem_iff i).mp hi).2
    refine h.holds.congr (fun j => ?_) fun j => ?_ <;> rcases eq_or_ne j i with rfl | hj
    · rw [Function.update_self, hv]
      exact bne_iff_ne.mpr hstatus
    · rw [Function.update_of_ne hj]
    · rw [Function.update_self]
      rfl
    · rw [Function.update_of_ne hj]
  lru_eq := h.lru_eq
  lt := h.lt
  dirty_eq := fun j hj => by
    rcases eq_or_ne j i with rfl | hji
    · have hsame : blockIn g s ((row j).1, status) = blockIn g s (row j) := rfl
      rw [Function.update_self, hsame, Function.update_self]
    · have hkey : blockIn g s (row j) ≠ blockIn g s (row i) := fun heq =>
        hji (h.holds.key_inj hl hj hi heq)
      rw [Function.update_of_ne hji, Function.update_of_ne hkey, h.dirty_eq j hj]

/-- Filling a victim way, once the vector has given up the evictee. -/
theorem fill (h : RowHolds g s dirty row lru ws l) {i : Nat}
    (hi : Holds.Victim g.numOfWays (fun i => (row i).2 != .doesntExist) ws i)
    (hs : g.setOf b = s) (hlt : b < uint32Size) (hb : b ∉ l) {lru' : List Nat}
    (hlru : lru' = (makeRoom g.numOfWays l).reverse) :
    ∃ ws', RowHolds g s (Function.update dirty b false)
      (Function.update row i (b / g.numOfSets % uint32Size, .exist))
      ((lru'.filter fun t => t != b) ++ [b % uint32Size]) ws' (b :: makeRoom g.numOfWays l) := by
  have htag : b / g.numOfSets % uint32Size = b / g.numOfSets :=
    Nat.mod_eq_of_lt (Nat.lt_of_le_of_lt (Nat.div_le_self ..) hlt)
  have hkey : b / g.numOfSets * g.numOfSets + s = b := hs ▸ Nat.div_add_mod' b g.numOfSets
  rw [htag]
  refine ⟨toFront i ws, h.holds.fill hi ?_ ?_ (fun j hj => ?_) (fun j hj => ?_), ?_, ?_, ?_⟩
  · rw [Function.update_self]
    rfl
  · rw [Function.update_self]
    exact hkey
  · rw [Function.update_of_ne hj]
  · rw [Function.update_of_ne hj]
  · have hroom : ∀ t ∈ (makeRoom g.numOfWays l).reverse, (t != b) = true := fun t ht =>
      bne_iff_ne.mpr fun heq =>
        hb (heq ▸ (makeRoom_sublist _ l).subset (List.mem_reverse.mp ht))
    rw [hlru, List.filter_eq_self.mpr hroom, Nat.mod_eq_of_lt hlt, List.reverse_cons]
  · intro c hc
    rcases List.mem_cons.mp hc with rfl | hc
    · exact hlt
    · exact h.lt c ((makeRoom_sublist _ l).subset hc)
  · intro j hj
    rcases eq_or_ne j i with rfl | hji
    · rw [Function.update_self, show blockIn g s (b / g.numOfSets, DataStatus.exist) = b from hkey,
        Function.update_self]
      rfl
    · have hj' : j ∈ ws := List.mem_of_mem_erase ((List.mem_cons.mp hj).resolve_left hji)
      have hne : blockIn g s (row j) ≠ b := fun heq =>
        hb (h.holds.keys ▸ heq ▸ List.mem_map_of_mem hj')
      rw [Function.update_of_ne hji, Function.update_of_ne hne, h.dirty_eq j hj']

/-- A free way is one to be filled, and then the list has room. -/
theorem free_way (h : RowHolds g s dirty row lru ws l) {i : Nat}
    (hfree : ((List.range g.numOfWays).find? fun i => (row i).2 == .doesntExist) = some i) :
    Holds.Victim g.numOfWays (fun i => (row i).2 != .doesntExist) ws i ∧
      l.length < g.numOfWays := by
  have hi : i < g.numOfWays := List.mem_range.mp (List.mem_of_find?_eq_some hfree)
  have hv : ((row i).2 != .doesntExist) = false := by
    simpa using List.find?_some hfree
  have hvict : Holds.Victim g.numOfWays (fun i => (row i).2 != .doesntExist) ws i :=
    ⟨hi, Or.inl hv⟩
  refine ⟨hvict, (evictee?_eq_none_iff g.numOfWays_pos).mp ?_⟩
  rw [Holds.Victim.evictee? h.holds hvict, hv]
  rfl

/-- Without a free way it is that of the block that was not used for longest. -/
theorem last_way (h : RowHolds g s dirty row lru ws l) (hl : l.Nodup)
    (hset : ∀ b ∈ l, g.setOf b = s)
    (hfree : ((List.range g.numOfWays).find? fun i => (row i).2 == .doesntExist) = none) :
    g.numOfWays ≤ l.length ∧ ∃ v, l.getLast? = some v ∧
      ∃ i ∈ ws, Cache.findWay row g.numOfWays (v / g.numOfSets) = some i ∧
        blockIn g s (row i) = v ∧
        Holds.Victim g.numOfWays (fun i => (row i).2 != .doesntExist) ws i := by
  have hall : ∀ i < g.numOfWays, ((row i).2 != .doesntExist) = true := fun i hi => by
    simpa using List.find?_eq_none.mp hfree i (List.mem_range.mpr hi)
  have hfull := h.holds.order.full_iff.mpr hall
  have hle : g.numOfWays ≤ l.length := h.holds.length_eq.symm ▸ hfull
  obtain ⟨v, hv⟩ : ∃ v, l.getLast? = some v := by
    refine Option.ne_none_iff_exists'.mp fun hnone => ?_
    rw [← evictee?_of_le hle, evictee?_eq_none_iff g.numOfWays_pos] at hnone
    exact Nat.not_lt.mpr hle hnone
  have hmem := List.mem_of_getLast? hv
  obtain ⟨i, hi, hfind, hkey⟩ := h.findWay_eq_some hl (hset v hmem) hmem
  refine ⟨hle, v, hv, i, hi, hfind, hkey, ((h.holds.order.mem_iff i).mp hi).1,
    Or.inr ⟨hfull, ?_⟩⟩
  rw [← h.holds.keys, List.getLast?_map, Option.map_eq_some_iff] at hv
  obtain ⟨j, hj, hkeyj⟩ := hv
  rw [hj, h.holds.key_inj hl (List.mem_of_getLast? hj) hi (hkeyj.trans hkey.symm)]

end RowHolds

/-! ## One cache -/

/-- Every row holds its recency list. -/
def LevelHolds {g : Geometry} (c : Cache g) (order : Nat → List Nat) (dirty : Nat → Bool) : Prop :=
  ∀ s, ∃ ws, RowHolds g s dirty (c.data s) (c.lruVector s) ws (order s)

namespace LevelHolds

variable {g : Geometry} {c : Cache g} {order : Nat → List Nat} {dirty : Nat → Bool} {a b : Nat}

theorem new (g : Geometry) (dirty : Nat → Bool) :
    LevelHolds (Cache.new g) (fun _ => []) dirty := fun _ =>
  ⟨[], ⟨⟨⟨List.nodup_nil, fun i => by simp [Cache.new]⟩, rfl⟩, rfl,
    fun _ hi => absurd hi List.not_mem_nil, fun _ hi => absurd hi List.not_mem_nil⟩⟩

/-- What happens to one row concerns that row only. -/
theorem setRow (h : LevelHolds c order dirty) (hlists : Lists g.setOf g.numOfWays order)
    {c' : Cache g} {s : Nat} {dirty' : Nat → Bool} {l : List Nat}
    (hdata : ∀ t, t ≠ s → c'.data t = c.data t)
    (hlru : ∀ t, t ≠ s → c'.lruVector t = c.lruVector t)
    (hd : ∀ b, g.setOf b ≠ s → dirty' b = dirty b)
    (hset : ∃ ws, RowHolds g s dirty' (c'.data s) (c'.lruVector s) ws l) :
    LevelHolds c' (Function.update order s l) dirty' := by
  intro t
  rcases eq_or_ne t s with rfl | hts
  · rw [Function.update_self]
    exact hset
  · obtain ⟨ws, hws⟩ := h t
    refine ⟨ws, ?_⟩
    rw [Function.update_of_ne hts, hdata t hts, hlru t hts]
    exact hws.congr_dirty fun b hb => hd b (by rw [hlists.set_eq t b hb]; exact hts)

theorem findWay_isSome (h : LevelHolds c order dirty) (hlists : Lists g.setOf g.numOfWays order)
    (b : Nat) :
    (Cache.findWay (c.data (g.setOf b)) g.numOfWays (b / g.numOfSets)).isSome =
      decide (Resident g.setOf order b) := by
  obtain ⟨ws, hws⟩ := h (g.setOf b)
  by_cases hb : Resident g.setOf order b
  · obtain ⟨i, -, hfind, -⟩ := hws.findWay_eq_some (hlists.nodup _) rfl hb
    rw [hfind, decide_eq_true hb]
    rfl
  · rw [hws.findWay_eq_none rfl hb, decide_eq_false hb]
    rfl

/-- Whether a block named by its address is in the cache. -/
theorem inCache_address (h : LevelHolds c order dirty)
    (hlists : Lists g.setOf g.numOfWays order) (a : Nat) :
    c.inCache a false = decide (Resident g.setOf order (g.block a)) := by
  simp only [Cache.inCache, Bool.false_eq_true, if_false, Cache.tagOf_eq, Cache.setOf_eq,
    Cache.upper_eq, Cache.associativeLevel_eq]
  exact h.findWay_isSome hlists _

theorem inCache_tag (h : LevelHolds c order dirty) (hlists : Lists g.setOf g.numOfWays order)
    (b : Nat) : c.inCache b true = decide (Resident g.setOf order b) := by
  simp only [Cache.inCache, if_true, Cache.setOf_eq, Cache.upper_eq, Cache.associativeLevel_eq]
  exact h.findWay_isSome hlists _

theorem lruUpdate_tag (h : LevelHolds c order dirty) (hlists : Lists g.setOf g.numOfWays order)
    (hlt : b < uint32Size) (hb : Resident g.setOf order b) :
    LevelHolds (c.lruUpdate b false) (useIn g.setOf b order) dirty := by
  obtain ⟨ws, hws⟩ := h (g.setOf b)
  simp only [Cache.lruUpdate, Bool.false_eq_true, if_false, Cache.setOf_eq]
  refine h.setRow hlists (fun _ _ => rfl) (fun t ht => Function.update_of_ne ht ..)
    (fun _ _ => rfl) ?_
  simp only [Function.update_self]
  exact hws.use (hlists.nodup _) hlt hb

theorem lruUpdate_eq (c : Cache g) (a : Nat) :
    c.lruUpdate a true = c.lruUpdate (g.block a) false := by
  simp only [Cache.lruUpdate, Cache.tagOf_eq, if_true, Bool.false_eq_true, if_false]

theorem lruUpdate_address (h : LevelHolds c order dirty)
    (hlists : Lists g.setOf g.numOfWays order) (hlt : g.block a < uint32Size)
    (hb : Resident g.setOf order (g.block a)) :
    LevelHolds (c.lruUpdate a true) (useIn g.setOf (g.block a) order) dirty := by
  rw [lruUpdate_eq]
  exact h.lruUpdate_tag hlists hlt hb

theorem changeWay (h : LevelHolds c order dirty) (hlists : Lists g.setOf g.numOfWays order)
    (hb : Resident g.setOf order b) {status : DataStatus} (hstatus : status ≠ .doesntExist) :
    LevelHolds (c.changeWay b status) order (Function.update dirty b (status == .dirty)) := by
  obtain ⟨ws, hws⟩ := h (g.setOf b)
  obtain ⟨i, hi, hfind, hkey⟩ := hws.findWay_eq_some (hlists.nodup _) rfl hb
  have hmark := hws.mark (hlists.nodup _) hi hstatus
  rw [hkey] at hmark
  rw [Cache.changeWay, Cache.setOf_eq, Cache.upper_eq, Cache.associativeLevel_eq, hfind]
  have hset : LevelHolds (c.setWay (g.setOf b) i ((c.data (g.setOf b) i).1, status))
      (Function.update order (g.setOf b) (order (g.setOf b)))
      (Function.update dirty b (status == .dirty)) := by
    refine h.setRow hlists (fun t ht => Function.update_of_ne ht ..) (fun _ _ => rfl)
      (fun _ hc => Function.update_of_ne (ne_of_apply_ne g.setOf hc) ..) ⟨ws, ?_⟩
    simp only [Cache.setWay, Function.update_self]
    exact hmark
  rwa [Function.update_eq_self] at hset

theorem changeToX (c : Cache g) (a : Nat) (status : DataStatus) :
    c.changeToX a status true = .ok (c.changeWay (g.block a) status) := by
  rw [Cache.changeToX, if_pos rfl, Cache.tagOf_eq]

theorem changeIf (c : Cache g) (condition : Bool) (a : Nat) (status : DataStatus) :
    c.changeIf condition a status =
      .ok (if condition then c.changeWay (g.block a) status else c) := by
  cases condition
  · rfl
  · exact changeToX c a status

/-- Another status and another place in the vector do not touch. -/
theorem changeWay_lruUpdate (c : Cache g) (t a : Nat) (status : DataStatus) (isAddress : Bool) :
    (c.changeWay t status).lruUpdate a isAddress =
      (c.lruUpdate a isAddress).changeWay t status := by
  simp only [Cache.changeWay, Cache.lruUpdate]
  cases Cache.findWay (c.data (Cache.setOf g t)) (Cache.associativeLevel g) (Cache.upper g t) <;>
    rfl

/-- Is the evictee dirty, or is it L2 that gives it up? -/
def needsEvac (L1 : Bool) (dirty : Nat → Bool) (evictee : Option Nat) : Bool :=
  evictee.any fun v => dirty v || !L1

theorem lruGetLeastRecentlyUsed_eq (h : LevelHolds c order dirty) (a : Nat) :
    c.lruGetLeastRecentlyUsed a = (order (g.setOf (g.block a))).getLast? := by
  obtain ⟨ws, hws⟩ := h (g.setOf (g.block a))
  rw [Cache.lruGetLeastRecentlyUsed, Cache.tagOf_eq, Cache.setOf_eq, hws.lru_eq,
    List.head?_reverse]

/-! What `add` does for a block that is not there. -/

theorem add_of_free (hin : c.inCache a false = false) {i : Nat}
    (hfree : ((List.range g.numOfWays).find? fun i =>
      (c.data (g.setOf (g.block a)) i).2 == .doesntExist) = some i)
    (lruAddress : Option Nat) (L1 : Bool) :
    c.add a lruAddress L1 =
      (c.setWay (g.setOf (g.block a)) i (g.block a / g.numOfSets % uint32Size, .exist),
        false) := by
  simp only [Cache.add, Cache.tagOf_eq, Cache.setOf_eq, Cache.upper_eq, Cache.associativeLevel_eq,
    hin, Bool.not_false, Bool.and_true, hfree]

theorem add_of_full (hin : c.inCache a false = false)
    (hfree : ((List.range g.numOfWays).find? fun i =>
      (c.data (g.setOf (g.block a)) i).2 == .doesntExist) = none) {v i : Nat}
    (hfind : Cache.findWay (c.data (g.setOf (g.block a))) g.numOfWays (v / g.numOfSets) = some i)
    (hvalid : ((c.data (g.setOf (g.block a)) i).2 != .doesntExist) = true) (L1 : Bool) :
    c.add a (some v) L1 =
      ((c.setWay (g.setOf (g.block a)) i
        (g.block a / g.numOfSets % uint32Size, .exist)).lruRemove v,
        (c.data (g.setOf (g.block a)) i).2 == .dirty || !L1) := by
  simp only [Cache.add, Cache.tagOf_eq, Cache.setOf_eq, Cache.upper_eq, Cache.associativeLevel_eq,
    hin, Bool.not_false, Bool.and_true, hfree, hfind, hvalid]

/-- A filled way and the `LRUupdate` after it put the block in front. -/
theorem fillWay (h : LevelHolds c order dirty) (hlists : Lists g.setOf g.numOfWays order)
    (hlt : g.block a < uint32Size) (hb : ¬Resident g.setOf order (g.block a)) {ws : List Nat}
    (hws : RowHolds g (g.setOf (g.block a)) dirty (c.data (g.setOf (g.block a)))
      (c.lruVector (g.setOf (g.block a))) ws (order (g.setOf (g.block a)))) {i : Nat}
    (hi : Holds.Victim g.numOfWays
      (fun i => (c.data (g.setOf (g.block a)) i).2 != .doesntExist) ws i) {lru' : List Nat}
    (hlru : lru' = (makeRoom g.numOfWays (order (g.setOf (g.block a)))).reverse) :
    LevelHolds ((Cache.mk (g := g) (Function.update c.data (g.setOf (g.block a))
        (Function.update (c.data (g.setOf (g.block a))) i
          (g.block a / g.numOfSets % uint32Size, .exist)))
        (Function.update c.lruVector (g.setOf (g.block a)) lru')).lruUpdate a true)
      (insertIn g.setOf g.numOfWays (g.block a) order)
      (Function.update dirty (g.block a) false) := by
  obtain ⟨ws', hws'⟩ := hws.fill hi rfl hlt hb hlru
  rw [lruUpdate_eq]
  simp only [Cache.lruUpdate, Bool.false_eq_true, if_false, Cache.setOf_eq]
  refine h.setRow hlists (fun t ht => Function.update_of_ne ht ..) (fun t ht => ?_)
    (fun _ hc => Function.update_of_ne (ne_of_apply_ne g.setOf hc) ..) ⟨ws', ?_⟩
  · simp only [Function.update_of_ne ht]
  · simp only [Function.update_self]
    exact hws'

/-- A block that is added takes a free way or that of the evictee, whose
address `LRUgetLeastRecentlyUsed` has delivered. -/
theorem add (h : LevelHolds c order dirty) (hlists : Lists g.setOf g.numOfWays order)
    (hlt : g.block a < uint32Size) (hb : ¬Resident g.setOf order (g.block a)) (L1 : Bool) :
    ∃ c', c.add a (c.lruGetLeastRecentlyUsed a) L1 =
        (c', needsEvac L1 dirty (evictee? g.numOfWays (order (g.setOf (g.block a))))) ∧
      LevelHolds (c'.lruUpdate a true) (insertIn g.setOf g.numOfWays (g.block a) order)
        (Function.update dirty (g.block a) false) ∧
      ∀ v ∈ evictee? g.numOfWays (order (g.setOf (g.block a))),
        c.lruGetLeastRecentlyUsed a = some v ∧ v < uint32Size := by
  have hin := h.inCache_address hlists a
  rw [decide_eq_false hb] at hin
  obtain ⟨ws, hws⟩ := h (g.setOf (g.block a))
  rw [h.lruGetLeastRecentlyUsed_eq]
  cases hfree : (List.range g.numOfWays).find? fun i =>
      (c.data (g.setOf (g.block a)) i).2 == .doesntExist with
  | some i =>
      obtain ⟨hvict, hlen⟩ := hws.free_way hfree
      have hroom : c.lruVector (g.setOf (g.block a)) =
          (makeRoom g.numOfWays (order (g.setOf (g.block a)))).reverse := by
        rw [makeRoom_of_lt hlen, hws.lru_eq]
      have hadded := h.fillWay hlists hlt hb hws hvict hroom
      rw [Function.update_eq_self] at hadded
      rw [evictee?_of_lt hlen]
      exact ⟨_, add_of_free hin hfree _ L1, hadded, fun v hv => absurd hv (Option.not_mem_none v)⟩
  | none =>
      obtain ⟨hfull, v, hv, i, hi, hfind, hkey, hvict⟩ :=
        hws.last_way (hlists.nodup _) (hlists.set_eq _) hfree
      have hmem := List.mem_of_getLast? hv
      have hadd := add_of_full hin hfree hfind ((hws.holds.order.mem_iff i).mp hi).2 L1
      rw [hws.dirty_eq i hi, hkey] at hadd
      have hroom : (c.lruVector (g.setOf (g.block a))).filter (fun t => t != v) =
          (makeRoom g.numOfWays (order (g.setOf (g.block a)))).reverse := by
        rw [hws.lru_eq, List.filter_reverse, ← (hlists.nodup _).erase_eq_filter,
          erase_getLast (hlists.nodup _) hv, makeRoom_of_le hfull]
      have hadded := h.fillWay hlists hlt hb hws hvict hroom
      rw [evictee?_of_le hfull, hv]
      refine ⟨_, hadd, ?_, fun w hw => ⟨hw, Option.some.inj hw ▸ hws.lt v hmem⟩⟩
      rw [Cache.lruRemove, Cache.setOf_eq, hlists.set_eq _ v hmem]
      exact hadded

end LevelHolds

end ShellySim

end ArchSim
