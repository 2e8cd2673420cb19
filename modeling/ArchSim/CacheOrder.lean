import ArchSim.CacheSim

/-!
# Time stamps as recency lists

How the way arrays of one level stand for recency lists. In every set
some list of way numbers names the valid entries, latest stamp first
(`SetOrder`); the blocks of these entries form the recency list of the
set. The lemmas say what the searches return in terms of the lists and
what overwriting one entry does to them.
-/

namespace ArchSim

namespace CacheSim

/-- A valid entry of set `s`: filed under its own set and tag, stamped in
the past, and with the dirty flag of its block. -/
structure EntryOK (g : Geometry) (now s : Nat) (dirty : Nat → Bool) (e : WayEntry) :
    Prop where
  address_lt : e.address < uint32Size
  set_eq : g.getSet e.address = s
  tag_eq : e.tag = g.getTag e.address
  stamp_lt : e.lastAccessedTime < now
  dirty_eq : e.dirty = dirty (g.block e.address)

/-- The ways `ws` of set `s` hold the recency list `l`. -/
structure SetOrder (g : Geometry) (now s : Nat) (dirty : Nat → Bool)
    (entries : Nat → WayEntry) (ws l : List Nat) : Prop where
  holds : Holds g.numOfWays (fun i => (entries i).valid)
    (fun i => g.block (entries i).address) ws l
  newest : Newest (fun i => (entries i).lastAccessedTime) ws
  entryOK : ∀ i ∈ ws, EntryOK g now s dirty (entries i)

/-- Every set of the level holds its recency list. -/
def LevelOrder {g : Geometry} (L : CacheLevel g) (now : Nat) (order : Nat → List Nat)
    (dirty : Nat → Bool) : Prop :=
  ∀ s, ∃ ws, SetOrder g now s dirty (fun i => L.ways i s) ws (order s)

variable {g : Geometry} {now s : Nat} {dirty : Nat → Bool}

/-! ## One set -/

namespace EntryOK

theorem mono {now' : Nat} {e : WayEntry} (h : EntryOK g now s dirty e)
    (hle : now ≤ now') : EntryOK g now' s dirty e :=
  { h with stamp_lt := Nat.lt_of_lt_of_le h.stamp_lt hle }

theorem congr {dirty' : Nat → Bool} {e : WayEntry} (h : EntryOK g now s dirty e)
    (hd : dirty' (g.block e.address) = dirty (g.block e.address)) :
    EntryOK g now s dirty' e :=
  { h with dirty_eq := h.dirty_eq.trans hd.symm }

/-- Two valid entries of one set with the same tag hold the same block. -/
theorem block_eq_of_tag {a : Nat} {e : WayEntry} (h : EntryOK g now s dirty e)
    (ha : a < uint32Size) (hs : g.getSet a = s) (ht : e.tag = g.getTag a) :
    g.block e.address = g.block a := by
  rw [g.block_eq h.address_lt, g.block_eq ha, ← h.tag_eq, ht, h.set_eq, hs]

end EntryOK

namespace SetOrder

variable {entries : Nat → WayEntry} {ws l : List Nat}

theorem mono (h : SetOrder g now s dirty entries ws l) {now' : Nat} (hle : now ≤ now') :
    SetOrder g now' s dirty entries ws l :=
  { h with entryOK := fun i hi => (h.entryOK i hi).mono hle }

theorem congr_dirty (h : SetOrder g now s dirty entries ws l) {dirty' : Nat → Bool}
    (hd : ∀ b ∈ l, dirty' b = dirty b) : SetOrder g now s dirty' entries ws l :=
  { h with
    entryOK := fun i hi => (h.entryOK i hi).congr
      (hd _ (by rw [← h.holds.keys]; exact List.mem_map_of_mem hi)) }

theorem mem_lt (h : SetOrder g now s dirty entries ws l) {i : Nat} (hi : i ∈ ws) :
    i < g.numOfWays ∧ (entries i).valid = true :=
  (h.holds.order.mem_iff i).mp hi

/-- A listed way other than `i` holds another block than `i` does. -/
theorem block_ne (h : SetOrder g now s dirty entries ws l) (hl : l.Nodup) {i j : Nat}
    (hi : i ∈ ws) (hj : j ∈ ws) (hne : j ≠ i) :
    g.block (entries j).address ≠ g.block (entries i).address := fun heq =>
  hne (h.holds.key_inj hl hj hi heq)

/-- Using a listed way: it gets the current time as its stamp. -/
theorem touch (h : SetOrder g now s dirty entries ws l) (hl : l.Nodup) {i : Nat}
    (hi : i ∈ ws) (d : Bool) :
    SetOrder g (now + 1) s (Function.update dirty (g.block (entries i).address) d)
      (Function.update entries i { entries i with lastAccessedTime := now, dirty := d })
      (toFront i ws) (toFront (g.block (entries i).address) l) where
  holds := by
    refine (h.holds.touch hl hi).congr (fun j => ?_) (fun j => ?_) <;>
      rcases eq_or_ne j i with rfl | hj <;> simp [*]
  newest := h.newest.touch h.holds.order.nodup (fun j hj => (h.entryOK j hj).stamp_lt)
    (by simp) (fun j hj => by simp [hj])
  entryOK := by
    intro j hj
    rw [mem_toFront hi] at hj
    rcases eq_or_ne j i with rfl | hne
    · have hok := h.entryOK j hj
      refine ⟨?_, ?_, ?_, ?_, ?_⟩ <;> simp [hok.address_lt, hok.set_eq, hok.tag_eq]
    · rw [Function.update_of_ne hne]
      exact ((h.entryOK j hj).mono (Nat.le_succ _)).congr
        (Function.update_of_ne (h.block_ne hl hi hj hne) ..)

/-- Filling the victim for a block that the set does not hold. -/
theorem fill (h : SetOrder g now s dirty entries ws l) {i : Nat}
    (hi : Holds.Victim g.numOfWays (fun i => (entries i).valid) ws i) {a : Nat}
    (ha : a < uint32Size) (hs : g.getSet a = s) (hb : g.block a ∉ l) :
    SetOrder g (now + 1) s (Function.update dirty (g.block a) false)
      (Function.update entries i (Cache.filled g a now))
      (toFront i ws) (g.block a :: makeRoom g.numOfWays l) where
  holds := by
    refine h.holds.fill hi ?_ ?_ (fun j hj => ?_) (fun j hj => ?_) <;>
      simp [Cache.filled, *]
  newest := h.newest.touch h.holds.order.nodup (fun j hj => (h.entryOK j hj).stamp_lt)
    (by simp [Cache.filled]) (fun j hj => by simp [hj])
  entryOK := by
    intro j hj
    rcases eq_or_ne j i with rfl | hne
    · rw [Function.update_self]
      exact ⟨ha, hs, rfl, Nat.lt_succ_self _, by simp [Cache.filled]⟩
    · have hj' : j ∈ ws :=
        List.mem_of_mem_erase ((List.mem_cons.mp hj).resolve_left hne)
      have hbj : g.block (entries j).address ≠ g.block a := fun heq =>
        hb (by rw [← heq, ← h.holds.keys]; exact List.mem_map_of_mem hj')
      rw [Function.update_of_ne hne]
      exact ((h.entryOK j hj').mono (Nat.le_succ _)).congr (Function.update_of_ne hbj ..)

/-- Invalidating a listed way. -/
theorem invalidate (h : SetOrder g now s dirty entries ws l) (hl : l.Nodup) {i : Nat}
    (hi : i ∈ ws) :
    SetOrder g now s dirty (Function.update entries i { entries i with valid := false })
      (ws.erase i) (l.erase (g.block (entries i).address)) where
  holds := by
    refine h.holds.drop hl hi (by simp) (fun j hj => by simp [hj]) ?_
    intro j
    rcases eq_or_ne j i with rfl | hj <;> simp [*]
  newest := (h.newest.erase i).congr fun j hj => by
    have hne : j ≠ i := fun heq => h.holds.order.nodup.not_mem_erase (heq ▸ hj)
    simp [hne]
  entryOK := by
    intro j hj
    have hne : j ≠ i := fun heq => h.holds.order.nodup.not_mem_erase (heq ▸ hj)
    rw [Function.update_of_ne hne]
    exact h.entryOK j (List.mem_of_mem_erase hj)

/-- Setting the dirty flag of a listed way. -/
theorem markDirty (h : SetOrder g now s dirty entries ws l) (hl : l.Nodup) {i : Nat}
    (hi : i ∈ ws) :
    SetOrder g now s (Function.update dirty (g.block (entries i).address) true)
      (Function.update entries i { entries i with dirty := true }) ws l where
  holds := by
    refine h.holds.congr (fun j => ?_) (fun j => ?_) <;>
      rcases eq_or_ne j i with rfl | hj <;> simp [*]
  newest := h.newest.congr fun j _ => by
    rcases eq_or_ne j i with rfl | hj <;> simp [*]
  entryOK := by
    intro j hj
    rcases eq_or_ne j i with rfl | hne
    · have hok := h.entryOK j hj
      refine ⟨?_, ?_, ?_, ?_, ?_⟩ <;>
        simp [hok.address_lt, hok.set_eq, hok.tag_eq, hok.stamp_lt]
    · rw [Function.update_of_ne hne]
      exact (h.entryOK j hj).congr (Function.update_of_ne (h.block_ne hl hi hj hne) ..)

/-- As long as the stamps stay below the bound it starts from, the victim
search returns a way to put a new block into. -/
theorem searchVictim (h : SetOrder g now s dirty entries ws l) (hnow : now ≤ uint32Max) :
    ∃ i, CacheLevel.searchVictim entries (List.range g.numOfWays) uint32Max none = some i ∧
      Holds.Victim g.numOfWays (fun i => (entries i).valid) ws i := by
  by_cases hfull : ∀ i < g.numOfWays, (entries i).valid = true
  · have hmem : ∀ i, i < g.numOfWays → i ∈ ws := fun i hi =>
      (h.holds.order.mem_iff i).mpr ⟨hi, hfull i hi⟩
    rcases CacheLevel.searchVictim_of_valid (l := List.range g.numOfWays) (t := uint32Max)
        (e := none) List.pairwise_lt_range (fun i hi => hfull i (List.mem_range.mp hi)) with
      ⟨-, hge⟩ | ⟨i, hi, heq, -, hle⟩
    · -- The first way is stamped before `now`, hence below the bound.
      have h0 := hge 0 (List.mem_range.mpr g.numOfWays_pos)
      have hlt := (h.entryOK 0 (hmem 0 g.numOfWays_pos)).stamp_lt
      omega
    · have hi' := List.mem_range.mp hi
      refine ⟨i, heq, hi', Or.inr ⟨h.holds.order.full_iff.mpr hfull, ?_⟩⟩
      exact h.newest.getLast?_of_least (hmem i hi') fun j hj =>
        (hle j (List.mem_range.mpr (h.mem_lt hj).1)).1
  · obtain ⟨k, hk, hkv⟩ : ∃ k, k < g.numOfWays ∧ (entries k).valid = false := by
      simpa using hfull
    have hfree : ∃ i ∈ List.range g.numOfWays, (entries i).valid = false :=
      ⟨k, List.mem_range.mpr hk, hkv⟩
    obtain ⟨i, hi, heq, hiv⟩ := CacheLevel.searchVictim_of_free uint32Max none hfree
    exact ⟨i, heq, List.mem_range.mp hi, Or.inl hiv⟩

end SetOrder

/-! ## One level -/

namespace LevelOrder

variable {L : CacheLevel g} {order : Nat → List Nat}

theorem new (g : Geometry) (now : Nat) (dirty : Nat → Bool) :
    LevelOrder (CacheLevel.new g) now (fun _ => []) dirty := fun _ =>
  ⟨[], ⟨⟨⟨List.nodup_nil, fun i => by simp [CacheLevel.new, WayEntry.new]⟩, rfl⟩,
    List.Pairwise.nil, fun _ hi => absurd hi List.not_mem_nil⟩⟩

theorem mono (h : LevelOrder L now order dirty) {now' : Nat} (hle : now ≤ now') :
    LevelOrder L now' order dirty := fun s => by
  obtain ⟨ws, hws⟩ := h s
  exact ⟨ws, hws.mono hle⟩

/-- Overwriting an entry of one set concerns that set only. -/
theorem setEntry (h : LevelOrder L now order dirty) (hlists : Lists g.setOf g.numOfWays order)
    {p : Slot} {e : WayEntry} {now' : Nat} {dirty' : Nat → Bool} {ws l : List Nat}
    (hle : now ≤ now') (hd : ∀ b, g.setOf b ≠ p.set → dirty' b = dirty b)
    (hset : SetOrder g now' p.set dirty'
      (Function.update (fun i => L.ways i p.set) p.way e) ws l) :
    LevelOrder (L.setEntry p e) now' (Function.update order p.set l) dirty' := by
  intro s
  by_cases hs : s = p.set
  · subst hs
    refine ⟨ws, ?_⟩
    rw [Function.update_self]
    convert hset using 2 with i
    rcases eq_or_ne i p.way with rfl | hi
    · simp [CacheLevel.setEntry_ways]
    · simp [CacheLevel.setEntry_ways, hi]
  · obtain ⟨ws', hws'⟩ := h s
    refine ⟨ws', ?_⟩
    rw [Function.update_of_ne hs]
    have hsame : (fun i => (L.setEntry p e).ways i s) = fun i => L.ways i s := by
      funext i
      simp [CacheLevel.setEntry_ways, hs]
    rw [hsame]
    exact (hws'.mono hle).congr_dirty fun b hb => hd b (by rw [hlists.set_eq s b hb]; exact hs)

/-- `p` is the entry of the block of `a`. -/
def EntryOf (L : CacheLevel g) (now : Nat) (order : Nat → List Nat) (dirty : Nat → Bool)
    (a : Nat) (p : Slot) : Prop :=
  p.set = g.setOf (g.block a) ∧ g.block (L.entry p).address = g.block a ∧
    ∃ ws, p.way ∈ ws ∧ SetOrder g now p.set dirty (fun i => L.ways i p.set) ws (order p.set)

theorem EntryOf.dirty_eq {a : Nat} {p : Slot} (hp : EntryOf L now order dirty a p) :
    (L.entry p).dirty = dirty (g.block a) := by
  obtain ⟨-, hblock, ws, hmem, hws⟩ := hp
  rw [← hblock]
  exact (hws.entryOK _ hmem).dirty_eq

/-- The search for an address misses when its block is not resident. -/
theorem blockExists_eq_none (h : LevelOrder L now order dirty) {a : Nat}
    (ha : a < uint32Size) (hb : ¬Resident g.setOf order (g.block a)) :
    L.blockExists a = none := by
  obtain ⟨ws, hws⟩ := h (g.getSet a)
  simp only [CacheLevel.blockExists, Option.map_eq_none_iff]
  refine List.find?_eq_none.mpr fun i hi => ?_
  simp only [Bool.and_eq_true, beq_iff_eq, not_and]
  intro hv ht
  have hmem : i ∈ ws := (hws.holds.order.mem_iff i).mpr ⟨List.mem_range.mp hi, hv⟩
  refine hb ?_
  rw [Resident, ← (hws.entryOK i hmem).block_eq_of_tag ha rfl ht,
    ← g.getSet_eq, (hws.entryOK i hmem).set_eq, ← hws.holds.keys]
  exact List.mem_map_of_mem hmem

/-- The search for an address finds the entry of its block. -/
theorem blockExists_eq_some (h : LevelOrder L now order dirty)
    (hlists : Lists g.setOf g.numOfWays order) {a : Nat}
    (ha : a < uint32Size) (hb : Resident g.setOf order (g.block a)) :
    ∃ p, L.blockExists a = some p ∧ EntryOf L now order dirty a p := by
  obtain ⟨ws, hws⟩ := h (g.getSet a)
  rw [Resident, ← g.getSet_eq] at hb
  obtain ⟨i, hin, hv, hbi⟩ := hws.holds.mem_iff.mp hb
  have hmem : i ∈ ws := (hws.holds.order.mem_iff i).mpr ⟨hin, hv⟩
  have htag : ∀ {j}, j ∈ ws → g.block (L.ways j (g.getSet a)).address = g.block a →
      (L.ways j (g.getSet a)).tag = g.getTag a := fun {j} hj hbj => by
    have hok := hws.entryOK j hj
    rw [hok.tag_eq, g.getTag_eq hok.address_lt, g.getTag_eq ha, hbj]
  refine ⟨⟨i, g.getSet a⟩, ?_, g.getSet_eq a, hbi, ws, hmem, hws⟩
  simp only [CacheLevel.blockExists, Option.map_eq_some_iff]
  refine ⟨i, CacheLevel.find?_range hin ?_ ?_, rfl⟩
  · simp [hv, htag hmem hbi]
  · intro j hj hpj
    simp only [Bool.and_eq_true, beq_iff_eq] at hpj
    have hjmem : j ∈ ws := (hws.holds.order.mem_iff j).mpr ⟨hj, hpj.1⟩
    refine hws.holds.key_inj (hlists.nodup _) hjmem hmem ?_
    rw [(hws.entryOK j hjmem).block_eq_of_tag ha rfl hpj.2]
    exact hbi.symm

/-- A used entry moves its block to the front. -/
theorem touch (h : LevelOrder L now order dirty) (hlists : Lists g.setOf g.numOfWays order)
    {a : Nat} {p : Slot} (hp : EntryOf L now order dirty a p) (d : Bool) :
    LevelOrder (L.setEntry p { L.entry p with lastAccessedTime := now, dirty := d })
      (now + 1) (useIn g.setOf (g.block a) order) (Function.update dirty (g.block a) d) := by
  obtain ⟨hset, hblock, ws, hmem, hws⟩ := hp
  have htouch := hws.touch (hlists.nodup _) hmem d
  change g.block (L.ways p.way p.set).address = g.block a at hblock
  rw [hblock] at htouch
  rw [useIn, ← hset]
  exact h.setEntry hlists (Nat.le_succ _)
    (fun b hb => Function.update_of_ne (fun heq => hb (by rw [heq, hset])) ..) htouch

/-- An invalidated entry drops its block. -/
theorem invalidate (h : LevelOrder L now order dirty)
    (hlists : Lists g.setOf g.numOfWays order) {a : Nat} {p : Slot}
    (hp : EntryOf L now order dirty a p) :
    LevelOrder (L.setEntry p { L.entry p with valid := false }) now
      (removeIn g.setOf (g.block a) order) dirty := by
  obtain ⟨hset, hblock, ws, hmem, hws⟩ := hp
  have hdrop := hws.invalidate (hlists.nodup _) hmem
  change g.block (L.ways p.way p.set).address = g.block a at hblock
  rw [hblock] at hdrop
  rw [removeIn, ← hset]
  exact h.setEntry hlists (Nat.le_refl _) (fun _ _ => rfl) hdrop

/-- Setting the dirty flag of an entry leaves the order alone. -/
theorem markDirty (h : LevelOrder L now order dirty)
    (hlists : Lists g.setOf g.numOfWays order) {a : Nat} {p : Slot}
    (hp : EntryOf L now order dirty a p) :
    LevelOrder (L.setEntry p { L.entry p with dirty := true }) now order
      (Function.update dirty (g.block a) true) := by
  obtain ⟨hset, hblock, ws, hmem, hws⟩ := hp
  have hmark := hws.markDirty (hlists.nodup _) hmem
  change g.block (L.ways p.way p.set).address = g.block a at hblock
  rw [hblock] at hmark
  rw [← Function.update_eq_self p.set order]
  exact h.setEntry hlists (Nat.le_refl _)
    (fun b hb => Function.update_of_ne (fun heq => hb (by rw [heq, hset])) ..) hmark

/-- `p` is a way to put the block of `a` into. -/
def VictimOf (L : CacheLevel g) (now : Nat) (order : Nat → List Nat) (dirty : Nat → Bool)
    (a : Nat) (p : Slot) : Prop :=
  p.set = g.setOf (g.block a) ∧
    ∃ ws, Holds.Victim g.numOfWays (fun i => (L.ways i p.set).valid) ws p.way ∧
      SetOrder g now p.set dirty (fun i => L.ways i p.set) ws (order p.set)

theorem getEntryForNewBlock (h : LevelOrder L now order dirty) (hnow : now ≤ uint32Max)
    {a : Nat} (ha : a < uint32Size) :
    ∃ p, L.getEntryForNewBlock a = .ok p ∧ VictimOf L now order dirty a p := by
  obtain ⟨ws, hws⟩ := h (g.getSet a)
  obtain ⟨i, hi, hvict⟩ := hws.searchVictim hnow
  refine ⟨⟨i, g.getSet a⟩, ?_, g.getSet_eq a, ws, hvict, hws⟩
  simp only [CacheLevel.getEntryForNewBlock, Nat.mod_eq_of_lt ha]
  rw [hi]

theorem VictimOf.mono {a : Nat} {p : Slot} (hp : VictimOf L now order dirty a p)
    {now' : Nat} (hle : now ≤ now') : VictimOf L now' order dirty a p := by
  obtain ⟨hset, ws, hvict, hws⟩ := hp
  exact ⟨hset, ws, hvict, hws.mono hle⟩

theorem VictimOf.way_lt {a : Nat} {p : Slot} (hp : VictimOf L now order dirty a p) :
    p.way < g.numOfWays := by
  obtain ⟨-, ws, hvict, -⟩ := hp
  exact hvict.1

/-- A valid entry is the entry of the block it was filled for. -/
theorem entryOf_of_valid (h : LevelOrder L now order dirty) {a : Nat} {p : Slot}
    (hway : p.way < g.numOfWays) (hv : (L.entry p).valid = true)
    (hset : p.set = g.setOf (g.block a)) (hblock : g.block (L.entry p).address = g.block a) :
    EntryOf L now order dirty a p := by
  obtain ⟨ws, hws⟩ := h p.set
  exact ⟨hset, hblock, ws, (hws.holds.order.mem_iff _).mpr ⟨hway, hv⟩, hws⟩

/-- The victim of a full set is the entry of its evictee; otherwise the
victim is free. -/
theorem VictimOf.evictee? {a : Nat} {p : Slot} (hp : VictimOf L now order dirty a p) :
    evictee? g.numOfWays (order (g.setOf (g.block a))) =
      if (L.entry p).valid = true then some (g.block (L.entry p).address) else none := by
  obtain ⟨hset, ws, hvict, hws⟩ := hp
  rw [← hset]
  exact Holds.Victim.evictee? hws.holds hvict

/-- A valid victim is the entry of the block of its stored address. -/
theorem VictimOf.entryOf {a : Nat} {p : Slot} (hp : VictimOf L now order dirty a p)
    (hv : (L.entry p).valid = true) :
    (L.entry p).address < uint32Size ∧
      EntryOf L now order dirty (L.entry p).address p := by
  obtain ⟨-, ws, hvict, hws⟩ := hp
  have hmem : p.way ∈ ws := (hws.holds.order.mem_iff _).mpr ⟨hvict.1, hv⟩
  have hok := hws.entryOK _ hmem
  exact ⟨hok.address_lt, by rw [← g.getSet_eq]; exact hok.set_eq.symm, rfl, ws, hmem, hws⟩

/-- A filled victim puts the new block in front. -/
theorem fill (h : LevelOrder L now order dirty) (hlists : Lists g.setOf g.numOfWays order)
    {a : Nat} (ha : a < uint32Size) {p : Slot} (hp : VictimOf L now order dirty a p)
    (hb : ¬Resident g.setOf order (g.block a)) :
    LevelOrder (L.setEntry p (Cache.filled g a now)) (now + 1)
      (insertIn g.setOf g.numOfWays (g.block a) order)
      (Function.update dirty (g.block a) false) := by
  obtain ⟨hset, ws, hvict, hws⟩ := hp
  rw [Resident, ← hset] at hb
  have hfill := hws.fill hvict ha ((g.getSet_eq a).trans hset.symm) hb
  rw [insertIn, ← hset]
  exact h.setEntry hlists (Nat.le_succ _)
    (fun b hb => Function.update_of_ne (fun heq => hb (by rw [heq, hset])) ..) hfill

end LevelOrder

end CacheSim

end ArchSim
