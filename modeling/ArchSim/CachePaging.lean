import ArchSim.CacheRun
import ArchSim.Paging

/-!
# How good least recently used is

When L2 has room for all blocks of a trace, L1 is on its own: nothing is
back-invalidated, and every access of the trace is an access to L1. Then the
outcome of an access is a matter of stack distances, and the misses of L1 can
be compared to those of any other replacement policy.
-/

namespace ArchSim

namespace CacheSim

variable {cfg : Config}

/-- Every access of the trace brings its block in, and no set of L2 is too
small for the blocks of the trace. -/
structure Config.FitsL2 (cfg : Config) (trace : List (Op × Nat)) : Prop where
  allocates : ∀ a ∈ trace, a.1 = .write → cfg.wrAlloc = .writeAllocate
  room : cfg.hierarchy.Fits₂ (trace.map fun a => cfg.block a.2).toFinset

/-- Since the last access to the block of `a`, fewer distinct blocks of its
L1 set have been accessed than the set has ways. -/
def Config.Near (cfg : Config) (past : List (Op × Nat)) (a : Op × Nat) : Prop :=
  ∃ older a' newer, past = older ++ a' :: newer ∧ cfg.block a'.2 = cfg.block a.2 ∧
    ((newer.map fun c => cfg.block c.2).filter fun b =>
      cfg.geom1.setOf b = cfg.geom1.setOf (cfg.block a.2)).toFinset.card < cfg.geom1.numOfWays

theorem map_snd_blocks (cfg : Config) (trace : List (Op × Nat)) :
    (cfg.blocks trace).map Prod.snd = trace.map fun a => cfg.block a.2 := by
  rw [Config.blocks, List.map_map]
  rfl

theorem Config.FitsL2.fetches {trace : List (Op × Nat)} (h : cfg.FitsL2 trace) :
    ∀ a ∈ cfg.blocks trace, Contents.fetches cfg.hierarchy a.1 = true := by
  intro a ha
  obtain ⟨⟨op, addr⟩, hmem, rfl⟩ := List.mem_map.mp ha
  cases op with
  | read => rfl
  | write => rw [fetches_write, h.allocates _ hmem rfl]; rfl

theorem holds₂_empty (H : Hierarchy Nat Nat Nat) : Holds₂ H Contents.empty ∅ := by
  intro c
  constructor
  · exact fun hc => absurd hc List.not_mem_nil
  · exact fun hc => absurd hc (Finset.notMem_empty c)

/-- L2 does not evict. -/
theorem Config.FitsL2.keepsAll {trace : List (Op × Nat)} (h : cfg.FitsL2 trace) :
    Contents.empty.KeepsAll cfg.hierarchy (cfg.blocks trace) := by
  refine (holds₂_empty cfg.hierarchy).keepsAll h.fetches (Inclusive.empty _) h.room
    (Finset.empty_subset _) ?_
  rw [map_snd_blocks]

/-- What the recency-list model finds after a part of the trace. -/
theorem Config.FitsL2.lookup {pre post : List (Op × Nat)} {a : Op × Nat}
    (h : cfg.FitsL2 (pre ++ a :: post)) :
    ((cfg.lru pre).2.lookup cfg.hierarchy (cfg.block a.2) = .l1Hit ↔ cfg.Near pre a) ∧
      ((cfg.lru pre).2.lookup cfg.hierarchy (cfg.block a.2) = .miss ↔
        ∀ a' ∈ pre, cfg.block a'.2 ≠ cfg.block a.2) := by
  have hblocks : cfg.blocks (pre ++ a :: post) = cfg.blocks pre ++ cfg.blocks (a :: post) :=
    List.map_append ..
  have hf : ∀ a ∈ cfg.blocks pre, Contents.fetches cfg.hierarchy a.1 = true := fun b hb =>
    h.fetches b (hblocks ▸ List.mem_append_left _ hb)
  have hk := h.keepsAll
  rw [hblocks] at hk
  have hincl : Inclusive cfg.hierarchy (cfg.lru pre).2 := (Inclusive.empty _).run _
  obtain ⟨h₂, h₁⟩ := hk.of_append.run hf [] (holds₂_empty _) (Inclusive.empty _)
    (lruOrder_nil ..).symm
  rw [map_snd_blocks, List.append_nil] at h₁ h₂
  refine ⟨?_, ?_⟩
  · rw [lookup_eq_l1Hit, Config.lru, h₁, resident_lruOrder, Config.Near]
    constructor
    · rintro ⟨newer, older, hpast, hlt⟩
      rw [List.reverse_eq_iff, List.reverse_append, List.reverse_cons, List.append_assoc,
        List.singleton_append, List.map_eq_append_iff] at hpast
      obtain ⟨older', rest, rfl, -, hrest⟩ := hpast
      obtain ⟨a', newer', rfl, hb, hnewer⟩ := List.map_eq_cons_iff.mp hrest
      refine ⟨older', a', newer', rfl, hb, ?_⟩
      rwa [hnewer, List.filter_reverse, List.toFinset_reverse]
    · rintro ⟨older, a', newer, rfl, hb, hlt⟩
      refine ⟨(newer.map fun c => cfg.block c.2).reverse,
        (older.map fun c => cfg.block c.2).reverse, ?_, ?_⟩
      · rw [List.map_append, List.map_cons, hb, List.reverse_append, List.reverse_cons,
          List.append_assoc, List.singleton_append]
      · rwa [List.filter_reverse, List.toFinset_reverse]
  · rw [Config.lru, h₂.lookup_eq_miss hincl, List.mem_toFinset, List.mem_reverse, List.mem_map]
    simp only [not_exists, not_and]

/-- If L2 has room for all blocks of a trace then an access is served by L1 if
and only if it is near enough to the last access to its block, a block is
fetched from memory when it is accessed for the first time only, and so L2
misses once for every block. -/
theorem outcomes_by_stack_distance (cfg : Config) (trace : List (Op × Nat))
    (haddr : ∀ a ∈ trace, a.2 < 2 ^ 32)
    (hcycle : (Cache.new cfg).StaysBelow (2 ^ 32 - 1) trace) (hfits : cfg.FitsL2 trace) :
    ∃ os c, (Cache.new cfg).run trace = .ok (os, c) ∧
      (∀ pre a post, trace = pre ++ a :: post →
        ∃ o, os[pre.length]? = some o ∧ (o = .l1Hit ↔ cfg.Near pre a) ∧
          (o = .miss ↔ ∀ a' ∈ pre, cfg.block a'.2 ≠ cfg.block a.2)) ∧
      c.L2.missCount = (trace.map fun a => cfg.block a.2).toFinset.card := by
  obtain ⟨c, hrun, hcnt, -⟩ := (Refines.new cfg).run trace haddr hcycle
  refine ⟨_, c, hrun, ?_, ?_⟩
  · rintro pre a post rfl
    refine ⟨_, ?_, hfits.lookup⟩
    have hget := Contents.run_getElem? (H := cfg.hierarchy) (cfg.blocks pre) (cfg.blocks post)
      (a.1, cfg.block a.2) Contents.empty
    have hlen : (cfg.blocks pre).length = pre.length := List.length_map ..
    rw [hlen] at hget
    have hblocks : cfg.blocks (pre ++ a :: post) =
        cfg.blocks pre ++ (a.1, cfg.block a.2) :: cfg.blocks post := List.map_append ..
    rw [hblocks]
    exact hget
  · have hmiss := hfits.keepsAll.countP_miss hfits.fetches (holds₂_empty cfg.hierarchy)
      (Inclusive.empty _)
    rw [map_snd_blocks, Finset.card_empty, Finset.empty_union, Nat.zero_add] at hmiss
    rw [hcnt.l2Miss, hmiss]
    exact Nat.zero_add _

/-- Block 2 is the only other block accessed since block 0 was. -/
theorem outcomes_by_stack_distance_smallConfig :
    ∃ (os : List Outcome) (c : Cache smallConfig),
      (Cache.new smallConfig).run [(.read, 0), (.read, 8), (.read, 1)] = .ok (os, c) ∧
      c.L2.missCount = 2 := by
  obtain ⟨os, c, hrun, -, hmiss⟩ := outcomes_by_stack_distance smallConfig
    [(.read, 0), (.read, 8), (.read, 1)] (by decide) (staysBelow_of_length _ (by decide))
    ⟨by decide, by decide⟩
  exact ⟨os, c, hrun, hmiss⟩

/-! ## Other policies -/

/-- Whatever another replacement policy with `h` ways a set has to do for the
same accesses, and though it may know them all in advance, L1 with its `k`
ways misses at most `k / (k + 1 - h)` times as often. -/
theorem lru_competitive (cfg : Config) (trace : List (Op × Nat))
    (haddr : ∀ a ∈ trace, a.2 < 2 ^ 32)
    (hcycle : (Cache.new cfg).StaysBelow (2 ^ 32 - 1) trace) (hfits : cfg.FitsL2 trace)
    (h : Nat) (hpos : 0 < h) (hle : h ≤ cfg.geom1.numOfWays) (n : Nat)
    (hother : ServesAll cfg.geom1.setOf h ∅ (trace.map fun a => cfg.block a.2) n) :
    ∃ os c, (Cache.new cfg).run trace = .ok (os, c) ∧
      (cfg.geom1.numOfWays + 1 - h) * c.L1.missCount ≤ cfg.geom1.numOfWays * n := by
  obtain ⟨c, hrun, hcnt, -⟩ := (Refines.new cfg).run trace haddr hcycle
  refine ⟨_, c, hrun, ?_⟩
  have hmisses := hfits.keepsAll.countP_l1Miss hfits.fetches
  rw [map_snd_blocks] at hmisses
  rw [hcnt.l1Miss, hmisses, show (Cache.new cfg).L1.missCount = 0 from rfl, Nat.zero_add]
  exact competitive_empty hother cfg.geom1.numOfWays_pos hpos hle

/-- Two ways in the one set of L1. -/
def pairConfig : Config := { smallConfig with l1Assoc := 1, l1_fits := by decide }

/-- Blocks 0, 1 and 2, twice. -/
def roundTrace : List (Op × Nat) :=
  [(.read, 0), (.read, 4), (.read, 8), (.read, 0), (.read, 4), (.read, 8)]

/-- A policy that knows the trace keeps block 0, and then block 2. -/
theorem servesAll_roundTrace :
    ServesAll pairConfig.geom1.setOf 2 ∅ (roundTrace.map fun a => pairConfig.block a.2) 4 := by
  have hserve : ∀ {C C' : Finset Nat} {b n : Nat} {rest : List Nat},
      b ∈ C' ∧ C' ⊆ insert b C ∧ C'.card ≤ 2 → ServesAll pairConfig.geom1.setOf 2 C' rest n →
        ServesAll pairConfig.geom1.setOf 2 C (b :: rest) ((if b ∈ C then 0 else 1) + n) :=
    fun h hrest => .cons h.1 h.2.1 (fun s => (Finset.card_filter_le _ _).trans h.2.2) hrest
  have h₆ : ServesAll pairConfig.geom1.setOf 2 {1, 2} [2] 0 :=
    @hserve {1, 2} {1, 2} 2 0 [] (by decide) (.nil _)
  have h₅ : ServesAll pairConfig.geom1.setOf 2 {0, 2} [1, 2] 1 := hserve (by decide) h₆
  have h₄ : ServesAll pairConfig.geom1.setOf 2 {0, 2} [0, 1, 2] 1 := hserve (by decide) h₅
  have h₃ : ServesAll pairConfig.geom1.setOf 2 {0, 1} [2, 0, 1, 2] 2 := hserve (by decide) h₄
  have h₂ : ServesAll pairConfig.geom1.setOf 2 {0} [1, 2, 0, 1, 2] 3 := hserve (by decide) h₃
  exact @hserve ∅ {0} 0 3 _ (by decide) h₂

theorem lru_competitive_roundTrace :
    ∃ (os : List Outcome) (c : Cache pairConfig),
      (Cache.new pairConfig).run roundTrace = .ok (os, c) ∧
      (pairConfig.geom1.numOfWays + 1 - 2) * c.L1.missCount ≤ pairConfig.geom1.numOfWays * 4 :=
  lru_competitive pairConfig roundTrace (by decide) (staysBelow_of_length _ (by decide))
    ⟨by decide, by decide⟩ 2 (by decide) (by decide) 4 servesAll_roundTrace

end CacheSim

end ArchSim
