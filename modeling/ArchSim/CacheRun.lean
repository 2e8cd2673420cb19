import ArchSim.CacheRefine
import ArchSim.WhileLoop

/-!
# Runs of the cache simulator

The run lemma over a whole trace, and what it says about the program:
`cacheSim.cpp` computes the outcomes, counters and contents of its
recency-list model, and L1 stays included in L2, so that the unchecked
dereference in `fetchToL1` never meets `NULL`.
-/

namespace ArchSim

namespace CacheSim

variable {cfg : Config}

/-- The blocks that a trace of addresses accesses. -/
def Config.blocks (cfg : Config) (trace : List (Op × Nat)) : List (Op × Nat) :=
  trace.map fun a => (a.1, cfg.block a.2)

/-- The recency-list model of a trace: its outcomes and final contents. -/
def Config.lru (cfg : Config) (trace : List (Op × Nat)) :
    List Outcome × Contents Nat Nat Nat :=
  Contents.empty.run cfg.hierarchy (cfg.blocks trace)

/-- During the trace `pseudo_cycle` stays below the bound. -/
def Cache.StaysBelow (c : Cache cfg) (bound : Nat) (trace : List (Op × Nat)) : Prop :=
  ∀ pre, pre <+: trace → ∀ r, c.run pre = .ok r → r.2.pseudoCycle < bound

theorem Cache.StaysBelow.now {c : Cache cfg} {bound : Nat} {trace : List (Op × Nat)}
    (h : c.StaysBelow bound trace) : c.pseudoCycle < bound :=
  h [] (List.nil_prefix) ([], c) rfl

theorem Cache.StaysBelow.of_prefix {c : Cache cfg} {bound : Nat} {pre trace : List (Op × Nat)}
    (h : c.StaysBelow bound trace) (hpre : pre <+: trace) : c.StaysBelow bound pre :=
  fun pre' hpre' => h pre' (hpre'.trans hpre)

theorem Cache.StaysBelow.tail {c c' : Cache cfg} {bound : Nat} {a : Op × Nat}
    {rest : List (Op × Nat)} (h : c.StaysBelow bound (a :: rest)) (hc' : c.access a = .ok c') :
    c'.StaysBelow bound rest := by
  intro pre hpre r hr
  refine h (a :: pre) ((List.prefix_cons_inj a).mpr hpre) (c.outcome a.2 :: r.1, r.2) ?_
  simp only [Cache.run, hc', hr, bind, Except.bind, pure, Except.pure]

/-- A run of the simulator is a run of the hierarchy. -/
theorem Refines.run :
    ∀ (trace : List (Op × Nat)) {c : Cache cfg} {m : Contents Nat Nat Nat}, Refines c m →
      (∀ a ∈ trace, a.2 < uint32Size) → c.StaysBelow uint32Max trace →
      ∃ c', c.run trace = .ok ((m.run cfg.hierarchy (cfg.blocks trace)).1, c') ∧
        Counted c c' (m.run cfg.hierarchy (cfg.blocks trace)).1 ∧
        Refines c' (m.run cfg.hierarchy (cfg.blocks trace)).2
  | [], c, m, h, _, _ => ⟨c, rfl, by constructor <;> rfl, h⟩
  | a :: rest, c, m, h, haddr, hcycle => by
      have ha := haddr a (List.mem_cons_self ..)
      obtain ⟨c₁, hacc, hcnt₁, hpost⟩ := h.access hcycle.now ha a.1
      have hcycle₁ : c₁.StaysBelow uint32Max rest := hcycle.tail hacc
      obtain ⟨c', hrun, hcnt, href⟩ := Refines.run rest (hpost (Nat.le_of_lt hcycle₁.now))
        (fun b hb => haddr b (List.mem_cons_of_mem _ hb)) hcycle₁
      rw [h.outcome_eq ha] at hcnt₁
      refine ⟨c', ?_, hcnt₁.cons hcnt, href⟩
      simp only [Cache.run, hacc, hrun, bind, Except.bind, pure, Except.pure, h.outcome_eq ha]
      rfl

/-! ## What an access can do -/

/-- The block is used in L1, used in L2 only, fetched from L2 or from
memory, or not fetched. -/
inductive AccessStep (c : Cache cfg) (op : Op) (address : Nat) : Cache cfg → Prop where
  | l1Hit (p : Slot) (dirty : Bool) (h₁ : c.L1.blockExists address = some p) :
      AccessStep c op address (c.countL1.touchL1 p dirty)
  | l2Hit (p : Slot) (h₁ : c.L1.blockExists address = none)
      (h₂ : c.L2.blockExists address = some p)
      (hf : Contents.fetches cfg.hierarchy op = false) :
      AccessStep c op address (c.countL1.countL2.touchL2 p true)
  | fetchL1 (p : Slot) (r : Cache cfg × Slot) (h₁ : c.L1.blockExists address = none)
      (h₂ : c.L2.blockExists address = some p)
      (hf : Contents.fetches cfg.hierarchy op = true)
      (h : (c.countL1.countL2.touchL2 p (c.L2.entry p).dirty).fetchToL1 address = .ok r) :
      AccessStep c op address r.1
  | fetchL1Write (p : Slot) (r : Cache cfg × Slot) (h₁ : c.L1.blockExists address = none)
      (h₂ : c.L2.blockExists address = some p)
      (hf : Contents.fetches cfg.hierarchy op = true)
      (h : (c.countL1.countL2.touchL2 p (c.L2.entry p).dirty).fetchToL1 address = .ok r) :
      AccessStep c op address (r.1.markDirtyL1 r.2)
  | fetch (r : Cache cfg × Slot) (h₁ : c.L1.blockExists address = none)
      (h₂ : c.L2.blockExists address = none)
      (hf : Contents.fetches cfg.hierarchy op = true)
      (h : c.countL1.countL2.countMemory.fetchBlockFromMemory address = .ok r) :
      AccessStep c op address r.1
  | fetchWrite (r : Cache cfg × Slot) (h₁ : c.L1.blockExists address = none)
      (h₂ : c.L2.blockExists address = none)
      (hf : Contents.fetches cfg.hierarchy op = true)
      (h : c.countL1.countL2.countMemory.fetchBlockFromMemory address = .ok r) :
      AccessStep c op address (r.1.markDirtyL1 r.2)
  | bypass (h₁ : c.L1.blockExists address = none) (h₂ : c.L2.blockExists address = none)
      (hf : Contents.fetches cfg.hierarchy op = false) :
      AccessStep c op address c.countL1.countL2.countMemory

theorem outcome_l1Hit {c : Cache cfg} {a : Nat} {p : Slot} (h : c.L1.blockExists a = some p) :
    c.outcome a = .l1Hit := by
  simp only [Cache.outcome, h]

theorem outcome_l2Hit {c : Cache cfg} {a : Nat} {p : Slot} (h₁ : c.L1.blockExists a = none)
    (h₂ : c.L2.blockExists a = some p) : c.outcome a = .l2Hit := by
  simp only [Cache.outcome, h₁, h₂]

theorem outcome_miss {c : Cache cfg} {a : Nat} (h₁ : c.L1.blockExists a = none)
    (h₂ : c.L2.blockExists a = none) : c.outcome a = .miss := by
  simp only [Cache.outcome, h₁, h₂]

theorem fetches_write (cfg : Config) :
    Contents.fetches cfg.hierarchy .write = (cfg.wrAlloc == .writeAllocate) := rfl

theorem accessStep_of_read {c c' : Cache cfg} {a : Nat} (h : c.cacheRead a = .ok c') :
    AccessStep c .read a c' := by
  simp only [Cache.cacheRead] at h
  split at h
  · rename_i h₁
    split at h
    · rename_i h₂
      obtain ⟨r, hr, h⟩ := bind_eq_ok.mp h
      cases h
      exact .fetch r h₁ h₂ rfl hr
    · rename_i h₂
      obtain ⟨r, hr, h⟩ := bind_eq_ok.mp h
      cases h
      exact .fetchL1 _ r h₁ h₂ rfl hr
  · rename_i h₁
    cases h
    exact .l1Hit _ _ h₁

theorem accessStep_of_write {c c' : Cache cfg} {a : Nat} (h : c.cacheWrite a = .ok c') :
    AccessStep c .write a c' := by
  simp only [Cache.cacheWrite] at h
  split at h
  · rename_i h₁
    split at h
    · rename_i h₂
      split at h
      · rename_i hpol
        obtain ⟨r, hr, h⟩ := bind_eq_ok.mp h
        cases h
        exact .fetchWrite r h₁ h₂ (by rw [fetches_write, hpol]; rfl) hr
      · rename_i hpol
        cases h
        exact .bypass h₁ h₂ (by rw [fetches_write, hpol]; rfl)
    · rename_i h₂
      split at h
      · rename_i hpol
        cases h
        exact .l2Hit _ h₁ h₂ (by rw [fetches_write, hpol]; rfl)
      · rename_i hpol
        obtain ⟨r, hr, h⟩ := bind_eq_ok.mp h
        cases h
        exact .fetchL1Write _ r h₁ h₂ (by rw [fetches_write, hpol]; rfl) hr
  · rename_i h₁
    cases h
    exact .l1Hit _ _ h₁

theorem accessStep_of_access {c c' : Cache cfg} {a : Op × Nat} (h : c.access a = .ok c') :
    AccessStep c a.1 a.2 c' := by
  obtain ⟨op, addr⟩ := a
  cases op with
  | read => exact accessStep_of_read h
  | write => exact accessStep_of_write h

/-! ## How fast `pseudo_cycle` grows -/

theorem saveL1Victim_pseudoCycle {c c' : Cache cfg} {p : Slot} (h : c.saveL1Victim p = .ok c') :
    c'.pseudoCycle ≤ c.pseudoCycle + 1 := by
  unfold Cache.saveL1Victim at h
  split at h
  · split at h
    · cases h
      exact Nat.le_refl _
    · cases h
  · cases h
    exact Nat.le_succ _

theorem fetchToL1_pseudoCycle {c : Cache cfg} {a : Nat} {r : Cache cfg × Slot}
    (h : c.fetchToL1 a = .ok r) : r.1.pseudoCycle ≤ c.pseudoCycle + 2 := by
  obtain ⟨p, -, h⟩ := bind_eq_ok.mp h
  obtain ⟨c₁, hsave, h⟩ := bind_eq_ok.mp h
  cases h
  exact Nat.succ_le_succ (saveL1Victim_pseudoCycle hsave)

theorem fetchBlockFromMemory_pseudoCycle {c : Cache cfg} {a : Nat} {r : Cache cfg × Slot}
    (h : c.fetchBlockFromMemory a = .ok r) : r.1.pseudoCycle ≤ c.pseudoCycle + 3 := by
  obtain ⟨p, -, h⟩ := bind_eq_ok.mp h
  have := fetchToL1_pseudoCycle h
  simp only [Cache.fillL2, Cache.dropL2Victim_pseudoCycle] at this
  omega

/-- An access stamps at most three entries. -/
theorem access_pseudoCycle {c c' : Cache cfg} {a : Op × Nat} (h : c.access a = .ok c') :
    c'.pseudoCycle ≤ c.pseudoCycle + 3 := by
  have hpc : c.countL1.countL2.countMemory.pseudoCycle = c.pseudoCycle := rfl
  cases accessStep_of_access h with
  | l1Hit p d h₁ => exact Nat.add_le_add_left (by decide) _
  | l2Hit p h₁ h₂ hf => exact Nat.add_le_add_left (by decide) _
  | fetchL1 p r h₁ h₂ hf hr => exact fetchToL1_pseudoCycle hr
  | fetchL1Write p r h₁ h₂ hf hr => exact fetchToL1_pseudoCycle hr
  | fetch r h₁ h₂ hf hr => exact hpc ▸ fetchBlockFromMemory_pseudoCycle hr
  | fetchWrite r h₁ h₂ hf hr => exact hpc ▸ fetchBlockFromMemory_pseudoCycle hr
  | bypass h₁ h₂ hf => exact Nat.le_add_right ..

theorem run_pseudoCycle : ∀ (trace : List (Op × Nat)) {c : Cache cfg}
    {r : List Outcome × Cache cfg}, c.run trace = .ok r →
      r.2.pseudoCycle ≤ c.pseudoCycle + 3 * trace.length
  | [], c, r, h => by
      cases h
      exact Nat.le_refl _
  | a :: rest, c, r, h => by
      obtain ⟨c₁, hacc, h⟩ := bind_eq_ok.mp h
      obtain ⟨r', hrun, h⟩ := bind_eq_ok.mp h
      cases h
      have h₁ := access_pseudoCycle hacc
      have h₂ := run_pseudoCycle rest hrun
      rw [List.length_cons]
      exact Nat.le_trans h₂ (by omega)

/-- A trace of fewer than a third of `2 ^ 32` accesses cannot bring
`pseudo_cycle` to its limit. -/
theorem staysBelow_of_length (cfg : Config) {trace : List (Op × Nat)}
    (h : 3 * trace.length < 2 ^ 32 - 1) : (Cache.new cfg).StaysBelow (2 ^ 32 - 1) trace := by
  intro pre hpre r hr
  have h₁ := run_pseudoCycle pre hr
  have h₂ := hpre.length_le
  simp only [Cache.new] at h₁
  omega

/-! ## What the program computes -/

/-- The valid blocks of a set, read off tags and set number, with their
dirty flags. -/
def CacheLevel.contents {g : Geometry} (L : CacheLevel g) (s : Nat) : List (Nat × Bool) :=
  ((List.range g.numOfWays).filter fun i => (L.ways i s).valid).map fun i =>
    ((L.ways i s).tag * g.numOfSets + s, (L.ways i s).dirty)

theorem LevelOrder.contents_perm {g : Geometry} {L : CacheLevel g} {now : Nat}
    {order : Nat → List Nat} {dirty : Nat → Bool} (h : LevelOrder L now order dirty) (s : Nat) :
    (L.contents s).Perm ((order s).map fun b => (b, dirty b)) := by
  obtain ⟨ws, hws⟩ := h s
  have hperm : ((List.range g.numOfWays).filter fun i => (L.ways i s).valid).Perm ws := by
    refine (List.perm_ext_iff_of_nodup (List.nodup_range.filter _) hws.holds.order.nodup).mpr
      ?_
    intro i
    rw [List.mem_filter, List.mem_range, hws.holds.order.mem_iff]
  have hlines : ws.map (fun i => ((L.ways i s).tag * g.numOfSets + s, (L.ways i s).dirty)) =
      (order s).map fun b => (b, dirty b) := by
    rw [← hws.holds.keys, List.map_map]
    refine List.map_congr_left ?_
    intro i hi
    have hok := hws.entryOK i hi
    simp only [Function.comp_apply, hok.dirty_eq, hok.tag_eq]
    rw [g.block_eq hok.address_lt, hok.set_eq]
  rw [← hlines]
  exact hperm.map _

/-- The simulator refines its recency-list model: after every prefix of
the trace the outcomes so far, the counters, the access time and the
contents of every set with their dirty flags are the model's, whose
lists hold distinct blocks, at most one for each way. -/
theorem cacheSim_refines_lru (cfg : Config) (trace : List (Op × Nat))
    (haddr : ∀ a ∈ trace, a.2 < 2 ^ 32)
    (hcycle : (Cache.new cfg).StaysBelow (2 ^ 32 - 1) trace) :
    ∀ pre, pre <+: trace →
      ∃ c, (Cache.new cfg).run pre = .ok ((cfg.lru pre).1, c) ∧
        c.L1.accessCount = pre.length ∧
        c.L1.missCount = (cfg.lru pre).1.countP (· ≠ .l1Hit) ∧
        c.L2.accessCount = (cfg.lru pre).1.countP (· ≠ .l1Hit) ∧
        c.L2.missCount = (cfg.lru pre).1.countP (· = .miss) ∧
        c.tAccessTotal = ((cfg.lru pre).1.map cfg.time).sum ∧
        (∀ s, (c.L1.contents s).Perm
          (((cfg.lru pre).2.order₁ s).map fun b => (b, (cfg.lru pre).2.dirty₁ b))) ∧
        (∀ s, (c.L2.contents s).Perm
          (((cfg.lru pre).2.order₂ s).map fun b => (b, (cfg.lru pre).2.dirty₂ b))) ∧
        (∀ s, ((cfg.lru pre).2.order₁ s).Nodup ∧
          ((cfg.lru pre).2.order₁ s).length ≤ cfg.geom1.numOfWays) ∧
        (∀ s, ((cfg.lru pre).2.order₂ s).Nodup ∧
          ((cfg.lru pre).2.order₂ s).length ≤ cfg.geom2.numOfWays) := by
  intro pre hpre
  obtain ⟨c, hrun, hcnt, href⟩ := (Refines.new cfg).run pre
    (fun a ha => haddr a (hpre.subset ha)) (hcycle.of_prefix hpre)
  have hlen : ((cfg.lru pre).1).length = pre.length := by
    rw [Config.lru, Contents.length_run, Config.blocks, List.length_map]
  refine ⟨c, hrun, ?_, ?_, ?_, ?_, ?_, href.level1.contents_perm, href.level2.contents_perm,
    fun s => ⟨href.incl.lists₁.nodup s, href.incl.lists₁.le_ways s⟩,
    fun s => ⟨href.incl.lists₂.nodup s, href.incl.lists₂.le_ways s⟩⟩
  · rw [hcnt.l1Access, ← hlen]
    exact Nat.zero_add _
  · rw [hcnt.l1Miss]
    exact Nat.zero_add _
  · rw [hcnt.l2Access]
    exact Nat.zero_add _
  · rw [hcnt.l2Miss]
    exact Nat.zero_add _
  · rw [hcnt.time]
    exact Nat.zero_add _

/-- Blocks of 4 bytes; a direct-mapped L1 of two blocks over a two-way
L2 of four. -/
def smallConfig : Config where
  memCyc := 100
  bSize := 2
  l1Size := 3
  l2Size := 4
  l1Assoc := 0
  l2Assoc := 1
  l1Cyc := 1
  l2Cyc := 10
  wrAlloc := .writeAllocate
  l1_fits := by decide
  l1_le_30 := by decide
  l2_fits := by decide
  l2_le_30 := by decide

/-- Blocks 0, 2 and 4 share one set in both levels. The write-back of
block 2 makes it more recent in L2 than block 0, which therefore has to
go when block 4 comes in. -/
def smallTrace : List (Op × Nat) := [(.write, 0), (.write, 8), (.read, 1), (.read, 16), (.read, 9)]

theorem smallTrace_lt : ∀ a ∈ smallTrace, a.2 < 2 ^ 32 := by decide

theorem smallTrace_staysBelow : (Cache.new smallConfig).StaysBelow (2 ^ 32 - 1) smallTrace :=
  staysBelow_of_length smallConfig (by decide)

theorem cacheSim_refines_lru_smallTrace :
    ∃ c, (Cache.new smallConfig).run smallTrace = .ok ([.miss, .miss, .l2Hit, .miss, .l2Hit], c) ∧
      c.tAccessTotal = 355 ∧ (c.L2.contents 0).Perm [(2, true), (4, false)] := by
  obtain ⟨c, hrun, -, -, -, -, htime, -, hL2, -⟩ :=
    cacheSim_refines_lru smallConfig smallTrace smallTrace_lt smallTrace_staysBelow smallTrace
      (List.prefix_refl _)
  have hos : (smallConfig.lru smallTrace).1 = [.miss, .miss, .l2Hit, .miss, .l2Hit] := by decide
  have hlist : (((smallConfig.lru smallTrace).2.order₂ 0).map fun b =>
      (b, (smallConfig.lru smallTrace).2.dirty₂ b)) = [(2, true), (4, false)] := by decide
  rw [hos] at hrun htime
  exact ⟨c, hrun, htime, hlist ▸ hL2 0⟩

/-- L1 is included in L2 after every run, and no run dereferences `NULL`:
it ends normally, and every valid L1 entry's block has a valid L2 entry. -/
theorem l1_included_in_l2 (cfg : Config) (trace : List (Op × Nat))
    (haddr : ∀ a ∈ trace, a.2 < 2 ^ 32)
    (hcycle : (Cache.new cfg).StaysBelow (2 ^ 32 - 1) trace) :
    ∃ os c, (Cache.new cfg).run trace = .ok (os, c) ∧
      ∀ i < cfg.geom1.numOfWays, ∀ s < cfg.geom1.numOfSets, (c.L1.ways i s).valid = true →
        (c.L2.blockExists (c.L1.ways i s).address).isSome := by
  obtain ⟨c, hrun, -, href⟩ := (Refines.new cfg).run trace haddr hcycle
  refine ⟨_, c, hrun, ?_⟩
  intro i hi s _ hv
  obtain ⟨ws, hws⟩ := href.level1 s
  have hmem : i ∈ ws := (hws.holds.order.mem_iff i).mpr ⟨hi, hv⟩
  have hok := hws.entryOK i hmem
  have hres : Resident cfg.geom1.setOf
      (Contents.empty.run cfg.hierarchy (cfg.blocks trace)).2.order₁
      (cfg.block (c.L1.ways i s).address) := by
    refine href.incl.lists₁.resident (s := s) ?_
    rw [← hws.holds.keys]
    exact List.mem_map_of_mem hmem
  obtain ⟨q, hq, -⟩ := href.level2.blockExists_eq_some href.incl.lists₂ hok.address_lt
    (href.incl.incl _ hres)
  rw [hq]
  rfl

theorem l1_included_in_l2_smallTrace :
    ∃ os c, (Cache.new smallConfig).run smallTrace = .ok (os, c) ∧
      ∀ i < smallConfig.geom1.numOfWays, ∀ s < smallConfig.geom1.numOfSets,
        (c.L1.ways i s).valid = true → (c.L2.blockExists (c.L1.ways i s).address).isSome :=
  l1_included_in_l2 smallConfig smallTrace smallTrace_lt smallTrace_staysBelow

end CacheSim

end ArchSim
