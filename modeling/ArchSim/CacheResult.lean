import ArchSim.CacheCycle
import ArchSim.Modified
import ArchSim.Separation
import ArchSim.StackProperty

/-!
# What the recency-list model says about the simulator

Results about the two-level hierarchy, carried over to runs of
`cacheSim.cpp`: which dirty flags are set, that accesses to different sets do
not interfere, and what more ways in L1 are good for.
-/

namespace ArchSim

namespace CacheSim

variable {cfg : Config}

/-! ## Contents -/

theorem LevelOrder.mem_contents {g : Geometry} {L : CacheLevel g} {now : Nat}
    {order : Nat → List Nat} {dirty : Nat → Bool} (h : LevelOrder L now order dirty)
    {s b : Nat} {d : Bool} : (b, d) ∈ L.contents s ↔ b ∈ order s ∧ dirty b = d := by
  rw [(h.contents_perm s).mem_iff, List.mem_map]
  constructor
  · rintro ⟨b', hb', heq⟩
    obtain ⟨rfl, rfl⟩ := Prod.mk.inj heq
    exact ⟨hb', rfl⟩
  · rintro ⟨hb, rfl⟩
    exact ⟨b, hb, rfl⟩

/-! ## Dirty flags -/

theorem Refines.modified_iff {c : Cache cfg} {m : Contents Nat Nat Nat} (h : Refines c m)
    {s b : Nat} {d : Bool} (hb : (b, d) ∈ c.L2.contents s) :
    (d = true ∨ ∃ t, (b, true) ∈ c.L1.contents t) ↔ m.Modified cfg.hierarchy b := by
  obtain ⟨-, rfl⟩ := h.level2.mem_contents.mp hb
  have h₁ : (∃ t, (b, true) ∈ c.L1.contents t) ↔
      Resident cfg.hierarchy.set₁ m.order₁ b ∧ m.dirty₁ b = true := by
    constructor
    · rintro ⟨t, ht⟩
      obtain ⟨hmem, hd⟩ := h.level1.mem_contents.mp ht
      exact ⟨h.incl.lists₁.resident hmem, hd⟩
    · rintro ⟨hres, hd⟩
      exact ⟨_, h.level1.mem_contents.mpr ⟨hres, hd⟩⟩
  rw [h₁, Contents.Modified]

/-- The dirty flags say which blocks have been modified: after every prefix
of a trace a block that L2 holds is dirty there or in L1 if and only if it
has been written to since it was last brought in. -/
theorem dirty_iff_written (cfg : Config) (trace : List (Op × Nat))
    (haddr : ∀ a ∈ trace, a.2 < 2 ^ 32)
    (hcycle : (Cache.new cfg).StaysBelow (2 ^ 32 - 1) trace) :
    ∀ pre, pre <+: trace →
      ∃ os c, (Cache.new cfg).run pre = .ok (os, c) ∧
        ∀ s b d, (b, d) ∈ c.L2.contents s →
          ∃ k, LastBroughtIn cfg.hierarchy (cfg.blocks pre) os b k ∧
            ((d = true ∨ ∃ t, (b, true) ∈ c.L1.contents t) ↔
              WrittenSince (cfg.blocks pre) b k) := by
  intro pre hpre
  obtain ⟨c, hrun, -, href⟩ := (Refines.new cfg).run pre
    (fun a ha => haddr a (hpre.subset ha)) (hcycle.of_prefix hpre)
  refine ⟨_, c, hrun, ?_⟩
  intro s b d hb
  have hres := href.incl.lists₂.resident (href.level2.mem_contents.mp hb).1
  obtain ⟨k, hk, hiff⟩ := run_faithful cfg.hierarchy (cfg.blocks pre) b hres
  exact ⟨k, hk, (href.modified_iff hb).trans hiff⟩

theorem dirty_iff_written_smallTrace :
    ∃ os c, (Cache.new smallConfig).run smallTrace = .ok (os, c) ∧
      ∀ s b d, (b, d) ∈ c.L2.contents s →
        ∃ k, LastBroughtIn smallConfig.hierarchy (smallConfig.blocks smallTrace) os b k ∧
          ((d = true ∨ ∃ t, (b, true) ∈ c.L1.contents t) ↔
            WrittenSince (smallConfig.blocks smallTrace) b k) :=
  dirty_iff_written smallConfig smallTrace smallTrace_lt smallTrace_staysBelow smallTrace
    (List.prefix_refl _)

/-! ## Sets do not interfere -/

/-- The smaller number of sets. -/
def Config.residues (cfg : Config) : Nat := min cfg.geom1.numOfSets cfg.geom2.numOfSets

/-- The block number of an access, modulo that number. -/
def Config.residue (cfg : Config) (a : Op × Nat) : Nat := cfg.block a.2 % cfg.residues

/-- The accesses of residue `r`. -/
def Config.ofResidue (cfg : Config) (r : Nat) (trace : List (Op × Nat)) : List (Op × Nat) :=
  trace.filter fun a => cfg.residue a = r

theorem Config.residues_eq (cfg : Config) :
    cfg.residues = 2 ^ min cfg.geom1.setsLog cfg.geom2.setsLog := by
  have hmono : Monotone fun n : Nat => 2 ^ n := fun _ _ hle =>
    Nat.pow_le_pow_right Nat.two_pos hle
  rw [Config.residues, Geometry.numOfSets_eq, Geometry.numOfSets_eq]
  exact (hmono.map_min).symm

theorem Config.residues_dvd₁ (cfg : Config) : cfg.residues ∣ cfg.geom1.numOfSets := by
  rw [cfg.residues_eq, Geometry.numOfSets_eq]
  exact Nat.pow_dvd_pow 2 (Nat.min_le_left ..)

theorem Config.residues_dvd₂ (cfg : Config) : cfg.residues ∣ cfg.geom2.numOfSets := by
  rw [cfg.residues_eq, Geometry.numOfSets_eq]
  exact Nat.pow_dvd_pow 2 (Nat.min_le_right ..)

/-- Every set of either level holds blocks of one residue. -/
def Config.classes (cfg : Config) : Classes cfg.hierarchy Nat where
  of := fun b => b % cfg.residues
  of₁ := fun s => s % cfg.residues
  of₂ := fun s => s % cfg.residues
  of₁_set := fun b => Nat.mod_mod_of_dvd b cfg.residues_dvd₁
  of₂_set := fun b => Nat.mod_mod_of_dvd b cfg.residues_dvd₂

theorem blocks_ofResidue (cfg : Config) (r : Nat) (trace : List (Op × Nat)) :
    cfg.blocks (cfg.ofResidue r trace) =
      (cfg.blocks trace).filter fun a => cfg.classes.of a.2 = r := by
  rw [Config.blocks, Config.blocks, List.filter_map]
  rfl

/-- The outcomes for residue `r`, with or without the other accesses. -/
theorem lru_ofResidue (cfg : Config) (r : Nat) (trace : List (Op × Nat)) :
    (cfg.blocks (cfg.ofResidue r trace)).zip (cfg.lru (cfg.ofResidue r trace)).1 =
      ((cfg.blocks trace).zip (cfg.lru trace).1).filter fun x => cfg.classes.of x.1.2 = r := by
  rw [Config.lru, blocks_ofResidue]
  exact run_filter cfg.classes r (cfg.blocks trace) (AgreeIn.refl ..) (Inclusive.empty _)

theorem length_lru (cfg : Config) (trace : List (Op × Nat)) :
    (cfg.lru trace).1.length = (cfg.blocks trace).length :=
  Contents.length_run ..

theorem outcomes_ofResidue (cfg : Config) (r : Nat) (trace : List (Op × Nat)) :
    (cfg.lru (cfg.ofResidue r trace)).1 =
      ((trace.zip (cfg.lru trace).1).filter fun x => cfg.residue x.1 = r).map Prod.snd := by
  have hzip := congrArg (List.map Prod.snd) (lru_ofResidue cfg r trace)
  rw [List.map_snd_zip (Nat.le_of_eq (length_lru cfg _))] at hzip
  rw [hzip, Config.blocks, List.zip_map_left, List.filter_map, List.map_map]
  rfl

theorem staysBelow_ofResidue (cfg : Config) (r : Nat) {trace : List (Op × Nat)}
    (haddr : ∀ a ∈ trace, a.2 < uint32Size)
    (hcycle : (Cache.new cfg).StaysBelow uint32Max trace) :
    (Cache.new cfg).StaysBelow uint32Max (cfg.ofResidue r trace) := by
  have hnew := Refines.new cfg
  obtain ⟨c, hrun, -⟩ := hnew.run trace haddr hcycle
  have htotal := run_updates trace hnew haddr hcycle hrun
  have hlt : c.pseudoCycle < uint32Max := hcycle trace (List.prefix_refl _) _ hrun
  have hle := totalUpdates_filter_le cfg.classes r (cfg.blocks trace)
    (AgreeIn.refl cfg.classes r Contents.empty) (Inclusive.empty _)
  rw [← blocks_ofResidue] at hle
  refine staysBelow_of_updates _ hnew (fun a ha => haddr a (List.mem_of_mem_filter ha)) ?_
  exact Nat.lt_of_le_of_lt (Nat.add_le_add_left hle _) (htotal ▸ hlt)

/-- Traces with the same accesses of every residue have the same outcomes,
in whatever order. -/
theorem outcomes_perm {cfg : Config} {trace trace' : List (Op × Nat)}
    (h : ∀ r < cfg.residues, cfg.ofResidue r trace' = cfg.ofResidue r trace) :
    (cfg.lru trace').1.Perm (cfg.lru trace).1 := by
  have hpos : 0 < cfg.residues := by
    rw [cfg.residues_eq]
    exact Nat.two_pow_pos _
  have hperm : ((cfg.blocks trace').zip (cfg.lru trace').1).Perm
      ((cfg.blocks trace).zip (cfg.lru trace).1) := by
    refine perm_of_filter_eq (f := fun x => cfg.classes.of x.1.2) fun r => ?_
    rcases Nat.lt_or_ge r cfg.residues with hr | hr
    · rw [← lru_ofResidue, ← lru_ofResidue, h r hr]
    · have hnone : ∀ l : List ((Op × Nat) × Outcome),
          (l.filter fun x => cfg.classes.of x.1.2 = r) = [] := fun l => by
        refine List.filter_eq_nil_iff.mpr fun x _ => ?_
        rw [decide_eq_true_eq]
        exact Nat.ne_of_lt (Nat.lt_of_lt_of_le (Nat.mod_lt x.1.2 hpos) hr)
      rw [hnone, hnone]
  have hsnd := hperm.map Prod.snd
  rwa [List.map_snd_zip (Nat.le_of_eq (length_lru cfg trace')),
    List.map_snd_zip (Nat.le_of_eq (length_lru cfg trace))] at hsnd

/-- Blocks 0 and 2 are of residue 0, and 1 and 3 of residue 1. -/
def interleaved : List (Op × Nat) :=
  [(.write, 0), (.read, 4), (.write, 8), (.read, 12), (.read, 1), (.read, 5)]

/-- The same, one residue after the other. -/
def grouped : List (Op × Nat) :=
  [(.write, 0), (.write, 8), (.read, 1), (.read, 4), (.read, 12), (.read, 5)]

/-- `2 ^ k` times as many ways in L1, with as many sets. -/
def Config.widenL1 (cfg : Config) (k : Nat) (hk : cfg.l1Size + k ≤ 30) : Config :=
  { cfg with
    l1Size := cfg.l1Size + k
    l1Assoc := cfg.l1Assoc + k
    l1_fits := by
      rw [← Nat.add_assoc]
      exact Nat.add_le_add_right cfg.l1_fits k
    l1_le_30 := hk }

/-- The access makes `fetchBlockFromMemory` overwrite a valid entry of L2. -/
def Cache.EvictsL2 (c : Cache cfg) (a : Op × Nat) : Prop :=
  c.outcome a.2 = .miss ∧ Contents.fetches cfg.hierarchy a.1 = true ∧
    ∃ p, c.L2.getEntryForNewBlock a.2 = .ok p ∧ (c.L2.entry p).valid = true

/-- No access of the trace does. -/
def Cache.KeepsL2 (c : Cache cfg) (trace : List (Op × Nat)) : Prop :=
  ∀ pre a, pre ++ [a] <+: trace → ∀ r, c.run pre = .ok r → ¬r.2.EvictsL2 a

theorem Cache.keepsL2_nil (c : Cache cfg) : c.KeepsL2 [] := by
  intro pre a hpre
  exact absurd (List.prefix_nil.mp hpre) (by simp)

theorem Cache.keepsL2_cons {c : Cache cfg} {a : Op × Nat} {rest : List (Op × Nat)} :
    c.KeepsL2 (a :: rest) ↔ ¬c.EvictsL2 a ∧ ∀ c', c.access a = .ok c' → c'.KeepsL2 rest := by
  constructor
  · intro h
    refine ⟨h [] a (List.cons_prefix_cons.mpr ⟨rfl, List.nil_prefix⟩) ([], c) rfl, ?_⟩
    intro c' hacc pre b hpre r hr
    refine h (a :: pre) b (List.cons_prefix_cons.mpr ⟨rfl, hpre⟩)
      (c.outcome a.2 :: r.1, r.2) ?_
    simp only [Cache.run, hacc, hr, bind, Except.bind, pure, Except.pure]
  · rintro ⟨hnow, hrest⟩ pre b hpre r hr
    cases pre with
    | nil =>
        cases hr
        obtain ⟨rfl, -⟩ := List.cons_prefix_cons.mp hpre
        exact hnow
    | cons a' pre =>
        obtain ⟨rfl, hpre'⟩ := List.cons_prefix_cons.mp hpre
        obtain ⟨c', hacc, hr⟩ := bind_eq_ok.mp hr
        obtain ⟨r', hr', hr⟩ := bind_eq_ok.mp hr
        cases hr
        exact hrest c' hacc pre b hpre' r' hr'

theorem Config.widenL1_ways (cfg : Config) (k : Nat) (hk : cfg.l1Size + k ≤ 30) :
    cfg.hierarchy.ways₁ ≤ (cfg.widenL1 k hk).geom1.numOfWays :=
  Nat.pow_le_pow_right Nat.two_pos (Nat.le_add_right ..)

theorem Config.widenL1_setOf (cfg : Config) (k : Nat) (hk : cfg.l1Size + k ≤ 30) :
    (cfg.widenL1 k hk).geom1.setOf = cfg.geom1.setOf := by
  have hsets : (cfg.widenL1 k hk).geom1.numOfSets = cfg.geom1.numOfSets := by
    have hfits := cfg.l1_fits
    rw [Geometry.numOfSets_eq, Geometry.numOfSets_eq]
    congr 1
    simp only [Geometry.setsLog, Config.geom1, Config.widenL1]
    omega
  funext b
  rw [Geometry.setOf, Geometry.setOf, hsets]

theorem Config.widenL1_hierarchy (cfg : Config) (k : Nat) (hk : cfg.l1Size + k ≤ 30) :
    (cfg.widenL1 k hk).hierarchy = cfg.hierarchy.widen _ (cfg.widenL1_ways k hk) := by
  simp only [Config.hierarchy, cfg.widenL1_setOf k hk]
  rfl

theorem Refines.keeps {c : Cache cfg} {m : Contents Nat Nat Nat} (h : Refines c m)
    (hc : c.pseudoCycle ≤ uint32Max) {a : Op × Nat} (ha : a.2 < uint32Size)
    (hno : ¬c.EvictsL2 a) : m.Keeps cfg.hierarchy a.1 (cfg.block a.2) := by
  intro hmiss hf
  obtain ⟨p, hget, hp⟩ := h.level2.getEntryForNewBlock hc ha
  have hev : evictee? cfg.hierarchy.ways₂
      (m.order₂ (cfg.hierarchy.set₂ (cfg.block a.2))) = _ := hp.evictee?
  rw [hev]
  refine if_neg fun hv => hno ⟨?_, hf, p, hget, hv⟩
  rw [h.outcome_eq ha]
  exact hmiss

theorem Refines.keepsAll (trace : List (Op × Nat)) :
    ∀ {c : Cache cfg} {m : Contents Nat Nat Nat}, Refines c m →
      (∀ a ∈ trace, a.2 < uint32Size) → c.StaysBelow uint32Max trace → c.KeepsL2 trace →
      m.KeepsAll cfg.hierarchy (cfg.blocks trace) := by
  induction trace with
  | nil => exact fun _ _ _ _ => trivial
  | cons a rest ih =>
      intro c m h haddr hcycle hkeep
      have ha := haddr a (List.mem_cons_self ..)
      obtain ⟨c₁, hacc, -, hpost⟩ := h.access hcycle.now ha a.1
      have hcycle₁ := hcycle.tail hacc
      obtain ⟨hnow, hrest⟩ := Cache.keepsL2_cons.mp hkeep
      exact ⟨h.keeps (Nat.le_of_lt hcycle.now) ha hnow, ih (hpost (Nat.le_of_lt hcycle₁.now))
        (fun b hb => haddr b (List.mem_cons_of_mem _ hb)) hcycle₁ (hrest c₁ hacc)⟩

theorem Cache.KeepsL2.of_prefix {c : Cache cfg} {pre trace : List (Op × Nat)}
    (h : c.KeepsL2 trace) (hpre : pre <+: trace) : c.KeepsL2 pre :=
  fun pre' a hpre' => h pre' a (hpre'.trans hpre)

/-- The stack property: as long as L2 evicts no valid block, with more ways
in L1 every hit stays a hit, every L1 set keeps what it holds with fewer
ways, and there are not more misses. -/
theorem more_ways_fewer_misses (cfg : Config) (k : Nat) (hk : cfg.l1Size + k ≤ 30)
    (trace : List (Op × Nat)) (haddr : ∀ a ∈ trace, a.2 < 2 ^ 32)
    (hcycle : (Cache.new cfg).StaysBelow (2 ^ 32 - 1) trace)
    (hcycle' : (Cache.new (cfg.widenL1 k hk)).StaysBelow (2 ^ 32 - 1) trace)
    (hkeep : (Cache.new cfg).KeepsL2 trace)
    (hkeep' : (Cache.new (cfg.widenL1 k hk)).KeepsL2 trace) :
    ∀ pre, pre <+: trace →
      ∃ os c os' c', (Cache.new cfg).run pre = .ok (os, c) ∧
        (Cache.new (cfg.widenL1 k hk)).run pre = .ok (os', c') ∧
        List.Forall₂ (fun o o' => o = .l1Hit → o' = .l1Hit) os os' ∧
        (∀ s b d, (b, d) ∈ c.L1.contents s → ∃ d', (b, d') ∈ c'.L1.contents s) ∧
        c'.L1.missCount ≤ c.L1.missCount := by
  intro pre hpre
  have haddr_pre : ∀ a ∈ pre, a.2 < uint32Size := fun a ha => haddr a (hpre.subset ha)
  have hnew := Refines.new cfg
  have hnew' := Refines.new (cfg.widenL1 k hk)
  obtain ⟨c, hrun, hcnt, href⟩ := hnew.run pre haddr_pre (hcycle.of_prefix hpre)
  obtain ⟨c', hrun', hcnt', href'⟩ := hnew'.run pre haddr_pre (hcycle'.of_prefix hpre)
  have hall := hnew.keepsAll pre haddr_pre (hcycle.of_prefix hpre) (hkeep.of_prefix hpre)
  have hall' := hnew'.keepsAll pre haddr_pre (hcycle'.of_prefix hpre) (hkeep'.of_prefix hpre)
  have hblocks : (cfg.widenL1 k hk).blocks pre = cfg.blocks pre := rfl
  rw [hblocks, cfg.widenL1_hierarchy k hk] at hall' hcnt' hrun'
  obtain ⟨hhits, hlast⟩ := (Narrower.empty cfg.hierarchy).run (cfg.blocks pre)
    (Inclusive.empty _) (Inclusive.empty _) hall hall'
  refine ⟨_, c, _, c', hrun, hrun', hhits, ?_, ?_⟩
  · intro s b d hb
    have hmem := (hlast.part s).sublist.subset (href.level1.mem_contents.mp hb).1
    rw [← cfg.widenL1_hierarchy k hk] at hmem
    exact ⟨_, href'.level1.mem_contents.mpr ⟨hmem, rfl⟩⟩
  · rw [hcnt.l1Miss, hcnt'.l1Miss]
    refine Nat.add_le_add_left (countP_le_of_forall₂ (hhits.imp ?_)) _
    intro o o' himp
    simp only [decide_eq_true_eq]
    exact fun hne heq => hne (himp heq)

instance (c : Cache cfg) (a : Op × Nat) : Decidable (c.EvictsL2 a) :=
  match h : c.L2.getEntryForNewBlock a.2 with
  | .ok p => decidable_of_iff (c.outcome a.2 = .miss ∧ Contents.fetches cfg.hierarchy a.1 = true ∧
      (c.L2.entry p).valid = true) (by simp [Cache.EvictsL2, h])
  | .error _ => isFalse (by simp [Cache.EvictsL2, h])

instance decidableKeepsL2 : ∀ (trace : List (Op × Nat)) (c : Cache cfg),
    Decidable (c.KeepsL2 trace)
  | [], c => isTrue c.keepsL2_nil
  | a :: rest, c =>
      match h : c.access a with
      | .ok c' =>
          have := decidableKeepsL2 rest c'
          decidable_of_iff (¬c.EvictsL2 a ∧ c'.KeepsL2 rest) (by simp [Cache.keepsL2_cons, h])
      | .error _ => decidable_of_iff (¬c.EvictsL2 a) (by simp [Cache.keepsL2_cons, h])

/-- Two ways keep block 0 when block 2 comes in. -/
theorem more_ways_fewer_misses_smallConfig :
    ∃ (os os' : List Outcome) (c : Cache smallConfig)
      (c' : Cache (smallConfig.widenL1 1 (by decide))),
      (Cache.new smallConfig).run [(.read, 0), (.read, 8), (.read, 1)] = .ok (os, c) ∧
      (Cache.new (smallConfig.widenL1 1 (by decide))).run [(.read, 0), (.read, 8), (.read, 1)] =
        .ok (os', c') ∧
      c'.L1.missCount ≤ c.L1.missCount := by
  obtain ⟨os, c, os', c', hrun, hrun', -, -, hmiss⟩ := more_ways_fewer_misses smallConfig 1
    (by decide) [(.read, 0), (.read, 8), (.read, 1)] (by decide)
    (staysBelow_of_length _ (by decide)) (staysBelow_of_length _ (by decide))
    (by decide) (by decide) [(.read, 0), (.read, 8), (.read, 1)] (List.prefix_refl _)
  exact ⟨os, os', c, c', hrun, hrun', hmiss⟩

end CacheSim

end ArchSim
