import ArchSim.CacheLog

/-!
# The entries of the simulated cache

What holds of every entry of both levels after any trace: it is filed under
the set and tag of its address, no block is held twice, and no two entries
of a level carry the same time stamp. The last part is not about the
recency lists, which order the stamps inside one set only: it is read off
the log, where no two entries are used at one time.
-/

namespace ArchSim

namespace CacheSim

variable {cfg : Config}

/-! ## What holds of all entries -/

/-- Every valid entry is filed under the set and tag of its address, no two
ways of a set have valid entries of one tag, and no two valid entries of the
level have the same stamp. -/
structure CacheLevel.WellFiled {g : Geometry} (L : CacheLevel g) (now : Nat) : Prop where
  filed : ∀ i < g.numOfWays, ∀ s < g.numOfSets, (L.ways i s).valid = true →
    g.getSet (L.ways i s).address = s ∧ g.getTag (L.ways i s).address = (L.ways i s).tag
  tags : ∀ s < g.numOfSets, ∀ i < g.numOfWays, ∀ j < g.numOfWays,
    (L.ways i s).valid = true → (L.ways j s).valid = true →
      (L.ways i s).tag = (L.ways j s).tag → i = j
  stamps_lt : ∀ i < g.numOfWays, ∀ s < g.numOfSets, (L.ways i s).valid = true →
    (L.ways i s).lastAccessedTime < now
  stamps : ∀ i < g.numOfWays, ∀ s < g.numOfSets, ∀ j < g.numOfWays, ∀ t < g.numOfSets,
    (L.ways i s).valid = true → (L.ways j t).valid = true →
      (L.ways i s).lastAccessedTime = (L.ways j t).lastAccessedTime → i = j ∧ s = t

/-- `blockExists` succeeds for the address, and one way only matches. -/
def CacheLevel.HeldOnce {g : Geometry} (L : CacheLevel g) (address : Nat) : Prop :=
  (L.blockExists address).isSome ∧
    ∃! i, i < g.numOfWays ∧ (L.ways i (g.getSet address)).valid = true ∧
      (L.ways i (g.getSet address)).tag = g.getTag address

namespace LevelOrder

variable {g : Geometry} {L : CacheLevel g} {now : Nat} {order : Nat → List Nat}
  {dirty : Nat → Bool}

/-- Two valid entries of a set with one tag are the same entry. -/
theorem way_eq_of_tag (h : LevelOrder L now order dirty)
    (hlists : Lists g.setOf g.numOfWays order) {s i j : Nat} (hi : i < g.numOfWays)
    (hj : j < g.numOfWays) (hvi : (L.ways i s).valid = true) (hvj : (L.ways j s).valid = true)
    (htag : (L.ways i s).tag = (L.ways j s).tag) : i = j := by
  obtain ⟨ws, hws⟩ := h s
  have hmemi := (hws.holds.order.mem_iff i).mpr ⟨hi, hvi⟩
  have hmemj := (hws.holds.order.mem_iff j).mpr ⟨hj, hvj⟩
  have hokj := hws.entryOK j hmemj
  refine hws.holds.key_inj (hlists.nodup s) hmemi hmemj ?_
  exact (hws.entryOK i hmemi).block_eq_of_tag hokj.address_lt hokj.set_eq
    (htag.trans hokj.tag_eq)

theorem wellFiled {c : Cache cfg} {past : List Use} {use : Slot → Use}
    (h : LevelOrder L c.pseudoCycle order dirty) (hlists : Lists g.setOf g.numOfWays order)
    (hc : Marked c past) (hL : L.Marked use past) (huse : Function.Injective use)
    (hmax : c.pseudoCycle ≤ uint32Max) : L.WellFiled c.pseudoCycle where
  filed := fun i hi s _ hv => by
    obtain ⟨ws, hws⟩ := h s
    have hok := hws.entryOK i ((hws.holds.order.mem_iff i).mpr ⟨hi, hv⟩)
    exact ⟨hok.set_eq, hok.tag_eq.symm⟩
  tags := fun _ _ _ hi _ hj hvi hvj => h.way_eq_of_tag hlists hi hj hvi hvj
  stamps_lt := fun i _ s _ hv => (hc.stamps_below hL hmax (p := ⟨i, s⟩) hv).2
  stamps := fun i _ s _ j _ t _ hvi hvj heq => by
    have hi := (hc.stamps_below hL hmax (p := ⟨i, s⟩) hvi).1
    have hj := (hc.stamps_below hL hmax (p := ⟨j, t⟩) hvj).1
    have hsame := lastUse_inj (hL ⟨i, s⟩ hvi).1 (hL ⟨j, t⟩ hvj).1 (hi.symm.trans (heq.trans hj))
    obtain ⟨rfl, rfl⟩ := Slot.mk.inj (huse hsame)
    exact ⟨rfl, rfl⟩

theorem heldOnce (h : LevelOrder L now order dirty) (hlists : Lists g.setOf g.numOfWays order)
    {a : Nat} (ha : a < uint32Size) (hb : Resident g.setOf order (g.block a)) :
    L.HeldOnce a := by
  obtain ⟨p, hp, -⟩ := h.blockExists_eq_some hlists ha hb
  refine ⟨by rw [hp]; rfl, ?_⟩
  simp only [CacheLevel.blockExists, Option.map_eq_some_iff] at hp
  obtain ⟨i, hfind, -⟩ := hp
  have hmatch := List.find?_some hfind
  simp only [Bool.and_eq_true, beq_iff_eq] at hmatch
  have hi := List.mem_range.mp (List.mem_of_find?_eq_some hfind)
  refine ⟨i, ⟨hi, hmatch⟩, ?_⟩
  rintro j ⟨hj, hvj, htag⟩
  exact h.way_eq_of_tag hlists hj hi hvj hmatch.1 (htag.trans hmatch.2.symm)

end LevelOrder

theorem Config.fetches_eq (cfg : Config) {op : Op}
    (h : op = .read ∨ cfg.wrAlloc = .writeAllocate) :
    Contents.fetches cfg.hierarchy op = true := by
  cases op with
  | read => rfl
  | write =>
      have hpol := h.resolve_left (fun heq => nomatch heq)
      rw [fetches_write, hpol]
      rfl

/-- After any trace no block is duplicated, every entry is where it belongs
and has a stamp of its own; and if the last access was one that fetches, its
block is in exactly one way of each level. -/
theorem entries_consistent (cfg : Config) (trace : List (Op × Nat))
    (haddr : ∀ a ∈ trace, a.2 < 2 ^ 32)
    (hcycle : (Cache.new cfg).StaysBelow (2 ^ 32 - 1) trace) :
    ∃ os c, (Cache.new cfg).run trace = .ok (os, c) ∧
      c.L1.WellFiled c.stamp ∧ c.L2.WellFiled c.stamp ∧
      ∀ pre op a, trace = pre ++ [(op, a)] → (op = .read ∨ cfg.wrAlloc = .writeAllocate) →
        c.L1.HeldOnce a ∧ c.L2.HeldOnce a := by
  obtain ⟨c, hrun, -, href⟩ := (Refines.new cfg).run trace haddr hcycle
  have hmax : c.pseudoCycle ≤ uint32Max :=
    Nat.le_of_lt (hcycle trace (List.prefix_refl _) _ hrun)
  have hlog := (Marked.new cfg).of_run hrun
  have h₁ := href.level1.wellFiled href.incl.lists₁ hlog hlog.level1 Marked.l1_injective hmax
  have h₂ := href.level2.wellFiled href.incl.lists₂ hlog hlog.level2 Marked.l2_injective hmax
  rw [← Cache.stamp_eq hmax] at h₁ h₂
  refine ⟨_, c, hrun, h₁, h₂, ?_⟩
  rintro pre op a rfl hfetch
  have ha : a < uint32Size := haddr (op, a) (by simp)
  have hres : Resident cfg.geom1.setOf (Contents.empty.run cfg.hierarchy
      (cfg.blocks (pre ++ [(op, a)]))).2.order₁ (cfg.block a) := by
    rw [Config.blocks, List.map_append, Contents.run_append]
    exact Inclusive.access_resident₁ (cfg.fetches_eq hfetch) _ _
  exact ⟨href.level1.heldOnce href.incl.lists₁ ha hres,
    href.level2.heldOnce href.incl.lists₂ ha (href.incl.incl _ hres)⟩

theorem entries_consistent_smallTrace :
    ∃ os c, (Cache.new smallConfig).run smallTrace = .ok (os, c) ∧
      c.L1.WellFiled c.stamp ∧ c.L2.WellFiled c.stamp ∧ c.L1.HeldOnce 9 ∧ c.L2.HeldOnce 9 := by
  obtain ⟨os, c, hrun, h₁, h₂, hlast⟩ :=
    entries_consistent smallConfig smallTrace smallTrace_lt smallTrace_staysBelow
  obtain ⟨h₁', h₂'⟩ := hlast (smallTrace.take 4) .read 9 rfl (Or.inl rfl)
  exact ⟨os, c, hrun, h₁, h₂, h₁', h₂'⟩

end CacheSim

end ArchSim
