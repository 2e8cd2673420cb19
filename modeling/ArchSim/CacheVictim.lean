import ArchSim.CacheLog

/-!
# Victim selection and the time-stamp counter

The stamps are remainders of the log, so victim selection is a question
about remainders: `getEntryForNewBlock` returns the least recently used
entry of a full set exactly when the remainders of the last uses are in the
order of the uses and the least of them is below the bound that the search
starts from. Up to the limit of the counter both are so; a set can however
outlive it.
-/

namespace ArchSim

namespace CacheSim

/-! ## One call -/

/-- Way `o` was used last before all others of a set. -/
def Geometry.Oldest (g : Geometry) (time : Nat → Nat) (o : Nat) : Prop :=
  o < g.numOfWays ∧ ∀ i < g.numOfWays, i ≠ o → time o < time i

namespace CacheLevel

variable {g : Geometry}

/-- If all ways of the set are valid, `getEntryForNewBlock` assigns
`entry_to_update` and returns the entry whose last use is the oldest. -/
def PicksOldest (L : CacheLevel g) (time : Slot → Nat) (address : Nat) : Prop :=
  let s := g.getSet (address % uint32Size)
  (∀ i < g.numOfWays, (L.ways i s).valid = true) →
    ∃ o, g.Oldest (fun i => time ⟨i, s⟩) o ∧ L.getEntryForNewBlock address = .ok ⟨o, s⟩

/-- If all ways of the set are valid, the oldest last use is the least
modulo `2 ^ 32`, less than that of any way searched before it, and its
remainder is not `2 ^ 32 - 1`. -/
def RemaindersInOrder (L : CacheLevel g) (time : Slot → Nat) (address : Nat) : Prop :=
  let s := g.getSet (address % uint32Size)
  (∀ i < g.numOfWays, (L.ways i s).valid = true) →
    ∃ o, g.Oldest (fun i => time ⟨i, s⟩) o ∧ time ⟨o, s⟩ % 2 ^ 32 ≠ 2 ^ 32 - 1 ∧
      ∀ i < g.numOfWays, time ⟨o, s⟩ % 2 ^ 32 ≤ time ⟨i, s⟩ % 2 ^ 32 ∧
        (i < o → time ⟨o, s⟩ % 2 ^ 32 < time ⟨i, s⟩ % 2 ^ 32)

variable {L : CacheLevel g} {use : Slot → Use} {past : List Use}

theorem Marked.picksOldest_iff (h : L.Marked use past) (address : Nat) :
    L.PicksOldest (fun p => lastUse (use p) past) address ↔
      L.RemaindersInOrder (fun p => lastUse (use p) past) address := by
  refine forall_congr' fun hfull => exists_congr fun o => and_congr_right fun ho => ?_
  have hstamp : ∀ i < g.numOfWays,
      (L.ways i (g.getSet (address % uint32Size))).lastAccessedTime =
        lastUse (use ⟨i, g.getSet (address % uint32Size)⟩) past % 2 ^ 32 := fun i hi =>
    (h ⟨i, _⟩ (hfull i hi)).2
  rw [getEntryForNewBlock_eq_ok_iff rfl hfull ho.1, hstamp o ho.1]
  refine and_congr ?_ (forall₂_congr fun i hi => by rw [hstamp i hi])
  have hlt := Nat.mod_lt (lastUse (use ⟨o, g.getSet (address % uint32Size)⟩) past)
    (Nat.two_pow_pos 32)
  simp only [uint32Max]
  omega

/-- A full set has an oldest way. -/
theorem Marked.exists_oldest (h : L.Marked use past) (huse : Function.Injective use) {s : Nat}
    (hfull : ∀ i < g.numOfWays, (L.ways i s).valid = true) :
    ∃ o, g.Oldest (fun i => lastUse (use ⟨i, s⟩) past) o := by
  obtain ⟨o, ho, hmin⟩ := Finset.exists_min_image (Finset.range g.numOfWays)
    (fun i => lastUse (use ⟨i, s⟩) past) ⟨0, Finset.mem_range.mpr g.numOfWays_pos⟩
  have ho' := Finset.mem_range.mp ho
  refine ⟨o, ho', ?_⟩
  intro i hi hne
  refine Nat.lt_of_le_of_ne (hmin i (Finset.mem_range.mpr hi)) fun heq => hne ?_
  have hsame := lastUse_inj (h ⟨o, s⟩ (hfull o ho')).1 (h ⟨i, s⟩ (hfull i hi)).1 heq
  exact (congrArg Slot.way (huse hsame)).symm

/-- Below the limit the remainders are the last uses themselves. -/
theorem Marked.remaindersInOrder (h : L.Marked use past) (huse : Function.Injective use)
    (hbelow : ∀ p, (L.entry p).valid = true → lastUse (use p) past < 2 ^ 32 - 1)
    (address : Nat) : L.RemaindersInOrder (fun p => lastUse (use p) past) address := by
  intro hfull
  generalize g.getSet (address % uint32Size) = s at hfull ⊢
  have hmod : ∀ i < g.numOfWays,
      lastUse (use ⟨i, s⟩) past % 2 ^ 32 = lastUse (use ⟨i, s⟩) past := fun i hi =>
    Nat.mod_eq_of_lt (Nat.lt_trans (hbelow ⟨i, s⟩ (hfull i hi)) (by decide))
  obtain ⟨o, ho⟩ := h.exists_oldest huse hfull
  refine ⟨o, ho, ?_, ?_⟩
  · simp only [hmod o ho.1]
    exact Nat.ne_of_lt (hbelow ⟨o, s⟩ (hfull o ho.1))
  · intro i hi
    simp only [hmod o ho.1, hmod i hi]
    rcases eq_or_ne i o with rfl | hne
    · exact ⟨Nat.le_refl _, fun hlt => absurd hlt (Nat.lt_irrefl _)⟩
    · exact ⟨Nat.le_of_lt (ho.2 i hi hne), fun _ => ho.2 i hi hne⟩

end CacheLevel

/-! ## All calls of a run -/

variable {cfg : Config}

/-- A property of a level, of when its entries were last used and of the
address that `getEntryForNewBlock` is called with. -/
abbrev CallProp : Type :=
  ∀ {g : Geometry}, CacheLevel g → (Slot → Nat) → Nat → Prop

/-- It holds at the calls an access makes, of `fetchBlockFromMemory` for L2
and of `fetchToL1` for L1. -/
structure Cache.AtCalls (P : CallProp) (c : Cache cfg) (past : List Use) (a : Op × Nat) :
    Prop where
  level2 : c.outcome a.2 = .miss → Contents.fetches cfg.hierarchy a.1 = true →
    P c.L2 (fun p => lastUse (.l2 p) past) a.2
  level1 : ∀ c₁ us, c.beforeFetchToL1 a = some (c₁, us) →
    P c₁.L1 (fun p => lastUse (.l1 p) (us ++ past)) a.2

/-- It holds at every call during a trace. -/
def AtEveryCall (P : CallProp) (cfg : Config) (trace : List (Op × Nat)) : Prop :=
  ∀ pre a, pre ++ [a] <+: trace → ∀ os c, (Cache.new cfg).run pre = .ok (os, c) →
    c.AtCalls P ((Cache.new cfg).log pre []) a

theorem AtEveryCall.imp {P Q : CallProp} {trace : List (Op × Nat)}
    (himp : ∀ {g : Geometry} {L : CacheLevel g} {use : Slot → Use} {past : List Use}
      {address : Nat}, L.Marked use past → Function.Injective use →
      P L (fun p => lastUse (use p) past) address → Q L (fun p => lastUse (use p) past) address)
    (h : AtEveryCall P cfg trace) : AtEveryCall Q cfg trace := by
  intro pre a hpre os c hrun
  have hlog := (Marked.new cfg).of_run hrun
  have hcalls := h pre a hpre os c hrun
  constructor
  · intro hmiss hf
    exact himp hlog.level2 Marked.l2_injective (hcalls.level2 hmiss hf)
  · intro c₁ us hc₁
    exact himp (hlog.beforeFetchToL1 hc₁).level1 Marked.l1_injective (hcalls.level1 c₁ us hc₁)

/-- Victim selection finds the least recently used entry exactly as long as
the remainders are in order. -/
theorem victim_is_oldest_iff (cfg : Config) (trace : List (Op × Nat)) :
    AtEveryCall CacheLevel.PicksOldest cfg trace ↔
      AtEveryCall CacheLevel.RemaindersInOrder cfg trace :=
  ⟨.imp fun h _ => (h.picksOldest_iff _).mp, .imp fun h _ => (h.picksOldest_iff _).mpr⟩

/-- It does so in particular as long as the counter has not reached its
limit when a valid entry was last used. -/
theorem victim_is_oldest_of_lt (cfg : Config) (trace : List (Op × Nat))
    (h : AtEveryCall (fun L time _ => ∀ p, (L.entry p).valid = true → time p < 2 ^ 32 - 1)
      cfg trace) : AtEveryCall CacheLevel.PicksOldest cfg trace :=
  h.imp fun hL huse hbelow =>
    (hL.picksOldest_iff _).mpr (hL.remaindersInOrder huse hbelow _)

/-! ## A set that outlives the counter -/

/-- Blocks of one byte: one entry in L1 over two ways in L2. -/
def tinyConfig : Config where
  memCyc := 100
  bSize := 0
  l1Size := 0
  l2Size := 1
  l1Assoc := 0
  l2Assoc := 1
  l1Cyc := 1
  l2Cyc := 10
  wrAlloc := .writeAllocate
  l1_fits := by decide
  l1_le_30 := by decide
  l2_fits := by decide
  l2_le_30 := by decide

/-- The state after `n` reads of block 0, and of nothing else. -/
structure Warm (c : Cache tinyConfig) (n : Nat) : Prop where
  cycle : c.pseudoCycle = n + 1
  l1 : c.L1.ways 0 0 = Cache.filled tinyConfig.geom1 0 (n % uint32Size)
  l2 : c.L2.ways 0 0 = Cache.filled tinyConfig.geom2 0 0
  free : (c.L2.ways 1 0).valid = false

namespace Warm

variable {c : Cache tinyConfig} {n : Nat}

theorem first : ∃ c, (Cache.new tinyConfig).access (.read, 0) = .ok c ∧ Warm c 1 :=
  ⟨_, rfl, rfl, rfl, rfl, rfl⟩

theorem blockExists_zero (h : Warm c n) : c.countL1.L1.blockExists 0 = some ⟨0, 0⟩ := by
  have hways : c.countL1.L1.ways 0 0 = Cache.filled tinyConfig.geom1 0 (n % uint32Size) := h.l1
  have hset : tinyConfig.geom1.getSet 0 = 0 := rfl
  have hrange : List.range tinyConfig.geom1.numOfWays = [0] := rfl
  simp [CacheLevel.blockExists, hset, hrange, hways, Cache.filled]

theorem read (h : Warm c n) : ∃ c', c.access (.read, 0) = .ok c' ∧ Warm c' (n + 1) := by
  refine ⟨c.countL1.touchL1 ⟨0, 0⟩ (c.L1.ways 0 0).dirty, ?_, ?_⟩
  · simp only [Cache.access, Cache.cacheRead, h.blockExists_zero]
    rfl
  · refine ⟨congrArg Nat.succ h.cycle, ?_, h.l2, h.free⟩
    show { c.L1.ways 0 0 with lastAccessedTime := c.stamp, .. } = _
    rw [h.l1, Cache.stamp, h.cycle]
    rfl

theorem reads (k : Nat) : ∀ {c : Cache tinyConfig} {n : Nat}, Warm c n →
    ∃ os c', c.run (List.replicate k (.read, 0)) = .ok (os, c') ∧ Warm c' (n + k) := by
  induction k with
  | zero =>
      intro c n h
      exact ⟨[], c, rfl, h⟩
  | succ k ih =>
      intro c n h
      obtain ⟨c₁, hacc, h₁⟩ := h.read
      obtain ⟨os, c', hrun, h'⟩ := ih h₁
      refine ⟨c.outcome 0 :: os, c', ?_, by rwa [Nat.add_right_comm, Nat.add_assoc] at h'⟩
      simp only [List.replicate_succ, Cache.run, hacc, hrun, bind, Except.bind, pure, Except.pure]

theorem of_reads (k : Nat) : ∃ os c,
    (Cache.new tinyConfig).run (List.replicate (k + 1) (.read, 0)) = .ok (os, c) ∧
      Warm c (k + 1) := by
  obtain ⟨c₀, hacc, hwarm⟩ := first
  obtain ⟨os, c, hrun, h⟩ := hwarm.reads k
  refine ⟨(Cache.new tinyConfig).outcome 0 :: os, c, ?_, Nat.add_comm 1 k ▸ h⟩
  simp only [List.replicate_succ, Cache.run, hacc, hrun, bind, Except.bind, pure, Except.pure]

/-- A read of block 1 then has a free way in L2, and the one way of L1 to
choose from. -/
theorem beforeFetchToL1 (h : Warm c n) : ∃ c₁ us, c.beforeFetchToL1 (.read, 1) = some (c₁, us) ∧
    c₁.L1.ways 0 0 = Cache.filled tinyConfig.geom1 0 (n % uint32Size) := by
  have hset₁ : tinyConfig.geom1.getSet 1 = 0 := rfl
  have hset₂ : tinyConfig.geom2.getSet 1 = 0 := rfl
  have hset₂' : tinyConfig.geom2.getSet (1 % uint32Size) = 0 := rfl
  have hrange₁ : List.range tinyConfig.geom1.numOfWays = [0] := rfl
  have hrange₂ : List.range tinyConfig.geom2.numOfWays = [0, 1] := rfl
  have htag₁ : (tinyConfig.geom1.getTag 0 == tinyConfig.geom1.getTag 1) = false := rfl
  have htag₂ : (tinyConfig.geom2.getTag 0 == tinyConfig.geom2.getTag 1) = false := rfl
  have h₁ : c.L1.blockExists 1 = none := by
    simp [CacheLevel.blockExists, hset₁, hrange₁, h.l1, Cache.filled, htag₁]
  have h₂ : c.L2.blockExists 1 = none := by
    simp [CacheLevel.blockExists, hset₂, hrange₂, h.l2, h.free, Cache.filled, htag₂]
  have hget : c.L2.getEntryForNewBlock 1 = .ok ⟨1, 0⟩ := by
    simp [CacheLevel.getEntryForNewBlock, hset₂', hrange₂, CacheLevel.searchVictim, h.l2, h.free,
      Cache.filled, uint32Max]
  refine ⟨_, _, Cache.beforeFetchToL1_miss h₁ h₂ rfl hget, ?_⟩
  show (c.countL1.countL2.countMemory.dropL2Victim ⟨1, 0⟩).L1.ways 0 0 = _
  have hdrop : c.countL1.countL2.countMemory.dropL2Victim ⟨1, 0⟩ =
      c.countL1.countL2.countMemory := by
    unfold Cache.dropL2Victim
    rw [if_neg]
    show ¬(c.L2.ways 1 0).valid = true
    rw [h.free]
    exact Bool.false_ne_true
  rw [hdrop]
  exact h.l1

end Warm

/-- Block 0 is read until its L1 entry is stamped with `2 ^ 32 - 1`; then
block 1 needs this entry. -/
def limitTrace : List (Op × Nat) :=
  List.replicate (2 ^ 32 - 1) (.read, 0) ++ [(.read, 1)]

/-- The entry is in the one set of L1, whose ways are all valid, and the
search returns without having assigned `entry_to_update`. -/
theorem victim_unassigned_limitTrace :
    (∀ a ∈ limitTrace, a.2 < 2 ^ 32) ∧
      ¬ AtEveryCall CacheLevel.PicksOldest tinyConfig limitTrace := by
  constructor
  · intro a ha
    rcases List.mem_append.mp ha with ha | ha
    · rw [List.eq_of_mem_replicate ha]
      exact Nat.two_pow_pos 32
    · rw [List.mem_singleton.mp ha]
      exact Nat.one_lt_two_pow (by decide)
  · intro h
    obtain ⟨os, c, hrun, hlast⟩ := Warm.of_reads (2 ^ 32 - 2)
    have hreads : (Cache.new tinyConfig).run (List.replicate (2 ^ 32 - 1) (.read, 0)) =
        .ok (os, c) := hrun
    obtain ⟨c₁, us, hc₁, hentry⟩ := hlast.beforeFetchToL1
    have hpick := (h _ _ (List.prefix_refl _) _ _ hreads).level1 c₁ us hc₁
    have hset : tinyConfig.geom1.getSet (1 % uint32Size) = 0 := rfl
    have hways : tinyConfig.geom1.numOfWays = 1 := rfl
    have hfull : ∀ i < tinyConfig.geom1.numOfWays, (c₁.L1.ways i 0).valid = true := by
      intro i hi
      rw [hways] at hi
      rw [Nat.lt_one_iff.mp hi, hentry]
      rfl
    unfold CacheLevel.PicksOldest at hpick
    simp only [hset] at hpick
    obtain ⟨o, ⟨ho, -⟩, hget⟩ := hpick hfull
    have hlt := ((CacheLevel.getEntryForNewBlock_eq_ok_iff hset hfull ho).mp hget).1
    rw [hways] at ho
    rw [Nat.lt_one_iff.mp ho, hentry] at hlt
    exact absurd hlt (by decide)

end CacheSim

end ArchSim
