import ArchSim.Hierarchy
import ArchSim.Uint32

/-!
# One level of the simulated cache

The class `CacheLevel` of `HW2/cacheSim.cpp`: way arrays whose entries
carry a tag, a time stamp and the address they were filled for, searched
by set and tag.

A level is indexed by its `Geometry`, the constructor's arguments
together with the bounds the command line must respect; what the
constructor computes from them (numbers of ways and sets, tag size)
never changes afterwards. `WayEntry` pointers are `Slot`s.
-/

namespace ArchSim

namespace CacheSim

/-- What the source leaves undefined. -/
inductive Fault where
  /-- `getEntryForNewBlock` returns `entry_to_update` without having
  assigned it. -/
  | uninitialised
  /-- A `NULL` entry is dereferenced. -/
  | nullEntry
deriving DecidableEq, Repr

structure WayEntry where
  valid : Bool
  dirty : Bool
  tag : Nat
  lastAccessedTime : Nat
  address : Nat
deriving DecidableEq, Repr

/-- The constructor `WayEntry_p`. -/
def WayEntry.new : WayEntry where
  valid := false
  dirty := false
  tag := 0
  lastAccessedTime := 0
  address := 0

/-- The constructor's arguments, all logarithms to base 2. -/
structure Geometry where
  cacheSizeLog : Nat
  wazeNumLog : Nat
  blockSizeLog : Nat
  fits : blockSizeLog + wazeNumLog ≤ cacheSizeLog
  le_30 : cacheSizeLog ≤ 30

namespace Geometry

variable (g : Geometry)

def numOfWays : Nat := 2 ^ g.wazeNumLog

def numOfBlocks : Nat := 2 ^ (g.cacheSizeLog - g.blockSizeLog)

def numOfSets : Nat := g.numOfBlocks / g.numOfWays

def tagSize : Nat := 32 - Nat.log2 g.numOfSets - g.blockSizeLog

def getSet (address : Nat) : Nat :=
  (address >>> g.blockSizeLog) &&& ((1 <<< Nat.log2 g.numOfSets) - 1)

def getTag (address : Nat) : Nat :=
  (address >>> (32 - g.tagSize)) % uint32Size

/-- The number of the block that holds an address. -/
def block (address : Nat) : Nat := address >>> g.blockSizeLog

/-- The set a block belongs to. -/
def setOf (b : Nat) : Nat := b % g.numOfSets

/-! ## What the constructor computes -/

/-- The logarithm of the number of sets. -/
def setsLog : Nat := g.cacheSizeLog - g.blockSizeLog - g.wazeNumLog

theorem numOfWays_pos : 0 < g.numOfWays := Nat.two_pow_pos _

theorem numOfSets_eq : g.numOfSets = 2 ^ g.setsLog := by
  have h := g.fits
  unfold numOfSets numOfBlocks numOfWays setsLog
  exact Nat.pow_div (by omega) (by omega)

theorem numOfSets_pos : 0 < g.numOfSets := by
  rw [g.numOfSets_eq]
  exact Nat.two_pow_pos _

theorem log2_numOfSets : Nat.log2 g.numOfSets = g.setsLog := by
  rw [g.numOfSets_eq, Nat.log2_two_pow]

theorem offset_and_set_bits : 32 - g.tagSize = g.blockSizeLog + g.setsLog := by
  have h := g.fits
  have h' := g.le_30
  rw [tagSize, g.log2_numOfSets, setsLog]
  omega

theorem getSet_eq (address : Nat) : g.getSet address = g.setOf (g.block address) := by
  unfold getSet setOf block
  rw [g.log2_numOfSets, Nat.one_shiftLeft, Nat.and_two_pow_sub_one_eq_mod, g.numOfSets_eq]

theorem getTag_eq {address : Nat} (h : address < uint32Size) :
    g.getTag address = g.block address / g.numOfSets := by
  unfold getTag block
  rw [g.offset_and_set_bits, Nat.shiftRight_add, Nat.shiftRight_eq_div_pow _ g.setsLog,
    ← g.numOfSets_eq]
  refine Nat.mod_eq_of_lt (Nat.lt_of_le_of_lt (Nat.div_le_self ..) ?_)
  rw [Nat.shiftRight_eq_div_pow]
  exact Nat.lt_of_le_of_lt (Nat.div_le_self ..) h

/-- A block is known by its set and its tag. -/
theorem block_eq {address : Nat} (h : address < uint32Size) :
    g.block address = g.getTag address * g.numOfSets + g.getSet address := by
  rw [g.getTag_eq h, g.getSet_eq, setOf, Nat.mul_comm]
  exact (Nat.div_add_mod ..).symm

theorem getSet_lt (address : Nat) : g.getSet address < g.numOfSets := by
  rw [g.getSet_eq]
  exact Nat.mod_lt _ g.numOfSets_pos

theorem set_tag_eq_iff {a b : Nat} (ha : a < uint32Size) (hb : b < uint32Size) :
    g.getSet a = g.getSet b ∧ g.getTag a = g.getTag b ↔ g.block a = g.block b := by
  constructor
  · rintro ⟨hset, htag⟩
    rw [g.block_eq ha, g.block_eq hb, hset, htag]
  · intro hblock
    rw [g.getSet_eq, g.getSet_eq, g.getTag_eq ha, g.getTag_eq hb, hblock]
    exact ⟨rfl, rfl⟩

/-- The numbers of sets are powers of two, so that fewer sets divide more. -/
theorem numOfSets_dvd {g g' : Geometry} (h : g.numOfSets ≤ g'.numOfSets) :
    g.numOfSets ∣ g'.numOfSets := by
  rw [g.numOfSets_eq, g'.numOfSets_eq] at *
  exact Nat.pow_dvd_pow 2 ((Nat.pow_le_pow_iff_right (Nat.lt_succ_self 1)).mp h)

/-- The blocks of one set stay together where there are fewer sets. -/
theorem getSet_eq_of_numOfSets_le {g g' : Geometry} (hblock : g'.blockSizeLog = g.blockSizeLog)
    (hle : g.numOfSets ≤ g'.numOfSets) {a b : Nat} (h : g'.getSet a = g'.getSet b) :
    g.getSet a = g.getSet b := by
  have hdvd := numOfSets_dvd hle
  rw [g'.getSet_eq, g'.getSet_eq, setOf, setOf, block, block, hblock] at h
  rw [g.getSet_eq, g.getSet_eq, setOf, setOf, block, block, ← Nat.mod_mod_of_dvd _ hdvd, h,
    Nat.mod_mod_of_dvd _ hdvd]

end Geometry

/-! ## Entries and searches -/

/-- A `WayEntry` pointer: `ways[way]->entries[set]`. -/
structure Slot where
  way : Nat
  set : Nat
deriving DecidableEq, Repr

structure CacheLevel (g : Geometry) where
  missCount : Nat
  accessCount : Nat
  ways : Nat → Nat → WayEntry

namespace CacheLevel

variable {g : Geometry}

/-- The constructor `CacheLevel`. -/
def new (g : Geometry) : CacheLevel g where
  missCount := 0
  accessCount := 0
  ways := fun _ _ => WayEntry.new

/-- `*p` -/
def entry (L : CacheLevel g) (p : Slot) : WayEntry := L.ways p.way p.set

/-- `*p = e` -/
def setEntry (L : CacheLevel g) (p : Slot) (e : WayEntry) : CacheLevel g :=
  { L with ways := Function.update L.ways p.way (Function.update (L.ways p.way) p.set e) }

/-- The entry associated with the address, or `none` for `NULL`. -/
def blockExists (L : CacheLevel g) (address : Nat) : Option Slot :=
  let set := g.getSet address
  let tag := g.getTag address
  ((List.range g.numOfWays).find? fun i =>
    (L.ways i set).valid && (L.ways i set).tag == tag).map fun i => ⟨i, set⟩

/-- Set and tag of a level say what the block is, also at any other level with
blocks of the same size, and where this level has no more sets than the other
it keeps the sets of the other together. -/
theorem set_and_tag_identify_block (g : Geometry) {a b : Nat} (ha : a < uint32Size)
    (hb : b < uint32Size) :
    g.getSet a < g.numOfSets ∧
      (g.getSet a = g.getSet b ∧ g.getTag a = g.getTag b ↔
        a >>> g.blockSizeLog = b >>> g.blockSizeLog) ∧
      ∀ g' : Geometry, g'.blockSizeLog = g.blockSizeLog →
        (g.getSet a = g.getSet b ∧ g.getTag a = g.getTag b →
          g'.getSet a = g'.getSet b ∧ g'.getTag a = g'.getTag b ∧
            ∀ L' : CacheLevel g', L'.blockExists a = L'.blockExists b) ∧
        (g.numOfSets ≤ g'.numOfSets → g'.getSet a = g'.getSet b → g.getSet a = g.getSet b) := by
  refine ⟨g.getSet_lt a, g.set_tag_eq_iff ha hb, ?_⟩
  intro g' hblock
  refine ⟨?_, fun hle hset => Geometry.getSet_eq_of_numOfSets_le hblock hle hset⟩
  intro hsame
  have hother : g'.block a = g'.block b := by
    rw [Geometry.block, Geometry.block, hblock]
    exact (g.set_tag_eq_iff ha hb).mp hsame
  obtain ⟨hset, htag⟩ := (g'.set_tag_eq_iff ha hb).mpr hother
  refine ⟨hset, htag, ?_⟩
  intro L'
  unfold blockExists
  rw [hset, htag]

/-- Two addresses of one block of four bytes, in eight sets of two ways. -/
theorem set_and_tag_identify_block_eight_sets :
    ∃ g : Geometry, g.numOfSets = 8 ∧ g.getSet 1000 < g.numOfSets ∧
      (g.getSet 1000 = g.getSet 1003 ∧ g.getTag 1000 = g.getTag 1003 ↔
        1000 >>> g.blockSizeLog = 1003 >>> g.blockSizeLog) ∧
      ∀ g' : Geometry, g'.blockSizeLog = g.blockSizeLog →
        (g.getSet 1000 = g.getSet 1003 ∧ g.getTag 1000 = g.getTag 1003 →
          g'.getSet 1000 = g'.getSet 1003 ∧ g'.getTag 1000 = g'.getTag 1003 ∧
            ∀ L' : CacheLevel g', L'.blockExists 1000 = L'.blockExists 1003) ∧
        (g.numOfSets ≤ g'.numOfSets → g'.getSet 1000 = g'.getSet 1003 →
          g.getSet 1000 = g.getSet 1003) :=
  ⟨⟨6, 1, 2, by omega, by omega⟩, rfl, set_and_tag_identify_block _ (by decide) (by decide)⟩

/-- The loop of `getEntryForNewBlock` over the ways of one set: the first
unused entry, else the one with the least time stamp below the bound
`lastBlockTime`. The last argument is `entry_to_update`. -/
def searchVictim (entries : Nat → WayEntry) : List Nat → Nat → Option Nat → Option Nat
  | [], _, entryToUpdate => entryToUpdate
  | i :: rest, lastBlockTime, entryToUpdate =>
      if !(entries i).valid then some i
      else if (entries i).lastAccessedTime < lastBlockTime then
        searchVictim entries rest (entries i).lastAccessedTime (some i)
      else searchVictim entries rest lastBlockTime entryToUpdate

/-- The parameter is an `unsigned int`, so the address is cut to 32 bits
on the way in. -/
def getEntryForNewBlock (L : CacheLevel g) (address : Nat) : Except Fault Slot :=
  let set := g.getSet (address % uint32Size)
  match searchVictim (fun i => L.ways i set) (List.range g.numOfWays) uint32Max none with
  | some i => .ok ⟨i, set⟩
  | none => .error .uninitialised

@[simp] theorem entry_setEntry (L : CacheLevel g) (p : Slot) (e : WayEntry) :
    (L.setEntry p e).entry p = e := by
  simp [entry, setEntry]

theorem setEntry_ways (L : CacheLevel g) (p : Slot) (e : WayEntry) (i s : Nat) :
    (L.setEntry p e).ways i s = if i = p.way ∧ s = p.set then e else L.ways i s := by
  unfold setEntry
  by_cases hi : i = p.way
  · subst hi
    by_cases hs : s = p.set
    · subst hs
      simp
    · simp [hs]
  · simp [hi]

theorem entry_setEntry_of_ne {L : CacheLevel g} {p q : Slot} {e : WayEntry} (h : q ≠ p) :
    (L.setEntry p e).entry q = L.entry q := by
  obtain ⟨i, s⟩ := q
  unfold entry
  rw [setEntry_ways, if_neg]
  rintro ⟨rfl, rfl⟩
  exact h rfl

/-- A search over the ways returns a match, and misses only if there is
none. -/
theorem find?_range {n : Nat} {p : Nat → Bool} {i : Nat} (hi : i < n) (hp : p i = true)
    (huniq : ∀ j, j < n → p j = true → j = i) : (List.range n).find? p = some i := by
  cases hfind : (List.range n).find? p with
  | none =>
      have := List.find?_eq_none.mp hfind i (List.mem_range.mpr hi)
      exact absurd hp this
  | some j =>
      have hj := List.mem_range.mp (List.mem_of_find?_eq_some hfind)
      rw [huniq j hj (List.find?_some hfind)]

/-- The victim search stops at a free entry. -/
theorem searchVictim_of_free {entries : Nat → WayEntry} :
    ∀ {l : List Nat} (t : Nat) (e : Option Nat), (∃ i ∈ l, (entries i).valid = false) →
      ∃ i ∈ l, searchVictim entries l t e = some i ∧ (entries i).valid = false
  | [], _, _, h => by
      obtain ⟨i, hi, -⟩ := h
      cases hi
  | i :: rest, t, e, h => by
      by_cases hv : (entries i).valid = true
      · have hrest : ∃ j ∈ rest, (entries j).valid = false := by
          obtain ⟨j, hj, hjv⟩ := h
          rcases List.mem_cons.mp hj with rfl | hj
          · rw [hv] at hjv
            cases hjv
          · exact ⟨j, hj, hjv⟩
        simp only [searchVictim, hv, Bool.not_true, Bool.false_eq_true, if_false]
        split
        · obtain ⟨j, hj, heq⟩ := searchVictim_of_free (entries i).lastAccessedTime (some i) hrest
          exact ⟨j, List.mem_cons_of_mem _ hj, heq⟩
        · obtain ⟨j, hj, heq⟩ := searchVictim_of_free t e hrest
          exact ⟨j, List.mem_cons_of_mem _ hj, heq⟩
      · have hv' : (entries i).valid = false := by simpa using hv
        exact ⟨i, List.mem_cons_self .., by simp [searchVictim, hv'], hv'⟩

/-- With all entries in use the search returns what it has found so far, if
nothing is older, or the first of the oldest entries. -/
theorem searchVictim_of_valid {entries : Nat → WayEntry} :
    ∀ {l : List Nat} {t : Nat} {e : Option Nat}, l.Pairwise (· < ·) →
      (∀ i ∈ l, (entries i).valid = true) →
      (searchVictim entries l t e = e ∧ ∀ j ∈ l, t ≤ (entries j).lastAccessedTime) ∨
      ∃ i ∈ l, searchVictim entries l t e = some i ∧ (entries i).lastAccessedTime < t ∧
        ∀ j ∈ l, (entries i).lastAccessedTime ≤ (entries j).lastAccessedTime ∧
          (j < i → (entries i).lastAccessedTime < (entries j).lastAccessedTime)
  | [], _, _, _, _ => Or.inl ⟨rfl, fun _ h => absurd h List.not_mem_nil⟩
  | i :: rest, t, e, hsorted, hall => by
      obtain ⟨hfirst, hsorted⟩ := List.pairwise_cons.mp hsorted
      have hrest : ∀ j ∈ rest, (entries j).valid = true := fun j hj =>
        hall j (List.mem_cons_of_mem _ hj)
      simp only [searchVictim, hall i (List.mem_cons_self ..), Bool.not_true,
        Bool.false_eq_true, if_false]
      split
      · rename_i hlt
        right
        rcases searchVictim_of_valid (t := (entries i).lastAccessedTime) (e := some i) hsorted
            hrest with ⟨heq, hle⟩ | ⟨k, hk, heq, hkt, hle⟩
        · refine ⟨i, List.mem_cons_self .., heq, hlt, ?_⟩
          intro j hj
          rcases List.mem_cons.mp hj with rfl | hj
          · exact ⟨Nat.le_refl _, fun h => absurd h (Nat.lt_irrefl _)⟩
          · exact ⟨hle j hj, fun h => absurd h (Nat.lt_asymm (hfirst j hj))⟩
        · refine ⟨k, List.mem_cons_of_mem _ hk, heq, Nat.lt_trans hkt hlt, ?_⟩
          intro j hj
          rcases List.mem_cons.mp hj with rfl | hj
          · exact ⟨Nat.le_of_lt hkt, fun _ => hkt⟩
          · exact hle j hj
      · rename_i hge
        rcases searchVictim_of_valid (t := t) (e := e) hsorted hrest with
          ⟨heq, hle⟩ | ⟨k, hk, heq, hkt, hle⟩
        · refine Or.inl ⟨heq, ?_⟩
          intro j hj
          rcases List.mem_cons.mp hj with rfl | hj
          · exact Nat.le_of_not_lt hge
          · exact hle j hj
        · refine Or.inr ⟨k, List.mem_cons_of_mem _ hk, heq, hkt, ?_⟩
          intro j hj
          rcases List.mem_cons.mp hj with rfl | hj
          · have hki := Nat.lt_of_lt_of_le hkt (Nat.le_of_not_lt hge)
            exact ⟨Nat.le_of_lt hki, fun _ => hki⟩
          · exact hle j hj

/-- On a full set the victim is the first of the entries with the least
stamp, provided this is below the bound. -/
theorem getEntryForNewBlock_eq_ok_iff {L : CacheLevel g} {address s o : Nat}
    (hs : g.getSet (address % uint32Size) = s)
    (hfull : ∀ i < g.numOfWays, (L.ways i s).valid = true) (ho : o < g.numOfWays) :
    L.getEntryForNewBlock address = .ok ⟨o, s⟩ ↔
      (L.ways o s).lastAccessedTime < uint32Max ∧
        ∀ i < g.numOfWays, (L.ways o s).lastAccessedTime ≤ (L.ways i s).lastAccessedTime ∧
          (i < o → (L.ways o s).lastAccessedTime < (L.ways i s).lastAccessedTime) := by
  subst hs
  unfold getEntryForNewBlock
  rcases searchVictim_of_valid (t := uint32Max) (e := none) List.pairwise_lt_range
      (fun i hi => hfull i (List.mem_range.mp hi)) with ⟨heq, hge⟩ | ⟨k, hk, heq, hlt, hle⟩
  · simp only [heq]
    refine ⟨fun h => (nomatch h), fun h => ?_⟩
    exact absurd h.1 (Nat.not_lt.mpr (hge o (List.mem_range.mpr ho)))
  · simp only [heq, Except.ok.injEq, Slot.mk.injEq, and_true]
    have hk' := List.mem_range.mp hk
    constructor
    · rintro rfl
      exact ⟨hlt, fun i hi => hle i (List.mem_range.mpr hi)⟩
    · rintro ⟨-, hfirst⟩
      -- Two first least entries are the same one.
      have hko := hle o (List.mem_range.mpr ho)
      have hok := hfirst k hk'
      rcases Nat.lt_trichotomy k o with h | h | h
      · exact absurd (hok.2 h) (Nat.not_lt.mpr hko.1)
      · exact h
      · exact absurd (hko.2 h) (Nat.not_lt.mpr hok.1)

end CacheLevel

end CacheSim

end ArchSim
