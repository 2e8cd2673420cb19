import ArchSim.CacheLevel

/-!
# The two-level cache simulator

The class `Cache` of `HW2/cacheSim.cpp` and the trace loop of its `main`.
Counters and times are exact numbers (the source keeps them in
`double`s); an operation whose behaviour the source leaves undefined
ends in a `Fault`.
-/

namespace ArchSim

namespace CacheSim

/-- The two values of `WrAlloc` that name a policy. -/
inductive WritePolicy where
  | noWriteAllocate
  | writeAllocate
deriving DecidableEq, Repr

/-- The command-line parameters: times in cycles, sizes and
associativities as logarithms to base 2. -/
structure Config where
  memCyc : Nat
  bSize : Nat
  l1Size : Nat
  l2Size : Nat
  l1Assoc : Nat
  l2Assoc : Nat
  l1Cyc : Nat
  l2Cyc : Nat
  wrAlloc : WritePolicy
  l1_fits : bSize + l1Assoc ≤ l1Size
  l1_le_30 : l1Size ≤ 30
  l2_fits : bSize + l2Assoc ≤ l2Size
  l2_le_30 : l2Size ≤ 30

namespace Config

def geom1 (cfg : Config) : Geometry :=
  ⟨cfg.l1Size, cfg.l1Assoc, cfg.bSize, cfg.l1_fits, cfg.l1_le_30⟩

def geom2 (cfg : Config) : Geometry :=
  ⟨cfg.l2Size, cfg.l2Assoc, cfg.bSize, cfg.l2_fits, cfg.l2_le_30⟩

/-- The block number of an address, the same at both levels. -/
def block (cfg : Config) (address : Nat) : Nat := address >>> cfg.bSize

end Config

/-- The object `cache` and the global `pseudo_cycle`. The latter is a
32-bit counter; `pseudoCycle` counts its increments, so that its value
is the remainder modulo `2 ^ 32` (`Cache.stamp`). The constant fields
`num_of_cycles`, `MemCyc` and `write_policy` are read off the
configuration. -/
structure Cache (cfg : Config) where
  tAccessTotal : Nat
  L1 : CacheLevel cfg.geom1
  L2 : CacheLevel cfg.geom2
  pseudoCycle : Nat

namespace Cache

variable {cfg : Config}

/-- The constructor `Cache`. -/
def new (cfg : Config) : Cache cfg where
  tAccessTotal := 0
  L1 := CacheLevel.new cfg.geom1
  L2 := CacheLevel.new cfg.geom2
  pseudoCycle := 0

/-- The value of `pseudo_cycle`. -/
def stamp (c : Cache cfg) : Nat := c.pseudoCycle % uint32Size

/-- `p->last_accessed_time = pseudo_cycle++`, and `p->dirty = dirty`, for
an entry of L1. -/
def touchL1 (c : Cache cfg) (p : Slot) (dirty : Bool) : Cache cfg :=
  { c with
    L1 := c.L1.setEntry p { c.L1.entry p with lastAccessedTime := c.stamp, dirty := dirty }
    pseudoCycle := c.pseudoCycle + 1 }

/-- The same for an entry of L2. -/
def touchL2 (c : Cache cfg) (p : Slot) (dirty : Bool) : Cache cfg :=
  { c with
    L2 := c.L2.setEntry p { c.L2.entry p with lastAccessedTime := c.stamp, dirty := dirty }
    pseudoCycle := c.pseudoCycle + 1 }

/-- The new contents of an entry that is filled for `address`. -/
def filled (g : Geometry) (address stamp : Nat) : WayEntry where
  valid := true
  dirty := false
  tag := g.getTag address
  lastAccessedTime := stamp
  address := address

def fillL1 (c : Cache cfg) (p : Slot) (address : Nat) : Cache cfg :=
  { c with
    L1 := c.L1.setEntry p (filled cfg.geom1 address c.stamp)
    pseudoCycle := c.pseudoCycle + 1 }

def fillL2 (c : Cache cfg) (p : Slot) (address : Nat) : Cache cfg :=
  { c with
    L2 := c.L2.setEntry p (filled cfg.geom2 address c.stamp)
    pseudoCycle := c.pseudoCycle + 1 }

/-- `p->valid = false` for an entry of L1. -/
def invalidateL1 (c : Cache cfg) (p : Slot) : Cache cfg :=
  { c with L1 := c.L1.setEntry p { c.L1.entry p with valid := false } }

/-- `p->dirty = true` for an entry of L1. -/
def markDirtyL1 (c : Cache cfg) (p : Slot) : Cache cfg :=
  { c with L1 := c.L1.setEntry p { c.L1.entry p with dirty := true } }

/-- What `fetchToL1` does with the victim before it is overwritten: if it
is valid and dirty, its L2 entry becomes dirty and most recently used.
The source does not check that this entry exists. -/
def saveL1Victim (c : Cache cfg) (l1Victim : Slot) : Except Fault (Cache cfg) :=
  if (c.L1.entry l1Victim).valid && (c.L1.entry l1Victim).dirty then
    match c.L2.blockExists (c.L1.entry l1Victim).address with
    | some entryL2 => .ok (c.touchL2 entryL2 true)
    | none => .error .nullEntry
  else .ok c

def fetchToL1 (c : Cache cfg) (address : Nat) : Except Fault (Cache cfg × Slot) := do
  let l1Victim ← c.L1.getEntryForNewBlock address
  let c ← c.saveL1Victim l1Victim
  return (c.fillL1 l1Victim address, l1Victim)

/-- What `fetchBlockFromMemory` does with the L2 victim before it is
overwritten: its L1 entry, if there is one, is invalidated. -/
def dropL2Victim (c : Cache cfg) (l2Victim : Slot) : Cache cfg :=
  if (c.L2.entry l2Victim).valid then
    match c.L1.blockExists (c.L2.entry l2Victim).address with
    | some entryL1 => c.invalidateL1 entryL1
    | none => c
  else c

def fetchBlockFromMemory (c : Cache cfg) (address : Nat) : Except Fault (Cache cfg × Slot) := do
  let l2Victim ← c.L2.getEntryForNewBlock address
  ((c.dropL2Victim l2Victim).fillL2 l2Victim address).fetchToL1 address

/-! The counters, as each level is reached. -/

def countL1 (c : Cache cfg) : Cache cfg :=
  { c with
    tAccessTotal := c.tAccessTotal + cfg.l1Cyc
    L1 := { c.L1 with accessCount := c.L1.accessCount + 1 } }

def countL2 (c : Cache cfg) : Cache cfg :=
  { c with
    tAccessTotal := c.tAccessTotal + cfg.l2Cyc
    L1 := { c.L1 with missCount := c.L1.missCount + 1 }
    L2 := { c.L2 with accessCount := c.L2.accessCount + 1 } }

def countMemory (c : Cache cfg) : Cache cfg :=
  { c with
    tAccessTotal := c.tAccessTotal + cfg.memCyc
    L2 := { c.L2 with missCount := c.L2.missCount + 1 } }

def cacheRead (c : Cache cfg) (address : Nat) : Except Fault (Cache cfg) :=
  let c := c.countL1
  match c.L1.blockExists address with
  | none =>
      let c := c.countL2
      match c.L2.blockExists address with
      | none => do
          let r ← c.countMemory.fetchBlockFromMemory address
          return r.1
      | some requestedEntry => do
          let r ← (c.touchL2 requestedEntry (c.L2.entry requestedEntry).dirty).fetchToL1 address
          return r.1
  | some requestedEntry =>
      .ok (c.touchL1 requestedEntry (c.L1.entry requestedEntry).dirty)

def cacheWrite (c : Cache cfg) (address : Nat) : Except Fault (Cache cfg) :=
  let c := c.countL1
  match c.L1.blockExists address with
  | none =>
      let c := c.countL2
      match c.L2.blockExists address with
      | none =>
          let c := c.countMemory
          match cfg.wrAlloc with
          | .writeAllocate => do
              let r ← c.fetchBlockFromMemory address
              return r.1.markDirtyL1 r.2
          | .noWriteAllocate => .ok c
      | some requestedEntry =>
          match cfg.wrAlloc with
          | .noWriteAllocate => .ok (c.touchL2 requestedEntry true)
          | .writeAllocate => do
              let r ← (c.touchL2 requestedEntry
                (c.L2.entry requestedEntry).dirty).fetchToL1 address
              return r.1.markDirtyL1 r.2
  | some requestedEntry => .ok (c.touchL1 requestedEntry true)

/-- One line of the trace, `r <address>` or `w <address>`. -/
def access (c : Cache cfg) : Op × Nat → Except Fault (Cache cfg)
  | (.read, address) => c.cacheRead address
  | (.write, address) => c.cacheWrite address

/-- What the two searches of an access find. -/
def outcome (c : Cache cfg) (address : Nat) : Outcome :=
  match c.L1.blockExists address with
  | some _ => .l1Hit
  | none =>
      match c.L2.blockExists address with
      | some _ => .l2Hit
      | none => .miss

/-- The trace loop, with the outcome of every access. -/
def run (c : Cache cfg) : List (Op × Nat) → Except Fault (List Outcome × Cache cfg)
  | [] => .ok ([], c)
  | a :: rest => do
      let c' ← c.access a
      let r ← c'.run rest
      return (c.outcome a.2 :: r.1, r.2)

end Cache

end CacheSim

end ArchSim
