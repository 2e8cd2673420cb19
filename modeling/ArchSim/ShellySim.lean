import ArchSim.CacheSim

/-!
# The third cache simulator

`HW2/cacheSimShelly.cpp`: every row of a cache keeps its blocks twice, as the
ways of `data` and, in the order of their use, in `LRU_vector`. A block is
named by an address or, where `is_tag` or `is_address` says so, by what the
source calls its tag, the address without the offset.

`changeToX` does not compute the row of a block named by its tag, and then
uses it (`Fault.uninitialised`). `checkIfDirty` and `LRUprint` are not called.
The counters are 32-bit `unsigned`s.
-/

namespace ArchSim

namespace ShellySim

open CacheSim (Config Geometry)

/-- `data_status`. -/
inductive DataStatus where
  | doesntExist
  | exist
  | dirty
deriving DecidableEq, Repr

/-- What the source leaves undefined. -/
inductive Fault where
  /-- `changeToX` indexes `data` with a `set` that it has not assigned. -/
  | uninitialised
deriving DecidableEq, Repr

/-- A way: its tag and its status. -/
abbrev Way := Nat × DataStatus

/-! ## One cache -/

/-- The class `Cache`. The front of an `LRU_vector` is the least recently
used block, its back the most recently used one. -/
structure Cache (g : Geometry) where
  data : Nat → Nat → Way
  lruVector : Nat → List Nat

namespace Cache

variable {g : Geometry}

/-! What the constructor computes. -/

def associativeLevel (g : Geometry) : Nat := 2 ^ g.wazeNumLog

def blockSize (g : Geometry) : Nat := 2 ^ g.blockSizeLog

def numOfRows (g : Geometry) : Nat := 2 ^ g.cacheSizeLog / blockSize g / associativeLevel g

/-- The constructor `Cache`. -/
def new (g : Geometry) : Cache g where
  data := fun _ _ => (0, .doesntExist)
  lruVector := fun _ => []

/-- `address >> offset_size` -/
def tagOf (g : Geometry) (address : Nat) : Nat := address >>> Nat.log2 (blockSize g)

def setOf (g : Geometry) (tag : Nat) : Nat := tag % numOfRows g

/-- `tag >> num_of_bits_in_set`, the tag that a way keeps. -/
def upper (g : Geometry) (tag : Nat) : Nat := tag >>> Nat.log2 (numOfRows g)

/-- The first way of a row that has the tag and holds a block. -/
def findWay (row : Nat → Way) (assoc tag : Nat) : Option Nat :=
  (List.range assoc).find? fun i => (row i).1 == tag && (row i).2 != .doesntExist

/-- Another value for one way. -/
def setWay (c : Cache g) (set i : Nat) (way : Way) : Cache g :=
  { c with data := Function.update c.data set (Function.update (c.data set) i way) }

def inCache (c : Cache g) (address : Nat) (isTag : Bool) : Bool :=
  let tag := if isTag then address else tagOf g address
  (findWay (c.data (setOf g tag)) (associativeLevel g) (upper g tag)).isSome

/-- The address of the least recently used block of the row, `none` for
`nullptr`. -/
def lruGetLeastRecentlyUsed (c : Cache g) (address : Nat) : Option Nat :=
  (c.lruVector (setOf g (tagOf g address))).head?

def lruRemove (c : Cache g) (tag : Nat) : Cache g :=
  let set := setOf g tag
  { c with
    lruVector := Function.update c.lruVector set ((c.lruVector set).filter fun t => t != tag) }

def lruUpdate (c : Cache g) (address : Nat) (isAddress : Bool) : Cache g :=
  let tag := if isAddress then tagOf g address else address
  let set := setOf g tag
  { c with
    lruVector := Function.update c.lruVector set
      (((c.lruVector set).filter fun t => t != tag) ++ [tag % uint32Size]) }

/-- Put the block of the address into a free way, or else in the place of the
block `lruAddress`. The result says whether that block has to be evacuated. -/
def add (c : Cache g) (address : Nat) (lruAddress : Option Nat) (L1 : Bool) : Cache g × Bool :=
  let tag := tagOf g address
  let set := setOf g tag
  let free := (List.range (associativeLevel g)).find? fun i =>
    (c.data set i).2 == .doesntExist && !c.inCache address false
  match free, lruAddress with
  | some i, _ => (c.setWay set i (upper g tag % uint32Size, .exist), false)
  | none, none => (c, false)
  | none, some lru =>
      match findWay (c.data set) (associativeLevel g) (upper g lru) with
      | none => (c, false)
      | some i =>
          ((c.setWay set i (upper g tag % uint32Size, .exist)).lruRemove lru,
            (c.data set i).2 == .dirty || (!L1 && (c.data set i).2 != .doesntExist))

/-- The loop of `changeToX` over a row. -/
def changeWay (c : Cache g) (tag : Nat) (newDataStatus : DataStatus) : Cache g :=
  match findWay (c.data (setOf g tag)) (associativeLevel g) (upper g tag) with
  | some i => c.setWay (setOf g tag) i ((c.data (setOf g tag) i).1, newDataStatus)
  | none => c

def changeToX (c : Cache g) (address : Nat) (newDataStatus : DataStatus) (isAddress : Bool) :
    Except Fault (Cache g) :=
  if isAddress then .ok (c.changeWay (tagOf g address) newDataStatus)
  else .error .uninitialised

/-- `if (op == ...) changeToX(address, ...)` -/
def changeIf (c : Cache g) (condition : Bool) (address : Nat) (newDataStatus : DataStatus) :
    Except Fault (Cache g) :=
  if condition then c.changeToX address newDataStatus true else .ok c

end Cache

/-! ## Both caches -/

/-- The class `Memory`. Its constant fields are read off the configuration. -/
structure Memory (cfg : Config) where
  L1cache : Cache cfg.geom1
  L2cache : Cache cfg.geom2
  accessCountL1 : BitVec 32
  missCountL1 : BitVec 32
  accessCountL2 : BitVec 32
  missCountL2 : BitVec 32
  accessCountMem : BitVec 32

namespace Memory

variable {cfg : Config}

/-- The constructor `Memory`. -/
def new (cfg : Config) : Memory cfg where
  L1cache := Cache.new cfg.geom1
  L2cache := Cache.new cfg.geom2
  accessCountL1 := 0
  missCountL1 := 0
  accessCountL2 := 0
  missCountL2 := 0
  accessCountMem := 0

def countL1 (m : Memory cfg) : Memory cfg := { m with accessCountL1 := m.accessCountL1 + 1 }

def countL2 (m : Memory cfg) : Memory cfg :=
  { m with missCountL1 := m.missCountL1 + 1, accessCountL2 := m.accessCountL2 + 1 }

def countMem (m : Memory cfg) : Memory cfg :=
  { m with missCountL2 := m.missCountL2 + 1, accessCountMem := m.accessCountMem + 1 }

/-- `(op == 'w' && cache_policy == WRITE_ALLOCATE) || op == 'r'` -/
def allocates (cfg : Config) (op : Char) : Bool :=
  op == 'w' && cfg.wrAlloc == .writeAllocate || op == 'r'

/-- The address in `LRU_address` where `add` says that it has to be evacuated
and the pointer is not null. -/
def evacuee (needEvac : Bool) (lruAddress : Option Nat) : Option Nat :=
  if needEvac then lruAddress else none

/-- What L2 does about a block that L1 gives up, on a hit in L2 and on a miss. -/
def takeBack (l2 : Cache cfg.geom2) (address : Nat) : Option Nat → Except Fault (Cache cfg.geom2)
  | some lru => (l2.lruUpdate lru false).changeToX address .dirty true
  | none => .ok l2

def takeBackOnMiss (l2 : Cache cfg.geom2) : Option Nat → Cache cfg.geom2
  | some lru => l2.lruUpdate lru false
  | none => l2

/-- What L1 does about a block that L2 gives up. -/
def followEvac (l1 : Cache cfg.geom1) : Option Nat → Except Fault (Cache cfg.geom1)
  | some lru =>
      if l1.inCache lru true then do
        let l1 ← l1.changeToX lru .doesntExist false
        return l1.lruRemove lru
      else .ok l1
  | none => .ok l1

/-- The branch of `calc_operation` for a block that L2 holds and that is to be
added to L1. -/
def serveFromL2 (m : Memory cfg) (address : Nat) (op : Char) : Except Fault (Memory cfg) := do
  let lruAddress := m.L1cache.lruGetLeastRecentlyUsed address
  let (l1, needEvac) := m.L1cache.add address lruAddress true
  let l2 ← takeBack m.L2cache address (evacuee needEvac lruAddress)
  let l1 ← l1.changeIf (op == 'w') address .dirty
  let l1 ← l1.changeIf (op == 'r') address .exist
  let l2 ← l2.changeIf (op == 'r') address .exist
  return { m with L1cache := l1.lruUpdate address true, L2cache := l2.lruUpdate address true }

/-- The branch for a block that is to be added to both. -/
def serveFromMem (m : Memory cfg) (address : Nat) (op : Char) : Except Fault (Memory cfg) := do
  let lruAddress := m.L2cache.lruGetLeastRecentlyUsed address
  let (l2, needEvac) := m.L2cache.add address lruAddress false
  let l1 ← followEvac m.L1cache (evacuee needEvac lruAddress)
  let l2 := l2.lruUpdate address true
  let lruAddress := l1.lruGetLeastRecentlyUsed address
  let (l1, needEvac) := l1.add address lruAddress true
  let l2 := takeBackOnMiss l2 (evacuee needEvac lruAddress)
  let l1 ← (l1.lruUpdate address true).changeIf (op == 'w') address .dirty
  return { m with L1cache := l1, L2cache := l2 }

def calcOperation (m : Memory cfg) (address : Nat) (op : Char) : Except Fault (Memory cfg) :=
  let m := m.countL1
  if m.L1cache.inCache address false then do
    let l1 ← (m.L1cache.lruUpdate address true).changeIf (op == 'w') address .dirty
    return { m with L1cache := l1 }
  else
    let m := m.countL2
    if m.L2cache.inCache address false then
      if allocates cfg op then m.serveFromL2 address op
      else do
        let l2 ← (m.L2cache.lruUpdate address true).changeToX address .dirty true
        return { m with L2cache := l2 }
    else
      let m := m.countMem
      if allocates cfg op then m.serveFromMem address op else .ok m

/-- The sum in `main` that the average access time is taken of. -/
def totalTime (m : Memory cfg) : BitVec 32 :=
  m.accessCountL1 * BitVec.ofNat 32 cfg.l1Cyc + m.accessCountL2 * BitVec.ofNat 32 cfg.l2Cyc +
    m.accessCountMem * BitVec.ofNat 32 cfg.memCyc

/-- Where an operation finds its block. -/
def outcome (m : Memory cfg) (address : Nat) : Outcome :=
  if m.L1cache.inCache address false then .l1Hit
  else if m.L2cache.inCache address false then .l2Hit
  else .miss

/-- A trace of operations, with the outcome of each. -/
def run (m : Memory cfg) : List (Char × Nat) → Except Fault (List Outcome × Memory cfg)
  | [] => .ok ([], m)
  | (op, address) :: rest => do
      let m' ← m.calcOperation address op
      let r ← m'.run rest
      return (m.outcome address :: r.1, r.2)

end Memory

end ShellySim

end ArchSim
