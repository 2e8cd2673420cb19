import ArchSim.CacheSim

/-!
# The second cache simulator

`HW2/cacheSimRoy.cpp`: the same two-level cache with LRU ranks 1 to
`assoc` in place of time stamps. Ranks are renumbered on every use and
closed up when a block is invalidated, and a block's address is rebuilt
from its tag and set.

The counters are 32-bit `int`s, the statistics computed from them
`unsigned`s.
-/

namespace ArchSim

namespace RoySim

open CacheSim (Config)

structure Way where
  tag : Nat
  validBit : Bool
  dirty : Bool
  lru : Nat
deriving DecidableEq, Repr

/-- What the source leaves undefined: `getLRU` returns `NULL` and the
caller dereferences it. -/
inductive Fault where
  | nullWay
deriving DecidableEq, Repr

/-! ## What `main` computes from the parameters -/

def assoc1 (cfg : Config) : Nat := 2 ^ cfg.l1Assoc

def assoc2 (cfg : Config) : Nat := 2 ^ cfg.l2Assoc

def l1Levels (cfg : Config) : Nat := 2 ^ cfg.l1Size / 2 ^ cfg.bSize / assoc1 cfg

def l2Levels (cfg : Config) : Nat := 2 ^ cfg.l2Size / 2 ^ cfg.bSize / assoc2 cfg

/-- Ones in the positions `startingBit`, ..., `startingBit + bitsNum - 1`. -/
def createMask (startingBit bitsNum : Nat) : Nat :=
  (List.range' startingBit bitsNum).foldl
    (fun mask i => (mask + (1 <<< i) % uint32Size) % uint32Size) 0

def l1Set (cfg : Config) (num : Nat) : Nat :=
  ((num &&& createMask cfg.bSize (Nat.log2 (l1Levels cfg))) >>> cfg.bSize) % uint32Size

def l2Set (cfg : Config) (num : Nat) : Nat :=
  ((num &&& createMask cfg.bSize (Nat.log2 (l2Levels cfg))) >>> cfg.bSize) % uint32Size

def l1Tag (cfg : Config) (num : Nat) : Nat :=
  (num >>> (cfg.bSize + Nat.log2 (l1Levels cfg))) % uint32Size

def l2Tag (cfg : Config) (num : Nat) : Nat :=
  (num >>> (cfg.bSize + Nat.log2 (l2Levels cfg))) % uint32Size

/-! ## Operations on the ways of one set -/

def searchCache (ways : Nat → Way) (assoc curTag : Nat) : Option Nat :=
  (List.range assoc).find? fun i => (ways i).tag == curTag && (ways i).validBit

/-- The loop changes way `i` in iteration `i` only. -/
def updateLRU (ways : Nat → Way) (limit assoc : Nat) : Nat → Way := fun i =>
  if i < assoc ∧ (ways i).validBit = true then
    if (ways i).lru = limit then { ways i with lru := 1 }
    else if (ways i).lru < limit then { ways i with lru := (ways i).lru + 1 }
    else ways i
  else ways i

def updateLRUforEvac (ways : Nat → Way) (limit assoc : Nat) : Nat → Way := fun i =>
  if i < assoc ∧ (ways i).validBit = true ∧ limit < (ways i).lru then
    { ways i with lru := (ways i).lru - 1 }
  else ways i

def insertToSlot (ways : Nat → Way) (curTag wayNum : Nat) (operation : Op) (assoc : Nat) :
    Nat → Way :=
  updateLRU
    (Function.update ways wayNum
      { tag := curTag, validBit := true, dirty := operation == .write, lru := assoc })
    assoc assoc

def emptySlot (ways : Nat → Way) (assoc : Nat) : Option Nat :=
  (List.range assoc).find? fun i => !(ways i).validBit

/-- The way of the highest rank; the source assumes that all are taken. -/
def getLRU (ways : Nat → Way) (assoc : Nat) : Option Nat :=
  (List.range assoc).find? fun i => (ways i).lru == assoc

/-! ## The global state -/

/-- The struct `myCache`, its ways indexed by set and way. `strayed` is
not in the source: it records that `InsertToL1` came to its branch
"should never reach here", which does nothing. -/
structure State (cfg : Config) where
  L1 : Nat → Nat → Way
  L2 : Nat → Nat → Way
  l1miss : BitVec 32
  l2miss : BitVec 32
  l1NumOfAccesses : BitVec 32
  l2NumOfAccesses : BitVec 32
  total : BitVec 32
  strayed : Bool

namespace State

variable {cfg : Config}

/-- `main` before the trace loop: the arrays come from `new Way[...]`
uninitialised and only the valid bits are cleared. -/
def init (cfg : Config) (mem1 mem2 : Nat → Nat → Way) : State cfg where
  L1 := fun s i => { mem1 s i with validBit := false }
  L2 := fun s i => { mem2 s i with validBit := false }
  l1miss := 0
  l2miss := 0
  l1NumOfAccesses := 0
  l2NumOfAccesses := 0
  total := 0
  strayed := false

/-- `myCache.total++`. -/
def countLine (s : State cfg) : State cfg := { s with total := s.total + 1 }

def updateCacheCounters1 (s : State cfg) (isMiss : Bool) : State cfg :=
  { s with
    l1NumOfAccesses := s.l1NumOfAccesses + 1
    l1miss := s.l1miss + (if isMiss then 1 else 0) }

def updateCacheCounters2 (s : State cfg) (isMiss : Bool) : State cfg :=
  { s with
    l2NumOfAccesses := s.l2NumOfAccesses + 1
    l2miss := s.l2miss + (if isMiss then 1 else 0) }

/-- New ways for one set of L1. -/
def setL1 (s : State cfg) (set : Nat) (ways : Nat → Way) : State cfg :=
  { s with L1 := Function.update s.L1 set ways }

/-- New ways for one set of L2. -/
def setL2 (s : State cfg) (set : Nat) (ways : Nat → Way) : State cfg :=
  { s with L2 := Function.update s.L2 set ways }

/-- The part of `InsertToL1` that marks a dirty victim's line in L2. -/
def saveLine (s : State cfg) (curSet tag : Nat) : State cfg :=
  let fullLine := ((tag <<< Nat.log2 (l1Levels cfg)) % uint32Size + curSet) % uint32Size
  let set := fullLine &&& createMask 0 (Nat.log2 (l2Levels cfg))
  let tag := fullLine >>> Nat.log2 (l2Levels cfg)
  match searchCache (s.L2 set) (assoc2 cfg) tag with
  | some i =>
      let currentLRU := (s.L2 set i).lru
      let ways := Function.update (s.L2 set) i { s.L2 set i with dirty := true }
      s.setL2 set (updateLRU ways currentLRU (assoc2 cfg))
  | none => { s with strayed := true }

def insertToL1 (s : State cfg) (curSet curTag : Nat) (operation : Op) :
    Except Fault (State cfg) :=
  match emptySlot (s.L1 curSet) (assoc1 cfg) with
  | some i =>
      .ok (s.setL1 curSet (insertToSlot (s.L1 curSet) curTag i operation (assoc1 cfg)))
  | none =>
      match getLRU (s.L1 curSet) (assoc1 cfg) with
      | some wayNum =>
          let s := if (s.L1 curSet wayNum).dirty then
              s.saveLine curSet (s.L1 curSet wayNum).tag
            else s
          .ok (s.setL1 curSet
            (insertToSlot (s.L1 curSet) curTag wayNum operation (assoc1 cfg)))
      | none => .error .nullWay

/-- The part of `InsertToL2` that removes the victim's line from L1. -/
def dropLine (s : State cfg) (curSet tag : Nat) : State cfg :=
  let fullLine := ((tag <<< Nat.log2 (l2Levels cfg)) % uint32Size + curSet) % uint32Size
  let set := fullLine &&& createMask 0 (Nat.log2 (l1Levels cfg))
  let tag := fullLine >>> Nat.log2 (l1Levels cfg)
  match searchCache (s.L1 set) (assoc1 cfg) tag with
  | some i =>
      let ways := Function.update (s.L1 set) i { s.L1 set i with validBit := false }
      s.setL1 set (updateLRUforEvac ways (s.L1 set i).lru (assoc1 cfg))
  | none => s

def insertToL2 (s : State cfg) (curSet curTag : Nat) (operation : Op) :
    Except Fault (State cfg) :=
  match emptySlot (s.L2 curSet) (assoc2 cfg) with
  | some i =>
      .ok (s.setL2 curSet (insertToSlot (s.L2 curSet) curTag i operation (assoc2 cfg)))
  | none =>
      match getLRU (s.L2 curSet) (assoc2 cfg) with
      | some wayNum =>
          let s := s.dropLine curSet (s.L2 curSet wayNum).tag
          .ok (s.setL2 curSet
            (insertToSlot (s.L2 curSet) curTag wayNum operation (assoc2 cfg)))
      | none => .error .nullWay

/-- `UpdateLRU` for a way of L1 that has been found; a write also sets its
dirty flag. -/
def useL1 (s : State cfg) (set i : Nat) (operation : Op) : State cfg :=
  let ways := updateLRU (s.L1 set) (s.L1 set i).lru (assoc1 cfg)
  s.setL1 set
    (if operation = .write then Function.update ways i { ways i with dirty := true } else ways)

def useL2 (s : State cfg) (set i : Nat) (markDirty : Bool) : State cfg :=
  let ways := updateLRU (s.L2 set) (s.L2 set i).lru (assoc2 cfg)
  s.setL2 set (if markDirty then Function.update ways i { ways i with dirty := true } else ways)

/-- The branch `operation == 'w'` of the trace loop. -/
def write (s : State cfg) (num : Nat) : Except Fault (State cfg) :=
  match searchCache (s.L1 (l1Set cfg num)) (assoc1 cfg) (l1Tag cfg num) with
  | some i => .ok ((s.useL1 (l1Set cfg num) i .write).updateCacheCounters1 false)
  | none =>
      match searchCache (s.L2 (l2Set cfg num)) (assoc2 cfg) (l2Tag cfg num) with
      | some i =>
          match cfg.wrAlloc with
          | .writeAllocate => do
              let s ← (s.useL2 (l2Set cfg num) i false).insertToL1
                (l1Set cfg num) (l1Tag cfg num) .write
              return (s.updateCacheCounters1 true).updateCacheCounters2 false
          | .noWriteAllocate =>
              .ok (((s.useL2 (l2Set cfg num) i true).updateCacheCounters1 true).updateCacheCounters2
                false)
      | none =>
          match cfg.wrAlloc with
          | .writeAllocate => do
              let s ← s.insertToL2 (l2Set cfg num) (l2Tag cfg num) .write
              let s ← s.insertToL1 (l1Set cfg num) (l1Tag cfg num) .write
              return (s.updateCacheCounters1 true).updateCacheCounters2 true
          | .noWriteAllocate => .ok ((s.updateCacheCounters1 true).updateCacheCounters2 true)

/-- The branch `operation == 'r'` of the trace loop. -/
def read (s : State cfg) (num : Nat) : Except Fault (State cfg) :=
  match searchCache (s.L1 (l1Set cfg num)) (assoc1 cfg) (l1Tag cfg num) with
  | some i => .ok ((s.useL1 (l1Set cfg num) i .read).updateCacheCounters1 false)
  | none =>
      match searchCache (s.L2 (l2Set cfg num)) (assoc2 cfg) (l2Tag cfg num) with
      | some i => do
          let s ← (s.useL2 (l2Set cfg num) i false).insertToL1
            (l1Set cfg num) (l1Tag cfg num) .read
          return (s.updateCacheCounters1 true).updateCacheCounters2 false
      | none => do
          let s ← s.insertToL2 (l2Set cfg num) (l2Tag cfg num) .read
          let s ← s.insertToL1 (l1Set cfg num) (l1Tag cfg num) .read
          return (s.updateCacheCounters1 true).updateCacheCounters2 true

/-- One line of the trace. -/
def access (s : State cfg) : Op × Nat → Except Fault (State cfg)
  | (.write, num) => s.countLine.write num
  | (.read, num) => s.countLine.read num

/-- What the two searches of an access find. -/
def outcome (s : State cfg) (num : Nat) : Outcome :=
  match searchCache (s.L1 (l1Set cfg num)) (assoc1 cfg) (l1Tag cfg num) with
  | some _ => .l1Hit
  | none =>
      match searchCache (s.L2 (l2Set cfg num)) (assoc2 cfg) (l2Tag cfg num) with
      | some _ => .l2Hit
      | none => .miss

/-- The trace loop, with the outcome of every access. -/
def run (s : State cfg) : List (Op × Nat) → Except Fault (List Outcome × State cfg)
  | [] => .ok ([], s)
  | a :: rest => do
      let s' ← s.access a
      let r ← s'.run rest
      return (s.outcome a.2 :: r.1, r.2)

/-- `total_time`, from the counters and in `unsigned` arithmetic. -/
def totalTime (s : State cfg) : BitVec 32 :=
  let l1Cyc := BitVec.ofNat 32 cfg.l1Cyc
  let l2Cyc := BitVec.ofNat 32 cfg.l2Cyc
  let memCyc := BitVec.ofNat 32 cfg.memCyc
  let l1Hit := s.total - s.l1miss
  let l1MissAndL2Hit := s.total - s.l2miss - l1Hit
  let l1MissAndL2Miss := s.l2miss
  l1Hit * l1Cyc + l1MissAndL2Hit * (l1Cyc + l2Cyc) +
    l1MissAndL2Miss * (l1Cyc + l2Cyc + memCyc)

end State

end RoySim

end ArchSim
