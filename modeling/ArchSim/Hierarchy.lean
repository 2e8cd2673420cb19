import Mathlib.Logic.Function.Basic
import ArchSim.Recency

/-!
# Two-level inclusive LRU caches

What a two-level, set-associative, write-back cache with LRU replacement
is for, over arbitrary block names and set indices. Each set of each
level is the recency list of its blocks; dirty flags are kept by block.

The first half treats one level (`Lists`): using, inserting and removing
a block. The second half couples two levels so that whatever the first
holds the second holds too (`Inclusive`): a block evicted from the
second level is dropped from the first one, and a dirty block evicted
from the first level is written back to the second one.
-/

namespace ArchSim

/-! ## One level -/

section Level

variable {Block S : Type*} [DecidableEq Block] [DecidableEq S]

/-- `b` is held by its set. -/
def Resident (set : Block → S) (order : S → List Block) (b : Block) : Prop :=
  b ∈ order (set b)

instance (set : Block → S) (order : S → List Block) (b : Block) :
    Decidable (Resident set order b) :=
  inferInstanceAs (Decidable (b ∈ order (set b)))

/-- `b` becomes the most recently used block of its set. -/
def useIn (set : Block → S) (b : Block) (order : S → List Block) : S → List Block :=
  Function.update order (set b) (toFront b (order (set b)))

/-- `b` enters its set of `ways` blocks, in place of the least recently
used block if the set is full. -/
def insertIn (set : Block → S) (ways : Nat) (b : Block) (order : S → List Block) :
    S → List Block :=
  Function.update order (set b) (b :: makeRoom ways (order (set b)))

/-- `b` leaves its set. -/
def removeIn (set : Block → S) (b : Block) (order : S → List Block) : S → List Block :=
  Function.update order (set b) ((order (set b)).erase b)

/-- The recency lists of a level: every set holds distinct blocks of its
own, at most `ways` of them. -/
structure Lists (set : Block → S) (ways : Nat) (order : S → List Block) : Prop where
  nodup : ∀ s, (order s).Nodup
  set_eq : ∀ s, ∀ b ∈ order s, set b = s
  le_ways : ∀ s, (order s).length ≤ ways

variable {set : Block → S} {ways : Nat} {order : S → List Block}

omit [DecidableEq Block] [DecidableEq S] in
theorem Lists.resident (h : Lists set ways order) {s : S} {b : Block} (hb : b ∈ order s) :
    Resident set order b := by
  unfold Resident
  rw [h.set_eq s b hb]
  exact hb

omit [DecidableEq Block] in
theorem Lists.update (h : Lists set ways order) {s : S} {l : List Block}
    (hnd : l.Nodup) (hset : ∀ b ∈ l, set b = s) (hlen : l.length ≤ ways) :
    Lists set ways (Function.update order s l) := by
  refine ⟨fun t => ?_, fun t => ?_, fun t => ?_⟩ <;>
    rcases eq_or_ne t s with rfl | hts
  · simpa using hnd
  · simpa [hts] using h.nodup t
  · simpa using hset
  · simpa [hts] using h.set_eq t
  · simpa using hlen
  · simpa [hts] using h.le_ways t

theorem Lists.useIn (h : Lists set ways order) {b : Block} (hb : Resident set order b) :
    Lists set ways (useIn set b order) :=
  h.update (nodup_toFront (h.nodup _))
    (fun c hc => h.set_eq _ c ((mem_toFront hb).mp hc))
    (by rw [length_toFront hb]; exact h.le_ways _)

omit [DecidableEq Block] in
theorem Lists.insertIn (h : Lists set ways order) (hpos : 0 < ways) {b : Block}
    (hb : ¬Resident set order b) : Lists set ways (insertIn set ways b order) := by
  have hsub := makeRoom_sublist ways (order (set b))
  refine h.update (List.nodup_cons.mpr ⟨fun hm => hb (hsub.subset hm), (h.nodup _).sublist hsub⟩)
    ?_ ?_
  · intro c hc
    rcases List.mem_cons.mp hc with rfl | hc
    · rfl
    · exact h.set_eq _ c (hsub.subset hc)
  · have := length_makeRoom_lt hpos (h.le_ways (set b))
    rw [List.length_cons]
    omega

theorem Lists.removeIn (h : Lists set ways order) (b : Block) :
    Lists set ways (removeIn set b order) :=
  h.update ((h.nodup _).erase b)
    (fun c hc => h.set_eq _ c (List.mem_of_mem_erase hc))
    (Nat.le_trans List.length_erase_le (h.le_ways _))

/-! Which blocks each operation leaves resident. -/

theorem resident_useIn {b c : Block} (hb : Resident set order b) :
    Resident set (useIn set b order) c ↔ Resident set order c := by
  unfold Resident ArchSim.useIn
  by_cases hs : set c = set b
  · rw [hs, Function.update_self, mem_toFront hb]
  · rw [Function.update_of_ne hs]

omit [DecidableEq Block] in
theorem resident_insertIn (h : Lists set ways order) {b c : Block} :
    Resident set (insertIn set ways b order) c ↔
      c = b ∨ (Resident set order c ∧ evictee? ways (order (set b)) ≠ some c) := by
  unfold Resident ArchSim.insertIn
  by_cases hs : set c = set b
  · rw [hs, Function.update_self, List.mem_cons, mem_makeRoom (h.nodup _)]
  · have hcb : c ≠ b := fun heq => hs (congrArg set heq)
    have hne : evictee? ways (order (set b)) ≠ some c := fun he =>
      hs (h.set_eq _ c (mem_of_evictee? he))
    rw [Function.update_of_ne hs]
    simp [hcb, hne]

omit [DecidableEq Block] in
theorem resident_insertIn_self {b : Block} : Resident set (insertIn set ways b order) b := by
  rw [Resident, ArchSim.insertIn, Function.update_self]
  exact List.mem_cons_self ..

theorem resident_removeIn (h : Lists set ways order) {b c : Block} :
    Resident set (removeIn set b order) c ↔ c ≠ b ∧ Resident set order c := by
  unfold Resident ArchSim.removeIn
  by_cases hs : set c = set b
  · rw [hs, Function.update_self, (h.nodup _).mem_erase_iff]
  · have hcb : c ≠ b := fun heq => hs (congrArg set heq)
    rw [Function.update_of_ne hs]
    simp [hcb]

theorem removeIn_of_not_resident {b : Block} (hb : ¬Resident set order b) :
    removeIn set b order = order := by
  rw [ArchSim.removeIn, List.erase_of_not_mem hb, Function.update_eq_self]

end Level

/-! ## Two levels -/

/-- What an access asks for. -/
inductive Op where
  | read
  | write
deriving DecidableEq, Repr

/-- Where an access found its block. -/
inductive Outcome where
  | l1Hit
  | l2Hit
  | miss
deriving DecidableEq, Repr

/-- How blocks are spread over the sets of two levels, how many blocks a
set holds, and whether a write brings its block in. -/
structure Hierarchy (Block S₁ S₂ : Type*) where
  set₁ : Block → S₁
  set₂ : Block → S₂
  ways₁ : Nat
  ways₂ : Nat
  ways₁_pos : 0 < ways₁
  ways₂_pos : 0 < ways₂
  writeAllocate : Bool

/-- The contents of both levels. The dirty flag of a block that is not
resident means nothing. -/
structure Contents (Block S₁ S₂ : Type*) where
  order₁ : S₁ → List Block
  order₂ : S₂ → List Block
  dirty₁ : Block → Bool
  dirty₂ : Block → Bool

namespace Contents

variable {Block S₁ S₂ : Type*}

/-- Nothing is resident. -/
def empty : Contents Block S₁ S₂ where
  order₁ := fun _ => []
  order₂ := fun _ => []
  dirty₁ := fun _ => false
  dirty₂ := fun _ => false

variable [DecidableEq Block] [DecidableEq S₁] [DecidableEq S₂]
  (H : Hierarchy Block S₁ S₂)

/-- A use of the second-level copy of `b`. -/
def use₂ (b : Block) (m : Contents Block S₁ S₂) : Contents Block S₁ S₂ :=
  { m with order₂ := useIn H.set₂ b m.order₂ }

/-- The write-back of a dirty block counts as a use of its second-level
copy. -/
def writeBack (b : Block) (m : Contents Block S₁ S₂) : Contents Block S₁ S₂ :=
  { m.use₂ H b with dirty₂ := Function.update m.dirty₂ b true }

/-- Make room in the first-level set of `b`: its evictee is written back
if it is dirty. -/
def evict₁ (b : Block) (m : Contents Block S₁ S₂) : Contents Block S₁ S₂ :=
  match evictee? H.ways₁ (m.order₁ (H.set₁ b)) with
  | some v => if m.dirty₁ v then m.writeBack H v else m
  | none => m

/-- Bring `b` into the first level. -/
def insert₁ (b : Block) (dirty : Bool) (m : Contents Block S₁ S₂) : Contents Block S₁ S₂ :=
  let m' := m.evict₁ H b
  { m' with
    order₁ := insertIn H.set₁ H.ways₁ b m'.order₁
    dirty₁ := Function.update m'.dirty₁ b dirty }

/-- Make room in the second-level set of `b`: its evictee also leaves the
first level, whatever its dirty flag there. -/
def evict₂ (b : Block) (m : Contents Block S₁ S₂) : Contents Block S₁ S₂ :=
  match evictee? H.ways₂ (m.order₂ (H.set₂ b)) with
  | some v => { m with order₁ := removeIn H.set₁ v m.order₁ }
  | none => m

/-- Bring `b` into the second level, clean. -/
def insert₂ (b : Block) (m : Contents Block S₁ S₂) : Contents Block S₁ S₂ :=
  let m' := m.evict₂ H b
  { m' with
    order₂ := insertIn H.set₂ H.ways₂ b m'.order₂
    dirty₂ := Function.update m'.dirty₂ b false }

/-- A block brought in clean and then written to was brought in dirty. -/
theorem insert₁_dirty (b : Block) (m : Contents Block S₁ S₂) :
    { m.insert₁ H b false with
      dirty₁ := Function.update (m.insert₁ H b false).dirty₁ b true } =
      m.insert₁ H b true := by
  simp [insert₁]

/-- Does the access leave its block in the first level on a miss there? -/
def fetches : Op → Bool
  | .read => true
  | .write => H.writeAllocate

/-- An access to a block of the first level. -/
def hit₁ (op : Op) (b : Block) (m : Contents Block S₁ S₂) : Contents Block S₁ S₂ :=
  { m with
    order₁ := useIn H.set₁ b m.order₁
    dirty₁ := if op = .write then Function.update m.dirty₁ b true else m.dirty₁ }

/-- An access to a block that only the second level holds. -/
def hit₂ (op : Op) (b : Block) (m : Contents Block S₁ S₂) : Contents Block S₁ S₂ :=
  if fetches H op then (m.use₂ H b).insert₁ H b (op == .write) else m.writeBack H b

/-- An access to a block that neither level holds. -/
def miss (op : Op) (b : Block) (m : Contents Block S₁ S₂) : Contents Block S₁ S₂ :=
  if fetches H op then (m.insert₂ H b).insert₁ H b (op == .write) else m

/-- Where an access to `b` finds it. -/
def lookup (b : Block) (m : Contents Block S₁ S₂) : Outcome :=
  if Resident H.set₁ m.order₁ b then .l1Hit
  else if Resident H.set₂ m.order₂ b then .l2Hit
  else .miss

/-- One access. -/
def access (op : Op) (b : Block) (m : Contents Block S₁ S₂) : Contents Block S₁ S₂ :=
  match m.lookup H b with
  | .l1Hit => m.hit₁ H op b
  | .l2Hit => m.hit₂ H op b
  | .miss => m.miss H op b

/-- A trace of accesses, with the outcome of each. -/
def run : List (Op × Block) → Contents Block S₁ S₂ → List Outcome × Contents Block S₁ S₂
  | [], m => ([], m)
  | (op, b) :: rest, m =>
      let r := run rest (m.access H op b)
      (m.lookup H b :: r.1, r.2)

theorem length_run (trace : List (Op × Block)) :
    ∀ m : Contents Block S₁ S₂, (m.run H trace).1.length = trace.length := by
  induction trace with
  | nil => intro m; rfl
  | cons a rest ih => intro m; exact congrArg Nat.succ (ih _)

theorem run_append (trace trace' : List (Op × Block)) :
    ∀ m : Contents Block S₁ S₂, m.run H (trace ++ trace') =
      ((m.run H trace).1 ++ ((m.run H trace).2.run H trace').1,
        ((m.run H trace).2.run H trace').2) := by
  induction trace with
  | nil => intro m; rfl
  | cons a rest ih =>
      intro m
      simp only [List.cons_append, run, ih]

/-! How often an access brings a block to the front of a list. -/

/-- The number of write-backs that making room for `b` causes. -/
def writeBacks (b : Block) (m : Contents Block S₁ S₂) : Nat :=
  match evictee? H.ways₁ (m.order₁ (H.set₁ b)) with
  | some v => if m.dirty₁ v then 1 else 0
  | none => 0

def updates (op : Op) (b : Block) (m : Contents Block S₁ S₂) : Nat :=
  match m.lookup H b with
  | .l1Hit => 1
  | .l2Hit => if fetches H op then m.writeBacks H b + 2 else 1
  | .miss => if fetches H op then (m.insert₂ H b).writeBacks H b + 2 else 0

def totalUpdates : List (Op × Block) → Contents Block S₁ S₂ → Nat
  | [], _ => 0
  | (op, b) :: rest, m => m.updates H op b + totalUpdates rest (m.access H op b)

end Contents

/-! ## Inclusion -/

/-- Both levels are well formed and the second one holds every block of
the first one. -/
structure Inclusive {Block S₁ S₂ : Type*} (H : Hierarchy Block S₁ S₂)
    (m : Contents Block S₁ S₂) : Prop where
  lists₁ : Lists H.set₁ H.ways₁ m.order₁
  lists₂ : Lists H.set₂ H.ways₂ m.order₂
  incl : ∀ b, Resident H.set₁ m.order₁ b → Resident H.set₂ m.order₂ b

namespace Inclusive

variable {Block S₁ S₂ : Type*} {H : Hierarchy Block S₁ S₂} {m : Contents Block S₁ S₂}

theorem empty (H : Hierarchy Block S₁ S₂) : Inclusive H Contents.empty where
  lists₁ := ⟨fun _ => List.nodup_nil, fun _ _ h => absurd h List.not_mem_nil,
    fun _ => Nat.zero_le _⟩
  lists₂ := ⟨fun _ => List.nodup_nil, fun _ _ h => absurd h List.not_mem_nil,
    fun _ => Nat.zero_le _⟩
  incl := fun _ h => absurd h List.not_mem_nil

variable [DecidableEq Block] [DecidableEq S₁] [DecidableEq S₂]

omit [DecidableEq S₁] in
theorem use₂ (h : Inclusive H m) {b : Block} (hb : Resident H.set₂ m.order₂ b) :
    Inclusive H (m.use₂ H b) where
  lists₁ := h.lists₁
  lists₂ := h.lists₂.useIn hb
  incl := fun c hc => (resident_useIn hb).mpr (h.incl c hc)

omit [DecidableEq S₁] in
theorem writeBack (h : Inclusive H m) {b : Block} (hb : Resident H.set₂ m.order₂ b) :
    Inclusive H (m.writeBack H b) :=
  ⟨(h.use₂ hb).lists₁, (h.use₂ hb).lists₂, (h.use₂ hb).incl⟩

omit [DecidableEq Block] [DecidableEq S₁] [DecidableEq S₂] in
/-- The evictee of a first-level set is held by the second level: the
write-back finds its block. -/
theorem resident₂_of_evictee (h : Inclusive H m) {s : S₁} {v : Block}
    (hv : evictee? H.ways₁ (m.order₁ s) = some v) : Resident H.set₂ m.order₂ v :=
  h.incl v (h.lists₁.resident (mem_of_evictee? hv))

omit [DecidableEq S₁] in
theorem evict₁ (h : Inclusive H m) (b : Block) : Inclusive H (m.evict₁ H b) := by
  unfold Contents.evict₁
  split
  · rename_i v hv
    split
    · exact h.writeBack (h.resident₂_of_evictee hv)
    · exact h
  · exact h

omit [DecidableEq S₁] in
@[simp] theorem evict₁_order₁ (b : Block) (m : Contents Block S₁ S₂) :
    (m.evict₁ H b).order₁ = m.order₁ := by
  unfold Contents.evict₁
  split
  · split <;> rfl
  · rfl

omit [DecidableEq S₁] in
@[simp] theorem evict₁_dirty₁ (b : Block) (m : Contents Block S₁ S₂) :
    (m.evict₁ H b).dirty₁ = m.dirty₁ := by
  unfold Contents.evict₁
  split
  · split <;> rfl
  · rfl

omit [DecidableEq S₁] in
theorem evict₁_resident₂ (h : Inclusive H m) {b c : Block} :
    Resident H.set₂ (m.evict₁ H b).order₂ c ↔ Resident H.set₂ m.order₂ c := by
  unfold Contents.evict₁
  split
  · rename_i v hv
    split
    · exact resident_useIn (h.resident₂_of_evictee hv)
    · rfl
  · rfl

theorem insert₁ (h : Inclusive H m) {b : Block} (hb₁ : ¬Resident H.set₁ m.order₁ b)
    (hb₂ : Resident H.set₂ m.order₂ b) (dirty : Bool) :
    Inclusive H (m.insert₁ H b dirty) where
  lists₁ := (h.evict₁ b).lists₁.insertIn H.ways₁_pos (by rw [evict₁_order₁]; exact hb₁)
  lists₂ := (h.evict₁ b).lists₂
  incl := fun c hc => by
    rcases (resident_insertIn (h.evict₁ b).lists₁).mp hc with rfl | ⟨hc, -⟩
    · exact (h.evict₁_resident₂).mpr hb₂
    · exact (h.evict₁ b).incl c hc

omit [DecidableEq S₂] in
@[simp] theorem evict₂_order₂ (b : Block) (m : Contents Block S₁ S₂) :
    (m.evict₂ H b).order₂ = m.order₂ := by
  unfold Contents.evict₂
  split <;> rfl

omit [DecidableEq S₂] in
@[simp] theorem evict₂_dirty₂ (b : Block) (m : Contents Block S₁ S₂) :
    (m.evict₂ H b).dirty₂ = m.dirty₂ := by
  unfold Contents.evict₂
  split <;> rfl

omit [DecidableEq S₂] in
theorem evict₂_lists₁ (h : Inclusive H m) (b : Block) :
    Lists H.set₁ H.ways₁ (m.evict₂ H b).order₁ := by
  unfold Contents.evict₂
  split
  · exact h.lists₁.removeIn _
  · exact h.lists₁

omit [DecidableEq S₂] in
/-- After back-invalidation the first level no longer holds the evictee. -/
theorem evict₂_resident₁ (h : Inclusive H m) {b c : Block} :
    Resident H.set₁ (m.evict₂ H b).order₁ c ↔
      Resident H.set₁ m.order₁ c ∧ evictee? H.ways₂ (m.order₂ (H.set₂ b)) ≠ some c := by
  unfold Contents.evict₂
  split
  · rename_i v hv
    rw [resident_removeIn h.lists₁, hv]
    simp only [ne_eq, Option.some.injEq]
    tauto
  · rename_i hv
    simp [hv]

omit [DecidableEq S₂] in
theorem evict₂ (h : Inclusive H m) (b : Block) : Inclusive H (m.evict₂ H b) where
  lists₁ := h.evict₂_lists₁ b
  lists₂ := by rw [evict₂_order₂]; exact h.lists₂
  incl := fun c hc => by rw [evict₂_order₂]; exact h.incl c (h.evict₂_resident₁.mp hc).1

theorem insert₂ (h : Inclusive H m) {b : Block} (hb₂ : ¬Resident H.set₂ m.order₂ b) :
    Inclusive H (m.insert₂ H b) where
  lists₁ := h.evict₂_lists₁ b
  lists₂ := by
    simpa [Contents.insert₂] using h.lists₂.insertIn H.ways₂_pos hb₂
  incl := fun c hc => by
    obtain ⟨hc, hne⟩ := h.evict₂_resident₁.mp hc
    simp only [Contents.insert₂, evict₂_order₂]
    exact (resident_insertIn h.lists₂).mpr (Or.inr ⟨h.incl c hc, hne⟩)

theorem insert₂_resident₂_iff (h : Inclusive H m) {b c : Block} :
    Resident H.set₂ (m.insert₂ H b).order₂ c ↔
      c = b ∨ (Resident H.set₂ m.order₂ c ∧
        evictee? H.ways₂ (m.order₂ (H.set₂ b)) ≠ some c) := by
  simp only [Contents.insert₂, evict₂_order₂]
  exact resident_insertIn h.lists₂

theorem insert₂_resident₂ (h : Inclusive H m) (b : Block) :
    Resident H.set₂ (m.insert₂ H b).order₂ b :=
  h.insert₂_resident₂_iff.mpr (Or.inl rfl)

/-- Bringing a block into the first level leaves the second level's blocks. -/
theorem insert₁_resident₂ (h : Inclusive H m) {b c : Block} {dirty : Bool} :
    Resident H.set₂ (m.insert₁ H b dirty).order₂ c ↔ Resident H.set₂ m.order₂ c :=
  h.evict₁_resident₂

theorem insert₁_resident₁ (h : Inclusive H m) {b c : Block} {dirty : Bool} :
    Resident H.set₁ (m.insert₁ H b dirty).order₁ c ↔
      c = b ∨ (Resident H.set₁ m.order₁ c ∧
        evictee? H.ways₁ (m.order₁ (H.set₁ b)) ≠ some c) := by
  simp only [Contents.insert₁, evict₁_order₁]
  exact resident_insertIn h.lists₁

omit [DecidableEq S₂] in
theorem hit₁ (h : Inclusive H m) (op : Op) {b : Block} (hb : Resident H.set₁ m.order₁ b) :
    Inclusive H (m.hit₁ H op b) where
  lists₁ := h.lists₁.useIn hb
  lists₂ := h.lists₂
  incl := fun c hc => h.incl c ((resident_useIn hb).mp hc)

theorem hit₂ (h : Inclusive H m) (op : Op) {b : Block} (hb₁ : ¬Resident H.set₁ m.order₁ b)
    (hb₂ : Resident H.set₂ m.order₂ b) : Inclusive H (m.hit₂ H op b) := by
  unfold Contents.hit₂
  split
  · exact (h.use₂ hb₂).insert₁ hb₁ ((resident_useIn hb₂).mpr hb₂) _
  · exact h.writeBack hb₂

theorem miss (h : Inclusive H m) (op : Op) {b : Block}
    (hb₂ : ¬Resident H.set₂ m.order₂ b) : Inclusive H (m.miss H op b) := by
  have hb₁ : ¬Resident H.set₁ m.order₁ b := fun hb => hb₂ (h.incl b hb)
  unfold Contents.miss
  split
  · exact (h.insert₂ hb₂).insert₁ (fun hb => hb₁ (h.evict₂_resident₁.mp hb).1)
      (h.insert₂_resident₂ b) _
  · exact h

/-- Every access keeps the levels inclusive. -/
theorem access (h : Inclusive H m) (op : Op) (b : Block) : Inclusive H (m.access H op b) := by
  unfold Contents.access Contents.lookup
  by_cases hb₁ : Resident H.set₁ m.order₁ b
  · simpa [hb₁] using h.hit₁ op hb₁
  · by_cases hb₂ : Resident H.set₂ m.order₂ b
    · simpa [hb₁, hb₂] using h.hit₂ op hb₁ hb₂
    · simpa [hb₁, hb₂] using h.miss op hb₂

/-- A block that an access fetches is in the first level after it. -/
theorem access_resident₁ {op : Op} (hf : Contents.fetches H op = true) (b : Block)
    (m : Contents Block S₁ S₂) : Resident H.set₁ (m.access H op b).order₁ b := by
  unfold Contents.access Contents.lookup
  by_cases hb₁ : Resident H.set₁ m.order₁ b
  · rw [if_pos hb₁]
    exact (resident_useIn hb₁).mpr hb₁
  · rw [if_neg hb₁]
    by_cases hb₂ : Resident H.set₂ m.order₂ b
    · rw [if_pos hb₂]
      simp only [Contents.hit₂, hf, if_true]
      exact resident_insertIn_self
    · rw [if_neg hb₂]
      simp only [Contents.miss, hf, if_true]
      exact resident_insertIn_self

theorem run (trace : List (Op × Block)) :
    ∀ {m : Contents Block S₁ S₂}, Inclusive H m → Inclusive H (m.run H trace).2 := by
  induction trace with
  | nil => intro m h; exact h
  | cons a rest ih =>
      intro m h
      exact ih (h.access a.1 a.2)

end Inclusive

end ArchSim
