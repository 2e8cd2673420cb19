import Mathlib.Data.List.Nodup
import Mathlib.Data.List.Perm.Subperm

/-!
# Recency orders

The bookkeeping behind "least recently used", independent of any
particular encoding of it. A recency list names the resident keys from
most to least recently used; a *slot order* names the occupied slots of
an array in the same order, so that one list of slots ties an array to
the recency list of its keys (`Holds`).

How a program stores the order (time stamps, ranks) is a separate
predicate on the slot list: `Newest` says that time stamps decrease
along it, `Ranked` that the slots carry the ranks 1, 2, 3, ...
-/

namespace ArchSim

/-! ## Recency lists -/

section Lists

variable {α : Type*}

/-- The element that a list of capacity `n` gives up when one more
element comes in: its last one, if the list is full. -/
def evictee? (n : Nat) (l : List α) : Option α :=
  if l.length < n then none else l.getLast?

/-- The list after it has given up its `evictee?`. -/
def makeRoom (n : Nat) (l : List α) : List α :=
  if l.length < n then l else l.dropLast

theorem evictee?_of_lt {n : Nat} {l : List α} (h : l.length < n) :
    evictee? n l = none := if_pos h

theorem makeRoom_of_lt {n : Nat} {l : List α} (h : l.length < n) :
    makeRoom n l = l := if_pos h

theorem evictee?_of_le {n : Nat} {l : List α} (h : n ≤ l.length) :
    evictee? n l = l.getLast? := if_neg (Nat.not_lt.mpr h)

theorem makeRoom_of_le {n : Nat} {l : List α} (h : n ≤ l.length) :
    makeRoom n l = l.dropLast := if_neg (Nat.not_lt.mpr h)

theorem evictee?_eq_none_iff {n : Nat} (hn : 0 < n) {l : List α} :
    evictee? n l = none ↔ l.length < n := by
  refine ⟨fun h => ?_, evictee?_of_lt⟩
  by_contra hge
  rw [evictee?_of_le (Nat.not_lt.mp hge), List.getLast?_eq_none_iff] at h
  rw [h] at hge
  exact hge hn

theorem mem_of_evictee? {n : Nat} {l : List α} {a : α}
    (h : evictee? n l = some a) : a ∈ l := by
  unfold evictee? at h
  split at h
  · cases h
  · exact List.mem_of_getLast? h

theorem makeRoom_sublist (n : Nat) (l : List α) : (makeRoom n l).Sublist l := by
  unfold makeRoom
  split
  · exact List.Sublist.refl l
  · exact List.dropLast_sublist l

theorem length_makeRoom_lt {n : Nat} {l : List α} (hn : 0 < n)
    (hl : l.length ≤ n) : (makeRoom n l).length < n := by
  unfold makeRoom
  split
  · assumption
  · rw [List.length_dropLast]
    omega

theorem mem_makeRoom {n : Nat} {l : List α} (hl : l.Nodup) {a : α} :
    a ∈ makeRoom n l ↔ a ∈ l ∧ evictee? n l ≠ some a := by
  rcases Nat.lt_or_ge l.length n with h | h
  · simp [makeRoom_of_lt h, evictee?_of_lt h]
  · rw [makeRoom_of_le h, evictee?_of_le h]
    rcases List.eq_nil_or_concat l with rfl | ⟨xs, x, rfl⟩
    · simp
    · rw [List.concat_eq_append] at hl ⊢
      have hx : x ∉ xs := fun hmem =>
        (List.nodup_append.mp hl).2.2 x hmem x (List.mem_singleton.mpr rfl) rfl
      rw [List.dropLast_concat, List.getLast?_concat]
      constructor
      · intro ha
        exact ⟨List.mem_append_left _ ha, fun hxa => hx (Option.some.inj hxa ▸ ha)⟩
      · rintro ⟨ha, hne⟩
        rcases List.mem_append.mp ha with ha | ha
        · exact ha
        · exact absurd (congrArg some (List.mem_singleton.mp ha).symm) hne

variable [DecidableEq α]

/-- Move `a` to the front of a recency list. -/
def toFront (a : α) (l : List α) : List α := a :: l.erase a

theorem mem_toFront {a b : α} {l : List α} (ha : a ∈ l) :
    b ∈ toFront a l ↔ b ∈ l := by
  by_cases h : b = a
  · subst h
    simp [toFront, ha]
  · simp [toFront, h, List.mem_erase_of_ne h]

theorem nodup_toFront {a : α} {l : List α} (hl : l.Nodup) : (toFront a l).Nodup :=
  List.nodup_cons.mpr ⟨hl.not_mem_erase, hl.erase a⟩

theorem length_toFront {a : α} {l : List α} (ha : a ∈ l) :
    (toFront a l).length = l.length := by
  have := List.length_pos_of_mem ha
  simp only [toFront, List.length_cons, List.length_erase_of_mem ha]
  omega

/-- Erasing the last element of a list without repetitions drops it. -/
theorem erase_getLast {l : List α} (hl : l.Nodup) {a : α}
    (ha : l.getLast? = some a) : l.erase a = l.dropLast := by
  rcases List.eq_nil_or_concat l with rfl | ⟨xs, x, rfl⟩
  · cases ha
  · rw [List.concat_eq_append] at *
    obtain rfl : x = a := by simpa using ha
    have hx : x ∉ xs := fun hmem =>
      (List.nodup_append.mp hl).2.2 x hmem x (List.mem_singleton.mpr rfl) rfl
    rw [List.erase_append_right _ hx, List.dropLast_concat]
    simp

/-- Erasing commutes with a map that repeats no value on the list. -/
theorem map_erase_of_nodup {β : Type*} [DecidableEq β] {f : α → β} :
    ∀ {l : List α}, (l.map f).Nodup → ∀ {a : α}, a ∈ l →
      (l.erase a).map f = (l.map f).erase (f a)
  | [], _, _, ha => absurd ha List.not_mem_nil
  | x :: xs, hl, a, ha => by
      rw [List.map_cons, List.nodup_cons] at hl
      by_cases hxa : x = a
      · subst hxa
        simp
      · have ha' : a ∈ xs := (List.mem_cons.mp ha).resolve_left (Ne.symm hxa)
        have hfx : f x ≠ f a := fun h => hl.1 (h ▸ List.mem_map_of_mem ha')
        simp only [List.erase_cons, List.map_cons, beq_iff_eq, hxa, hfx, if_false]
        rw [map_erase_of_nodup hl.2 ha']

end Lists

/-! ## Slot orders -/

/-- `ws` lists the valid ones of `n` slots, each once. -/
structure SlotOrder (n : Nat) (valid : Nat → Bool) (ws : List Nat) : Prop where
  nodup : ws.Nodup
  mem_iff : ∀ i, i ∈ ws ↔ i < n ∧ valid i = true

namespace SlotOrder

variable {n : Nat} {valid : Nat → Bool} {ws : List Nat}

theorem subperm_range (h : SlotOrder n valid ws) : ws.Subperm (List.range n) :=
  List.subperm_of_subset h.nodup fun i hi =>
    List.mem_range.mpr ((h.mem_iff i).mp hi).1

theorem length_le (h : SlotOrder n valid ws) : ws.length ≤ n := by
  simpa using h.subperm_range.length_le

/-- The list is as long as the array exactly when no slot is free. -/
theorem full_iff (h : SlotOrder n valid ws) :
    n ≤ ws.length ↔ ∀ i < n, valid i = true := by
  constructor
  · intro hlen i hi
    have hperm := h.subperm_range.perm_of_length_le (by simpa using hlen)
    exact ((h.mem_iff i).mp (hperm.mem_iff.mpr (List.mem_range.mpr hi))).2
  · intro hall
    have hsub : (List.range n).Subperm ws :=
      List.subperm_of_subset List.nodup_range fun i hi =>
        (h.mem_iff i).mpr ⟨List.mem_range.mp hi, hall i (List.mem_range.mp hi)⟩
    simpa using hsub.length_le

end SlotOrder

/-! ## Arrays that hold a recency list -/

/-- The slots listed by `ws` hold the keys of the recency list `l`, most
recently used first. -/
structure Holds {α : Type*} (n : Nat) (valid : Nat → Bool) (key : Nat → α)
    (ws : List Nat) (l : List α) : Prop where
  order : SlotOrder n valid ws
  keys : ws.map key = l

namespace Holds

variable {α : Type*} {n : Nat} {valid valid' : Nat → Bool} {key key' : Nat → α}
  {ws : List Nat} {l : List α}

theorem length_eq (h : Holds n valid key ws l) : l.length = ws.length := by
  rw [← h.keys, List.length_map]

theorem mem_iff (h : Holds n valid key ws l) {b : α} :
    b ∈ l ↔ ∃ i, i < n ∧ valid i = true ∧ key i = b := by
  rw [← h.keys, List.mem_map]
  constructor
  · rintro ⟨i, hi, rfl⟩
    exact ⟨i, ((h.order.mem_iff i).mp hi).1, ((h.order.mem_iff i).mp hi).2, rfl⟩
  · rintro ⟨i, hi, hv, rfl⟩
    exact ⟨i, (h.order.mem_iff i).mpr ⟨hi, hv⟩, rfl⟩

/-- Two slots of a list without repetitions hold different keys. -/
theorem key_inj (h : Holds n valid key ws l) (hl : l.Nodup) {i j : Nat}
    (hi : i ∈ ws) (hj : j ∈ ws) (hij : key i = key j) : i = j := by
  rw [← h.keys] at hl
  exact List.inj_on_of_nodup_map hl hi hj hij

theorem congr (h : Holds n valid key ws l) (hv : ∀ i, valid' i = valid i)
    (hk : ∀ i, key' i = key i) : Holds n valid' key' ws l where
  order := ⟨h.order.nodup, fun i => by rw [h.order.mem_iff, hv]⟩
  keys := by rw [← h.keys]; exact List.map_congr_left fun i _ => hk i

/-- The slot a new key goes into: a free one, or in a full array the
slot of the least recently used key. -/
def Victim (n : Nat) (valid : Nat → Bool) (ws : List Nat) (i : Nat) : Prop :=
  i < n ∧ (valid i = false ∨ (n ≤ ws.length ∧ ws.getLast? = some i))

theorem Victim.erase_eq (h : SlotOrder n valid ws) {i : Nat}
    (hi : Victim n valid ws i) : ws.erase i = makeRoom n ws := by
  rcases hi with ⟨hin, hfree | ⟨hfull, hlast⟩⟩
  · have hmem : i ∉ ws := fun hmem => by
      rw [((h.mem_iff i).mp hmem).2] at hfree
      cases hfree
    have hlen : ws.length < n := by
      by_contra hge
      rw [h.full_iff.mp (by omega) i hin] at hfree
      cases hfree
    rw [List.erase_of_not_mem hmem, makeRoom_of_lt hlen]
  · rw [erase_getLast h.nodup hlast, makeRoom_of_le hfull]

/-- The victim holds the key that has to go, if any. -/
theorem Victim.evictee? (h : Holds n valid key ws l) {i : Nat}
    (hi : Victim n valid ws i) :
    ArchSim.evictee? n l = if valid i = true then some (key i) else none := by
  rcases hi with ⟨hin, hfree | ⟨hfull, hlast⟩⟩
  · have hlen : l.length < n := by
      rw [h.length_eq]
      by_contra hge
      rw [h.order.full_iff.mp (by omega) i hin] at hfree
      cases hfree
    rw [evictee?_of_lt hlen, hfree]
    rfl
  · rw [evictee?_of_le (h.length_eq.symm ▸ hfull), ← h.keys,
      h.order.full_iff.mp hfull i hin, if_pos rfl, List.getLast?_map, hlast]
    rfl

/-- Writing a new key into the victim evicts the least recently used key
of a full array and puts the new one in front. -/
theorem fill (h : Holds n valid key ws l) {i : Nat}
    (hi : Victim n valid ws i) {b : α} (hvi : valid' i = true) (hki : key' i = b)
    (hv : ∀ j, j ≠ i → valid' j = valid j) (hk : ∀ j, j ≠ i → key' j = key j) :
    Holds n valid' key' (toFront i ws) (b :: makeRoom n l) where
  order := ⟨nodup_toFront h.order.nodup, fun j => by
    rw [toFront, List.mem_cons, h.order.nodup.mem_erase_iff, h.order.mem_iff]
    by_cases hj : j = i
    · subst hj
      simp [hvi, hi.1]
    · simp [hj, hv j hj]⟩
  keys := by
    have hmap : (ws.erase i).map key' = (ws.erase i).map key :=
      List.map_congr_left fun j hj => hk j fun hji => by
        subst hji
        exact h.order.nodup.not_mem_erase hj
    rw [toFront, List.map_cons, hki, hmap, Victim.erase_eq h.order hi]
    congr 1
    unfold makeRoom
    rw [h.length_eq]
    split
    · exact h.keys
    · rw [List.map_dropLast, h.keys]

variable [DecidableEq α]

/-- Using the key of a listed slot moves slot and key to the front. -/
theorem touch (h : Holds n valid key ws l) (hl : l.Nodup) {i : Nat} (hi : i ∈ ws) :
    Holds n valid key (toFront i ws) (toFront (key i) l) where
  order := ⟨nodup_toFront h.order.nodup, fun j => by
    rw [mem_toFront hi, h.order.mem_iff]⟩
  keys := by
    have hl' : (ws.map key).Nodup := h.keys.symm ▸ hl
    rw [toFront, List.map_cons, map_erase_of_nodup hl' hi, h.keys, toFront]

/-- Clearing the valid bit of a listed slot drops its key. -/
theorem drop (h : Holds n valid key ws l) (hl : l.Nodup) {i : Nat} (hi : i ∈ ws)
    (hvi : valid' i = false) (hv : ∀ j, j ≠ i → valid' j = valid j)
    (hk : ∀ j, key' j = key j) :
    Holds n valid' key' (ws.erase i) (l.erase (key i)) where
  order := ⟨h.order.nodup.erase i, fun j => by
    rw [h.order.nodup.mem_erase_iff, h.order.mem_iff]
    by_cases hj : j = i
    · subst hj
      simp [hvi]
    · simp [hj, hv j hj]⟩
  keys := by
    have hl' : (ws.map key).Nodup := h.keys.symm ▸ hl
    rw [List.map_congr_left fun j _ => hk j, map_erase_of_nodup hl' hi, h.keys]

end Holds

/-! ## Time stamps -/

/-- Time stamps strictly decrease along the slot list. -/
def Newest (stamp : Nat → Nat) (ws : List Nat) : Prop :=
  ws.Pairwise fun i j => stamp j < stamp i

namespace Newest

variable {stamp stamp' : Nat → Nat} {ws : List Nat}

theorem congr (h : Newest stamp ws) (hs : ∀ i ∈ ws, stamp' i = stamp i) :
    Newest stamp' ws :=
  h.imp_of_mem fun hi hj hij => by rw [hs _ hi, hs _ hj]; exact hij

theorem erase (h : Newest stamp ws) (i : Nat) : Newest stamp (ws.erase i) :=
  h.sublist (List.erase_sublist ..)

/-- A slot stamped with a time later than all others comes first. -/
theorem touch (h : Newest stamp ws) (hnd : ws.Nodup) {i t : Nat}
    (hlt : ∀ j ∈ ws, stamp j < t) (hi : stamp' i = t)
    (hne : ∀ j, j ≠ i → stamp' j = stamp j) : Newest stamp' (toFront i ws) := by
  have hji : ∀ j ∈ ws.erase i, stamp' j = stamp j := fun j hj =>
    hne j fun heq => hnd.not_mem_erase (heq ▸ hj)
  refine List.pairwise_cons.mpr ⟨?_, (h.erase i).congr hji⟩
  intro j hj
  rw [hji j hj, hi]
  exact hlt j (List.mem_of_mem_erase hj)

/-- The slot with the least stamp is the last one. -/
theorem getLast?_of_least (h : Newest stamp ws) {i : Nat} (hi : i ∈ ws)
    (hleast : ∀ j ∈ ws, stamp i ≤ stamp j) : ws.getLast? = some i := by
  rcases List.eq_nil_or_concat ws with rfl | ⟨xs, x, rfl⟩
  · cases hi
  · rw [List.concat_eq_append] at *
    rw [List.getLast?_concat]
    rcases List.mem_append.mp hi with hi' | hi'
    · have hlt := (List.pairwise_append.mp h).2.2 i hi' x (List.mem_singleton.mpr rfl)
      have hle := hleast x (List.mem_append_right _ (List.mem_singleton.mpr rfl))
      omega
    · rw [List.mem_singleton.mp hi']

end Newest

/-! ## Ranks -/

/-- The listed slots carry the ranks `n`, `n + 1`, `n + 2`, ... -/
def Ranked (rank : Nat → Nat) : Nat → List Nat → Prop
  | _, [] => True
  | n, i :: ws => rank i = n ∧ Ranked rank (n + 1) ws

namespace Ranked

variable {rank rank' : Nat → Nat}

theorem append : ∀ {n : Nat} {xs ys : List Nat},
    Ranked rank n (xs ++ ys) ↔ Ranked rank n xs ∧ Ranked rank (n + xs.length) ys
  | n, [], ys => by simp [Ranked]
  | n, x :: xs, ys => by
      rw [List.cons_append, Ranked, Ranked, append, List.length_cons, and_assoc,
        show n + 1 + xs.length = n + (xs.length + 1) by omega]

theorem bounds : ∀ {n : Nat} {ws : List Nat}, Ranked rank n ws →
    ∀ i ∈ ws, n ≤ rank i ∧ rank i < n + ws.length
  | _, [], _, _, hi => absurd hi List.not_mem_nil
  | n, x :: xs, h, i, hi => by
      rw [List.length_cons]
      rcases List.mem_cons.mp hi with rfl | hi
      · have := h.1
        omega
      · have := bounds h.2 i hi
        omega

theorem congr : ∀ {n : Nat} {ws : List Nat}, Ranked rank n ws →
    (∀ i ∈ ws, rank' i = rank i) → Ranked rank' n ws
  | _, [], _, _ => trivial
  | _, x :: _, h, hr =>
      ⟨(hr x (List.mem_cons_self ..)).trans h.1,
        congr h.2 fun i hi => hr i (List.mem_cons_of_mem _ hi)⟩

theorem up : ∀ {n : Nat} {ws : List Nat}, Ranked rank n ws →
    (∀ i ∈ ws, rank' i = rank i + 1) → Ranked rank' (n + 1) ws
  | _, [], _, _ => trivial
  | _, x :: _, h, hr =>
      ⟨by rw [hr x (List.mem_cons_self ..), h.1],
        up h.2 fun i hi => hr i (List.mem_cons_of_mem _ hi)⟩

theorem down : ∀ {n : Nat} {ws : List Nat}, Ranked rank (n + 1) ws →
    (∀ i ∈ ws, rank' i = rank i - 1) → Ranked rank' n ws
  | _, [], _, _ => trivial
  | _, x :: _, h, hr =>
      ⟨by rw [hr x (List.mem_cons_self ..), h.1]; rfl,
        down h.2 fun i hi => hr i (List.mem_cons_of_mem _ hi)⟩

/-- The slots before and after a listed slot have lower and higher ranks. -/
theorem split {n : Nat} {ws : List Nat} (h : Ranked rank n ws) {i : Nat} (hi : i ∈ ws) :
    ∃ xs ys, ws = xs ++ i :: ys ∧ Ranked rank n xs ∧ rank i = n + xs.length ∧
      Ranked rank (n + xs.length + 1) ys := by
  obtain ⟨xs, ys, rfl⟩ := List.append_of_mem hi
  obtain ⟨hxs, hi, hys⟩ := append.mp h
  exact ⟨xs, ys, rfl, hxs, hi, hys⟩

/-- Promoting a slot: it takes rank 1, the slots ahead of it fall back by
one and the others keep their rank. -/
theorem touch {ws : List Nat} (h : Ranked rank 1 ws) (hnd : ws.Nodup) {i : Nat} (hi : i ∈ ws)
    (hself : rank' i = 1) (hlt : ∀ j ∈ ws, rank j < rank i → rank' j = rank j + 1)
    (hgt : ∀ j ∈ ws, rank i < rank j → rank' j = rank j) : Ranked rank' 1 (toFront i ws) := by
  obtain ⟨xs, ys, rfl, hxs, hri, hys⟩ := h.split hi
  have hni : i ∉ xs := fun hmem =>
    (List.nodup_append.mp hnd).2.2 i hmem i (List.mem_cons_self ..) rfl
  rw [toFront, List.erase_append_right _ hni, List.erase_cons_head]
  refine ⟨hself, append.mpr ⟨hxs.up ?_, ?_⟩⟩
  · intro j hj
    exact hlt j (List.mem_append_left _ hj) (by have := hxs.bounds j hj; omega)
  · rw [show 1 + 1 + xs.length = 1 + xs.length + 1 by omega]
    exact hys.congr fun j hj => hgt j (List.mem_append_right _ (List.mem_cons_of_mem _ hj))
      (by have := hys.bounds j hj; omega)

/-- Closing the gap that a removed slot leaves. -/
theorem drop {ws : List Nat} (h : Ranked rank 1 ws) (hnd : ws.Nodup) {i : Nat} (hi : i ∈ ws)
    (hlt : ∀ j ∈ ws, rank j < rank i → rank' j = rank j)
    (hgt : ∀ j ∈ ws, rank i < rank j → rank' j = rank j - 1) :
    Ranked rank' 1 (ws.erase i) := by
  obtain ⟨xs, ys, rfl, hxs, hri, hys⟩ := h.split hi
  have hni : i ∉ xs := fun hmem =>
    (List.nodup_append.mp hnd).2.2 i hmem i (List.mem_cons_self ..) rfl
  rw [List.erase_append_right _ hni, List.erase_cons_head]
  refine append.mpr ⟨hxs.congr ?_, hys.down ?_⟩
  · intro j hj
    exact hlt j (List.mem_append_left _ hj) (by have := hxs.bounds j hj; omega)
  · intro j hj
    exact hgt j (List.mem_append_right _ (List.mem_cons_of_mem _ hj))
      (by have := hys.bounds j hj; omega)

/-- A prefix carries the first ranks. -/
theorem makeRoom {n : Nat} {ws : List Nat} (h : Ranked rank 1 ws) :
    Ranked rank 1 (ArchSim.makeRoom n ws) := by
  unfold ArchSim.makeRoom
  split
  · exact h
  · rcases List.eq_nil_or_concat ws with rfl | ⟨xs, x, rfl⟩
    · exact trivial
    · rw [List.concat_eq_append] at *
      rw [List.dropLast_concat]
      exact (append.mp h).1

/-- The slot of the highest rank is the last one. -/
theorem getLast?_of_rank {ws : List Nat} (h : Ranked rank 1 ws) {i : Nat} (hi : i ∈ ws)
    (hr : rank i = ws.length) : ws.getLast? = some i := by
  obtain ⟨xs, ys, rfl, -, hri, -⟩ := h.split hi
  have hys : ys = [] := by
    rw [List.length_append, List.length_cons] at hr
    exact List.eq_nil_of_length_eq_zero (by omega)
  rw [hys, List.getLast?_concat]

end Ranked

end ArchSim
