import Mathlib.Algebra.BigOperators.Group.Finset.Piecewise
import Mathlib.Algebra.BigOperators.Ring.Finset
import Mathlib.Algebra.Order.BigOperators.Group.Finset
import Mathlib.Tactic.Linarith
import Mathlib.Tactic.Ring
import ArchSim.StackProperty

/-!
# Paging

What least recently used makes of a sequence of blocks, one level alone.

A recency list of bounded length is the beginning of the unbounded one
(`recent`), so that an access hits if and only if fewer than `k` distinct
blocks of its set have been accessed since the last access to its own block:
its *stack distance*.

Against any other demand-paging policy, even one that knows the future, the
sequence is cut into phases: a phase ends when LRU has used up its `k` ways
on blocks accessed within the phase. LRU misses each of these blocks at most
once. The other policy, with `h` ways, holds at most `h` of them when the
phase begins, and has to bring in the others (`Phase`).
-/

namespace ArchSim

/-! ## Beginnings of recency lists -/

section Stack

variable {α : Type*} [DecidableEq α] {b : α}

theorem take_erase_of_not_mem :
    ∀ {n : Nat} {l : List α}, b ∉ l.take n → (l.erase b).take n = l.take n
  | 0, _, _ => by rw [List.take_zero, List.take_zero]
  | _ + 1, [], _ => rfl
  | n + 1, x :: xs, hb => by
      rw [List.take_succ_cons, List.mem_cons, not_or] at hb
      rw [List.erase_cons_tail (by simpa using Ne.symm hb.1), List.take_succ_cons,
        List.take_succ_cons, take_erase_of_not_mem hb.2]

theorem take_erase_of_mem :
    ∀ {n : Nat} {l : List α}, b ∈ l.take (n + 1) → (l.erase b).take n = (l.take (n + 1)).erase b
  | _, [], hb => absurd hb List.not_mem_nil
  | n, x :: xs, hb => by
      rw [List.take_succ_cons] at hb ⊢
      by_cases hx : x = b
      · subst hx
        rw [List.erase_cons_head, List.erase_cons_head]
      · have hmem : b ∈ xs.take n := (List.mem_cons.mp hb).resolve_left (Ne.symm hx)
        cases n with
        | zero => exact absurd hmem List.not_mem_nil
        | succ n =>
            rw [List.erase_cons_tail (by simpa using hx), List.erase_cons_tail (by simpa using hx),
              List.take_succ_cons, take_erase_of_mem hmem]

omit [DecidableEq α] in
theorem take_makeRoom {n k : Nat} {l : List α} (hn : n < k) :
    (makeRoom k l).take n = l.take n := by
  rcases Nat.lt_or_ge l.length k with hlt | hge
  · rw [makeRoom_of_lt hlt]
  · rw [makeRoom_of_le hge, List.dropLast_eq_take, List.take_take, Nat.min_eq_left (by omega)]

/-- One access to a set of `k` ways. -/
def lruStep (k : Nat) (b : α) (l : List α) : List α :=
  if b ∈ l then toFront b l else b :: makeRoom k l

/-- A block of the beginning is moved to the front of it. -/
theorem take_lruStep_of_mem {n k : Nat} {l : List α} (hb : b ∈ l.take n) :
    (lruStep k b l).take n = toFront b (l.take n) := by
  cases n with
  | zero => exact absurd hb List.not_mem_nil
  | succ n =>
      rw [lruStep, if_pos (List.mem_of_mem_take hb), toFront, List.take_succ_cons,
        take_erase_of_mem hb, toFront]

/-- Another block is put before it. -/
theorem take_lruStep_of_not_mem {n k : Nat} {l : List α} (hn : n < k) (hb : b ∉ l.take n) :
    (lruStep k b l).take (n + 1) = b :: l.take n := by
  rw [lruStep]
  split
  · rw [toFront, List.take_succ_cons, take_erase_of_not_mem hb]
  · rw [List.take_succ_cons, take_makeRoom hn]

theorem length_lruStep_le {k : Nat} {l : List α} (hk : 0 < k) (hl : l.length ≤ k) :
    (lruStep k b l).length ≤ k := by
  rw [lruStep]
  split
  · rename_i hb
    rw [length_toFront hb]
    exact hl
  · exact length_makeRoom_lt hk hl

/-! ## Stack distances -/

/-- The distinct elements of a past (the newest first), the most recent
first. -/
def recent : List α → List α
  | [] => []
  | b :: past => toFront b (recent past)

theorem mem_recent : ∀ {past : List α}, b ∈ recent past ↔ b ∈ past
  | [] => Iff.rfl
  | c :: past => by
      by_cases hbc : b = c
      · simp [recent, toFront, hbc]
      · simp [recent, toFront, hbc, List.mem_erase_of_ne hbc, mem_recent]

theorem nodup_recent : ∀ past : List α, (recent past).Nodup
  | [] => List.nodup_nil
  | _ :: past => nodup_toFront (nodup_recent past)

theorem length_recent (past : List α) : (recent past).length = past.toFinset.card := by
  rw [← List.toFinset_card_of_nodup (nodup_recent past)]
  congr 1
  ext b
  rw [List.mem_toFinset, List.mem_toFinset, mem_recent]

/-- What has not been used lately comes after what has. -/
theorem recent_append (newer older : List α) :
    recent (newer ++ older) = recent newer ++ (recent older).filter (· ∉ newer) := by
  induction newer with
  | nil => simp [recent]
  | cons c newer ih =>
      have hnd : (recent newer ++ (recent older).filter (· ∉ newer)).Nodup :=
        ih ▸ nodup_recent _
      have hnd' := nodup_recent newer
      rw [List.cons_append, recent, recent, toFront, toFront, ih, hnd.erase_eq_filter,
        hnd'.erase_eq_filter, List.filter_append, List.filter_filter, List.cons_append]
      congr 2
      refine List.filter_congr fun x _ => ?_
      simp [List.mem_cons, not_or, bne, beq_eq_decide]

/-- The `k` blocks used last: those of stack distance less than `k`. -/
theorem mem_take_recent {k : Nat} {past : List α} :
    b ∈ (recent past).take k ↔
      ∃ newer older, past = newer ++ b :: older ∧ newer.toFinset.card < k := by
  have hfirst : ∀ newer older : List α, b ∉ newer →
      (b ∈ (recent (newer ++ b :: older)).take k ↔ newer.toFinset.card < k) := by
    intro newer older hb
    have hb' : b ∉ (recent newer).take k := fun hm => hb (mem_recent.mp (List.mem_of_mem_take hm))
    rw [recent_append, recent, toFront, List.filter_cons_of_pos (by simpa using hb),
      List.take_append, List.mem_append, or_iff_right hb', length_recent]
    constructor
    · intro hm
      by_contra hge
      rw [Nat.sub_eq_zero_of_le (by omega)] at hm
      exact absurd hm List.not_mem_nil
    · intro hlt
      obtain ⟨j, hj⟩ := Nat.exists_eq_succ_of_ne_zero (Nat.sub_ne_zero_of_lt hlt)
      rw [hj, List.take_succ_cons]
      exact List.mem_cons_self ..
  constructor
  · intro hm
    obtain ⟨newer, older, rfl, hb⟩ :=
      List.eq_append_cons_of_mem (mem_recent.mp (List.mem_of_mem_take hm))
    exact ⟨newer, older, rfl, (hfirst newer older hb).mp hm⟩
  · rintro ⟨newer, older, rfl, hlt⟩
    by_cases hb : b ∈ newer
    · have hlen := length_recent newer
      rw [recent_append, List.take_append, List.take_of_length_le (by omega)]
      exact List.mem_append_left _ (mem_recent.mpr hb)
    · exact (hfirst newer older hb).mpr hlt

/-- A set of `k` ways holds the `k` blocks used last. -/
theorem lruStep_take_recent {k : Nat} (hk : 0 < k) (past : List α) :
    lruStep k b ((recent past).take k) = (recent (b :: past)).take k := by
  obtain ⟨k, rfl⟩ := Nat.exists_eq_succ_of_ne_zero (Nat.pos_iff_ne_zero.mp hk)
  rw [recent, toFront, List.take_succ_cons, lruStep]
  split
  · rename_i hb
    rw [toFront, take_erase_of_mem hb]
  · rename_i hb
    have hb' : b ∉ (recent past).take k := fun hm =>
      hb ((List.take_subset_take_left _ (Nat.le_succ k)) hm)
    rw [take_erase_of_not_mem hb']
    congr 1
    rcases Nat.lt_or_ge (recent past).length (k + 1) with hlt | hge
    · rw [List.take_of_length_le (Nat.le_of_lt hlt), makeRoom_of_lt hlt,
        List.take_of_length_le (Nat.le_of_lt_succ hlt)]
    · have hlen : ((recent past).take (k + 1)).length = k + 1 := by
        rw [List.length_take, Nat.min_eq_left hge]
      rw [makeRoom_of_le (Nat.le_of_eq hlen.symm), List.dropLast_eq_take, hlen, List.take_take,
        Nat.add_sub_cancel, Nat.min_eq_left (Nat.le_succ k)]

end Stack

/-! ## Phases -/

section Phase

variable {Block : Type*} [DecidableEq Block] {k h : Nat} {l : List Block} {C C' B : Finset Block}
  {f g n f₀ g₀ : Nat} {b : Block}

/-- LRU with `k` ways holds `l` after `f` misses, another policy with `h` ways
holds `C` after `g` misses, and `n` blocks have been accessed in the current
phase. The counts were `f₀` and `g₀` and the other policy held `B` when the
first one of these had been accessed. -/
structure Phase (k h : Nat) (l : List Block) (C : Finset Block) (f g : Nat)
    (B : Finset Block) (n f₀ g₀ : Nat) : Prop where
  length_le : l.length ≤ k
  card_eq : (l.take n).toFinset.card = n
  card_le : B.card ≤ h
  subset : C ⊆ B ∪ (l.take n).toFinset
  f_le : f + 1 ≤ f₀ + n
  le_g : g₀ + ((l.take n).toFinset \ B).card ≤ g
  start : (k + 1 - h) * (f₀ + B.card) ≤ k * g₀ + (k + 1 - h)

/-- Before the first access there is no block of the phase, and a miss is
counted in advance. -/
theorem Phase.init (k h : Nat) : Phase k h [] (∅ : Finset Block) 0 0 ∅ 0 1 0 where
  length_le := Nat.zero_le _
  card_eq := rfl
  card_le := Nat.zero_le _
  subset := Finset.empty_subset _
  f_le := Nat.le_refl _
  le_g := Nat.le_refl _
  start := by simp

theorem Phase.le_ways (hp : Phase k h l C f g B n f₀ g₀) : n ≤ k := by
  have hcard := hp.card_eq
  have hle := List.toFinset_card_le (l.take n)
  rw [List.length_take] at hle
  have := hp.length_le
  omega

/-- An access to another block is a miss of the other policy, unless it has
held the block from the beginning of the phase on. -/
theorem Phase.le_g_insert (hp : Phase k h l C f g B n f₀ g₀) (b : Block) :
    g₀ + (insert b (l.take n).toFinset \ B).card ≤ g + if b ∈ C then 0 else 1 := by
  have hle := hp.le_g
  by_cases hb : b ∈ C
  · have hsame : insert b (l.take n).toFinset \ B = (l.take n).toFinset \ B := by
      rcases Finset.mem_union.mp (hp.subset hb) with hB | hD
      · exact Finset.insert_sdiff_of_mem _ hB
      · rw [Finset.insert_eq_self.mpr hD]
    rw [hsame, if_pos hb]
    exact hle
  · have hsub : insert b (l.take n).toFinset \ B ⊆ insert b ((l.take n).toFinset \ B) := by
      intro c hc
      obtain ⟨hc, hcB⟩ := Finset.mem_sdiff.mp hc
      rcases Finset.mem_insert.mp hc with rfl | hc
      · exact Finset.mem_insert_self ..
      · exact Finset.mem_insert_of_mem (Finset.mem_sdiff.mpr ⟨hc, hcB⟩)
    have hcard := (Finset.card_le_card hsub).trans (Finset.card_insert_le ..)
    rw [if_neg hb]
    omega

/-- Within a phase LRU has not missed more than the bound allows. -/
theorem Phase.bound (hp : Phase k h l C f g B n f₀ g₀) (hh : 0 < h) :
    (k + 1 - h) * f ≤ k * g := by
  have hrest : n - B.card ≤ ((l.take n).toFinset \ B).card := by
    have := Finset.le_card_sdiff B (l.take n).toFinset
    rwa [hp.card_eq] at this
  have hr : k + 1 - h ≤ k := by omega
  have hf := Nat.mul_le_mul_left (k + 1 - h) hp.f_le
  have hg := Nat.mul_le_mul_left k hp.le_g
  have hn : (k + 1 - h) * n ≤
      (k + 1 - h) * B.card + k * ((l.take n).toFinset \ B).card := by
    calc (k + 1 - h) * n ≤ (k + 1 - h) * (B.card + (n - B.card)) :=
          Nat.mul_le_mul_left _ (by omega)
      _ = (k + 1 - h) * B.card + (k + 1 - h) * (n - B.card) := Nat.mul_add ..
      _ ≤ _ := Nat.add_le_add_left (Nat.mul_le_mul hr hrest) _
  have hstart := hp.start
  rw [Nat.mul_add] at hf hg hstart
  rw [Nat.mul_add, Nat.mul_one] at hf
  omega

/-- The other policy serves an access: it brings in the accessed block and no
other one, and may give up what it likes. -/
structure Serves (h : Nat) (C : Finset Block) (b : Block) (C' : Finset Block) : Prop where
  held : b ∈ C'
  demand : C' ⊆ insert b C
  fits : C'.card ≤ h

/-- An access to a block of the phase. -/
theorem Phase.again (hp : Phase k h l C f g B n f₀ g₀) (hs : Serves h C b C')
    (hb : b ∈ l.take n) :
    Phase k h (lruStep k b l) C' f (g + if b ∈ C then 0 else 1) B n f₀ g₀ := by
  have htake : ((lruStep k b l).take n).toFinset = (l.take n).toFinset := by
    rw [take_lruStep_of_mem hb]
    ext c
    rw [List.mem_toFinset, List.mem_toFinset, mem_toFront hb]
  refine ⟨?_, htake ▸ hp.card_eq, hp.card_le, ?_, hp.f_le, ?_, hp.start⟩
  · rw [lruStep, if_pos (List.mem_of_mem_take hb), length_toFront (List.mem_of_mem_take hb)]
    exact hp.length_le
  · rw [htake]
    refine hs.demand.trans (Finset.insert_subset ?_ hp.subset)
    exact Finset.mem_union_right _ (List.mem_toFinset.mpr hb)
  · rw [htake]
    exact Nat.le_trans hp.le_g (Nat.le_add_right ..)

/-- An access to one more block. -/
theorem Phase.next (hp : Phase k h l C f g B n f₀ g₀) (hs : Serves h C b C')
    (hb : b ∉ l.take n) (hn : n < k) :
    Phase k h (lruStep k b l) C' (f + if b ∈ l then 0 else 1)
      (g + if b ∈ C then 0 else 1) B (n + 1) f₀ g₀ := by
  have htake : ((lruStep k b l).take (n + 1)).toFinset = insert b (l.take n).toFinset := by
    rw [take_lruStep_of_not_mem hn hb, List.toFinset_cons]
  refine ⟨length_lruStep_le (Nat.zero_lt_of_lt hn) hp.length_le, ?_, hp.card_le, ?_, ?_, ?_,
    hp.start⟩
  · rw [htake, Finset.card_insert_of_notMem (by rwa [List.mem_toFinset]), hp.card_eq]
  · rw [htake, Finset.union_insert]
    exact hs.demand.trans (Finset.insert_subset_insert b hp.subset)
  · have hf := hp.f_le
    split <;> omega
  · rw [htake]
    exact hp.le_g_insert b

/-- An access to one block too many begins a new phase. -/
theorem Phase.renew (hp : Phase k h l C f g B n f₀ g₀) (hs : Serves h C b C')
    (hb : b ∉ l.take n) (hn : n = k) (hk : 0 < k) (hhk : h ≤ k) :
    Phase k h (lruStep k b l) C' (f + if b ∈ l then 0 else 1)
      (g + if b ∈ C then 0 else 1) C' 1 (f + if b ∈ l then 0 else 1)
      (g + if b ∈ C then 0 else 1) := by
  subst hn
  have htake : ((lruStep n b l).take 1).toFinset = {b} := by
    have hzero : b ∉ l.take 0 := by rw [List.take_zero]; exact List.not_mem_nil
    rw [take_lruStep_of_not_mem hk hzero, List.take_zero]
    rfl
  refine ⟨length_lruStep_le hk hp.length_le, by rw [htake, Finset.card_singleton], hs.fits,
    Finset.subset_union_left, Nat.le_refl _, ?_, ?_⟩
  · rw [htake, Finset.sdiff_eq_empty_iff_subset.mpr (Finset.singleton_subset_iff.mpr hs.held)]
    exact Nat.le_refl _
  · have hcard : n + 1 - B.card ≤ (insert b (l.take n).toFinset \ B).card := by
      have hle := Finset.le_card_sdiff B (insert b (l.take n).toFinset)
      rwa [Finset.card_insert_of_notMem (by rwa [List.mem_toFinset]), hp.card_eq] at hle
    have hg : g₀ + (n + 1 - B.card) ≤ g + if b ∈ C then 0 else 1 :=
      Nat.le_trans (Nat.add_le_add_left hcard _) (hp.le_g_insert b)
    have hf : (f + if b ∈ l then 0 else 1) ≤ f₀ + n := by
      have := hp.f_le
      split <;> omega
    have hpos : 0 < h := Nat.lt_of_lt_of_le (Finset.card_pos.mpr ⟨b, hs.held⟩) hs.fits
    generalize (f + if b ∈ l then 0 else 1) = f' at hf ⊢
    generalize (g + if b ∈ C then 0 else 1) = g' at hg ⊢
    obtain ⟨r, rfl⟩ := Nat.exists_eq_add_of_le hhk
    obtain ⟨x, hx⟩ := Nat.exists_eq_add_of_le hp.card_le
    have hr : h + r + 1 - h = r + 1 := by omega
    have hx' : h + r + 1 - B.card = r + 1 + x := by omega
    rw [hr]
    rw [hx'] at hg
    have hstart := hp.start
    rw [hr] at hstart
    calc (r + 1) * (f' + C'.card) ≤ (r + 1) * (f₀ + (h + r) + h) :=
          Nat.mul_le_mul_left _ (Nat.add_le_add hf hs.fits)
      _ = (r + 1) * (f₀ + B.card) + ((r + 1) * (h + r) + (r + 1) * x) := by
          nth_rewrite 2 [hx]
          ring
      _ ≤ ((h + r) * g₀ + (r + 1)) + ((h + r) * (r + 1) + (h + r) * x) := by
          refine Nat.add_le_add hstart (Nat.add_le_add (Nat.le_of_eq (Nat.mul_comm ..)) ?_)
          exact Nat.mul_le_mul_right x (by omega)
      _ = (h + r) * (g₀ + (r + 1 + x)) + (r + 1) := by ring
      _ ≤ (h + r) * g' + (r + 1) := Nat.add_le_add_right (Nat.mul_le_mul_left _ hg) _

/-- Some phase. -/
def InPhase (k h : Nat) (l : List Block) (C : Finset Block) (f g : Nat) : Prop :=
  ∃ B n f₀ g₀, Phase k h l C f g B n f₀ g₀

/-- What one access preserves. -/
theorem InPhase.step (hp : InPhase k h l C f g) (hk : 0 < k) (hhk : h ≤ k)
    (hs : Serves h C b C') :
    InPhase k h (lruStep k b l) C' (f + if b ∈ l then 0 else 1)
      (g + if b ∈ C then 0 else 1) := by
  obtain ⟨B, n, f₀, g₀, hp⟩ := hp
  by_cases hb : b ∈ l.take n
  · rw [if_pos (List.mem_of_mem_take hb)]
    exact ⟨B, n, f₀, g₀, hp.again hs hb⟩
  · rcases Nat.lt_or_eq_of_le hp.le_ways with hn | hn
    · exact ⟨B, n + 1, f₀, g₀, hp.next hs hb hn⟩
    · exact ⟨C', 1, _, _, hp.renew hs hb hn hk hhk⟩

theorem InPhase.bound (hp : InPhase k h l C f g) (hh : 0 < h) : (k + 1 - h) * f ≤ k * g := by
  obtain ⟨B, n, f₀, g₀, hp⟩ := hp
  exact hp.bound hh

theorem InPhase.mono (hp : InPhase k h l C f g) (hsub : C' ⊆ C) : InPhase k h l C' f g := by
  obtain ⟨B, n, f₀, g₀, hp⟩ := hp
  exact ⟨B, n, f₀, g₀, { hp with subset := hsub.trans hp.subset }⟩

end Phase

/-! ## Many sets -/

section Sets

variable {Block S : Type*} [DecidableEq Block] [DecidableEq S] {set : Block → S} {k h : Nat}

/-- One access to a level of sets of `k` ways. -/
def lruAccess (set : Block → S) (k : Nat) (b : Block) (order : S → List Block) :
    S → List Block :=
  Function.update order (set b) (lruStep k b (order (set b)))

theorem lruAccess_of_resident {order : S → List Block} {b : Block}
    (hb : Resident set order b) : lruAccess set k b order = useIn set b order := by
  unfold Resident at hb
  rw [lruAccess, lruStep, if_pos hb, useIn]

theorem lruAccess_of_not_resident {order : S → List Block} {b : Block}
    (hb : ¬Resident set order b) : lruAccess set k b order = insertIn set k b order := by
  unfold Resident at hb
  rw [lruAccess, lruStep, if_neg hb, insertIn]

/-- The level after the accesses of a past, the newest first. -/
def lruOrder (set : Block → S) (k : Nat) (past : List Block) (s : S) : List Block :=
  (recent (past.filter fun b => set b = s)).take k

theorem lruOrder_nil (set : Block → S) (k : Nat) : lruOrder set k [] = fun _ => [] :=
  funext fun _ => List.take_nil

theorem lruOrder_cons (hk : 0 < k) (b : Block) (past : List Block) :
    lruOrder set k (b :: past) = lruAccess set k b (lruOrder set k past) := by
  funext s
  rw [lruOrder, lruAccess]
  by_cases hs : s = set b
  · subst hs
    rw [Function.update_self, List.filter_cons_of_pos (by simp), lruOrder,
      lruStep_take_recent hk]
  · rw [Function.update_of_ne hs, List.filter_cons_of_neg (by simpa using Ne.symm hs), lruOrder]

/-- The stack distance decides about a hit. -/
theorem resident_lruOrder {past : List Block} {b : Block} :
    Resident set (lruOrder set k past) b ↔
      ∃ newer older, past = newer ++ b :: older ∧
        (newer.filter fun c => set c = set b).toFinset.card < k := by
  rw [Resident, lruOrder, mem_take_recent]
  constructor
  · rintro ⟨newer, older, hpast, hlt⟩
    obtain ⟨xs, ys, rfl, hxs, hys⟩ := List.filter_eq_append_iff.mp hpast
    obtain ⟨zs, older', rfl, hzs, hb, -⟩ := List.filter_eq_cons_iff.mp hys
    refine ⟨xs ++ zs, older', by rw [List.append_assoc], ?_⟩
    have hnone : (zs.filter fun c => set c = set b) = [] := List.filter_eq_nil_iff.mpr hzs
    rw [List.filter_append, hxs, hnone, List.append_nil]
    exact hlt
  · rintro ⟨newer, older, rfl, hlt⟩
    refine ⟨_, older.filter fun c => set c = set b, ?_, hlt⟩
    rw [List.filter_append, List.filter_cons_of_pos (by simp)]

/-- The misses of the accesses, in their order. -/
def lruMisses (set : Block → S) (k : Nat) : (S → List Block) → List Block → Nat
  | _, [] => 0
  | order, b :: rest =>
      (if b ∈ order (set b) then 0 else 1) + lruMisses set k (lruAccess set k b order) rest

/-- Some policy with `h` ways a set serves the accesses with `n` misses, from
contents `C`. -/
inductive ServesAll (set : Block → S) (h : Nat) : Finset Block → List Block → Nat → Prop where
  | nil (C : Finset Block) : ServesAll set h C [] 0
  | cons {C C' : Finset Block} {b : Block} {rest : List Block} {n : Nat} (held : b ∈ C')
      (demand : C' ⊆ insert b C) (fits : ∀ s, (C'.filter fun c => set c = s).card ≤ h)
      (hrest : ServesAll set h C' rest n) :
      ServesAll set h C (b :: rest) ((if b ∈ C then 0 else 1) + n)

/-- One access, all sets. -/
theorem inPhase_access {order : S → List Block} {C C' : Finset Block} {f g : S → Nat} {b : Block}
    (hp : ∀ s, InPhase k h (order s) (C.filter fun c => set c = s) (f s) (g s)) (hk : 0 < k)
    (hhk : h ≤ k) (held : b ∈ C') (demand : C' ⊆ insert b C)
    (fits : ∀ s, (C'.filter fun c => set c = s).card ≤ h) (s : S) :
    InPhase k h (lruAccess set k b order s) (C'.filter fun c => set c = s)
      (Function.update f (set b) (f (set b) + if b ∈ order (set b) then 0 else 1) s)
      (Function.update g (set b) (g (set b) + if b ∈ C then 0 else 1) s) := by
  rw [lruAccess]
  by_cases hs : s = set b
  · subst hs
    have hserves : Serves h (C.filter fun c => set c = set b) b
        (C'.filter fun c => set c = set b) := by
      refine ⟨Finset.mem_filter.mpr ⟨held, rfl⟩, ?_, fits _⟩
      intro c hc
      obtain ⟨hc, hset⟩ := Finset.mem_filter.mp hc
      rcases Finset.mem_insert.mp (demand hc) with rfl | hC
      · exact Finset.mem_insert_self ..
      · exact Finset.mem_insert_of_mem (Finset.mem_filter.mpr ⟨hC, hset⟩)
    have hstep := (hp (set b)).step hk hhk hserves
    simp only [Finset.mem_filter, and_true] at hstep
    rw [Function.update_self, Function.update_self, Function.update_self]
    exact hstep
  · rw [Function.update_of_ne hs, Function.update_of_ne hs, Function.update_of_ne hs]
    refine (hp s).mono fun c hc => ?_
    obtain ⟨hc, hset⟩ := Finset.mem_filter.mp hc
    refine Finset.mem_filter.mpr ⟨(Finset.mem_insert.mp (demand hc)).resolve_left ?_, hset⟩
    rintro rfl
    exact hs hset.symm

theorem sum_update_add {T : Finset S} {s : S} (hs : s ∈ T) (f : S → Nat) (d : Nat) :
    ∑ t ∈ T, Function.update f s (f s + d) t = ∑ t ∈ T, f t + d := by
  rw [Finset.sum_update_of_mem hs, Finset.sdiff_singleton_eq_erase,
    ← Finset.add_sum_erase _ f hs]
  omega

/-- LRU with `k` ways misses at most `k / (k + 1 - h)` times as often as any
other demand-paging policy with `h` ways. -/
theorem competitive {C : Finset Block} {accesses : List Block} {n : Nat}
    (hother : ServesAll set h C accesses n) (hk : 0 < k) (hh : 0 < h) (hhk : h ≤ k)
    {T : Finset S} (hT : ∀ b ∈ accesses, set b ∈ T) {order : S → List Block} {f g : S → Nat}
    (hp : ∀ s, InPhase k h (order s) (C.filter fun c => set c = s) (f s) (g s)) :
    (k + 1 - h) * (∑ s ∈ T, f s + lruMisses set k order accesses) ≤
      k * (∑ s ∈ T, g s + n) := by
  induction hother generalizing order f g with
  | nil C =>
      simp only [lruMisses, Nat.add_zero, Finset.mul_sum]
      exact Finset.sum_le_sum fun s _ => (hp s).bound hh
  | @cons C C' b rest n held demand fits hrest ih =>
      have hb := hT b (List.mem_cons_self ..)
      have hrec := ih (fun c hc => hT c (List.mem_cons_of_mem _ hc))
        (inPhase_access hp hk hhk held demand fits)
      rw [sum_update_add hb, sum_update_add hb] at hrec
      rw [lruMisses, ← Nat.add_assoc, ← Nat.add_assoc]
      exact hrec

/-- Both start empty. -/
theorem competitive_empty {accesses : List Block} {n : Nat}
    (hother : ServesAll set h ∅ accesses n) (hk : 0 < k) (hh : 0 < h) (hhk : h ≤ k) :
    (k + 1 - h) * lruMisses set k (fun _ => []) accesses ≤ k * n := by
  have hbound := competitive hother hk hh hhk (T := (accesses.map set).toFinset)
    (fun b hb => List.mem_toFinset.mpr (List.mem_map_of_mem hb))
    (fun _ => ⟨∅, 0, 1, 0, Phase.init k h⟩)
  rwa [Finset.sum_const_zero, Nat.zero_add, Nat.zero_add] at hbound

end Sets

/-! ## Below a second level that does not evict -/

section Below

variable {Block S₁ S₂ : Type*} [DecidableEq Block] [DecidableEq S₁] [DecidableEq S₂]
  {H : Hierarchy Block S₁ S₂} {m : Contents Block S₁ S₂}

/-- No set of the second level is too small for the blocks. -/
def Hierarchy.Fits₂ (H : Hierarchy Block S₁ S₂) (blocks : Finset Block) : Prop :=
  ∀ b ∈ blocks, (blocks.filter fun c => H.set₂ c = H.set₂ b).card ≤ H.ways₂

instance (H : Hierarchy Block S₁ S₂) (blocks : Finset Block) : Decidable (H.Fits₂ blocks) :=
  inferInstanceAs (Decidable (∀ b ∈ blocks, _))

/-- The second level holds the blocks of `P`. -/
def Holds₂ (H : Hierarchy Block S₁ S₂) (m : Contents Block S₁ S₂) (P : Finset Block) : Prop :=
  ∀ c, Resident H.set₂ m.order₂ c ↔ c ∈ P

omit [DecidableEq S₁] [DecidableEq S₂] in
theorem Holds₂.lookup_eq_miss {P : Finset Block} (h : Holds₂ H m P) (hm : Inclusive H m)
    {b : Block} : m.lookup H b = .miss ↔ b ∉ P := by
  rw [← h b]
  unfold Contents.lookup
  by_cases hb₂ : Resident H.set₂ m.order₂ b
  · rw [if_pos hb₂]
    split <;> simp [hb₂]
  · have hb₁ : ¬Resident H.set₁ m.order₁ b := fun hb => hb₂ (hm.incl b hb)
    simp [hb₁, hb₂]

omit [DecidableEq S₁] [DecidableEq S₂] in
theorem lookup_eq_l1Hit {b : Block} : m.lookup H b = .l1Hit ↔ Resident H.set₁ m.order₁ b := by
  unfold Contents.lookup
  split
  · simp [*]
  · split <;> simp [*]

omit [DecidableEq S₁] in
/-- A set with room for one more block does not evict. -/
theorem Holds₂.keeps {P blocks : Finset Block} (h : Holds₂ H m P) (hm : Inclusive H m) {op : Op}
    {b : Block} (hfits : H.Fits₂ blocks) (hsub : P ⊆ blocks) (hb : b ∈ blocks) :
    m.Keeps H op b := by
  intro hmiss _
  have hbP := (h.lookup_eq_miss hm).mp hmiss
  refine evictee?_of_lt ?_
  have hnd := hm.lists₂.nodup (H.set₂ b)
  have hss : insert b (m.order₂ (H.set₂ b)).toFinset ⊆
      blocks.filter fun c => H.set₂ c = H.set₂ b := by
    intro c hc
    rcases Finset.mem_insert.mp hc with rfl | hc
    · exact Finset.mem_filter.mpr ⟨hb, rfl⟩
    · have hc := List.mem_toFinset.mp hc
      exact Finset.mem_filter.mpr ⟨hsub ((h c).mp (hm.lists₂.resident hc)),
        hm.lists₂.set_eq _ c hc⟩
  have hnot : b ∉ (m.order₂ (H.set₂ b)).toFinset := fun hc =>
    hbP ((h b).mp (List.mem_toFinset.mp hc))
  have hcard := (Finset.card_le_card hss).trans (hfits b hb)
  rw [Finset.card_insert_of_notMem hnot, List.toFinset_card_of_nodup hnd] at hcard
  exact hcard

theorem Holds₂.access {P : Finset Block} (h : Holds₂ H m P) (hm : Inclusive H m) {op : Op}
    {b : Block} (hk : m.Keeps H op b) (hf : Contents.fetches H op = true) :
    Holds₂ H (m.access H op b) (insert b P) := by
  intro c
  rw [hk.access_resident₂ hm, h c, Finset.mem_insert]
  simp only [hf, and_true]
  exact or_comm

/-- The first level sees every access, as if it were alone. -/
theorem Contents.Keeps.access_lru {op : Op} {b : Block} (hk : m.Keeps H op b)
    (hf : Contents.fetches H op = true) :
    (m.access H op b).order₁ = lruAccess H.set₁ H.ways₁ b m.order₁ := by
  rw [hk.access_order₁]
  by_cases hb : Resident H.set₁ m.order₁ b
  · rw [if_pos hb, lruAccess_of_resident hb]
  · rw [if_neg hb, if_pos hf, lruAccess_of_not_resident hb]

variable {accesses : List (Op × Block)}

theorem Holds₂.keepsAll (hf : ∀ a ∈ accesses, Contents.fetches H a.1 = true) :
    ∀ {m : Contents Block S₁ S₂} {P blocks : Finset Block}, Holds₂ H m P → Inclusive H m →
      H.Fits₂ blocks → P ⊆ blocks → (accesses.map Prod.snd).toFinset ⊆ blocks →
      m.KeepsAll H accesses := by
  induction accesses with
  | nil => intros; trivial
  | cons a rest ih =>
      intro m P blocks h hm hfits hP hblocks
      obtain ⟨op, b⟩ := a
      rw [List.map_cons, List.toFinset_cons, Finset.insert_subset_iff] at hblocks
      have hk : m.Keeps H op b := h.keeps hm hfits hP hblocks.1
      refine ⟨hk, ih (fun a ha => hf a (List.mem_cons_of_mem _ ha))
        (h.access hm hk (hf _ (List.mem_cons_self ..))) (hm.access op b) hfits
        (Finset.insert_subset hblocks.1 hP) hblocks.2⟩

/-- Writes that bring nothing in leave all the more room. -/
theorem Contents.keepsAll_of_fits {blocks : Finset Block} (hfits : H.Fits₂ blocks) :
    ∀ {m : Contents Block S₁ S₂}, (∀ c, Resident H.set₂ m.order₂ c → c ∈ blocks) →
      Inclusive H m → (∀ a ∈ accesses, a.2 ∈ blocks) → m.KeepsAll H accesses := by
  induction accesses with
  | nil => intros; trivial
  | cons a rest ih =>
      intro m hres hm hblocks
      obtain ⟨op, b⟩ := a
      have hb : b ∈ blocks := hblocks _ (List.mem_cons_self ..)
      have hholds : Holds₂ H m (blocks.filter fun c => Resident H.set₂ m.order₂ c) := fun c => by
        rw [Finset.mem_filter]
        exact ⟨fun hc => ⟨hres c hc, hc⟩, fun hc => hc.2⟩
      have hk : m.Keeps H op b := hholds.keeps hm hfits (Finset.filter_subset ..) hb
      refine ⟨hk, ih (fun c hc => ?_) (hm.access op b) fun a ha =>
        hblocks a (List.mem_cons_of_mem _ ha)⟩
      rcases (hk.access_resident₂ hm c).mp hc with hc | ⟨rfl, -⟩
      · exact hres c hc
      · exact hb

theorem Contents.KeepsAll.of_append {pre post : List (Op × Block)} :
    ∀ {m : Contents Block S₁ S₂}, m.KeepsAll H (pre ++ post) → m.KeepsAll H pre := by
  induction pre with
  | nil => exact fun _ => trivial
  | cons a pre ih => exact fun hk => ⟨hk.1, ih hk.2⟩

/-- What the run of a trace that fits leaves in both levels. -/
theorem Contents.KeepsAll.run (hf : ∀ a ∈ accesses, Contents.fetches H a.1 = true) :
    ∀ {m : Contents Block S₁ S₂} (past : List Block), Holds₂ H m past.toFinset →
      Inclusive H m → m.KeepsAll H accesses → m.order₁ = lruOrder H.set₁ H.ways₁ past →
      Holds₂ H (m.run H accesses).2 ((accesses.map Prod.snd).reverse ++ past).toFinset ∧
        (m.run H accesses).2.order₁ =
          lruOrder H.set₁ H.ways₁ ((accesses.map Prod.snd).reverse ++ past) := by
  induction accesses with
  | nil => exact fun _ h _ _ ho => ⟨h, ho⟩
  | cons a rest ih =>
      intro m past h hm hk ho
      obtain ⟨op, b⟩ := a
      have hfa := hf _ (List.mem_cons_self ..)
      have hstep : Holds₂ H (m.access H op b) (b :: past).toFinset := by
        rw [List.toFinset_cons]
        exact h.access hm hk.1 hfa
      have hrec := ih (fun a ha => hf a (List.mem_cons_of_mem _ ha)) _ hstep (hm.access op b) hk.2
        (by rw [hk.1.access_lru hfa, ho, lruOrder_cons H.ways₁_pos])
      simpa only [Contents.run, List.map_cons, List.reverse_cons, List.append_assoc,
        List.singleton_append] using hrec

/-- The second level misses every block once. -/
theorem Contents.KeepsAll.countP_miss (hf : ∀ a ∈ accesses, Contents.fetches H a.1 = true) :
    ∀ {m : Contents Block S₁ S₂} {P : Finset Block}, Holds₂ H m P → Inclusive H m →
      m.KeepsAll H accesses →
      P.card + (m.run H accesses).1.countP (· = .miss) =
        (P ∪ (accesses.map Prod.snd).toFinset).card := by
  induction accesses with
  | nil =>
      intro m P _ _ _
      rw [Contents.run, List.countP_nil, List.map_nil, List.toFinset_nil, Finset.union_empty,
        Nat.add_zero]
  | cons a rest ih =>
      intro m P h hm hk
      obtain ⟨op, b⟩ := a
      have hrec := ih (fun a ha => hf a (List.mem_cons_of_mem _ ha))
        (h.access hm hk.1 (hf _ (List.mem_cons_self ..))) (hm.access op b) hk.2
      rw [List.map_cons, List.toFinset_cons, Finset.union_insert, ← Finset.insert_union, ← hrec]
      simp only [Contents.run, List.countP_cons, decide_eq_true_eq, h.lookup_eq_miss hm]
      by_cases hb : b ∈ P
      · simp [hb]
      · rw [if_pos hb, Finset.card_insert_of_notMem hb]
        omega

theorem Contents.KeepsAll.countP_l1Miss (hf : ∀ a ∈ accesses, Contents.fetches H a.1 = true) :
    ∀ {m : Contents Block S₁ S₂}, m.KeepsAll H accesses →
      (m.run H accesses).1.countP (· ≠ .l1Hit) =
        lruMisses H.set₁ H.ways₁ m.order₁ (accesses.map Prod.snd) := by
  induction accesses with
  | nil => exact fun _ => rfl
  | cons a rest ih =>
      intro m hk
      obtain ⟨op, b⟩ := a
      have hrec := ih (fun a ha => hf a (List.mem_cons_of_mem _ ha)) hk.2
      rw [hk.1.access_lru (hf _ (List.mem_cons_self ..))] at hrec
      simp only [Contents.run, List.map_cons, lruMisses, List.countP_cons, decide_eq_true_eq,
        ne_eq, lookup_eq_l1Hit, hrec, Resident]
      rw [Nat.add_comm]
      by_cases hb : b ∈ m.order₁ (H.set₁ b)
      · simp [hb]
      · simp [hb]

/-- The outcome of the access after a part of the trace. -/
theorem Contents.run_getElem? (pre post : List (Op × Block)) (a : Op × Block)
    (m : Contents Block S₁ S₂) :
    (m.run H (pre ++ a :: post)).1[pre.length]? = some ((m.run H pre).2.lookup H a.2) := by
  rw [run_append, List.getElem?_append_right (Nat.le_of_eq (length_run H pre m)), length_run,
    Nat.sub_self]
  rfl

end Below

end ArchSim
