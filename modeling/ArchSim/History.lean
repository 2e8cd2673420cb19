import Mathlib.Data.Nat.Digits.Defs
import Mathlib.Tactic.Ring
import Mathlib.Tactic.TypeStar

/-!
# What tables know of the past

A past is a list, the newest event first. A shift register holds its last
bits, a saturating counter counts up and down along it, and a slot of a
tagged table, which starts afresh when an event of another tag takes it
over, knows the last run of events with its tag (`residency`).
-/

namespace ArchSim

/-! ## Machines that read bits -/

section Replay

variable {σ τ : Type*}

/-- The state after the bits, from state `s`. -/
def replay (step : σ → Bool → σ) (s : σ) (bits : List Bool) : σ :=
  bits.foldr (fun b s => step s b) s

@[simp]
theorem replay_nil (step : σ → Bool → σ) (s : σ) : replay step s [] = s := rfl

@[simp]
theorem replay_cons (step : σ → Bool → σ) (s : σ) (b : Bool) (bits : List Bool) :
    replay step s (b :: bits) = step (replay step s bits) b := rfl

theorem replay_simulates {step : σ → Bool → σ} {step' : τ → Bool → τ} {R : σ → τ → Prop}
    (hstep : ∀ s t b, R s t → R (step s b) (step' t b)) {s : σ} {t : τ} (h : R s t)
    (bits : List Bool) : R (replay step s bits) (replay step' t bits) := by
  induction bits with
  | nil => exact h
  | cons b bits ih => exact hstep _ _ b ih

end Replay

/-- A counter between 0 and `top`. -/
def saturate (top c : Nat) (b : Bool) : Nat := if b then min (c + 1) top else c - 1

theorem saturate_le {top c : Nat} (h : c ≤ top) (b : Bool) : saturate top c b ≤ top := by
  cases b with
  | false => exact Nat.le_trans (Nat.sub_le c 1) h
  | true => exact Nat.min_le_right _ _

/-! ## Shift registers -/

/-- A bit enters a register of `n` bits from below. -/
def shiftIn (n h : Nat) (b : Bool) : Nat := (2 * h + b.toNat) % 2 ^ n

/-- The last `n` bits as a binary number, the newest bit the lowest. -/
def lastBits (n : Nat) (bits : List Bool) : Nat :=
  Nat.ofDigits 2 ((bits.take n).map Bool.toNat)

theorem lastBits_nil (n : Nat) : lastBits n [] = 0 := by
  rw [lastBits, List.take_nil, List.map_nil, Nat.ofDigits_nil]

theorem lastBits_eq_mod (n : Nat) (bits : List Bool) :
    lastBits n bits = Nat.ofDigits 2 (bits.map Bool.toNat) % 2 ^ n := by
  rw [lastBits, List.map_take, Nat.ofDigits_mod_pow_eq_ofDigits_take n (by decide)]
  intro d hd
  obtain ⟨b, -, rfl⟩ := List.mem_map.mp hd
  exact Bool.toNat_lt b

theorem lastBits_lt (n : Nat) (bits : List Bool) : lastBits n bits < 2 ^ n := by
  rw [lastBits_eq_mod]
  exact Nat.mod_lt _ (Nat.two_pow_pos n)

theorem shiftIn_lt (n h : Nat) (b : Bool) : shiftIn n h b < 2 ^ n :=
  Nat.mod_lt _ (Nat.two_pow_pos n)

theorem lastBits_cons (n : Nat) (b : Bool) (bits : List Bool) :
    lastBits n (b :: bits) = shiftIn n (lastBits n bits) b := by
  simp only [lastBits_eq_mod, shiftIn, List.map_cons, Nat.ofDigits_cons]
  rw [← Nat.mod_add_mod (2 * _), Nat.mul_mod_mod, Nat.mod_add_mod, Nat.add_comm]

/-- What a register holds that has started empty. -/
theorem replay_shiftIn (n : Nat) (bits : List Bool) :
    replay (shiftIn n) 0 bits = lastBits n bits := by
  induction bits with
  | nil => rw [replay_nil, lastBits_nil]
  | cons b bits ih => rw [replay_cons, ih, lastBits_cons]

/-- What a register was left at is shifted out by and by. -/
theorem replay_shiftIn_mod (n h : Nat) (bits : List Bool) :
    replay (shiftIn n) h bits % 2 ^ n =
      (Nat.ofDigits 2 (bits.map Bool.toNat) + 2 ^ bits.length * h) % 2 ^ n := by
  induction bits with
  | nil => rw [replay_nil, List.map_nil, Nat.ofDigits_nil, List.length_nil, Nat.pow_zero,
      Nat.one_mul, Nat.zero_add]
  | cons b bits ih =>
      rw [replay_cons, shiftIn, Nat.mod_mod, List.map_cons, Nat.ofDigits_cons, List.length_cons,
        ← Nat.mod_add_mod (2 * _), Nat.mul_mod, ih, ← Nat.mul_mod, Nat.mod_add_mod,
        Nat.pow_succ]
      refine congrArg (· % 2 ^ n) ?_
      ring

/-- After as many bits as it holds, a register no longer depends on what it
was left at. -/
theorem replay_shiftIn_of_length {n : Nat} (h : Nat) {bits : List Bool} (hpos : 1 ≤ n)
    (hlen : n ≤ bits.length) : replay (shiftIn n) h bits = lastBits n bits := by
  have hlt : replay (shiftIn n) h bits < 2 ^ n := by
    cases bits with
    | nil => exact absurd hlen (by simp only [List.length_nil]; omega)
    | cons b bits => exact shiftIn_lt _ _ _
  obtain ⟨k, hk⟩ := Nat.pow_dvd_pow 2 hlen
  rw [← Nat.mod_eq_of_lt hlt, replay_shiftIn_mod, lastBits_eq_mod, hk, Nat.mul_assoc,
    Nat.add_mul_mod_self_left]

theorem lastBits_append {n : Nat} {bits : List Bool} (hlen : n ≤ bits.length)
    (bits' : List Bool) : lastBits n (bits ++ bits') = lastBits n bits := by
  rw [lastBits, lastBits, List.take_append_of_le_length hlen]

/-- Two equal bits at the head of what a two-bit counter has read decide. -/
theorem two_le_replay_saturate {c : Nat} (hc : c ≤ 3) (taken : Bool) (bits : List Bool) :
    2 ≤ replay (saturate 3) c (taken :: taken :: bits) ↔ taken = true := by
  have hle : replay (saturate 3) c bits ≤ 3 := by
    induction bits with
    | nil => exact hc
    | cons b bits ih => exact saturate_le ih b
  simp only [replay_cons, saturate]
  cases taken with
  | false => simp only [Bool.false_eq_true, if_false, iff_false]; omega
  | true => simp only [if_true, iff_true]; omega

/-! ## Events and what came before them -/

section Events

variable {α ι τ : Type*}

/-- Every event with the past that it found. -/
def occurrences : List α → List (α × List α)
  | [] => []
  | a :: past => (a, past) :: occurrences past

theorem map_fst_occurrences (past : List α) : (occurrences past).map Prod.fst = past := by
  induction past with
  | nil => rfl
  | cons a past ih => exact congrArg (a :: ·) ih

theorem length_lt_of_mem_occurrences {past : List α} {o : α × List α}
    (h : o ∈ occurrences past) : o.2.length < past.length := by
  induction past with
  | nil => cases h
  | cons a past ih =>
      rcases List.mem_cons.mp h with rfl | h
      · exact Nat.lt_succ_self _
      · exact Nat.lt_succ_of_lt (ih h)

/-- An event is known by the number of those before it. -/
theorem eq_of_length_eq {past : List α} {o o' : α × List α} (h : o ∈ occurrences past)
    (h' : o' ∈ occurrences past) (hlen : o.2.length = o'.2.length) : o = o' := by
  induction past with
  | nil => cases h
  | cons a past ih =>
      rcases List.mem_cons.mp h with rfl | h
      · rcases List.mem_cons.mp h' with rfl | h'
        · rfl
        · exact absurd hlen (Nat.ne_of_gt (length_lt_of_mem_occurrences h'))
      · rcases List.mem_cons.mp h' with rfl | h'
        · exact absurd hlen (Nat.ne_of_lt (length_lt_of_mem_occurrences h))
        · exact ih h h'

theorem mem_of_mem_occurrences {past : List α} {o : α × List α} (h : o ∈ occurrences past) :
    o.1 ∈ past ∧ o.2 ⊆ past := by
  induction past with
  | nil => cases h
  | cons a past ih =>
      rcases List.mem_cons.mp h with rfl | h
      · exact ⟨List.mem_cons_self .., List.subset_cons_self _ _⟩
      · exact ⟨List.mem_cons_of_mem _ (ih h).1, List.subset_cons_of_subset _ (ih h).2⟩

theorem mem_occurrences_append {past : List α} {o : α × List α} (h : o ∈ occurrences past)
    (later : List α) : o ∈ occurrences (later ++ past) := by
  induction later with
  | nil => exact h
  | cons a later ih => exact List.mem_cons_of_mem _ ih

/-- The events of one kind, each with those of its kind before it. -/
theorem occurrences_filter (q : α → Bool) (past : List α) :
    occurrences (past.filter q) =
      ((occurrences past).filter fun o => q o.1).map fun o => (o.1, o.2.filter q) := by
  induction past with
  | nil => rfl
  | cons a past ih =>
      by_cases ha : q a = true
      · simp only [occurrences, List.filter_cons, ha, if_true, List.map_cons, ih]
      · simp only [occurrences, List.filter_cons, ha, if_false, Bool.false_eq_true, ih]

variable [DecidableEq ι] [DecidableEq τ] (index : α → ι) (tag : α → τ)

/-- The last run of events of tag `t` among those at index `i`. -/
def residency (past : List α) (i : ι) (t : τ) : List α :=
  (past.filter fun a => index a = i).takeWhile fun a => tag a = t

theorem mem_residency {past : List α} {i : ι} {t : τ} {a : α}
    (h : a ∈ residency index tag past i t) : a ∈ past ∧ index a = i ∧ tag a = t := by
  have htag := List.all_eq_true.mp List.all_takeWhile a h
  obtain ⟨hmem, hindex⟩ := List.mem_filter.mp ((List.takeWhile_sublist _).subset h)
  exact ⟨hmem, of_decide_eq_true hindex, of_decide_eq_true htag⟩

theorem residency_cons_of_eq (a : α) (past : List α) :
    residency index tag (a :: past) (index a) (tag a) =
      a :: residency index tag past (index a) (tag a) := by
  simp [residency]

/-- The event takes the slot away from other tags. -/
theorem residency_cons_of_tag_ne {a : α} {t : τ} (past : List α) (ht : tag a ≠ t) :
    residency index tag (a :: past) (index a) t = [] := by
  simp [residency, ht]

theorem residency_cons_of_index_ne {a : α} {i : ι} {t : τ} (past : List α) (hi : index a ≠ i) :
    residency index tag (a :: past) i t = residency index tag past i t := by
  simp [residency, hi]

/-- A residency depends only on which events share an index and a tag with it. -/
theorem residency_congr {ι' τ' : Type*} [DecidableEq ι'] [DecidableEq τ'] {index : α → ι}
    {tag : α → τ} {index' : α → ι'} {tag' : α → τ'} {past : List α} {i : ι} {t : τ} {i' : ι'}
    {t' : τ'} (hindex : ∀ a ∈ past, index a = i ↔ index' a = i')
    (htag : ∀ a ∈ past, index a = i → (tag a = t ↔ tag' a = t')) :
    residency index tag past i t = residency index' tag' past i' t' := by
  induction past with
  | nil => rfl
  | cons a past ih =>
      obtain ⟨hai, hindex⟩ := List.forall_mem_cons.mp hindex
      obtain ⟨hat, htag⟩ := List.forall_mem_cons.mp htag
      have hrest := ih hindex htag
      by_cases hi : index a = i
      · have hi' := hai.mp hi
        by_cases ht : tag a = t
        · obtain rfl := (hat hi).mp ht
          obtain rfl := hi
          obtain rfl := hi'
          obtain rfl := ht
          rw [residency_cons_of_eq, residency_cons_of_eq, hrest]
        · have ht' := mt (hat hi).mpr ht
          obtain rfl := hi
          obtain rfl := hi'
          rw [residency_cons_of_tag_ne _ _ _ ht, residency_cons_of_tag_ne _ _ _ ht']
      · rw [residency_cons_of_index_ne _ _ _ hi,
          residency_cons_of_index_ne _ _ _ (mt hai.mpr hi), hrest]

/-- A residency does not depend on what else the events carry. -/
theorem residency_map {β : Type*} (f : β → α) (past : List β) (i : ι) (t : τ) :
    residency index tag (past.map f) i t =
      (residency (fun b => index (f b)) (fun b => tag (f b)) past i t).map f := by
  rw [residency, List.filter_map, List.takeWhile_map]
  rfl

end Events

end ArchSim
