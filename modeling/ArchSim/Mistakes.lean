import ArchSim.History
import Mathlib

/-!
# Mistakes of tables of counters

A saturating counter predicts the next outcome of its cell. It errs only on
outcomes against a direction or while it is on its way towards it, and an
outcome against the direction sets it back by one: so a table of counters
makes at most twice the mistakes of any fixed choice of a direction for each
cell, and a few more for each cell that is used (`mistakes_le`).
-/

namespace ArchSim

/-! ## One counter -/

section Counter

variable {top mid : Nat}

/-- How many outcomes of a direction it takes until a counter that stands for
`true` from `mid` on predicts it. -/
def distance (mid : Nat) (dir : Bool) (c : Nat) : Nat := if dir then mid - c else c + 1 - mid

/-- A mistake is paid for by the way to the direction, or by an outcome
against it. -/
theorem distance_saturate (hmid : 1 ≤ mid) (hle : mid ≤ top) (dir : Bool) (c : Nat) (bit : Bool) :
    (if decide (mid ≤ c) ≠ bit then 1 else 0) + distance mid dir (saturate top c bit) ≤
      distance mid dir c + 2 * (if dir ≠ bit then 1 else 0) := by
  by_cases hc : mid ≤ c <;> cases bit <;> cases dir <;>
    simp only [distance, saturate, hc, decide_true, decide_false, ne_eq, Bool.false_eq_true,
      Bool.true_eq_false, not_true, not_false_eq_true, if_true, if_false] <;> omega

end Counter

/-! ## A table -/

section Table

variable {α ι : Type*} [DecidableEq ι] (cell : α × List α → ι) (bit : α → Bool)

/-- The outcomes of a cell. -/
def seen (past : List α) (c : ι) : List Bool :=
  ((occurrences past).filter fun o => cell o = c).map fun o => bit o.1

theorem seen_cons (a : α) (past : List α) (c : ι) :
    seen cell bit (a :: past) c =
      if cell (a, past) = c then bit a :: seen cell bit past c else seen cell bit past c := by
  simp only [seen, occurrences, List.filter_cons, decide_eq_true_eq]
  split <;> rfl

/-- The counter of a cell. -/
def counter (top start : Nat) (past : List α) (c : ι) : Nat :=
  replay (saturate top) start (seen cell bit past c)

theorem counter_cons (top start : Nat) (a : α) (past : List α) (c : ι) :
    counter cell bit top start (a :: past) c =
      if cell (a, past) = c then saturate top (counter cell bit top start past c) (bit a)
      else counter cell bit top start past c := by
  rw [counter, seen_cons]
  split <;> rfl

/-- The counter of the cell stands for the other outcome. -/
def errs (top mid start : Nat) (o : α × List α) : Bool :=
  decide (mid ≤ counter cell bit top start o.2 (cell o)) ≠ bit o.1

/-- Only one summand changes. -/
theorem sum_update_le {cells : Finset ι} {g g' : ι → Nat} {i : ι} {a b : Nat} (hi : i ∈ cells)
    (hsame : ∀ c, c ≠ i → g' c = g c) (h : a + g' i ≤ g i + b) :
    a + ∑ c ∈ cells, g' c ≤ ∑ c ∈ cells, g c + b := by
  have hrest : ∑ c ∈ cells.erase i, g' c = ∑ c ∈ cells.erase i, g c :=
    Finset.sum_congr rfl fun c hc => hsame c (Finset.ne_of_mem_erase hc)
  rw [← Finset.add_sum_erase _ _ hi, ← Finset.add_sum_erase _ g hi, hrest]
  omega

theorem mistakes_le {top mid : Nat} (hmid : 1 ≤ mid) (hle : mid ≤ top) (start : Nat)
    (dir : ι → Bool) {cells : Finset ι} :
    ∀ {past : List α}, (∀ o ∈ occurrences past, cell o ∈ cells) →
      (occurrences past).countP (errs cell bit top mid start) +
          ∑ c ∈ cells, distance mid (dir c) (counter cell bit top start past c) ≤
        ∑ c ∈ cells, distance mid (dir c) start +
          2 * (occurrences past).countP fun o => dir (cell o) ≠ bit o.1
  | [], _ => by
      rw [occurrences, List.countP_nil, List.countP_nil, Nat.zero_add]
      exact Nat.le_refl _
  | a :: past, h => by
      obtain ⟨ha, hpast⟩ := List.forall_mem_cons.mp h
      have ih := mistakes_le hmid hle start dir hpast
      have hself : counter cell bit top start (a :: past) (cell (a, past)) =
          saturate top (counter cell bit top start past (cell (a, past))) (bit a) := by
        rw [counter_cons, if_pos rfl]
      have hother : ∀ c, c ≠ cell (a, past) → distance mid (dir c)
          (counter cell bit top start (a :: past) c) =
            distance mid (dir c) (counter cell bit top start past c) := fun c hc => by
        rw [counter_cons, if_neg (Ne.symm hc)]
      have hstep := distance_saturate hmid hle (dir (cell (a, past)))
        (counter cell bit top start past (cell (a, past))) (bit a)
      rw [← hself] at hstep
      have hsum := sum_update_le ha hother hstep
      rw [occurrences, List.countP_cons, List.countP_cons]
      simp only [errs, decide_eq_true_eq] at hsum ih ⊢
      omega

end Table

end ArchSim
