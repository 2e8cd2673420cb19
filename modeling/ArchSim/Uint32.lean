import Mathlib

/-!
# Unsigned 32-bit integers

The programs keep counters, addresses and times in `unsigned`s. A model
that follows one as a natural number reduces it modulo `uint32Size`.
-/

namespace ArchSim

/-- `UINT32_MAX`, also spelled `__UINT32_MAX__`. -/
def uint32Max : Nat := 2 ^ 32 - 1

def uint32Size : Nat := 2 ^ 32

/-- The `unsigned` that a number is stored as. -/
def wrap (n : Nat) : Nat := n % uint32Size

theorem wrap_of_lt {n : Nat} (h : n < uint32Size) : wrap n = n := Nat.mod_eq_of_lt h

theorem wrap_of_le {n : Nat} (h : n ≤ uint32Max) : wrap n = n :=
  wrap_of_lt (Nat.lt_succ_of_le h)

theorem wrap_le (n : Nat) : wrap n ≤ uint32Max :=
  Nat.le_of_lt_succ (Nat.mod_lt _ (Nat.two_pow_pos 32))

theorem wrap_succ_le (k : Nat) : wrap (k + 1) ≤ wrap k + 1 := by
  unfold wrap
  rw [Nat.add_mod]
  exact Nat.le_trans (Nat.mod_le _ _) (Nat.add_le_add_left (Nat.mod_le _ _) _)

/-! ## Times that wrap -/

/-- A time that has passed modulo `2 ^ 32` has passed if it has not wrapped
ahead. -/
theorem le_of_wrap_le {c e d : Nat} (hlt : c < e) (hle : wrap (wrap c + d) ≤ wrap e)
    (hno : wrap c + d ≤ uint32Max ∨ c / uint32Size < e / uint32Size)
    (hd : d ≤ uint32Size) : c + d ≤ e := by
  unfold wrap uint32Max uint32Size at *
  omega

/-- A time that has not passed modulo `2 ^ 32`, or has passed, has not
wrapped ahead. -/
theorem no_wrap_of_lt_wrap {c e d : Nat} (hlt : c < e)
    (h : wrap e < wrap (wrap c + d) ∨ c + d ≤ e) (hd : d ≤ uint32Size) :
    wrap c + d ≤ uint32Max ∨ c / uint32Size < e / uint32Size := by
  unfold wrap uint32Max uint32Size at *
  omega

end ArchSim
