import Mathlib.Data.Nat.ModEq

/-!
# Round-robin polling

Agents `0, ..., n - 1` become available and unavailable as time passes.
The agent to go next, after agent `t` went at time `c`, is the first one
in the cyclic order `t + 1`, `t + 2`, ..., `t` that is available at the
first time after `c` at which any is. A poller looks at one agent after
the other and lets a unit of time pass whenever a whole round has found
nobody; `Polling` is its invariant.
-/

namespace ArchSim

/-- `d` is the first time after `c` at which some agent is available. -/
structure NextTime (avail : Nat → Nat → Prop) (n c d : Nat) : Prop where
  later : c < d
  some_avail : ∃ u < n, avail u d
  none_before : ∀ d', c < d' → d' < d → ∀ u < n, ¬avail u d'

/-- `t'` is the first available agent in the cyclic order after `t`. -/
def FirstAfter (avail : Nat → Prop) (n t t' : Nat) : Prop :=
  ∃ i < n, t' = (t + 1 + i) % n ∧ avail t' ∧ ∀ j < i, ¬avail ((t + 1 + j) % n)

/-- Agent `t` went at time `c`. Nobody has been available between `c` and
`now`, nor now any of the `j` agents after `t`. -/
structure Polling (avail : Nat → Nat → Prop) (n t c now j : Nat) : Prop where
  later : c < now
  idle : ∀ d, c < d → d < now → ∀ u < n, ¬avail u d
  polled : ∀ i < j, ¬avail ((t + 1 + i) % n) now

variable {avail avail' : Nat → Nat → Prop} {n t c now j : Nat}

/-- The agents after `t` are all agents. -/
theorem exists_cyclic (t : Nat) {u : Nat} (hu : u < n) : ∃ i < n, (t + 1 + i) % n = u := by
  have hn : 0 < n := Nat.lt_of_le_of_lt (Nat.zero_le u) hu
  have hlt := Nat.mod_lt (t + 1) hn
  refine ⟨(u + (n - (t + 1) % n)) % n, Nat.mod_lt _ hn, ?_⟩
  rw [Nat.add_mod_mod, Nat.add_mod, Nat.add_mod_mod,
    show (t + 1) % n + (u + (n - (t + 1) % n)) = u + n by omega, Nat.add_mod_right,
    Nat.mod_eq_of_lt hu]

theorem none_avail_of_round {p : Nat → Prop} (t : Nat)
    (h : ∀ i < n, ¬p ((t + 1 + i) % n)) : ∀ u < n, ¬p u := by
  intro u hu
  obtain ⟨i, hi, rfl⟩ := exists_cyclic t hu
  exact h i hi

theorem FirstAfter.congr (hn : 0 < n) {p q : Nat → Prop} {t' : Nat}
    (hpq : ∀ u < n, p u ↔ q u) (h : FirstAfter p n t t') : FirstAfter q n t t' := by
  obtain ⟨i, hi, rfl, hp, hnot⟩ := h
  exact ⟨i, hi, rfl, (hpq _ (Nat.mod_lt _ hn)).mp hp,
    fun j hj hq => hnot j hj ((hpq _ (Nat.mod_lt _ hn)).mpr hq)⟩

/-- While agent `u` is available, whoever goes instead of it comes closer to
it: `i` falls. -/
theorem FirstAfter.closer {p : Nat → Prop} {t' i : Nat} (h : FirstAfter p n t t') (hi : i < n)
    (hp : p ((t + 1 + i) % n)) :
    t' = (t + 1 + i) % n ∨ ∃ i' < i, (t' + 1 + i') % n = (t + 1 + i) % n := by
  obtain ⟨j, -, rfl, -, hnot⟩ := h
  rcases Nat.lt_trichotomy j i with hlt | rfl | hgt
  · refine Or.inr ⟨i - j - 1, by omega, ?_⟩
    rw [Nat.add_assoc, Nat.mod_add_mod]
    congr 1
    omega
  · exact Or.inl rfl
  · exact absurd hp (hnot i hgt)

theorem NextTime.congr {d : Nat} (hav : ∀ e, c < e → ∀ u < n, avail u e ↔ avail' u e)
    (h : NextTime avail n c d) : NextTime avail' n c d := by
  obtain ⟨hlater, ⟨u, hu, hud⟩, hnone⟩ := h
  exact ⟨hlater, ⟨u, hu, (hav d hlater u hu).mp hud⟩,
    fun d' hc hd u hu hav' => hnone d' hc hd u hu ((hav d' hc u hu).mpr hav')⟩

namespace Polling

theorem start : Polling avail n t c (c + 1) 0 where
  later := Nat.lt_succ_self c
  idle := fun _ h h' => absurd h' (by omega)
  polled := fun _ hi => absurd hi (Nat.not_lt_zero _)

/-- The next agent is not available either. -/
theorem skip (h : Polling avail n t c now j) (hno : ¬avail ((t + 1 + j) % n) now) :
    Polling avail n t c now (j + 1) :=
  { h with
    polled := fun i hi => by
      rcases Nat.lt_succ_iff_lt_or_eq.mp hi with hlt | rfl
      · exact h.polled i hlt
      · exact hno }

/-- Nobody is available now. -/
theorem pass (h : Polling avail n t c now j) (hno : ∀ u < n, ¬avail u now) :
    Polling avail n t c (now + 1) 0 where
  later := Nat.lt_succ_of_lt h.later
  idle := fun d hc hd => by
    rcases Nat.lt_succ_iff_lt_or_eq.mp hd with hlt | rfl
    · exact h.idle d hc hlt
    · exact hno
  polled := fun _ hi => absurd hi (Nat.not_lt_zero _)

/-- A whole round has found nobody. -/
theorem tick (h : Polling avail n t c now j) (hj : n ≤ j) :
    Polling avail n t c (now + 1) 0 :=
  h.pass (none_avail_of_round (p := fun u => avail u now) t fun i hi =>
    h.polled i (Nat.lt_of_lt_of_le hi hj))

theorem nextTime (h : Polling avail n t c now j) {u : Nat} (hu : u < n) (hav : avail u now) :
    NextTime avail n c now :=
  ⟨h.later, ⟨u, hu, hav⟩, h.idle⟩

theorem firstAfter (h : Polling avail n t c now j) (hj : j < n)
    (hav : avail ((t + 1 + j) % n) now) :
    FirstAfter (fun u => avail u now) n t ((t + 1 + j) % n) :=
  ⟨j, hj, rfl, hav, h.polled⟩

/-- No time passes beyond one at which somebody is available. -/
theorem now_le (h : Polling avail n t c now j) {u d : Nat} (hu : u < n) (hd : c < d)
    (hav : avail u d) : now ≤ d :=
  Nat.le_of_not_lt fun hlt => h.idle d hd hlt u hu hav

end Polling

end ArchSim
