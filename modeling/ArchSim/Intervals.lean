import Mathlib

/-!
# Covering an interval of time

Times that lie in finitely many intervals are at most as many as the
intervals are long. An interval is given by its start and its length.
-/

namespace ArchSim

/-- The times before `c` lie in the intervals. -/
def Covers (ivs : List (Nat × Nat)) (c : Nat) : Prop :=
  ∀ d < c, ∃ p ∈ ivs, p.1 ≤ d ∧ d < p.1 + p.2

variable {ivs ivs' : List (Nat × Nat)} {c c' : Nat}

theorem Covers.nil : Covers [] 0 := fun _ hd => absurd hd (Nat.not_lt_zero _)

/-- More intervals for more times. -/
theorem Covers.extend (h : Covers ivs c) (hsub : ivs ⊆ ivs')
    (hnew : ∀ d, c ≤ d → d < c' → ∃ p ∈ ivs', p.1 ≤ d ∧ d < p.1 + p.2) : Covers ivs' c' := by
  intro d hd
  rcases Nat.lt_or_ge d c with hlt | hge
  · obtain ⟨p, hp, hin⟩ := h d hlt
    exact ⟨p, hsub hp, hin⟩
  · exact hnew d hge hd

theorem card_le_of_covered (ivs : List (Nat × Nat)) : ∀ {times : Finset Nat},
    (∀ d ∈ times, ∃ p ∈ ivs, p.1 ≤ d ∧ d < p.1 + p.2) →
      times.card ≤ (ivs.map Prod.snd).sum := by
  induction ivs with
  | nil =>
      intro times h
      refine Nat.le_of_eq (Finset.card_eq_zero.mpr (Finset.eq_empty_of_forall_notMem ?_))
      intro d hd
      obtain ⟨p, hp, -⟩ := h d hd
      cases hp
  | cons p ivs ih =>
      intro times h
      have hrest := @ih (times \ Finset.Ico p.1 (p.1 + p.2)) fun d hd => by
        obtain ⟨hd, hnot⟩ := Finset.mem_sdiff.mp hd
        obtain ⟨q, hq, hin⟩ := h d hd
        rcases List.mem_cons.mp hq with rfl | hq
        · exact absurd (Finset.mem_Ico.mpr hin) hnot
        · exact ⟨q, hq, hin⟩
      have hfirst : (times ∩ Finset.Ico p.1 (p.1 + p.2)).card ≤ p.2 := by
        refine (Finset.card_le_card Finset.inter_subset_right).trans ?_
        rw [Nat.card_Ico]
        omega
      have hsplit := Finset.card_inter_add_card_sdiff times (Finset.Ico p.1 (p.1 + p.2))
      rw [List.map_cons, List.sum_cons]
      omega

theorem Covers.le_sum (h : Covers ivs c) : c ≤ (ivs.map Prod.snd).sum := by
  have hcard := @card_le_of_covered ivs (Finset.range c) fun d hd => h d (Finset.mem_range.mp hd)
  rwa [Finset.card_range] at hcard

end ArchSim
