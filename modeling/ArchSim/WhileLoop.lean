import Mathlib.Logic.Function.Iterate
import Mathlib.Tactic.TypeStar

/-!
# While loops

A loop over an explicit state with a bound on the number of its
iterations, so that its result is computed, and the rule by which an
invariant and a rank that every iteration lowers give the loop a result.
Then the loops that count from 0 to a bound, as folds over a range, and what
a computation that may fail has done when it has not.
-/

namespace ArchSim

variable {σ : Type*} {cond : σ → Bool} {body : σ → σ}

/-- `while (cond) body`; `none` when `fuel` iterations do not end it. -/
def whileLoop (cond : σ → Bool) (body : σ → σ) : Nat → σ → Option σ
  | 0, s => if cond s then none else some s
  | fuel + 1, s => if cond s then whileLoop cond body fuel (body s) else some s

/-- Partial correctness. -/
theorem whileLoop_invariant {Inv : σ → Prop}
    (hstep : ∀ s, Inv s → cond s = true → Inv (body s)) : ∀ {fuel : Nat} {s s' : σ},
      Inv s → whileLoop cond body fuel s = some s' → Inv s'
  | 0, s, s', h, hrun => by
      unfold whileLoop at hrun
      split at hrun
      · cases hrun
      · exact Option.some.inj hrun ▸ h
  | fuel + 1, s, s', h, hrun => by
      unfold whileLoop at hrun
      split at hrun
      · rename_i hc
        exact whileLoop_invariant hstep (hstep s h hc) hrun
      · exact Option.some.inj hrun ▸ h

/-- Total correctness. -/
theorem whileLoop_total {Inv : σ → Prop} {rank : σ → Nat}
    (hstep : ∀ s, Inv s → cond s = true → Inv (body s) ∧ rank (body s) < rank s)
    {s : σ} (h : Inv s) :
    ∃ fuel s', whileLoop cond body fuel s = some s' ∧ Inv s' ∧ cond s' = false := by
  suffices hsuff : ∀ n s, Inv s → rank s ≤ n →
      ∃ s', whileLoop cond body n s = some s' ∧ Inv s' ∧ cond s' = false by
    obtain ⟨s', h'⟩ := hsuff (rank s) s h (Nat.le_refl _)
    exact ⟨rank s, s', h'⟩
  intro n
  induction n with
  | zero =>
      intro s h hrank
      cases hc : cond s with
      | true => exact absurd (hstep s h hc).2 (by omega)
      | false => exact ⟨s, by simp [whileLoop, hc], h, hc⟩
  | succ n ih =>
      intro s h hrank
      cases hc : cond s with
      | true =>
          obtain ⟨h', hlt⟩ := hstep s h hc
          obtain ⟨s', hs', hpost⟩ := ih (body s) h' (by omega)
          exact ⟨s', by simp only [whileLoop, hc, if_true, hs'], hpost⟩
      | false => exact ⟨s, by simp [whileLoop, hc], h, hc⟩

/-- Two loops that go on for equally long in related states. -/
theorem whileLoop_lockstep {τ : Type*} {cond' : τ → Bool} {body' : τ → τ} {R : σ → τ → Prop}
    (hcond : ∀ s t, R s t → cond s = cond' t)
    (hstep : ∀ s t, R s t → cond s = true → R (body s) (body' t)) :
    ∀ {fuel : Nat} {s s' : σ} {t : τ}, R s t → whileLoop cond body fuel s = some s' →
      ∃ t', whileLoop cond' body' fuel t = some t' ∧ R s' t'
  | 0, s, s', t, h, hrun => by
      unfold whileLoop at hrun ⊢
      rw [← hcond s t h]
      split at hrun
      · cases hrun
      · rename_i hc
        exact ⟨t, if_neg hc, Option.some.inj hrun ▸ h⟩
  | fuel + 1, s, s', t, h, hrun => by
      unfold whileLoop at hrun ⊢
      rw [← hcond s t h]
      split at hrun
      · rename_i hc
        rw [if_pos hc]
        exact whileLoop_lockstep hcond hstep (hstep s t h hc) hrun
      · rename_i hc
        exact ⟨t, if_neg hc, Option.some.inj hrun ▸ h⟩

/-- Then they end alike. -/
theorem whileLoop_map_eq {τ ρ : Type*} {cond' : τ → Bool} {body' : τ → τ} {R : σ → τ → Prop}
    {f : σ → ρ} {g : τ → ρ} (hcond : ∀ s t, R s t → cond s = cond' t)
    (hstep : ∀ s t, R s t → cond s = true → R (body s) (body' t))
    (hsame : ∀ s t, R s t → f s = g t) {s : σ} {t : τ} (h : R s t) (fuel : Nat) :
    (whileLoop cond body fuel s).map f = (whileLoop cond' body' fuel t).map g := by
  cases hrun : whileLoop cond body fuel s with
  | some s' =>
      obtain ⟨t', hrun', h'⟩ := whileLoop_lockstep hcond hstep h hrun
      rw [hrun', Option.map_some, Option.map_some, hsame s' t' h']
  | none =>
      cases hrun' : whileLoop cond' body' fuel t with
      | none => rfl
      | some t' =>
          have hback : ∀ t s, R s t → cond' t = true → R (body s) (body' t) := fun t s h hc =>
            hstep s t h ((hcond s t h).trans hc)
          obtain ⟨s', hs', -⟩ := whileLoop_lockstep (R := fun t s => R s t)
            (fun t s h => (hcond s t h).symm) hback h hrun'
          rw [hs'] at hrun
          cases hrun

/-- The states that a loop runs through. -/
theorem whileLoop_eq_some_iff : ∀ {fuel : Nat} {s s' : σ}, whileLoop cond body fuel s = some s' ↔
    ∃ k ≤ fuel, body^[k] s = s' ∧ (∀ j < k, cond (body^[j] s) = true) ∧ cond s' = false
  | 0, s, s' => by
      unfold whileLoop
      constructor
      · intro h
        split at h
        · cases h
        · rename_i hc
          obtain rfl := Option.some.inj h
          exact ⟨0, Nat.le_refl 0, rfl, fun j hj => absurd hj (Nat.not_lt_zero j),
            eq_false_of_ne_true hc⟩
      · rintro ⟨k, hk, hiter, -, hc⟩
        obtain rfl := Nat.le_zero.mp hk
        obtain rfl : s = s' := hiter
        rw [if_neg (ne_true_of_eq_false hc)]
  | fuel + 1, s, s' => by
      unfold whileLoop
      cases hc : cond s with
      | false =>
          rw [if_neg Bool.false_ne_true]
          constructor
          · intro h
            obtain rfl := Option.some.inj h
            exact ⟨0, Nat.zero_le _, rfl, fun j hj => absurd hj (Nat.not_lt_zero j), hc⟩
          · rintro ⟨k, -, hiter, hrun, -⟩
            rcases Nat.eq_zero_or_pos k with rfl | hpos
            · exact congrArg some hiter
            · exact absurd (hrun 0 hpos) (ne_true_of_eq_false hc)
      | true =>
          rw [if_pos rfl, whileLoop_eq_some_iff]
          constructor
          · rintro ⟨k, hk, hiter, hrun, hstop⟩
            refine ⟨k + 1, Nat.succ_le_succ hk, hiter, fun j hj => ?_, hstop⟩
            cases j with
            | zero => exact hc
            | succ j => exact hrun j (Nat.lt_of_succ_lt_succ hj)
          · rintro ⟨k, hk, hiter, hrun, hstop⟩
            cases k with
            | zero =>
                obtain rfl : s = s' := hiter
                rw [hc] at hstop
                cases hstop
            | succ k =>
                exact ⟨k, Nat.le_of_succ_le_succ hk, hiter,
                  fun j hj => hrun (j + 1) (Nat.succ_lt_succ hj), hstop⟩

/-! ## Counted loops -/

theorem foldl_range_invariant {body : σ → Nat → σ} {Inv : Nat → σ → Prop} {n : Nat}
    (hstep : ∀ i < n, ∀ s, Inv i s → Inv (i + 1) (body s i)) {s : σ} (h : Inv 0 s) :
    Inv n ((List.range n).foldl body s) := by
  induction n with
  | zero => exact h
  | succ n ih =>
      rw [List.range_succ, List.foldl_append]
      exact hstep n (Nat.lt_succ_self n) _
        (ih fun i hi => hstep i (Nat.lt_succ_of_lt hi))

/-- Where the body can fail: none of the turns does. -/
theorem foldlM_range_total {body : σ → Nat → Option σ} {Inv : Nat → σ → Prop} {n : Nat}
    (hstep : ∀ i < n, ∀ s, Inv i s → ∃ s', body s i = some s' ∧ Inv (i + 1) s')
    {s : σ} (h : Inv 0 s) :
    ∃ s', (List.range n).foldlM body s = some s' ∧ Inv n s' := by
  induction n with
  | zero => exact ⟨s, rfl, h⟩
  | succ n ih =>
      obtain ⟨s₁, hrun, h₁⟩ := ih fun i hi => hstep i (Nat.lt_succ_of_lt hi)
      obtain ⟨s₂, hlast, h₂⟩ := hstep n (Nat.lt_succ_self n) s₁ h₁
      refine ⟨s₂, ?_, h₂⟩
      rw [List.range_succ, List.foldlM_append, hrun]
      simpa using hlast

/-! ## Success -/

theorem bind_eq_ok {ε α β : Type} {x : Except ε α} {f : α → Except ε β} {b : β} :
    (x >>= f) = .ok b ↔ ∃ a, x = .ok a ∧ f a = .ok b := by
  cases x <;> simp [bind, Except.bind]

end ArchSim
