import Mathlib.Data.List.Count
import Mathlib.Logic.Function.Basic

/-!
# Interleaved agents on a shared memory

Agents with a local state each and one memory between them. An agent's
local state determines its next action, which loads one word, stores
one word, or does neither. A schedule is a list of agents, the latest
first.

If no agent ever stores a word that another one touches, judged by what
each does when it is alone, then no agent can tell whether it is alone:
after any schedule its local state and the words it has stored are those
of its own run of as many steps (`Interleaved`). The final state
therefore depends only on how often each agent was scheduled
(`interleave_congr`).
-/

namespace ArchSim

/-- The next action of an agent with local states `σ`. -/
inductive Access (W V σ : Type*) where
  | pass (s : σ)
  | load (w : W) (cont : V → σ)
  | store (w : W) (v : V) (s : σ)

namespace Access

variable {W V σ : Type*}

def Stores : Access W V σ → W → Prop
  | .store w' _ _, w => w' = w
  | _, _ => False

def Touches : Access W V σ → W → Prop
  | .pass _, _ => False
  | .load w' _, w => w' = w
  | .store w' _ _, w => w' = w

theorem Stores.touches {a : Access W V σ} {w : W} (h : a.Stores w) : a.Touches w := by
  cases a with
  | pass s => exact h
  | load w' cont => exact h.elim
  | store w' v s => exact h

variable [DecidableEq W]

/-- The local state and memory after the action. -/
def perform (a : Access W V σ) (mem : W → V) : σ × (W → V) :=
  match a with
  | .pass s => (s, mem)
  | .load w cont => (cont (mem w), mem)
  | .store w v s => (s, Function.update mem w v)

theorem perform_of_not_stores {a : Access W V σ} {w : W} (h : ¬a.Stores w) (mem : W → V) :
    (a.perform mem).2 w = mem w := by
  cases a with
  | pass s => rfl
  | load w' cont => rfl
  | store w' v s => exact Function.update_of_ne (fun heq => h heq.symm) ..

/-- Only the touched words matter. -/
theorem perform_congr {a : Access W V σ} (mem mem' : W → V)
    (h : ∀ w, a.Touches w → mem w = mem' w) :
    (a.perform mem).1 = (a.perform mem').1 ∧
      ∀ w, (a.Stores w ∨ mem w = mem' w) → (a.perform mem).2 w = (a.perform mem').2 w := by
  cases a with
  | pass s => exact ⟨rfl, fun w hw => hw.resolve_left id⟩
  | load w' cont =>
      exact ⟨congrArg cont (h w' rfl), fun w hw => hw.resolve_left id⟩
  | store w' v s =>
      refine ⟨rfl, ?_⟩
      intro w hw
      rcases eq_or_ne w w' with rfl | hne
      · simp [perform]
      · simpa [perform, hne] using hw.resolve_left (fun heq => hne heq.symm)

end Access

section Interleave

variable {ι W V σ : Type*} [DecidableEq W]
  (next : ι → σ → Access W V σ) (start : ι → σ) (mem₀ : W → V)

/-- `k` steps of agent `i` alone. -/
def alone (i : ι) : Nat → σ × (W → V)
  | 0 => (start i, mem₀)
  | k + 1 => (next i (alone i k).1).perform (alone i k).2

/-- The action in step `k` of agent `i` alone. -/
def action (i : ι) (k : Nat) : Access W V σ :=
  next i (alone next start mem₀ i k).1

/-- During the first `bound i` steps of every agent `i` alone, no agent
stores a word that another one touches. -/
def NonInterfering (bound : ι → Nat) : Prop :=
  ∀ i j, i ≠ j → ∀ a < bound i, ∀ b < bound j, ∀ w,
    (action next start mem₀ i a).Stores w → ¬(action next start mem₀ j b).Touches w

variable {next start mem₀} in
theorem alone_succ (i : ι) (k : Nat) :
    alone next start mem₀ i (k + 1) =
      (action next start mem₀ i k).perform (alone next start mem₀ i k).2 := rfl

variable {next start mem₀} in
/-- A word that an agent has not stored yet is unchanged in its run. -/
theorem alone_of_not_stored {i : ι} {w : W} : ∀ {k : Nat},
    (∀ a < k, ¬(action next start mem₀ i a).Stores w) →
      (alone next start mem₀ i k).2 w = mem₀ w
  | 0, _ => rfl
  | k + 1, h => by
      rw [alone_succ, Access.perform_of_not_stores (h k (Nat.lt_succ_self k))]
      exact alone_of_not_stored fun a ha => h a (Nat.lt_succ_of_lt ha)

variable [DecidableEq ι]

/-- The agents after a schedule, latest step first. -/
def interleave : List ι → (ι → σ) × (W → V)
  | [] => (start, mem₀)
  | i :: past =>
      let s := interleave past
      let r := (next i (s.1 i)).perform s.2
      (Function.update s.1 i r.1, r.2)

/-- The state `s` after the schedule `sched` is what the agents make of
it alone. -/
structure Interleaved (sched : List ι) (s : (ι → σ) × (W → V)) : Prop where
  locals : ∀ i, s.1 i = (alone next start mem₀ i (sched.count i)).1
  stored : ∀ i w, (∃ a < sched.count i, (action next start mem₀ i a).Stores w) →
    s.2 w = (alone next start mem₀ i (sched.count i)).2 w
  untouched : ∀ w, (∀ i, ∀ a < sched.count i, ¬(action next start mem₀ i a).Stores w) →
    s.2 w = mem₀ w

variable {next start mem₀}

/-- What the next action of an agent touches is as it is in the agent's
own run. -/
theorem Interleaved.mem_eq {sched : List ι} {s : (ι → σ) × (W → V)} {bound : ι → Nat}
    (h : Interleaved next start mem₀ sched s) (hind : NonInterfering next start mem₀ bound)
    (hcount : ∀ j, sched.count j ≤ bound j) {i : ι} (hi : sched.count i < bound i) {w : W}
    (hw : (action next start mem₀ i (sched.count i)).Touches w) :
    s.2 w = (alone next start mem₀ i (sched.count i)).2 w := by
  by_cases hst : ∃ j, ∃ a < sched.count j, (action next start mem₀ j a).Stores w
  · obtain ⟨j, a, ha, hs⟩ := hst
    rcases eq_or_ne j i with rfl | hji
    · exact h.stored j w ⟨a, ha, hs⟩
    · exact absurd hw (hind j i hji a (Nat.lt_of_lt_of_le ha (hcount j)) _ hi w hs)
  · have hno : ∀ j, ∀ a < sched.count j, ¬(action next start mem₀ j a).Stores w :=
      fun j a ha hs => hst ⟨j, a, ha, hs⟩
    rw [h.untouched w hno, alone_of_not_stored (hno i)]

/-- One more step of agent `i`. -/
theorem Interleaved.step {sched : List ι} {s : (ι → σ) × (W → V)} {bound : ι → Nat}
    (h : Interleaved next start mem₀ sched s) (hind : NonInterfering next start mem₀ bound)
    {i : ι} (hcount : ∀ j, (i :: sched).count j ≤ bound j) :
    Interleaved next start mem₀ (i :: sched)
      (Function.update s.1 i ((next i (s.1 i)).perform s.2).1,
        ((next i (s.1 i)).perform s.2).2) := by
  have hcount' : ∀ j, sched.count j ≤ bound j := fun j =>
    Nat.le_trans List.count_le_count_cons (hcount j)
  have hi : sched.count i < bound i := by
    have := hcount i
    rw [List.count_cons_self] at this
    exact this
  have hact : next i (s.1 i) = action next start mem₀ i (sched.count i) :=
    congrArg (next i) (h.locals i)
  obtain ⟨hloc, hmem⟩ := Access.perform_congr s.2 (alone next start mem₀ i (sched.count i)).2
    fun w hw => h.mem_eq hind hcount' hi hw
  rw [hact]
  refine ⟨fun j => ?_, fun j w hst => ?_, fun w hno => ?_⟩ <;> dsimp only
  · rcases eq_or_ne j i with rfl | hji
    · rw [Function.update_self, List.count_cons_self, hloc]
      rfl
    · rw [Function.update_of_ne hji, List.count_cons_of_ne hji.symm]
      exact h.locals j
  · obtain ⟨a, ha, hs⟩ := hst
    rcases eq_or_ne j i with rfl | hji
    · rw [List.count_cons_self] at ha ⊢
      refine hmem w ?_
      rcases Nat.lt_succ_iff_lt_or_eq.mp ha with hlt | rfl
      · exact Or.inr (h.stored j w ⟨a, hlt, hs⟩)
      · exact Or.inl hs
    · rw [List.count_cons_of_ne hji.symm] at ha ⊢
      have hnot : ¬(action next start mem₀ i (sched.count i)).Stores w := fun hs' =>
        hind j i hji a (Nat.lt_of_lt_of_le ha (hcount' j)) _ hi w hs hs'.touches
      rw [Access.perform_of_not_stores hnot]
      exact h.stored j w ⟨a, ha, hs⟩
  · have hno' : ¬(action next start mem₀ i (sched.count i)).Stores w :=
      hno i _ (by rw [List.count_cons_self]; exact Nat.lt_succ_self _)
    rw [Access.perform_of_not_stores hno']
    exact h.untouched w fun j a ha => hno j a (Nat.lt_of_lt_of_le ha List.count_le_count_cons)

/-- Agents that do not interfere cannot tell whether they are alone. -/
theorem interleaved_interleave {bound : ι → Nat}
    (hind : NonInterfering next start mem₀ bound) : ∀ {sched : List ι},
      (∀ j, sched.count j ≤ bound j) →
        Interleaved next start mem₀ sched (interleave next start mem₀ sched)
  | [], _ => ⟨fun _ => rfl, fun _ _ ⟨_, ha, _⟩ => absurd ha (Nat.not_lt_zero _), fun _ _ => rfl⟩
  | _ :: _, hcount =>
      (interleaved_interleave hind fun j =>
        Nat.le_trans List.count_le_count_cons (hcount j)).step hind hcount

/-- Two schedules that differ in their order only end in the same state. -/
theorem interleave_congr {bound : ι → Nat} (hind : NonInterfering next start mem₀ bound)
    {sched sched' : List ι} (hcount : ∀ j, sched.count j ≤ bound j)
    (hsame : ∀ j, sched'.count j = sched.count j) :
    interleave next start mem₀ sched' = interleave next start mem₀ sched := by
  have h := interleaved_interleave hind hcount
  have h' := interleaved_interleave hind fun j => hsame j ▸ hcount j
  refine Prod.ext (funext fun i => ?_) (funext fun w => ?_)
  · rw [h.locals, h'.locals, hsame]
  · by_cases hst : ∃ j, ∃ a < sched.count j, (action next start mem₀ j a).Stores w
    · obtain ⟨j, hj⟩ := hst
      rw [h.stored j w hj, h'.stored j w (by rw [hsame]; exact hj), hsame]
    · have hno : ∀ j, ∀ a < sched.count j, ¬(action next start mem₀ j a).Stores w :=
        fun j a ha hs => hst ⟨j, a, ha, hs⟩
      rw [h.untouched w hno, h'.untouched w fun j a ha => hno j a (by rw [← hsame]; exact ha)]

/-! ## One after the other -/

theorem interleave_of_not_mem {sched : List ι} {i : ι} (h : i ∉ sched) :
    (interleave next start mem₀ sched).1 i = start i := by
  induction sched with
  | nil => rfl
  | cons j past ih =>
      obtain ⟨hne, hpast⟩ := not_or.mp (List.mem_cons.not.mp h)
      rw [interleave]
      exact (Function.update_of_ne hne ..).trans (ih hpast)

/-- An agent that has not been scheduled before and then is `k` times in a
row is alone on the memory that it finds. -/
theorem interleave_replicate_append {sched : List ι} {i : ι} (h : i ∉ sched) : ∀ k,
    interleave next start mem₀ (List.replicate k i ++ sched) =
      (Function.update (interleave next start mem₀ sched).1 i
          (alone next start (interleave next start mem₀ sched).2 i k).1,
        (alone next start (interleave next start mem₀ sched).2 i k).2)
  | 0 => by
      refine Prod.ext ?_ rfl
      exact (Function.update_eq_self_iff.mpr (interleave_of_not_mem h).symm).symm
  | k + 1 => by
      rw [List.replicate_succ, List.cons_append, interleave, interleave_replicate_append h k]
      simp only [Function.update_self, Function.update_idem]
      rfl

end Interleave

end ArchSim
