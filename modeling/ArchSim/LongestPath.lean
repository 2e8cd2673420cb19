import Mathlib

/-!
# Longest paths

A graph whose arcs lead downwards in a well-founded order, with weights
on its nodes. The depth of a node is computed along the order, and it is
the greatest weight of a path that leaves the node, the node itself not
counted (`isGreatest_depth`).

The depths are the earliest start times that respect the arcs (`Feasible`),
and they grow with the graph (`depth_le_depth_map`, `depth_map_le_add`).

For nodes `0, ..., n - 1` the tops, which no arc leads to, stand for all
the others: what holds of every top and passes along the arcs holds of
every node (`of_tops`), and the heaviest path starts at one
(`exists_top`).
-/

namespace ArchSim

structure Dag (α : Type*) [LT α] where
  deps : α → Finset α
  weight : α → Nat
  lt : ∀ i, ∀ j ∈ deps i, j < i

namespace Dag

section Depth

variable {α : Type*} [LT α]

def depth [WellFoundedLT α] (g : Dag α) (i : α) : Nat :=
  (g.deps i).attach.sup fun j => g.depth j.1 + g.weight j.1
termination_by WellFounded.wrap wellFounded_lt i
decreasing_by exact g.lt i j.1 j.2

variable [WellFoundedLT α] {g : Dag α}

theorem depth_eq (g : Dag α) (i : α) :
    g.depth i = (g.deps i).sup fun j => g.depth j + g.weight j := by
  rw [depth]
  exact Finset.sup_attach (g.deps i) fun j => g.depth j + g.weight j

theorem add_le_depth {i j : α} (h : j ∈ g.deps i) : g.depth j + g.weight j ≤ g.depth i := by
  rw [depth_eq g i]
  exact Finset.le_sup (f := fun j => g.depth j + g.weight j) h

theorem depth_le {i : α} {d : Nat} (h : ∀ j ∈ g.deps i, g.depth j + g.weight j ≤ d) :
    g.depth i ≤ d := by
  rw [depth_eq g i]
  exact Finset.sup_le h

theorem depth_attained (i : α) :
    g.depth i = 0 ∨ ∃ j ∈ g.deps i, g.depth i = g.depth j + g.weight j := by
  rcases (g.deps i).eq_empty_or_nonempty with hnone | hsome
  · left
    rw [depth_eq, hnone, Finset.sup_empty, Nat.bot_eq_zero]
  · right
    rw [depth_eq]
    exact Finset.exists_mem_eq_sup _ hsome _

/-- The paths that leave `i`, without `i` itself. -/
def Path (g : Dag α) (i : α) (l : List α) : Prop := List.IsChain (fun a b => b ∈ g.deps a) (i :: l)

/-- No path is heavier than the depth. -/
theorem sum_le_depth {l : List α} : ∀ {i : α}, g.Path i l → (l.map g.weight).sum ≤ g.depth i := by
  induction l with
  | nil =>
      intro i _
      exact Nat.zero_le _
  | cons j l ih =>
      intro i h
      obtain ⟨hij, hl⟩ := List.isChain_cons_cons.mp h
      have hle := ih hl
      have := add_le_depth hij
      rw [List.map_cons, List.sum_cons]
      omega

/-- Some path is as heavy. -/
theorem exists_path (i : α) : ∃ l, g.Path i l ∧ g.depth i = (l.map g.weight).sum := by
  induction i using WellFoundedLT.induction with
  | ind i ih =>
      rcases depth_attained (g := g) i with h | ⟨j, hj, h⟩
      · exact ⟨[], List.isChain_singleton i, h⟩
      · obtain ⟨l, hl, hsum⟩ := ih j (g.lt i j hj)
        refine ⟨j :: l, List.isChain_cons_cons.mpr ⟨hj, hl⟩, ?_⟩
        rw [h, hsum, List.map_cons, List.sum_cons, Nat.add_comm]

theorem isGreatest_depth (i : α) :
    IsGreatest {d | ∃ l, g.Path i l ∧ d = (l.map g.weight).sum} (g.depth i) := by
  refine ⟨exists_path i, ?_⟩
  rintro d ⟨l, hl, rfl⟩
  exact sum_le_depth hl

/-! The depths are the earliest start times. -/

/-- The nodes of `p` start when all that they depend on has ended. -/
def Feasible (g : Dag α) (p : α → Prop) (start : α → Nat) : Prop :=
  ∀ i, p i → ∀ j ∈ g.deps i, start j + g.weight j ≤ start i

theorem feasible_depth (g : Dag α) (p : α → Prop) : g.Feasible p g.depth :=
  fun _ _ _ hj => add_le_depth hj

theorem Feasible.depth_le {p : α → Prop} (hp : ∀ i, p i → ∀ j ∈ g.deps i, p j)
    {start : α → Nat} (h : g.Feasible p start) {i : α} (hi : p i) : g.depth i ≤ start i := by
  induction i using WellFoundedLT.induction with
  | ind i ih =>
      refine Dag.depth_le ?_
      intro j hj
      exact Nat.le_trans (Nat.add_le_add_right (ih j (g.lt i j hj) (hp i hi j hj)) _) (h i hi j hj)

/-! A graph inside another one. -/

variable {β : Type*} [LT β] [WellFoundedLT β] {g' : Dag β} {p : α → Prop} {f : α → β}

/-- More arcs and more weight make nothing less deep. -/
theorem depth_le_depth_map (hp : ∀ i, p i → ∀ j ∈ g.deps i, p j)
    (harcs : ∀ i, p i → ∀ j ∈ g.deps i, f j ∈ g'.deps (f i) ∧ g.weight j ≤ g'.weight (f j))
    {i : α} (hi : p i) : g.depth i ≤ g'.depth (f i) := by
  induction i using WellFoundedLT.induction with
  | ind i ih =>
      refine Dag.depth_le ?_
      intro j hj
      obtain ⟨hmem, hweight⟩ := harcs i hi j hj
      exact Nat.le_trans (Nat.add_le_add (ih j (g.lt i j hj) (hp i hi j hj)) hweight)
        (add_le_depth hmem)

/-- Arcs that leave the inner graph cost what the nodes they lead to have
cost already. -/
theorem depth_map_le_add {d : Nat} (hp : ∀ i, p i → ∀ j ∈ g.deps i, p j)
    (harcs : ∀ i, p i → ∀ k ∈ g'.deps (f i), g'.depth k + g'.weight k ≤ d ∨
      ∃ j ∈ g.deps i, f j = k ∧ g'.weight k ≤ g.weight j)
    {i : α} (hi : p i) : g'.depth (f i) ≤ d + g.depth i := by
  induction i using WellFoundedLT.induction with
  | ind i ih =>
      refine Dag.depth_le ?_
      intro k hk
      rcases harcs i hi k hk with hout | ⟨j, hj, rfl, hweight⟩
      · exact Nat.le_trans hout (Nat.le_add_right d _)
      · have hle := ih j (g.lt i j hj) (hp i hi j hj)
        have hadd := add_le_depth hj
        omega

end Depth

/-! ## Nodes numbered below a bound -/

variable {g : Dag Nat} {n : Nat}

/-- No arc from a node below `n` leads to `e`. -/
def Top (g : Dag Nat) (n e : Nat) : Prop := e < n ∧ ∀ k < n, e ∉ g.deps k

/-- Every node is a top or lies below one. -/
theorem of_tops {p : Nat → Prop} (htop : ∀ e, g.Top n e → p e)
    (hdep : ∀ k < n, p k → ∀ j ∈ g.deps k, p j) {i : Nat} (hi : i < n) : p i := by
  -- Downwards from `n`: the arcs to a node come from larger ones.
  induction hm : n - i using Nat.strong_induction_on generalizing i with
  | _ m ih =>
      by_cases h : ∃ k < n, i ∈ g.deps k
      · obtain ⟨k, hk, hik⟩ := h
        have hlt := g.lt k i hik
        exact hdep k hk (ih (n - k) (by omega) hk rfl) i hik
      · exact htop i ⟨hi, fun k hk hik => h ⟨k, hk, hik⟩⟩

/-- No path is heavier than the heaviest one from a top. -/
theorem exists_top {i : Nat} (hi : i < n) :
    ∃ e, g.Top n e ∧ g.depth i + g.weight i ≤ g.depth e + g.weight e := by
  refine of_tops (g := g) (n := n)
    (p := fun i => ∃ e, g.Top n e ∧ g.depth i + g.weight i ≤ g.depth e + g.weight e) ?_ ?_ hi
  · intro e he
    exact ⟨e, he, Nat.le_refl _⟩
  · rintro k - ⟨e, he, hle⟩ j hj
    have hjk := add_le_depth hj
    exact ⟨e, he, by omega⟩

theorem depth_le_sum (i : Nat) : g.depth i ≤ ∑ j ∈ Finset.range i, g.weight j := by
  induction i using Nat.strong_induction_on with
  | _ i ih =>
      refine depth_le ?_
      intro j hj
      have hlt := g.lt i j hj
      calc g.depth j + g.weight j
          ≤ (∑ k ∈ Finset.range j, g.weight k) + g.weight j := Nat.add_le_add_right (ih j hlt) _
        _ = ∑ k ∈ Finset.range (j + 1), g.weight k := (Finset.sum_range_succ _ j).symm
        _ ≤ ∑ k ∈ Finset.range i, g.weight k :=
            Finset.sum_le_sum_of_subset (Finset.range_subset_range.mpr hlt)

/-- A path has no more weight than all nodes together. -/
theorem depth_add_le_sum {i : Nat} (hi : i < n) :
    g.depth i + g.weight i ≤ ∑ j ∈ Finset.range n, g.weight j := by
  calc g.depth i + g.weight i
      ≤ (∑ k ∈ Finset.range i, g.weight k) + g.weight i :=
        Nat.add_le_add_right (depth_le_sum i) _
    _ = ∑ k ∈ Finset.range (i + 1), g.weight k := (Finset.sum_range_succ _ i).symm
    _ ≤ ∑ k ∈ Finset.range n, g.weight k :=
        Finset.sum_le_sum_of_subset (Finset.range_subset_range.mpr hi)

end Dag

end ArchSim
