import Mathlib.Data.Set.Function

/-!
# A memory in an array

A memory has a word at every address. It is kept in an array, in which only
some addresses have a place. Reads and writes go through the array as
through the memory exactly when all of them have their place and what is
read before it is written is in the array already.
-/

namespace ArchSim

/-- A read or a write of a word. -/
inductive MemOp (A V : Type*) where
  | read (addr : A)
  | write (addr : A) (val : V)

namespace MemOp

variable {A V I : Type*}

def addr : MemOp A V → A
  | read a | write a _ => a

/-- The address is read before anything is written to it. -/
def ReadFirst (a : A) : List (MemOp A V) → Prop
  | [] => False
  | read b :: ops => b = a ∨ ReadFirst a ops
  | write b _ :: ops => b ≠ a ∧ ReadFirst a ops

theorem ReadFirst.exists_mem {a : A} : ∀ {ops : List (MemOp A V)}, ReadFirst a ops →
    ∃ op ∈ ops, op.addr = a
  | read b :: ops, h => by
      rcases h with rfl | h
      · exact ⟨read b, List.mem_cons_self .., rfl⟩
      · obtain ⟨op, hop, ha⟩ := exists_mem h
        exact ⟨op, List.mem_cons_of_mem _ hop, ha⟩
  | write b v :: ops, h => by
      obtain ⟨op, hop, ha⟩ := exists_mem h.2
      exact ⟨op, List.mem_cons_of_mem _ hop, ha⟩

variable [DecidableEq A] [DecidableEq I]

/-- What the reads deliver. -/
def results : (A → V) → List (MemOp A V) → List V
  | _, [] => []
  | mem, read a :: ops => mem a :: results mem ops
  | mem, write a v :: ops => results (Function.update mem a v) ops

/-- What the reads deliver of an array, or `none` if an address has no place
in it. -/
def arrayResults (place : A → Option I) : (I → V) → List (MemOp A V) → Option (List V)
  | _, [] => some []
  | array, read a :: ops =>
      (place a).bind fun i => (arrayResults place array ops).map (array i :: ·)
  | array, write a v :: ops =>
      (place a).bind fun i => arrayResults place (Function.update array i v) ops

variable {place : A → Option I} {addrs : Set A}

/-- No two of the addresses share a place. -/
def Separates (place : A → Option I) (addrs : Set A) : Prop :=
  ∀ a ∈ addrs, ∀ b ∈ addrs, ∀ i, place a = some i → place b = some i → a = b

/-- A word that is written is the same in both, and no other word changes. -/
theorem agree_update (hsep : Separates place addrs) {a b : A} (ha : a ∈ addrs) (hb : b ∈ addrs)
    {i j : I} (hi : place a = some i) (hj : place b = some j) (array : I → V) (mem : A → V)
    (v : V) : Function.update array i v j = Function.update mem a v b ↔
      (a ≠ b → array j = mem b) := by
  by_cases hab : a = b
  · subst hab
    obtain rfl := Option.some.inj (hi.symm.trans hj)
    simp
  · have hij : j ≠ i := by
      rintro rfl
      exact hab (hsep a ha b hb j hi hj)
    rw [Function.update_of_ne hij, Function.update_of_ne (Ne.symm hab)]
    exact ⟨fun h _ => h, fun h => h hab⟩

/-- The array answers as the memory does. -/
theorem arrayResults_eq_iff (hsep : Separates place addrs) (ops : List (MemOp A V)) :
    ∀ {array : I → V} {mem : A → V}, (∀ op ∈ ops, op.addr ∈ addrs) →
      (arrayResults place array ops = some (results mem ops) ↔
        (∀ op ∈ ops, (place op.addr).isSome) ∧
          ∀ a, ReadFirst a ops → ∀ i, place a = some i → array i = mem a) := by
  induction ops with
  | nil =>
      intro array mem _
      exact ⟨fun _ => ⟨fun _ h => absurd h List.not_mem_nil, fun _ h => h.elim⟩, fun _ => rfl⟩
  | cons op ops ih =>
      intro array mem hops
      obtain ⟨hop, hrest⟩ := List.forall_mem_cons.mp hops
      rw [List.forall_mem_cons]
      cases hplace : place op.addr with
      | none =>
          have hnone : arrayResults place array (op :: ops) = none := by
            cases op <;> exact congrArg (Option.bind · _) hplace
          simp [hnone]
      | some i =>
          rw [Option.isSome_some, eq_self, true_and]
          cases op with
          | read a =>
              have hplace : place a = some i := hplace
              have hresults : arrayResults place array (read a :: ops) =
                  (arrayResults place array ops).map (array i :: ·) :=
                congrArg (Option.bind · _) hplace
              have hfirst : (∀ b, ReadFirst b (read a :: ops) → ∀ j, place b = some j →
                  array j = mem b) ↔ array i = mem a ∧
                    ∀ b, ReadFirst b ops → ∀ j, place b = some j → array j = mem b := by
                constructor
                · exact fun h => ⟨h a (Or.inl rfl) i hplace, fun b hb => h b (Or.inr hb)⟩
                · rintro ⟨ha, h⟩ b (rfl | hb) j hj
                  · rwa [← Option.some.inj (hplace.symm.trans hj)]
                  · exact h b hb j hj
              rw [hresults, results, hfirst, and_left_comm, ← ih hrest]
              cases arrayResults place array ops <;> simp
          | write a v =>
              have hplace : place a = some i := hplace
              have hresults : arrayResults place array (write a v :: ops) =
                  arrayResults place (Function.update array i v) ops :=
                congrArg (Option.bind · _) hplace
              rw [hresults, results, ih hrest]
              refine and_congr_right fun _ => forall_congr' fun b => ?_
              constructor
              · rintro h ⟨hab, hb⟩ j hj
                obtain ⟨op, hmem, rfl⟩ := hb.exists_mem
                exact (agree_update hsep hop (hrest op hmem) hplace hj array mem v).mp
                  (h hb j hj) hab
              · intro h hb j hj
                obtain ⟨op, hmem, rfl⟩ := hb.exists_mem
                exact (agree_update hsep hop (hrest op hmem) hplace hj array mem v).mpr
                  fun hab => h ⟨hab, hb⟩ j hj

end MemOp

end ArchSim
