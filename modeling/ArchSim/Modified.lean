import ArchSim.Hierarchy
import Mathlib.Data.List.Induction

/-!
# Modified blocks

In a write-back hierarchy the only trace of a write is a dirty flag, which
moves from the first to the second level when its block is evicted. A block
is `Modified` while one of its copies is dirty. No access changes that for
other blocks than its own, and over a run it says just whether the block
has been written to since it was last brought in (`run_faithful`).
-/

namespace ArchSim

variable {Block S₁ S₂ : Type*}

/-- A copy of `b` is dirty. -/
def Contents.Modified (H : Hierarchy Block S₁ S₂) (m : Contents Block S₁ S₂) (b : Block) : Prop :=
  m.dirty₂ b = true ∨ (Resident H.set₁ m.order₁ b ∧ m.dirty₁ b = true)

variable [DecidableEq Block] [DecidableEq S₁] [DecidableEq S₂] {H : Hierarchy Block S₁ S₂}
  {m : Contents Block S₁ S₂} {b c : Block}

/-! ## One access -/

namespace Inclusive

omit [DecidableEq S₁] in
/-- The evictee of the first level hands its flag down. -/
theorem evict₁_dirty₂ (m : Contents Block S₁ S₂) (b c : Block) :
    (m.evict₁ H b).dirty₂ c = true ↔ m.dirty₂ c = true ∨
      (evictee? H.ways₁ (m.order₁ (H.set₁ b)) = some c ∧ m.dirty₁ c = true) := by
  unfold Contents.evict₁
  cases hv : evictee? H.ways₁ (m.order₁ (H.set₁ b)) with
  | none => simp
  | some v =>
      simp only [Option.some.injEq]
      by_cases hd : m.dirty₁ v = true
      · rw [if_pos hd]
        by_cases hcv : c = v
        · subst hcv
          simp [Contents.writeBack, hd]
        · simp [Contents.writeBack, Contents.use₂, Function.update_of_ne hcv, Ne.symm hcv]
      · rw [if_neg hd]
        refine ⟨Or.inl, ?_⟩
        rintro (h | ⟨rfl, h⟩)
        · exact h
        · exact absurd h hd

theorem insert₁_modified_of_ne (h : Inclusive H m) (hne : c ≠ b) (dirty : Bool) :
    (m.insert₁ H b dirty).Modified H c ↔ m.Modified H c := by
  have hdirty₁ : (m.insert₁ H b dirty).dirty₁ c = m.dirty₁ c := by
    simp only [Contents.insert₁, evict₁_dirty₁, Function.update_of_ne hne]
  have hdirty₂ : (m.insert₁ H b dirty).dirty₂ c = (m.evict₁ H b).dirty₂ c := rfl
  unfold Contents.Modified
  rw [h.insert₁_resident₁, hdirty₁, hdirty₂, evict₁_dirty₂]
  by_cases hv : evictee? H.ways₁ (m.order₁ (H.set₁ b)) = some c
  · have hres := h.lists₁.resident (mem_of_evictee? hv)
    simp [hv, hne, hres]
  · simp [hv, hne]

theorem insert₁_modified_self (h : Inclusive H m) (hb : ¬Resident H.set₁ m.order₁ b)
    (dirty : Bool) :
    (m.insert₁ H b dirty).Modified H b ↔ m.dirty₂ b = true ∨ dirty = true := by
  have hdirty₁ : (m.insert₁ H b dirty).dirty₁ b = dirty := by
    simp only [Contents.insert₁, Function.update_self]
  have hdirty₂ : (m.insert₁ H b dirty).dirty₂ b = (m.evict₁ H b).dirty₂ b := rfl
  have hv : evictee? H.ways₁ (m.order₁ (H.set₁ b)) ≠ some b := fun hv =>
    hb (h.lists₁.resident (mem_of_evictee? hv))
  unfold Contents.Modified
  rw [h.insert₁_resident₁, hdirty₁, hdirty₂, evict₁_dirty₂]
  simp [hv]

/-- Whatever the second level does not give up keeps its flags. -/
theorem insert₂_modified_of_ne (h : Inclusive H m) (hne : c ≠ b)
    (hres : Resident H.set₂ (m.insert₂ H b).order₂ c) :
    (m.insert₂ H b).Modified H c ↔ m.Modified H c := by
  have hv := ((h.insert₂_resident₂_iff.mp hres).resolve_left hne).2
  have hdirty₁ : (m.insert₂ H b).dirty₁ c = m.dirty₁ c := by
    simp only [Contents.insert₂, Contents.evict₂]
    split <;> rfl
  have hdirty₂ : (m.insert₂ H b).dirty₂ c = m.dirty₂ c := by
    simp only [Contents.insert₂, evict₂_dirty₂, Function.update_of_ne hne]
  have hres₁ : Resident H.set₁ (m.insert₂ H b).order₁ c ↔ Resident H.set₁ m.order₁ c := by
    simp only [Contents.insert₂, h.evict₂_resident₁, hv, ne_eq, not_false_iff, and_true]
  unfold Contents.Modified
  rw [hres₁, hdirty₁, hdirty₂]

/-- An access leaves the other blocks as they are, apart from those that
leave the second level. -/
theorem access_modified_of_ne (h : Inclusive H m) (op : Op) (hne : c ≠ b)
    (hres : Resident H.set₂ (m.access H op b).order₂ c) :
    Resident H.set₂ m.order₂ c ∧ ((m.access H op b).Modified H c ↔ m.Modified H c) := by
  unfold Contents.access Contents.lookup at hres ⊢
  by_cases hb₁ : Resident H.set₁ m.order₁ b
  · simp only [if_pos hb₁] at hres ⊢
    refine ⟨hres, ?_⟩
    have hdirty : (m.hit₁ H op b).dirty₁ c = m.dirty₁ c := by
      simp only [Contents.hit₁]
      split
      · exact Function.update_of_ne hne ..
      · rfl
    have hres₁ : Resident H.set₁ (m.hit₁ H op b).order₁ c ↔ Resident H.set₁ m.order₁ c :=
      resident_useIn hb₁
    unfold Contents.Modified
    rw [hres₁, hdirty]
    rfl
  · simp only [if_neg hb₁] at hres ⊢
    by_cases hb₂ : Resident H.set₂ m.order₂ b
    · simp only [if_pos hb₂, Contents.hit₂] at hres ⊢
      have huse := h.use₂ hb₂
      split at hres
      · rename_i hf
        rw [if_pos hf]
        exact ⟨(resident_useIn hb₂).mp (huse.insert₁_resident₂.mp hres),
          huse.insert₁_modified_of_ne hne _⟩
      · rename_i hf
        rw [if_neg hf]
        refine ⟨(resident_useIn hb₂).mp hres, ?_⟩
        have hdirty : (m.writeBack H b).dirty₂ c = m.dirty₂ c := Function.update_of_ne hne ..
        unfold Contents.Modified
        rw [hdirty]
        rfl
    · simp only [if_neg hb₂, Contents.miss] at hres ⊢
      split at hres
      · rename_i hf
        rw [if_pos hf]
        have hins := h.insert₂ hb₂
        have hres' := hins.insert₁_resident₂.mp hres
        exact ⟨((h.insert₂_resident₂_iff.mp hres').resolve_left hne).1,
          (hins.insert₁_modified_of_ne hne _).trans (h.insert₂_modified_of_ne hne hres')⟩
      · rename_i hf
        rw [if_neg hf]
        exact ⟨hres, Iff.rfl⟩

/-- An access that finds its block keeps what is known of it; a write makes
it modified. -/
theorem access_modified_of_hit (h : Inclusive H m) (op : Op)
    (hb : Resident H.set₂ m.order₂ b) :
    (m.access H op b).Modified H b ↔ m.Modified H b ∨ op = .write := by
  unfold Contents.access Contents.lookup
  by_cases hb₁ : Resident H.set₁ m.order₁ b
  · have hres₁ : Resident H.set₁ (m.hit₁ H op b).order₁ b := (resident_useIn hb₁).mpr hb₁
    simp only [if_pos hb₁]
    unfold Contents.Modified
    cases op with
    | read => simp [Contents.hit₁, resident_useIn hb₁]
    | write => simp [Contents.hit₁, resident_useIn hb₁, hb₁]
  · have hold : m.Modified H b ↔ m.dirty₂ b = true := by simp [Contents.Modified, hb₁]
    simp only [if_neg hb₁, if_pos hb, Contents.hit₂, hold]
    split
    · rw [(h.use₂ hb).insert₁_modified_self hb₁, beq_iff_eq]
      rfl
    · rename_i hf
      cases op with
      | read => exact absurd rfl hf
      | write => simp [Contents.Modified, Contents.writeBack]

/-- A block that is brought in is modified if a write brings it in. -/
theorem access_modified_of_miss (h : Inclusive H m) {op : Op}
    (hf : Contents.fetches H op = true) (hb : ¬Resident H.set₂ m.order₂ b) :
    (m.access H op b).Modified H b ↔ op = .write := by
  have hb₁ : ¬Resident H.set₁ m.order₁ b := fun hres => hb (h.incl b hres)
  have hb₁' : ¬Resident H.set₁ (m.insert₂ H b).order₁ b := fun hres =>
    hb₁ (h.evict₂_resident₁.mp hres).1
  have hclean : (m.insert₂ H b).dirty₂ b = false := by
    simp only [Contents.insert₂, Function.update_self]
  unfold Contents.access Contents.lookup
  simp only [if_neg hb₁, if_neg hb, Contents.miss, if_pos hf]
  rw [(h.insert₂ hb).insert₁_modified_self hb₁', hclean, beq_iff_eq]
  simp

/-- An access that does not fetch its block brings nothing in. -/
theorem access_of_bypass {op : Op} (hf : Contents.fetches H op = false)
    (hb₁ : ¬Resident H.set₁ m.order₁ b) (hb : ¬Resident H.set₂ m.order₂ b) :
    m.access H op b = m := by
  unfold Contents.access Contents.lookup
  simp only [if_neg hb₁, if_neg hb, Contents.miss, hf, Bool.false_eq_true, if_false]

end Inclusive

/-! ## Runs -/

theorem getElem?_snoc {α : Type*} {l : List α} {x y : α} {k : Nat} :
    (l ++ [x])[k]? = some y ↔ l[k]? = some y ∨ (k = l.length ∧ x = y) := by
  rcases Nat.lt_trichotomy k l.length with hk | rfl | hk
  · rw [List.getElem?_append_left hk]
    simp [Nat.ne_of_lt hk]
  · simp
  · rw [List.getElem?_eq_none (by simp; omega), List.getElem?_eq_none (Nat.le_of_lt hk)]
    simp [Nat.ne_of_gt hk]

/-- Access `k` of a trace with outcomes `os` brings `b` in. -/
def BroughtIn (H : Hierarchy Block S₁ S₂) (accesses : List (Op × Block)) (os : List Outcome)
    (b : Block) (k : Nat) : Prop :=
  ∃ op, accesses[k]? = some (op, b) ∧ os[k]? = some .miss ∧ Contents.fetches H op = true

structure LastBroughtIn (H : Hierarchy Block S₁ S₂) (accesses : List (Op × Block))
    (os : List Outcome) (b : Block) (k : Nat) : Prop where
  broughtIn : BroughtIn H accesses os b k
  last : ∀ j, k < j → ¬BroughtIn H accesses os b j

/-- `b` is written to in access `k` or later. -/
def WrittenSince (accesses : List (Op × Block)) (b : Block) (k : Nat) : Prop :=
  ∃ j, k ≤ j ∧ accesses[j]? = some (.write, b)

/-- The modified blocks are those that have been written to since they were
last brought in. -/
def Faithful (H : Hierarchy Block S₁ S₂) (accesses : List (Op × Block)) (os : List Outcome)
    (m : Contents Block S₁ S₂) : Prop :=
  ∀ b, Resident H.set₂ m.order₂ b →
    ∃ k, LastBroughtIn H accesses os b k ∧ (m.Modified H b ↔ WrittenSince accesses b k)

section Snoc

variable {accesses : List (Op × Block)} {os : List Outcome} {op : Op} {o : Outcome} {k : Nat}

omit [DecidableEq Block] [DecidableEq S₁] [DecidableEq S₂]

theorem BroughtIn.lt (h : BroughtIn H accesses os b k) : k < accesses.length := by
  obtain ⟨op, hk, -⟩ := h
  exact (List.getElem?_eq_some_iff.mp hk).1

theorem broughtIn_snoc (hlen : os.length = accesses.length) :
    BroughtIn H (accesses ++ [(op, b)]) (os ++ [o]) c k ↔
      BroughtIn H accesses os c k ∨
        (k = accesses.length ∧ b = c ∧ o = .miss ∧ Contents.fetches H op = true) := by
  unfold BroughtIn
  simp only [getElem?_snoc, hlen, Prod.mk.injEq]
  constructor
  · rintro ⟨op', hk | ⟨rfl, rfl, rfl⟩, ho, hf⟩
    · rcases ho with ho | ⟨rfl, -⟩
      · exact Or.inl ⟨op', hk, ho, hf⟩
      · exact absurd (List.getElem?_eq_some_iff.mp hk).1 (Nat.lt_irrefl _)
    · rcases ho with ho | ⟨-, rfl⟩
      · exact absurd (List.getElem?_eq_some_iff.mp ho).1 (by omega)
      · exact Or.inr ⟨rfl, rfl, rfl, hf⟩
  · rintro (⟨op', hk, ho, hf⟩ | ⟨rfl, rfl, rfl, hf⟩)
    · exact ⟨op', Or.inl hk, Or.inl ho, hf⟩
    · exact ⟨op, Or.inr ⟨rfl, rfl, rfl⟩, Or.inr ⟨rfl, rfl⟩, hf⟩

theorem writtenSince_snoc (hk : k ≤ accesses.length) :
    WrittenSince (accesses ++ [(op, b)]) c k ↔
      WrittenSince accesses c k ∨ (op = .write ∧ b = c) := by
  unfold WrittenSince
  simp only [getElem?_snoc, Prod.mk.injEq]
  constructor
  · rintro ⟨j, hj, hold | ⟨-, hnew⟩⟩
    · exact Or.inl ⟨j, hj, hold⟩
    · exact Or.inr hnew
  · rintro (⟨j, hj, hold⟩ | hnew)
    · exact ⟨j, hj, Or.inl hold⟩
    · exact ⟨accesses.length, hk, Or.inr ⟨rfl, hnew⟩⟩

/-- An access that does not bring `c` in. -/
theorem LastBroughtIn.snoc (h : LastBroughtIn H accesses os c k)
    (hlen : os.length = accesses.length) (hno : ¬(b = c ∧ o = .miss)) :
    LastBroughtIn H (accesses ++ [(op, b)]) (os ++ [o]) c k where
  broughtIn := (broughtIn_snoc hlen).mpr (Or.inl h.broughtIn)
  last := fun j hj hin => by
    rcases (broughtIn_snoc hlen).mp hin with hold | ⟨-, hb, ho, -⟩
    · exact h.last j hj hold
    · exact hno ⟨hb, ho⟩

/-- An access that does. -/
theorem lastBroughtIn_self (hlen : os.length = accesses.length)
    (hf : Contents.fetches H op = true) :
    LastBroughtIn H (accesses ++ [(op, b)]) (os ++ [.miss]) b accesses.length where
  broughtIn := (broughtIn_snoc hlen).mpr (Or.inr ⟨rfl, rfl, rfl, hf⟩)
  last := fun j hj hin => by
    have := hin.lt
    rw [List.length_append, List.length_singleton] at this
    omega

theorem not_writtenSince_length : ¬WrittenSince accesses b accesses.length := by
  rintro ⟨j, hj, hk⟩
  exact absurd (List.getElem?_eq_some_iff.mp hk).1 (Nat.not_lt.mpr hj)

end Snoc

theorem Faithful.access {accesses : List (Op × Block)} {os : List Outcome}
    (h : Faithful H accesses os m) (hm : Inclusive H m) (hlen : os.length = accesses.length)
    (op : Op) (b : Block) :
    Faithful H (accesses ++ [(op, b)]) (os ++ [m.lookup H b]) (m.access H op b) := by
  intro c hres
  by_cases hcb : c = b
  · subst hcb
    by_cases hold : Resident H.set₂ m.order₂ c
    · obtain ⟨k, hk, hiff⟩ := h c hold
      have hhit : m.lookup H c ≠ .miss := by
        unfold Contents.lookup
        rw [if_pos hold]
        split <;> exact fun heq => nomatch heq
      refine ⟨k, hk.snoc hlen fun hno => hhit hno.2, ?_⟩
      rw [hm.access_modified_of_hit op hold, writtenSince_snoc (Nat.le_of_lt hk.broughtIn.lt), hiff]
      simp
    · have hb₁ : ¬Resident H.set₁ m.order₁ c := fun hin => hold (hm.incl c hin)
      have hmiss : m.lookup H c = .miss := by
        unfold Contents.lookup
        rw [if_neg hb₁, if_neg hold]
      cases hf : Contents.fetches H op with
      | false => exact absurd (Inclusive.access_of_bypass hf hb₁ hold ▸ hres) hold
      | true =>
          rw [hmiss]
          refine ⟨accesses.length, lastBroughtIn_self hlen hf, ?_⟩
          rw [hm.access_modified_of_miss hf hold, writtenSince_snoc (Nat.le_refl _)]
          simp [not_writtenSince_length]
  · obtain ⟨hold, hsame⟩ := hm.access_modified_of_ne op hcb hres
    obtain ⟨k, hk, hiff⟩ := h c hold
    refine ⟨k, hk.snoc hlen fun hno => hcb hno.1.symm, ?_⟩
    rw [hsame, hiff, writtenSince_snoc (Nat.le_of_lt hk.broughtIn.lt)]
    simp [Ne.symm hcb]

theorem run_faithful (H : Hierarchy Block S₁ S₂) (accesses : List (Op × Block)) :
    Faithful H accesses (Contents.empty.run H accesses).1 (Contents.empty.run H accesses).2 := by
  induction accesses using List.reverseRecOn with
  | nil => exact fun _ hres => absurd hres List.not_mem_nil
  | append_singleton accesses a ih =>
      have hm := (Inclusive.empty H).run accesses
      rw [Contents.run_append]
      exact ih.access hm (Contents.length_run H accesses _) a.1 a.2

end ArchSim
