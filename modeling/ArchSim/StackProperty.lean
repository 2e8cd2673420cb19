import ArchSim.Hierarchy

/-!
# More ways in the first level

Under least recently used, a set with fewer ways holds what a set with more
ways has used last: its recency list is a part of the longer one. That is
the invariant (`Narrower`) behind the stack property, and it takes more than
the contents to keep it: a write that is not allocated refreshes its block in
the wider set only, and the next eviction asks for the order.

A back-invalidation would leave a hole in the narrower list, so the second
level must not evict meanwhile.
-/

namespace ArchSim

/-! ## Parts of recency lists -/

section Lists

variable {α : Type*} {l l' : List α} {n n' : Nat}

theorem sublist_dropLast (h : l.Sublist l') : l.dropLast.Sublist l'.dropLast := by
  have htail := (List.reverse_sublist.mpr h).tail
  rwa [List.tail_reverse, List.tail_reverse, List.reverse_sublist] at htail

/-- A full list that makes room stays a part of the other list. -/
theorem makeRoom_sublist_makeRoom (h : l.Sublist l') (hfull : n ≤ l.length) :
    (makeRoom n l).Sublist (makeRoom n' l') := by
  rw [makeRoom_of_le hfull, makeRoom]
  split
  · exact (List.dropLast_sublist l).trans h
  · exact sublist_dropLast h

variable [DecidableEq α] {a : α}

theorem toFront_sublist (h : l.Sublist l') : (toFront a l).Sublist (toFront a l') :=
  (h.erase a).cons_cons a

/-- Using an element that only the longer list holds. -/
theorem sublist_toFront (h : l.Sublist l') (ha : a ∉ l) : l.Sublist (toFront a l') := by
  have herase := h.erase a
  rw [List.erase_of_not_mem ha] at herase
  exact herase.cons a

/-- Bringing it in. -/
theorem insert_sublist_toFront (h : l.Sublist l') (ha : a ∉ l) :
    (a :: makeRoom n l).Sublist (toFront a l') := by
  have herase := h.erase a
  rw [List.erase_of_not_mem ha] at herase
  exact ((makeRoom_sublist n l).trans herase).cons_cons a

end Lists

/-! ## Two hierarchies -/

variable {Block S₁ S₂ : Type*}

/-- The hierarchy with more ways in the first level. -/
def Hierarchy.widen (H : Hierarchy Block S₁ S₂) (ways : Nat) (hw : H.ways₁ ≤ ways) :
    Hierarchy Block S₁ S₂ :=
  { H with ways₁ := ways, ways₁_pos := Nat.lt_of_lt_of_le H.ways₁_pos hw }

variable {H : Hierarchy Block S₁ S₂} {ways : Nat} {hw : H.ways₁ ≤ ways}
  {m m' : Contents Block S₁ S₂} {b : Block}

/-- The recency list `l` of a set with `n` ways next to that of a wider set. -/
structure PartOf (n : Nat) (l l' : List Block) : Prop where
  sublist : l.Sublist l'
  eq_or_full : l = l' ∨ n ≤ l.length

structure Narrower (H : Hierarchy Block S₁ S₂) (m m' : Contents Block S₁ S₂) : Prop where
  part : ∀ s, PartOf H.ways₁ (m.order₁ s) (m'.order₁ s)
  resident₂ : ∀ b, Resident H.set₂ m.order₂ b ↔ Resident H.set₂ m'.order₂ b

theorem Narrower.empty (H : Hierarchy Block S₁ S₂) : Narrower H Contents.empty Contents.empty :=
  ⟨fun _ => ⟨List.Sublist.refl _, Or.inl rfl⟩, fun _ => Iff.rfl⟩

theorem Narrower.resident₁ (h : Narrower H m m') (hb : Resident H.set₁ m.order₁ b) :
    Resident H.set₁ m'.order₁ b :=
  (h.part _).sublist.subset hb

namespace PartOf

variable [DecidableEq Block] {n n' : Nat} {l l' : List Block}

theorem use (h : PartOf n l l') (hb : b ∈ l) : PartOf n (toFront b l) (toFront b l') where
  sublist := toFront_sublist h.sublist
  eq_or_full := by
    rw [length_toFront hb]
    refine h.eq_or_full.imp_left ?_
    rintro rfl
    rfl

omit [DecidableEq Block] in
theorem full (h : PartOf n l l') (hb : b ∉ l) (hb' : b ∈ l') : n ≤ l.length :=
  h.eq_or_full.resolve_left fun heq => hb (heq ▸ hb')

/-- The wider set alone uses `b`. -/
theorem use_right (h : PartOf n l l') (hb : b ∉ l) (hb' : b ∈ l') :
    PartOf n l (toFront b l') :=
  ⟨sublist_toFront h.sublist hb, Or.inr (h.full hb hb')⟩

omit [DecidableEq Block] in
theorem length_insert (hfull : n ≤ l.length) :
    n ≤ (b :: makeRoom n l).length := by
  rw [makeRoom_of_le hfull, List.length_cons, List.length_dropLast]
  omega

/-- The narrower set brings in what the wider one holds. -/
theorem insert_left (h : PartOf n l l') (hb : b ∉ l) (hb' : b ∈ l') :
    PartOf n (b :: makeRoom n l) (toFront b l') :=
  ⟨insert_sublist_toFront h.sublist hb, Or.inr (length_insert (h.full hb hb'))⟩

omit [DecidableEq Block] in
/-- Both sets bring `b` in. -/
theorem insert (h : PartOf n l l') (hnn : n ≤ n') :
    PartOf n (b :: makeRoom n l) (b :: makeRoom n' l') := by
  rcases Nat.lt_or_ge l.length n with hlt | hfull
  · obtain rfl := h.eq_or_full.resolve_right (Nat.not_le.mpr hlt)
    rw [makeRoom_of_lt hlt, makeRoom_of_lt (Nat.lt_of_lt_of_le hlt hnn)]
    exact ⟨List.Sublist.refl _, Or.inl rfl⟩
  · exact ⟨(makeRoom_sublist_makeRoom h.sublist hfull).cons_cons b,
      Or.inr (length_insert hfull)⟩

end PartOf

variable [DecidableEq Block] [DecidableEq S₁] [DecidableEq S₂]

/-- The access does not make the second level evict a block. -/
def Contents.Keeps (H : Hierarchy Block S₁ S₂) (op : Op) (b : Block) (m : Contents Block S₁ S₂) :
    Prop :=
  m.lookup H b = .miss → Contents.fetches H op = true →
    evictee? H.ways₂ (m.order₂ (H.set₂ b)) = none

/-- Then it concerns the first-level set of its own block only. -/
theorem Contents.Keeps.access_order₁ {op : Op} (hk : m.Keeps H op b) :
    (m.access H op b).order₁ =
      if Resident H.set₁ m.order₁ b then useIn H.set₁ b m.order₁
      else if Contents.fetches H op = true then insertIn H.set₁ H.ways₁ b m.order₁
      else m.order₁ := by
  unfold Contents.Keeps at hk
  unfold Contents.access
  unfold Contents.lookup at hk ⊢
  by_cases hb₁ : Resident H.set₁ m.order₁ b
  · rw [if_pos hb₁, if_pos hb₁]
    rfl
  · simp only [if_neg hb₁] at hk ⊢
    by_cases hb₂ : Resident H.set₂ m.order₂ b
    · simp only [if_pos hb₂, Contents.hit₂]
      split
      · simp only [Contents.insert₁, Inclusive.evict₁_order₁, Contents.use₂]
      · rfl
    · simp only [if_neg hb₂, Contents.miss, forall_const] at hk ⊢
      split
      · rename_i hf
        simp only [Contents.insert₁, Inclusive.evict₁_order₁, Contents.insert₂, Contents.evict₂,
          hk hf]
      · rfl

theorem Contents.Keeps.access_resident₂ {op : Op} (hk : m.Keeps H op b) (hm : Inclusive H m)
    (c : Block) :
    Resident H.set₂ (m.access H op b).order₂ c ↔
      Resident H.set₂ m.order₂ c ∨ (c = b ∧ Contents.fetches H op = true) := by
  unfold Contents.Keeps at hk
  unfold Contents.access
  unfold Contents.lookup at hk ⊢
  by_cases hb₂ : Resident H.set₂ m.order₂ b
  · have hself : (Resident H.set₂ m.order₂ c ∨ (c = b ∧ Contents.fetches H op = true)) ↔
        Resident H.set₂ m.order₂ c := by
      refine or_iff_left_of_imp ?_
      rintro ⟨rfl, -⟩
      exact hb₂
    rw [hself]
    by_cases hb₁ : Resident H.set₁ m.order₁ b
    · rw [if_pos hb₁]
      rfl
    · simp only [if_neg hb₁, if_pos hb₂, Contents.hit₂]
      split
      · exact (hm.use₂ hb₂).insert₁_resident₂.trans (resident_useIn hb₂)
      · exact resident_useIn hb₂
  · have hb₁ : ¬Resident H.set₁ m.order₁ b := fun hb => hb₂ (hm.incl b hb)
    simp only [if_neg hb₁, if_neg hb₂, Contents.miss, forall_const] at hk ⊢
    split
    · rename_i hf
      rw [(hm.insert₂ hb₂).insert₁_resident₂, hm.insert₂_resident₂_iff, hk hf]
      simp [hf, or_comm]
    · rename_i hf
      simp [hf]

omit [DecidableEq Block] [DecidableEq S₂] in
theorem part_update {n : Nat} {order order' : S₁ → List Block}
    (h : ∀ s, PartOf n (order s) (order' s)) {s₀ : S₁} {l l' : List Block}
    (hl : PartOf n l l') (s : S₁) :
    PartOf n (Function.update order s₀ l s) (Function.update order' s₀ l' s) := by
  rcases eq_or_ne s s₀ with rfl | hs
  · rw [Function.update_self, Function.update_self]
    exact hl
  · rw [Function.update_of_ne hs, Function.update_of_ne hs]
    exact h s

/-- The first level after an access to `b`. -/
theorem Narrower.part_access (h : Narrower H m m') {op : Op} (hk : m.Keeps H op b)
    (hk' : m'.Keeps (H.widen ways hw) op b) :
    ∀ s, PartOf H.ways₁ ((m.access H op b).order₁ s)
      ((m'.access (H.widen ways hw) op b).order₁ s) := by
  have hpart := h.part (H.set₁ b)
  have hsets : (H.widen ways hw).set₁ = H.set₁ := rfl
  have hfetches : Contents.fetches (H.widen ways hw) op = Contents.fetches H op := rfl
  rw [hk.access_order₁, hk'.access_order₁, hsets, hfetches]
  by_cases hb : Resident H.set₁ m.order₁ b
  · rw [if_pos hb, if_pos (h.resident₁ hb)]
    exact part_update h.part (hpart.use hb)
  · rw [if_neg hb]
    by_cases hb' : Resident H.set₁ m'.order₁ b
    · rw [if_pos hb']
      split
      · exact part_update h.part (hpart.insert_left hb hb')
      · rw [← Function.update_eq_self (H.set₁ b) m.order₁]
        exact part_update h.part (hpart.use_right hb hb')
    · rw [if_neg hb']
      split
      · exact part_update h.part (hpart.insert hw)
      · exact h.part

/-- One access in both hierarchies. -/
theorem Narrower.access (h : Narrower H m m') {op : Op} (hm : Inclusive H m)
    (hm' : Inclusive (H.widen ways hw) m') (hk : m.Keeps H op b)
    (hk' : m'.Keeps (H.widen ways hw) op b) :
    Narrower H (m.access H op b) (m'.access (H.widen ways hw) op b) where
  part := h.part_access hk hk'
  resident₂ := fun c => by
    rw [hk.access_resident₂ hm c, h.resident₂ c]
    exact (hk'.access_resident₂ hm' c).symm

/-! ## Runs -/

/-- No access of the trace makes the second level evict a block. -/
def Contents.KeepsAll (H : Hierarchy Block S₁ S₂) : List (Op × Block) → Contents Block S₁ S₂ → Prop
  | [], _ => True
  | (op, b) :: rest, m => m.Keeps H op b ∧ KeepsAll H rest (m.access H op b)

/-- Every hit in the narrower first level is one in the wider. -/
theorem Narrower.run (accesses : List (Op × Block)) :
    ∀ {m m' : Contents Block S₁ S₂}, Narrower H m m' → Inclusive H m →
      Inclusive (H.widen ways hw) m' → m.KeepsAll H accesses →
      m'.KeepsAll (H.widen ways hw) accesses →
      List.Forall₂ (fun o o' => o = .l1Hit → o' = .l1Hit) (m.run H accesses).1
          (m'.run (H.widen ways hw) accesses).1 ∧
        Narrower H (m.run H accesses).2 (m'.run (H.widen ways hw) accesses).2 := by
  induction accesses with
  | nil => exact fun h _ _ _ _ => ⟨List.Forall₂.nil, h⟩
  | cons a rest ih =>
      intro m m' h hm hm' hk hk'
      obtain ⟨op, b⟩ := a
      obtain ⟨hhits, hlast⟩ := ih (h.access hm hm' hk.1 hk'.1) (hm.access op b)
        (hm'.access op b) hk.2 hk'.2
      refine ⟨List.Forall₂.cons ?_ hhits, hlast⟩
      intro hhit
      have hb : Resident H.set₁ m.order₁ b := by
        by_contra hb
        unfold Contents.lookup at hhit
        rw [if_neg hb] at hhit
        split at hhit <;> cases hhit
      exact if_pos (h.resident₁ hb)

theorem countP_le_of_forall₂ {α β : Type*} {p : α → Bool} {q : β → Bool} {l : List α}
    {l' : List β} (h : List.Forall₂ (fun a b => q b = true → p a = true) l l') :
    l'.countP q ≤ l.countP p := by
  induction h with
  | nil => exact Nat.le_refl 0
  | cons hab _ ih =>
      rw [List.countP_cons, List.countP_cons]
      refine Nat.add_le_add ih ?_
      split
      · rename_i hq
        exact Nat.le_of_eq (if_pos (hab hq)).symm
      · exact Nat.zero_le _

end ArchSim
