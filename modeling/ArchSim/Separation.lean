import ArchSim.Hierarchy

/-!
# Classes of blocks that do not meet

Where the blocks fall into classes such that no set of either level holds
blocks of two of them, evictions, write-backs and back-invalidations stay in
the class of the access that causes them. A class therefore sees the same
hits and misses as if the other accesses had not been made (`run_filter`).
-/

namespace ArchSim

/-- A division of the blocks that the sets of both levels respect. -/
structure Classes {Block S₁ S₂ : Type*} (H : Hierarchy Block S₁ S₂) (R : Type*) where
  of : Block → R
  of₁ : S₁ → R
  of₂ : S₂ → R
  of₁_set : ∀ b, of₁ (H.set₁ b) = of b
  of₂_set : ∀ b, of₂ (H.set₂ b) = of b

variable {Block S₁ S₂ R : Type*} {H : Hierarchy Block S₁ S₂} {C : Classes H R}
  {r : R} {m m' m'' : Contents Block S₁ S₂} {b : Block}

/-- The contents agree on the sets and blocks of class `r`. -/
structure AgreeIn (C : Classes H R) (r : R) (m m' : Contents Block S₁ S₂) : Prop where
  order₁ : ∀ s, C.of₁ s = r → m.order₁ s = m'.order₁ s
  order₂ : ∀ s, C.of₂ s = r → m.order₂ s = m'.order₂ s
  dirty₁ : ∀ b, C.of b = r → m.dirty₁ b = m'.dirty₁ b
  dirty₂ : ∀ b, C.of b = r → m.dirty₂ b = m'.dirty₂ b

namespace AgreeIn

theorem refl (C : Classes H R) (r : R) (m : Contents Block S₁ S₂) : AgreeIn C r m m :=
  ⟨fun _ _ => rfl, fun _ _ => rfl, fun _ _ => rfl, fun _ _ => rfl⟩

theorem trans (h : AgreeIn C r m m') (h' : AgreeIn C r m' m'') : AgreeIn C r m m'' :=
  ⟨fun s hs => (h.order₁ s hs).trans (h'.order₁ s hs),
    fun s hs => (h.order₂ s hs).trans (h'.order₂ s hs),
    fun b hb => (h.dirty₁ b hb).trans (h'.dirty₁ b hb),
    fun b hb => (h.dirty₂ b hb).trans (h'.dirty₂ b hb)⟩

end AgreeIn

/-- A block in the first-level set of `b` is of the class of `b`. -/
theorem Classes.of_evictee₁ (h : Lists H.set₁ H.ways₁ m.order₁) {v : Block}
    (hv : evictee? H.ways₁ (m.order₁ (H.set₁ b)) = some v) : C.of v = C.of b := by
  rw [← C.of₁_set, h.set_eq _ v (mem_of_evictee? hv), C.of₁_set]

theorem Classes.of_evictee₂ (h : Lists H.set₂ H.ways₂ m.order₂) {v : Block}
    (hv : evictee? H.ways₂ (m.order₂ (H.set₂ b)) = some v) : C.of v = C.of b := by
  rw [← C.of₂_set, h.set_eq _ v (mem_of_evictee? hv), C.of₂_set]

/-! ## Updates of one place -/

section Update

variable {α β : Type*} [DecidableEq α] {P : α → Prop} {f g : α → β} {a : α} {x y : β}

/-- Two functions that agree on `P` still do when both get one new value. -/
theorem update_agree (h : ∀ i, P i → f i = g i) (hxy : P a → x = y) :
    ∀ i, P i → Function.update f a x i = Function.update g a y i := by
  intro i hi
  rcases eq_or_ne i a with rfl | hne
  · rw [Function.update_self, Function.update_self, hxy hi]
  · rw [Function.update_of_ne hne, Function.update_of_ne hne, h i hi]

/-- An update outside of `P`. -/
theorem update_outside (f : α → β) (x : β) (ha : ¬P a) :
    ∀ i, P i → Function.update f a x i = f i := by
  intro i hi
  have hne : i ≠ a := fun heq => ha (heq ▸ hi)
  exact Function.update_of_ne hne ..

end Update

variable [DecidableEq Block] [DecidableEq S₁] [DecidableEq S₂]

/-! ## Accesses of another class -/

section Other

variable (hr : C.of b ≠ r)

include hr

omit [DecidableEq S₁] in
theorem use₂_other (m : Contents Block S₁ S₂) : AgreeIn C r (m.use₂ H b) m :=
  ⟨fun _ _ => rfl, update_outside _ _ fun hs => hr ((C.of₂_set b).symm.trans hs),
    fun _ _ => rfl, fun _ _ => rfl⟩

omit [DecidableEq S₁] in
theorem writeBack_other (m : Contents Block S₁ S₂) : AgreeIn C r (m.writeBack H b) m :=
  ⟨fun _ _ => rfl, (use₂_other hr m).order₂, fun _ _ => rfl, update_outside _ _ hr⟩

omit [DecidableEq S₁] in
theorem evict₁_other (h : Lists H.set₁ H.ways₁ m.order₁) : AgreeIn C r (m.evict₁ H b) m := by
  unfold Contents.evict₁
  split
  · rename_i v hv
    split
    · exact writeBack_other (fun hvr => hr ((Classes.of_evictee₁ h hv).symm.trans hvr)) m
    · exact AgreeIn.refl C r m
  · exact AgreeIn.refl C r m

theorem insert₁_other (h : Lists H.set₁ H.ways₁ m.order₁) (dirty : Bool) :
    AgreeIn C r (m.insert₁ H b dirty) m := by
  have hset : C.of₁ (H.set₁ b) ≠ r := fun hs => hr ((C.of₁_set b).symm.trans hs)
  have hinsert : AgreeIn C r (m.insert₁ H b dirty) (m.evict₁ H b) :=
    ⟨update_outside _ _ hset, fun _ _ => rfl, update_outside _ _ hr, fun _ _ => rfl⟩
  exact hinsert.trans (evict₁_other hr h)

omit [DecidableEq S₂] in
theorem evict₂_other (h : Lists H.set₂ H.ways₂ m.order₂) : AgreeIn C r (m.evict₂ H b) m := by
  unfold Contents.evict₂
  split
  · rename_i v hv
    have hvr : C.of v ≠ r := fun hvr => hr ((Classes.of_evictee₂ h hv).symm.trans hvr)
    exact ⟨update_outside _ _ fun hs => hvr ((C.of₁_set v).symm.trans hs), fun _ _ => rfl,
      fun _ _ => rfl, fun _ _ => rfl⟩
  · exact AgreeIn.refl C r m

theorem insert₂_other (h : Lists H.set₂ H.ways₂ m.order₂) : AgreeIn C r (m.insert₂ H b) m := by
  have hset : C.of₂ (H.set₂ b) ≠ r := fun hs => hr ((C.of₂_set b).symm.trans hs)
  have hinsert : AgreeIn C r (m.insert₂ H b) (m.evict₂ H b) :=
    ⟨fun _ _ => rfl, update_outside _ _ hset, fun _ _ => rfl, update_outside _ _ hr⟩
  exact hinsert.trans (evict₂_other hr h)

omit [DecidableEq S₂] in
theorem hit₁_other (op : Op) (m : Contents Block S₁ S₂) : AgreeIn C r (m.hit₁ H op b) m := by
  refine ⟨update_outside _ _ fun hs => hr ((C.of₁_set b).symm.trans hs), fun _ _ => rfl, ?_,
    fun _ _ => rfl⟩
  simp only [Contents.hit₁]
  split
  · exact update_outside _ _ hr
  · exact fun _ _ => rfl

/-- An access of another class leaves class `r` alone. -/
theorem access_other (h : Inclusive H m) (op : Op) : AgreeIn C r (m.access H op b) m := by
  unfold Contents.access Contents.lookup
  by_cases hb₁ : Resident H.set₁ m.order₁ b
  · simp only [if_pos hb₁]
    exact hit₁_other hr op m
  · by_cases hb₂ : Resident H.set₂ m.order₂ b
    · simp only [if_neg hb₁, if_pos hb₂, Contents.hit₂]
      split
      · exact (insert₁_other hr (h.use₂ hb₂).lists₁ _).trans (use₂_other hr m)
      · exact writeBack_other hr m
    · simp only [if_neg hb₁, if_neg hb₂, Contents.miss]
      split
      · exact (insert₁_other hr (h.insert₂ hb₂).lists₁ _).trans (insert₂_other hr h.lists₂)
      · exact AgreeIn.refl C r m

end Other

/-! ## Accesses of the class -/

section Same

variable (hr : C.of b = r)

include hr

omit [DecidableEq Block] [DecidableEq S₁] [DecidableEq S₂] in
theorem AgreeIn.at₁ (h : AgreeIn C r m m') : m.order₁ (H.set₁ b) = m'.order₁ (H.set₁ b) :=
  h.order₁ _ ((C.of₁_set b).trans hr)

omit [DecidableEq Block] [DecidableEq S₁] [DecidableEq S₂] in
theorem AgreeIn.at₂ (h : AgreeIn C r m m') : m.order₂ (H.set₂ b) = m'.order₂ (H.set₂ b) :=
  h.order₂ _ ((C.of₂_set b).trans hr)

omit [DecidableEq Block] [DecidableEq S₁] [DecidableEq S₂] in
theorem AgreeIn.resident₁ (h : AgreeIn C r m m') :
    Resident H.set₁ m.order₁ b ↔ Resident H.set₁ m'.order₁ b := by
  rw [Resident, Resident, h.at₁ hr]

omit [DecidableEq Block] [DecidableEq S₁] [DecidableEq S₂] in
theorem AgreeIn.resident₂ (h : AgreeIn C r m m') :
    Resident H.set₂ m.order₂ b ↔ Resident H.set₂ m'.order₂ b := by
  rw [Resident, Resident, h.at₂ hr]

omit [DecidableEq S₁] [DecidableEq S₂] in
theorem AgreeIn.lookup (h : AgreeIn C r m m') : m.lookup H b = m'.lookup H b := by
  simp only [Contents.lookup, h.resident₁ hr, h.resident₂ hr]

omit [DecidableEq S₁] in
theorem AgreeIn.use₂ (h : AgreeIn C r m m') : AgreeIn C r (m.use₂ H b) (m'.use₂ H b) := by
  refine ⟨h.order₁, update_agree h.order₂ fun _ => ?_, h.dirty₁, h.dirty₂⟩
  rw [h.at₂ hr]

omit [DecidableEq S₁] in
theorem AgreeIn.writeBack (h : AgreeIn C r m m') :
    AgreeIn C r (m.writeBack H b) (m'.writeBack H b) :=
  ⟨h.order₁, (h.use₂ hr).order₂, h.dirty₁, update_agree h.dirty₂ fun _ => rfl⟩

omit [DecidableEq S₁] in
theorem AgreeIn.evict₁ (h : AgreeIn C r m m') (hm : Lists H.set₁ H.ways₁ m.order₁) :
    AgreeIn C r (m.evict₁ H b) (m'.evict₁ H b) := by
  unfold Contents.evict₁
  rw [← h.at₁ hr]
  cases hv : evictee? H.ways₁ (m.order₁ (H.set₁ b)) with
  | none => exact h
  | some v =>
      have hvr : C.of v = r := (Classes.of_evictee₁ hm hv).trans hr
      simp only [← h.dirty₁ v hvr]
      split
      · exact h.writeBack hvr
      · exact h

theorem AgreeIn.insert₁ (h : AgreeIn C r m m') (hm : Lists H.set₁ H.ways₁ m.order₁)
    (dirty : Bool) : AgreeIn C r (m.insert₁ H b dirty) (m'.insert₁ H b dirty) := by
  have hevict := h.evict₁ hr hm
  refine ⟨update_agree hevict.order₁ fun _ => ?_, hevict.order₂,
    update_agree hevict.dirty₁ fun _ => rfl, hevict.dirty₂⟩
  rw [hevict.at₁ hr]

omit [DecidableEq S₂] in
theorem AgreeIn.evict₂ (h : AgreeIn C r m m') (hm : Lists H.set₂ H.ways₂ m.order₂) :
    AgreeIn C r (m.evict₂ H b) (m'.evict₂ H b) := by
  unfold Contents.evict₂
  rw [← h.at₂ hr]
  cases hv : evictee? H.ways₂ (m.order₂ (H.set₂ b)) with
  | none => exact h
  | some v =>
      have hvr : C.of v = r := (Classes.of_evictee₂ hm hv).trans hr
      refine ⟨update_agree h.order₁ fun _ => ?_, h.order₂, h.dirty₁, h.dirty₂⟩
      rw [h.at₁ hvr]

theorem AgreeIn.insert₂ (h : AgreeIn C r m m') (hm : Lists H.set₂ H.ways₂ m.order₂) :
    AgreeIn C r (m.insert₂ H b) (m'.insert₂ H b) := by
  have hevict := h.evict₂ hr hm
  refine ⟨hevict.order₁, update_agree hevict.order₂ fun _ => ?_, hevict.dirty₁,
    update_agree hevict.dirty₂ fun _ => rfl⟩
  rw [hevict.at₂ hr]

omit [DecidableEq S₂] in
theorem AgreeIn.hit₁ (h : AgreeIn C r m m') (op : Op) :
    AgreeIn C r (m.hit₁ H op b) (m'.hit₁ H op b) := by
  refine ⟨update_agree h.order₁ fun _ => ?_, h.order₂, ?_, h.dirty₂⟩
  · rw [h.at₁ hr]
  · simp only [Contents.hit₁]
    split
    · exact update_agree h.dirty₁ fun _ => rfl
    · exact h.dirty₁

/-- An access of class `r` does the same to contents that agree there. -/
theorem AgreeIn.access (h : AgreeIn C r m m') (hm : Inclusive H m) (op : Op) :
    AgreeIn C r (m.access H op b) (m'.access H op b) := by
  have hlookup := h.lookup hr
  unfold Contents.access
  rw [← hlookup]
  unfold Contents.lookup
  by_cases hb₁ : Resident H.set₁ m.order₁ b
  · simp only [if_pos hb₁]
    exact h.hit₁ hr op
  · by_cases hb₂ : Resident H.set₂ m.order₂ b
    · simp only [if_neg hb₁, if_pos hb₂, Contents.hit₂]
      split
      · exact (h.use₂ hr).insert₁ hr hm.lists₁ _
      · exact h.writeBack hr
    · simp only [if_neg hb₁, if_neg hb₂, Contents.miss]
      split
      · exact (h.insert₂ hr hm.lists₂).insert₁ hr (hm.insert₂ hb₂).lists₁ _
      · exact h

omit [DecidableEq Block] [DecidableEq S₁] [DecidableEq S₂] in
theorem AgreeIn.writeBacks (h : AgreeIn C r m m') (hm : Lists H.set₁ H.ways₁ m.order₁) :
    m.writeBacks H b = m'.writeBacks H b := by
  unfold Contents.writeBacks
  rw [← h.at₁ hr]
  cases hv : evictee? H.ways₁ (m.order₁ (H.set₁ b)) with
  | none => rfl
  | some v => simp only [h.dirty₁ v ((Classes.of_evictee₁ hm hv).trans hr)]

theorem AgreeIn.updates (h : AgreeIn C r m m') (hm : Inclusive H m) (op : Op) :
    m.updates H op b = m'.updates H op b := by
  have hlookup := h.lookup hr
  unfold Contents.updates
  rw [← hlookup]
  unfold Contents.lookup
  by_cases hb₁ : Resident H.set₁ m.order₁ b
  · simp only [if_pos hb₁]
  · by_cases hb₂ : Resident H.set₂ m.order₂ b
    · simp only [if_neg hb₁, if_pos hb₂, h.writeBacks hr hm.lists₁]
    · simp only [if_neg hb₁, if_neg hb₂,
        (h.insert₂ hr hm.lists₂).writeBacks hr (hm.insert₂ hb₂).lists₁]

end Same

/-! ## Runs -/

variable [DecidableEq R]

/-- The accesses of class `r` with their outcomes are the run of these
accesses alone. -/
theorem run_filter (C : Classes H R) (r : R) : ∀ (accesses : List (Op × Block))
    {m m' : Contents Block S₁ S₂}, AgreeIn C r m m' → Inclusive H m →
      (accesses.filter fun a => C.of a.2 = r).zip
          (m'.run H (accesses.filter fun a => C.of a.2 = r)).1 =
        (accesses.zip (m.run H accesses).1).filter fun x => C.of x.1.2 = r
  | [], _, _, _, _ => rfl
  | (op, b) :: rest, m, m', h, hm => by
      by_cases hb : C.of b = r
      · have ih := run_filter C r rest (h.access hb hm op) (hm.access op b)
        rw [List.filter_cons_of_pos (by simpa using hb)]
        simp only [Contents.run, List.zip_cons_cons]
        rw [List.filter_cons_of_pos (by simpa using hb), ih, h.lookup hb]
      · have ih := run_filter C r rest ((access_other hb hm op).trans h) (hm.access op b)
        rw [List.filter_cons_of_neg (by simpa using hb)]
        simp only [Contents.run, List.zip_cons_cons]
        rw [List.filter_cons_of_neg (by simpa using hb), ih]

theorem totalUpdates_filter_le (C : Classes H R) (r : R) : ∀ (accesses : List (Op × Block))
    {m m' : Contents Block S₁ S₂}, AgreeIn C r m m' → Inclusive H m →
      m'.totalUpdates H (accesses.filter fun a => C.of a.2 = r) ≤ m.totalUpdates H accesses
  | [], _, _, _, _ => Nat.le_refl _
  | (op, b) :: rest, m, m', h, hm => by
      by_cases hb : C.of b = r
      · have ih := totalUpdates_filter_le C r rest (h.access hb hm op) (hm.access op b)
        rw [List.filter_cons_of_pos (by simpa using hb)]
        simp only [Contents.totalUpdates, ← h.updates hb hm op]
        exact Nat.add_le_add_left ih _
      · have ih := totalUpdates_filter_le C r rest ((access_other hb hm op).trans h)
          (hm.access op b)
        rw [List.filter_cons_of_neg (by simpa using hb)]
        exact Nat.le_trans ih (Nat.le_add_left ..)

/-- Lists with the same elements of every class have the same elements. -/
theorem perm_of_filter_eq {α : Type*} {f : α → R} {l l' : List α}
    (h : ∀ r, (l.filter fun x => f x = r) = l'.filter fun x => f x = r) : l.Perm l' := by
  classical
  refine List.perm_iff_count.mpr fun x => ?_
  have hcount : ∀ k : List α, (k.filter fun y => f y = f x).count x = k.count x := fun k =>
    List.count_filter (by simp)
  rw [← hcount l, h, hcount]

end ArchSim
