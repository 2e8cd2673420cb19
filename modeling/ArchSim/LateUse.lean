import ArchSim.StackProperty

/-!
# Late uses

A variant of the two-level hierarchy. When the second level serves an access,
the access counts there as the last use, after the write-back that it causes;
in `Contents.hit₂` it comes before that. And nothing is back-invalidated: the
run stops when the second level has to give up a block that the first level
still holds (`Strands`).

The two differ in the order of one set of the second level. So they find the
same blocks as long as the second level gives up none (`KeepsAll.runLate`),
and where nothing is written there is no write-back and no difference at all
(`runLate_of_reads`).
-/

namespace ArchSim

variable {Block S₁ S₂ : Type*} [DecidableEq Block] [DecidableEq S₁] [DecidableEq S₂]

namespace Contents

variable (H : Hierarchy Block S₁ S₂)

/-- An access to a block that only the second level holds. -/
def hit₂Late (op : Op) (b : Block) (m : Contents Block S₁ S₂) : Contents Block S₁ S₂ :=
  if fetches H op then (m.insert₁ H b (op == .write)).use₂ H b else m.writeBack H b

/-- One access. -/
def accessLate (op : Op) (b : Block) (m : Contents Block S₁ S₂) : Contents Block S₁ S₂ :=
  if m.lookup H b = .l2Hit then m.hit₂Late H op b else m.access H op b

/-- The access makes the second level give up a block that the first level
holds. -/
def Strands (op : Op) (b : Block) (m : Contents Block S₁ S₂) : Prop :=
  m.lookup H b = .miss ∧ fetches H op = true ∧
    ∃ v ∈ evictee? H.ways₂ (m.order₂ (H.set₂ b)), Resident H.set₁ m.order₁ v

instance (op : Op) (b : Block) (m : Contents Block S₁ S₂) : Decidable (m.Strands H op b) :=
  inferInstanceAs (Decidable (_ ∧ _))

/-- A trace of accesses, with the outcome of each, if none strands a block. -/
def runLate : List (Op × Block) → Contents Block S₁ S₂ →
    Option (List Outcome × Contents Block S₁ S₂)
  | [], m => some ([], m)
  | (op, b) :: rest, m =>
      if m.Strands H op b then none
      else (runLate rest (m.accessLate H op b)).map fun r => (m.lookup H b :: r.1, r.2)

end Contents

variable {H : Hierarchy Block S₁ S₂} {m m' : Contents Block S₁ S₂} {b : Block}

omit [DecidableEq S₁] [DecidableEq S₂] in
theorem lookup_eq_l2Hit :
    m.lookup H b = .l2Hit ↔ ¬Resident H.set₁ m.order₁ b ∧ Resident H.set₂ m.order₂ b := by
  unfold Contents.lookup
  split
  · simp [*]
  · split <;> simp [*]

/-- Late uses keep the levels inclusive as well. -/
theorem Inclusive.accessLate (h : Inclusive H m) (op : Op) (b : Block) :
    Inclusive H (m.accessLate H op b) := by
  unfold Contents.accessLate
  split
  · rename_i hhit
    obtain ⟨hb₁, hb₂⟩ := lookup_eq_l2Hit.mp hhit
    unfold Contents.hit₂Late
    split
    · exact (h.insert₁ hb₁ hb₂ _).use₂ (h.insert₁_resident₂.mpr hb₂)
    · exact h.writeBack hb₂
  · exact h.access op b

theorem Contents.length_runLate {accesses : List (Op × Block)} :
    ∀ {m : Contents Block S₁ S₂} {r : List Outcome × Contents Block S₁ S₂},
      m.runLate H accesses = some r → r.1.length = accesses.length := by
  induction accesses with
  | nil =>
      intro m r hr
      cases hr
      rfl
  | cons c rest ih =>
      intro m r hr
      by_cases hs : m.Strands H c.1 c.2
      · rw [runLate, if_pos hs] at hr
        exact absurd hr.symm (Option.some_ne_none r)
      · rw [runLate, if_neg hs] at hr
        obtain ⟨r', hr', rfl⟩ := Option.map_eq_some_iff.mp hr
        exact congrArg Nat.succ (ih hr')

/-- A run stops at the first access that strands a block. -/
theorem Contents.runLate_eq_none_iff {accesses : List (Op × Block)} :
    ∀ {m : Contents Block S₁ S₂}, m.runLate H accesses = none ↔
      ∃ pre a post r, accesses = pre ++ a :: post ∧ m.runLate H pre = some r ∧
        r.2.Strands H a.1 a.2 := by
  induction accesses with
  | nil =>
      intro m
      refine iff_of_false (Option.some_ne_none _) ?_
      rintro ⟨pre, a, post, r, hsplit, -⟩
      exact List.append_ne_nil_of_right_ne_nil _ (List.cons_ne_nil _ _) hsplit.symm
  | cons c rest ih =>
      intro m
      by_cases hs : m.Strands H c.1 c.2
      · exact iff_of_true (if_pos hs) ⟨[], c, rest, ([], m), rfl, rfl, hs⟩
      · rw [runLate, if_neg hs, Option.map_eq_none_iff, ih]
        constructor
        · rintro ⟨pre, a, post, r, rfl, hrun, hstr⟩
          refine ⟨c :: pre, a, post, (m.lookup H c.2 :: r.1, r.2), rfl, ?_, hstr⟩
          rw [runLate, if_neg hs, hrun, Option.map_some]
        · rintro ⟨pre, a, post, r, hsplit, hrun, hstr⟩
          cases pre with
          | nil =>
              cases hrun
              rw [← (List.cons.inj hsplit).1] at hstr
              exact absurd hstr hs
          | cons d pre =>
              obtain ⟨hc, hrest⟩ := List.cons.inj hsplit
              rw [← hc, runLate, if_neg hs] at hrun
              obtain ⟨r', hr', rfl⟩ := Option.map_eq_some_iff.mp hrun
              exact ⟨pre, a, post, r', hrest, hr', hstr⟩

/-! ## Where the second level gives up nothing -/

/-- The contents differ in the order of the second level only, and in its
dirty flags. -/
structure SameBlocks (m m' : Contents Block S₁ S₂) : Prop where
  order₁ : m'.order₁ = m.order₁
  dirty₁ : m'.dirty₁ = m.dirty₁
  order₂ : ∀ s, (m'.order₂ s).Perm (m.order₂ s)

omit [DecidableEq Block] [DecidableEq S₁] [DecidableEq S₂] in
theorem SameBlocks.refl (m : Contents Block S₁ S₂) : SameBlocks m m :=
  ⟨rfl, rfl, fun _ => List.Perm.refl _⟩

omit [DecidableEq S₁] in
theorem useIn_perm {order : S₂ → List Block} (hb : Resident H.set₂ order b) (s : S₂) :
    (useIn H.set₂ b order s).Perm (order s) := by
  unfold useIn
  by_cases hs : s = H.set₂ b
  · rw [hs, Function.update_self]
    exact (List.perm_cons_erase hb).symm
  · rw [Function.update_of_ne hs]

omit [DecidableEq S₁] in
/-- Room made in the first level reorders the second. -/
theorem Inclusive.evict₁_perm (h : Inclusive H m) (b : Block) (s : S₂) :
    ((m.evict₁ H b).order₂ s).Perm (m.order₂ s) := by
  unfold Contents.evict₁
  split
  · rename_i v hv
    split
    · exact useIn_perm (h.resident₂_of_evictee hv) s
    · exact List.Perm.refl _
  · exact List.Perm.refl _

namespace SameBlocks

omit [DecidableEq Block] [DecidableEq S₁] [DecidableEq S₂] in
theorem resident₂ (h : SameBlocks m m') :
    Resident H.set₂ m'.order₂ b ↔ Resident H.set₂ m.order₂ b :=
  (h.order₂ _).mem_iff

omit [DecidableEq S₁] [DecidableEq S₂] in
theorem lookup_eq (h : SameBlocks m m') : m'.lookup H b = m.lookup H b := by
  simp only [Contents.lookup, h.order₁, h.resident₂]

omit [DecidableEq S₂] in
theorem hit₁ (h : SameBlocks m m') (op : Op) (b : Block) :
    SameBlocks (m.hit₁ H op b) (m'.hit₁ H op b) where
  order₁ := by simp only [Contents.hit₁, h.order₁]
  dirty₁ := by simp only [Contents.hit₁, h.dirty₁]
  order₂ := h.order₂

/-- Early or late, the use only reorders. -/
theorem hit₂ (h : SameBlocks m m') (hm : Inclusive H m) (hm' : Inclusive H m') (op : Op)
    (hb₂ : Resident H.set₂ m.order₂ b) :
    SameBlocks (m.hit₂ H op b) (m'.hit₂Late H op b) := by
  have hb₂' : Resident H.set₂ m'.order₂ b := h.resident₂.mpr hb₂
  unfold Contents.hit₂ Contents.hit₂Late
  split
  · refine ⟨?_, ?_, fun s => ?_⟩
    · simp only [Contents.use₂, Contents.insert₁, Inclusive.evict₁_order₁, h.order₁]
    · simp only [Contents.use₂, Contents.insert₁, Inclusive.evict₁_dirty₁, h.dirty₁]
    · have hlate := (useIn_perm (hm'.evict₁_resident₂ (b := b).mpr hb₂') s).trans
        (hm'.evict₁_perm b s)
      have hearly := ((hm.use₂ hb₂).evict₁_perm b s).trans (useIn_perm hb₂ s)
      exact (hlate.trans (h.order₂ s)).trans hearly.symm
  · exact ⟨h.order₁, h.dirty₁, fun s =>
      ((useIn_perm hb₂' s).trans (h.order₂ s)).trans (useIn_perm hb₂ s).symm⟩

/-- With room in the second level a new block joins the others there. -/
theorem miss (h : SameBlocks m m') (hm : Inclusive H m) (hm' : Inclusive H m') (op : Op)
    (hb₂ : ¬Resident H.set₂ m.order₂ b)
    (hroom : Contents.fetches H op = true → evictee? H.ways₂ (m.order₂ (H.set₂ b)) = none) :
    SameBlocks (m.miss H op b) (m'.miss H op b) := by
  unfold Contents.miss
  split
  · rename_i hf
    have hev := hroom hf
    have hlen := (evictee?_eq_none_iff H.ways₂_pos).mp hev
    have hev' : evictee? H.ways₂ (m'.order₂ (H.set₂ b)) = none :=
      evictee?_of_lt (lt_of_eq_of_lt (h.order₂ _).length_eq hlen)
    have hins : ∀ s, ((m'.insert₂ H b).order₂ s).Perm ((m.insert₂ H b).order₂ s) := by
      intro s
      simp only [Contents.insert₂, Inclusive.evict₂_order₂, insertIn]
      by_cases hs : s = H.set₂ b
      · rw [hs, Function.update_self, Function.update_self, makeRoom_of_lt hlen,
          makeRoom_of_lt (lt_of_eq_of_lt (h.order₂ _).length_eq hlen)]
        exact (h.order₂ _).cons b
      · rw [Function.update_of_ne hs, Function.update_of_ne hs]
        exact h.order₂ s
    refine ⟨?_, ?_, fun s => ?_⟩
    · simp only [Contents.insert₁, Inclusive.evict₁_order₁, Contents.insert₂, Contents.evict₂, hev,
        hev', h.order₁]
    · simp only [Contents.insert₁, Inclusive.evict₁_dirty₁, Contents.insert₂, Contents.evict₂, hev,
        hev', h.dirty₁]
    · have hb₂' : ¬Resident H.set₂ m'.order₂ b := mt h.resident₂.mp hb₂
      exact (((hm'.insert₂ hb₂').evict₁_perm b s).trans (hins s)).trans
        ((hm.insert₂ hb₂).evict₁_perm b s).symm
  · exact h

/-- One access in both. -/
theorem access (h : SameBlocks m m') (hm : Inclusive H m) (hm' : Inclusive H m') {op : Op}
    (hk : m.Keeps H op b) :
    ¬m'.Strands H op b ∧ SameBlocks (m.access H op b) (m'.accessLate H op b) := by
  constructor
  · rintro ⟨hmiss, hf, v, hv, -⟩
    rw [h.lookup_eq] at hmiss
    have hlen := (evictee?_eq_none_iff H.ways₂_pos).mp (hk hmiss hf)
    rw [evictee?_of_lt (lt_of_eq_of_lt (h.order₂ _).length_eq hlen)] at hv
    exact absurd hv (Option.not_mem_none v)
  · unfold Contents.Keeps at hk
    rw [Contents.accessLate, h.lookup_eq]
    split
    · rename_i hhit
      rw [Contents.access, hhit]
      exact h.hit₂ hm hm' op (lookup_eq_l2Hit.mp hhit).2
    · unfold Contents.access
      rw [h.lookup_eq]
      unfold Contents.lookup at hk ⊢
      by_cases hb₁ : Resident H.set₁ m.order₁ b
      · simp only [if_pos hb₁]
        exact h.hit₁ op b
      · by_cases hb₂ : Resident H.set₂ m.order₂ b
        · exact absurd (lookup_eq_l2Hit.mpr ⟨hb₁, hb₂⟩) ‹_›
        · simp only [if_neg hb₁, if_neg hb₂, forall_const] at hk ⊢
          exact h.miss hm hm' op hb₂ hk

end SameBlocks

/-- While the second level gives up no block, late uses make no difference to
what is found. -/
theorem Contents.KeepsAll.runLate {accesses : List (Op × Block)} :
    ∀ {m m' : Contents Block S₁ S₂}, m.KeepsAll H accesses → SameBlocks m m' → Inclusive H m →
      Inclusive H m' →
      ∃ r, m'.runLate H accesses = some ((m.run H accesses).1, r) ∧
        SameBlocks (m.run H accesses).2 r := by
  induction accesses with
  | nil => exact fun _ h _ _ => ⟨_, rfl, h⟩
  | cons a rest ih =>
      intro m m' hk h hm hm'
      obtain ⟨op, b⟩ := a
      obtain ⟨hstay, hacc⟩ := h.access hm hm' hk.1
      obtain ⟨r, hrun, hr⟩ := ih hk.2 hacc (hm.access op b) (hm'.accessLate op b)
      refine ⟨r, ?_, hr⟩
      rw [Contents.runLate, if_neg hstay, hrun, Option.map_some, h.lookup_eq]
      exact rfl

/-! ## Where nothing is written -/

/-- The first level holds nothing to write back. -/
def Clean (m : Contents Block S₁ S₂) : Prop := ∀ b, m.dirty₁ b = false

omit [DecidableEq S₁] in
theorem Clean.evict₁ (h : Clean m) (b : Block) : m.evict₁ H b = m := by
  unfold Contents.evict₁
  split
  · rw [if_neg (by rw [h]; exact Bool.false_ne_true)]
  · exact rfl

theorem Clean.access (h : Clean m) (b : Block) : Clean (m.access H .read b) := by
  intro c
  have hins : ∀ {m' : Contents Block S₁ S₂}, Clean m' →
      (m'.insert₁ H b (Op.read == Op.write)).dirty₁ c = false := by
    intro m' hm'
    rw [Contents.insert₁, hm'.evict₁]
    dsimp only
    by_cases hc : c = b
    · rw [hc, Function.update_self]
      exact rfl
    · rw [Function.update_of_ne hc]
      exact hm' c
  unfold Contents.access
  split
  · exact h c
  · have huse : Clean (m.use₂ H b) := h
    exact hins huse
  · refine hins fun d => ?_
    unfold Contents.insert₂ Contents.evict₂
    dsimp only
    split <;> exact h d

theorem Clean.hit₂Late (h : Clean m) (b : Block) : m.hit₂Late H .read b = m.hit₂ H .read b := by
  have hf : Contents.fetches H .read = true := rfl
  have huse : Clean (m.use₂ H b) := h
  rw [Contents.hit₂Late, Contents.hit₂, if_pos hf, if_pos hf, Contents.insert₁, Contents.insert₁,
    h.evict₁, huse.evict₁]
  rfl

theorem Clean.accessLate (h : Clean m) (b : Block) :
    m.accessLate H .read b = m.access H .read b := by
  unfold Contents.accessLate
  split
  · rename_i hhit
    rw [h.hit₂Late, Contents.access, hhit]
  · rfl

/-- A trace of reads runs as without the lateness, unless it strands a block. -/
theorem runLate_of_reads {accesses : List (Op × Block)} :
    ∀ {m : Contents Block S₁ S₂}, (∀ a ∈ accesses, a.1 = .read) → Clean m →
      ((∃ pre a post, accesses = pre ++ a :: post ∧ (m.run H pre).2.Strands H a.1 a.2) ∧
          m.runLate H accesses = none) ∨
        ((∀ pre a post, accesses = pre ++ a :: post → ¬(m.run H pre).2.Strands H a.1 a.2) ∧
          m.runLate H accesses = some (m.run H accesses)) := by
  induction accesses with
  | nil =>
      intro m _ _
      refine Or.inr ⟨fun pre a post hnil => ?_, rfl⟩
      exact absurd hnil.symm (List.append_ne_nil_of_right_ne_nil _ (List.cons_ne_nil _ _))
  | cons a rest ih =>
      intro m hreads hclean
      obtain ⟨op, b⟩ := a
      obtain rfl : op = .read := hreads _ (List.mem_cons_self ..)
      by_cases hs : m.Strands H .read b
      · exact Or.inl ⟨⟨[], (.read, b), rest, rfl, hs⟩, if_pos hs⟩
      · have hlate : m.runLate H ((.read, b) :: rest) =
            ((m.access H .read b).runLate H rest).map fun r => (m.lookup H b :: r.1, r.2) := by
          rw [Contents.runLate, if_neg hs, hclean.accessLate]
        rw [hlate]
        rcases ih (fun a ha => hreads a (List.mem_cons_of_mem _ ha)) (hclean.access b) with
          ⟨⟨pre, a, post, hsplit, hstr⟩, hnone⟩ | ⟨hstay, hsome⟩
        · refine Or.inl ⟨⟨(.read, b) :: pre, a, post, by rw [hsplit]; exact rfl, hstr⟩, ?_⟩
          rw [hnone]
          exact rfl
        · refine Or.inr ⟨fun pre a post hsplit => ?_, ?_⟩
          · cases pre with
            | nil =>
                obtain ⟨rfl, -⟩ := List.cons.inj hsplit
                exact hs
            | cons c pre =>
                obtain ⟨hc, hsplit⟩ := List.cons.inj hsplit
                rw [← hc]
                exact hstay pre a post hsplit
          · rw [hsome]
            exact rfl

end ArchSim
