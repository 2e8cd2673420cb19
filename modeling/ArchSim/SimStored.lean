import ArchSim.SimLoad

/-!
# What is stored of an image

A segment is lost if the loop over another block reads its `@` line, and one is
loaded for another thread if the loop over data lines has read its `T` line.
`Separated` says that neither happens, and that is so exactly when every block
that has instructions is stored for its thread, and every block of data.
-/

namespace ArchSim

namespace SimApi

open CString MtCore

/-! ## What is stored -/

/-- The blocks of instructions that are stored, with the threads they are
stored for. -/
def storedCodes : List Loading → List (Option Nat × Code)
  | [] => []
  | .code tid c :: l => if c.lines.isEmpty then storedCodes l else (tid, c) :: storedCodes l
  | .data _ _ :: l => storedCodes l

/-- The blocks of data that are stored. -/
def storedDatas : List Loading → List (BitVec 32 × List (BitVec 32))
  | [] => []
  | .code _ _ :: l => storedDatas l
  | .data start words :: l => (start, words) :: storedDatas l

section

variable {t : Nat} {c : Code}

theorem apply_code_of_nil (tid : Option Nat) (hc : c.lines.isEmpty = true) (s : MemSim) :
    ((Loading.code tid c).apply s).instructions = s.instructions := by
  cases tid with
  | none => rfl
  | some t =>
      rw [Loading.apply, List.isEmpty_iff.mp hc, List.map_nil, overwrite_nil]
      exact Function.update_eq_self ..

/-- The instructions of a thread for which nothing is stored stay as they
are. -/
theorem loadAll_instructions_of_not_mem (l : List Loading) : ∀ (s : MemSim),
    some t ∉ (storedCodes l).map Prod.fst → (loadAll l s).instructions t = s.instructions t := by
  induction l with
  | nil => exact fun s _ => rfl
  | cons x l ih =>
      intro s hnot
      cases x with
      | data start words => exact ih _ hnot
      | code tid c =>
          cases hc : c.lines.isEmpty with
          | true =>
              rw [storedCodes, if_pos hc] at hnot
              refine (ih _ hnot).trans ?_
              rw [apply_code_of_nil tid hc]
          | false =>
              rw [storedCodes, hc, if_neg Bool.false_ne_true, List.map_cons, List.mem_cons,
                not_or] at hnot
              refine (ih _ hnot.2).trans ?_
              cases tid with
              | none => rfl
              | some u => exact Function.update_of_ne (fun h => hnot.1 (congrArg some h)) ..

theorem loadAll_instructions (l : List Loading) : ∀ (s : MemSim),
    ((storedCodes l).map Prod.fst).Nodup → (some t, c) ∈ storedCodes l →
    (loadAll l s).instructions t =
      overwrite (c.lines.map fun l inst => l.line.read inst) 0 (s.instructions t) := by
  induction l with
  | nil => exact fun s _ hmem => absurd hmem List.not_mem_nil
  | cons x l ih =>
      intro s hnodup hmem
      cases x with
      | data start words => exact ih _ hnodup hmem
      | code tid c' =>
          cases hc : c'.lines.isEmpty with
          | true =>
              rw [storedCodes, if_pos hc] at hnodup hmem
              refine (ih _ hnodup hmem).trans ?_
              rw [apply_code_of_nil tid hc]
          | false =>
              rw [storedCodes, hc, if_neg Bool.false_ne_true] at hnodup hmem
              obtain ⟨hnotin, hnodup⟩ := List.nodup_cons.mp hnodup
              rcases List.mem_cons.mp hmem with heq | hmem
              · obtain ⟨rfl, rfl⟩ := Prod.mk.inj heq
                exact (loadAll_instructions_of_not_mem l _ hnotin).trans
                  (Function.update_self ..)
              · have hne : some t ≠ tid := fun h => hnotin (List.mem_map.mpr ⟨_, hmem, h⟩)
                refine (ih _ hnodup hmem).trans ?_
                cases tid with
                | none => rfl
                | some u =>
                    have hut : t ≠ u := fun h => hne (congrArg some h)
                    exact congrArg _ (Function.update_of_ne hut ..)

/-- Word `k` of the last block that is long enough. -/
def lastWord (blocks : List (BitVec 32 × List (BitVec 32))) (k : Nat) : Option (BitVec 32) :=
  blocks.reverse.findSome? fun b => b.2[k]?

theorem lastWord_cons (b : BitVec 32 × List (BitVec 32))
    (blocks : List (BitVec 32 × List (BitVec 32))) (k : Nat) :
    lastWord (b :: blocks) k = (lastWord blocks k).or b.2[k]? := by
  rw [lastWord, List.reverse_cons, List.findSome?_append, List.findSome?_singleton]
  rfl

/-- The address is that of the last block, and each word is the one of the last
block that is long enough. -/
theorem loadAll_data (l : List Loading) : ∀ (s : MemSim),
    (loadAll l s).dataStart = ((storedDatas l).getLast?.map Prod.fst).getD s.dataStart ∧
      ∀ k, (loadAll l s).data k = (lastWord (storedDatas l) k).getD (s.data k) := by
  induction l with
  | nil => exact fun s => ⟨rfl, fun k => rfl⟩
  | cons x l ih =>
      intro s
      obtain ⟨hstart, hdata⟩ := ih (x.apply s)
      cases x with
      | code tid c =>
          have hsame : ((Loading.code tid c).apply s).dataStart = s.dataStart ∧
              ((Loading.code tid c).apply s).data = s.data := by
            cases tid <;> exact ⟨rfl, rfl⟩
          rw [hsame.1] at hstart
          rw [hsame.2] at hdata
          exact ⟨hstart, hdata⟩
      | data start words =>
          refine ⟨hstart.trans ?_, fun k => (hdata k).trans ?_⟩
          · rw [storedDatas, List.getLast?_cons]
            cases (storedDatas l).getLast? <;> rfl
          · have hword : ((Loading.data start words).apply s).data k =
                words[k]?.getD (s.data k) := by
              show overwrite _ 0 s.data k = _
              rw [overwrite, if_pos (Nat.zero_le k), Nat.sub_zero, List.getElem?_map]
              cases words[k]? <;> rfl
            rw [hword, storedDatas, lastWord_cons]
            cases lastWord (storedDatas l) k <;> rfl

-- Behind a second block that is shorter, words of the first one stay.
example : lastWord [(0, [1, 5]), (256, [2])] 1 = some 5 := rfl

theorem loadAll_settings (l : List Loading) : ∀ (s : MemSim),
    (loadAll l s).settings = s.settings ∧ (loadAll l s).threadnumber = s.threadnumber := by
  induction l with
  | nil => exact fun s => ⟨rfl, rfl⟩
  | cons x l ih =>
      intro s
      obtain ⟨hset, hnum⟩ := ih (x.apply s)
      cases x with
      | code tid c => cases tid <;> exact ⟨hset, hnum⟩
      | data start words => exact ⟨hset, hnum⟩

end

/-! ## When nothing is lost -/

/-- From here on nothing is lost. `tid` is the thread of the last `T` line that
the loop which looks for blocks has read, `meant` that of the last one. Behind
instructions there is an empty or comment line or nothing. Behind data words
blank lines and `T` lines are taken for words, for which there has to be room,
and an `I@` line is lost, which does not matter if it has no instructions. -/
def SeparatedFrom : List Item → Mode → (tid meant : Option Nat) → Prop
  | [], .look, _, _ => True
  | [], .code, _, _ => True
  | [], .data _ words, _, _ => words.length ≤ dataSize
  | .gap _ _ :: rest, .look, tid, meant => SeparatedFrom rest .look tid meant
  | .thread t _ _ :: rest, .look, _, _ =>
      SeparatedFrom rest .look (some t.number.value) (some t.number.value)
  | .code c :: rest, .look, tid, meant =>
      (if c.lines.isEmpty then rest ≠ [] else tid = meant) ∧ SeparatedFrom rest .code tid meant
  | .data d :: rest, .look, tid, meant =>
      SeparatedFrom rest (.data d.address.value (d.words.map Word.value)) tid meant
  | .gap text _ :: rest, .code, tid, meant =>
      isBlank text = false ∧ SeparatedFrom rest .look tid meant
  | .thread _ _ _ :: _, .code, _, _ => False
  | .code _ :: _, .code, _, _ => False
  | .data _ :: _, .code, _, _ => False
  | .gap text _ :: rest, .data start words, tid, meant =>
      if isBlank text then SeparatedFrom rest (.data start (words ++ [0])) tid meant
      else words.length ≤ dataSize ∧ SeparatedFrom rest .look tid meant
  | .thread t _ _ :: rest, .data start words, tid, _ =>
      SeparatedFrom rest (.data start (words ++ [0])) tid (some t.number.value)
  | .code c :: rest, .data _ words, tid, meant =>
      c.lines = [] ∧ words.length ≤ dataSize ∧ SeparatedFrom rest .look tid meant
  | .data _ :: _, .data _ _, _, _ => False

/-- No segment is lost. -/
def Separated (items : List Item) : Prop := SeparatedFrom items .look none none

/-- The blocks of instructions that are meant to be stored. -/
def meantCodes (meant : Option Nat) (items : List Item) : List (Option Nat × Code) :=
  (codes meant items).filter fun p => !p.2.lines.isEmpty

/-- The block of data that is being read. -/
def Mode.pending : Mode → List (BitVec 32 × List (BitVec 32))
  | .data start words => [(start, words)]
  | _ => []

/-- The blocks of data that are meant to be stored. -/
def meantDatas (mode : Mode) (items : List Item) : List (BitVec 32 × List (BitVec 32)) :=
  mode.pending ++ (datas items).map fun d => (d.address.value, d.words.map Word.value)

theorem meantCodes_code (meant : Option Nat) (c : Code) (rest : List Item) :
    meantCodes meant (.code c :: rest) =
      if c.lines.isEmpty then meantCodes meant rest else (meant, c) :: meantCodes meant rest := by
  show ((meant, c) :: codes meant rest).filter _ = _
  rw [List.filter_cons, meantCodes]
  cases c.lines.isEmpty <;> rfl

theorem length_meantDatas (mode : Mode) (items : List Item) :
    (meantDatas mode items).length = mode.pending.length + (datas items).length := by
  rw [meantDatas, List.length_append, List.length_map]

/-- A block of data is stored, perhaps with zeros behind it. -/
def Extends (b b' : BitVec 32 × List (BitVec 32)) : Prop :=
  b'.1 = b.1 ∧ ∃ m, b'.2 = b.2 ++ List.replicate m 0

theorem Extends.refl (b : BitVec 32 × List (BitVec 32)) : Extends b b :=
  ⟨rfl, 0, (List.append_nil _).symm⟩

/-- The blocks of instructions have threads, and room. -/
def HasRoom (n : Nat) (meant : Option Nat) (items : List Item) : Prop :=
  ∀ p ∈ codes meant items, (∃ t < n, p.1 = some t) ∧ p.2.lines.length ≤ instSlots

/-- If nothing is lost of these items then all of them are stored, as the
induction over the items has it. -/
def Stores (n : Nat) (items : List Item) : Prop :=
  ∀ (mode : Mode) {tid meant : Option Nat}, HasRoom n meant items →
    SeparatedFrom items mode tid meant →
    ∃ l, readItems n items mode tid = some l ∧ storedCodes l = meantCodes meant items ∧
      List.Forall₂ Extends (meantDatas mode items) (storedDatas l)

section

variable {n : Nat} {x : Item} {rest : List Item} {tid meant : Option Nat}

/-- The loop that looks for blocks begins with an item. -/
theorem stores_look_item (ih : Stores n rest) (hroom : HasRoom n meant (x :: rest))
    (hsep : SeparatedFrom (x :: rest) .look tid meant) :
    ∃ l, readItems n (x :: rest) .look tid = some l ∧ storedCodes l = meantCodes meant (x :: rest) ∧
      List.Forall₂ Extends (meantDatas .look (x :: rest)) (storedDatas l) := by
  cases x with
  | gap text h => exact ih .look hroom hsep
  | thread t more h => exact ih .look hroom hsep
  | code c =>
      obtain ⟨hc, hsep⟩ := hsep
      obtain ⟨l, hread, hstored, hdatas⟩ :=
        ih .code (fun p hp => hroom p (List.mem_cons_of_mem _ hp)) hsep
      obtain ⟨⟨t, ht, hmeant⟩, hshort⟩ := hroom (meant, c) (List.mem_cons_self ..)
      have hstores : c.stores n tid rest.isEmpty = true := by
        unfold Code.stores
        split
        · rename_i hempty
          rw [if_pos hempty] at hc
          rw [List.isEmpty_eq_false_iff.mpr hc]
          rfl
        · rename_i hempty
          rw [if_neg hempty] at hc
          obtain rfl : meant = some t := hmeant
          simp [hc, ht, hshort]
      refine ⟨.code tid c :: l, ?_, ?_, hdatas⟩
      · rw [readItems, hstores, if_pos rfl, hread]
        rfl
      · rw [storedCodes, hstored, meantCodes_code]
        split
        · rfl
        · rename_i hempty
          rw [if_neg hempty] at hc
          rw [hc]
  | data d =>
      obtain ⟨l, hread, hstored, hdatas⟩ :=
        ih (.data d.address.value (d.words.map Word.value)) hroom hsep
      by_cases hbare : (rest.isEmpty && d.words.isEmpty) = true
      · obtain ⟨hlast, hwords⟩ := Bool.and_eq_true_iff.mp hbare
        obtain rfl := List.isEmpty_iff.mp hlast
        refine ⟨[.data d.address.value [0]], ?_, rfl, .cons ⟨rfl, 1, ?_⟩ .nil⟩
        · rw [readItems, if_pos hbare]
          exact if_pos (show 1 ≤ dataSize by decide)
        · show _ = d.words.map Word.value ++ _
          rw [List.isEmpty_iff.mp hwords]
          rfl
      · refine ⟨l, ?_, hstored, hdatas⟩
        rw [readItems, if_neg hbare]
        exact hread

/-- The loop over data begins with an item. -/
theorem stores_data_item {start : BitVec 32} {words : List (BitVec 32)} (ih : Stores n rest)
    (hroom : HasRoom n meant (x :: rest))
    (hsep : SeparatedFrom (x :: rest) (.data start words) tid meant) :
    ∃ l, readItems n (x :: rest) (.data start words) tid = some l ∧
      storedCodes l = meantCodes meant (x :: rest) ∧
      List.Forall₂ Extends (meantDatas (.data start words) (x :: rest)) (storedDatas l) := by
  -- A line that is taken for a word.
  have hword : ∀ {meant'}, HasRoom n meant' rest →
      SeparatedFrom rest (.data start (words ++ [0])) tid meant' →
      ∃ l, readItems n rest (.data start (words ++ [0])) tid = some l ∧
        storedCodes l = meantCodes meant' rest ∧
        List.Forall₂ Extends (meantDatas (.data start words) rest) (storedDatas l) := by
    intro meant' hroom hsep
    obtain ⟨l, hread, hstored, hdatas⟩ := ih _ hroom hsep
    refine ⟨l, hread, hstored, ?_⟩
    obtain ⟨b, l', ⟨hstart, m, hb⟩, hl', hdatas⟩ := List.forall₂_cons_left_iff.mp hdatas
    rw [hdatas]
    exact .cons ⟨hstart, m + 1, by rw [hb, List.append_assoc]; rfl⟩ hl'
  -- A line that ends the block.
  have hend : x.endsData = true → words.length ≤ dataSize → HasRoom n meant rest →
      SeparatedFrom rest .look tid meant →
      ∃ l, readItems n (x :: rest) (.data start words) tid = some l ∧
        storedCodes l = meantCodes meant rest ∧
        List.Forall₂ Extends (meantDatas (.data start words) rest) (storedDatas l) := by
    intro hx hlen hroom hsep
    obtain ⟨l, hread, hstored, hdatas⟩ := ih .look hroom hsep
    refine ⟨.data start words :: l, ?_, hstored, .cons (Extends.refl _) hdatas⟩
    rw [readItems_data, if_pos hx, if_pos hlen, hread]
    rfl
  cases x with
  | gap text h =>
      rw [SeparatedFrom] at hsep
      cases hblank : isBlank text with
      | true =>
          rw [hblank, if_pos rfl] at hsep
          rw [readItems_data, if_neg (by simp [Item.endsData, hblank])]
          exact hword hroom hsep
      | false =>
          rw [hblank, if_neg Bool.false_ne_true] at hsep
          exact hend (by simp [Item.endsData, hblank]) hsep.1 hroom hsep.2
  | thread t more h => exact hword hroom hsep
  | code c =>
      obtain ⟨hc, hlen, hsep⟩ := hsep
      rw [meantCodes_code, if_pos (List.isEmpty_iff.mpr hc)]
      exact hend rfl hlen (fun p hp => hroom p (List.mem_cons_of_mem _ hp)) hsep
  | data d => exact hsep.elim

/-- If nothing is lost then everything is stored. -/
theorem exists_stored (items : List Item) : Stores n items := by
  induction items with
  | nil =>
      intro mode tid meant _ hsep
      cases mode with
      | look => exact ⟨[], rfl, rfl, .nil⟩
      | code => exact ⟨[], rfl, rfl, .nil⟩
      | data start words => exact ⟨_, if_pos hsep, rfl, .cons (Extends.refl _) .nil⟩
  | cons x rest ih =>
      intro mode tid meant hroom hsep
      cases mode with
      | look => exact stores_look_item ih hroom hsep
      | code =>
          cases x with
          | gap text h =>
              obtain ⟨hblank, hsep⟩ := hsep
              obtain ⟨l, hread, hstored, hdatas⟩ := ih .look hroom hsep
              refine ⟨l, ?_, hstored, hdatas⟩
              rw [readItems, hblank, if_neg Bool.false_ne_true, hread]
          | thread t more h => exact hsep.elim
          | code c => exact hsep.elim
          | data d => exact hsep.elim
      | data start words => exact stores_data_item ih hroom hsep

end

/-! ## When something is lost -/

section

variable {n t : Nat} {x : Item} {rest : List Item} {tid meant : Option Nat} {l : List Loading}

/-- No more blocks of data are stored than there are. -/
theorem length_storedDatas_le (items : List Item) : ∀ (mode : Mode) {tid : Option Nat}
    (l : List Loading), readItems n items mode tid = some l →
      (storedDatas l).length ≤ (meantDatas mode items).length := by
  induction items with
  | nil =>
      intro mode tid l hread
      cases mode with
      | look =>
          cases hread
          exact Nat.le_refl 0
      | code =>
          cases hread
          exact Nat.le_refl 0
      | data start words =>
          rw [readItems, Option.ite_none_right_eq_some] at hread
          rw [← Option.some.inj hread.2]
          exact Nat.le_refl 1
  | cons x rest ih =>
      intro mode tid l hread
      cases mode with
      | look =>
          cases x with
          | gap text h => exact ih .look l hread
          | thread t more h => exact ih .look l hread
          | code c =>
              rw [readItems, Option.ite_none_right_eq_some] at hread
              obtain ⟨l', hl', rfl⟩ := Option.map_eq_some_iff.mp hread.2
              exact ih .code l' hl'
          | data d =>
              refine (ih _ l hread).trans (Nat.le_of_eq ?_)
              rw [length_meantDatas, length_meantDatas]
              exact (Nat.add_comm 1 _).trans (Nat.zero_add _).symm
      | code =>
          cases x with
          | gap text h =>
              rw [readItems] at hread
              split at hread
              · cases hread
              · exact ih .look l hread
          | thread t more h => cases hread
          | code c => cases hread
          | data d =>
              refine (ih .look l hread).trans ?_
              rw [length_meantDatas, length_meantDatas]
              exact Nat.add_le_add_left (Nat.le_succ _) 0
      | data start words =>
          have hsub : (datas rest).length ≤ (datas (x :: rest)).length := by
            cases x <;> simp [datas]
          rw [readItems_data] at hread
          rw [length_meantDatas]
          split at hread
          · rw [Option.ite_none_right_eq_some] at hread
            obtain ⟨l', hl', rfl⟩ := Option.map_eq_some_iff.mp hread.2
            have hle := ih .look l' hl'
            rw [length_meantDatas] at hle
            simp only [storedDatas, Mode.pending, List.length_cons, List.length_nil] at hle ⊢
            omega
          · have hle := ih _ l hread
            rw [length_meantDatas] at hle
            exact hle.trans (Nat.add_le_add_left hsub 1)

/-- Nothing is stored for a thread that no block is meant for, unless the loop
over data reads a `T` line. -/
theorem not_mem_stored (items : List Item) : ∀ (mode : Mode) {tid : Option Nat}
    (meant : Option Nat) (l : List Loading), datas items = [] →
      (∀ c, (some t, c) ∉ codes meant items) →
      (tid ≠ some t ∨ tid = meant ∧ mode.pending = []) → readItems n items mode tid = some l →
      some t ∉ (storedCodes l).map Prod.fst := by
  induction items with
  | nil =>
      intro mode tid meant l _ _ _ hread
      cases mode with
      | look =>
          cases hread
          exact List.not_mem_nil
      | code =>
          cases hread
          exact List.not_mem_nil
      | data start words =>
          rw [readItems, Option.ite_none_right_eq_some] at hread
          rw [← Option.some.inj hread.2]
          exact List.not_mem_nil
  | cons x rest ih =>
      intro mode tid meant l hnone hnot htid hread
      cases mode with
      | look =>
          cases x with
          | gap text h => exact ih .look meant l hnone hnot htid hread
          | thread u more h => exact ih .look _ l hnone hnot (Or.inr ⟨rfl, rfl⟩) hread
          | code c =>
              rw [readItems, Option.ite_none_right_eq_some] at hread
              obtain ⟨l', hl', rfl⟩ := Option.map_eq_some_iff.mp hread.2
              have hnot' := fun c' hc' => hnot c' (List.mem_cons_of_mem _ hc')
              have hrest := ih .code meant l' hnone hnot' htid hl'
              rw [storedCodes]
              split
              · exact hrest
              · rw [List.map_cons, List.mem_cons, not_or]
                refine ⟨fun h => ?_, hrest⟩
                have h : some t = tid := h
                rcases htid with htid | ⟨htid, -⟩
                · exact htid h.symm
                · exact hnot c (by rw [h, htid]; exact List.mem_cons_self ..)
          | data d => cases hnone
      | code =>
          cases x with
          | gap text h =>
              rw [readItems] at hread
              split at hread
              · cases hread
              · exact ih .look meant l hnone hnot htid hread
          | thread u more h => cases hread
          | code c => cases hread
          | data d => cases hnone
      | data start words =>
          have htid : tid ≠ some t := htid.resolve_right fun h =>
            List.cons_ne_nil _ _ h.2
          have hnot' : ∀ c, (some t, c) ∉ codes (x.next meant) rest := by
            cases x with
            | code c => exact fun c' hc' => hnot c' (List.mem_cons_of_mem _ hc')
            | _ => exact hnot
          have hnone' : datas rest = [] := by
            cases x with
            | data d => cases hnone
            | _ => exact hnone
          rw [readItems_data] at hread
          split at hread
          · rw [Option.ite_none_right_eq_some] at hread
            obtain ⟨l', hl', rfl⟩ := Option.map_eq_some_iff.mp hread.2
            exact ih .look _ l' hnone' hnot' (Or.inl htid) hl'
          · exact ih _ _ l hnone' hnot' (Or.inl htid) hread

/-- Every block that has instructions is meant for a thread of its own, for
which something is stored, and there is at most one block of data, which is
stored. -/
structure AllStored (items : List Item) (mode : Mode) (tid meant : Option Nat)
    (l : List Loading) : Prop where
  threads : ∀ p ∈ codes meant items, ∃ t, p.1 = some t
  nodup : ((codes meant items).map Prod.fst).Nodup
  one_data : mode.pending.length + (datas items).length ≤ 1
  sync : tid = meant ∨ datas items = []
  code_mem : ∀ p ∈ meantCodes meant items, p.1 ∈ (storedCodes l).map Prod.fst
  data_le : mode.pending.length + (datas items).length ≤ (storedDatas l).length

namespace AllStored

variable {c : Code} {d : Data} {mode : Mode} {start : BitVec 32} {words : List (BitVec 32)}

/-- A block of instructions that has been read. -/
theorem of_code (h : AllStored (.code c :: rest) .look tid meant (.code tid c :: l))
    (hread : readItems n rest .code tid = some l) :
    (c.lines.isEmpty = false → tid = meant) ∧ AllStored rest .code tid meant l := by
  obtain ⟨hnotin, hnodup⟩ := List.nodup_cons.mp h.nodup
  have hcodes := h.code_mem
  rw [storedCodes, meantCodes_code] at hcodes
  have hsync : c.lines.isEmpty = false → tid = meant := by
    intro hempty
    rw [hempty, if_neg Bool.false_ne_true, if_neg Bool.false_ne_true] at hcodes
    by_contra hne
    obtain ⟨u, rfl⟩ := h.threads _ (List.mem_cons_self ..)
    have hu := hcodes _ (List.mem_cons_self ..)
    rw [List.map_cons, List.mem_cons] at hu
    refine not_mem_stored rest .code (some u) l (h.sync.resolve_left hne)
      (fun c' hc' => hnotin ?_) (Or.inl hne) hread (hu.resolve_left fun h => hne h.symm)
    exact List.mem_map.mpr ⟨_, hc', rfl⟩
  refine ⟨hsync, fun p hp => h.threads p (List.mem_cons_of_mem _ hp), hnodup, h.one_data, h.sync,
    fun p hp => ?_, h.data_le⟩
  cases hempty : c.lines.isEmpty with
  | true =>
      rw [hempty, if_pos rfl, if_pos rfl] at hcodes
      exact hcodes p hp
  | false =>
      rw [hempty, if_neg Bool.false_ne_true, if_neg Bool.false_ne_true] at hcodes
      have hp' := hcodes p (List.mem_cons_of_mem _ hp)
      rw [List.map_cons, List.mem_cons] at hp'
      refine hp'.resolve_left fun hfst => hnotin ?_
      have hfst : p.1 = tid := hfst
      exact List.mem_map.mpr ⟨p, List.mem_of_mem_filter hp, hfst.trans (hsync hempty)⟩

/-- A block of data that is being read is the only one. -/
theorem datas_eq_nil (h : AllStored (x :: rest) (.data start words) tid meant l) :
    datas rest = [] := by
  have hone := h.one_data
  simp only [Mode.pending, List.length_cons, List.length_nil] at hone
  have hnil : datas (x :: rest) = [] :=
    List.eq_nil_of_length_eq_zero (by omega)
  cases x with
  | data d => cases hnil
  | _ => exact hnil

/-- A line that the loop over data takes for a word. -/
theorem of_word (h : AllStored (x :: rest) (.data start words) tid meant l)
    (hcodes : codes meant (x :: rest) =
      codes (x.next meant) rest) (words' : List (BitVec 32)) :
    AllStored rest (.data start words') tid (x.next meant) l := by
  have hnil := h.datas_eq_nil
  have hstored := h.data_le
  simp only [Mode.pending, List.length_cons, List.length_nil] at hstored
  have hmeant : meantCodes (x.next meant) rest = meantCodes meant (x :: rest) := by
    rw [meantCodes, meantCodes, hcodes]
  refine ⟨hcodes ▸ h.threads, hcodes ▸ h.nodup, ?_, Or.inr hnil, hmeant ▸ h.code_mem, ?_⟩
  · rw [hnil]
    exact Nat.le_refl 1
  · rw [hnil]
    exact Nat.le_trans (Nat.le_add_right ..) hstored

/-- A line that ends a block of data. -/
theorem of_end (h : AllStored (x :: rest) (.data start words) tid meant (.data start words :: l))
    (hcodes : ∀ p ∈ codes meant rest, p ∈ codes meant (x :: rest))
    (hnodup : ((codes meant rest).map Prod.fst).Nodup) :
    AllStored rest .look tid meant l := by
  have hnil := h.datas_eq_nil
  refine ⟨fun p hp => h.threads p (hcodes p hp), hnodup, ?_, Or.inr hnil, fun p hp => ?_, ?_⟩
  · rw [hnil]
    exact Nat.zero_le 1
  · obtain ⟨hmem, hne⟩ := List.mem_filter.mp hp
    exact h.code_mem p (List.mem_filter.mpr ⟨hcodes p hmem, hne⟩)
  · rw [hnil]
    exact Nat.zero_le _

end AllStored

/-- If everything is stored of these items then nothing is lost, as the
induction over the items has it. -/
def Recovers (n : Nat) (items : List Item) : Prop :=
  ∀ (mode : Mode) {tid meant : Option Nat} (l : List Loading), AllStored items mode tid meant l →
    readItems n items mode tid = some l → SeparatedFrom items mode tid meant

/-- The loop that looks for blocks begins with an item. -/
theorem recovers_look_item (ih : Recovers n rest) (h : AllStored (x :: rest) .look tid meant l)
    (hread : readItems n (x :: rest) .look tid = some l) :
    SeparatedFrom (x :: rest) .look tid meant := by
  obtain ⟨hthreads, hnodup, hone, hsync, hcodes, hdatas⟩ := h
  cases x with
  | gap text hgap => exact ih .look l ⟨hthreads, hnodup, hone, hsync, hcodes, hdatas⟩ hread
  | thread u more hends =>
      exact ih .look l ⟨hthreads, hnodup, hone, Or.inl rfl, hcodes, hdatas⟩ hread
  | code c =>
      rw [readItems, Option.ite_none_right_eq_some] at hread
      obtain ⟨hstores, hread⟩ := hread
      obtain ⟨l', hl', rfl⟩ := Option.map_eq_some_iff.mp hread
      obtain ⟨htid, hrest⟩ :=
        AllStored.of_code ⟨hthreads, hnodup, hone, hsync, hcodes, hdatas⟩ hl'
      refine ⟨?_, ih .code l' hrest hl'⟩
      split
      · rename_i hempty
        rw [Code.stores, if_pos hempty, Bool.not_eq_true', List.isEmpty_eq_false_iff] at hstores
        exact hstores
      · rename_i hempty
        exact htid (Bool.eq_false_iff.mpr hempty)
  | data d =>
      have hnil : datas rest = [] := by
        simp only [Mode.pending, datas, List.length_cons, List.length_nil] at hone
        exact List.eq_nil_of_length_eq_zero (by omega)
      rw [readItems] at hread
      by_cases hbare : (rest.isEmpty && d.words.isEmpty) = true
      · obtain ⟨hlast, hwords⟩ := Bool.and_eq_true_iff.mp hbare
        obtain rfl := List.isEmpty_iff.mp hlast
        rw [SeparatedFrom, List.isEmpty_iff.mp hwords]
        exact Nat.zero_le _
      · rw [if_neg hbare] at hread
        refine ih (.data d.address.value (d.words.map Word.value)) l
          ⟨hthreads, hnodup, ?_, Or.inr hnil, hcodes, ?_⟩ hread
        · rw [hnil]
          exact Nat.le_refl 1
        · rw [hnil]
          exact Nat.le_trans (Nat.le_add_left ..) hdatas

/-- The loop over data begins with an item. -/
theorem recovers_data_item {start : BitVec 32} {words : List (BitVec 32)} (ih : Recovers n rest)
    (h : AllStored (x :: rest) (.data start words) tid meant l)
    (hread : readItems n (x :: rest) (.data start words) tid = some l) :
    SeparatedFrom (x :: rest) (.data start words) tid meant := by
  rw [readItems_data] at hread
  cases x with
  | gap text hgap =>
      rw [SeparatedFrom]
      cases hblank : isBlank text with
      | true =>
          rw [if_neg (by simp [Item.endsData, hblank])] at hread
          rw [if_pos rfl]
          exact ih _ l (h.of_word rfl _) hread
      | false =>
          rw [if_pos (by simp [Item.endsData, hblank]), Option.ite_none_right_eq_some] at hread
          obtain ⟨l', hl', rfl⟩ := Option.map_eq_some_iff.mp hread.2
          rw [if_neg Bool.false_ne_true]
          exact ⟨hread.1, ih .look l' (h.of_end (fun p hp => hp) h.nodup) hl'⟩
  | thread u more hends => exact ih _ l (h.of_word rfl _) hread
  | code c =>
      rw [if_pos (show (Item.code c).endsData = true from rfl), Option.ite_none_right_eq_some]
        at hread
      obtain ⟨l', hl', rfl⟩ := Option.map_eq_some_iff.mp hread.2
      obtain ⟨hnotin, hnodup⟩ := List.nodup_cons.mp h.nodup
      have hc : c.lines = [] := by
        by_contra hne
        obtain ⟨u, rfl⟩ := h.threads _ (List.mem_cons_self ..)
        have hmem : (some u, c) ∈ meantCodes (some u) (.code c :: rest) :=
          List.mem_filter.mpr ⟨List.mem_cons_self .., by simp [hne]⟩
        have htid : tid ≠ some u ∨ tid = some u ∧ Mode.look.pending = [] := by
          by_cases heq : tid = some u
          · exact Or.inr ⟨heq, rfl⟩
          · exact Or.inl heq
        refine not_mem_stored rest .look (some u) l' h.datas_eq_nil (fun c' hc' => hnotin ?_) htid
          hl' (h.code_mem _ hmem)
        exact List.mem_map.mpr ⟨_, hc', rfl⟩
      exact ⟨hc, hread.1, ih .look l'
        (h.of_end (fun p hp => List.mem_cons_of_mem _ hp) hnodup) hl'⟩
  | data d =>
      have hone := h.one_data
      simp only [Mode.pending, datas, List.length_cons, List.length_nil] at hone
      omega

/-- If a block is stored for every thread that one is meant for, and every block
of data, then nothing is lost. -/
theorem separatedFrom_of_stored (items : List Item) : Recovers n items := by
  induction items with
  | nil =>
      intro mode tid meant l _ hread
      cases mode with
      | look => trivial
      | code => trivial
      | data start words =>
          rw [readItems, Option.ite_none_right_eq_some] at hread
          exact hread.1
  | cons x rest ih =>
      intro mode tid meant l h hread
      cases mode with
      | look => exact recovers_look_item ih h hread
      | code =>
          cases x with
          | gap text hgap =>
              rw [readItems] at hread
              split at hread
              · cases hread
              · rename_i hblank
                exact ⟨Bool.eq_false_iff.mpr hblank,
                  ih .look l ⟨h.threads, h.nodup, h.one_data, h.sync, h.code_mem, h.data_le⟩ hread⟩
          | thread u more hends => cases hread
          | code c => cases hread
          | data d =>
              -- One block of data is lost, so that too few are stored.
              have hle := length_storedDatas_le rest .look l hread
              have hone := h.one_data
              have hstored := h.data_le
              rw [length_meantDatas] at hle
              simp only [Mode.pending, datas, List.length_cons, List.length_nil] at hone hstored hle
              omega
      | data start words => exact recovers_data_item ih h hread

end

end SimApi

end ArchSim
