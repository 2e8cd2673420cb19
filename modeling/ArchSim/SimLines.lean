import ArchSim.SimImage

/-!
# The lines of an image text

What `fgets` delivers of a text, and what the loops of `SIM_MemReset` do with
a line of each kind and with the lines of a block. A comment that does not fit
the line buffer comes in pieces, a line of white space is a word to the loop
over data, and the lines of a block whose `@` line is lost are skipped.
-/

namespace ArchSim

namespace SimApi

open CString MtCore

/-! ## Lines -/

/-- What `fgets` delivers of a line. -/
def Delivered (bare : List Char) (pieces : List (List Char)) : Prop :=
  ∃ eol, Eol eol ∧ bare ++ eol ≠ [] ∧ pieces = fgets 1024 (bare ++ eol)

/-- A file with these lines. -/
inductive Delivers : List (List Char) → List (List Char) → Prop
  | nil : Delivers [] []
  | cons {bare : List Char} {bares pieces file : List (List Char)} (h : Delivered bare pieces)
      (hs : Delivers bares file) : Delivers (bare :: bares) (pieces ++ file)

theorem delivers_fgets {bares : List (List Char)} {text : List Char} (h : IsText bares text) :
    Delivers bares (fgets 1024 text) := by
  induction h with
  | nil => exact .nil
  | @last line hne =>
      have hline : Delivered line (fgets 1024 line) :=
        ⟨[], Or.inl rfl, by rwa [List.append_nil], by rw [List.append_nil]⟩
      have hlast := Delivers.cons hline .nil
      rwa [List.append_nil] at hlast
  | @cons line text lines _ ih =>
      have hread : fgets 1024 (line ++ '\n' :: text) = _ := fgetsFrom_append_newline text
      rw [hread]
      exact .cons ⟨['\n'], Or.inr rfl, by simp, rfl⟩ ih

section

variable {bare : List Char} {bares file : List (List Char)}

/-- A line that fits is delivered in one piece. -/
theorem Delivers.exists_line (h : Delivers (bare :: bares) file) (hfits : Fits bare)
    (hhead : bare.head? ≠ some '#') : ∃ eol img, Eol eol ∧ bare ++ eol ≠ [] ∧
      file = (bare ++ eol) :: img ∧ Delivers bares img := by
  cases h with
  | @cons _ _ pieces img hline hs =>
      obtain ⟨eol, heol, hne, rfl⟩ := hline
      obtain ⟨hmem, hlen⟩ := hfits
      have hlen := hlen.resolve_left hhead
      refine ⟨eol, img, heol, hne, ?_, hs⟩
      have hread : fgets 1024 (bare ++ eol) = [bare ++ eol] := by
        rcases heol with rfl | rfl
        · rw [List.append_nil] at hne ⊢
          exact fgetsFrom_last hne hmem (Nat.le_succ_of_le hlen)
        · exact fgetsFrom_line [] hmem (Nat.lt_succ_of_le hlen)
      rw [hread]
      rfl

theorem Delivers.eq_nil (h : Delivers [] file) : file = [] := by
  cases h
  rfl

theorem Delivers.ne_nil (h : Delivers bares file) (hne : bares ≠ []) : file ≠ [] := by
  cases h with
  | nil => exact absurd rfl hne
  | cons hline hs =>
      obtain ⟨eol, -, hne, rfl⟩ := hline
      exact List.append_ne_nil_of_left_ne_nil (fgetsFrom_ne_nil hne) _

end

/-- The newline of a line does not make a segment of it. -/
theorem isSegment_newline (piece : List Char) :
    isSegment (piece ++ ['\n']) = isSegment piece := by
  unfold isSegment
  rcases piece with - | ⟨c, - | ⟨d, piece⟩⟩
  · rfl
  · by_cases hc : c = 'T' <;> simp [hc]
  · by_cases hT : c = 'T'
    · simp [hT]
    · by_cases hd : d = '@' <;> by_cases hI : c = 'I' <;> by_cases hD : c = 'D' <;>
        simp [hT, hd, hI, hD]

theorem isSetting_newline (piece : List Char) :
    isSetting (piece ++ ['\n']) = isSetting piece := by
  cases piece <;> rfl

section

variable {p : List Char → Bool} (hnew : ∀ piece, p (piece ++ ['\n']) = p piece)
  (hnil : p [] = false)
include hnew hnil

/-- The pieces behind the first are skipped with the newline too. -/
theorem skipped_tail_fgets {text eol : List Char} (hmem : '\n' ∉ text) (heol : Eol eol)
    (h : Skipped p (fgets 1024 text).tail) : Skipped p (fgets 1024 (text ++ eol)).tail := by
  rcases heol with rfl | rfl
  · rwa [List.append_nil]
  by_cases hne : text = []
  · rw [hne]
    exact fun piece hpiece => absurd hpiece List.not_mem_nil
  obtain ⟨pieces, last, hread, hnewline⟩ :=
    @fgetsFrom_newline 1023 text 1023 hne hmem
  have htail : fgets 1024 text = pieces ++ [last] := hread
  rw [htail] at h
  have hbare : p ['\n'] = false := (hnew []).trans hnil
  intro piece hpiece
  rcases hnewline with hnewline | hnewline
  · have htext : fgets 1024 (text ++ ['\n']) = pieces ++ [last ++ ['\n']] := hnewline
    rw [htext] at hpiece
    cases pieces with
    | nil => cases hpiece
    | cons first pieces =>
        rcases List.mem_append.mp hpiece with hpiece | hpiece
        · exact h piece (List.mem_append_left _ hpiece)
        · rw [List.mem_singleton.mp hpiece, hnew]
          exact h last (List.mem_append_right _ (List.mem_singleton.mpr rfl))
  · have htext : fgets 1024 (text ++ ['\n']) = pieces ++ [last, ['\n']] := hnewline
    rw [htext] at hpiece
    cases pieces with
    | nil =>
        rw [List.mem_singleton.mp hpiece]
        exact hbare
    | cons first pieces =>
        rcases List.mem_append.mp hpiece with hpiece | hpiece
        · exact h piece (List.mem_append_left _ hpiece)
        · rcases List.mem_cons.mp hpiece with rfl | hpiece
          · exact h piece (List.mem_append_right _ (List.mem_singleton.mpr rfl))
          · rw [List.mem_singleton.mp hpiece]
            exact hbare

/-- A blank or comment line: the first piece ends a block if the line is not
blank, and the others are skipped. -/
theorem exists_pieces {text : List Char} (hgap : Gap text) (hfits : Fits text)
    (hquiet : Skipped p (fgets 1024 text).tail) {pieces : List (List Char)}
    (h : Delivered text pieces) :
    ∃ first rest, pieces = first :: rest ∧ Skipped p rest ∧
      ∃ c tail, first = c :: tail ∧
        if isBlank text then isspace c = true ∧ c ≠ '\n' ∧ rest = [] ∧ ∀ d ∈ first, isspace d = true
        else c = '\n' ∨ c = '#' := by
  obtain ⟨eol, heol, hne, rfl⟩ := h
  have hrest := skipped_tail_fgets hnew hnil hfits.1 heol hquiet
  cases text with
  | nil =>
      rcases heol with rfl | rfl
      · exact absurd rfl hne
      · exact ⟨['\n'], [], rfl, fun _ h => absurd h List.not_mem_nil, '\n', [], rfl, Or.inl rfl⟩
  | cons c text =>
      obtain ⟨first, rest, hread⟩ := List.exists_cons_of_ne_nil
        (@fgetsFrom_ne_nil 1023 1023 _ hne)
      have hread : fgets 1024 (c :: text ++ eol) = first :: rest := hread
      rw [hread] at hrest ⊢
      have hc : c ≠ '\n' := fun h => hfits.1 (h ▸ List.mem_cons_self ..)
      obtain ⟨tail, rfl⟩ : ∃ tail, first = c :: tail := by
        have hcons : fgetsFrom 1023 1023 (c :: (text ++ eol)) = first :: rest := hread
        rw [fgetsFrom_cons] at hcons
        split at hcons
        · exact ⟨[], (List.cons.inj hcons).1.symm⟩
        · split at hcons
          · exact ⟨[], (List.cons.inj hcons).1.symm⟩
          · exact ⟨_, (List.cons.inj hcons).1.symm⟩
      refine ⟨c :: tail, rest, rfl, hrest, c, tail, rfl, ?_⟩
      by_cases hhash : c = '#'
      · subst hhash
        exact Or.inr rfl
      · have hblank : isBlank (c :: text) = true := by
          simp [isBlank, hhash]
        have hspace := hgap.resolve_right fun h => hhash (Option.some.inj h)
        have hlen := hfits.2.resolve_left fun h => hhash (Option.some.inj h)
        have hone : fgets 1024 (c :: text ++ eol) = [c :: text ++ eol] := by
          rcases heol with rfl | rfl
          · rw [List.append_nil]
            exact fgetsFrom_last (List.cons_ne_nil _ _) hfits.1 (Nat.le_succ_of_le hlen)
          · exact fgetsFrom_line [] hfits.1 (Nat.lt_succ_of_le hlen)
        obtain ⟨hfirst, hnil⟩ := List.cons.inj (hread.symm.trans hone)
        rw [hblank, if_pos rfl]
        refine ⟨hspace c (List.mem_cons_self ..), hc, hnil, fun d hd => ?_⟩
        rw [hfirst] at hd
        rcases List.mem_append.mp hd with hd | hd
        · exact hspace d hd
        · rcases heol with rfl | rfl
          · cases hd
          · rw [List.mem_singleton.mp hd]
            rfl

end

/-! ## What a line does -/

variable {tid : Option (BitVec 32)} {s : MemSim} {img : List (List Char)} {line : List Char}

/-- Lines that the loop which looks for blocks skips. -/
theorem readSegments_pieces {pieces : List (List Char)}
    (h : Skipped isSegment pieces) (img : List (List Char))
    (tid : Option (BitVec 32)) (s : MemSim) :
    readSegments MemSim.loader (pieces ++ img) tid s = readSegments MemSim.loader img tid s := by
  induction pieces with
  | nil => rfl
  | cons piece pieces ih =>
      rw [List.cons_append, readSegments_skip _ (h piece (List.mem_cons_self ..))]
      exact ih fun p hp => h p (List.mem_cons_of_mem _ hp)

theorem not_isSegment {c : Char} (hc : c ≠ 'T' ∧ c ≠ 'I' ∧ c ≠ 'D') (rest : List Char) :
    isSegment (c :: rest) = false := by
  simp [isSegment, hc]

theorem not_endsBlock {c next : Char} (hc : c ≠ '\n' ∧ c ≠ '#' ∧ c ≠ next) (rest : List Char) :
    endsBlock next (c :: rest) = false := by
  simp [endsBlock, hc]

/-- An `@` line. -/
theorem getStart_eq {c : Char} (hc : c ≠ '\n' ∧ c ≠ '@') (w : Word) {eol : List Char}
    (heol : Eol eol) : getStart (c :: '@' :: w.text ++ eol) = .ok (w.value, [c]) := by
  have hnewline : '\n' ∉ c :: '@' :: w.number.text := by
    rw [List.mem_cons, List.mem_cons, not_or, not_or]
    exact ⟨hc.1.symm, by decide, w.number.not_mem rfl⟩
  have hat : '@' ∉ [c] := fun h => hc.2 (List.mem_singleton.mp h).symm
  have hparted := (w.parted.append heol).takeWhile (· != '\n')
  have hvalue := w.number.strtol_eq (hparted.takeWhile (· != '@'))
  have htoken := strtok_append (List.cons_ne_nil c ('@' :: w.number.text)) hnewline
    (w.rest ++ eol)
  rw [List.cons_append, List.cons_append] at htoken
  have hsegment := strtok_field (List.cons_ne_nil c []) hat
    (w.number.text ++ (w.rest ++ eol).takeWhile (· != '\n'))
  rw [List.singleton_append] at hsegment
  have hat' : '@' ∉ w.number.text := w.number.not_mem rfl
  have hnumber := strtok_append w.number.text_ne_nil hat'
    ((w.rest ++ eol).takeWhile (· != '\n'))
  simp only [getStart, Word.text, List.cons_append, List.append_assoc, htoken, Option.getD_some,
    hsegment, hnumber]
  exact congrArg (fun v => Except.ok (v, [c])) hvalue

section

variable {n t : Nat}

/-- A thread below the number on the `N` line. -/
theorem tid_ok (hn : n < 2 ^ 31) (ht : t < 2 ^ 31) :
    (BitVec.ofNat 32 t).toNat = t ∧ 0 ≤ (BitVec.ofNat 32 t).toInt ∧
      ((BitVec.ofNat 32 t).toInt < (BitVec.ofNat 32 n).toInt ↔ t < n) := by
  have htnat : (BitVec.ofNat 32 t).toNat = t := by
    rw [BitVec.toNat_ofNat, Nat.mod_eq_of_lt (by omega)]
  have hnnat : (BitVec.ofNat 32 n).toNat = n := by
    rw [BitVec.toNat_ofNat, Nat.mod_eq_of_lt (by omega)]
  have htint : (BitVec.ofNat 32 t).toInt = t := by
    rw [BitVec.toInt_eq_toNat_of_lt (by omega), htnat]
  have hnint : (BitVec.ofNat 32 n).toInt = n := by
    rw [BitVec.toInt_eq_toNat_of_lt (by omega), hnnat]
  refine ⟨htnat, ?_, ?_⟩ <;> omega

/-- An instruction line is stored if its thread is there and has room. -/
theorem storeInst_eq (hn : n < 2 ^ 31) (ht : t < 2 ^ 31) (hs : s.threadnumber = BitVec.ofNat 32 n)
    (l : CodeLine) {eol : List Char} (heol : Eol eol) (inst : Nat) :
    (storeInst (l.text ++ eol) inst (some (BitVec.ofNat 32 t)) s).toOption =
      if t < n ∧ inst < instSlots then some { s with
        instructions := Function.update s.instructions t
          (Function.update (s.instructions t) inst (l.line.read (s.instructions t inst))) }
      else none := by
  obtain ⟨hnat, hpos, hlt⟩ := tid_ok hn ht
  simp only [storeInst, hnat, hs, hlt, hpos, true_and, l.getInst_eq heol]
  split <;> rfl

/-- A line that is no instruction line is not. -/
theorem storeInst_unknown {c : Char} (hc : c ≠ 'N' ∧ c ≠ 'A' ∧ c ≠ 'S' ∧ c ≠ 'L' ∧ c ≠ 'H')
    (rest : List Char) (inst : Nat) (tid : Option (BitVec 32)) (s : MemSim) :
    (storeInst (c :: rest) inst tid s).toOption = none := by
  unfold storeInst
  split
  · rfl
  · rename_i tid
    obtain ⟨fault, hfault⟩ := getInst_unknown hc rest (s.instructions tid.toNat inst)
    rw [hfault]
    split <;> rfl

end

/-- An instruction line is stored, and the next one read. -/
theorem readCode_cons (hends : endsBlock 'D' line = false) (inst : Nat) :
    (readCode MemSim.loader (line :: img) inst tid s).toOption =
      (storeInst line inst tid s).toOption.bind fun s =>
        (readCode MemSim.loader img (inst + 1) tid s).toOption := by
  have hread : readCode MemSim.loader (line :: img) inst tid s =
      storeInst line inst tid s >>= readCode MemSim.loader img (inst + 1) tid := by
    rw [readCode, hends, if_neg Bool.false_ne_true]
    rfl
  rw [hread]
  cases storeInst line inst tid s <;> rfl

/-- The address and the words of a block of data that is being read. -/
def MemSim.loadWords (start : BitVec 32) (words : List (BitVec 32)) (s : MemSim) : MemSim :=
  { s with dataStart := start, data := overwrite (words.map fun w _ => w) 0 s.data }

/-- The loop over data lines takes the line for the word `v`. -/
def IsWord (line : List Char) (v : BitVec 32) : Prop :=
  endsBlock 'I' line = false ∧
    ∃ tok, (strtok '\n' line).token = some tok ∧ BitVec.ofInt 32 (strtol tok 0) = v

/-- Such a line is stored if there is room. -/
theorem readData_word {v : BitVec 32} (h : IsWord line v) (start : BitVec 32)
    (words : List (BitVec 32)) :
    (readData MemSim.loader (line :: img) words.length tid (s.loadWords start words)).toOption =
      if words.length < dataSize then
        (readData MemSim.loader img (words ++ [v]).length tid
          (s.loadWords start (words ++ [v]))).toOption
      else none := by
  obtain ⟨hends, tok, htok, hv⟩ := h
  rw [readData, hends, if_neg Bool.false_ne_true]
  show (getData line words.length (s.loadWords start words) >>= _).toOption = _
  simp only [getData, htok, hv]
  split
  · have hload : s.loadWords start (words ++ [v]) = { s.loadWords start words with
        data := Function.update (s.loadWords start words).data words.length v } := by
      rw [MemSim.loadWords, List.map_append, overwrite_append, List.map_singleton, overwrite_cons,
        overwrite_nil, List.length_map, Nat.zero_add]
      rfl
    rw [hload, List.length_append]
    rfl
  · rfl

/-- A line that begins with anything but a number is taken for a 0. -/
theorem isWord_zero {c : Char} (hc : c ≠ '\n' ∧ c ≠ '#' ∧ c ≠ 'I') {rest : List Char}
    (hzero : ∀ d ∈ ((c :: rest.takeWhile (· != '\n')).dropWhile isspace).head?,
      isDigit 10 d = false ∧ d ≠ '-' ∧ d ≠ '+') : IsWord (c :: rest) 0 := by
  have hmem : '\n' ∉ [c] := fun h => hc.1 (List.mem_singleton.mp h).symm
  have htoken := strtok_append (List.cons_ne_nil c []) hmem rest
  rw [List.singleton_append] at htoken
  refine ⟨not_endsBlock hc rest, _, congrArg Strtok.token htoken, ?_⟩
  have hmag : ∀ s : List Char, (∀ d ∈ s.head?, isDigit 10 d = false) → magnitude s 0 = 0 := by
    intro s hs
    have hends : ∀ base ≤ 10, scanDigits base s 0 = 0 := fun base hbase =>
      @scanDigits_append base s (fun d hd => not_isDigit_of_le hbase (hs d hd)) [] 0 nofun
    cases s with
    | nil => rfl
    | cons d s =>
        have hd : d ≠ '0' := fun h => by
          rw [h] at hs
          exact absurd (hs '0' rfl) (by decide)
        rw [magnitude, Numeral.hexPrefixed_eq_false (Or.inl hd), if_neg (by simp), if_pos rfl]
        split
        · exact hends 8 (by omega)
        · exact hends 10 (by omega)
  have hlong : strtol (c :: rest.takeWhile (· != '\n')) 0 = 0 := by
    unfold strtol
    split
    · rename_i heq
      exact absurd rfl (hzero '-' (by rw [heq]; rfl)).2.1
    · rename_i heq
      exact absurd rfl (hzero '+' (by rw [heq]; rfl)).2.2
    · rename_i d heq
      rw [hmag _ fun d hd => (hzero d hd).1]
      rfl
  show BitVec.ofInt 32 (strtol (c :: rest.takeWhile (· != '\n')) 0) = 0
  rw [hlong]
  rfl

theorem isWord_word (w : Word) {eol : List Char} (heol : Eol eol) :
    IsWord (w.text ++ eol) w.value := by
  obtain ⟨c, rest, htext, hc⟩ := w.number.exists_head
  have hends : endsBlock 'I' (w.text ++ eol) = false := by
    rw [Word.text, htext]
    refine not_endsBlock ?_ _
    rcases hc with rfl | hc
    · decide
    · refine ⟨?_, ?_, ?_⟩ <;> rintro rfl <;> cases hc
  have hvalue := w.number.strtol_eq ((w.parted.append heol).takeWhile (· != '\n'))
  have hnewline : '\n' ∉ w.number.text := w.number.not_mem rfl
  have htoken := strtok_append w.number.text_ne_nil hnewline (w.rest ++ eol)
  refine ⟨hends, _, ?_, hvalue⟩
  rw [Word.text, List.append_assoc, htoken]

/-! ## Blocks -/

theorem CodeLine.exists_head (l : CodeLine) : ∃ c rest, l.text = c :: rest ∧
    (c = 'N' ∨ c = 'A' ∨ c = 'S' ∨ c = 'L' ∨ c = 'H') := by
  have hmnemonic : ∀ (opc : CmdOpcode) (tail : List Char), ∃ c rest, mnemonic opc ++ tail =
      c :: rest ∧ (c = 'N' ∨ c = 'A' ∨ c = 'S' ∨ c = 'L' ∨ c = 'H') := by
    intro opc tail
    cases opc <;> exact ⟨_, _, rfl, by decide⟩
  have hline : ∃ c rest, l.line.text = c :: rest ∧
      (c = 'N' ∨ c = 'A' ∨ c = 'S' ∨ c = 'L' ∨ c = 'H') := by
    cases l.line with
    | nop trail => exact hmnemonic .nop _
    | operands opc hopc dst gap₁ src1 gap₂ src2 trail => exact hmnemonic opc _
    | halt dst trail => exact hmnemonic .halt _
  obtain ⟨c, rest, htext, hc⟩ := hline
  exact ⟨c, rest ++ l.rest, by rw [CodeLine.text, htext, List.cons_append], hc⟩

theorem Word.exists_head (w : Word) : ∃ c rest, w.text = c :: rest ∧
    (c = '-' ∨ isDigit 10 c = true) := by
  obtain ⟨c, rest, htext, hc⟩ := w.number.exists_head
  exact ⟨c, rest ++ w.rest, by rw [Word.text, htext, List.cons_append], hc⟩

/-- A line of a block, which the loop that looks for blocks skips. -/
def InBlock (line : List Char) : Prop :=
  Fits line ∧ ∃ c rest, line = c :: rest ∧ c ≠ '#' ∧ c ≠ 'T' ∧ c ≠ 'I' ∧ c ≠ 'D'

theorem inBlock_code {lines : List CodeLine} (hfits : ∀ l ∈ lines, Fits l.text) :
    ∀ line ∈ lines.map CodeLine.text, InBlock line := by
  intro line hline
  obtain ⟨l, hl, rfl⟩ := List.mem_map.mp hline
  obtain ⟨c, rest, htext, hc⟩ := l.exists_head
  refine ⟨hfits l hl, c, rest, htext, ?_⟩
  rcases hc with rfl | rfl | rfl | rfl | rfl <;> decide

theorem inBlock_data {words : List Word} (hfits : ∀ w ∈ words, Fits w.text) :
    ∀ line ∈ words.map Word.text, InBlock line := by
  intro line hline
  obtain ⟨w, hw, rfl⟩ := List.mem_map.mp hline
  obtain ⟨c, rest, htext, hc⟩ := w.exists_head
  refine ⟨hfits w hw, c, rest, htext, ?_⟩
  rcases hc with rfl | hc
  · decide
  · refine ⟨?_, ?_, ?_, ?_⟩ <;> rintro rfl <;> cases hc

theorem InBlock.head (h : InBlock line) : line.head? ≠ some '#' := by
  obtain ⟨-, c, rest, rfl, hc, -⟩ := h
  exact fun h => hc (Option.some.inj h)

section

variable {bares file : List (List Char)}

/-- The lines of a block whose `@` line has been lost. -/
theorem readSegments_lost (tid : Option (BitVec 32)) (s : MemSim) :
    ∀ {lines file : List (List Char)}, (∀ l ∈ lines, InBlock l) → Delivers (lines ++ bares) file →
      ∃ tail, Delivers bares tail ∧
        readSegments MemSim.loader file tid s = readSegments MemSim.loader tail tid s
  | [], file, _, hfile => ⟨file, hfile, rfl⟩
  | l :: lines, file, hlines, hfile => by
      have hl := hlines l (List.mem_cons_self ..)
      obtain ⟨eol, img, -, -, rfl, himg⟩ := Delivers.exists_line hfile hl.1 hl.head
      obtain ⟨tail, htail, hread⟩ := readSegments_lost tid s
        (fun l' hl' => hlines l' (List.mem_cons_of_mem _ hl')) himg
      obtain ⟨-, c, rest, rfl, -, hc⟩ := hl
      exact ⟨tail, htail, (readSegments_skip _ (not_isSegment hc _) img tid s).trans hread⟩

/-- The instruction lines of a block. -/
theorem readCode_lines {n t : Nat} (hn : n < 2 ^ 31) (ht : t < n) :
    ∀ (lines : List CodeLine) {file : List (List Char)} (inst : Nat) {s : MemSim},
      (∀ l ∈ lines, Fits l.text) → s.threadnumber = BitVec.ofNat 32 n → inst ≤ instSlots →
      Delivers (lines.map CodeLine.text ++ bares) file →
      ∃ tail, Delivers bares tail ∧
        (readCode MemSim.loader file inst (some (BitVec.ofNat 32 t)) s).toOption =
          if inst + lines.length ≤ instSlots then
            (readCode MemSim.loader tail (inst + lines.length) (some (BitVec.ofNat 32 t))
              { s with
                instructions := Function.update s.instructions t
                  (overwrite (lines.map fun l inst => l.line.read inst) inst
                    (s.instructions t)) }).toOption
          else none
  | [], file, inst, s, _, _, hinst, hfile => by
      refine ⟨file, hfile, ?_⟩
      rw [List.map_nil, overwrite_nil, Function.update_eq_self, List.length_nil, Nat.add_zero,
        if_pos hinst]
  | l :: lines, file, inst, s, hfits, hs, hinst, hfile => by
      have hl := inBlock_code hfits l.text (List.mem_map_of_mem (List.mem_cons_self ..))
      obtain ⟨eol, img, heol, -, rfl, himg⟩ := Delivers.exists_line hfile hl.1 hl.head
      have hends : endsBlock 'D' (l.text ++ eol) = false := by
        obtain ⟨c, rest, htext, hc⟩ := l.exists_head
        rw [htext]
        refine not_endsBlock ?_ _
        rcases hc with rfl | rfl | rfl | rfl | rfl <;> decide
      have hstore := storeInst_eq hn (Nat.lt_trans ht hn) hs l heol inst
      rcases Nat.lt_or_ge inst instSlots with hlt | hge
      · obtain ⟨tail, htail, hread⟩ := readCode_lines hn ht lines (inst + 1)
          (s := { s with
            instructions := Function.update s.instructions t
              (Function.update (s.instructions t) inst (l.line.read (s.instructions t inst))) })
          (fun l' hl' => hfits l' (List.mem_cons_of_mem _ hl')) hs hlt himg
        refine ⟨tail, htail, ?_⟩
        rw [readCode_cons hends, hstore, if_pos ⟨ht, hlt⟩, Option.bind_some, hread,
          List.length_cons, Nat.add_right_comm, Nat.add_assoc]
        simp only [List.map_cons, overwrite_cons, Function.update_self, Function.update_idem]
      · obtain ⟨tail, htail⟩ : ∃ tail, Delivers bares tail := by
          obtain ⟨tail, htail, -⟩ := readSegments_lost none s
            (inBlock_code fun l' hl' => hfits l' (List.mem_cons_of_mem _ hl')) himg
          exact ⟨tail, htail⟩
        refine ⟨tail, htail, ?_⟩
        rw [if_neg (by rw [List.length_cons]; omega)]
        rw [readCode_cons hends, hstore, if_neg fun h => absurd h.2 (Nat.not_lt_of_le hge)]
        rfl

/-- The data lines of a block. -/
theorem readData_words (start : BitVec 32) :
    ∀ (ws : List Word) {file : List (List Char)} (words : List (BitVec 32)),
      (∀ w ∈ ws, Fits w.text) → words.length ≤ dataSize →
      Delivers (ws.map Word.text ++ bares) file →
      ∃ tail, Delivers bares tail ∧
        (readData MemSim.loader file words.length tid (s.loadWords start words)).toOption =
          if (words ++ ws.map Word.value).length ≤ dataSize then
            (readData MemSim.loader tail (words ++ ws.map Word.value).length tid
              (s.loadWords start (words ++ ws.map Word.value))).toOption
          else none
  | [], file, words, _, hlen, hfile => by
      refine ⟨file, hfile, ?_⟩
      rw [List.map_nil, List.append_nil, if_pos hlen]
  | w :: ws, file, words, hfits, hlen, hfile => by
      have hw := inBlock_data hfits w.text (List.mem_map_of_mem (List.mem_cons_self ..))
      obtain ⟨eol, img, heol, -, rfl, himg⟩ := Delivers.exists_line hfile hw.1 hw.head
      have hfits' : ∀ w' ∈ ws, Fits w'.text := fun w' hw' => hfits w' (List.mem_cons_of_mem _ hw')
      have hlong : (words ++ (w :: ws).map Word.value).length =
          words.length + 1 + ws.length := by
        rw [List.length_append, List.length_map, List.length_cons, Nat.add_right_comm,
          Nat.add_assoc]
      rcases Nat.lt_or_ge words.length dataSize with hlt | hge
      · obtain ⟨tail, htail, hread⟩ := readData_words start ws
          (words ++ [w.value]) hfits' (by rw [List.length_append]; exact hlt) himg
        refine ⟨tail, htail, ?_⟩
        rw [readData_word (isWord_word w heol), if_pos hlt, hread, List.append_assoc,
          List.singleton_append, List.map_cons]
      · obtain ⟨tail, htail, -⟩ := readSegments_lost none s (inBlock_data hfits') himg
        refine ⟨tail, htail, ?_⟩
        rw [readData_word (isWord_word w heol), if_neg (Nat.not_lt_of_le hge),
          if_neg (by rw [hlong]; omega)]

end

end SimApi

end ArchSim
