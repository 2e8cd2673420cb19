import ArchSim.SimLines

/-!
# What `SIM_MemReset` reads

The loops over an image text, item by item. Which loop reads an item depends
on what stands before it: the loop that looks for blocks skips a blank line
where the one over instructions fails on it and the one over data takes it for
a word, and an `@` line that ends a block is read by no other loop.
`readItems` says what is read and `reads_items` that it is so.
-/

namespace ArchSim

namespace SimApi

open CString MtCore

/-! ## Items -/

/-- The loop that reads the next line, the one over data lines with the address
of its block and the words that it has stored. -/
inductive Mode where
  | look
  | code
  | data (start : BitVec 32) (words : List (BitVec 32))

/-- What is loaded: a block of instructions for a thread, or the words of a
block of data. -/
inductive Loading where
  | code (tid : Option Nat) (c : Code)
  | data (start : BitVec 32) (words : List (BitVec 32))

def Loading.apply : Loading → MemSim → MemSim
  | code (some t) c, s =>
      { s with
        progStart := c.address.value
        instructions := Function.update s.instructions t
          (overwrite (c.lines.map fun l inst => l.line.read inst) 0 (s.instructions t)) }
  | code none c, s => { s with progStart := c.address.value }
  | data start words, s => s.loadWords start words

def loadAll (l : List Loading) (s : MemSim) : MemSim := l.foldl (fun s x => x.apply s) s

namespace Item

/-- What the loop over data lines makes of an item that does not end its
block. -/
def taken : Item → List (BitVec 32)
  | gap _ _ | thread _ _ _ => [0]
  | code _ => []
  | data d => 0 :: d.words.map Word.value

def endsData : Item → Bool
  | gap text _ => !isBlank text
  | code _ => true
  | _ => false

end Item

/-- The instructions are stored: they have a thread, and room. An `I@` line that
ends the text is taken for an instruction. -/
def Code.stores (n : Nat) (tid : Option Nat) (last : Bool) (c : Code) : Bool :=
  if c.lines.isEmpty then !last else tid.any (· < n) && c.lines.length ≤ instSlots

/-- What is loaded of the items for `n` threads, where `tid` is the thread of
the last `T` line that has been looked at; `none` if reading them goes
wrong. -/
def readItems (n : Nat) : List Item → Mode → (tid : Option Nat) → Option (List Loading)
  | [], .look, _ => some []
  | [], .code, _ => some []
  | [], .data start words, _ =>
      if words.length ≤ dataSize then some [.data start words] else none
  | .gap _ _ :: rest, .look, tid => readItems n rest .look tid
  | .thread t _ _ :: rest, .look, _ => readItems n rest .look (some t.number.value)
  | .code c :: rest, .look, tid =>
      if c.stores n tid rest.isEmpty then (readItems n rest .code tid).map (.code tid c :: ·)
      else none
  | .data d :: rest, .look, tid =>
      -- A `D@` line that ends the text is taken for a word.
      let words := if rest.isEmpty && d.words.isEmpty then [0] else d.words.map Word.value
      readItems n rest (.data d.address.value words) tid
  | .gap text _ :: rest, .code, tid =>
      if isBlank text then none else readItems n rest .look tid
  | .thread _ _ _ :: _, .code, _ => none
  | .code _ :: _, .code, _ => none
  | .data _ :: rest, .code, tid => readItems n rest .look tid
  | x :: rest, .data start words, tid =>
      if x.endsData then
        if words.length ≤ dataSize then
          (readItems n rest .look tid).map (.data start words :: ·)
        else none
      else readItems n rest (.data start (words ++ x.taken)) tid

theorem readItems_data (n : Nat) (x : Item) (rest : List Item) (start : BitVec 32)
    (words : List (BitVec 32)) (tid : Option Nat) :
    readItems n (x :: rest) (.data start words) tid =
      if x.endsData then
        if words.length ≤ dataSize then
          (readItems n rest .look tid).map (.data start words :: ·)
        else none
      else readItems n rest (.data start (words ++ x.taken)) tid := by
  cases x <;> rfl

/-- More words than there is room for. -/
theorem readItems_overflow (n : Nat) (items : List Item) : ∀ {start : BitVec 32}
    {words : List (BitVec 32)} (tid : Option Nat), dataSize < words.length →
      readItems n items (.data start words) tid = none := by
  induction items with
  | nil => exact fun tid h => if_neg (Nat.not_le_of_lt h)
  | cons x rest ih =>
      intro start words tid h
      have hlong : dataSize < (words ++ x.taken).length := by
        rw [List.length_append]
        omega
      rw [readItems_data, ih tid hlong, if_neg (Nat.not_le_of_lt h)]
      exact ite_self none

/-- What the loop makes of the rest of a file. -/
def Mode.Reads (img : List (List Char)) (tid : Option (BitVec 32)) (s : MemSim)
    (r : Option MemSim) : Mode → Prop
  | .look => (readSegments MemSim.loader img tid s).toOption = r
  | .code => ∀ inst, (readCode MemSim.loader img inst tid s).toOption = r
  | .data start words => words.length ≤ dataSize →
      (readData MemSim.loader img words.length tid (s.loadWords start words)).toOption = r

/-- A file with the lines of these items, of which those that do not fit are
quiet. -/
structure Holds (items : List Item) (file : List (List Char)) : Prop where
  fits : ∀ l ∈ items.flatMap Item.lines, Fits l
  quiet : ∀ l ∈ items.flatMap Item.lines, Skipped isSegment (fgets 1024 l).tail
  delivers : Delivers (items.flatMap Item.lines) file

namespace Holds

variable {x : Item} {rest : List Item} {file img : List (List Char)}

theorem tail (h : Holds (x :: rest) file) (himg : Delivers (rest.flatMap Item.lines) img) :
    Holds rest img := by
  refine ⟨fun l hl => h.fits l ?_, fun l hl => h.quiet l ?_, himg⟩ <;> rw [List.flatMap_cons] <;>
    exact List.mem_append_right _ hl

theorem fits_of_mem (h : Holds (x :: rest) file) {l : List Char} (hl : l ∈ x.lines) : Fits l :=
  h.fits l (List.mem_append_left _ hl)

/-- A blank or comment line. -/
theorem gap {text : List Char} {hgap : Gap text} (h : Holds (.gap text hgap :: rest) file) :
    ∃ first pieces img, file = first :: (pieces ++ img) ∧ Holds rest img ∧
      isSegment first = false ∧ Skipped isSegment pieces ∧
      if isBlank text then IsWord first 0 ∧ pieces = [] ∧ endsBlock 'D' first = false ∧
        ∀ inst tid s, (storeInst first inst tid s).toOption = none
      else ∀ next, endsBlock next first = true := by
  have hmem : text ∈ (Item.gap text hgap :: rest).flatMap Item.lines := List.mem_cons_self ..
  obtain ⟨img, pieces, hfile, himg, hdelivered⟩ : ∃ img pieces, file = pieces ++ img ∧
      Delivers (rest.flatMap Item.lines) img ∧ Delivered text pieces := by
    have hdelivers := h.delivers
    cases hdelivers with
    | cons hline hs => exact ⟨_, _, rfl, hs, hline⟩
  obtain ⟨first, more, rfl, hmore, c, tail, rfl, hcases⟩ :=
    exists_pieces isSegment_newline rfl hgap (h.fits text hmem) (h.quiet text hmem) hdelivered
  refine ⟨c :: tail, more, img, hfile, h.tail himg, ?_, hmore, ?_⟩
  · refine not_isSegment ?_ tail
    split at hcases
    · refine ⟨?_, ?_, ?_⟩ <;> rintro rfl <;> exact absurd hcases.1 (by decide)
    · rcases hcases with rfl | rfl <;> decide
  · split
    · rename_i hblank
      rw [if_pos hblank] at hcases
      obtain ⟨hspace, hnewline, hnil, hall⟩ := hcases
      have hne : ∀ d : Char, isspace d = false → c ≠ d := fun d hd h => by
        rw [← h, hspace] at hd
        cases hd
      refine ⟨isWord_zero ⟨hnewline, hne _ rfl, hne _ rfl⟩ ?_, hnil,
        not_endsBlock ⟨hnewline, hne _ rfl, hne _ rfl⟩ tail, fun inst tid s =>
          storeInst_unknown ⟨hne _ rfl, hne _ rfl, hne _ rfl, hne _ rfl, hne _ rfl⟩ tail inst tid s⟩
      have hdrop : (c :: tail.takeWhile (· != '\n')).dropWhile isspace = [] := by
        rw [List.dropWhile_eq_nil_iff]
        intro d hd
        refine hall d ?_
        rcases List.mem_cons.mp hd with rfl | hd
        · exact List.mem_cons_self ..
        · exact List.mem_cons_of_mem _ ((List.takeWhile_sublist _).subset hd)
      rw [hdrop]
      exact nofun
    · rename_i hblank
      rw [if_neg hblank] at hcases
      intro next
      rcases hcases with rfl | rfl <;> simp [endsBlock]

/-- A `T` line. -/
theorem thread {t : Register} {more : List Char} {hends : Ends 10 more}
    (h : Holds (.thread t more hends :: rest) file) :
    ∃ tail img, file = ('T' :: tail) :: img ∧ Holds rest img ∧
      atoi tail = BitVec.ofNat 32 t.number.value := by
  obtain ⟨eol, img, heol, -, rfl, himg⟩ := Delivers.exists_line h.delivers
    (h.fits_of_mem (List.mem_singleton.mpr rfl)) (by simp)
  have hends' : Ends 10 (more ++ eol) := by
    cases more with
    | nil => exact heol.ends 10
    | cons c more => exact hends
  refine ⟨t.number.text ++ more ++ eol, img, rfl, h.tail himg, ?_⟩
  rw [List.append_assoc]
  exact atoi_register t hends'

/-- A block of instructions. -/
theorem code {c : Code} (h : Holds (.code c :: rest) file) :
    ∃ eol img, Eol eol ∧ file = ('I' :: '@' :: c.address.text ++ eol) :: img ∧
      Delivers (c.lines.map CodeLine.text ++ rest.flatMap Item.lines) img ∧
      ∀ l ∈ c.lines, Fits l.text := by
  obtain ⟨eol, img, heol, -, rfl, himg⟩ := Delivers.exists_line h.delivers
    (h.fits_of_mem (List.mem_cons_self ..)) (by simp)
  exact ⟨eol, img, heol, rfl, himg, fun l hl => h.fits_of_mem
    (List.mem_cons_of_mem _ (List.mem_map_of_mem hl))⟩

/-- A block of data. -/
theorem data {d : Data} (h : Holds (.data d :: rest) file) :
    ∃ eol img, Eol eol ∧ file = ('D' :: '@' :: d.address.text ++ eol) :: img ∧
      Delivers (d.words.map Word.text ++ rest.flatMap Item.lines) img ∧
      ∀ w ∈ d.words, Fits w.text := by
  obtain ⟨eol, img, heol, -, rfl, himg⟩ := Delivers.exists_line h.delivers
    (h.fits_of_mem (List.mem_cons_self ..)) (by simp)
  exact ⟨eol, img, heol, rfl, himg, fun w hw => h.fits_of_mem
    (List.mem_cons_of_mem _ (List.mem_map_of_mem hw))⟩

end Holds

/-! ## What the loops make of an item -/

section

variable {n : Nat} {x : Item} {rest : List Item} {file : List (List Char)} {tid : Option Nat}
  {s : MemSim}

/-- What is left of the items and the loop that goes on with them, as the
induction over the items has it. -/
def Goes (n : Nat) (rest : List Item) : Prop :=
  ∀ (mode : Mode) (tid : Option Nat) {s : MemSim} {file : List (List Char)},
    (∀ t ∈ tid, t < 2 ^ 31) → s.threadnumber = BitVec.ofNat 32 n → Holds rest file →
      mode.Reads file (tid.map (BitVec.ofNat 32)) s
        ((readItems n rest mode tid).map fun l => loadAll l s)

/-- The loop over instructions begins with an item. -/
theorem reads_code_item (htid : ∀ t ∈ tid, t < 2 ^ 31) (hs : s.threadnumber = BitVec.ofNat 32 n)
    (ih : Goes n rest) (h : Holds (x :: rest) file) :
    Mode.code.Reads file (tid.map (BitVec.ofNat 32)) s
      ((readItems n (x :: rest) .code tid).map fun l => loadAll l s) := by
  intro inst
  cases x with
  | gap text hgap =>
      obtain ⟨first, pieces, img, rfl, himg, hfirst, hpieces, hcases⟩ := h.gap
      rw [readItems]
      split
      · rename_i hblank
        rw [if_pos hblank] at hcases
        obtain ⟨-, rfl, hends, hstore⟩ := hcases
        rw [readCode_cons hends, hstore]
        rfl
      · rename_i hblank
        rw [if_neg hblank] at hcases
        rw [readCode, hcases, if_pos rfl, readSegments_pieces hpieces]
        exact ih .look tid htid hs himg
  | thread t more hends =>
      obtain ⟨tail, img, rfl, himg, -⟩ := h.thread
      rw [readCode_cons (not_endsBlock (by decide) tail), storeInst_unknown (by decide)]
      rfl
  | code c =>
      obtain ⟨eol, img, -, rfl, -⟩ := h.code
      rw [List.cons_append, readCode_cons (not_endsBlock (by decide) _),
        storeInst_unknown (by decide)]
      rfl
  | data d =>
      obtain ⟨eol, img, -, rfl, himg, hfits⟩ := h.data
      obtain ⟨tail, htail, hread⟩ := readSegments_lost (tid.map (BitVec.ofNat 32)) s
        (inBlock_data hfits) himg
      have hends : endsBlock 'D' ('D' :: '@' :: d.address.text ++ eol) = true := rfl
      rw [readCode, hends, if_pos rfl, hread]
      exact ih .look tid htid hs (h.tail htail)

/-- The words of a block of data, and then the rest of the items. -/
theorem reads_words (htid : ∀ t ∈ tid, t < 2 ^ 31) (hs : s.threadnumber = BitVec.ofNat 32 n)
    (ih : Goes n rest) (start : BitVec 32) (words : List (BitVec 32))
    (hlen : words.length ≤ dataSize) {d : Data} (h : Holds (.data d :: rest) file)
    {img : List (List Char)} (hfits : ∀ w ∈ d.words, Fits w.text)
    (himg : Delivers (d.words.map Word.text ++ rest.flatMap Item.lines) img) :
    (readData MemSim.loader img words.length (tid.map (BitVec.ofNat 32))
        (s.loadWords start words)).toOption =
      (readItems n rest (.data start (words ++ d.words.map Word.value)) tid).map
        fun l => loadAll l s := by
  obtain ⟨tail, htail, hread⟩ := readData_words (s := s) start d.words words hfits hlen himg
  rw [hread]
  split
  · rename_i hfit
    exact ih (.data start (words ++ d.words.map Word.value)) tid htid hs (h.tail htail) hfit
  · rename_i hfit
    rw [readItems_overflow n rest tid (Nat.lt_of_not_le hfit)]
    rfl

/-- The loop over data begins with an item. -/
theorem reads_data_item {start : BitVec 32} {words : List (BitVec 32)}
    (htid : ∀ t ∈ tid, t < 2 ^ 31) (hs : s.threadnumber = BitVec.ofNat 32 n)
    (ih : Goes n rest) (h : Holds (x :: rest) file) :
    (Mode.data start words).Reads file (tid.map (BitVec.ofNat 32)) s
      ((readItems n (x :: rest) (.data start words) tid).map fun l => loadAll l s) := by
  intro hlen
  -- An item that ends the block leaves the rest to the loop that looks for blocks.
  have hlook : ∀ {img}, Holds rest img →
      (readSegments MemSim.loader img (tid.map (BitVec.ofNat 32))
        (s.loadWords start words)).toOption =
      (if words.length ≤ dataSize then (readItems n rest .look tid).map (.data start words :: ·)
        else none).map fun l => loadAll l s := by
    intro img himg
    have hread := ih .look tid htid (s := s.loadWords start words) hs himg
    rw [if_pos hlen, Option.map_map]
    exact hread
  -- Any other is taken for words.
  have hword : ∀ {line img}, IsWord line 0 → Holds rest img →
      (readData MemSim.loader (line :: img) words.length (tid.map (BitVec.ofNat 32))
        (s.loadWords start words)).toOption =
      (readItems n rest (.data start (words ++ [0])) tid).map fun l => loadAll l s := by
    intro line img hline himg
    rw [readData_word hline]
    have hlong : (words ++ [(0 : BitVec 32)]).length = words.length + 1 := List.length_append
    split
    · exact ih (.data start (words ++ [0])) tid htid hs himg (by omega)
    · rw [readItems_overflow n rest tid (by omega)]
      rfl
  rw [readItems_data]
  cases x with
  | gap text hgap =>
      obtain ⟨first, pieces, img, rfl, himg, hfirst, hpieces, hcases⟩ := h.gap
      cases hblank : isBlank text with
      | true =>
          rw [hblank, if_pos rfl] at hcases
          obtain ⟨hzero, rfl, -⟩ := hcases
          rw [if_neg (by simp [Item.endsData, hblank])]
          exact hword hzero himg
      | false =>
          rw [hblank, if_neg Bool.false_ne_true] at hcases
          rw [if_pos (by simp [Item.endsData, hblank]), readData, hcases, if_pos rfl,
            readSegments_pieces hpieces]
          exact hlook himg
  | thread t more hends =>
      obtain ⟨tail, img, rfl, himg, -⟩ := h.thread
      refine hword (isWord_zero (by decide) fun d hd => ?_) himg
      obtain rfl : 'T' = d := Option.some.inj hd
      exact ⟨rfl, by decide, by decide⟩
  | code c =>
      obtain ⟨eol, img, -, rfl, himg, hfits⟩ := h.code
      obtain ⟨tail, htail, hread⟩ := readSegments_lost (tid.map (BitVec.ofNat 32))
        (s.loadWords start words) (inBlock_code hfits) himg
      have hends : endsBlock 'I' ('I' :: '@' :: c.address.text ++ eol) = true := rfl
      rw [readData, hends, if_pos rfl, hread]
      exact hlook (h.tail htail)
  | data d =>
      obtain ⟨eol, img, -, rfl, himg, hfits⟩ := h.data
      have hzero : IsWord ('D' :: '@' :: d.address.text ++ eol) 0 := by
        refine isWord_zero (by decide) fun c hc => ?_
        obtain rfl : 'D' = c := Option.some.inj hc
        exact ⟨rfl, by decide, by decide⟩
      have hlong : (words ++ [(0 : BitVec 32)]).length = words.length + 1 := List.length_append
      have htaken : words ++ (Item.data d).taken = words ++ [0] ++ d.words.map Word.value := by
        rw [List.append_assoc]
        rfl
      rw [readData_word hzero, if_neg (show ¬(Item.data d).endsData = true from Bool.false_ne_true), htaken]
      split
      · exact reads_words htid hs ih start (words ++ [0]) (by omega) h hfits himg
      · rw [readItems_overflow n rest tid (by rw [List.length_append]; omega)]
        rfl

/-- An `I@` line. At the end of the file what is left of it in the line buffer
is taken for an instruction. -/
theorem readSegments_code_line (w : Word) {eol : List Char} (heol : Eol eol)
    (img : List (List Char)) (tid : Option (BitVec 32)) (s : MemSim) :
    (readSegments MemSim.loader (('I' :: '@' :: w.text ++ eol) :: img) tid s).toOption =
      if img = [] then none
      else (readCode MemSim.loader img 0 tid { s with progStart := w.value }).toOption := by
  have hstart := @getStart_eq 'I' (by decide) w eol heol
  simp only [List.cons_append] at hstart ⊢
  rw [readSegments, hstart]
  cases img with
  | nil => exact storeInst_unknown (by decide) [] 0 tid { s with progStart := w.value }
  | cons line img => rfl

/-- A `D@` line. At the end of the file what is left of it is taken for a
word. -/
theorem readSegments_data_line (w : Word) {eol : List Char} (heol : Eol eol)
    (img : List (List Char)) (tid : Option (BitVec 32)) (s : MemSim) :
    (readSegments MemSim.loader (('D' :: '@' :: w.text ++ eol) :: img) tid s).toOption =
      if img = [] then some (s.loadWords w.value [0])
      else (readData MemSim.loader img 0 tid (s.loadWords w.value [])).toOption := by
  have hstart := @getStart_eq 'D' (by decide) w eol heol
  have hnil : s.loadWords w.value [] = { s with dataStart := w.value } := by
    rw [MemSim.loadWords, List.map_nil, overwrite_nil]
  have hzero : s.loadWords w.value [0] =
      { s with dataStart := w.value, data := Function.update s.data 0 0 } := by
    rw [MemSim.loadWords, List.map_singleton, overwrite_cons, overwrite_nil]
  simp only [List.cons_append] at hstart ⊢
  rw [readSegments, hstart, hzero, hnil]
  cases img <;> rfl

/-- A block of instructions with lines, for a thread or without one. -/
theorem readCode_block (hn : n < 2 ^ 31) {c : Code} (hne : c.lines ≠ []) (last : Bool)
    {bares : List (List Char)} (htid : ∀ t ∈ tid, t < 2 ^ 31)
    (hs : s.threadnumber = BitVec.ofNat 32 n) (hfits : ∀ l ∈ c.lines, Fits l.text)
    (hfile : Delivers (c.lines.map CodeLine.text ++ bares) file) :
    ∃ tail inst, Delivers bares tail ∧
      (readCode MemSim.loader file 0 (tid.map (BitVec.ofNat 32))
        { s with progStart := c.address.value }).toOption =
        if c.stores n tid last then
          (readCode MemSim.loader tail inst (tid.map (BitVec.ofNat 32))
            ((Loading.code tid c).apply s)).toOption
        else none := by
  have hempty : c.lines.isEmpty = false := List.isEmpty_eq_false_iff.mpr hne
  -- Without a thread the first line is not stored.
  have hfails : (∀ t ∈ tid, ¬t < n) → (readCode MemSim.loader file 0
      (tid.map (BitVec.ofNat 32)) { s with progStart := c.address.value }).toOption = none := by
    intro hnot
    obtain ⟨l, lines, hlines⟩ := List.exists_cons_of_ne_nil hne
    rw [hlines] at hfile hfits
    have hl := inBlock_code hfits l.text (List.mem_map_of_mem (List.mem_cons_self ..))
    obtain ⟨eol, img, heol, -, rfl, -⟩ := Delivers.exists_line hfile hl.1 hl.head
    have hends : endsBlock 'D' (l.text ++ eol) = false := by
      obtain ⟨d, rest, htext, hd⟩ := l.exists_head
      rw [htext]
      refine not_endsBlock ?_ _
      rcases hd with rfl | rfl | rfl | rfl | rfl <;> decide
    rw [readCode_cons hends]
    cases tid with
    | none => rfl
    | some t =>
        have hstore := storeInst_eq hn (htid t rfl) (s := { s with progStart := c.address.value })
          hs l heol 0
        rw [Option.map_some, hstore, if_neg fun h => hnot t rfl h.1]
        rfl
  obtain ⟨tail₀, htail₀, -⟩ := readSegments_lost none s (inBlock_code hfits) hfile
  have hstores : c.stores n tid last =
      (tid.any (· < n) && decide (c.lines.length ≤ instSlots)) := by
    rw [Code.stores, hempty, if_neg Bool.false_ne_true]
  rw [hstores]
  cases tid with
  | none => exact ⟨tail₀, 0, htail₀, hfails fun t h => nomatch h⟩
  | some t =>
      by_cases ht : t < n
      · obtain ⟨tail, htail, hread⟩ := readCode_lines hn ht c.lines 0
          (s := { s with progStart := c.address.value }) hfits hs (Nat.zero_le _) hfile
        refine ⟨tail, 0 + c.lines.length, htail, ?_⟩
        rw [Option.map_some, hread, Nat.zero_add]
        simp [ht, Loading.apply]
      · refine ⟨tail₀, 0, htail₀, ?_⟩
        rw [hfails fun u hu => by rw [← Option.some.inj hu]; exact ht]
        simp [ht]

theorem lines_ne_nil {items : List Item} (h : items ≠ []) : items.flatMap Item.lines ≠ [] := by
  obtain ⟨x, items, rfl⟩ := List.exists_cons_of_ne_nil h
  rw [List.flatMap_cons]
  cases x <;> exact List.cons_ne_nil _ _

/-- The loop that looks for blocks begins with a block of instructions. -/
theorem reads_look_code (hn : n < 2 ^ 31) (htid : ∀ t ∈ tid, t < 2 ^ 31)
    (hs : s.threadnumber = BitVec.ofNat 32 n) (ih : Goes n rest) {c : Code}
    (h : Holds (.code c :: rest) file) :
    (readSegments MemSim.loader file (tid.map (BitVec.ofNat 32)) s).toOption =
      (readItems n (.code c :: rest) .look tid).map fun l => loadAll l s := by
  obtain ⟨eol, img, heol, rfl, himg, hfits⟩ := h.code
  rw [readSegments_code_line c.address heol, readItems]
  have hs' : ((Loading.code tid c).apply s).threadnumber = BitVec.ofNat 32 n := by
    cases tid <;> exact hs
  by_cases hlines : c.lines = []
  · rw [hlines, List.map_nil, List.nil_append] at himg
    have hload : (Loading.code tid c).apply s = { s with progStart := c.address.value } := by
      cases tid with
      | none => rfl
      | some t =>
          rw [Loading.apply, hlines, List.map_nil, overwrite_nil, Function.update_eq_self]
    have hstores : c.stores n tid rest.isEmpty = !rest.isEmpty := by
      rw [Code.stores, hlines]
      rfl
    rw [hstores]
    cases hlast : rest.isEmpty with
    | true =>
        rw [List.isEmpty_iff.mp hlast] at himg
        rw [himg.eq_nil]
        rfl
    | false =>
        have hne : img ≠ [] := himg.ne_nil (lines_ne_nil (List.isEmpty_eq_false_iff.mp hlast))
        rw [if_neg hne, ← hload, ih .code tid htid hs' (h.tail himg) 0, Bool.not_false,
          if_pos rfl, Option.map_map]
        rfl
  · have hne : img ≠ [] := himg.ne_nil fun hnil =>
      hlines (List.map_eq_nil_iff.mp (List.append_eq_nil_iff.mp hnil).1)
    obtain ⟨tail, inst, htail, hread⟩ := readCode_block hn hlines rest.isEmpty htid hs
      hfits himg
    rw [if_neg hne, hread]
    split
    · rw [ih .code tid htid hs' (h.tail htail) inst, Option.map_map]
      rfl
    · rfl

/-- The loop that looks for blocks begins with a block of data. -/
theorem reads_look_data (htid : ∀ t ∈ tid, t < 2 ^ 31) (hs : s.threadnumber = BitVec.ofNat 32 n)
    (ih : Goes n rest) {d : Data} (h : Holds (.data d :: rest) file) :
    (readSegments MemSim.loader file (tid.map (BitVec.ofNat 32)) s).toOption =
      (readItems n (.data d :: rest) .look tid).map fun l => loadAll l s := by
  obtain ⟨eol, img, heol, rfl, himg, hfits⟩ := h.data
  rw [readSegments_data_line d.address heol, readItems]
  by_cases hbare : (rest.isEmpty && d.words.isEmpty) = true
  · obtain ⟨hlast, hwords⟩ := Bool.and_eq_true_iff.mp hbare
    rw [List.isEmpty_iff.mp hwords, List.isEmpty_iff.mp hlast, List.map_nil] at himg
    rw [himg.eq_nil, if_pos rfl, if_pos hbare, List.isEmpty_iff.mp hlast, readItems,
      if_pos (show [(0 : BitVec 32)].length ≤ dataSize by decide)]
    rfl
  · have hne : img ≠ [] := by
      refine himg.ne_nil fun hnil => ?_
      obtain ⟨hwords, hlast⟩ := List.append_eq_nil_iff.mp hnil
      rw [Bool.and_eq_true_iff, List.isEmpty_iff, List.isEmpty_iff] at hbare
      refine hbare ⟨?_, List.map_eq_nil_iff.mp hwords⟩
      by_contra hnot
      exact lines_ne_nil hnot hlast
    rw [if_neg hne, if_neg hbare]
    exact reads_words htid hs ih d.address.value [] (Nat.zero_le _) h hfits himg

/-- The loop that looks for blocks begins with an item. -/
theorem reads_look_item (hn : n < 2 ^ 31) (htid : ∀ t ∈ tid, t < 2 ^ 31)
    (hs : s.threadnumber = BitVec.ofNat 32 n) (ih : Goes n rest) (h : Holds (x :: rest) file) :
    Mode.look.Reads file (tid.map (BitVec.ofNat 32)) s
      ((readItems n (x :: rest) .look tid).map fun l => loadAll l s) := by
  cases x with
  | gap text hgap =>
      obtain ⟨first, pieces, img, rfl, himg, hfirst, hpieces, -⟩ := h.gap
      have hskip := readSegments_pieces (List.forall_mem_cons.mpr ⟨hfirst, hpieces⟩) img
        (tid.map (BitVec.ofNat 32)) s
      exact (congrArg Except.toOption hskip).trans (ih .look tid htid hs himg)
  | thread t more hends =>
      obtain ⟨tail, img, rfl, himg, hatoi⟩ := h.thread
      have htid' : ∀ u ∈ some t.number.value, u < 2 ^ 31 := fun u hu => by
        rw [← Option.some.inj hu]
        exact t.lt
      have hread := ih .look (some t.number.value) htid' hs himg
      show (readSegments MemSim.loader img (some (atoi tail)) s).toOption = _
      rw [hatoi]
      exact hread
  | code c => exact reads_look_code hn htid hs ih h
  | data d => exact reads_look_data htid hs ih h

/-- Reading the items of a file loads what `readItems` says. -/
theorem reads_items (hn : n < 2 ^ 31) (items : List Item) : Goes n items := by
  induction items with
  | nil =>
      intro mode tid s file _ _ h
      obtain rfl := Delivers.eq_nil h.delivers
      cases mode with
      | look => rfl
      | code => exact fun _ => rfl
      | data start words =>
          intro hlen
          rw [readItems, if_pos hlen]
          rfl
  | cons x rest ih =>
      intro mode tid s file htid hs h
      cases mode with
      | look => exact reads_look_item hn htid hs ih h
      | code => exact reads_code_item htid hs ih h
      | data start words => exact reads_data_item htid hs ih h

end

end SimApi

end ArchSim
