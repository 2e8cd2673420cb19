import ArchSim.SimStored

/-!
# Which images are loaded

`SIM_MemReset` from the text of an image to the globals: the configuration
lines, and then what `readItems` says of the items. The images that are loaded
completely, whatever memory there was before, are those whose segments are
`Separated`.
-/

namespace ArchSim

namespace SimApi

open CString MtCore

/-! ## Configuration lines -/

section

variable {heap : Nat → Nat → Instruction} {bares file : List (List Char)}

theorem atoi_eol {eol : List Char} (heol : Eol eol) (s : List Char) : atoi (s ++ eol) = atoi s := by
  rcases heol with rfl | rfl
  · rw [List.append_nil]
  · exact atoi_newline s

/-- A line that begins with another letter sets nothing. -/
theorem settings_read_of_ne {line : List Char} (h : isSetting line = false) (v : Settings) :
    v.read [line] = v := by
  cases line with
  | nil => rfl
  | cons c rest =>
      have hc : c ∉ ['N', 'S', 'L', 'O'] := of_decide_eq_false h
      simp only [List.mem_cons, List.not_mem_nil, or_false, not_or] at hc
      simp [Settings.read, setting, hc]

theorem readConfig_pieces {pieces : List (List Char)} (h : Skipped isSetting pieces)
    (img : List (List Char)) (s : MemSim) :
    readConfig heap (pieces ++ img) s = readConfig heap img s := by
  induction pieces with
  | nil => rfl
  | cons piece pieces ih =>
      rw [List.cons_append, readConfig_skip _ (h piece (List.mem_cons_self ..))]
      exact ih fun p hp => h p (List.mem_cons_of_mem _ hp)

/-- One line before the `N` line. -/
theorem readConfig_line {line : List Char} (hfits : Fits line) (hN : line.head? ≠ some 'N')
    (hquiet : Skipped isSetting (fgets 1024 line).tail) (hfile : Delivers (line :: bares) file)
    (s : MemSim) :
    ∃ img s', Delivers bares img ∧ readConfig heap file s = readConfig heap img s' ∧
      s'.settings = s.settings.read [line] ∧ s'.dataStart = s.dataStart ∧ s'.data = s.data := by
  by_cases hhash : line.head? = some '#'
  · have hskip : isSetting line = false := by
      obtain ⟨rest, rfl⟩ := List.head?_eq_some_iff.mp hhash
      rfl
    have hblank : isBlank line = false := by
      rw [isBlank, hhash]
      rfl
    cases hfile with
    | @cons _ _ pieces img hline hs =>
        obtain ⟨first, rest, rfl, hrest, c, tail, rfl, hc⟩ :=
          exists_pieces isSetting_newline rfl (Or.inr hhash) hfits hquiet hline
        rw [hblank, if_neg Bool.false_ne_true] at hc
        have hfirst : isSetting (c :: tail) = false := by rcases hc with rfl | rfl <;> rfl
        exact ⟨img, s, hs, readConfig_pieces (List.forall_mem_cons.mpr ⟨hfirst, hrest⟩) img s,
          (settings_read_of_ne hskip _).symm, rfl, rfl⟩
  · obtain ⟨eol, img, heol, hne, rfl, hs⟩ := Delivers.exists_line hfile hfits hhash
    cases line with
    | nil =>
        obtain rfl : eol = ['\n'] := heol.resolve_left fun h => hne (by rw [h]; rfl)
        exact ⟨img, s, hs, rfl, rfl, rfl, rfl⟩
    | cons c rest =>
        have hc : c ≠ 'N' := fun h => hN (by rw [h]; rfl)
        have hatoi := atoi_eol heol rest
        by_cases hS : c = 'S'
        · subst hS
          exact ⟨img, { s with storeLatency := atoi (rest ++ eol) }, hs, rfl,
            by rw [hatoi]; rfl, rfl, rfl⟩
        by_cases hL : c = 'L'
        · subst hL
          exact ⟨img, { s with loadLatency := atoi (rest ++ eol) }, hs, rfl,
            by rw [hatoi]; rfl, rfl, rfl⟩
        by_cases hO : c = 'O'
        · subst hO
          exact ⟨img, { s with switchCycles := atoi (rest ++ eol) }, hs, rfl,
            by rw [hatoi]; rfl, rfl, rfl⟩
        have hskip : ∀ tail, isSetting (c :: tail) = false := by simp [isSetting, hc, hS, hL, hO]
        exact ⟨img, s, hs, readConfig_skip _ (hskip _) img s,
          (settings_read_of_ne (hskip rest) _).symm, rfl, rfl⟩

/-- The configuration part. -/
theorem readConfig_eq (n : Register) {rest : List Char} (hends : Ends 10 rest) :
    ∀ {config file : List (List Char)} {s : MemSim}, (∀ l ∈ config, l.head? ≠ some 'N') →
      (∀ l ∈ config, Skipped isSetting (fgets 1024 l).tail) →
      (∀ l ∈ config ++ ['N' :: (n.number.text ++ rest)], Fits l) →
      Delivers (config ++ ('N' :: (n.number.text ++ rest)) :: bares) file →
      ∃ s' img, Delivers bares img ∧ readConfig heap file s = (s', img) ∧
        s'.threadnumber = BitVec.ofNat 32 n.number.value ∧ s'.instructions = heap ∧
        s'.settings = s.settings.read config ∧ s'.dataStart = s.dataStart ∧ s'.data = s.data
  | [], file, s, _, _, hfits, hfile => by
      obtain ⟨eol, img, heol, -, rfl, himg⟩ := Delivers.exists_line hfile
        (hfits _ (List.mem_singleton.mpr rfl)) (by simp)
      have hends' : Ends 10 (rest ++ eol) := by
        cases rest with
        | nil => exact heol.ends 10
        | cons c rest => exact hends
      have hn := atoi_register n hends'
      rw [← List.append_assoc] at hn
      exact ⟨_, img, himg, rfl, hn, rfl, rfl, rfl, rfl⟩
  | l :: config, file, s, hconfig, hquiet, hfits, hfile => by
      obtain ⟨img, s₁, himg, hread₁, hset₁, hstart₁, hdata₁⟩ :=
        @readConfig_line heap _ _ l (hfits l (List.mem_cons_self ..))
          (hconfig l (List.mem_cons_self ..)) (hquiet l (List.mem_cons_self ..)) hfile s
      obtain ⟨s', tail, htail, hread, hn, hinst, hset, hstart, hdata⟩ := readConfig_eq n hends
        (s := s₁) (fun l' hl' => hconfig l' (List.mem_cons_of_mem _ hl'))
        (fun l' hl' => hquiet l' (List.mem_cons_of_mem _ hl'))
        (fun l' hl' => hfits l' (List.mem_cons_of_mem _ hl')) himg
      rw [hset₁] at hset
      exact ⟨s', tail, htail, hread₁.trans hread, hn, hinst, hset, hstart.trans hstart₁,
        hdata.trans hdata₁⟩

end

/-! ## The image file -/

/-- What is loaded of an image, `none` if reading it goes wrong. -/
def ImageText.loadings (img : ImageText) : Option (List Loading) :=
  readItems img.threads.number.value img.items .look none

section

variable {img : ImageText} {text : List Char}

/-- `SIM_MemReset` on an image. -/
theorem simMemReset_reads (htext : IsText img.lines text) (hquiet : img.Quiet)
    (heap : Nat → Nat → Instruction) (s₀ : MemSim) :
    ∃ s, (simMemReset heap (some text) s₀).toOption =
        img.loadings.map (fun l => ((0 : Int), loadAll l s)) ∧
      s.threadnumber = BitVec.ofNat 32 img.threads.number.value ∧ s.instructions = heap ∧
      s.settings = s₀.settings.read img.config ∧ s.dataStart = s₀.dataStart ∧
      s.data = s₀.data := by
  have hfits : ∀ l ∈ img.config ++ ['N' :: (img.threads.number.text ++ img.rest)], Fits l := by
    intro l hl
    refine img.fits l ?_
    rw [imageLines, ← List.singleton_append, ← List.append_assoc]
    exact List.mem_append_left _ hl
  obtain ⟨s, tail, htail, hconfig, hn, hrest⟩ := @readConfig_eq heap _ img.threads img.rest
    img.ends img.config _ s₀ img.config_ok hquiet.config hfits (delivers_fgets htext)
  refine ⟨s, ?_, hn, hrest⟩
  have hitems : Holds img.items tail := ⟨fun l hl => img.fits l
    (List.mem_append_right _ (List.mem_cons_of_mem _ hl)), hquiet.items, htail⟩
  have hread : (readSegments MemSim.loader tail none s).toOption =
      img.loadings.map fun l => loadAll l s :=
    reads_items img.threads.lt img.items .look none (fun t ht => nomatch ht) hn hitems
  have hmap : img.loadings.map (fun l => ((0 : Int), loadAll l s)) =
      (readSegments MemSim.loader tail none s).toOption.map fun s => ((0 : Int), s) := by
    rw [hread, Option.map_map]
    rfl
  rw [hmap]
  simp only [simMemReset, hconfig]
  cases readSegments MemSim.loader tail none s <;> rfl

theorem toOption_eq_some {α : Type} {e : Except Fault α} {a : α} :
    e.toOption = some a ↔ e = .ok a := by
  cases e <;> simp [Except.toOption]

end

/-! ## What is loaded -/

/-- Instruction `k` of each thread is the `k`-th line of its block, data word
`k` is the `k`-th word of the data block, and `data_start` is its address. -/
structure Loaded (heap : Nat → Nat → Instruction) (items : List Item) (s : MemSim) : Prop where
  code : ∀ t c, (some t, c) ∈ codes none items → ∀ k l, c.lines[k]? = some l →
    s.instructions t k = l.line.read (heap t k)
  data : ∀ d ∈ datas items, s.dataStart = d.address.value ∧
    ∀ k w, d.words[k]? = some w → s.data k = w.value

/-- The memory at the start of the program. -/
def initial : MemSim := ⟨0, 0, 0, 0, 0, 0, fun _ _ => ⟨.nop, 0, 0, 0, false⟩, fun _ => 0⟩

/-- No instruction line leaves every record as it is. -/
theorem Line.exists_read_ne (l : Line) : ∃ inst, l.read inst ≠ inst := by
  cases l with
  | nop trail => exact ⟨⟨.halt, 0, 0, 0, false⟩, fun h => nomatch congrArg Instruction.opcode h⟩
  | operands opc hopc dst gap₁ src1 gap₂ src2 trail =>
      exact ⟨⟨.nop, 0, 0, 0, false⟩, fun h => hopc.1 (congrArg Instruction.opcode h)⟩
  | halt dst trail =>
      exact ⟨⟨.nop, 0, 0, 0, false⟩, fun h => nomatch congrArg Instruction.opcode h⟩

section

variable {items : List Item} {n : Nat} {l : List Loading}

theorem Format.hasRoom (h : Format n none items) : HasRoom n none items := fun p hp =>
  ⟨h.threads p hp, h.insts p hp⟩

/-- With at most one block of data, its words are in the array, perhaps with
zeros behind them. -/
theorem loadAll_data_of_stored (hformat : Format n none items)
    (hdatas : List.Forall₂ Extends (meantDatas .look items) (storedDatas l)) (s : MemSim) :
    (loadAll l s).dataStart = ((datas items).head?.map fun d => d.address.value).getD s.dataStart ∧
      ∀ k, ((datas items).head?.bind fun d => d.words[k]?).map Word.value =
          some ((loadAll l s).data k) ∨
        ((datas items).head?.bind fun d => d.words[k]?) = none ∧
          ((loadAll l s).data k = s.data k ∨ (loadAll l s).data k = 0) := by
  obtain ⟨hstart, hdata⟩ := loadAll_data l s
  cases hitems : datas items with
  | nil =>
      rw [meantDatas, hitems] at hdatas
      rw [List.forall₂_nil_left_iff.mp hdatas] at hstart hdata
      exact ⟨hstart, fun k => Or.inr ⟨rfl, Or.inl (hdata k)⟩⟩
  | cons d rest =>
      have hone := hformat.one_data
      rw [hitems, List.length_cons] at hone
      obtain rfl := List.eq_nil_of_length_eq_zero (show rest.length = 0 by omega)
      rw [meantDatas, hitems] at hdatas
      obtain ⟨b, rest, ⟨haddr, m, hwords⟩, hrest, hstored⟩ := List.forall₂_cons_left_iff.mp hdatas
      obtain rfl := List.forall₂_nil_left_iff.mp hrest
      rw [hstored] at hstart hdata
      refine ⟨hstart.trans haddr, fun k => ?_⟩
      have hlast : (loadAll l s).data k = b.2[k]?.getD (s.data k) := by
        rw [hdata, lastWord, List.reverse_singleton, List.findSome?_singleton]
      rw [hlast, hwords, List.head?_cons, Option.bind_some, ← List.getElem?_map]
      rcases Nat.lt_or_ge k (d.words.map Word.value).length with hlt | hge
      · rw [List.getElem?_append_left hlt, List.getElem?_eq_getElem hlt]
        exact Or.inl rfl
      · have hnone := List.getElem?_eq_none hge
        rw [List.getElem?_append_right hge, List.getElem?_replicate]
        refine Or.inr ⟨Option.map_eq_none_iff.mp (List.getElem?_map ▸ hnone), ?_⟩
        split
        · exact Or.inr rfl
        · exact Or.inl rfl

/-- What is stored is loaded. -/
theorem loaded_of_stored (hformat : Format n none items)
    (hcodes : storedCodes l = meantCodes none items)
    (hdatas : List.Forall₂ Extends (meantDatas .look items) (storedDatas l)) (s : MemSim) :
    Loaded s.instructions items (loadAll l s) where
  code := by
    intro t c hc k i hi
    have hne : c.lines ≠ [] := by
      intro hnil
      rw [hnil] at hi
      cases hi
    have hmem : (some t, c) ∈ storedCodes l := by
      rw [hcodes]
      exact List.mem_filter.mpr ⟨hc, by simp [hne]⟩
    have hnodup : ((storedCodes l).map Prod.fst).Nodup := by
      rw [hcodes]
      exact hformat.distinct.sublist (List.filter_sublist.map Prod.fst)
    rw [loadAll_instructions l s hnodup hmem]
    simp [overwrite, hi]
  data := by
    intro d hd
    obtain ⟨hstart, hdata⟩ := loadAll_data_of_stored hformat hdatas s
    have hone : datas items = [d] := by
      obtain ⟨d', hd'⟩ := List.length_eq_one_iff.mp
        (Nat.le_antisymm hformat.one_data (List.length_pos_of_mem hd))
      rw [hd', List.mem_singleton] at hd
      rw [hd', hd]
    rw [hone] at hstart hdata
    refine ⟨hstart, fun k w hw => ?_⟩
    rcases hdata k with hword | ⟨hnone, -⟩
    · rw [List.head?_cons, Option.bind_some, hw] at hword
      exact (Option.some.inj hword).symm
    · rw [List.head?_cons, Option.bind_some, hw] at hnone
      cases hnone

/-- If all is loaded whatever the memory was before, then nothing is lost. -/
theorem separated_of_loaded (hformat : Format n none items)
    (hread : readItems n items .look none = some l)
    (h : ∀ heap start, ∃ s : MemSim, s.instructions = heap ∧ s.dataStart = start ∧
      Loaded heap items (loadAll l s)) :
    Separated items := by
  have hone : Mode.look.pending.length + (datas items).length = (datas items).length :=
    Nat.zero_add _
  refine separatedFrom_of_stored items .look l
    ⟨fun p hp => (hformat.threads p hp).imp fun _ => And.right, hformat.distinct,
      Nat.le_trans (Nat.le_of_eq hone) hformat.one_data, Or.inl rfl, ?_, ?_⟩ hread
  · rintro ⟨tid, c⟩ hp
    obtain ⟨hmem, hne⟩ := List.mem_filter.mp hp
    obtain ⟨t, -, ht⟩ := hformat.threads _ hmem
    obtain rfl : tid = some t := ht
    obtain ⟨first, rest, hlines⟩ := List.exists_cons_of_ne_nil
      (show c.lines ≠ [] by simpa using hne)
    by_contra hnot
    -- A record of before that its first line does not leave as it is.
    obtain ⟨inst, hinst⟩ := first.line.exists_read_ne
    obtain ⟨s, hs, -, hloaded⟩ := h (fun _ _ => inst) 0
    have hcode := hloaded.code t c hmem 0 first (by rw [hlines]; rfl)
    rw [loadAll_instructions_of_not_mem l s hnot, hs] at hcode
    exact hinst hcode.symm
  · rw [hone]
    by_contra hlt
    have hnil : storedDatas l = [] := by
      have hone := hformat.one_data
      exact List.eq_nil_of_length_eq_zero (by omega)
    obtain ⟨d, hd⟩ := List.exists_mem_of_ne_nil (datas items) fun hnil' => by
      rw [hnil', hnil] at hlt
      exact hlt (Nat.le_refl 0)
    -- A `data_start` of before that is not the address of the lost block.
    obtain ⟨s, -, hs, hloaded⟩ := h initial.instructions (d.address.value + 1)
    have hstart := (hloaded.data d hd).1
    rw [(loadAll_data l s).1, hnil, hs] at hstart
    simp at hstart

end

/-- A word of one digit. -/
def word (c : Char) (h : isDigit 16 c = true) : Word where
  number := .hex (.ofDigit c h) <| by
    have hlt := digit_lt h
    rw [Numeral.value_ofDigit]
    omega
  rest := []
  parted := fun _ hc => (nomatch hc)

/-- The line `HALT $0 # end`. -/
def haltLine : CodeLine where
  line := .halt (register '0' rfl) 1
  spaced := trivial
  rest := "# end".toList
  rest_ok := Or.inr (Or.inr ⟨rfl, Nat.one_pos⟩)
  comma := by decide
  dollar := by decide
  plain := Or.inl (by decide)
  short := by decide

def emptyLine : Item := .gap [] (Or.inl nofun)

def haltCode : Code := ⟨word '0' rfl, [haltLine]⟩

def haltData : Data := ⟨word '4' rfl, [word '7' rfl]⟩

/-- A thread that halts, and a data word, with or without an empty line
between them. -/
def haltItems (gap : Bool) : List Item :=
  emptyLine :: .thread (register '0' rfl) [] (Ends.nil 10) :: .code haltCode ::
    if gap then [emptyLine, .data haltData] else [.data haltData]

theorem haltFormat (gap : Bool) : Format 1 none (haltItems gap) := by
  have hcodes : codes none (haltItems gap) = [(some 0, haltCode)] := by cases gap <;> rfl
  have hdatas : datas (haltItems gap) = [haltData] := by cases gap <;> rfl
  refine ⟨?_, ?_, ?_, ?_, ?_⟩
  · rw [hcodes]
    exact List.forall_mem_singleton.mpr ⟨0, Nat.one_pos, rfl⟩
  · rw [hcodes]
    exact List.nodup_singleton _
  · rw [hcodes]
    exact List.forall_mem_singleton.mpr (show 1 ≤ 40 by omega)
  · rw [hdatas]
    exact Nat.le_refl 1
  · rw [hdatas]
    exact List.forall_mem_singleton.mpr (show 1 ≤ 100 by omega)

def haltImage (gap : Bool) : ImageText where
  config := ["L2 # latency".toList]
  config_ok := by decide
  threads := register '1' isDigit_one
  rest := []
  ends := Ends.nil 10
  items := haltItems gap
  fits := by cases gap <;> decide

theorem quiet_haltImage (gap : Bool) : (haltImage gap).Quiet :=
  ImageText.quiet_of_short _ (by cases gap <;> decide)

def haltText (gap : Bool) : List Char :=
  "L2 # latency\nN1\n\nT0\nI@0x0\nHALT $0 # end\n".toList ++
    (if gap then "\n".toList else []) ++ "D@0x4\n0x7\n".toList

theorem isText_haltText (gap : Bool) : IsText (haltImage gap).lines (haltText gap) := by
  have htext := isText_flatMap (haltImage gap).lines
  cases gap <;> exact htext

-- Behind instructions a line of white space goes wrong, behind data it is taken for a word.
example (h : Gap ['\r']) : ¬Separated [.thread (register '0' rfl) [] (Ends.nil 10),
    .code haltCode, .gap ['\r'] h] ∧ Separated [.data haltData, .gap ['\r'] h] :=
  ⟨fun h => (nomatch h.2.1), show 2 ≤ 100 by omega⟩

end SimApi

end ArchSim
