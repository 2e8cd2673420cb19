import ArchSim.DataFlowMain

/-!
# Reading a program

What `readProgram` makes of a file of instructions, comments and blank
lines. A line that does not fit the buffer arrives in strings of 80
characters, and each of them is taken for a line of its own. The loop never
leaves the program buffer (`readLines_inBounds`), and it reads the
instructions of the file and nothing else exactly when there are fewer than
`2 ^ 31` of them and each string of a comment looks like a comment or a
blank line (`readProgram_exact_iff`).
-/

namespace ArchSim

namespace DataFlow

open CString

/-! ## Program files -/

/-- A decimal number of 32 bits. -/
structure Decimal where
  negative : Bool
  digits : Numeral 10
  lt : digits.value < 2 ^ 32

namespace Decimal

def text (d : Decimal) : List Char := if d.negative then '-' :: d.digits.text else d.digits.text

def value (d : Decimal) : Int := if d.negative then -d.digits.value else d.digits.value

end Decimal

/-- Blanks and tabs. -/
structure Gap where
  text : List Char
  mem : ∀ c ∈ text, c = ' ' ∨ c = '\t'

/-- An instruction as it is written. -/
structure InstLine where
  lead : Gap
  opcode : Decimal
  gap₁ : Gap
  dst : Decimal
  gap₂ : Gap
  src1 : Decimal
  gap₃ : Gap
  src2 : Decimal
  trail : Gap
  gap₁_ne : gap₁.text ≠ []
  gap₂_ne : gap₂.text ≠ []
  gap₃_ne : gap₃.text ≠ []

namespace InstLine

/-- The line from the first number on. -/
def body (l : InstLine) : List Char :=
  l.opcode.text ++ (l.gap₁.text ++ (l.dst.text ++ (l.gap₂.text ++ (l.src1.text ++
    (l.gap₃.text ++ (l.src2.text ++ l.trail.text))))))

def text (l : InstLine) : List Char := l.lead.text ++ l.body

def fields (l : InstLine) : InstFields where
  opcode := BitVec.ofInt 32 l.opcode.value
  dstIdx := BitVec.ofInt 32 l.dst.value
  src1Idx := BitVec.ofInt 32 l.src1.value
  src2Idx := BitVec.ofInt 32 l.src2.value

end InstLine

/-- A line of a program file, without its newline. -/
inductive ProgLine where
  | blank (text : List Char) (hblank : ∀ c ∈ text, isspace c = true ∧ c ≠ '\n')
  | comment (text : List Char) (hstart : (text.dropWhile isspace).head? = some '#')
      (hline : '\n' ∉ text ∧ '\x00' ∉ text)
  | inst (l : InstLine) (hlen : l.text.length ≤ 79)

namespace ProgLine

def text : ProgLine → List Char
  | blank text _ => text
  | comment text _ _ => text
  | inst l _ => l.text

/-- The instructions on the line: one or none. -/
def insts : ProgLine → List InstFields
  | inst l _ => [l.fields]
  | _ => []

def IsComment : ProgLine → Prop
  | comment .. => True
  | _ => False

end ProgLine

/-- The instructions of a file, in their order. -/
def instsOf (lines : List ProgLine) : List InstFields := lines.flatMap ProgLine.insts

/-- `readProgram` succeeds with these instructions: it has stored nothing else
in the program buffer, and every store was within its capacity. -/
def ReadsExactly (heap : Nat → InstFields) (file : List Char) (insts : List InstFields) : Prop :=
  ∃ s, readLines heap (fgets lineSize file) = .ok s ∧ s.lineNum = insts.length ∧
    (∀ k < insts.length, insts[k]? = some (s.progBuf k)) ∧
    readProgram heap (some file) =
      .ok ((insts.length : Nat), if s.maxInsts = 0 then none else some s.progBuf)

/-! ## The buffer -/

/-- There is room for the next store, or the buffer grows before it. -/
def ProgBuf.Fits (s : ProgBuf) : Prop := wrap s.lineNum ≤ s.maxInsts

theorem ProgBuf.grow_lt {s : ProgBuf} (h : s.Fits) : wrap s.grow.lineNum < s.grow.maxInsts := by
  unfold ProgBuf.Fits at h
  unfold ProgBuf.grow
  split
  · simp only [progSizeQuota]
    omega
  · omega

@[simp] theorem ProgBuf.grow_lineNum (s : ProgBuf) : s.grow.lineNum = s.lineNum := by
  unfold ProgBuf.grow
  split <;> rfl

@[simp] theorem ProgBuf.grow_progBuf (s : ProgBuf) : s.grow.progBuf = s.progBuf := by
  unfold ProgBuf.grow
  split <;> rfl

/-- The store after `grow` succeeds. -/
theorem ProgBuf.store_grow {s : ProgBuf} (h : s.Fits) (inst : InstFields) :
    ∃ s', s.grow.store inst = .ok s' ∧ s'.Fits ∧ s'.lineNum = s.lineNum + 1 ∧
      s'.progBuf = Function.update s.progBuf (wrap s.lineNum) inst := by
  have hlt := ProgBuf.grow_lt h
  refine ⟨_, if_pos hlt, ?_, ?_, ?_⟩
  · exact Nat.le_trans (wrap_succ_le _) hlt
  · simp only [ProgBuf.grow_lineNum]
  · simp only [ProgBuf.grow_lineNum, ProgBuf.grow_progBuf]

/-- What a line that is read without an error does. -/
inductive LineRead (s : ProgBuf) (line : List Char) (s' : ProgBuf) : Prop
  | ignored (h : isIgnored line = true) (lineNum : s'.lineNum = s.lineNum)
      (progBuf : s'.progBuf = s.progBuf)
  | stored (h : isIgnored line = false) (lineNum : s'.lineNum = s.lineNum + 1)

/-- A line is read within the buffer, or not at all. -/
theorem readLine_cases {s : ProgBuf} (h : s.Fits) (line : List Char) :
    readLine s line = .error .parseError ∨
      ∃ s', readLine s line = .ok s' ∧ s'.Fits ∧ LineRead s line s' := by
  unfold readLine
  by_cases hignored : isIgnored line = true
  · refine Or.inr ⟨s.grow, if_pos hignored, Nat.le_of_lt (ProgBuf.grow_lt h), ?_⟩
    exact .ignored hignored s.grow_lineNum s.grow_progBuf
  · simp only
    rw [if_neg hignored]
    split
    · obtain ⟨s', hstore, hfits, hnum, -⟩ := ProgBuf.store_grow h _
      exact Or.inr ⟨s', hstore, hfits, .stored (Bool.eq_false_iff.mpr hignored) hnum⟩
    · exact Or.inl rfl

/-- Every string that is not ignored makes one store. -/
theorem readLines_cases {lines : List (List Char)} :
    ∀ {s : ProgBuf}, s.Fits → lines.foldlM readLine s = .error .parseError ∨
      ∃ s', lines.foldlM readLine s = .ok s' ∧ s'.Fits ∧
        s'.lineNum = s.lineNum + lines.countP fun line => !isIgnored line := by
  induction lines with
  | nil => exact fun {s} h => Or.inr ⟨s, rfl, h, rfl⟩
  | cons line lines ih =>
      intro s h
      rw [List.foldlM_cons]
      rcases readLine_cases h line with herror | ⟨s₁, hline, h₁, hread⟩
      · rw [herror]
        exact Or.inl rfl
      · rw [hline]
        rcases ih h₁ with herror | ⟨s', hrun, h', hnum⟩
        · exact Or.inl herror
        · refine Or.inr ⟨s', hrun, h', ?_⟩
          cases hread with
          | ignored hignored hline =>
              rw [hnum, hline, List.countP_cons_of_neg (by rw [hignored]; exact Bool.false_ne_true)]
          | stored hignored hline =>
              rw [hnum, hline, List.countP_cons_of_pos (by rw [hignored]; rfl), Nat.add_assoc,
                Nat.add_comm 1]

/-- The buffer is never left, whatever the file is. -/
theorem readLines_inBounds (heap : Nat → InstFields) (lines : List (List Char)) :
    readLines heap lines ≠ .error .outOfBounds := by
  have hfits : ProgBuf.Fits { lineNum := 0, maxInsts := 0, progBuf := heap } := Nat.le_refl 0
  intro hfault
  have hcases : lines.foldlM readLine _ = .error .parseError ∨ _ := readLines_cases hfits
  rcases hcases with herror | ⟨s', hrun, -⟩
  · cases herror.symm.trans hfault
  · cases hrun.symm.trans hfault

theorem readLines_ignored {lines : List (List Char)}
    (hlines : ∀ line ∈ lines, isIgnored line = true) :
    ∀ {s : ProgBuf}, s.Fits → ∃ s', lines.foldlM readLine s = .ok s' ∧ s'.Fits ∧
      s'.lineNum = s.lineNum ∧ s'.progBuf = s.progBuf := by
  induction lines with
  | nil => exact fun {s} h => ⟨s, rfl, h, rfl, rfl⟩
  | cons line lines ih =>
      obtain ⟨hline, hrest⟩ := List.forall_mem_cons.mp hlines
      intro s h
      have hread : readLine s line = .ok s.grow := if_pos hline
      have hgrow : s.grow.Fits := Nat.le_of_lt (ProgBuf.grow_lt h)
      obtain ⟨s', hrun, h', hnum, hbuf⟩ := ih hrest hgrow
      rw [List.foldlM_cons, hread]
      exact ⟨s', hrun, h', hnum.trans s.grow_lineNum, hbuf.trans s.grow_progBuf⟩

/-! ## The strings of a line -/

theorem isIgnored_newline (line : List Char) : isIgnored (line ++ ['\n']) = isIgnored line := by
  unfold isIgnored
  rw [List.dropWhile_append]
  cases line.dropWhile isspace with
  | nil => rfl
  | cons c rest => rfl

/-- How many strings of a line are not ignored. -/
def readCount (line : List Char) : Nat := (fgets lineSize line).countP fun piece => !isIgnored piece

theorem readCount_eq_zero {line : List Char} :
    readCount line = 0 ↔ ∀ piece ∈ fgets lineSize line, isIgnored piece = true := by
  rw [readCount, List.countP_eq_zero]
  refine forall₂_congr fun piece _ => ?_
  rw [Bool.not_eq_true, Bool.not_eq_false']

/-- The newline does not make a difference. -/
theorem readCount_newline {line : List Char} (hline : '\n' ∉ line) :
    readCount (line ++ ['\n']) = readCount line := by
  cases line with
  | nil => rfl
  | cons c line =>
      obtain ⟨pieces, last, hpieces, hnewline⟩ :=
        @fgetsFrom_newline (lineSize - 1) (c :: line) (lineSize - 1) (List.cons_ne_nil c line) hline
      have hblank : (!isIgnored ['\n']) = false := rfl
      unfold readCount fgets
      rw [hpieces]
      rcases hnewline with hnewline | hnewline
      · rw [hnewline, List.countP_append, List.countP_append, List.countP_singleton,
          List.countP_singleton, isIgnored_newline]
      · rw [hnewline, List.countP_append, List.countP_append, List.countP_cons,
          List.countP_singleton, List.countP_singleton, hblank, if_neg Bool.false_ne_true,
          Nat.zero_add]

theorem fgets_append_newline (line file : List Char) :
    fgets lineSize (line ++ '\n' :: file) =
      fgets lineSize (line ++ ['\n']) ++ fgets lineSize file :=
  fgetsFrom_append_newline file

/-! ## Instruction lines -/

theorem Gap.isspace (g : Gap) : ∀ c ∈ g.text, isspace c = true := by
  intro c hc
  rcases g.mem c hc with rfl | rfl <;> rfl

theorem Gap.delims (g : Gap) : ∀ c ∈ g.text, c ∈ delims := by
  intro c hc
  rcases g.mem c hc with rfl | rfl
  · exact List.mem_cons_self ..
  · exact List.mem_cons_of_mem _ (List.mem_cons_self ..)

theorem isspace_of_mem_delims {c : Char} (h : c ∈ delims) : isspace c = true := by
  simp only [delims, List.mem_cons, List.not_mem_nil, or_false] at h
  rcases h with rfl | rfl | rfl | rfl <;> rfl

namespace Decimal

variable (d : Decimal)

theorem text_ne_nil : d.text ≠ [] := by
  unfold text
  split
  · exact List.cons_ne_nil _ _
  · exact d.digits.ne_nil

/-- A sign or a digit. -/
theorem mem_text {c : Char} (h : c ∈ d.text) : c = '-' ∨ isDigit 10 c = true := by
  unfold text at h
  split at h
  · exact (List.mem_cons.mp h).imp id (d.digits.digits c)
  · exact Or.inr (d.digits.digits c h)

theorem not_isspace {c : Char} (h : c ∈ d.text) : isspace c = false := by
  rcases d.mem_text h with rfl | hdigit
  · rfl
  · exact isspace_of_isDigit hdigit

theorem not_mem_delims {c : Char} (h : c ∈ d.text) : c ∉ delims := fun hc => by
  have hspace := isspace_of_mem_delims hc
  rw [d.not_isspace h] at hspace
  cases hspace

/-- The number is read, and nothing is left of its token. -/
theorem strtol_text : strtol d.text 10 = d.value ∧ strtolEnd d.text = [] := by
  have hlt := d.lt
  have hmag : magnitude d.digits.text 10 = d.digits.value := by
    have := d.digits.magnitude_dec (Ends.nil 10)
    rwa [List.append_nil] at this
  have hfits : magnitude d.digits.text 10 < 2 ^ 63 := by omega
  have hhead := d.digits.head_append []
  rw [List.append_nil] at hhead
  unfold text value
  split
  · refine ⟨?_, d.digits.strtolEnd_text.2⟩
    rw [← hmag]
    exact strtol_negative (fun _ h => absurd h List.not_mem_nil) hfits
  · refine ⟨?_, d.digits.strtolEnd_text.1⟩
    rw [← hmag]
    exact strtol_unsigned (fun _ h => absurd h List.not_mem_nil) hhead hfits

end Decimal

/-- A field, with what separates it from the one before. -/
theorem parseFields_succ (i : Nat) {gap rest : List Char} (hgap : ∀ c ∈ gap, c ∈ delims)
    (d : Decimal) (hrest : ∀ c ∈ rest.head?, c ∈ delims) :
    parseFields (i + 1) (gap ++ (d.text ++ rest)) =
      (parseFields i rest.tail).map (d.value :: ·) := by
  rw [parseFields, strtokAny_field hgap d.text_ne_nil (fun _ => d.not_mem_delims) hrest]
  simp only [d.strtol_text, if_true]

theorem Gap.head_append (g : Gap) (hne : g.text ≠ []) (rest : List Char) :
    (∀ c ∈ (g.text ++ rest).head?, c ∈ DataFlow.delims) ∧
      ∃ gap, (g.text ++ rest).tail = gap ++ rest ∧ ∀ c ∈ gap, c ∈ DataFlow.delims := by
  obtain ⟨c, gap, htext⟩ := List.exists_cons_of_ne_nil hne
  have hmem := g.delims
  rw [htext] at hmem ⊢
  refine ⟨?_, gap, rfl, fun d hd => hmem d (List.mem_cons_of_mem _ hd)⟩
  intro d hd
  exact Option.some.inj hd ▸ hmem c (List.mem_cons_self ..)

namespace InstLine

variable (l : InstLine)

theorem parseFields_body {eol : List Char} (heol : ∀ c ∈ eol, c = '\n') :
    parseFields 4 (l.body ++ eol) =
      some [l.opcode.value, l.dst.value, l.src1.value, l.src2.value] := by
  have hnil : ∀ c ∈ ([] : List Char), c ∈ delims := fun _ h => absurd h List.not_mem_nil
  have hlast : ∀ c ∈ (l.trail.text ++ eol).head?, c ∈ delims := by
    intro c hc
    rcases List.mem_append.mp (List.mem_of_mem_head? hc) with hc | hc
    · exact l.trail.delims c hc
    · rw [heol c hc]
      decide
  obtain ⟨hd₁, gap₁, ht₁, hg₁⟩ := l.gap₁.head_append l.gap₁_ne (l.dst.text ++ (l.gap₂.text ++
    (l.src1.text ++ (l.gap₃.text ++ (l.src2.text ++ (l.trail.text ++ eol))))))
  obtain ⟨hd₂, gap₂, ht₂, hg₂⟩ := l.gap₂.head_append l.gap₂_ne
    (l.src1.text ++ (l.gap₃.text ++ (l.src2.text ++ (l.trail.text ++ eol))))
  obtain ⟨hd₃, gap₃, ht₃, hg₃⟩ := l.gap₃.head_append l.gap₃_ne
    (l.src2.text ++ (l.trail.text ++ eol))
  have hbody : l.body ++ eol = [] ++ (l.opcode.text ++ (l.gap₁.text ++ (l.dst.text ++
      (l.gap₂.text ++ (l.src1.text ++ (l.gap₃.text ++ (l.src2.text ++
        (l.trail.text ++ eol)))))))) := by
    simp only [body, List.append_assoc, List.nil_append]
  rw [hbody, parseFields_succ 3 hnil l.opcode hd₁, ht₁, parseFields_succ 2 hg₁ l.dst hd₂, ht₂,
    parseFields_succ 1 hg₂ l.src1 hd₃, ht₃, parseFields_succ 0 hg₃ l.src2 hlast]
  rfl

theorem dropWhile_text (eol : List Char) :
    (l.text ++ eol).dropWhile isspace = l.body ++ eol ∧
      ∃ c rest, l.body ++ eol = c :: rest ∧ (c == '#') = false := by
  obtain ⟨c, rest, htext⟩ := List.exists_cons_of_ne_nil l.opcode.text_ne_nil
  have hmem : c ∈ l.opcode.text := htext ▸ List.mem_cons_self ..
  have hcons : ∃ rest, l.body ++ eol = c :: rest := by
    rw [body, htext]
    exact ⟨_, rfl⟩
  obtain ⟨rest', hcons⟩ := hcons
  refine ⟨?_, c, rest', hcons, ?_⟩
  · rw [text, List.append_assoc, dropWhile_blank l.lead.isspace]
    intro d hd
    rw [hcons] at hd
    exact Option.some.inj hd ▸ l.opcode.not_isspace hmem
  · rw [beq_eq_false_iff_ne]
    rintro rfl
    rcases l.opcode.mem_text hmem with h | h <;> cases h

theorem isIgnored_text (eol : List Char) : isIgnored (l.text ++ eol) = false := by
  obtain ⟨hdrop, c, rest, hcons, hc⟩ := l.dropWhile_text eol
  rw [isIgnored, hdrop, hcons]
  exact hc

theorem readLine_eq (s : ProgBuf) {eol : List Char} (heol : ∀ c ∈ eol, c = '\n') :
    readLine s (l.text ++ eol) = s.grow.store l.fields := by
  unfold readLine
  simp only [l.isIgnored_text eol, Bool.false_eq_true, if_false, (l.dropWhile_text eol).1,
    l.parseFields_body heol]
  rfl

end InstLine

/-! ## The strings of each kind of line -/

theorem InstLine.newline_not_mem (l : InstLine) : '\n' ∉ l.text := by
  have hgap : ∀ g : Gap, '\n' ∉ g.text := by
    intro g hmem
    rcases g.mem _ hmem with h | h <;> cases h
  have hdec : ∀ d : Decimal, '\n' ∉ d.text := fun d hmem =>
    d.not_mem_delims hmem (by decide)
  simp only [InstLine.text, InstLine.body, List.mem_append, hgap, hdec, or_self, not_false_eq_true]

theorem ProgLine.newline_not_mem (line : ProgLine) : '\n' ∉ line.text := by
  cases line with
  | blank text hblank => exact fun hmem => (hblank _ hmem).2 rfl
  | comment text hstart hline => exact hline.1
  | inst l hlen => exact l.newline_not_mem

/-- An instruction line is one string. -/
theorem InstLine.fgets_text {l : InstLine} (hlen : l.text.length ≤ 79) :
    fgets lineSize l.text = [l.text] ∧ fgets lineSize (l.text ++ ['\n']) = [l.text ++ ['\n']] := by
  have hne : l.text ≠ [] := by
    obtain ⟨-, c, rest, hcons, -⟩ := l.dropWhile_text []
    intro hnil
    rw [List.append_nil] at hcons
    rw [InstLine.text, hcons] at hnil
    exact absurd hnil (List.append_ne_nil_of_right_ne_nil _ (List.cons_ne_nil _ _))
  have hlt : l.text.length < lineSize - 1 := Nat.lt_succ_of_le hlen
  exact ⟨fgetsFrom_last hne l.newline_not_mem (Nat.le_of_lt hlt),
    fgetsFrom_line [] l.newline_not_mem hlt⟩

/-- All strings of a blank line are blank. -/
theorem readCount_blank {text : List Char} (hblank : ∀ c ∈ text, isspace c = true ∧ c ≠ '\n') :
    readCount text = 0 := by
  rw [readCount_eq_zero]
  intro piece hpiece
  have hdrop : piece.dropWhile isspace = [] := List.dropWhile_eq_nil_iff.mpr fun c hc =>
    (hblank c (mem_of_mem_fgetsFrom piece hpiece c hc)).1
  rw [isIgnored, hdrop]

namespace ProgLine

theorem readCount_eq {line : ProgLine} (hline : ¬line.IsComment) :
    readCount line.text = line.insts.length := by
  cases line with
  | blank text hblank => exact readCount_blank hblank
  | comment text hstart hline' => exact absurd trivial hline
  | inst l hlen =>
      have hread : (!isIgnored l.text) = true := by
        have := l.isIgnored_text []
        rw [List.append_nil] at this
        rw [this, Bool.not_false]
      rw [readCount, text, (InstLine.fgets_text hlen).1, List.countP_singleton, if_pos hread]
      rfl

theorem insts_of_isComment {line : ProgLine} (h : line.IsComment) : line.insts = [] := by
  cases line with
  | comment text hstart hline => rfl
  | blank text hblank => exact absurd h id
  | inst l hlen => exact absurd h id

end ProgLine

theorem readCount_text {lines : List ProgLine} :
    ∀ {file : List Char}, IsText (lines.map ProgLine.text) file →
      readCount file = (lines.map fun line => readCount line.text).sum := by
  induction lines with
  | nil =>
      intro file h
      cases h
      rfl
  | cons line lines ih =>
      intro file h
      rw [List.map_cons] at h
      rw [List.map_cons, List.sum_cons]
      generalize hrest : lines.map ProgLine.text = texts at h ih
      cases h with
      | last hne =>
          rw [List.map_eq_nil_iff.mp hrest]
          rfl
      | cons htext =>
          rw [← ih htext, ← readCount_newline line.newline_not_mem, readCount, fgets_append_newline,
            List.countP_append]
          rfl

/-- Each comment adds to what is read, unless all its strings are ignored. -/
theorem sum_readCount (lines : List ProgLine) :
    (instsOf lines).length ≤ (lines.map fun line => readCount line.text).sum ∧
      ((lines.map fun line => readCount line.text).sum = (instsOf lines).length ↔
        ∀ line ∈ lines, line.IsComment → readCount line.text = 0) := by
  induction lines with
  | nil => exact ⟨Nat.le_refl 0, fun _ _ h => absurd h List.not_mem_nil, fun _ => rfl⟩
  | cons line lines ih =>
      obtain ⟨hle, hiff⟩ := ih
      have hinsts : (instsOf (line :: lines)).length =
          line.insts.length + (instsOf lines).length := by
        rw [instsOf, List.flatMap_cons, List.length_append]
        rfl
      rw [List.map_cons, List.sum_cons, List.forall_mem_cons, ← hiff, hinsts]
      by_cases hcomment : line.IsComment
      · rw [line.insts_of_isComment hcomment, List.length_nil]
        refine ⟨by omega, ⟨fun h => ⟨fun _ => by omega, by omega⟩, ?_⟩⟩
        rintro ⟨hzero, hrest⟩
        have := hzero hcomment
        omega
      · rw [line.readCount_eq hcomment]
        refine ⟨by omega, ⟨fun h => ⟨fun hc => absurd hc hcomment, by omega⟩, ?_⟩⟩
        rintro ⟨-, hrest⟩
        omega

/-! ## The whole file -/

/-- The instructions read so far are in the buffer. -/
structure Holds (done : List InstFields) (s : ProgBuf) : Prop where
  fits : s.Fits
  lineNum : s.lineNum = done.length
  entries : ∀ k < done.length, done[k]? = some (s.progBuf k)

theorem Holds.store {done : List InstFields} {s : ProgBuf} (h : Holds done s) (inst : InstFields)
    (hlen : done.length < uint32Size) :
    ∃ s', s.grow.store inst = .ok s' ∧ Holds (done ++ [inst]) s' := by
  obtain ⟨s', hstore, hfits, hnum, hbuf⟩ := ProgBuf.store_grow h.fits inst
  have hwrap : wrap s.lineNum = done.length := by
    rw [h.lineNum, wrap_of_lt hlen]
  refine ⟨s', hstore, hfits, ?_, ?_⟩
  · rw [hnum, h.lineNum, List.length_append, List.length_singleton]
  · intro k hk
    rw [List.length_append, List.length_singleton] at hk
    rw [hbuf, hwrap]
    rcases Nat.lt_succ_iff_lt_or_eq.mp hk with hk | rfl
    · rw [List.getElem?_append_left hk, Function.update_of_ne (Nat.ne_of_lt hk), h.entries k hk]
    · rw [List.getElem?_concat_length, Function.update_self]

theorem Holds.readPieces {done : List InstFields} {s : ProgBuf} (h : Holds done s)
    {line : ProgLine} {eol : List Char} (heol : eol = [] ∨ eol = ['\n'])
    (hline : line.IsComment → readCount line.text = 0)
    (hlen : done.length + line.insts.length < 2 ^ 31) :
    ∃ s', (fgets lineSize (line.text ++ eol)).foldlM readLine s = .ok s' ∧
      Holds (done ++ line.insts) s' := by
  -- A line without an instruction: none of its strings is read.
  have hnone : line.insts = [] → readCount line.text = 0 →
      ∃ s', (fgets lineSize (line.text ++ eol)).foldlM readLine s = .ok s' ∧
        Holds (done ++ line.insts) s' := by
    intro hinsts hzero
    have hzero' : readCount (line.text ++ eol) = 0 := by
      rcases heol with rfl | rfl
      · rwa [List.append_nil]
      · rwa [readCount_newline line.newline_not_mem]
    obtain ⟨s', hrun, hfits, hnum, hbuf⟩ := readLines_ignored (readCount_eq_zero.mp hzero') h.fits
    rw [hinsts, List.append_nil]
    exact ⟨s', hrun, hfits, hnum.trans h.lineNum, fun k hk => hbuf ▸ h.entries k hk⟩
  cases line with
  | blank text hblank => exact hnone rfl (readCount_blank hblank)
  | comment text hstart hline' => exact hnone rfl (hline trivial)
  | inst l hlength =>
      have hpieces : fgets lineSize (l.text ++ eol) = [l.text ++ eol] := by
        rcases heol with rfl | rfl
        · rw [List.append_nil, (InstLine.fgets_text hlength).1]
        · exact (InstLine.fgets_text hlength).2
      have hnewline : ∀ c ∈ eol, c = '\n' := by
        rcases heol with rfl | rfl
        · exact fun _ hc => absurd hc List.not_mem_nil
        · exact fun _ hc => List.mem_singleton.mp hc
      obtain ⟨s', hstore, h'⟩ := h.store l.fields
        (Nat.lt_of_le_of_lt (Nat.le_add_right _ _) (Nat.lt_trans hlen (by decide)))
      refine ⟨s', ?_, h'⟩
      rw [ProgLine.text, hpieces, List.foldlM_cons, l.readLine_eq s hnewline, hstore]
      rfl

theorem Holds.readText {lines : List ProgLine}
    (hlines : ∀ line ∈ lines, line.IsComment → readCount line.text = 0) :
    ∀ {file : List Char} {done : List InstFields} {s : ProgBuf},
      IsText (lines.map ProgLine.text) file → Holds done s →
      done.length + (instsOf lines).length < 2 ^ 31 →
      ∃ s', (fgets lineSize file).foldlM readLine s = .ok s' ∧
        Holds (done ++ instsOf lines) s' := by
  induction lines with
  | nil =>
      intro file done s htext h _
      cases htext
      exact ⟨s, rfl, by rwa [instsOf, List.flatMap_nil, List.append_nil]⟩
  | cons line lines ih =>
      intro file done s htext h hlen
      obtain ⟨hline, hrest⟩ := List.forall_mem_cons.mp hlines
      rw [instsOf, List.flatMap_cons, List.length_append] at hlen
      rw [List.map_cons] at htext
      rw [instsOf, List.flatMap_cons, ← List.append_assoc]
      generalize htexts : lines.map ProgLine.text = texts at htext ih
      cases htext with
      | last hne =>
          have hnil := List.map_eq_nil_iff.mp htexts
          obtain ⟨s', hrun, h'⟩ := h.readPieces (Or.inl rfl) hline (by omega)
          rw [List.append_nil] at hrun
          rw [hnil, List.flatMap_nil, List.append_nil]
          exact ⟨s', hrun, h'⟩
      | cons htext =>
          obtain ⟨s₁, hrun₁, h₁⟩ := h.readPieces (Or.inr rfl) hline (by omega)
          obtain ⟨s', hrun, h'⟩ := ih hrest htext h₁ (by
            rw [List.length_append]
            exact Nat.lt_of_le_of_lt (Nat.le_of_eq (Nat.add_assoc _ _ _)) hlen)
          refine ⟨s', ?_, h'⟩
          rw [fgets_append_newline, List.foldlM_append, hrun₁]
          exact hrun

/-- The program is read exactly when it has fewer than `2 ^ 31` instructions,
and every string that a comment is cut into looks like a comment or a blank
line. -/
theorem readProgram_exact_iff (heap : Nat → InstFields) {lines : List ProgLine}
    {file : List Char} (htext : IsText (lines.map ProgLine.text) file) :
    ReadsExactly heap file (instsOf lines) ↔
      (instsOf lines).length < 2 ^ 31 ∧ ∀ line ∈ lines, line.IsComment →
        ∀ piece ∈ fgets lineSize line.text, isIgnored piece = true := by
  have hstart : Holds [] { lineNum := 0, maxInsts := 0, progBuf := heap } :=
    ⟨Nat.le_refl 0, rfl, fun k hk => absurd hk (Nat.not_lt_zero k)⟩
  simp only [← readCount_eq_zero]
  constructor
  · rintro ⟨s, hrun, hnum, -, hresult⟩
    have hrc : int32 (wrap s.lineNum) = ((instsOf lines).length : Nat) := by
      rw [readProgram] at hresult
      simp only [hrun, Except.ok.injEq, Prod.mk.injEq] at hresult
      exact hresult.1
    have hlt : int32 (wrap s.lineNum) < 2 ^ 31 := Int.bmod_lt (Nat.two_pow_pos 32)
    refine ⟨by omega, ?_⟩
    have hcases : (fgets lineSize file).foldlM readLine _ = .error .parseError ∨ _ :=
      readLines_cases hstart.fits
    rcases hcases with herror | ⟨s', hrun', -, hcount⟩
    · cases hrun.symm.trans herror
    · obtain rfl : s = s' := Except.ok.inj (hrun.symm.trans hrun')
      have hread : readCount file = (instsOf lines).length := by
        rw [Nat.zero_add] at hcount
        exact hcount.symm.trans hnum
      rw [readCount_text htext] at hread
      exact (sum_readCount lines).2.mp hread
  · rintro ⟨hlen, hlines⟩
    obtain ⟨s, hrun, h⟩ := hstart.readText hlines htext (by rwa [List.length_nil, Nat.zero_add])
    rw [List.nil_append] at h
    have hrc : int32 (wrap s.lineNum) = ((instsOf lines).length : Nat) := by
      rw [h.lineNum, wrap_of_lt (Nat.lt_trans hlen (by decide)), int32_of_lt hlen]
    refine ⟨s, hrun, h.lineNum, h.entries, ?_⟩
    have hrun' : readLines heap (fgets lineSize file) = .ok s := hrun
    rw [readProgram]
    simp only [hrun', hrc]

/-! ## Two files -/

/-- A number of one digit. -/
def decimal (c : Char) (h : isDigit 10 c = true) : Decimal where
  negative := false
  digits := .ofDigit c h
  lt := by
    have hlt := digit_lt h
    rw [Numeral.value_ofDigit]
    omega

/-- Blanks. -/
def gap (n : Nat) : Gap where
  text := List.replicate n ' '
  mem := fun _ hc => Or.inl (List.eq_of_mem_replicate hc)

/-- `4 5 6 7` -/
def smallInst : InstLine where
  lead := gap 0
  opcode := decimal '4' rfl
  gap₁ := gap 1
  dst := decimal '5' rfl
  gap₂ := gap 1
  src1 := decimal '6' rfl
  gap₃ := gap 1
  src2 := decimal '7' rfl
  trail := gap 0
  gap₁_ne := List.cons_ne_nil _ _
  gap₂_ne := List.cons_ne_nil _ _
  gap₃_ne := List.cons_ne_nil _ _

theorem length_smallInst : smallInst.text.length ≤ 79 := by decide

/-- A comment and an instruction. -/
def smallLines : List ProgLine :=
  [.comment ['#'] rfl ⟨by decide, by decide⟩, .inst smallInst length_smallInst]

theorem readProgram_exact_iff_smallLines :
    ReadsExactly (fun _ => ⟨0, 0, 0, 0⟩)
        ((smallLines.map ProgLine.text).flatMap fun line => line ++ ['\n']) (instsOf smallLines) ↔
      (instsOf smallLines).length < 2 ^ 31 ∧ ∀ line ∈ smallLines, line.IsComment →
        ∀ piece ∈ fgets lineSize line.text, isIgnored piece = true :=
  readProgram_exact_iff _ (isText_flatMap (smallLines.map ProgLine.text))

/-- A comment of 87 characters, the last 7 of which look like an instruction. -/
def longComment : List Char := '#' :: (List.replicate 79 ' ' ++ smallInst.text)

/-- The file of this comment is read as a program of one instruction. -/
theorem readProgram_longComment :
    (longComment.dropWhile isspace).head? = some '#' ∧ '\n' ∉ longComment ∧
      IsText [longComment] (longComment ++ ['\n']) ∧
      (readProgram (fun _ => ⟨0, 0, 0, 0⟩) (some (longComment ++ ['\n']))).map Prod.fst = .ok 1 ∧
      ¬ReadsExactly (fun _ => ⟨0, 0, 0, 0⟩) (longComment ++ ['\n']) [] := by
  have hone : (readProgram (fun _ => ⟨0, 0, 0, 0⟩) (some (longComment ++ ['\n']))).map Prod.fst =
      .ok 1 := by decide +kernel
  refine ⟨rfl, by decide +kernel, .cons .nil, hone, ?_⟩
  rintro ⟨s, -, -, -, hresult⟩
  rw [hresult] at hone
  cases hone

end DataFlow

end ArchSim
