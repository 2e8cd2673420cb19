import ArchSim.SimReset

/-!
# Image texts

The documented format of an image file: the segments, which are instructions
of a thread or words of the data array with their address, and the lines
around them, in any order. A line may end in a carriage return. `Format` is
what an image must keep to for its segments to have a meaning.
-/

namespace ArchSim

namespace SimApi

open CString MtCore

/-! ## Numbers -/

/-- A 32-bit number, signed decimal or hexadecimal. -/
inductive Literal where
  | dec (negative : Bool) (n : Numeral 10) (plain : n.Plain) (lt : n.value < 2 ^ 32)
  | hex (n : Numeral 16) (lt : n.value < 2 ^ 32)

/-- What may follow a number: nothing, white space or a comment. -/
def Parted (rest : List Char) : Prop :=
  ∀ c ∈ rest.head?, isspace c = true ∨ c = '#'

theorem Parted.append {rest eol : List Char} (h : Parted rest) (heol : Eol eol) :
    Parted (rest ++ eol) := by
  cases rest with
  | nil =>
      rcases heol with rfl | rfl
      · exact h
      · intro c hc
        obtain rfl : '\n' = c := Option.some.inj hc
        exact Or.inl rfl
  | cons c rest => exact h

theorem Parted.takeWhile {rest : List Char} (h : Parted rest) (p : Char → Bool) :
    Parted (rest.takeWhile p) := by
  intro c hc
  rw [List.head?_takeWhile] at hc
  exact h c (Option.mem_filter_iff.mp hc).1

theorem Parted.ends {rest : List Char} (h : Parted rest) (base : Nat) : Ends base rest := by
  intro c hc
  rw [Bool.eq_false_iff]
  intro hdigit
  rcases h c hc with hspace | rfl
  · rw [isspace_of_isDigit hdigit] at hspace
    cases hspace
  · cases hdigit

theorem Parted.not_hex {rest : List Char} (h : Parted rest) :
    ∀ c ∈ rest.head?, c ≠ 'x' ∧ c ≠ 'X' := by
  intro c hc
  refine ⟨?_, ?_⟩ <;> rintro rfl <;> rcases h _ hc with hspace | h <;> contradiction

namespace Literal

def text : Literal → List Char
  | dec true n _ _ => '-' :: n.text
  | dec false n _ _ => n.text
  | hex n _ => '0' :: 'x' :: n.text

def value : Literal → BitVec 32
  | dec true n _ _ => -BitVec.ofNat 32 n.value
  | dec false n _ _ => BitVec.ofNat 32 n.value
  | hex n _ => BitVec.ofNat 32 n.value

/-- The first character is a digit or a minus sign. -/
theorem exists_head (l : Literal) :
    ∃ c rest, l.text = c :: rest ∧ (c = '-' ∨ isDigit 10 c = true) := by
  cases l with
  | dec negative n plain lt =>
      cases negative with
      | true => exact ⟨'-', n.text, rfl, Or.inl rfl⟩
      | false =>
          obtain ⟨c, rest, htext⟩ := List.exists_cons_of_ne_nil n.ne_nil
          exact ⟨c, rest, htext, Or.inr (n.digits c (by rw [htext]; exact List.mem_cons_self ..))⟩
  | hex n lt => exact ⟨'0', 'x' :: n.text, rfl, Or.inr rfl⟩

theorem text_ne_nil (l : Literal) : l.text ≠ [] := by
  obtain ⟨c, rest, htext, -⟩ := l.exists_head
  rw [htext]
  exact List.cons_ne_nil _ _

theorem not_mem {c : Char} (hc : numeric c = false) (l : Literal) : c ∉ l.text := by
  obtain ⟨hdigit, hx, hminus⟩ := not_of_not_numeric hc
  have hdec : isDigit 10 c = false := not_isDigit_of_le (by omega) hdigit
  cases l with
  | dec negative n plain lt =>
      cases negative with
      | true =>
          rw [text, List.mem_cons, not_or]
          exact ⟨hminus, n.not_mem hdec⟩
      | false => exact n.not_mem hdec
  | hex n lt =>
      rw [text, List.mem_cons, List.mem_cons, not_or, not_or]
      refine ⟨?_, hx, n.not_mem hdigit⟩
      rintro rfl
      cases hdigit

/-- `strtol` in base 0 reads a number. -/
theorem strtol_eq (l : Literal) {rest : List Char} (h : Parted rest) :
    BitVec.ofInt 32 (strtol (l.text ++ rest) 0) = l.value := by
  have hblank : ∀ c ∈ ([] : List Char), isspace c = true := fun _ h => absurd h List.not_mem_nil
  cases l with
  | dec negative n plain lt =>
      have hmag := n.magnitude_auto plain (h.ends 10) h.not_hex
      have hlt : magnitude (n.text ++ rest) 0 < 2 ^ 63 := lt_of_eq_of_lt hmag (by omega)
      cases negative with
      | true =>
          have hval : strtol ('-' :: (n.text ++ rest)) 0 = -(magnitude (n.text ++ rest) 0 : Int) :=
            strtol_negative hblank hlt
          rw [text, List.cons_append, hval, hmag, BitVec.ofInt_neg, BitVec.ofInt_natCast]
          rfl
      | false =>
          have hval : strtol (n.text ++ rest) 0 = (magnitude (n.text ++ rest) 0 : Int) :=
            strtol_unsigned hblank (n.head_append rest) hlt
          rw [text, hval, hmag, BitVec.ofInt_natCast]
          rfl
  | hex n lt =>
      have hmag := n.magnitude_hex (h.ends 16)
      have hval : strtol ('0' :: 'x' :: (n.text ++ rest)) 0 =
          (magnitude ('0' :: 'x' :: (n.text ++ rest)) 0 : Int) :=
        strtol_unsigned hblank (fun c hc => by cases hc; decide)
          (lt_of_eq_of_lt hmag (by omega))
      rw [text, List.cons_append, List.cons_append, hval, hmag, BitVec.ofInt_natCast]
      rfl

end Literal

/-- A number with what follows it on its line. -/
structure Word where
  number : Literal
  rest : List Char
  parted : Parted rest

namespace Word

def text (w : Word) : List Char := w.number.text ++ w.rest

def value (w : Word) : BitVec 32 := w.number.value

end Word

/-! ## Segments -/

/-- An instruction line as the test images have it: a carriage return may
follow, or a comment. -/
structure CodeLine where
  line : Line
  spaced : line.Spaced
  rest : List Char
  rest_ok : rest = [] ∨ rest = ['\r'] ∨ rest.head? = some '#' ∧ 0 < line.trail
  comma : ',' ∉ rest
  dollar : '$' ∉ rest
  plain : 'x' ∉ rest ∨ line.Plain
  short : (line.text ++ rest).length ≤ 48

namespace CodeLine

def text (l : CodeLine) : List Char := l.line.text ++ l.rest

/-- What follows the last operand begins with a blank if there is one. -/
theorem head_blanks {n : Nat} (h : 0 < n) (rest : List Char) :
    (blanks n ++ rest).head? = some ' ' := by
  obtain ⟨n, rfl⟩ := Nat.exists_eq_succ_of_ne_zero (Nat.ne_of_gt h)
  rfl

theorem tail (l : CodeLine) {eol : List Char} (heol : Eol eol) :
    Tail (blanks l.line.trail ++ (l.rest ++ eol)) := by
  refine ⟨?_, ?_, ?_⟩
  · rw [List.mem_append, List.mem_append, not_or, not_or]
    exact ⟨not_mem_blanks rfl, l.comma, heol.not_mem rfl⟩
  · rw [List.mem_append, List.mem_append, not_or, not_or]
    exact ⟨not_mem_blanks rfl, l.dollar, heol.not_mem rfl⟩
  · rcases l.rest_ok with hnil | hcr | ⟨-, hpos⟩
    · rw [hnil]
      exact (heol.tail l.line.trail).start
    · rcases Nat.eq_zero_or_pos l.line.trail with hzero | hpos
      · rw [hzero, hcr]
        exact Or.inr (Or.inr ⟨eol, heol, rfl⟩)
      · exact Or.inr (Or.inl (head_blanks hpos _))
    · exact Or.inr (Or.inl (head_blanks hpos _))

/-- The line as `fgets` delivers it is read. -/
theorem getInst_eq (l : CodeLine) {eol : List Char} (heol : Eol eol) (inst : Instruction) :
    getInst (l.text ++ eol) inst = .ok (l.line.read inst) := by
  have hx : 'x' ∉ l.rest ++ eol ∨ l.line.Plain := by
    refine l.plain.imp_left fun hx => ?_
    rw [List.mem_append, not_or]
    exact ⟨hx, heol.not_mem rfl⟩
  have hlen : (l.line.text ++ (l.rest ++ eol)).length < 50 := by
    have hshort := l.short
    rw [← List.append_assoc, List.length_append]
    rcases heol with rfl | rfl
    · exact Nat.lt_of_le_of_lt hshort (by decide)
    · exact Nat.lt_of_le_of_lt (Nat.succ_le_succ hshort) (by decide)
  rw [text, List.append_assoc]
  exact l.line.getInst_of_spaced (l.tail heol) hx hlen l.spaced inst

end CodeLine

structure Code where
  address : Word
  lines : List CodeLine

structure Data where
  address : Word
  words : List Word

/-- A line of nothing but white space, or a comment line. -/
def Gap (text : List Char) : Prop := (∀ c ∈ text, isspace c = true) ∨ text.head? = some '#'

/-- White space that is there: the loops over a block do not take such a line
for an empty one. -/
def isBlank (text : List Char) : Bool := text.head?.any (· != '#')

/-- Blank and comment lines, `T` lines, and blocks of instructions and
data. -/
inductive Item where
  | gap (text : List Char) (h : Gap text)
  | thread (t : Register) (rest : List Char) (h : Ends 10 rest)
  | code (c : Code)
  | data (d : Data)

namespace Item

/-- The lines without their newlines. -/
def lines : Item → List (List Char)
  | gap text _ => [text]
  | thread t rest _ => ['T' :: (t.number.text ++ rest)]
  | code c => ('I' :: '@' :: c.address.text) :: c.lines.map CodeLine.text
  | data d => ('D' :: '@' :: d.address.text) :: d.words.map Word.text

/-- The thread that the next block belongs to. -/
def next (tid : Option Nat) : Item → Option Nat
  | thread t _ _ => some t.number.value
  | _ => tid

end Item

/-- The blocks of instructions with their threads. -/
def codes : Option Nat → List Item → List (Option Nat × Code)
  | _, [] => []
  | tid, .code c :: rest => (tid, c) :: codes tid rest
  | tid, x :: rest => codes (x.next tid) rest

/-- The data blocks. -/
def datas : List Item → List Data
  | [] => []
  | .data d :: rest => d :: datas rest
  | _ :: rest => datas rest

/-- For `n` threads: each block of instructions has a thread of its own and at
most 40 lines, and there is at most one data block, of at most 100 words. -/
structure Format (n : Nat) (tid : Option Nat) (items : List Item) : Prop where
  threads : ∀ p ∈ codes tid items, ∃ t < n, p.1 = some t
  distinct : ((codes tid items).map Prod.fst).Nodup
  insts : ∀ p ∈ codes tid items, p.2.lines.length ≤ 40
  one_data : (datas items).length ≤ 1
  words : ∀ d ∈ datas items, d.words.length ≤ 100

/-! ## Texts -/

/-- The lines of an image text: the configuration, the `N` line, and the
items. -/
def imageLines (config : List (List Char)) (threads : Register) (rest : List Char)
    (items : List Item) : List (List Char) :=
  config ++ ('N' :: (threads.number.text ++ rest)) :: items.flatMap Item.lines

/-- A line without its newline, which fits the line buffer if it is not a
comment. -/
def Fits (line : List Char) : Prop :=
  '\n' ∉ line ∧ (line.head? = some '#' ∨ line.length ≤ 1022)

instance (line : List Char) : Decidable (Fits line) :=
  inferInstanceAs (Decidable (_ ∧ _))

/-- Lines that a loop does not look at: `p` is `isSetting`, or `isSegment`. -/
def Skipped (p : List Char → Bool) (pieces : List (List Char)) : Prop :=
  ∀ piece ∈ pieces, p piece = false

/-- An image text. -/
structure ImageText where
  config : List (List Char)
  config_ok : ∀ l ∈ config, l.head? ≠ some 'N'
  threads : Register
  rest : List Char
  ends : Ends 10 rest
  items : List Item
  fits : ∀ l ∈ imageLines config threads rest items, Fits l

namespace ImageText

def lines (img : ImageText) : List (List Char) :=
  imageLines img.config img.threads img.rest img.items

/-- `fgets` delivers a comment that does not fit the line buffer in pieces. None
behind the first is taken for a configuration line, or for a `T` or `@`
line. -/
structure Quiet (img : ImageText) : Prop where
  config : ∀ l ∈ img.config, Skipped isSetting (fgets 1024 l).tail
  items : ∀ l ∈ img.items.flatMap Item.lines, Skipped isSegment (fgets 1024 l).tail

/-- It is so if all lines fit. -/
theorem quiet_of_short (img : ImageText) (h : ∀ l ∈ img.lines, l.length ≤ 1022) :
    img.Quiet := by
  have hnone : ∀ l ∈ img.lines, (fgets 1024 l).tail = [] := by
    intro l hl
    by_cases hnil : l = []
    · rw [hnil]
      rfl
    · have hread : fgets 1024 l = [l] :=
        fgetsFrom_last hnil (img.fits l hl).1 (Nat.le_succ_of_le (h l hl))
      rw [hread]
      rfl
  refine ⟨fun l hl piece hpiece => ?_, fun l hl piece hpiece => ?_⟩
  · rw [hnone l (List.mem_append_left _ hl)] at hpiece
    cases hpiece
  · rw [hnone l (List.mem_append_right _ (List.mem_cons_of_mem _ hl))] at hpiece
    cases hpiece

end ImageText

/-! ## What is meant -/

/-- `g` with the functions applied to its values from `i` on. -/
def overwrite {α : Type} (fs : List (α → α)) (i : Nat) (g : Nat → α) (k : Nat) : α :=
  if i ≤ k then
    match fs[k - i]? with
    | some f => f (g k)
    | none => g k
  else g k

theorem overwrite_nil {α : Type} (i : Nat) (g : Nat → α) : overwrite [] i g = g := by
  funext k
  simp [overwrite]

theorem overwrite_cons {α : Type} (f : α → α) (fs : List (α → α)) (i : Nat) (g : Nat → α) :
    overwrite (f :: fs) i g = overwrite fs (i + 1) (Function.update g i (f (g i))) := by
  funext k
  unfold overwrite
  rcases Nat.lt_trichotomy k i with h | rfl | h
  · rw [if_neg (by omega), if_neg (by omega), Function.update_of_ne (by omega)]
  · simp
  · obtain ⟨m, rfl⟩ := Nat.exists_eq_add_of_lt h
    rw [if_pos (by omega), if_pos (by omega), Function.update_of_ne (by omega),
      show i + m + 1 - i = m + 1 by omega, show i + m + 1 - (i + 1) = m by omega,
      List.getElem?_cons_succ]

theorem overwrite_append {α : Type} (fs gs : List (α → α)) : ∀ (i : Nat) (g : Nat → α),
    overwrite (fs ++ gs) i g = overwrite gs (i + fs.length) (overwrite fs i g) := by
  induction fs with
  | nil => exact fun i g => by rw [overwrite_nil, List.nil_append, List.length_nil, Nat.add_zero]
  | cons f fs ih =>
      intro i g
      rw [List.cons_append, overwrite_cons, overwrite_cons, ih, List.length_cons,
        Nat.add_right_comm, Nat.add_assoc]

/-! ## Settings -/

/-- The number on the last line that begins with `c`, or `v`. -/
def setting (c : Char) (config : List (List Char)) (v : BitVec 32) : BitVec 32 :=
  config.foldl (fun v line =>
    match line with
    | d :: rest => if d = c then atoi rest else v
    | [] => v) v

/-- The latencies, and the overhead. -/
structure Settings where
  load : BitVec 32
  store : BitVec 32
  switch : BitVec 32

def MemSim.settings (s : MemSim) : Settings := ⟨s.loadLatency, s.storeLatency, s.switchCycles⟩

def Settings.read (config : List (List Char)) (v : Settings) : Settings :=
  ⟨setting 'L' config v.load, setting 'S' config v.store, setting 'O' config v.switch⟩

theorem setting_cons (c : Char) (line : List Char) (config : List (List Char)) (v : BitVec 32) :
    setting c (line :: config) v = setting c config (setting c [line] v) := rfl

theorem Settings.read_cons (line : List Char) (config : List (List Char)) (v : Settings) :
    v.read (line :: config) = (v.read [line]).read config := rfl

end SimApi

end ArchSim
