import Mathlib

/-!
# C strings

The functions of `string.h` and `stdlib.h` that cut a string into tokens
and read numbers, and `fgets`, on strings without their NUL. A `Char` of a
string or file stands for one byte, a C `char`, and `long` has 64 bits. Each
comes with what it does to a string of the shape it is meant for:
a field before its delimiter, a numeral among blanks, lines that fit the
buffer.
-/

namespace ArchSim

namespace CString

/-! ## `strtok` -/

/-- What a call leaves: the token, or `none` for `NULL`; the string it was
given, cut off after the token; and the string that a call with `NULL` goes
on with. -/
structure Strtok where
  token : Option (List Char)
  buffer : List Char
  saved : List Char
deriving DecidableEq

/-- `strtok` with one delimiter. -/
def strtok (delim : Char) (s : List Char) : Strtok :=
  let body := s.dropWhile (· == delim)
  let token := body.takeWhile (· != delim)
  { token := if body.isEmpty then none else some token
    buffer := s.takeWhile (· == delim) ++ token
    saved := (body.dropWhile (· != delim)).tail }

variable {delim : Char} {tok rest : List Char}

@[simp] theorem strtok_nil (delim : Char) : strtok delim [] = ⟨none, [], []⟩ := rfl

/-- A leading delimiter is skipped. -/
theorem strtok_cons_self (delim : Char) (s : List Char) :
    strtok delim (delim :: s) =
      ⟨(strtok delim s).token, delim :: (strtok delim s).buffer, (strtok delim s).saved⟩ := by
  simp [strtok]

/-- A token with what is left of it behind its first characters. -/
theorem strtok_append (hne : tok ≠ []) (hmem : delim ∉ tok) (rest : List Char) :
    strtok delim (tok ++ rest) =
      ⟨some (tok ++ rest.takeWhile (· != delim)), tok ++ rest.takeWhile (· != delim),
        (rest.dropWhile (· != delim)).tail⟩ := by
  have hall : ∀ c ∈ tok, (c != delim) = true := by
    intro c hc
    rw [bne_iff_ne]
    rintro rfl
    exact hmem hc
  obtain ⟨c, tok, rfl⟩ := List.exists_cons_of_ne_nil hne
  have hc : (c == delim) = false := by
    have := hall c (List.mem_cons_self ..)
    rwa [bne, Bool.not_eq_true'] at this
  have hdrop : (c :: tok ++ rest).dropWhile (· == delim) = c :: tok ++ rest := by simp [hc]
  have htake : (c :: tok ++ rest).takeWhile (· == delim) = [] := by simp [hc]
  unfold strtok
  simp only [hdrop, htake, List.takeWhile_append_of_pos hall, List.dropWhile_append_of_pos hall]
  rfl

/-- A token up to its delimiter. -/
theorem strtok_field (hne : tok ≠ []) (hmem : delim ∉ tok) (rest : List Char) :
    strtok delim (tok ++ delim :: rest) = ⟨some tok, tok, rest⟩ := by
  rw [strtok_append hne hmem]
  simp

/-- The last token. -/
theorem strtok_last (hne : tok ≠ []) (hmem : delim ∉ tok) :
    strtok delim tok = ⟨some tok, tok, []⟩ := by
  have := strtok_append hne hmem []
  simpa using this

/-- The first character stays in the buffer, delimiter or not. -/
theorem exists_strtok_buffer (delim c : Char) (s : List Char) :
    ∃ rest, (strtok delim (c :: s)).buffer = c :: rest := by
  by_cases hc : c = delim
  · subst hc
    exact ⟨_, congrArg Strtok.buffer (strtok_cons_self c s)⟩
  · have hmem : delim ∉ [c] := fun h => hc (List.mem_singleton.mp h).symm
    exact ⟨_, congrArg Strtok.buffer (strtok_append (List.cons_ne_nil c []) hmem s)⟩

/-- `strtok` with several delimiters: the token, and the string that a call
with `NULL` goes on with. -/
def strtokAny (delims s : List Char) : Option (List Char) × List Char :=
  let body := s.dropWhile (delims.contains ·)
  (if body.isEmpty then none else some (body.takeWhile (!delims.contains ·)),
    (body.dropWhile (!delims.contains ·)).tail)

/-- A token among delimiters. -/
theorem strtokAny_field {delims gap tok rest : List Char} (hgap : ∀ c ∈ gap, c ∈ delims)
    (hne : tok ≠ []) (htok : ∀ c ∈ tok, c ∉ delims) (hrest : ∀ c ∈ rest.head?, c ∈ delims) :
    strtokAny delims (gap ++ (tok ++ rest)) = (some tok, rest.tail) := by
  obtain ⟨c, tok, rfl⟩ := List.exists_cons_of_ne_nil hne
  have hskip : (gap ++ (c :: tok ++ rest)).dropWhile (delims.contains ·) = c :: tok ++ rest := by
    rw [List.dropWhile_append_of_pos fun d hd => List.contains_iff_mem.mpr (hgap d hd)]
    refine List.dropWhile_cons_of_neg ?_
    rw [List.contains_iff_mem]
    exact htok c (List.mem_cons_self ..)
  have hall : ∀ d ∈ c :: tok, (!delims.contains d) = true := by
    intro d hd
    rw [Bool.not_eq_true', Bool.eq_false_iff, Ne, List.contains_iff_mem]
    exact htok d hd
  have hstop : rest.takeWhile (!delims.contains ·) = [] ∧
      rest.dropWhile (!delims.contains ·) = rest := by
    cases rest with
    | nil => exact ⟨rfl, rfl⟩
    | cons d rest =>
        have hd : ¬(!delims.contains d) = true := by
          rw [Bool.not_eq_true', Bool.not_eq_false]
          exact List.contains_iff_mem.mpr (hrest d rfl)
        exact ⟨List.takeWhile_cons_of_neg hd, List.dropWhile_cons_of_neg hd⟩
  unfold strtokAny
  simp only [hskip, List.takeWhile_append_of_pos hall, List.dropWhile_append_of_pos hall, hstop,
    List.append_nil]
  rfl

/-! ## Digits -/

/-- The value of a digit, in any base. -/
def digit? (c : Char) : Option Nat :=
  if '0' ≤ c ∧ c ≤ '9' then some (c.toNat - '0'.toNat)
  else if 'a' ≤ c ∧ c ≤ 'z' then some (c.toNat - 'a'.toNat + 10)
  else if 'A' ≤ c ∧ c ≤ 'Z' then some (c.toNat - 'A'.toNat + 10)
  else none

/-- The character is a digit of the base. -/
def isDigit (base : Nat) (c : Char) : Bool :=
  match digit? c with
  | some d => d < base
  | none => false

theorem digit_lt {base : Nat} {c : Char} (h : isDigit base c = true) :
    (digit? c).getD 0 < base := by
  unfold isDigit at h
  split at h
  · rename_i d hd
    rw [hd]
    exact of_decide_eq_true h
  · cases h

theorem isDigit_mono {base base' : Nat} (hle : base ≤ base') {c : Char}
    (h : isDigit base c = true) : isDigit base' c = true := by
  unfold isDigit at *
  split at h
  · have hlt := of_decide_eq_true h
    exact decide_eq_true (Nat.lt_of_lt_of_le hlt hle)
  · cases h

theorem not_isDigit_of_le {base base' : Nat} (hle : base ≤ base') {c : Char}
    (h : isDigit base' c = false) : isDigit base c = false := by
  rw [Bool.eq_false_iff]
  intro hdigit
  rw [isDigit_mono hle hdigit] at h
  cases h

def isspace (c : Char) : Bool := c == ' ' || ('\t' ≤ c && c ≤ '\r')

/-- Horner's rule, as far as there are digits. -/
def scanDigits (base : Nat) : List Char → Nat → Nat
  | [], n => n
  | c :: rest, n =>
      if isDigit base c then scanDigits base rest (n * base + (digit? c).getD 0) else n

theorem isspace_of_isDigit {base : Nat} {c : Char} (h : isDigit base c = true) :
    isspace c = false := by
  rw [Bool.eq_false_iff]
  intro hs
  have hnone : digit? c = none := by
    unfold isspace at hs
    simp only [Bool.or_eq_true, beq_iff_eq, Bool.and_eq_true, decide_eq_true_eq] at hs
    rcases hs with rfl | ⟨-, hle⟩
    · decide
    · have hlt : ∀ d : Char, '\r' < d → ¬d ≤ c := fun d hd hdc =>
        absurd (Char.le_trans hdc hle) (Char.not_le.mpr hd)
      unfold digit?
      rw [if_neg fun h => hlt '0' (by decide) h.1, if_neg fun h => hlt 'a' (by decide) h.1,
        if_neg fun h => hlt 'A' (by decide) h.1]
  rw [isDigit, hnone] at h
  cases h

/-- A nonempty string of digits. -/
structure Numeral (base : Nat) where
  text : List Char
  ne_nil : text ≠ []
  digits : ∀ c ∈ text, isDigit base c = true

namespace Numeral

variable {base : Nat} (n : Numeral base)

def value : Nat := n.text.foldl (fun v c => v * base + (digit? c).getD 0) 0

/-- One digit. -/
def ofDigit (c : Char) (h : isDigit base c = true) : Numeral base where
  text := [c]
  ne_nil := List.cons_ne_nil _ _
  digits := fun d hd => by rw [List.mem_singleton.mp hd, h]

theorem value_ofDigit (c : Char) (h : isDigit base c = true) :
    (ofDigit c h).value = (digit? c).getD 0 := by
  simp [ofDigit, value]

theorem isDigit_decChar (d : Nat) : isDigit 10 (Nat.digitChar (d % 10)) = true := by
  have hall : ∀ d < 10, isDigit 10 (Nat.digitChar d) = true := by decide
  exact hall _ (Nat.mod_lt _ (by decide))

theorem isDigit_hexChar (d : Nat) : isDigit 16 (Nat.digitChar (d % 16)) = true := by
  have hall : ∀ d < 16, isDigit 16 (Nat.digitChar d) = true := by decide
  exact hall _ (Nat.mod_lt _ (by decide))

/-- The last digit of a number, in decimal. -/
def ofDec (d : Nat) : Numeral 10 := ofDigit (Nat.digitChar (d % 10)) (isDigit_decChar d)

/-- The last digit of a number, in hexadecimal. -/
def ofHex (d : Nat) : Numeral 16 := ofDigit (Nat.digitChar (d % 16)) (isDigit_hexChar d)

/-- A character that is not a digit does not occur. -/
theorem not_mem {c : Char} (hc : isDigit base c = false) : c ∉ n.text := fun h =>
  absurd (n.digits c h) (by rw [hc]; exact Bool.false_ne_true)

end Numeral

/-- What follows a numeral is not a digit. -/
def Ends (base : Nat) (rest : List Char) : Prop :=
  ∀ c ∈ rest.head?, isDigit base c = false

theorem Ends.nil (base : Nat) : Ends base [] := fun _ h => (nomatch h)

theorem Ends.of_le {base base' : Nat} (hle : base ≤ base') {rest : List Char}
    (h : Ends base' rest) : Ends base rest := fun c hc => not_isDigit_of_le hle (h c hc)

theorem scanDigits_append {base : Nat} {rest : List Char} (hrest : Ends base rest) :
    ∀ {text : List Char} {v : Nat}, (∀ c ∈ text, isDigit base c = true) →
      scanDigits base (text ++ rest) v =
        text.foldl (fun v c => v * base + (digit? c).getD 0) v
  | [], v, _ => by
      cases rest with
      | nil => rfl
      | cons c rest => simp only [List.nil_append, scanDigits, hrest c rfl, Bool.false_eq_true,
          if_false, List.foldl_nil]
  | c :: text, v, h => by
      simp only [List.cons_append, scanDigits, h c (List.mem_cons_self ..), if_true,
        List.foldl_cons]
      exact scanDigits_append hrest fun d hd => h d (List.mem_cons_of_mem _ hd)

/-- What does not begin with a digit is not read. -/
theorem scanDigits_ends {base : Nat} {rest : List Char} (hrest : Ends base rest) :
    ∀ (s : List Char) (v : Nat), scanDigits base (s ++ rest) v = scanDigits base s v
  | [], v => scanDigits_append (v := v) hrest fun _ h => absurd h List.not_mem_nil
  | c :: s, v => by
      rw [List.cons_append, scanDigits, scanDigits, scanDigits_ends hrest s]

/-- Reading a numeral gives its value. -/
theorem scanDigits_numeral {base : Nat} (n : Numeral base) {rest : List Char}
    (hrest : Ends base rest) : scanDigits base (n.text ++ rest) 0 = n.value :=
  scanDigits_append hrest n.digits

/-! ## `strtol` and `atoi` -/

def longMax : Int := 2 ^ 63 - 1

def longMin : Int := -2 ^ 63

/-- A hexadecimal prefix, which has to be followed by a digit. -/
def hexPrefixed : List Char → Bool
  | '0' :: 'x' :: c :: _ => isDigit 16 c
  | '0' :: 'X' :: c :: _ => isDigit 16 c
  | _ => false

/-- The number after the sign. -/
def magnitude (s : List Char) (base : Nat) : Nat :=
  if (base = 0 ∨ base = 16) ∧ hexPrefixed s then scanDigits 16 (s.drop 2) 0
  else if base = 0 then scanDigits (if s.head? = some '0' then 8 else 10) s 0
  else scanDigits base s 0

/-- `strtol`, which stops at the limits of a `long`. -/
def strtol (s : List Char) (base : Nat) : Int :=
  let n : Int :=
    match s.dropWhile isspace with
    | '-' :: rest => -magnitude rest base
    | '+' :: rest => magnitude rest base
    | s => magnitude s base
  max longMin (min longMax n)

def ulongMax : Nat := 2 ^ 64 - 1

/-- `strtoul`, which negates modulo `2 ^ 64`. -/
def strtoul (s : List Char) (base : Nat) : Nat :=
  match s.dropWhile isspace with
  | '-' :: rest =>
      if magnitude rest base ≤ ulongMax then (2 ^ 64 - magnitude rest base) % 2 ^ 64
      else ulongMax
  | '+' :: rest => min ulongMax (magnitude rest base)
  | s => min ulongMax (magnitude s base)

/-- The string at the `endptr` of `strtol` in base 10, which is all of it when
there is no number. -/
def strtolEnd (s : List Char) : List Char :=
  let body :=
    match s.dropWhile isspace with
    | '-' :: rest => rest
    | '+' :: rest => rest
    | s => s
  if body.head?.any (isDigit 10) then body.dropWhile (isDigit 10) else s

/-- `atoi` is `strtol` in base 10, converted to an `int`. -/
def atoi (s : List Char) : BitVec 32 := BitVec.ofInt 32 (strtol s 10)

section

variable {blank s : List Char} {base : Nat}

theorem dropWhile_blank (hblank : ∀ c ∈ blank, isspace c = true)
    (hs : ∀ c ∈ s.head?, isspace c = false) : (blank ++ s).dropWhile isspace = s := by
  rw [List.dropWhile_append_of_pos hblank]
  cases s with
  | nil => rfl
  | cons c s => rw [List.dropWhile_cons_of_neg (by rw [hs c rfl]; exact Bool.false_ne_true)]

/-- Blanks are skipped, and the number fits. -/
theorem strtol_unsigned (hblank : ∀ c ∈ blank, isspace c = true)
    (hs : ∀ c ∈ s.head?, isspace c = false ∧ c ≠ '-' ∧ c ≠ '+')
    (hle : magnitude s base < 2 ^ 63) : strtol (blank ++ s) base = magnitude s base := by
  have hmag : strtol (blank ++ s) base = max longMin (min longMax (magnitude s base)) := by
    unfold strtol
    rw [dropWhile_blank hblank fun c hc => (hs c hc).1]
    split
    · exact absurd rfl (hs '-' rfl).2.1
    · exact absurd rfl (hs '+' rfl).2.2
    · rfl
  rw [hmag, longMin, longMax]
  omega

theorem strtol_negative (hblank : ∀ c ∈ blank, isspace c = true)
    (hle : magnitude s base < 2 ^ 63) :
    strtol (blank ++ '-' :: s) base = -magnitude s base := by
  unfold strtol
  rw [dropWhile_blank hblank (s := '-' :: s) fun c hc => by cases hc; rfl]
  simp only [longMin, longMax]
  omega

theorem strtoul_unsigned (hblank : ∀ c ∈ blank, isspace c = true)
    (hs : ∀ c ∈ s.head?, isspace c = false ∧ c ≠ '-' ∧ c ≠ '+')
    (hle : magnitude s base < 2 ^ 63) : strtoul (blank ++ s) base = magnitude s base := by
  have hmag : strtoul (blank ++ s) base = min ulongMax (magnitude s base) := by
    unfold strtoul
    rw [dropWhile_blank hblank fun c hc => (hs c hc).1]
    split
    · exact absurd rfl (hs '-' rfl).2.1
    · exact absurd rfl (hs '+' rfl).2.2
    · rfl
  rw [hmag, ulongMax]
  omega

theorem strtoul_negative (hblank : ∀ c ∈ blank, isspace c = true)
    (hle : magnitude s base < 2 ^ 63) :
    strtoul (blank ++ '-' :: s) base = (2 ^ 64 - magnitude s base) % 2 ^ 64 := by
  unfold strtoul
  rw [dropWhile_blank hblank (s := '-' :: s) fun c hc => by cases hc; rfl]
  simp only
  rw [if_pos (by rw [ulongMax]; omega)]

end

/-- A newline behind it does not change a number. -/
theorem atoi_newline (s : List Char) : atoi (s ++ ['\n']) = atoi s := by
  have hends : Ends 10 ['\n'] := fun c hc => Option.some.inj hc ▸ rfl
  have hmag : ∀ t, magnitude (t ++ ['\n']) 10 = magnitude t 10 := by
    intro t
    simp [magnitude, scanDigits_ends hends]
  have hdrop : (s ++ ['\n']).dropWhile isspace = _ := List.dropWhile_append
  unfold atoi strtol
  cases hs : s.dropWhile isspace with
  | nil =>
      rw [hs] at hdrop
      rw [hdrop]
      rfl
  | cons c t =>
      rw [hs, List.isEmpty_cons, if_neg Bool.false_ne_true, List.cons_append] at hdrop
      rw [hdrop]
      by_cases hminus : c = '-'
      · subst hminus
        simp only [hmag]
      by_cases hplus : c = '+'
      · subst hplus
        simp only [hmag]
      have hnum := hmag (c :: t)
      rw [List.cons_append] at hnum
      split
      · rename_i heq
        exact absurd (List.cons.inj heq).1 hminus
      · rename_i heq
        exact absurd (List.cons.inj heq).1 hplus
      · split
        · rename_i heq
          exact absurd (List.cons.inj heq).1 hminus
        · rename_i heq
          exact absurd (List.cons.inj heq).1 hplus
        · rw [hnum]

namespace Numeral

/-- The first character of a numeral is neither a blank nor a sign. -/
theorem head_append {base : Nat} (n : Numeral base) (rest : List Char) :
    ∀ c ∈ (n.text ++ rest).head?, isspace c = false ∧ c ≠ '-' ∧ c ≠ '+' := by
  obtain ⟨d, text, htext⟩ := List.exists_cons_of_ne_nil n.ne_nil
  have hd := n.digits d (by rw [htext]; exact List.mem_cons_self ..)
  intro c hc
  rw [htext] at hc
  obtain rfl : d = c := Option.some.inj hc
  refine ⟨isspace_of_isDigit hd, ?_, ?_⟩ <;> rintro rfl <;> cases hd

theorem magnitude_dec (n : Numeral 10) {rest : List Char} (hrest : Ends 10 rest) :
    magnitude (n.text ++ rest) 10 = n.value := by
  rw [magnitude, if_neg (by simp), if_neg (by decide), scanDigits_numeral n hrest]

/-- `strtol` in base 10 goes on behind a numeral with or without a sign. -/
theorem strtolEnd_append (n : Numeral 10) {blank rest : List Char}
    (hblank : ∀ c ∈ blank, isspace c = true) (hrest : Ends 10 rest) :
    strtolEnd (blank ++ (n.text ++ rest)) = rest ∧
      strtolEnd (blank ++ '-' :: (n.text ++ rest)) = rest := by
  have hhead := n.head_append rest
  have hskip := dropWhile_blank hblank fun c hc => (hhead c hc).1
  have hminus : (blank ++ '-' :: (n.text ++ rest)).dropWhile isspace = '-' :: (n.text ++ rest) :=
    dropWhile_blank hblank fun c hc => by
      cases hc
      rfl
  have hany : (n.text ++ rest).head?.any (isDigit 10) = true := by
    obtain ⟨d, text, htext⟩ := List.exists_cons_of_ne_nil n.ne_nil
    have hd := n.digits d (htext ▸ List.mem_cons_self ..)
    rw [htext]
    exact hd
  have hend : (n.text ++ rest).dropWhile (isDigit 10) = rest := by
    rw [List.dropWhile_append_of_pos n.digits]
    cases rest with
    | nil => rfl
    | cons c rest =>
        rw [List.dropWhile_cons_of_neg (by rw [hrest c rfl]; exact Bool.false_ne_true)]
  refine ⟨?_, ?_⟩
  · unfold strtolEnd
    rw [hskip]
    split
    · rename_i heq
      exact absurd rfl (hhead '-' (by rw [heq]; rfl)).2.1
    · rename_i heq
      exact absurd rfl (hhead '+' (by rw [heq]; rfl)).2.2
    · rw [if_pos hany, hend]
  · unfold strtolEnd
    rw [hminus]
    simp only [hany, hend, if_true]

/-- `strtol` in base 10 reads a numeral with or without a sign to its end. -/
theorem strtolEnd_text (n : Numeral 10) :
    strtolEnd n.text = [] ∧ strtolEnd ('-' :: n.text) = [] := by
  have hend := n.strtolEnd_append (fun _ h => absurd h List.not_mem_nil) (Ends.nil 10)
  rwa [List.append_nil] at hend

theorem magnitude_hex (n : Numeral 16) {rest : List Char} (hrest : Ends 16 rest) :
    magnitude ('0' :: 'x' :: (n.text ++ rest)) 0 = n.value := by
  have hprefix : hexPrefixed ('0' :: 'x' :: (n.text ++ rest)) = true := by
    obtain ⟨d, text, htext⟩ := List.exists_cons_of_ne_nil n.ne_nil
    have hd := n.digits d (by rw [htext]; exact List.mem_cons_self ..)
    rw [htext]
    exact hd
  rw [magnitude, if_pos ⟨Or.inl rfl, hprefix⟩]
  exact scanDigits_numeral n hrest

/-- No leading zero, which would make it octal. -/
def Plain (n : Numeral 10) : Prop := n.text.head? = some '0' → n.text = ['0']

theorem hexPrefixed_eq_false {c : Char} {s : List Char}
    (h : c ≠ '0' ∨ ∀ d ∈ s.head?, d ≠ 'x' ∧ d ≠ 'X') : hexPrefixed (c :: s) = false := by
  unfold hexPrefixed
  split
  · rename_i heq
    obtain ⟨rfl, rfl⟩ := List.cons.inj heq
    exact h.elim (fun h => absurd rfl h) fun h => absurd rfl (h 'x' rfl).1
  · rename_i heq
    obtain ⟨rfl, rfl⟩ := List.cons.inj heq
    exact h.elim (fun h => absurd rfl h) fun h => absurd rfl (h 'X' rfl).2
  · rfl

/-- In base 0 a decimal numeral is read when it is not taken for an octal or
hexadecimal one. -/
theorem magnitude_auto (n : Numeral 10) (hplain : n.Plain) {rest : List Char}
    (hrest : Ends 10 rest) (hx : ∀ c ∈ rest.head?, c ≠ 'x' ∧ c ≠ 'X') :
    magnitude (n.text ++ rest) 0 = n.value := by
  obtain ⟨d, text, htext⟩ := List.exists_cons_of_ne_nil n.ne_nil
  by_cases hd : d = '0'
  · obtain rfl := hd
    obtain ⟨-, rfl⟩ := List.cons.inj (htext.symm.trans (hplain (by rw [htext]; rfl)))
    have hvalue : n.value = 0 := by
      rw [value, htext]
      rfl
    have hdigit : ∀ c ∈ ['0'], isDigit 8 c = true := by
      intro c hc
      rw [List.mem_singleton.mp hc]
      rfl
    rw [htext, List.singleton_append, magnitude, hexPrefixed_eq_false (Or.inr hx),
      if_neg (by simp), if_pos rfl, if_pos (show ('0' :: rest).head? = some '0' from rfl), hvalue]
    exact scanDigits_append (hrest.of_le (by omega)) hdigit
  · have hhead : (n.text ++ rest).head? ≠ some '0' := by
      rw [htext]
      exact fun h => hd (Option.some.inj h)
    have hnohex : hexPrefixed (n.text ++ rest) = false := by
      rw [htext]
      exact hexPrefixed_eq_false (Or.inl hd)
    rw [magnitude, hnohex, if_neg (by simp), if_pos rfl, if_neg hhead, scanDigits_numeral n hrest]

end Numeral

/-! ## `fgets` -/

/-- The strings that `fgets` delivers of a file, each up to a newline or a
full buffer. `room` is what the string at hand may still take. -/
def fgetsFrom (size : Nat) : Nat → List Char → List (List Char)
  | _, [] => []
  | room, c :: file =>
      if c = '\n' ∨ room ≤ 1 then [c] :: fgetsFrom size size file
      else
        match fgetsFrom size (room - 1) file with
        | [] => [[c]]
        | line :: lines => (c :: line) :: lines

/-- All strings up to the end of the file, with a buffer of `size` bytes, of
which a `Char` takes one. -/
def fgets (size : Nat) (file : List Char) : List (List Char) :=
  fgetsFrom (size - 1) (size - 1) file

/-- A text of lines, of which the last one may lack its newline. -/
inductive IsText : List (List Char) → List Char → Prop
  | nil : IsText [] []
  | last {line : List Char} (h : line ≠ []) : IsText [line] line
  | cons {line text : List Char} {lines : List (List Char)} (h : IsText lines text) :
      IsText (line :: lines) (line ++ '\n' :: text)

/-- All lines with their newlines. -/
theorem isText_flatMap (lines : List (List Char)) :
    IsText lines (lines.flatMap fun line => line ++ ['\n']) := by
  induction lines with
  | nil => exact .nil
  | cons line lines ih =>
      rw [List.flatMap_cons, List.append_assoc, List.singleton_append]
      exact .cons ih

section

variable {size : Nat}

theorem fgetsFrom_line (file : List Char) : ∀ {line : List Char} {room : Nat},
    '\n' ∉ line → line.length < room →
    fgetsFrom size room (line ++ '\n' :: file) = (line ++ ['\n']) :: fgetsFrom size size file
  | [], room, _, _ => by simp [fgetsFrom]
  | c :: line, room, hmem, hlen => by
      rw [List.mem_cons, not_or] at hmem
      rw [List.length_cons] at hlen
      have hstop : ¬(c = '\n' ∨ room ≤ 1) := fun h => h.elim (fun h => hmem.1 h.symm) (by omega)
      rw [List.cons_append, fgetsFrom, if_neg hstop,
        fgetsFrom_line file hmem.2 (show line.length < room - 1 by omega)]
      rfl

/-- All lines of a text, when they fit the buffer. -/
theorem fgets_flatMap {lines : List (List Char)}
    (h : ∀ l ∈ lines, '\n' ∉ l ∧ l.length + 1 < size) :
    fgets size (lines.flatMap fun l => l ++ ['\n']) = lines.map fun l => l ++ ['\n'] := by
  unfold fgets
  induction lines with
  | nil => rfl
  | cons line lines ih =>
      obtain ⟨hmem, hlen⟩ := h line (List.mem_cons_self ..)
      rw [List.flatMap_cons, List.append_assoc, List.singleton_append,
        fgetsFrom_line _ hmem (by omega), ih fun l hl => h l (List.mem_cons_of_mem _ hl)]
      rfl

theorem fgetsFrom_last : ∀ {line : List Char} {room : Nat},
    line ≠ [] → '\n' ∉ line → line.length ≤ room → fgetsFrom size room line = [line]
  | [], room, hne, _, _ => absurd rfl hne
  | [c], room, _, _, _ => by simp [fgetsFrom]
  | c :: d :: line, room, _, hmem, hlen => by
      rw [List.mem_cons, not_or] at hmem
      rw [List.length_cons, List.length_cons] at hlen
      have hstop : ¬(c = '\n' ∨ room ≤ 1) := fun h => h.elim (fun h => hmem.1 h.symm) (by omega)
      rw [fgetsFrom, if_neg hstop, fgetsFrom_last (List.cons_ne_nil d line) hmem.2
        (show (d :: line).length ≤ room - 1 by rw [List.length_cons]; omega)]

/-- The first line of a text, when it fits the buffer. -/
theorem IsText.fgets_cons {line file : List Char} {lines : List (List Char)}
    (h : IsText (line :: lines) file) (hmem : '\n' ∉ line) (hlen : line.length + 1 < size) :
    ∃ eol rest, (∀ c ∈ eol, c = '\n') ∧ fgets size file = (line ++ eol) :: fgets size rest ∧
      IsText lines rest := by
  cases h with
  | last hne =>
      refine ⟨[], [], fun _ hc => absurd hc List.not_mem_nil, ?_, .nil⟩
      rw [List.append_nil]
      exact fgetsFrom_last hne hmem (by omega)
  | cons htext =>
      exact ⟨['\n'], _, fun _ hc => List.mem_singleton.mp hc, fgetsFrom_line _ hmem (by omega),
        htext⟩

theorem fgetsFrom_cons (room : Nat) (c : Char) (file : List Char) :
    fgetsFrom size room (c :: file) =
      if c = '\n' ∨ room ≤ 1 then [c] :: fgetsFrom size size file
      else
        match fgetsFrom size (room - 1) file with
        | [] => [[c]]
        | line :: lines => (c :: line) :: lines := rfl

theorem fgetsFrom_ne_nil {room : Nat} {file : List Char} (h : file ≠ []) :
    fgetsFrom size room file ≠ [] := by
  obtain ⟨c, file, rfl⟩ := List.exists_cons_of_ne_nil h
  unfold fgetsFrom
  split
  · exact List.cons_ne_nil _ _
  · split <;> exact List.cons_ne_nil _ _

/-- The strings hold nothing that is not in the file. -/
theorem mem_of_mem_fgetsFrom {file : List Char} :
    ∀ {room : Nat}, ∀ piece ∈ fgetsFrom size room file, ∀ c ∈ piece, c ∈ file := by
  induction file with
  | nil => exact fun _ h => absurd h List.not_mem_nil
  | cons d file ih =>
      intro room piece hpiece c hc
      unfold fgetsFrom at hpiece
      split at hpiece
      · rcases List.mem_cons.mp hpiece with rfl | hpiece
        · exact List.mem_singleton.mp hc ▸ List.mem_cons_self ..
        · exact List.mem_cons_of_mem _ (ih piece hpiece c hc)
      · split at hpiece
        · rw [List.mem_singleton.mp hpiece] at hc
          exact List.mem_singleton.mp hc ▸ List.mem_cons_self ..
        · rename_i line lines heq
          rcases List.mem_cons.mp hpiece with rfl | hpiece
          · rcases List.mem_cons.mp hc with rfl | hc
            · exact List.mem_cons_self ..
            · exact List.mem_cons_of_mem _ (ih line (heq ▸ List.mem_cons_self ..) c hc)
          · exact List.mem_cons_of_mem _ (ih piece (heq ▸ List.mem_cons_of_mem _ hpiece) c hc)

/-- A newline ends a string, however long the line is. -/
theorem fgetsFrom_append_newline (file : List Char) : ∀ {line : List Char} {room : Nat},
    fgetsFrom size room (line ++ '\n' :: file) =
      fgetsFrom size room (line ++ ['\n']) ++ fgetsFrom size size file
  | [], room => by simp [fgetsFrom]
  | c :: line, room => by
      have ih := fun room => @fgetsFrom_append_newline file line room
      rw [List.cons_append, List.cons_append, fgetsFrom, fgetsFrom]
      split
      · rw [ih]
        rfl
      · rw [ih]
        have hne : fgetsFrom size (room - 1) (line ++ ['\n']) ≠ [] :=
          fgetsFrom_ne_nil (List.append_ne_nil_of_right_ne_nil _ (List.cons_ne_nil _ _))
        obtain ⟨piece, pieces, hpieces⟩ := List.exists_cons_of_ne_nil hne
        rw [hpieces]
        rfl

/-- The newline of a line goes to its last string, or makes one of its own. -/
theorem fgetsFrom_newline : ∀ {line : List Char} {room : Nat}, line ≠ [] → '\n' ∉ line →
    ∃ pieces last, fgetsFrom size room line = pieces ++ [last] ∧
      (fgetsFrom size room (line ++ ['\n']) = pieces ++ [last ++ ['\n']] ∨
        fgetsFrom size room (line ++ ['\n']) = pieces ++ [last, ['\n']])
  | [], room, hne, _ => absurd rfl hne
  | [c], room, _, hmem => by
      have hc : c ≠ '\n' := fun h => hmem (h ▸ List.mem_cons_self ..)
      by_cases hroom : room ≤ 1
      · exact ⟨[], [c], by simp [fgetsFrom], Or.inr (by simp [fgetsFrom, hroom])⟩
      · exact ⟨[], [c], by simp [fgetsFrom], Or.inl (by simp [fgetsFrom, hc, hroom])⟩
  | c :: d :: line, room, _, hmem => by
      have hmem' : '\n' ∉ d :: line := fun h => hmem (List.mem_cons_of_mem _ h)
      have ih := fun room => @fgetsFrom_newline (d :: line) room (List.cons_ne_nil d line) hmem'
      rw [fgetsFrom_cons room c (d :: line), List.cons_append,
        fgetsFrom_cons room c (d :: line ++ ['\n'])]
      split
      · obtain ⟨pieces, last, hpieces, hnewline⟩ := ih size
        rw [hpieces]
        refine ⟨[c] :: pieces, last, rfl, hnewline.imp ?_ ?_⟩ <;> intro h <;> rw [h] <;> rfl
      · obtain ⟨pieces, last, hpieces, hnewline⟩ := ih (room - 1)
        rw [hpieces]
        cases pieces with
        | nil =>
            refine ⟨[], c :: last, rfl, hnewline.imp ?_ ?_⟩ <;> intro h <;> rw [h] <;> rfl
        | cons piece pieces =>
            refine ⟨(c :: piece) :: pieces, last, rfl, hnewline.imp ?_ ?_⟩ <;> intro h <;>
              rw [h] <;> rfl

end

end CString

end ArchSim
