import ArchSim.CString
import ArchSim.MtCore

/-!
# Instruction lines

`get_inst` of `HW4/sim_api.c` and the functions it cuts a line up with.
Each works on a copy of the line, a `char[50]`; what the source leaves
undefined is a `Fault`. A string parameter that a function changes in place
is the buffer that `strtok` leaves.
-/

namespace ArchSim

namespace SimApi

open CString MtCore

inductive Fault where
  /-- The line does not fit in the copy that is made of it. -/
  | overflow
  /-- A library function is given the `NULL` that `strtok` has returned. -/
  | nullString
  /-- The search for the command runs past the end of `cmdStr`. -/
  | pastTable
  /-- An instruction or data word is stored outside of its array. -/
  | outOfBounds
  /-- There is an instruction before any `T` line. -/
  | uninitialised
deriving DecidableEq, Repr

/-- `strcpy` into a zeroed `char[50]`. -/
def copy50 (line : List Char) : Except Fault (List Char) :=
  if line.length < 50 then .ok line else .error .overflow

/-- `atoi` of what `strtok` has returned. -/
def atoiToken : Option (List Char) → Except Fault (BitVec 32)
  | some s => .ok (atoi s)
  | none => .error .nullString

def getDst (dst : List Char) : Except Fault (BitVec 32) :=
  let comma := strtok ',' dst
  let dollar := strtok '$' comma.buffer
  atoiToken (strtok '$' dollar.saved).token

def getSrc1 (src1 : List Char) : Except Fault (BitVec 32) :=
  let comma := strtok ',' src1
  match (strtok ',' comma.saved).token with
  | none => .error .nullString
  | some src1 =>
      let dollar := strtok '$' src1
      atoiToken (strtok '$' dollar.saved).token

/-- The last operand, once it has been cut out: its value and `isSrc2Imm`.
If it is `NULL` after the `if`, the last call of `strtok` goes on with the
string before. -/
def readSrc2 (src2 : List Char) : Except Fault (BitVec 32 × Bool) :=
  let imm := !src2.contains '$'
  let line :=
    if imm then strtok '\n' (strtok ' ' src2).buffer
    else
      let dollar := strtok '$' (strtok '$' src2).saved
      strtok '\n' (dollar.token.getD dollar.saved)
  match line.token with
  | none => .error .nullString
  | some src2 =>
      if src2.contains 'x' then .ok (BitVec.ofInt 32 (strtol src2 0), imm)
      else .ok (atoi src2, imm)

def getSrc2Imm (src2 : List Char) : Except Fault (BitVec 32 × Bool) :=
  let comma := strtok ',' src2
  let comma := strtok ',' comma.saved
  match (strtok ',' comma.saved).token with
  | none => .error .nullString
  | some src2 => readSrc2 src2

/-- What `add_sub` and `load_store` have in common. -/
def getOperands (line : List Char) (inst : Instruction) : Except Fault Instruction := do
  let dst ← copy50 line
  let dst ← getDst dst
  let src1 ← copy50 line
  let src1 ← getSrc1 src1
  let src2 ← copy50 line
  let src2 ← getSrc2Imm src2
  return { inst with
    dstIndex := dst, src1Index := src1, src2IndexImm := src2.1, isSrc2Imm := src2.2 }

def addSub (line : List Char) (inst : Instruction) : Except Fault Instruction :=
  getOperands line { inst with isSrc2Imm := false }

def loadStore (line : List Char) (inst : Instruction) : Except Fault Instruction :=
  getOperands line inst

def halt (line : List Char) (inst : Instruction) : Except Fault Instruction := do
  let dst ← copy50 line
  let dst ← getDst dst
  return { inst with dstIndex := dst, isSrc2Imm := false, src1Index := 0, src2IndexImm := 0 }

def cmdStr : List (List Char × CmdOpcode) :=
  [("NOP".toList, .nop), ("ADD".toList, .add), ("SUB".toList, .sub), ("ADDI".toList, .addi),
    ("SUBI".toList, .subi), ("LOAD".toList, .load), ("STORE".toList, .store),
    ("HALT".toList, .halt)]

/-- The search for the command, which has no end test. -/
def searchCmd (command : List Char) : List (List Char × CmdOpcode) → Except Fault CmdOpcode
  | [] => .error .pastTable
  | (str, opc) :: rest => if command = str then .ok opc else searchCmd command rest

/-- The instruction that the line turns `inst` into. -/
def getInst (line : List Char) (inst : Instruction) : Except Fault Instruction := do
  let command ← copy50 line
  let opc ← searchCmd (strtok ' ' command).buffer cmdStr
  let inst := { inst with opcode := opc }
  match opc with
  | .nop => return inst
  | .addi | .subi | .add | .sub => addSub line inst
  | .load | .store => loadStore line inst
  | .halt => halt line inst

/-! ## What is written -/

/-- The number of a register, of any length, that fits an `int`. -/
structure Register where
  number : Numeral 10
  lt : number.value < 2 ^ 31

/-- The last operand. An immediate is signed decimal or hexadecimal, of at
most 32 bits. -/
inductive Operand where
  | reg (r : Register)
  | dec (negative : Bool) (n : Numeral 10) (lt : n.value < 2 ^ 32)
  | hex (n : Numeral 16) (lt : n.value < 2 ^ 32)

namespace Operand

def text : Operand → List Char
  | reg r => '$' :: r.number.text
  | dec true n _ => '-' :: n.text
  | dec false n _ => n.text
  | hex n _ => '0' :: 'x' :: n.text

def value : Operand → BitVec 32
  | reg r => BitVec.ofNat 32 r.number.value
  | dec true n _ => -BitVec.ofNat 32 n.value
  | dec false n _ => BitVec.ofNat 32 n.value
  | hex n _ => BitVec.ofNat 32 n.value

def isImm : Operand → Bool
  | reg _ => false
  | _ => true

/-- A register number without a leading zero. -/
def Plain : Operand → Prop
  | reg r => r.number.Plain
  | _ => True

end Operand

def mnemonic : CmdOpcode → List Char
  | .nop => "NOP".toList
  | .add => "ADD".toList
  | .sub => "SUB".toList
  | .addi => "ADDI".toList
  | .subi => "SUBI".toList
  | .load => "LOAD".toList
  | .store => "STORE".toList
  | .halt => "HALT".toList

def blanks (n : Nat) : List Char := List.replicate n ' '

/-- An instruction as it is written, with the numbers of blanks after the
commas and at the end. -/
inductive Line where
  | nop (trail : Nat)
  | operands (opc : CmdOpcode) (hopc : opc ≠ .nop ∧ opc ≠ .halt) (dst : Register) (gap₁ : Nat)
      (src1 : Register) (gap₂ : Nat) (src2 : Operand) (trail : Nat)
  | halt (dst : Register) (trail : Nat)

namespace Line

/-- The line without its newline: `<command> $d,$s1,$s2`. -/
def text : Line → List Char
  | nop trail => mnemonic .nop ++ blanks trail
  | operands opc _ dst gap₁ src1 gap₂ src2 trail =>
      mnemonic opc ++ ' ' :: '$' :: (dst.number.text ++ ',' :: (blanks gap₁ ++ '$' ::
        (src1.number.text ++ ',' :: (blanks gap₂ ++ (src2.text ++ blanks trail)))))
  | halt dst trail => mnemonic .halt ++ ' ' :: '$' :: (dst.number.text ++ blanks trail)

/-- The instruction that is meant, where the record held `inst` before. A
NOP has an opcode only. -/
def read (inst : Instruction) : Line → Instruction
  | nop _ => { inst with opcode := .nop }
  | operands opc _ dst _ src1 _ src2 _ =>
      ⟨opc, BitVec.ofNat 32 dst.number.value, BitVec.ofNat 32 src1.number.value, src2.value,
        src2.isImm⟩
  | halt dst _ => ⟨.halt, BitVec.ofNat 32 dst.number.value, 0, 0, false⟩

/-- There is a blank where `strtok` needs one: after a NOP, after the first
comma, and after the second one if a register follows. -/
def Spaced : Line → Prop
  | nop trail => 0 < trail
  | operands _ _ _ gap₁ _ gap₂ src2 _ => 0 < gap₁ ∧ (0 < gap₂ ∨ src2.isImm = true)
  | halt _ _ => True

/-- The number of blanks at the end. -/
def trail : Line → Nat
  | nop trail | operands _ _ _ _ _ _ _ trail | halt _ trail => trail

def Plain : Line → Prop
  | operands _ _ _ _ _ _ src2 _ => src2.Plain
  | _ => True

end Line

/-! ## The fields -/

theorem mem_blanks {c : Char} {n : Nat} (h : c ∈ blanks n) : c = ' ' :=
  List.eq_of_mem_replicate h

theorem not_mem_blanks {c : Char} {n : Nat} (h : (c == ' ') = false) : c ∉ blanks n := fun hc =>
  absurd (mem_blanks hc) (ne_of_beq_false h)

theorem isspace_of_mem_blanks {n : Nat} : ∀ c ∈ blanks n, isspace c = true := by
  intro c hc
  rw [mem_blanks hc]
  rfl

theorem blanks_ne_nil {n : Nat} (h : 0 < n) : blanks n ≠ [] := by
  rw [blanks, Ne, List.replicate_eq_nil_iff]
  exact Nat.ne_of_gt h

/-- The end of a line, which the last line of a file may lack. -/
def Eol (eol : List Char) : Prop := eol = [] ∨ eol = ['\n']

theorem Eol.ends {eol : List Char} (h : Eol eol) (base : Nat) : Ends base eol := by
  rcases h with rfl | rfl
  · exact Ends.nil base
  · intro c hc
    obtain rfl : '\n' = c := Option.some.inj hc
    rfl

theorem Eol.not_mem {eol : List Char} (h : Eol eol) {c : Char} (hc : (c == '\n') = false) :
    c ∉ eol := by
  rcases h with rfl | rfl
  · exact List.not_mem_nil
  · exact fun hmem => absurd (List.mem_singleton.mp hmem) (ne_of_beq_false hc)

/-- What may follow the last operand: the newline, with or without a carriage
return, or a blank and anything without a comma or a dollar sign. -/
structure Tail (tail : List Char) : Prop where
  comma : ',' ∉ tail
  dollar : '$' ∉ tail
  start : Eol tail ∨ tail.head? = some ' ' ∨ ∃ eol, Eol eol ∧ tail = '\r' :: eol

theorem Tail.ends {tail : List Char} (h : Tail tail) (base : Nat) : Ends base tail := by
  rcases h.start with heol | hblank | ⟨eol, -, rfl⟩
  · exact heol.ends base
  · intro c hc
    rw [hblank] at hc
    obtain rfl : ' ' = c := Option.some.inj hc
    rfl
  · intro c hc
    obtain rfl : '\r' = c := Option.some.inj hc
    rfl

/-- It, up to its newline, begins with white space if with anything. -/
theorem Tail.takeWhile_eq {tail : List Char} (h : Tail tail) :
    tail.takeWhile (· != '\n') = [] ∨
      ∃ c rest, (c = ' ' ∨ c = '\r') ∧ tail.takeWhile (· != '\n') = c :: rest := by
  rcases h.start with (rfl | rfl) | hblank | ⟨eol, -, rfl⟩
  · exact Or.inl rfl
  · exact Or.inl rfl
  · obtain ⟨rest, rfl⟩ := List.head?_eq_some_iff.mp hblank
    exact Or.inr ⟨' ', rest.takeWhile (· != '\n'), Or.inl rfl, rfl⟩
  · exact Or.inr ⟨'\r', eol.takeWhile (· != '\n'), Or.inr rfl, rfl⟩

/-- Blanks and the newline. -/
theorem Eol.tail {eol : List Char} (h : Eol eol) (n : Nat) : Tail (blanks n ++ eol) := by
  have hmem : ∀ {c : Char}, (c == ' ') = false → (c == '\n') = false → c ∉ blanks n ++ eol := by
    intro c hblank hnewline
    rw [List.mem_append, not_or]
    exact ⟨not_mem_blanks hblank, h.not_mem hnewline⟩
  refine ⟨hmem rfl rfl, hmem rfl rfl, ?_⟩
  cases n with
  | zero => exact Or.inl h
  | succ n => exact Or.inr (Or.inl rfl)

theorem strtok_eol {tok eol : List Char} (h : Eol eol) (hne : tok ≠ []) (hmem : '\n' ∉ tok) :
    (strtok '\n' (tok ++ eol)).token = some tok := by
  rcases h with rfl | rfl
  · rw [List.append_nil, strtok_last hne hmem]
  · rw [strtok_field hne hmem]

/-- A register number, up to what follows it. -/
theorem atoi_register (r : Register) {rest : List Char} (hrest : Ends 10 rest) :
    atoi (r.number.text ++ rest) = BitVec.ofNat 32 r.number.value := by
  have hmag := r.number.magnitude_dec hrest
  have hlt := r.lt
  have hval : strtol (r.number.text ++ rest) 10 = (magnitude (r.number.text ++ rest) 10 : Int) :=
    strtol_unsigned (fun _ h => absurd h List.not_mem_nil) (r.number.head_append rest)
      (lt_of_eq_of_lt hmag (by omega))
  rw [atoi, hval, hmag, BitVec.ofInt_natCast]

/-- `strtok` with `$` on a register behind something else. -/
theorem dollar_field {pre body : List Char} (hne : pre ≠ []) (hmem : '$' ∉ pre) :
    (strtok '$' (pre ++ '$' :: body)).saved = body := by
  rw [strtok_field hne hmem]

/-- On a register that comes first it returns the number, and there is
nothing left for the next call. -/
theorem dollar_first {body : List Char} (hne : body ≠ []) (hmem : '$' ∉ body) :
    (strtok '$' ('$' :: body)).saved = [] := by
  rw [strtok_cons_self, strtok_last hne hmem]

theorem getDst_eq {line pre rest : List Char} {r : Register}
    (hbuffer : (strtok ',' line).buffer = pre ++ '$' :: (r.number.text ++ rest))
    (hne : pre ≠ []) (hmem : '$' ∉ pre) (hrest : '$' ∉ rest) (hends : Ends 10 rest) :
    getDst line = .ok (BitVec.ofNat 32 r.number.value) := by
  have hbody : r.number.text ++ rest ≠ [] := List.append_ne_nil_of_left_ne_nil r.number.ne_nil _
  have hdollar : '$' ∉ r.number.text ++ rest := by
    rw [List.mem_append, not_or]
    exact ⟨r.number.not_mem rfl, hrest⟩
  simp only [getDst, hbuffer, dollar_field hne hmem, strtok_last hbody hdollar, atoiToken,
    atoi_register r hends]

theorem getSrc1_eq {field₀ field₁ rest : List Char} (hne₀ : field₀ ≠ []) (hmem₀ : ',' ∉ field₀)
    (hne₁ : field₁ ≠ []) (hmem₁ : ',' ∉ field₁) :
    getSrc1 (field₀ ++ ',' :: (field₁ ++ ',' :: rest)) =
      atoiToken (strtok '$' (strtok '$' field₁).saved).token := by
  simp only [getSrc1, strtok_field hne₀ hmem₀, strtok_field hne₁ hmem₁]

theorem getSrc2Imm_eq {field₀ field₁ field₂ : List Char} (hne₀ : field₀ ≠ [])
    (hmem₀ : ',' ∉ field₀) (hne₁ : field₁ ≠ []) (hmem₁ : ',' ∉ field₁) (hne₂ : field₂ ≠ [])
    (hmem₂ : ',' ∉ field₂) :
    getSrc2Imm (field₀ ++ ',' :: (field₁ ++ ',' :: field₂)) = readSrc2 field₂ := by
  simp only [getSrc2Imm, strtok_field hne₀ hmem₀, strtok_field hne₁ hmem₁,
    strtok_last hne₂ hmem₂]

/-- What occurs in a number, a sign and a hexadecimal prefix included. -/
def numeric (c : Char) : Bool := isDigit 16 c || c == 'x' || c == '-'

theorem not_of_not_numeric {c : Char} (h : numeric c = false) :
    isDigit 16 c = false ∧ c ≠ 'x' ∧ c ≠ '-' := by
  unfold numeric at h
  rw [Bool.or_eq_false_iff, Bool.or_eq_false_iff] at h
  exact ⟨h.1.1, ne_of_beq_false h.1.2, ne_of_beq_false h.2⟩

namespace Operand

theorem text_ne_nil (o : Operand) : o.text ≠ [] := by
  cases o with
  | reg r => exact List.cons_ne_nil _ _
  | dec negative n lt =>
      cases negative with
      | true => exact List.cons_ne_nil _ _
      | false => exact n.ne_nil
  | hex n lt => exact List.cons_ne_nil _ _

/-- What does not occur in an operand. -/
theorem not_mem_text (o : Operand) {c : Char} (hc : numeric c = false)
    (hdollar : c = '$' → o.isImm = true) : c ∉ o.text := by
  obtain ⟨hdigit, hx, hminus⟩ := not_of_not_numeric hc
  have hdec : isDigit 10 c = false := not_isDigit_of_le (by omega) hdigit
  have hzero : c ≠ '0' := fun h => by rw [h] at hdigit; cases hdigit
  cases o with
  | reg r =>
      rw [text, List.mem_cons, not_or]
      exact ⟨fun h => (nomatch hdollar h), r.number.not_mem hdec⟩
  | dec negative n lt =>
      cases negative with
      | true =>
          rw [text, List.mem_cons, not_or]
          exact ⟨hminus, n.not_mem hdec⟩
      | false => exact n.not_mem hdec
  | hex n lt =>
      rw [text, List.mem_cons, List.mem_cons, not_or, not_or]
      exact ⟨hzero, hx, n.not_mem hdigit⟩

end Operand

/-! ## The last operand -/

variable {gap : Nat} {tail : List Char}

theorem Register.append_ne_nil (r : Register) (rest : List Char) : r.number.text ++ rest ≠ [] :=
  List.append_ne_nil_of_left_ne_nil r.number.ne_nil _

theorem Register.not_mem_tail (r : Register) {c : Char} (hdigit : isDigit 10 c = false)
    (htail : c ∉ tail) : c ∉ r.number.text ++ tail := by
  rw [List.mem_append, not_or]
  exact ⟨r.number.not_mem hdigit, htail⟩

/-- A register number is read in either way. -/
theorem Register.strtol_or_atoi (r : Register) (htail : Tail tail)
    (hx : 'x' ∉ tail ∨ r.number.Plain) :
    let src2 := r.number.text ++ tail.takeWhile (· != '\n')
    (if src2.contains 'x' then BitVec.ofInt 32 (strtol src2 0) else atoi src2) =
      BitVec.ofNat 32 r.number.value := by
  have hends : Ends 10 (tail.takeWhile (· != '\n')) := by
    rcases htail.takeWhile_eq with htake | ⟨c, rest, hc, htake⟩ <;> rw [htake]
    · exact Ends.nil 10
    · intro d hd
      obtain rfl : c = d := Option.some.inj hd
      rcases hc with rfl | rfl <;> rfl
  intro src2
  split
  · rename_i hcontains
    have hplain : r.number.Plain := by
      refine hx.resolve_left fun hx => ?_
      have hmem : 'x' ∈ src2 := by simpa using hcontains
      rcases List.mem_append.mp hmem with hmem | hmem
      · exact r.number.not_mem rfl hmem
      · exact hx ((List.takeWhile_sublist _).subset hmem)
    have hmag : magnitude src2 0 = r.number.value := by
      refine r.number.magnitude_auto hplain hends ?_
      rcases htail.takeWhile_eq with htake | ⟨c, rest, hc, htake⟩ <;> rw [htake]
      · exact fun c hc => (nomatch hc)
      · intro d hd
        obtain rfl : c = d := Option.some.inj hd
        rcases hc with rfl | rfl <;> exact ⟨nofun, nofun⟩
    have hlt := r.lt
    have hval : strtol src2 0 = (magnitude src2 0 : Int) :=
      strtol_unsigned (fun _ h => absurd h List.not_mem_nil)
        (r.number.head_append _) (lt_of_eq_of_lt hmag (by omega))
    rw [hval, hmag, BitVec.ofInt_natCast]
  · exact atoi_register r hends

theorem readSrc2_reg (hgap : 0 < gap) (r : Register) (htail : Tail tail)
    (hx : 'x' ∉ tail ∨ r.number.Plain) :
    readSrc2 (blanks gap ++ '$' :: (r.number.text ++ tail)) =
      .ok (BitVec.ofNat 32 r.number.value, false) := by
  have hsaved : (strtok '$' (blanks gap ++ '$' :: (r.number.text ++ tail))).saved =
      r.number.text ++ tail :=
    dollar_field (blanks_ne_nil hgap) (not_mem_blanks rfl)
  have hlast := strtok_last (r.append_ne_nil tail) (r.not_mem_tail rfl htail.dollar)
  have htoken := strtok_append r.number.ne_nil (r.number.not_mem (c := '\n') rfl) tail
  have hvalue := r.strtol_or_atoi htail hx
  have hdollar : (blanks gap ++ '$' :: (r.number.text ++ tail)).contains '$' = true := by simp
  simp only [readSrc2, hdollar, Bool.not_true, Bool.false_eq_true, if_false, hsaved, hlast,
    Option.getD_some, htoken]
  rw [← hvalue]
  split <;> rfl

/-- Without a blank before it the register is lost. -/
theorem readSrc2_reg_first (r : Register) (htail : Tail tail) :
    readSrc2 ('$' :: (r.number.text ++ tail)) = .error .nullString := by
  have hsaved := dollar_first (r.append_ne_nil tail) (r.not_mem_tail rfl htail.dollar)
  simp only [readSrc2, List.contains_cons, beq_self_eq_true, Bool.true_or, Bool.not_true,
    Bool.false_eq_true, if_false, hsaved, strtok_nil, Option.getD_none]

/-- The leading blanks stay in the buffer. -/
theorem strtok_blanks (n : Nat) (s : List Char) :
    (strtok ' ' (blanks n ++ s)).buffer = blanks n ++ (strtok ' ' s).buffer := by
  induction n with
  | zero => rfl
  | succ n ih =>
      rw [blanks, List.replicate_succ, List.cons_append, strtok_cons_self]
      exact congrArg (List.cons ' ') ih

/-- What is left of what follows an immediate: nothing, or a carriage
return. -/
def Cr (rest : List Char) : Prop := rest = [] ∨ rest = ['\r']

theorem Cr.ends {rest : List Char} (h : Cr rest) (base : Nat) : Ends base rest := by
  rcases h with rfl | rfl
  · exact Ends.nil base
  · intro c hc
    obtain rfl : '\r' = c := Option.some.inj hc
    rfl

theorem Cr.not_mem {rest : List Char} (h : Cr rest) {c : Char} (hc : (c == '\r') = false) :
    c ∉ rest := by
  rcases h with rfl | rfl
  · exact List.not_mem_nil
  · exact fun hmem => absurd (List.mem_singleton.mp hmem) (ne_of_beq_false hc)

/-- An immediate without most of what surrounds it. -/
theorem strtok_imm {o : Operand} (himm : o.isImm = true) (htail : Tail tail) :
    ∃ rest, Cr rest ∧
      (strtok '\n' (strtok ' ' (blanks gap ++ (o.text ++ tail))).buffer).token =
        some (blanks gap ++ (o.text ++ rest)) := by
  have hne : ∀ rest, blanks gap ++ (o.text ++ rest) ≠ [] := fun rest =>
    List.append_ne_nil_of_right_ne_nil _ (List.append_ne_nil_of_left_ne_nil o.text_ne_nil _)
  have hblank : ' ' ∉ o.text := o.not_mem_text rfl fun _ => himm
  have hnewline : '\n' ∉ o.text := o.not_mem_text rfl fun _ => himm
  have hnewline' : ∀ {rest}, Cr rest → '\n' ∉ blanks gap ++ (o.text ++ rest) := by
    intro rest hrest
    rw [List.mem_append, List.mem_append, not_or, not_or]
    exact ⟨not_mem_blanks rfl, hnewline, hrest.not_mem rfl⟩
  have hline : ∀ {rest eol}, Cr rest → Eol eol → tail = rest ++ eol →
      (strtok '\n' (blanks gap ++ (strtok ' ' (o.text ++ tail)).buffer)).token =
        some (blanks gap ++ (o.text ++ rest)) := by
    intro rest eol hrest heol htail
    have hmem : ' ' ∉ o.text ++ tail := by
      rw [htail, List.mem_append, List.mem_append, not_or, not_or]
      exact ⟨hblank, hrest.not_mem rfl, heol.not_mem rfl⟩
    rw [strtok_last (List.append_ne_nil_of_left_ne_nil o.text_ne_nil _) hmem, htail]
    rw [← List.append_assoc o.text, ← List.append_assoc (blanks gap)]
    exact strtok_eol heol (hne rest) (hnewline' hrest)
  rw [strtok_blanks]
  rcases htail.start with heol | hstart | ⟨eol, heol, htail⟩
  · exact ⟨[], Or.inl rfl, hline (Or.inl rfl) heol rfl⟩
  · obtain ⟨rest, rfl⟩ := List.head?_eq_some_iff.mp hstart
    refine ⟨[], Or.inl rfl, ?_⟩
    have hlast := strtok_last (hne []) (hnewline' (Or.inl rfl))
    rw [List.append_nil] at hlast ⊢
    rw [strtok_field o.text_ne_nil hblank, hlast]
  · exact ⟨['\r'], Or.inr rfl, hline (Or.inr rfl) heol htail⟩

theorem contains_eq_false {c : Char} {s : List Char} (h : c ∉ s) : s.contains c = false := by
  simpa using h

/-- `x` tells which of the two functions reads an immediate, and each gives
its value. -/
theorem immediate_value {o : Operand} (himm : o.isImm = true) (gap : Nat) {rest : List Char}
    (hrest : Cr rest) :
    ((blanks gap ++ (o.text ++ rest)).contains 'x' = true ∧
        BitVec.ofInt 32 (strtol (blanks gap ++ (o.text ++ rest)) 0) = o.value) ∨
      ((blanks gap ++ (o.text ++ rest)).contains 'x' = false ∧
        atoi (blanks gap ++ (o.text ++ rest)) = o.value) := by
  have hgap : 'x' ∉ blanks gap := not_mem_blanks rfl
  have hx' : 'x' ∉ rest := hrest.not_mem rfl
  cases o with
  | reg r => cases himm
  | dec negative n lt =>
      have hmag : magnitude (n.text ++ rest) 10 = n.value := n.magnitude_dec (hrest.ends 10)
      have hx : 'x' ∉ n.text := n.not_mem rfl
      right
      cases negative with
      | true =>
          refine ⟨contains_eq_false ?_, ?_⟩
          · rw [Operand.text, List.mem_append, List.mem_append, List.mem_cons, not_or, not_or,
              not_or]
            exact ⟨hgap, ⟨by decide, hx⟩, hx'⟩
          · rw [atoi, Operand.text, List.cons_append, strtol_negative isspace_of_mem_blanks
              (by omega), hmag, BitVec.ofInt_neg, BitVec.ofInt_natCast]
            rfl
      | false =>
          refine ⟨contains_eq_false ?_, ?_⟩
          · rw [Operand.text, List.mem_append, List.mem_append, not_or, not_or]
            exact ⟨hgap, hx, hx'⟩
          · rw [atoi, Operand.text, strtol_unsigned isspace_of_mem_blanks (n.head_append rest)
              (by omega), hmag, BitVec.ofInt_natCast]
            rfl
  | hex n lt =>
      have hmag : magnitude ('0' :: 'x' :: (n.text ++ rest)) 0 = n.value :=
        n.magnitude_hex (hrest.ends 16)
      left
      refine ⟨by simp [Operand.text], ?_⟩
      rw [Operand.text, List.cons_append, List.cons_append, strtol_unsigned isspace_of_mem_blanks
        (fun c hc => by cases hc; decide) (by omega), hmag, BitVec.ofInt_natCast]
      rfl

theorem readSrc2_imm {o : Operand} (himm : o.isImm = true) (htail : Tail tail) :
    readSrc2 (blanks gap ++ (o.text ++ tail)) = .ok (o.value, true) := by
  have hdollar : (blanks gap ++ (o.text ++ tail)).contains '$' = false := by
    refine contains_eq_false ?_
    rw [List.mem_append, List.mem_append, not_or, not_or]
    exact ⟨not_mem_blanks rfl,
      o.not_mem_text rfl fun _ => himm, htail.dollar⟩
  obtain ⟨rest, hrest, htoken⟩ := @strtok_imm gap tail o himm htail
  rcases immediate_value himm gap hrest with ⟨hx, hvalue⟩ | ⟨hx, hvalue⟩ <;>
    simp only [readSrc2, hdollar, Bool.not_false, if_true, htoken, hx, hvalue,
      Bool.false_eq_true, if_false]

/-! ## Whole lines -/

theorem mnemonic_ne_nil (opc : CmdOpcode) : mnemonic opc ≠ [] := by
  cases opc <;> decide

theorem not_mem_mnemonic {c : Char} (hc : c = ' ' ∨ c = ',' ∨ c = '$') (opc : CmdOpcode) :
    c ∉ mnemonic opc := by
  rcases hc with rfl | rfl | rfl <;> cases opc <;> decide

theorem searchCmd_mnemonic (opc : CmdOpcode) : searchCmd (mnemonic opc) cmdStr = .ok opc := by
  cases opc <;> decide

/-- A line that begins like no command makes the search run past the table,
if it fits the copy. -/
theorem getInst_unknown {c : Char} (hc : c ≠ 'N' ∧ c ≠ 'A' ∧ c ≠ 'S' ∧ c ≠ 'L' ∧ c ≠ 'H')
    (rest : List Char) (inst : Instruction) :
    ∃ fault, getInst (c :: rest) inst = .error fault := by
  obtain ⟨hN, hA, hS, hL, hH⟩ := hc
  obtain ⟨rest', hbuffer⟩ := exists_strtok_buffer ' ' c rest
  have hsearch : searchCmd (c :: rest') cmdStr = .error .pastTable := by
    simp [searchCmd, cmdStr, hN, hA, hS, hL, hH]
  by_cases hlen : (c :: rest).length < 50
  · have hcopy : copy50 (c :: rest) = .ok (c :: rest) := if_pos hlen
    refine ⟨.pastTable, ?_⟩
    simp only [getInst, hcopy, bind, Except.bind, hbuffer, hsearch]
  · have hcopy : copy50 (c :: rest) = .error .overflow := if_neg hlen
    refine ⟨.overflow, ?_⟩
    simp only [getInst, hcopy, bind, Except.bind]

theorem copy50_eq {line : List Char} (h : line.length < 50) : copy50 line = .ok line := if_pos h

/-- The command is found when a blank ends it. -/
theorem getInst_command {opc : CmdOpcode} {rest : List Char}
    (hlen : (mnemonic opc ++ ' ' :: rest).length < 50) (inst : Instruction) :
    getInst (mnemonic opc ++ ' ' :: rest) inst =
      match opc with
      | .nop => .ok { inst with opcode := .nop }
      | .halt => halt (mnemonic opc ++ ' ' :: rest) { inst with opcode := .halt }
      | opc => getOperands (mnemonic opc ++ ' ' :: rest)
          { inst with
            opcode := opc
            isSrc2Imm := if opc = .load ∨ opc = .store then inst.isSrc2Imm else false } := by
  have hcommand : (strtok ' ' (mnemonic opc ++ ' ' :: rest)).buffer = mnemonic opc := by
    rw [strtok_field (mnemonic_ne_nil opc) (not_mem_mnemonic (Or.inl rfl) opc)]
  simp only [getInst, copy50_eq hlen, hcommand, searchCmd_mnemonic, bind, Except.bind, pure,
    Except.pure]
  cases opc <;> rfl

section

variable {opc : CmdOpcode} {dst src1 : Register} {gap₁ : Nat} {third : List Char}

/-- A line with three operands, up to the last one. -/
def threeFields (opc : CmdOpcode) (dst : Register) (gap₁ : Nat) (src1 : Register)
    (third : List Char) : List Char :=
  mnemonic opc ++ ' ' :: '$' :: (dst.number.text ++ ',' :: (blanks gap₁ ++ '$' ::
    (src1.number.text ++ ',' :: third)))

theorem threeFields_eq : threeFields opc dst gap₁ src1 third =
    (mnemonic opc ++ ' ' :: '$' :: dst.number.text) ++ ',' ::
      ((blanks gap₁ ++ '$' :: src1.number.text) ++ ',' :: third) := by
  simp [threeFields]

theorem field₀_ne_nil : mnemonic opc ++ ' ' :: '$' :: dst.number.text ≠ [] :=
  List.append_ne_nil_of_left_ne_nil (mnemonic_ne_nil opc) _

theorem comma_not_mem_field₀ : ',' ∉ mnemonic opc ++ ' ' :: '$' :: dst.number.text := by
  rw [List.mem_append, List.mem_cons, List.mem_cons, not_or, not_or, not_or]
  exact ⟨not_mem_mnemonic (Or.inr (Or.inl rfl)) opc, by decide, by decide, dst.number.not_mem rfl⟩

theorem field₁_ne_nil : blanks gap₁ ++ '$' :: src1.number.text ≠ [] :=
  List.append_ne_nil_of_right_ne_nil _ (List.cons_ne_nil _ _)

theorem comma_not_mem_field₁ : ',' ∉ blanks gap₁ ++ '$' :: src1.number.text := by
  rw [List.mem_append, List.mem_cons, not_or, not_or]
  exact ⟨not_mem_blanks rfl, by decide, src1.number.not_mem rfl⟩

theorem getDst_threeFields :
    getDst (threeFields opc dst gap₁ src1 third) = .ok (BitVec.ofNat 32 dst.number.value) := by
  have hbuffer : (strtok ',' (threeFields opc dst gap₁ src1 third)).buffer =
      (mnemonic opc ++ [' ']) ++ '$' :: (dst.number.text ++ []) := by
    rw [threeFields_eq, strtok_field field₀_ne_nil comma_not_mem_field₀]
    simp
  refine getDst_eq hbuffer (by simp) ?_ List.not_mem_nil (Ends.nil 10)
  rw [List.mem_append, not_or]
  exact ⟨not_mem_mnemonic (Or.inr (Or.inr rfl)) opc, by decide⟩

theorem getSrc1_threeFields :
    getSrc1 (threeFields opc dst gap₁ src1 third) =
      if 0 < gap₁ then .ok (BitVec.ofNat 32 src1.number.value) else .error .nullString := by
  have hdollar : '$' ∉ src1.number.text := src1.number.not_mem rfl
  rw [threeFields_eq, getSrc1_eq field₀_ne_nil comma_not_mem_field₀ field₁_ne_nil
    comma_not_mem_field₁]
  split
  · rename_i hgap
    have hvalue := atoi_register src1 (Ends.nil 10)
    rw [List.append_nil] at hvalue
    rw [dollar_field (blanks_ne_nil hgap) (not_mem_blanks rfl),
      strtok_last src1.number.ne_nil hdollar]
    exact congrArg Except.ok hvalue
  · rename_i hgap
    obtain rfl := Nat.eq_zero_of_not_pos hgap
    rw [show blanks 0 ++ '$' :: src1.number.text = '$' :: src1.number.text from rfl,
      dollar_first src1.number.ne_nil hdollar, strtok_nil]
    rfl

theorem getSrc2Imm_threeFields {src2 : Operand} {gap₂ : Nat} (htail : Tail tail)
    (hx : 'x' ∉ tail ∨ src2.Plain) :
    getSrc2Imm (threeFields opc dst gap₁ src1 (blanks gap₂ ++ (src2.text ++ tail))) =
      if 0 < gap₂ ∨ src2.isImm = true then .ok (src2.value, src2.isImm)
      else .error .nullString := by
  have hne : blanks gap₂ ++ (src2.text ++ tail) ≠ [] :=
    List.append_ne_nil_of_right_ne_nil _ (List.append_ne_nil_of_left_ne_nil src2.text_ne_nil _)
  have hcomma : ',' ∉ blanks gap₂ ++ (src2.text ++ tail) := by
    rw [List.mem_append, List.mem_append, not_or, not_or]
    exact ⟨not_mem_blanks rfl,
      src2.not_mem_text rfl (fun h => nomatch h), htail.comma⟩
  rw [threeFields_eq, getSrc2Imm_eq field₀_ne_nil comma_not_mem_field₀ field₁_ne_nil
    comma_not_mem_field₁ hne hcomma]
  by_cases himm : src2.isImm = true
  · rw [if_pos (Or.inr himm), himm]
    exact readSrc2_imm himm htail
  · cases src2 with
    | reg r =>
        split
        · rename_i hgap
          exact readSrc2_reg (hgap.resolve_right himm) r htail hx
        · rename_i hgap
          obtain rfl := Nat.eq_zero_of_not_pos fun h => hgap (Or.inl h)
          exact readSrc2_reg_first r htail
    | dec negative n lt => exact absurd rfl himm
    | hex n lt => exact absurd rfl himm

/-- `add_sub` and `load_store`. -/
theorem getOperands_threeFields {src2 : Operand} {gap₂ : Nat} (htail : Tail tail)
    (hx : 'x' ∉ tail ∨ src2.Plain) (inst : Instruction)
    (hlen : (threeFields opc dst gap₁ src1 (blanks gap₂ ++ (src2.text ++ tail))).length < 50) :
    getOperands (threeFields opc dst gap₁ src1 (blanks gap₂ ++ (src2.text ++ tail))) inst =
      if 0 < gap₁ ∧ (0 < gap₂ ∨ src2.isImm = true) then
        .ok ⟨inst.opcode, BitVec.ofNat 32 dst.number.value, BitVec.ofNat 32 src1.number.value,
          src2.value, src2.isImm⟩
      else .error .nullString := by
  simp only [getOperands, copy50_eq hlen, getDst_threeFields, getSrc1_threeFields,
    getSrc2Imm_threeFields htail hx, bind, Except.bind, pure, Except.pure]
  by_cases h₁ : 0 < gap₁
  · by_cases h₂ : 0 < gap₂ ∨ src2.isImm = true
    · simp only [if_pos h₁, if_pos h₂, if_pos (And.intro h₁ h₂)]
    · simp only [if_pos h₁, if_neg h₂, if_neg fun h : 0 < gap₁ ∧ _ => h₂ h.2]
  · simp only [if_neg h₁, if_neg fun h : 0 < gap₁ ∧ (0 < gap₂ ∨ src2.isImm = true) => h₁ h.1]

theorem getInst_threeFields {src2 : Operand} {gap₂ : Nat} (hopc : opc ≠ .nop ∧ opc ≠ .halt)
    (htail : Tail tail) (hx : 'x' ∉ tail ∨ src2.Plain) (inst : Instruction)
    (hlen : (threeFields opc dst gap₁ src1 (blanks gap₂ ++ (src2.text ++ tail))).length < 50) :
    getInst (threeFields opc dst gap₁ src1 (blanks gap₂ ++ (src2.text ++ tail))) inst =
      if 0 < gap₁ ∧ (0 < gap₂ ∨ src2.isImm = true) then
        .ok ⟨opc, BitVec.ofNat 32 dst.number.value, BitVec.ofNat 32 src1.number.value, src2.value,
          src2.isImm⟩
      else .error .nullString := by
  have hget := getInst_command hlen inst
  rw [← threeFields] at hget
  rw [hget]
  cases opc with
  | nop => exact absurd rfl hopc.1
  | halt => exact absurd rfl hopc.2
  | _ => exact getOperands_threeFields htail hx _ hlen

end

theorem halt_eq {dst : Register} {inst : Instruction} (htail : Tail tail)
    (hlen : (mnemonic .halt ++ ' ' :: '$' :: (dst.number.text ++ tail)).length < 50) :
    halt (mnemonic .halt ++ ' ' :: '$' :: (dst.number.text ++ tail)) inst =
      .ok ⟨inst.opcode, BitVec.ofNat 32 dst.number.value, 0, 0, false⟩ := by
  have hcomma : ',' ∉ mnemonic .halt ++ ' ' :: '$' :: (dst.number.text ++ tail) := by
    rw [List.mem_append, List.mem_cons, List.mem_cons, not_or, not_or, not_or]
    exact ⟨by decide, by decide, by decide, dst.not_mem_tail rfl htail.comma⟩
  have hbuffer : (strtok ',' (mnemonic .halt ++ ' ' :: '$' :: (dst.number.text ++ tail))).buffer =
      (mnemonic .halt ++ [' ']) ++ '$' :: (dst.number.text ++ tail) := by
    rw [strtok_last (List.append_ne_nil_of_left_ne_nil (by decide) _) hcomma]
    simp
  have hdst := getDst_eq hbuffer (by decide) (by decide) htail.dollar (htail.ends 10)
  simp only [halt, copy50_eq hlen, hdst, bind, Except.bind, pure, Except.pure]

namespace Line

/-- A line as it is written, with what may follow it, is read back. -/
theorem getInst_of_spaced (l : Line) {rest : List Char} (htail : Tail (blanks l.trail ++ rest))
    (hx : 'x' ∉ rest ∨ l.Plain) (hlen : (l.text ++ rest).length < 50) (hs : l.Spaced)
    (inst : Instruction) : getInst (l.text ++ rest) inst = .ok (l.read inst) := by
  have hx' : 'x' ∉ blanks l.trail ++ rest ∨ l.Plain := by
    refine hx.imp_left fun hx => ?_
    rw [List.mem_append, not_or]
    exact ⟨not_mem_blanks rfl, hx⟩
  cases l with
  | nop trail =>
      obtain ⟨trail, rfl⟩ := Nat.exists_eq_succ_of_ne_zero (Nat.ne_of_gt hs)
      have htext : (nop (trail + 1)).text ++ rest =
          mnemonic .nop ++ ' ' :: (blanks trail ++ rest) := by
        simp [text, blanks, List.replicate_succ]
      rw [htext] at hlen ⊢
      exact getInst_command hlen inst
  | operands opc hopc dst gap₁ src1 gap₂ src2 trail =>
      have htext : (operands opc hopc dst gap₁ src1 gap₂ src2 trail).text ++ rest =
          threeFields opc dst gap₁ src1 (blanks gap₂ ++ (src2.text ++ (blanks trail ++ rest))) := by
        simp [text, threeFields]
      rw [htext] at hlen ⊢
      exact (getInst_threeFields hopc htail hx' inst hlen).trans (if_pos hs)
  | halt dst trail =>
      have htext : (halt dst trail).text ++ rest =
          mnemonic .halt ++ ' ' :: '$' :: (dst.number.text ++ (blanks trail ++ rest)) := by
        simp [text]
      rw [htext] at hlen ⊢
      rw [getInst_command hlen inst]
      exact halt_eq htail hlen

/-- Otherwise the search for the command or the call that is given `NULL`
goes wrong. -/
theorem getInst_of_not_spaced (l : Line) (hlen : (l.text ++ ['\n']).length < 50)
    (hs : ¬l.Spaced) (inst : Instruction) :
    ∃ fault, getInst (l.text ++ ['\n']) inst = .error fault := by
  cases l with
  | nop trail =>
      obtain rfl := Nat.eq_zero_of_not_pos hs
      exact ⟨.pastTable, by rfl⟩
  | operands opc hopc dst gap₁ src1 gap₂ src2 trail =>
      have htext : (operands opc hopc dst gap₁ src1 gap₂ src2 trail).text ++ ['\n'] =
          threeFields opc dst gap₁ src1
            (blanks gap₂ ++ (src2.text ++ (blanks trail ++ ['\n']))) := by
        simp [text, threeFields]
      rw [htext] at hlen ⊢
      have hx : 'x' ∉ blanks trail ++ ['\n'] := by
        rw [List.mem_append, not_or]
        exact ⟨not_mem_blanks rfl, by decide⟩
      have htail : Tail (blanks trail ++ ['\n']) := Eol.tail (Or.inr rfl) trail
      exact ⟨.nullString,
        (getInst_threeFields hopc htail (Or.inl hx) inst hlen).trans (if_neg hs)⟩
  | halt dst trail => exact absurd trivial hs

end Line

/-- Reading back a line gives the instruction exactly when there is a blank
after a NOP, one after the first comma, and one after the second comma if
the last operand is a register. -/
theorem getInst_reads_iff (l : Line) (hlen : l.text.length ≤ 48) :
    (∀ inst, getInst (l.text ++ ['\n']) inst = .ok (l.read inst)) ↔ l.Spaced := by
  have hlen' : (l.text ++ ['\n']).length < 50 := by
    rw [List.length_append]
    exact Nat.lt_succ_of_le (Nat.succ_le_succ hlen)
  constructor
  · intro h
    by_contra hs
    obtain ⟨fault, herr⟩ := l.getInst_of_not_spaced hlen' hs ⟨.nop, 0, 0, 0, false⟩
    rw [h] at herr
    cases herr
  · intro hs inst
    exact l.getInst_of_spaced (Eol.tail (Or.inr rfl) l.trail) (Or.inl (by decide)) hlen' hs inst

/-- A register of one digit. -/
def register (c : Char) (h : isDigit 10 c = true) : Register where
  number := .ofDigit c h
  lt := by
    have hlt := digit_lt h
    rw [Numeral.value_ofDigit]
    omega

theorem isDigit_one : isDigit 10 '1' = true := rfl

/-- `ADD $1,$2,$3`, in the documented format, without a blank. -/
def addLine (gap : Nat) : Line :=
  .operands .add (by decide) (register '1' isDigit_one) gap (register '2' rfl) gap
    (.reg (register '3' rfl)) 0

/-- The line `ADD $1,$2,$3` makes `get_src1` pass `NULL` to `atoi`, and a
line with `NOP` and nothing else is not found in `cmdStr`. -/
theorem getInst_addLine :
    (addLine 0).text.length ≤ 48 ∧ (Line.nop 0).text.length ≤ 48 ∧
      getInst "ADD $1,$2,$3\n".toList ⟨.nop, 0, 0, 0, false⟩ = .error .nullString ∧
      getInst "NOP\n".toList ⟨.nop, 0, 0, 0, false⟩ = .error .pastTable ∧
      (∀ l ∈ [addLine 0, .nop 0],
        ¬∀ inst, getInst (l.text ++ ['\n']) inst = .ok (l.read inst)) := by
  refine ⟨by decide, by decide, by decide, by decide, ?_⟩
  intro l hl h
  have h := h ⟨.nop, 0, 0, 0, false⟩
  fin_cases hl
  · exact absurd h (by decide)
  · exact absurd h (by decide)

theorem getInst_reads_iff_addLine :
    (addLine 1).text.length ≤ 48 ∧ (addLine 1).Spaced ∧
      ∀ inst, getInst "ADD $1, $2, $3\n".toList inst = .ok ⟨.add, 1, 2, 3, false⟩ := by
  have hlen : (addLine 1).text.length ≤ 48 := by decide
  have hspaced : (addLine 1).Spaced := ⟨Nat.one_pos, Or.inl Nat.one_pos⟩
  exact ⟨hlen, hspaced, (getInst_reads_iff (addLine 1) hlen).mpr hspaced⟩

end SimApi

end ArchSim
