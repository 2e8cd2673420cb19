import ArchSim.BranchRun
import ArchSim.SimImage

/-!
# The branch prediction program

`main` of `HW1/bp_main.c` and `BTB::updateStats`: a trace file whose first
line is the configuration, one branch a line after it up to an empty line or
the end, and a line of statistics at last. What `update` prints for debugging
is left out, and so is a `BTB` that cannot be allocated.

On a file of the documented format `main` prints the predictions of the
two-bit specification, and counts the branches and those whose predicted
destination was wrong (`main_predicts`).
-/

namespace ArchSim

namespace Bp

open CString
open SimApi (Literal)

/-! ## Statistics -/

structure SimStats where
  flushNum : BitVec 32
  brNum : BitVec 32
  size : BitVec 32
deriving DecidableEq, Repr

/-- In `unsigned` arithmetic, as the members are. -/
def Btb.updateStats (btb : Btb) : SimStats :=
  let btbSize := BitVec.ofNat 32 btb.btbSize
  let historySize := BitVec.ofNat 32 btb.historySize
  let validBitSize := btbSize
  let tagBitSize := btbSize * BitVec.ofNat 32 btb.tagSize
  let targetBitSize := 30 * btbSize
  let historyBitSize := if btb.isGlobalHist then historySize else historySize * btbSize
  let tableSize : BitVec 32 := 2#32 <<< btb.historySize
  let tableBitSize := if btb.isGlobalTable then tableSize else tableSize * btbSize
  { flushNum := btb.flushCounter
    brNum := btb.updateCounter
    size := validBitSize + tagBitSize + targetBitSize + historyBitSize + tableBitSize }

/-! ## What is printed -/

inductive Report where
  | prediction (pc : BitVec 32) (taken : Bool) (dst : BitVec 32)
  | stats (s : SimStats)
deriving DecidableEq, Repr

/-- `%x` -/
def hexText (w : BitVec 32) : String := String.ofList (Nat.toDigits 16 w.toNat)

def Report.text : Report → String
  | .prediction pc taken dst =>
      "0x" ++ hexText pc ++ " " ++ (if taken then "T " else "N ") ++ "0x" ++ hexText dst ++ "\n"
  | .stats s =>
      "flush_num: " ++ toString s.flushNum.toInt ++ ", br_num: " ++ toString s.brNum.toInt ++
        ", size: " ++ toString s.size.toInt ++ "b\n"

/-- How the process ends. -/
inductive Exit where
  | success
  /-- With a message to `stderr`. -/
  | error (status : Nat) (message : String)
  /-- A field that the line does not have is read. -/
  | nullPointer
  | fault (fault : Fault)
deriving DecidableEq, Repr

/-! ## Lines -/

/-- The size that `fgets` is called with. -/
def lineSize : Nat := 256

/-- The loop over the fields after the first one. -/
def moreElements : Nat → List Char → List (Option (List Char))
  | 0, _ => []
  | n + 1, line =>
      (strtokAny [' ', '\n'] line).1 :: moreElements n (strtokAny [' ', '\n'] line).2

/-- The first `n + 1` fields of a line. -/
def elements (n : Nat) (line : List Char) : List (Option (List Char)) :=
  (strtokAny [' '] line).1 :: moreElements n (strtokAny [' '] line).2

def configError (status : Nat) : Exit :=
  .error status "Error in input file: cannot read config\n"

/-- The `int` that is made of the result of `strtoul`. -/
def readNumber : Option (List Char) → Except Exit (BitVec 32)
  | none => .error .nullPointer
  | some text => .ok (BitVec.ofNat 32 (strtoul text 0))

/-- The value of the first word that a field is equal to. -/
def readWord {α : Type} (otherwise : Exit) (words : List (List Char × α)) :
    Option (List Char) → Except Exit α
  | none => .error .nullPointer
  | some text =>
      match words.find? fun word => word.1 = text with
      | some word => .ok word.2
      | none => .error otherwise

def historyWords : List (List Char × Bool) :=
  [("local_history".toList, false), ("global_history".toList, true)]

def tableWords : List (List Char × Bool) :=
  [("local_tables".toList, false), ("global_tables".toList, true)]

def shareWords : List (List Char × Int) :=
  [("using_share_lsb".toList, 1), ("using_share_mid".toList, 2), ("not_using_share".toList, 0)]

/-- The configuration, and the initial state of the machines. -/
def readConfig (line : List Char) : Except Exit (Params × BitVec 32) :=
  match elements 6 line with
  | [elemnt0, elemnt1, elemnt2, elemnt3, elemnt4, elemnt5, elemnt6] => do
      let btbSize ← readNumber elemnt0
      let historySize ← readNumber elemnt1
      let tagSize ← readNumber elemnt2
      let fsmState ← readNumber elemnt3
      if btbSize = 0 ∨ historySize = 0 then .error (configError 4)
      else do
        let isGlobalHist ← readWord (configError 5) historyWords elemnt4
        let isGlobalTable ← readWord (configError 6) tableWords elemnt5
        let shared ← readWord (configError 7) shareWords elemnt6
        .ok ({ btbSize := btbSize.toNat
               historySize := historySize.toNat
               tagSize := tagSize.toNat
               isGlobalHist := isGlobalHist
               isGlobalTable := isGlobalTable
               shared := shared }, fsmState)
  | _ => .error .nullPointer

/-- The `uint32_t` that is made of the result of `strtol`. -/
def readAddress : Option (List Char) → Except Exit (BitVec 32)
  | none => .error .nullPointer
  | some text => .ok (BitVec.ofInt 32 (strtol text 0))

def takenWords : List (List Char × Bool) := [(['T'], true), (['N'], false)]

def readBranch (line : List Char) : Except Exit Branch :=
  match elements 2 line with
  | [elemnt0, elemnt1, elemnt2] => do
      let pc ← readAddress elemnt0
      let targetPc ← readAddress elemnt2
      let taken ← readWord (.error 9 "Error in input file: bad trace\n") takenWords elemnt1
      .ok ⟨pc, targetPc, taken⟩
  | _ => .error .nullPointer

/-! ## The program -/

/-- `BP_GetStats` and the last line. -/
def finish (btb : Btb) : List Report × Exit := ([.stats btb.updateStats], .success)

/-- The loop over the lines of the trace. -/
def runTrace (btb : Btb) : List (List Char) → List Report × Exit
  | [] => finish btb
  | line :: lines =>
      if line.head? = some '\n' then finish btb
      else
        match readBranch line with
        | .error exit => ([], exit)
        | .ok b =>
            match btb.predict b.pc with
            | .error fault => ([], .fault fault)
            | .ok (taken, dst) =>
                match btb.update b.pc b.targetPc b.taken dst with
                | .error fault => ([.prediction b.pc taken dst], .fault fault)
                | .ok btb =>
                    (.prediction b.pc taken dst :: (runTrace btb lines).1, (runTrace btb lines).2)

def runFile (unset : Unset) : List (List Char) → List Report × Exit
  | [] => ([], configError 3)
  | line :: lines =>
      match readConfig line with
      | .error exit => ([], exit)
      | .ok (params, fsmState) => runTrace (bpInit params fsmState unset) lines

def reports (files : List Char → Option (List Char)) (unset : Unset) :
    List (List Char) → List Report × Exit
  | _ :: file :: _ =>
      match files file with
      | none => ([], .error 2 "cannot open trace file\n")
      | some text => runFile unset (fgets lineSize text)
  | argv => ([], .error 1 ("Usage: " ++ String.ofList (argv.headD []) ++ " <trace filename>\n"))

def printedText (reports : List Report) : String := String.join (reports.map Report.text)

/-- What is printed, and how the process ends. -/
def main (files : List Char → Option (List Char)) (unset : Unset) (argv : List (List Char)) :
    String × Exit :=
  (printedText (reports files unset argv).1, (reports files unset argv).2)

/-! ## Fields and blanks -/

/-- Fields, each with the number of blanks before it. -/
def fieldsText (fields : List (Nat × List Char)) : List Char :=
  fields.flatMap fun field => List.replicate field.1 ' ' ++ field.2

/-- A field that no call of `strtok` cuts. -/
def IsField (field : List Char) : Prop := field ≠ [] ∧ ' ' ∉ field ∧ '\n' ∉ field

/-- Fields that are apart from the one before. -/
def Apart (fields : List (Nat × List Char)) : Prop := ∀ f ∈ fields, 1 ≤ f.1 ∧ IsField f.2

theorem fieldsText_cons (gap : Nat) (field : List Char) (fields : List (Nat × List Char))
    (rest : List Char) :
    fieldsText ((gap, field) :: fields) ++ rest =
      List.replicate gap ' ' ++ (field ++ (fieldsText fields ++ rest)) := by
  simp only [fieldsText, List.flatMap_cons, List.append_assoc]

/-- The call of `strtok` for a field leaves the others. -/
theorem strtokAny_fields {delims : List Char} (hblank : ' ' ∈ delims)
    (hdelims : ∀ c ∈ delims, c = ' ' ∨ c = '\n') (gap : Nat) {field : List Char}
    (hfield : IsField field) {text : List Char} (htext : ∀ c ∈ text.head?, c ∈ delims) :
    strtokAny delims (List.replicate gap ' ' ++ (field ++ text)) = (some field, text.tail) := by
  obtain ⟨hne, hspace, hnewline⟩ := hfield
  refine strtokAny_field (fun c hc => ?_) hne (fun c hc hmem => ?_) htext
  · rwa [List.eq_of_mem_replicate hc]
  · rcases hdelims c hmem with rfl | rfl
    · exact hspace hc
    · exact hnewline hc

/-- A blank is in front of the fields that are left. -/
theorem Apart.tail {gap : Nat} {field : List Char} {fields : List (Nat × List Char)}
    (h : Apart ((gap, field) :: fields)) (rest : List Char) :
    (∀ c ∈ (fieldsText ((gap, field) :: fields) ++ rest).head?, c = ' ') ∧
      (fieldsText ((gap, field) :: fields) ++ rest).tail =
        fieldsText ((gap - 1, field) :: fields) ++ rest := by
  obtain ⟨hgap, -⟩ := h _ (List.mem_cons_self ..)
  obtain ⟨k, rfl⟩ := Nat.exists_eq_add_of_le hgap
  rw [fieldsText_cons, fieldsText_cons, Nat.add_comm 1 k, List.replicate_succ,
    Nat.add_sub_cancel]
  exact ⟨fun c hc => (Option.some.inj hc).symm, rfl⟩

theorem moreElements_fields {rest : List Char} (hrest : ∀ c ∈ rest.head?, c = ' ' ∨ c = '\n')
    {fields : List (Nat × List Char)} :
    ∀ {gap : Nat} {field : List Char}, IsField field → Apart fields →
      moreElements (fields.length + 1) (fieldsText ((gap, field) :: fields) ++ rest) =
        some field :: fields.map fun f => some f.2 := by
  have hdelims : ∀ c ∈ [' ', '\n'], c = ' ' ∨ c = '\n' := fun c hc => by
    simpa only [List.mem_cons, List.not_mem_nil, or_false] using hc
  induction fields with
  | nil =>
      intro gap field hfield _
      rw [fieldsText_cons, List.length_nil, moreElements,
        strtokAny_fields (List.mem_cons_self ..) hdelims gap hfield fun c hc => ?_]
      · rfl
      · simpa only [List.mem_cons, List.not_mem_nil, or_false] using hrest c hc
  | cons next fields ih =>
      intro gap field hfield hapart
      obtain ⟨hhead, htail⟩ := hapart.tail rest
      obtain ⟨hnext, hfields⟩ := List.forall_mem_cons.mp hapart
      rw [fieldsText_cons, List.length_cons, moreElements,
        strtokAny_fields (List.mem_cons_self ..) hdelims gap hfield fun c hc => ?_]
      · simp only [htail]
        rw [ih hnext.2 hfields]
        rfl
      · rw [hhead c hc]
        exact List.mem_cons_self ..

/-- The fields of a line of at least two. -/
theorem elements_fields {rest : List Char} (hrest : ∀ c ∈ rest.head?, c = ' ' ∨ c = '\n')
    (gap : Nat) {field : List Char} {next : Nat × List Char} {fields : List (Nat × List Char)}
    (hfield : IsField field) (hapart : Apart (next :: fields)) :
    elements (fields.length + 1) (fieldsText ((gap, field) :: next :: fields) ++ rest) =
      some field :: some next.2 :: fields.map fun f => some f.2 := by
  have hdelims : ∀ c ∈ [' '], c = ' ' ∨ c = '\n' := fun c hc =>
    Or.inl (List.mem_singleton.mp hc)
  obtain ⟨hhead, htail⟩ := hapart.tail rest
  obtain ⟨hnext, hfields⟩ := List.forall_mem_cons.mp hapart
  rw [fieldsText_cons, elements,
    strtokAny_fields (List.mem_cons_self ..) hdelims gap hfield fun c hc => ?_]
  · simp only [htail]
    rw [moreElements_fields hrest hnext.2 hfields]
  · rw [hhead c hc]
    exact List.mem_cons_self ..

theorem isField_literal (l : Literal) : IsField l.text :=
  ⟨l.text_ne_nil, l.not_mem rfl, l.not_mem rfl⟩

/-! ## The documented format -/

/-- The numbers of the enumeration `ShareStatus`. -/
inductive ShareStatus where
  | notUsingShare
  | usingShareLsb
  | usingShareMid
deriving DecidableEq, Repr

namespace ShareStatus

def text : ShareStatus → List Char
  | notUsingShare => "not_using_share".toList
  | usingShareLsb => "using_share_lsb".toList
  | usingShareMid => "using_share_mid".toList

def value : ShareStatus → Int
  | notUsingShare => 0
  | usingShareLsb => 1
  | usingShareMid => 2

end ShareStatus

/-- The first line, with the number of blanks around its fields. -/
structure ConfigLine where
  lead : Nat
  btbSize : Literal
  gap₁ : Nat
  historySize : Literal
  gap₂ : Nat
  tagSize : Literal
  gap₃ : Nat
  fsmState : Literal
  gap₄ : Nat
  isGlobalHist : Bool
  gap₅ : Nat
  isGlobalTable : Bool
  gap₆ : Nat
  shared : ShareStatus
  trail : Nat

def historyText (isGlobalHist : Bool) : List Char :=
  if isGlobalHist then "global_history".toList else "local_history".toList

def tableText (isGlobalTable : Bool) : List Char :=
  if isGlobalTable then "global_tables".toList else "local_tables".toList

namespace ConfigLine

def text (c : ConfigLine) : List Char :=
  fieldsText [(c.lead, c.btbSize.text), (c.gap₁ + 1, c.historySize.text),
    (c.gap₂ + 1, c.tagSize.text), (c.gap₃ + 1, c.fsmState.text),
    (c.gap₄ + 1, historyText c.isGlobalHist), (c.gap₅ + 1, tableText c.isGlobalTable),
    (c.gap₆ + 1, c.shared.text)] ++ List.replicate c.trail ' '

def params (c : ConfigLine) : Params where
  btbSize := c.btbSize.value.toNat
  historySize := c.historySize.value.toNat
  tagSize := c.tagSize.value.toNat
  isGlobalHist := c.isGlobalHist
  isGlobalTable := c.isGlobalTable
  shared := c.shared.value

end ConfigLine

/-- A branch as it is written. -/
structure TraceLine where
  lead : Nat
  pc : Literal
  gap₁ : Nat
  taken : Bool
  gap₂ : Nat
  targetPc : Literal
  trail : Nat

namespace TraceLine

def text (t : TraceLine) : List Char :=
  fieldsText [(t.lead, t.pc.text), (t.gap₁ + 1, if t.taken then ['T'] else ['N']),
    (t.gap₂ + 1, t.targetPc.text)] ++ List.replicate t.trail ' '

def branch (t : TraceLine) : Branch := ⟨t.pc.value, t.targetPc.value, t.taken⟩

end TraceLine

/-! ## Reading the lines -/

theorem readNumber_literal (l : Literal) : readNumber (some l.text) = .ok l.value := by
  have hblank : ∀ c ∈ ([] : List Char), isspace c = true := fun _ h => absurd h List.not_mem_nil
  refine congrArg Except.ok ?_
  cases l with
  | dec negative n plain lt =>
      have hmag := n.magnitude_auto plain (Ends.nil 10) fun _ h => nomatch h
      rw [List.append_nil] at hmag
      have hlt : magnitude n.text 0 < 2 ^ 63 := lt_of_eq_of_lt hmag (by omega)
      cases negative with
      | true =>
          have hval : strtoul ('-' :: n.text) 0 = (2 ^ 64 - magnitude n.text 0) % 2 ^ 64 :=
            strtoul_negative hblank hlt
          rw [Literal.text, hval, hmag, Literal.value, ← BitVec.toNat_inj, BitVec.toNat_ofNat,
            BitVec.toNat_neg, BitVec.toNat_ofNat]
          omega
      | false =>
          have hhead := n.head_append []
          rw [List.append_nil] at hhead
          have hval : strtoul n.text 0 = magnitude n.text 0 := strtoul_unsigned hblank hhead hlt
          rw [Literal.text, hval, hmag]
          rfl
  | hex n lt =>
      have hmag := n.magnitude_hex (Ends.nil 16)
      rw [List.append_nil] at hmag
      have hval : strtoul ('0' :: 'x' :: n.text) 0 = magnitude ('0' :: 'x' :: n.text) 0 :=
        strtoul_unsigned hblank (fun c hc => by cases hc; decide)
          (lt_of_eq_of_lt hmag (by omega))
      rw [Literal.text, hval, hmag]
      rfl

theorem readAddress_literal (l : Literal) : readAddress (some l.text) = .ok l.value := by
  have hparted : SimApi.Parted [] := fun _ h => nomatch h
  have hval := l.strtol_eq hparted
  rw [List.append_nil] at hval
  rw [readAddress, hval]

/-- What may follow the fields: blanks, and the newline. -/
theorem mem_trail {trail : Nat} {eol : List Char} (heol : ∀ c ∈ eol, c = '\n') :
    ∀ c ∈ List.replicate trail ' ' ++ eol, c = ' ' ∨ c = '\n' :=
  List.forall_mem_append.mpr
    ⟨fun _ hc => Or.inl (List.eq_of_mem_replicate hc), fun c hc => Or.inr (heol c hc)⟩

theorem head_trail {trail : Nat} {eol : List Char} (heol : ∀ c ∈ eol, c = '\n') :
    ∀ c ∈ (List.replicate trail ' ' ++ eol).head?, c = ' ' ∨ c = '\n' := fun c hc =>
  mem_trail heol c (List.mem_of_mem_head? hc)

theorem newline_not_mem_fieldsText {fields : List (Nat × List Char)}
    (h : ∀ f ∈ fields, '\n' ∉ f.2) (trail : Nat) :
    '\n' ∉ fieldsText fields ++ List.replicate trail ' ' := by
  have hblank : ∀ n, '\n' ∉ List.replicate n ' ' := fun n hmem => by
    cases List.eq_of_mem_replicate hmem
  rw [List.mem_append, fieldsText, List.mem_flatMap]
  rintro (⟨f, hf, hmem⟩ | hmem)
  · exact (List.mem_append.mp hmem).elim (hblank f.1) (h f hf)
  · exact hblank trail hmem

namespace ConfigLine

theorem isField_words (c : ConfigLine) :
    IsField (historyText c.isGlobalHist) ∧ IsField (tableText c.isGlobalTable) ∧
      IsField c.shared.text := by
  refine ⟨?_, ?_, ?_⟩
  · cases c.isGlobalHist <;> exact ⟨by decide, by decide, by decide⟩
  · cases c.isGlobalTable <;> exact ⟨by decide, by decide, by decide⟩
  · cases c.shared <;> exact ⟨by decide, by decide, by decide⟩

theorem newline_not_mem (c : ConfigLine) : '\n' ∉ c.text := by
  obtain ⟨hhist, htable, hshared⟩ := c.isField_words
  refine newline_not_mem_fieldsText ?_ c.trail
  simp only [List.forall_mem_cons, (isField_literal _).2.2, hhist.2.2, htable.2.2, hshared.2.2,
    not_false_eq_true, List.not_mem_nil, false_implies, implies_true, and_self]

theorem elements_text (c : ConfigLine) {eol : List Char} (heol : ∀ d ∈ eol, d = '\n') :
    elements 6 (c.text ++ eol) = [some c.btbSize.text, some c.historySize.text,
      some c.tagSize.text, some c.fsmState.text, some (historyText c.isGlobalHist),
      some (tableText c.isGlobalTable), some c.shared.text] := by
  obtain ⟨hhist, htable, hshared⟩ := c.isField_words
  have hapart : Apart [(c.gap₁ + 1, c.historySize.text), (c.gap₂ + 1, c.tagSize.text),
      (c.gap₃ + 1, c.fsmState.text), (c.gap₄ + 1, historyText c.isGlobalHist),
      (c.gap₅ + 1, tableText c.isGlobalTable), (c.gap₆ + 1, c.shared.text)] := by
    simp only [Apart, List.forall_mem_cons, Nat.le_add_left, isField_literal, hhist, htable,
      hshared, List.not_mem_nil, false_implies, implies_true, and_self]
  rw [ConfigLine.text, List.append_assoc]
  exact elements_fields (head_trail heol) c.lead (isField_literal c.btbSize) hapart

theorem readConfig_text (c : ConfigLine) (hp : c.params.Valid) {eol : List Char}
    (heol : ∀ d ∈ eol, d = '\n') :
    readConfig (c.text ++ eol) = .ok (c.params, c.fsmState.value) := by
  have hhist : readWord (configError 5) historyWords (some (historyText c.isGlobalHist)) =
      .ok c.isGlobalHist := by
    cases c.isGlobalHist <;> rfl
  have htable : readWord (configError 6) tableWords (some (tableText c.isGlobalTable)) =
      .ok c.isGlobalTable := by
    cases c.isGlobalTable <;> rfl
  have hshared : readWord (configError 7) shareWords (some c.shared.text) =
      .ok c.shared.value := by
    cases c.shared <;> rfl
  have hnonzero : ¬(c.btbSize.value = 0 ∨ c.historySize.value = 0) := by
    have hbtb : 1 ≤ c.btbSize.value.toNat := hp.btbSize_pos
    have hhistory : 1 ≤ c.historySize.value.toNat := hp.historySize_pos
    rintro (h | h)
    · rw [h] at hbtb
      cases hbtb
    · rw [h] at hhistory
      cases hhistory
  rw [readConfig, c.elements_text heol]
  simp only [readNumber_literal, bind, Except.bind, if_neg hnonzero, hhist, htable, hshared]
  rfl

end ConfigLine

namespace TraceLine

theorem elements_text (t : TraceLine) {eol : List Char} (heol : ∀ d ∈ eol, d = '\n') :
    elements 2 (t.text ++ eol) = [some t.pc.text, some (if t.taken then ['T'] else ['N']),
      some t.targetPc.text] := by
  have htaken : IsField (if t.taken then ['T'] else ['N']) := by
    cases t.taken <;> exact ⟨by decide, by decide, by decide⟩
  have hapart : Apart [(t.gap₁ + 1, if t.taken then ['T'] else ['N']),
      (t.gap₂ + 1, t.targetPc.text)] := by
    simp only [Apart, List.forall_mem_cons, Nat.le_add_left, isField_literal, htaken,
      List.not_mem_nil, false_implies, implies_true, and_self]
  rw [TraceLine.text, List.append_assoc]
  exact elements_fields (head_trail heol) t.lead (isField_literal t.pc) hapart

theorem readBranch_text (t : TraceLine) {eol : List Char} (heol : ∀ d ∈ eol, d = '\n') :
    readBranch (t.text ++ eol) = .ok t.branch := by
  have htaken : readWord (.error 9 "Error in input file: bad trace\n") takenWords
      (some (if t.taken then ['T'] else ['N'])) = .ok t.taken := by
    cases t.taken <;> rfl
  rw [readBranch, t.elements_text heol]
  simp only [readAddress_literal, bind, Except.bind, htaken]
  rfl

theorem newline_not_mem (t : TraceLine) : '\n' ∉ t.text := by
  refine newline_not_mem_fieldsText ?_ t.trail
  have htaken : '\n' ∉ if t.taken then ['T'] else ['N'] := by
    cases t.taken <;> decide
  simp only [List.forall_mem_cons, (isField_literal _).2.2, htaken, not_false_eq_true,
    List.not_mem_nil, false_implies, implies_true, and_self]

/-- The line does not end the trace. -/
theorem head_text (t : TraceLine) (eol : List Char) : (t.text ++ eol).head? ≠ some '\n' := by
  rw [TraceLine.text, List.append_assoc, fieldsText_cons]
  cases t.lead with
  | zero =>
      obtain ⟨c, rest, htext, hc⟩ := t.pc.exists_head
      rw [htext]
      intro h
      obtain rfl : c = '\n' := Option.some.inj h
      rcases hc with hc | hc <;> cases hc
  | succ k =>
      intro h
      cases h

end TraceLine

/-! ## Counters -/

/-- Where the branch goes. -/
def Branch.nextPc (b : Branch) : BitVec 32 := if b.taken then b.targetPc else b.pc + 4

/-- The predicted destination is wrong, and the pipeline flushed. -/
def flushes (step : Branch × Bool × BitVec 32) : Bool := step.2.2 ≠ step.1.nextPc

theorem mispredicted_eq (b : Branch) (prediction : Bool × BitVec 32) :
    Btb.mispredicted b.pc b.targetPc b.taken prediction.2 = flushes (b, prediction) := by
  cases hb : b.taken <;> simp [Btb.mispredicted, flushes, Branch.nextPc, hb, eq_comm]

/-- `update` counts its branch, and never changes the sizes. -/
theorem update_counts {btb btb' : Btb} {b : Branch} {prediction : Bool × BitVec 32}
    (h : btb.update b.pc b.targetPc b.taken prediction.2 = .ok btb') :
    btb'.toParams = btb.toParams ∧ btb'.updateCounter = btb.updateCounter + 1 ∧
      btb'.flushCounter =
        btb.flushCounter + BitVec.ofNat 32 (if flushes (b, prediction) then 1 else 0) := by
  obtain ⟨entry, -, h⟩ := bind_eq_ok.mp h
  obtain ⟨globalTable, -, h⟩ := bind_eq_ok.mp h
  obtain ⟨localTable, -, h⟩ := bind_eq_ok.mp h
  obtain rfl := Except.ok.inj h
  refine ⟨rfl, rfl, ?_⟩
  simp only [mispredicted_eq]
  split
  · rfl
  · exact (BitVec.add_zero _).symm

/-- The statistics of a run. -/
theorem mainLoop_counts {branches : List Branch} :
    ∀ {btb btb' : Btb} {printed : List (Bool × BitVec 32)},
      mainLoop btb branches = .ok (printed, btb') →
      btb'.toParams = btb.toParams ∧
      btb'.updateCounter = btb.updateCounter + BitVec.ofNat 32 branches.length ∧
      btb'.flushCounter =
        btb.flushCounter + BitVec.ofNat 32 ((branches.zip printed).countP flushes) := by
  induction branches with
  | nil =>
      intro btb btb' printed h
      cases h
      exact ⟨rfl, (BitVec.add_zero _).symm, (BitVec.add_zero _).symm⟩
  | cons b branches ih =>
      intro btb btb' printed h
      obtain ⟨prediction, -, h⟩ := bind_eq_ok.mp h
      obtain ⟨btb₁, hupdate, h⟩ := bind_eq_ok.mp h
      obtain ⟨rest, hrest, h⟩ := bind_eq_ok.mp h
      obtain ⟨rfl, rfl⟩ := Prod.mk.inj (Except.ok.inj h)
      obtain ⟨hparams₁, hbr₁, hflush₁⟩ := update_counts hupdate
      obtain ⟨hparams, hbr, hflush⟩ := ih hrest
      refine ⟨hparams.trans hparams₁, ?_, ?_⟩
      · rw [hbr, hbr₁, List.length_cons, Nat.add_comm, BitVec.ofNat_add, BitVec.add_assoc]
        rfl
      · rw [hflush, hflush₁, List.zip_cons_cons, List.countP_cons, Nat.add_comm, BitVec.ofNat_add,
          BitVec.add_assoc]

/-- The bits of the valid flags, tags, targets, histories and tables. -/
def Params.size (p : Params) : Nat :=
  p.btbSize + p.btbSize * p.tagSize + 30 * p.btbSize +
    (if p.isGlobalHist then p.historySize else p.historySize * p.btbSize) +
    (if p.isGlobalTable then 2 ^ (p.historySize + 1) else 2 ^ (p.historySize + 1) * p.btbSize)

theorem updateStats_size (btb : Btb) :
    btb.updateStats.size = BitVec.ofNat 32 btb.toParams.size := by
  have htable : 2#32 <<< btb.historySize = BitVec.ofNat 32 (2 ^ (btb.historySize + 1)) := by
    rw [← BitVec.toNat_inj, BitVec.toNat_shiftLeft, BitVec.toNat_ofNat, BitVec.toNat_ofNat,
      Nat.shiftLeft_eq, Nat.pow_succ, Nat.mul_comm]
    rfl
  simp only [Btb.updateStats, Params.size, htable, BitVec.ofNat_add, BitVec.ofNat_mul,
    apply_ite (BitVec.ofNat 32)]
  rfl

/-! ## The run -/

/-- The loop over the lines of a trace up to its end, an empty line or the end
of the file. -/
theorem runTrace_text {lines : List TraceLine} (hlen : ∀ t ∈ lines, t.text.length ≤ 254) :
    ∀ {rest : List (List Char)} {file : List Char} {btb btb' : Btb}
      {printed : List (Bool × BitVec 32)}, IsText (lines.map TraceLine.text ++ rest) file →
      (∀ line ∈ rest.head?, line = []) →
      mainLoop btb (lines.map TraceLine.branch) = .ok (printed, btb') →
      runTrace btb (fgets lineSize file) =
        (List.zipWith (fun b prediction => .prediction b.pc prediction.1 prediction.2)
          (lines.map TraceLine.branch) printed ++ [.stats btb'.updateStats], .success) := by
  induction lines with
  | nil =>
      intro rest file btb btb' printed htext hrest hrun
      cases hrun
      rw [List.map_nil, List.nil_append] at htext
      cases htext with
      | nil => rfl
      | last hne => exact absurd (hrest _ rfl) hne
      | cons htext =>
          rw [hrest _ rfl]
          rfl
  | cons t lines ih =>
      intro rest file btb btb' printed htext hrest hrun
      obtain ⟨ht, hlines⟩ := List.forall_mem_cons.mp hlen
      obtain ⟨⟨taken, dst⟩, hpredict, hrun⟩ := bind_eq_ok.mp hrun
      obtain ⟨btb₁, hupdate, hrun⟩ := bind_eq_ok.mp hrun
      obtain ⟨⟨printed, btb₂⟩, hloop, hrun⟩ := bind_eq_ok.mp hrun
      obtain ⟨rfl, rfl⟩ := Prod.mk.inj (Except.ok.inj hrun)
      obtain ⟨eol, rest', heol, hpieces, htext'⟩ := IsText.fgets_cons htext t.newline_not_mem
        (show t.text.length + 1 < lineSize by simp only [lineSize]; omega)
      rw [hpieces, runTrace, if_neg (t.head_text eol), t.readBranch_text heol]
      simp only [hpredict, hupdate, ih hlines htext' hrest hloop]
      rfl

/-- Without global histories the register of the global one is not read. -/
theorem predictionOf_of_local_history {p : Params} (hhist : p.isGlobalHist = false)
    (glob glob' : List Bool → Nat) (takes : List Bool → Bool) (past : List Branch)
    (pc : BitVec 32) : predictionOf p glob takes past pc = predictionOf p glob' takes past pc := by
  have hhistory : historyOf p glob = historyOf p glob' := by
    funext past pc
    unfold historyOf
    rw [hhist]
    rfl
  have hcell : cellOutcomes p glob past pc = cellOutcomes p glob' past pc := by
    unfold cellOutcomes globalOutcomes localOutcomes globalCell
    rw [hhistory]
  rw [predictionOf, predictionOf, hcell]

/-- The predictions of `main` are those of the specification. -/
theorem mainLoop_twoBit {p : Params} (hp : p.Valid) {fsmState : BitVec 32} (hfsm : fsmState ≤ 3)
    {unset : Unset} (hunset : p.isGlobalHist = true → unset.globalHistory = 0)
    (branches : List Branch) :
    ∃ btb, mainLoop (bpInit p fsmState unset) branches =
      .ok (predictions (twoBitPrediction p fsmState.toNat) [] branches, btb) := by
  have hzero : p.isGlobalHist = true → unset.globalHistory.toNat = 0 := fun h => by
    rw [hunset h]
    rfl
  obtain ⟨btb, hrun⟩ := mainLoop_refines hp branches (refines_bpInit p fsmState unset) fun h => by
    rw [hzero h]
    exact Nat.two_pow_pos p.historySize
  have hsame : (predictionOf p (globFrom p unset.globalHistory.toNat) fun bits =>
      predictsTaken (replay BimodalState.update fsmState.toInt bits)) =
      twoBitPrediction p fsmState.toNat := by
    funext past pc
    simp only [predictsTaken_replay hfsm, twoBitPrediction]
    cases hhist : p.isGlobalHist with
    | false => exact predictionOf_of_local_history hhist _ _ _ _ _
    | true =>
        have hglob : globFrom p 0 = lastBits p.historySize :=
          funext (replay_shiftIn p.historySize)
        rw [hzero hhist, hglob]
  exact ⟨btb, hsame ▸ hrun⟩

/-- On a trace of the documented format `main` prints for each branch up to
the first empty line what a two-bit predictor says after the branches before
it, and at last how many branches there were and how many of the predicted
destinations were not where the branch went. -/
theorem main_predicts (c : ConfigLine) (lines : List TraceLine) (hp : c.params.Valid)
    (hfsm : c.fsmState.value ≤ 3) {unset : Unset}
    (hunset : c.isGlobalHist = true → unset.globalHistory = 0)
    (hconfig : c.text.length ≤ 254) (hlines : ∀ t ∈ lines, t.text.length ≤ 254)
    {rest : List (List Char)} (hrest : ∀ line ∈ rest.head?, line = []) {text : List Char}
    (htext : IsText (c.text :: (lines.map TraceLine.text ++ rest)) text)
    {files : List Char → Option (List Char)} {file : List Char} (hfile : files file = some text)
    (name : List Char) (args : List (List Char)) :
    ∃ answers : List (Bool × BitVec 32), answers.length = lines.length ∧
      (∀ i (hi : i < lines.length), answers[i]? = some (twoBitPrediction c.params
        c.fsmState.value.toNat ((lines.take i).map TraceLine.branch).reverse
        lines[i].branch.pc)) ∧
      main files unset (name :: file :: args) =
        (printedText (List.zipWith
          (fun b answer => Report.prediction b.pc answer.1 answer.2)
          (lines.map TraceLine.branch) answers ++
          [.stats {
            flushNum := BitVec.ofNat 32
              (((lines.map TraceLine.branch).zip answers).countP flushes)
            brNum := BitVec.ofNat 32 lines.length
            size := BitVec.ofNat 32 c.params.size }]), .success) := by
  obtain ⟨btb, hrun⟩ := mainLoop_twoBit hp hfsm hunset (lines.map TraceLine.branch)
  obtain ⟨eol, text', heol, hpieces, htext'⟩ := htext.fgets_cons c.newline_not_mem
    (show c.text.length + 1 < lineSize by simp only [lineSize]; omega)
  obtain ⟨hparams, hbr, hflush⟩ := mainLoop_counts hrun
  have hzero : ∀ k, (0 : BitVec 32) + BitVec.ofNat 32 k = BitVec.ofNat 32 k := fun _ =>
    BitVec.zero_add _
  refine ⟨predictions (twoBitPrediction c.params c.fsmState.value.toNat) []
    (lines.map TraceLine.branch), (length_predictions _ _ _).trans (List.length_map _),
    fun i hi => ?_, ?_⟩
  · rw [getElem?_predictions _ _ _ (by rwa [List.length_map]), List.append_nil, List.map_take,
      List.getElem_map]
  · have hstats : btb.updateStats =
        { flushNum := btb.flushCounter
          brNum := btb.updateCounter
          size := btb.updateStats.size } := rfl
    have hall := runTrace_text hlines htext' hrest hrun
    rw [hstats, updateStats_size, hparams, hbr, hflush, List.length_map] at hall
    rw [main, reports, hfile]
    simp only [hpieces, runFile, c.readConfig_text hp heol, hall]
    simp only [bpInit, hzero]

theorem plain_ofDec (d : Nat) : (Numeral.ofDec d).Plain :=
  fun hzero => congrArg (fun c => [c]) (Option.some.inj hzero)

theorem ofDec_lt (d : Nat) : (Numeral.ofDec d).value < 2 ^ 32 := by
  have hlt := digit_lt (Numeral.isDigit_decChar d)
  rw [Numeral.ofDec, Numeral.value_ofDigit]
  omega

/-- A number of one digit. -/
def digit (d : Nat) : Literal := .dec false (.ofDec d) (plain_ofDec d) (ofDec_lt d)

/-- `1 1 0 1 global_history global_tables not_using_share` -/
def smallConfig : ConfigLine where
  lead := 0
  btbSize := digit 1
  gap₁ := 0
  historySize := digit 1
  gap₂ := 0
  tagSize := digit 0
  gap₃ := 0
  fsmState := digit 1
  gap₄ := 0
  isGlobalHist := true
  gap₅ := 0
  isGlobalTable := true
  gap₆ := 0
  shared := .notUsingShare
  trail := 0

/-- `4 T 8` -/
def smallTrace : List TraceLine := [⟨0, digit 4, 0, true, 0, digit 8, 0⟩]

theorem main_predicts_smallConfig :
    ∃ answers : List (Bool × BitVec 32), answers.length = smallTrace.length ∧
      (∀ i (hi : i < smallTrace.length), answers[i]? = some (twoBitPrediction smallConfig.params
        smallConfig.fsmState.value.toNat ((smallTrace.take i).map TraceLine.branch).reverse
        smallTrace[i].branch.pc)) ∧
      main (fun _ => some ((smallConfig.text :: (smallTrace.map TraceLine.text ++ [])).flatMap
          fun line => line ++ ['\n'])) { staleUnset with globalHistory := 0 } [[], ['t']] =
        (printedText (List.zipWith
          (fun b answer => Report.prediction b.pc answer.1 answer.2)
          (smallTrace.map TraceLine.branch) answers ++
          [.stats {
            flushNum := BitVec.ofNat 32
              (((smallTrace.map TraceLine.branch).zip answers).countP flushes)
            brNum := BitVec.ofNat 32 smallTrace.length
            size := BitVec.ofNat 32 smallConfig.params.size }]), .success) :=
  main_predicts smallConfig smallTrace ⟨by decide, by decide, by decide, by decide, by decide⟩
    (by decide) (fun _ => rfl) (by decide) (by decide)
    (show ∀ line ∈ ([] : List (List Char)).head?, line = [] from fun _ h => nomatch h)
    (isText_flatMap _) rfl [] []

end Bp

end ArchSim
