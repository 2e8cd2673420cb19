import ArchSim.MtSerial
import ArchSim.SimData

/-!
# The multithreading simulator

`main` of `HW4/main.c`: it loads an image, runs both cores on it and prints
the registers of the threads and the cycles per instruction. From the text
of the image to what is printed, that is two runs of its threads one after
the other.
-/

namespace ArchSim

namespace SimApi

open CString MtCore

/-! ## The image that a text describes -/

/-- A record that nothing has been read into. -/
def noInstruction : Instruction := ⟨.nop, 0, 0, 0, false⟩

/-- Instruction `k` of thread `t`. -/
def instructionAt (items : List Item) (t k : Nat) : Instruction :=
  match (codes none items).lookup (some t) with
  | some c => (c.lines[k]?.map fun l => l.line.read noInstruction).getD noInstruction
  | none => noInstruction

/-- Without a data block the array is at address 0, and what no word is given
for is 0. -/
def ImageText.image (img : ImageText) : Image where
  threadnumber := img.threads.number.value
  loadLatency := (setting 'L' img.config 0).toNat
  storeLatency := (setting 'S' img.config 0).toNat
  switchCycles := (setting 'O' img.config 0).toNat
  instructions := instructionAt img.items
  dataStart := ((datas img.items).head?.map fun d => d.address.value).getD 0
  data := fun k => (((datas img.items).head?.bind fun d => d.words[k]?).map Word.value).getD 0

/-! ## Loading -/

variable {heap : Nat → Nat → Instruction}

/-- A text whose segments are separated is loaded as the image that it
describes, except where it says nothing about the instructions. -/
theorem simMemReset_image (img : ImageText) {text : List Char} (htext : IsText img.lines text)
    (hformat : Format img.threads.number.value none img.items) (hquiet : img.Quiet)
    (hsep : Separated img.items) (heap : Nat → Nat → Instruction) :
    ∃ s, simMemReset heap (some text) initial = .ok (0, s) ∧ Loaded heap img.items s ∧
      s.threadnumber = BitVec.ofNat 32 img.threads.number.value ∧
      s.image = img.image.withInstructions s.instructions := by
  obtain ⟨l, hl, hcodes, hdatas⟩ := exists_stored img.items .look hformat.hasRoom hsep
  obtain ⟨s, hreset, hnum, rfl, hset, hstart, hdata⟩ :=
    simMemReset_reads htext hquiet heap initial
  rw [ImageText.loadings, hl] at hreset
  obtain ⟨hset', hnum'⟩ := loadAll_settings l s
  rw [hset] at hset'
  rw [hnum] at hnum'
  obtain ⟨hstart', hwords⟩ := loadAll_data_of_stored hformat hdatas s
  refine ⟨loadAll l s, toOption_eq_some.mp hreset, loaded_of_stored hformat hcodes hdatas s,
    hnum', ?_⟩
  have hnat : (loadAll l s).threadnumber.toNat = img.threads.number.value := by
    rw [hnum', BitVec.toNat_ofNat, Nat.mod_eq_of_lt (Nat.lt_trans img.threads.lt (by decide))]
  have hload : (loadAll l s).loadLatency = setting 'L' img.config 0 := congrArg Settings.load hset'
  have hstore : (loadAll l s).storeLatency = setting 'S' img.config 0 :=
    congrArg Settings.store hset'
  have hswitch : (loadAll l s).switchCycles = setting 'O' img.config 0 :=
    congrArg Settings.switch hset'
  have haddr : (loadAll l s).dataStart = img.image.dataStart := by
    rw [hstart', hstart]
    rfl
  have hzero : (loadAll l s).data = img.image.data := by
    funext k
    show _ = (((datas img.items).head?.bind fun d => d.words[k]?).map Word.value).getD 0
    rcases hwords k with hword | ⟨hnone, hkept | hzero⟩
    · rw [hword]
      rfl
    · rw [hnone, hkept, hdata]
      rfl
    · rw [hnone, hzero]
      rfl
  rw [MemSim.image, hnat, hload, hstore, hswitch, haddr, hzero]
  rfl

/-- What is read into a record is the same whatever it held before. -/
theorem Line.read_same (l : Line) (i j : Instruction) : (l.read i).Same (l.read j) := by
  cases l with
  | nop trail => exact Or.inr ⟨rfl, rfl⟩
  | operands opc hopc dst gap₁ src1 gap₂ src2 trail => exact Or.inl rfl
  | halt dst trail => exact Or.inl rfl

/-- The text says everything about the instructions up to a HALT. -/
theorem code_of_loaded {img : ImageText} {h : Nat → Nat} (hh : img.image.HaltsAt h) {s : MemSim}
    (hloaded : Loaded heap img.items s) : img.image.Code h s.instructions := by
  intro t ht k hk
  have hhalt : (instructionAt img.items t (h t)).opcode = .halt := (hh t ht).1
  show (instructionAt img.items t k).Same _
  unfold instructionAt at hhalt ⊢
  cases hc : (codes none img.items).lookup (some t) with
  | none =>
      rw [hc] at hhalt
      cases hhalt
  | some c =>
      rw [hc] at hhalt
      dsimp only at hhalt ⊢
      have hlt : h t < c.lines.length := by
        by_contra hge
        rw [List.getElem?_eq_none (Nat.le_of_not_lt hge)] at hhalt
        cases hhalt
      have hline := List.getElem?_eq_getElem (Nat.lt_of_le_of_lt hk hlt)
      have hmem : (some t, c) ∈ codes none img.items := by
        obtain ⟨before, after, heq, -⟩ := List.lookup_eq_some_iff.mp hc
        rw [heq]
        exact List.mem_append_right _ (List.mem_cons_self ..)
      rw [hloaded.code t c hmem k _ hline, hline]
      exact (c.lines[k].line).read_same _ _

/-! ## `main` -/

/-- What is printed of one simulation: the text up to the CPI, and the two
numbers of which the CPI is the quotient. -/
structure Printed where
  text : List Char
  cycles : Nat
  insts : Nat

inductive Exit where
  /-- `exit(2)` after a message. -/
  | failed (message : List Char)
  /-- `SIM_MemReset` does something that is undefined. -/
  | fault (f : Fault)
  /-- A core accesses a register or a word that does not exist. -/
  | outOfBounds
  /-- The cores have not stopped yet. -/
  | running

/-- `%d` of a number that is not negative. -/
def decimal (n : Nat) : List Char := Nat.toDigits 10 n

/-- `%X` of an `int`. -/
def hexUpper (v : BitVec 32) : List Char := (Nat.toDigits 16 v.toNat).map Char.toUpper

def printRegisters (threads : Nat) (context : Nat → Tcontext) : List Char :=
  (List.range threads).flatMap fun k =>
    "\nRegister file thread id ".toList ++ decimal k ++ ":\n".toList ++
      (List.range regsCount).flatMap fun i =>
        "\tR".toList ++ decimal i ++ " = 0x".toList ++ hexUpper (context k i)

def printBlocked (threads : Nat) (blocked : Nat → Tcontext) : List Char :=
  "\n---- Blocked MT Simulation ----\n".toList ++ printRegisters threads blocked ++
    "\nBlocked MT CPI for this program ".toList

def printFinegrained (threads : Nat) (finegrained : Nat → Tcontext) : List Char :=
  "\n-----Finegrained MT Simulation -----\n".toList ++ printRegisters threads finegrained ++
    "\nFinegrained Multithreading CPI for this program ".toList

/-- `main`, on the contents of the file that its argument names. -/
def main (heap : Nat → Nat → Instruction) (file : Option (List Char)) (fuel fuel' : Nat) :
    Except Exit (Printed × Printed) :=
  match simMemReset heap file initial with
  | .error f => .error (.fault f)
  | .ok (result, s) =>
      if result ≠ 0 then .error (.failed "Failed initializing memory simulator!\n".toList)
      else
        let threads := s.threadnumber.toInt.toNat
        match simulate s.image fuel fuel' with
        | none => .error .running
        | some (b, f) =>
            if b.inBounds && f.inBounds then
              .ok (⟨printBlocked threads b.registers, b.cycleCount, b.instCount⟩,
                ⟨printFinegrained threads f.registers, f.cycleCount, f.instCount⟩)
            else .error .outOfBounds

section

variable {threads : Nat} {context context' : Nat → Tcontext}
  (heq : ∀ k < threads, ∀ i < regsCount, context k i = context' k i)
include heq

theorem printRegisters_congr :
    printRegisters threads context = printRegisters threads context' := by
  unfold printRegisters
  refine List.flatMap_congr fun k hk => congrArg _ (List.flatMap_congr fun i hi => ?_)
  rw [heq k (List.mem_range.mp hk) i (List.mem_range.mp hi)]

theorem printBlocked_congr : printBlocked threads context = printBlocked threads context' := by
  have h := printRegisters_congr heq
  unfold printBlocked
  rw [h]

theorem printFinegrained_congr :
    printFinegrained threads context = printFinegrained threads context' := by
  have h := printRegisters_congr heq
  unfold printFinegrained
  rw [h]

end

theorem main_of_simulate {file : Option (List Char)} {s : MemSim} {fuel fuel' : Nat}
    {b f : Core} (hreset : simMemReset heap file initial = .ok (0, s))
    (hrun : simulate s.image fuel fuel' = some (b, f)) (hb : b.inBounds = true)
    (hf : f.inBounds = true) :
    main heap file fuel fuel' = .ok
      (⟨printBlocked s.threadnumber.toInt.toNat b.registers, b.cycleCount, b.instCount⟩,
        ⟨printFinegrained s.threadnumber.toInt.toNat f.registers, f.cycleCount, f.instCount⟩) := by
  unfold main
  rw [hreset]
  dsimp only
  rw [if_neg (not_not.mpr rfl), hrun]
  dsimp only
  rw [hb, hf]
  exact if_pos rfl

/-- On an image whose threads halt, stay within registers and data, and do
not interfere, in either simulation, `main` prints the registers of the
threads run one after the other: first from the data of the image, then from
what that leaves. Every instruction counts once, and takes from one cycle to
one more than the latencies and the overhead allow. -/
theorem main_serial (img : ImageText) {text : List Char} (htext : IsText img.lines text)
    (hformat : Format img.threads.number.value none img.items) (hquiet : img.Quiet)
    (hsep : Separated img.items) (h : Nat → Nat) (hh : img.image.HaltsAt h)
    (hin : img.image.InBounds h) (hind : img.image.NonInterfering h)
    (hin' : (img.image.again h).InBounds h) (hind' : (img.image.again h).NonInterfering h)
    (hbound : (1 + max img.image.loadLatency img.image.storeLatency + img.image.switchCycles) *
      ∑ t ∈ Finset.range img.image.threadnumber, (h t + 1) < 2 ^ 32 - 1)
    (heap : Nat → Nat → Instruction) :
    ∃ fuel fuel' cycles cycles',
      main heap (some text) fuel fuel' = .ok
        (⟨printBlocked img.image.threadnumber
            (serial img.image h img.image.threadnumber).1, cycles, img.image.total h⟩,
          ⟨printFinegrained img.image.threadnumber
            (serial (img.image.again h) h img.image.threadnumber).1, cycles',
            img.image.total h⟩) ∧
      (img.image.total h ≤ cycles ∧ cycles ≤ img.image.blockedSpan * img.image.total h) ∧
      img.image.total h ≤ cycles' ∧ cycles' ≤ (1 + img.image.maxLatency) * img.image.total h := by
  obtain ⟨s, hreset, hloaded, hnum, himage⟩ := simMemReset_image img htext hformat hquiet hsep heap
  have hcode := code_of_loaded hh hloaded
  have hcode' : (img.image.again h).Code h s.instructions := hcode
  have hagain : (img.image.withInstructions s.instructions).again h =
      (img.image.again h).withInstructions s.instructions := by
    rw [Image.again, Image.again]
    show (img.image.withInstructions _).withData (serial _ h img.image.threadnumber).2 = _
    rw [hcode.serial_eq (Nat.le_refl _)]
    rfl
  obtain ⟨fuel, fuel', b, f, hrun, hb, hf⟩ := exists_simulate_serially
    (hcode.haltsAt hh) (hcode.inBounds hin) (hcode.nonInterfering hind)
    (hagain ▸ hcode'.inBounds hin') (hagain ▸ hcode'.nonInterfering hind') hbound
  have hthreads : s.threadnumber.toInt.toNat = img.image.threadnumber := by
    have hlt := img.threads.lt
    rw [hnum, BitVec.toInt_eq_toNat_of_lt (by rw [BitVec.toNat_ofNat]; omega), BitVec.toNat_ofNat,
      Nat.mod_eq_of_lt (by omega)]
    rfl
  have hregs : ∀ t < img.image.threadnumber,
      b.registers t = (serial img.image h img.image.threadnumber).1 t := fun t ht =>
    (hb.registers t ht).trans (congrArg (fun r => r.1 t) (hcode.serial_eq (Nat.le_refl _)))
  have hregs' : ∀ t < img.image.threadnumber,
      f.registers t = (serial (img.image.again h) h img.image.threadnumber).1 t := by
    intro t ht
    rw [hagain] at hf
    exact (hf.registers t ht).trans
      (congrArg (fun r => r.1 t) (hcode'.serial_eq (Nat.le_refl _)))
  refine ⟨fuel, fuel', b.cycleCount, f.cycleCount, ?_, ⟨hb.total_le, hb.cycleCount_le⟩,
    hf.total_le, hf.cycleCount_le⟩
  have htotal : b.instCount = img.image.total h := hb.instCount
  have htotal' : f.instCount = img.image.total h := hf.instCount
  rw [main_of_simulate hreset (himage ▸ hrun) hb.inBounds hf.inBounds, hthreads, htotal, htotal',
    printBlocked_congr fun t ht i _ => congrFun (hregs t ht) i,
    printFinegrained_congr fun t ht i _ => congrFun (hregs' t ht) i]

/-! ## Two threads -/

/-- An instruction line with nothing behind it. -/
def bareLine (l : Line) (hs : l.Spaced) (hl : l.text.length ≤ 48) : CodeLine where
  line := l
  spaced := hs
  rest := []
  rest_ok := Or.inl rfl
  comma := List.not_mem_nil
  dollar := List.not_mem_nil
  plain := Or.inl List.not_mem_nil
  short := by rwa [List.append_nil]

theorem ends_nil : Ends 10 [] := Ends.nil 10

/-- A register, by its number. -/
def digitRegister (d : Nat) : Register :=
  register (Nat.digitChar (d % 10)) (Numeral.isDigit_decChar d)

/-- An instruction line with a number as its last operand. -/
def immediateLine (opc : CmdOpcode) (hopc : opc ≠ .nop ∧ opc ≠ .halt) (dst src1 imm : Nat) : Line :=
  .operands opc hopc (digitRegister dst) 1 (digitRegister src1) 1
    (.dec false (digitRegister imm).number (Nat.lt_trans (digitRegister imm).lt (by omega))) 0

theorem spaced_immediateLine {opc : CmdOpcode} (hopc : opc ≠ .nop ∧ opc ≠ .halt)
    (dst src1 imm : Nat) : (immediateLine opc hopc dst src1 imm).Spaced :=
  ⟨Nat.one_pos, Or.inl Nat.one_pos⟩

/-- `LOAD $1, $0, 4`. -/
def loadLine : CodeLine :=
  bareLine (immediateLine .load ⟨nofun, nofun⟩ 1 0 4) (spaced_immediateLine ..) (by decide)

/-- `ADDI $1, $0, 5`. -/
def addiLine : CodeLine :=
  bareLine (immediateLine .addi ⟨nofun, nofun⟩ 1 0 5) (spaced_immediateLine ..) (by decide)

/-- `STORE $0, $1, 8`. -/
def storeLine : CodeLine :=
  bareLine (immediateLine .store ⟨nofun, nofun⟩ 0 1 8) (spaced_immediateLine ..) (by decide)

/-- A thread that loads the word of the image, and one that stores another. -/
def twoItems : List Item :=
  [emptyLine, .thread (digitRegister 0) [] ends_nil,
    .code { haltCode with lines := [loadLine, haltLine] }, emptyLine,
    .thread (digitRegister 1) [] ends_nil,
    .code { haltCode with lines := [addiLine, storeLine, haltLine] }, emptyLine, .data haltData]

theorem twoFormat : Format 2 none twoItems where
  threads := List.forall_mem_cons.mpr ⟨⟨0, Nat.two_pos, rfl⟩,
    List.forall_mem_singleton.mpr ⟨1, Nat.one_lt_two, rfl⟩⟩
  distinct := List.nodup_cons.mpr ⟨by decide, List.nodup_singleton _⟩
  insts := List.forall_mem_cons.mpr ⟨show 2 ≤ 40 by omega,
    List.forall_mem_singleton.mpr (show 3 ≤ 40 by omega)⟩
  one_data := Nat.le_refl 1
  words := List.forall_mem_singleton.mpr (show 1 ≤ 100 by omega)

def twoImage : ImageText where
  config := ["L2".toList]
  config_ok := by decide
  threads := digitRegister 2
  rest := []
  ends := ends_nil
  items := twoItems
  fits := by decide

def twoText : List Char :=
  ("L2\nN2\n\nT0\nI@0x0\nLOAD $1, $0, 4\nHALT $0 # end\n\nT1\nI@0x0\nADDI $1, $0, 5\n" ++
    "STORE $0, $1, 8\nHALT $0 # end\n\nD@0x4\n0x7\n").toList

theorem isText_twoText : IsText twoImage.lines twoText := isText_flatMap twoImage.lines

/-- The first thread has loaded the image's word, the second has 5. -/
theorem main_serial_twoText : ∃ fuel fuel' cycles cycles',
    main initial.instructions (some twoText) fuel fuel' = .ok
        (⟨printBlocked 2 fun t i => if i = 1 then if t = 0 then 7 else 5 else 0, cycles, 5⟩,
          ⟨printFinegrained 2 fun t i => if i = 1 then if t = 0 then 7 else 5 else 0, cycles', 5⟩) ∧
      (5 ≤ cycles ∧ cycles ≤ 15) ∧ 5 ≤ cycles' ∧ cycles' ≤ 15 := by
  have hsep : Separated twoItems := ⟨rfl, rfl, rfl, rfl, show 1 ≤ 100 by omega⟩
  obtain ⟨fuel, fuel', cycles, cycles', hmain⟩ := main_serial twoImage isText_twoText twoFormat
    (ImageText.quiet_of_short _ (by decide)) hsep (fun t => if t = 0 then 1 else 2)
    (by decide) (by decide) (by decide) (by decide) (by decide) (by decide) initial.instructions
  exact ⟨fuel, fuel', cycles, cycles', hmain⟩

end SimApi

end ArchSim
