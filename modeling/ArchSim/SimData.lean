import ArchSim.ArrayMemory
import ArchSim.SimResult

/-!
# The data memory

`SIM_MemDataRead` and `SIM_MemDataWrite` on what `SIM_MemReset` has left,
against the memory that the image describes: its words at their addresses,
and 0 elsewhere. An address has its place in `data` only if it is less than
400 bytes from `data_start` on, and a word that the image does not define is
0 only if `data` was 0 there before.
-/

namespace ArchSim

namespace SimApi

open CString MtCore MemOp

/-- What the `SIM_Get` functions and `SIM_MemInstRead` give of the globals. -/
def MemSim.image (s : MemSim) : Image where
  threadnumber := s.threadnumber.toNat
  loadLatency := s.loadLatency.toNat
  storeLatency := s.storeLatency.toNat
  switchCycles := s.switchCycles.toNat
  instructions := s.instructions
  dataStart := s.dataStart
  data := s.data

/-- What a sequence of `SIM_MemDataRead` and `SIM_MemDataWrite` reads, or
`none` if it leaves the array. -/
def accessData (s : MemSim) : List (MemOp (BitVec 32) (BitVec 32)) → Option (List (BitVec 32))
  | [] => some []
  | .read addr :: ops => do
      let val ← simMemDataRead? s.image s.data addr
      let vals ← accessData s ops
      return val :: vals
  | .write addr val :: ops => do
      let data ← simMemDataWrite? s.image s.data addr val
      accessData { s with data := data } ops

/-! ## What the image describes -/

/-- The word of a data block at an address. -/
def Data.word? (d : Data) (addr : BitVec 32) : Option (BitVec 32) :=
  if (addr - d.address.value).toNat % 4 = 0 then
    (d.words[(addr - d.address.value).toNat / 4]?).map Word.value
  else none

/-- The word at an address: that of the last block which has one, or 0. -/
def imageWord (items : List Item) (addr : BitVec 32) : BitVec 32 :=
  ((datas items).reverse.findSome? (·.word? addr)).getD 0

/-- The array has the word of an address that is read first: its place is
counted from the address of the last block of data that is stored, and there is
the word of the last block that is long enough, or what was there before. -/
def Provided (img : ImageText) (s₀ : MemSim) (addr : BitVec 32) : Prop :=
  ∀ l ∈ img.loadings,
    let start := ((storedDatas l).getLast?.map Prod.fst).getD s₀.dataStart
    let k := (addr - start).toNat / 4
    (lastWord (storedDatas l) k).getD (s₀.data k) = imageWord img.items addr

/-! ## Places -/

section

variable {s : MemSim} {addr : BitVec 32}

/-- The place of an address that is a multiple of 4 from `data_start`. -/
theorem word?_eq (halign : (addr - s.dataStart).toNat % 4 = 0) :
    word? s.image addr =
      if (addr - s.dataStart).toNat < 400 then some ((addr - s.dataStart).toNat / 4) else none := by
  have haddr : addrI s.image addr = (addr - s.dataStart).toInt.tdiv 4 := rfl
  have hsize : (dataSize : Int) = 100 := rfl
  have hlt := (addr - s.dataStart).isLt
  rw [word?, haddr, hsize]
  by_cases hsign : (addr - s.dataStart).toNat < 2 ^ 31
  · have hdiv : (addr - s.dataStart).toInt.tdiv 4 = ((addr - s.dataStart).toNat / 4 : Nat) := by
      rw [BitVec.toInt_eq_toNat_of_lt (by omega)]
      exact (Int.ofNat_tdiv _ 4).symm
    rw [hdiv, Int.toNat_natCast]
    split <;> split <;> first | rfl | omega
  · -- A negative multiple of 4 is divided by 4 to a negative index.
    have hneg : (addr - s.dataStart).toInt =
        -((2 ^ 32 - (addr - s.dataStart).toNat : Nat) : Int) := by
      rw [BitVec.toInt_eq_toNat_cond, if_neg (by omega)]
      omega
    have hdiv : (addr - s.dataStart).toInt.tdiv 4 =
        -((2 ^ 32 - (addr - s.dataStart).toNat) / 4 : Nat) := by
      rw [hneg, Int.neg_tdiv]
      exact congrArg Neg.neg (Int.ofNat_tdiv _ 4).symm
    rw [hdiv]
    rw [if_neg (by omega), if_neg (by omega)]

/-- The places of different addresses differ. -/
theorem separates_word? (s : MemSim) :
    Separates (word? s.image) { addr | (addr - s.dataStart).toNat % 4 = 0 } := by
  intro a ha b hb i hia hib
  rw [word?_eq ha, Option.ite_none_right_eq_some] at hia
  rw [word?_eq hb, Option.ite_none_right_eq_some] at hib
  have hi := Option.some.inj hia.2
  have hj := Option.some.inj hib.2
  have hsub : a - s.dataStart = b - s.dataStart := by
    refine BitVec.eq_of_toNat_eq ?_
    have ha : (a - s.dataStart).toNat % 4 = 0 := ha
    have hb : (b - s.dataStart).toNat % 4 = 0 := hb
    omega
  exact (BitVec.sub_left_inj _).mp hsub

end

theorem accessData_eq (ops : List (MemOp (BitVec 32) (BitVec 32))) : ∀ (s : MemSim),
    accessData s ops = arrayResults (word? s.image) s.data ops := by
  induction ops with
  | nil => exact fun s => rfl
  | cons op ops ih =>
      intro s
      cases op with
      | read addr =>
          rw [accessData, arrayResults, ih, simMemDataRead?]
          cases word? s.image addr with
          | none => rfl
          | some i => cases arrayResults (word? s.image) s.data ops <;> rfl
      | write addr val =>
          rw [accessData, arrayResults, simMemDataWrite?]
          cases word? s.image addr with
          | none => rfl
          | some i => exact ih { s with data := Function.update s.data i val }

/-! ## After the reset -/

section

variable {img : ImageText} {text : List Char} {heap : Nat → Nat → Instruction} {s₀ s : MemSim}
  {addr : BitVec 32}

/-- The array holds the word that the image describes. -/
theorem provided_iff (htext : IsText img.lines text) (hquiet : img.Quiet)
    (hreset : simMemReset heap (some text) s₀ = .ok (0, s)) :
    Provided img s₀ addr ↔
      s.data ((addr - s.dataStart).toNat / 4) = imageWord img.items addr := by
  obtain ⟨s₁, hreads, -, -, -, hstart, hdata⟩ := simMemReset_reads htext hquiet heap s₀
  rw [toOption_eq_some.mpr hreset] at hreads
  obtain ⟨l, hl, heq⟩ := Option.map_eq_some_iff.mp hreads.symm
  obtain rfl := (Prod.mk.inj heq).2
  obtain ⟨hstart', hdata'⟩ := loadAll_data l s₁
  rw [hstart] at hstart'
  rw [Provided, hl, hdata', hstart', hdata]
  exact ⟨fun h => h l rfl, fun h l' hl' => by rw [← Option.some.inj hl']; exact h⟩

end

/-! ## The image of one word -/

theorem reset_haltText : ∃ s,
    simMemReset initial.instructions (some (haltText true)) initial = .ok (0, s) ∧
      s.dataStart = 4 := ⟨_, rfl, rfl⟩

end SimApi

end ArchSim
