import ArchSim.SimResult

/-!
# Where an image is stored

`SIM_MemReset` on arrays without end, with a log of what its loops fill. A
place is inside if it lies in the block that is allocated for it, and the
loops of `SIM_MemReset` are right as long as all places are. How far they go
is read off the lengths of the blocks of the text.
-/

namespace ArchSim

namespace SimApi

open CString MtCore

/-! ## Places -/

/-- Record `inst` of the array of thread `tid`, or word `i` of `data`. -/
inductive Place where
  | record (tid inst : Nat)
  | word (i : Nat)
deriving DecidableEq, Repr

/-- `sizeof(Instruction)`: an enum, three `int`s and a `bool`, up to a
multiple of 4. -/
def instructionSize : Nat := (4 + 3 * 4 + 1 + 3) / 4 * 4

/-- `sizeof(instructions[i])*100`, where `instructions[i]` is a pointer. -/
def threadSize : Nat := 8 * 100

namespace Place

/-- In bytes for a record, in words for a word. -/
def Inside : Place → Prop
  | record _ inst => inst * instructionSize + instructionSize ≤ threadSize
  | word i => i < dataSize

theorem inside_record {tid inst : Nat} : (record tid inst).Inside ↔ inst < instSlots := by
  have hsize : (record tid inst).Inside ↔ inst * 20 + 20 ≤ 800 := Iff.rfl
  have hslots : inst < instSlots ↔ inst < 40 := Iff.rfl
  rw [hsize, hslots]
  omega

theorem inside_word {i : Nat} : (word i).Inside ↔ i < 100 := Iff.rfl

theorem inside_records {tid n : Nat} :
    (∀ p ∈ (List.range' 0 n).map (record tid), p.Inside) ↔ n ≤ 40 := by
  have hslots : ∀ i, (record tid i).Inside ↔ i < 40 := fun i => inside_record
  simp only [List.forall_mem_map, List.mem_range'_1, hslots]
  constructor
  · intro h
    by_contra hlt
    exact absurd (h 40 (by omega)) (by omega)
  · intro h i hi
    omega

theorem inside_words {n : Nat} : (∀ p ∈ (List.range' 0 n).map word, p.Inside) ↔ n ≤ 100 := by
  simp only [List.forall_mem_map, List.mem_range'_1, inside_word]
  constructor
  · intro h
    by_contra hlt
    exact absurd (h 100 (by omega)) (by omega)
  · intro h i hi
    omega

end Place

/-- The globals, and what has been filled. -/
structure Storage where
  mem : MemSim
  places : List Place

/-! ## The loops with a log -/

namespace Logged

/-- `get_inst(line, inst, tid)`. -/
def storeInst (line : List Char) (inst : Nat) (tid : Option (BitVec 32)) (s : Storage) :
    Except Fault Storage :=
  match tid with
  | none => .error .uninitialised
  | some tid =>
      if 0 ≤ tid.toInt ∧ tid.toInt < s.mem.threadnumber.toInt then do
        let i ← getInst line (s.mem.instructions tid.toNat inst)
        return {
          mem := { s.mem with
            instructions := Function.update s.mem.instructions tid.toNat
              (Function.update (s.mem.instructions tid.toNat) inst i) }
          places := s.places ++ [.record tid.toNat inst] }
      else .error .outOfBounds

/-- `get_data(line, data_i)`. -/
def getData (line : List Char) (i : Nat) (s : Storage) : Except Fault Storage :=
  match (strtok '\n' line).token with
  | none => .error .nullString
  | some line => .ok {
      mem := { s.mem with
        data := Function.update s.mem.data i (BitVec.ofInt 32 (strtol line 0)) }
      places := s.places ++ [.word i] }

/-- The loops store in arrays without end. -/
def loader : Loader Storage where
  progStart start s := { s with mem.progStart := start }
  dataStart start s := { s with mem.dataStart := start }
  inst := storeInst
  data := getData

/-- `SIM_MemReset`. -/
def simMemReset (heap : Nat → Nat → Instruction) (file : Option (List Char)) (s : MemSim) :
    Except Fault (Int × Storage) :=
  match file with
  | none => .ok (-1, ⟨s, []⟩)
  | some file => do
      let (s, img) := readConfig heap (fgets 1024 file) s
      let s ← readSegments loader img none ⟨s, []⟩
      return (0, s)

end Logged

/-! ## Blocks of a text -/

/-- The lines of a block of instructions or data. -/
inductive Block where
  | code (lines : List (List Char))
  | data (lines : List (List Char))

/-- The blocks behind the `@` lines, each up to the line that ends it. -/
def blocks : List (List Char) → List Block
  | [] => []
  | line :: img =>
      match line with
      | 'I' :: '@' :: _ =>
          .code (img.takeWhile fun l => !endsBlock 'D' l) ::
            blocks (img.dropWhile fun l => !endsBlock 'D' l).tail
      | 'D' :: '@' :: _ =>
          .data (img.takeWhile fun l => !endsBlock 'I' l) ::
            blocks (img.dropWhile fun l => !endsBlock 'I' l).tail
      | _ => blocks img
termination_by img => img.length
decreasing_by
  all_goals
    simp only [List.length_cons, List.length_tail]
    have := (List.dropWhile_sublist (l := img) fun l => !endsBlock 'D' l).length_le
    have := (List.dropWhile_sublist (l := img) fun l => !endsBlock 'I' l).length_le
    omega

/-- A thread has room for 40 records, the data array for 100 words. -/
def Block.Fits : Block → Prop
  | .code lines => lines.length ≤ 40
  | .data lines => lines.length ≤ 100

theorem except_bind_ok {α β : Type} {x : Except Fault α} {f : α → Except Fault β} {b : β}
    (h : x >>= f = .ok b) : ∃ a, x = .ok a ∧ f a = .ok b := by
  cases x with
  | error fault => cases h
  | ok a => exact ⟨a, rfl, h⟩

namespace Logged

variable {line : List Char} {img : List (List Char)} {tid : Option (BitVec 32)} {k : Nat}
  {s s' : Storage}

theorem storeInst_places (h : storeInst line k tid s = .ok s') :
    s'.places = s.places ++ [.record (tid.getD 0).toNat k] := by
  unfold storeInst at h
  split at h
  · cases h
  · split at h
    · obtain ⟨i, -, hi⟩ := except_bind_ok h
      cases hi
      rfl
    · cases h

theorem getData_places (h : getData line k s = .ok s') :
    s'.places = s.places ++ [.word k] := by
  unfold getData at h
  split at h
  · cases h
  · cases h
    rfl

/-- What the loop over instruction lines fills. -/
theorem readCode_places : ∀ {img : List (List Char)} {k : Nat} {s : Storage},
    readCode loader img k tid s = .ok s' → ∃ s₁,
      readSegments loader (img.dropWhile fun l => !endsBlock 'D' l).tail tid s₁ = .ok s' ∧
        s₁.places = s.places ++
          (List.range' k (img.takeWhile fun l => !endsBlock 'D' l).length).map
            (.record (tid.getD 0).toNat)
  | [], k, s, h => ⟨s, h, (List.append_nil _).symm⟩
  | line :: img, k, s, h => by
      rw [readCode] at h
      split at h
      · rename_i hends
        rw [List.dropWhile_cons_of_neg (by simp [hends]),
          List.takeWhile_cons_of_neg (by simp [hends])]
        exact ⟨s, h, (List.append_nil _).symm⟩
      · rename_i hends
        obtain ⟨s₂, hstore, h⟩ := except_bind_ok h
        obtain ⟨s₁, hrest, hplaces⟩ := readCode_places h
        rw [List.dropWhile_cons_of_pos (by simp [hends]),
          List.takeWhile_cons_of_pos (by simp [hends])]
        refine ⟨s₁, hrest, ?_⟩
        rw [hplaces, storeInst_places hstore, List.length_cons, List.range'_succ, List.map_cons,
          List.append_assoc, List.singleton_append]

/-- What the loop over data lines fills. -/
theorem readData_places : ∀ {img : List (List Char)} {k : Nat} {s : Storage},
    readData loader img k tid s = .ok s' → ∃ s₁,
      readSegments loader (img.dropWhile fun l => !endsBlock 'I' l).tail tid s₁ = .ok s' ∧
        s₁.places = s.places ++
          (List.range' k (img.takeWhile fun l => !endsBlock 'I' l).length).map .word
  | [], k, s, h => ⟨s, h, (List.append_nil _).symm⟩
  | line :: img, k, s, h => by
      rw [readData] at h
      split at h
      · rename_i hends
        rw [List.dropWhile_cons_of_neg (by simp [hends]),
          List.takeWhile_cons_of_neg (by simp [hends])]
        exact ⟨s, h, (List.append_nil _).symm⟩
      · rename_i hends
        obtain ⟨s₂, hstore, h⟩ := except_bind_ok h
        obtain ⟨s₁, hrest, hplaces⟩ := readData_places h
        rw [List.dropWhile_cons_of_pos (by simp [hends]),
          List.takeWhile_cons_of_pos (by simp [hends])]
        refine ⟨s₁, hrest, ?_⟩
        rw [hplaces, getData_places hstore, List.length_cons, List.range'_succ, List.map_cons,
          List.append_assoc, List.singleton_append]

/-- What is left of an `@` line in the line buffer. -/
theorem getStart_buffer {c : Char} (hc : c ≠ '\n' ∧ c ≠ '@') {rest : List Char}
    {r : BitVec 32 × List Char} (h : getStart (c :: '@' :: rest) = .ok r) : r.2 = [c] := by
  have hnewline : '\n' ∉ [c, '@'] := by
    rw [List.mem_cons, List.mem_singleton, not_or]
    exact ⟨hc.1.symm, by decide⟩
  have htoken := strtok_append (List.cons_ne_nil c ['@']) hnewline rest
  rw [List.cons_append, List.singleton_append] at htoken
  have hat : '@' ∉ [c] := fun h => hc.2 (List.mem_singleton.mp h).symm
  have hsegment := strtok_field (List.cons_ne_nil c []) hat (rest.takeWhile (· != '\n'))
  rw [List.singleton_append] at hsegment
  simp only [getStart, htoken, Option.getD_some, List.cons_append, List.nil_append,
    hsegment] at h
  split at h
  · cases h
  · cases h
    rfl

/-- The command that an `@` line leaves is not found. -/
theorem storeInst_bare : storeInst ['I'] k tid s ≠ .ok s' := by
  intro h
  unfold storeInst at h
  split at h
  · cases h
  · split at h
    · obtain ⟨i, hi, -⟩ := except_bind_ok h
      cases hi
    · cases h

/-- All places are inside exactly when all blocks fit. -/
theorem readSegments_inside (img : List (List Char)) :
    ∀ {tid : Option (BitVec 32)} {s s' : Storage}, readSegments loader img tid s = .ok s' →
      ((∀ p ∈ s'.places, p.Inside) ↔ (∀ p ∈ s.places, p.Inside) ∧ ∀ b ∈ blocks img, b.Fits) := by
  induction img using blocks.induct with
  | case1 =>
      intro tid s s' h
      cases h
      rw [blocks]
      simp
  | case2 img rest ih =>
      intro tid s s' h
      rw [readSegments] at h
      obtain ⟨⟨start, buffer⟩, hstart, h⟩ := except_bind_ok h
      obtain rfl := getStart_buffer (by decide) hstart
      rw [blocks, List.forall_mem_cons]
      cases img with
      | nil => exact absurd h storeInst_bare
      | cons line img =>
          obtain ⟨s₁, hrest, hplaces⟩ := readCode_places h
          rw [ih hrest, hplaces, List.forall_mem_append, Place.inside_records, and_assoc]
          rfl
  | case3 img rest ih =>
      intro tid s s' h
      rw [readSegments] at h
      obtain ⟨⟨start, buffer⟩, hstart, h⟩ := except_bind_ok h
      obtain rfl := getStart_buffer (by decide) hstart
      rw [blocks, List.forall_mem_cons]
      cases img with
      | nil =>
          have h : getData ['D'] 0 { s with mem.dataStart := start } = .ok s' := h
          have hword : (Place.word 0).Inside := Place.inside_word.mpr (by omega)
          have hnil : (Block.data []).Fits := Nat.zero_le _
          rw [getData_places h, List.forall_mem_append, List.forall_mem_singleton]
          simp [hword, hnil, blocks]
      | cons line img =>
          obtain ⟨s₁, hrest, hplaces⟩ := readData_places h
          rw [ih hrest, hplaces, List.forall_mem_append, Place.inside_words, and_assoc]
          rfl
  | case4 line img hcode hdata ih =>
      intro tid s s' h
      rw [blocks]
      · unfold readSegments at h
        split at h
        · exact ih h
        · exact absurd rfl (hcode _)
        · exact absurd rfl (hdata _)
        · exact ih h
      · exact hcode
      · exact hdata

/-! ## The loops with checks -/

/-- All that has been filled is inside. -/
def Safe (s : Storage) : Prop := ∀ p ∈ s.places, p.Inside

theorem safe_of_readSegments (h : readSegments loader img tid s = .ok s') (hsafe : Safe s') :
    Safe s :=
  ((readSegments_inside img h).mp hsafe).1

theorem safe_of_readCode (h : readCode loader img k tid s = .ok s') (hsafe : Safe s') : Safe s := by
  obtain ⟨s₁, hrest, hplaces⟩ := readCode_places h
  exact fun p hp => safe_of_readSegments hrest hsafe p (hplaces ▸ List.mem_append_left _ hp)

theorem safe_of_readData (h : readData loader img k tid s = .ok s') (hsafe : Safe s') : Safe s := by
  obtain ⟨s₁, hrest, hplaces⟩ := readData_places h
  exact fun p hp => safe_of_readSegments hrest hsafe p (hplaces ▸ List.mem_append_left _ hp)

/-- `x` goes well exactly when `y` does and stays inside, with the same
globals. -/
def Checks (x : Except Fault MemSim) (y : Except Fault Storage) : Prop :=
  ∀ m, x = .ok m ↔ ∃ s, y = .ok s ∧ s.mem = m ∧ Safe s

theorem checks_ok (hs : Safe s) : Checks (.ok s.mem) (.ok s) := by
  intro m
  constructor
  · rintro ⟨⟩
    exact ⟨s, rfl, rfl, hs⟩
  · rintro ⟨s', ⟨⟩, rfl, -⟩
    rfl

theorem checks_error (fault fault' : Fault) : Checks (.error fault) (.error fault') := by
  intro m
  constructor
  · rintro ⟨⟩
  · rintro ⟨s', ⟨⟩, -⟩

/-- A check that fails where the place is not inside. -/
theorem checks_outside (hs : ¬Safe s) (fault : Fault) : Checks (.error fault) (.ok s) := by
  intro m
  constructor
  · rintro ⟨⟩
  · rintro ⟨s', ⟨⟩, -, hs'⟩
    exact absurd hs' hs

theorem Checks.bind {x : Except Fault MemSim} {y : Except Fault Storage}
    {f : MemSim → Except Fault MemSim} {g : Storage → Except Fault Storage} (h : Checks x y)
    (hfg : ∀ s, Safe s → Checks (f s.mem) (g s)) (hg : ∀ s s', g s = .ok s' → Safe s' → Safe s) :
    Checks (x >>= f) (y >>= g) := by
  intro m
  constructor
  · intro hm
    obtain ⟨m₁, hx, hf⟩ := except_bind_ok hm
    obtain ⟨s₁, rfl, rfl, hs₁⟩ := (h m₁).mp hx
    exact (hfg s₁ hs₁ m).mp hf
  · rintro ⟨s', hs', rfl, hsafe⟩
    obtain ⟨s₁, rfl, hgs⟩ := except_bind_ok hs'
    have hs₁ := hg s₁ s' hgs hsafe
    rw [(h s₁.mem).mpr ⟨s₁, rfl, rfl, hs₁⟩]
    exact (hfg s₁ hs₁ s'.mem).mpr ⟨s', hgs, rfl, hsafe⟩

/-- Both do the same first. -/
theorem checks_bind {α : Type} (x : Except Fault α) {f : α → Except Fault MemSim}
    {g : α → Except Fault Storage} (h : ∀ a, Checks (f a) (g a)) :
    Checks (x >>= f) (x >>= g) := by
  cases x with
  | error fault => exact checks_error fault fault
  | ok a => exact h a

theorem checks_storeInst (hs : Safe s) :
    Checks (SimApi.storeInst line k tid s.mem) (storeInst line k tid s) := by
  unfold SimApi.storeInst storeInst
  cases tid with
  | none => exact checks_error _ _
  | some tid =>
      by_cases htid : 0 ≤ tid.toInt ∧ tid.toInt < s.mem.threadnumber.toInt
      · simp only [htid, true_and, and_self, if_true]
        cases getInst line (s.mem.instructions tid.toNat k) with
        | error fault =>
            split
            · exact checks_error _ _
            · exact checks_error _ _
        | ok i =>
            have hsafe : ∀ m, Safe ⟨m, s.places ++ [.record tid.toNat k]⟩ ↔ k < instSlots := by
              intro m
              rw [← Place.inside_record, Safe, List.forall_mem_append, List.forall_mem_singleton]
              exact and_iff_right hs
            split
            · rename_i hk
              exact checks_ok ((hsafe _).mpr hk)
            · rename_i hk
              exact checks_outside (fun h => hk ((hsafe _).mp h)) _
      · have hcheck : ¬(0 ≤ tid.toInt ∧ tid.toInt < s.mem.threadnumber.toInt ∧ k < instSlots) :=
          fun h => htid ⟨h.1, h.2.1⟩
        simp only [htid, hcheck, if_false]
        exact checks_error _ _

theorem checks_getData (hs : Safe s) :
    Checks (SimApi.getData line k s.mem) (getData line k s) := by
  unfold SimApi.getData getData
  cases (strtok '\n' line).token with
  | none => exact checks_error _ _
  | some line =>
      have hsafe : ∀ m, Safe ⟨m, s.places ++ [.word k]⟩ ↔ k < dataSize := by
        intro m
        rw [Safe, List.forall_mem_append, List.forall_mem_singleton]
        exact and_iff_right hs
      by_cases hk : k < dataSize
      · simp only [hk, if_true]
        exact checks_ok ((hsafe _).mpr hk)
      · simp only [hk, if_false]
        exact checks_outside (fun h => hk ((hsafe _).mp h)) _

/-- The loops with checks. -/
theorem checks_read (img : List (List Char)) :
    (∀ tid s, Safe s →
      Checks (readSegments MemSim.loader img tid s.mem) (readSegments loader img tid s)) ∧
    (∀ k tid s, Safe s →
      Checks (readCode MemSim.loader img k tid s.mem) (readCode loader img k tid s)) ∧
    ∀ k tid s, Safe s →
      Checks (readData MemSim.loader img k tid s.mem) (readData loader img k tid s) := by
  induction img with
  | nil => exact ⟨fun _ _ => checks_ok, fun _ _ _ => checks_ok, fun _ _ _ => checks_ok⟩
  | cons line img ih =>
      obtain ⟨ihSegments, ihCode, ihData⟩ := ih
      refine ⟨fun tid s hs => ?_, fun k tid s hs => ?_, fun k tid s hs => ?_⟩
      · unfold readSegments
        split
        · exact ihSegments _ s hs
        · refine checks_bind _ ?_
          rintro ⟨start, buffer⟩
          have hs' : Safe { s with mem.progStart := start } := hs
          cases img with
          | nil =>
              dsimp only
              split
              · exact checks_ok hs'
              · exact checks_storeInst hs'
          | cons line img => exact ihCode 0 tid _ hs'
        · refine checks_bind _ ?_
          rintro ⟨start, buffer⟩
          have hs' : Safe { s with mem.dataStart := start } := hs
          cases img with
          | nil =>
              dsimp only
              split
              · exact checks_ok hs'
              · exact checks_getData hs'
          | cons line img => exact ihData 0 tid _ hs'
        · exact ihSegments tid s hs
      · unfold readCode
        split
        · exact ihSegments tid s hs
        · exact (checks_storeInst hs).bind (fun s₁ hs₁ => ihCode _ _ s₁ hs₁)
            fun s₁ s' h => safe_of_readCode h
      · unfold readData
        split
        · exact ihSegments tid s hs
        · exact (checks_getData hs).bind (fun s₁ hs₁ => ihData _ _ s₁ hs₁)
            fun s₁ s' h => safe_of_readData h

end Logged

/-! ## Files -/

/-- `SIM_MemReset` goes well exactly when it does on arrays without end, and
all that it fills is inside. -/
theorem simMemReset_eq_ok_iff (heap : Nat → Nat → Instruction) (file : Option (List Char))
    (s₀ : MemSim) (r : Int) (m : MemSim) :
    simMemReset heap file s₀ = .ok (r, m) ↔
      ∃ s, Logged.simMemReset heap file s₀ = .ok (r, s) ∧ s.mem = m ∧ ∀ p ∈ s.places, p.Inside := by
  cases file with
  | none =>
      constructor
      · rintro ⟨⟩
        exact ⟨⟨s₀, []⟩, rfl, rfl, fun p hp => absurd hp List.not_mem_nil⟩
      · rintro ⟨s, ⟨⟩, rfl, -⟩
        rfl
  | some file =>
      have hnil : Logged.Safe ⟨(readConfig heap (fgets 1024 file) s₀).1, []⟩ :=
        fun p hp => absurd hp List.not_mem_nil
      have hread := (Logged.checks_read (readConfig heap (fgets 1024 file) s₀).2).1 none _ hnil
      constructor
      · intro h
        obtain ⟨m', hm', h⟩ := except_bind_ok h
        cases h
        obtain ⟨s, hs, hmem, hsafe⟩ := (hread m).mp hm'
        refine ⟨s, ?_, hmem, hsafe⟩
        simp only [Logged.simMemReset, hs]
        rfl
      · rintro ⟨s, h, rfl, hsafe⟩
        obtain ⟨s', hs', h⟩ := except_bind_ok h
        cases h
        have hm := (hread s.mem).mpr ⟨s, hs', rfl, hsafe⟩
        simp only [simMemReset, hm]
        rfl

/-- The lines behind the `N` line. -/
def segments (file : List (List Char)) : List (List Char) :=
  (file.dropWhile fun l => l.head? != some 'N').tail

theorem readConfig_segments (heap : Nat → Nat → Instruction) :
    ∀ (file : List (List Char)) (s : MemSim), (readConfig heap file s).2 = segments file
  | [], s => rfl
  | line :: file, s => by
      have ih := readConfig_segments heap file
      unfold readConfig segments
      split
      · exact ih _
      · exact ih _
      · exact ih _
      · rfl
      · rename_i hN
        have hhead : (line.head? != some 'N') = true := by
          rw [bne_iff_ne]
          intro h
          obtain ⟨rest, rfl⟩ := List.head?_eq_some_iff.mp h
          exact hN rest rfl
        rw [List.dropWhile_cons, if_pos hhead]
        exact ih s

/-- All is stored inside exactly when all blocks fit. -/
theorem places_inside_iff_fits {heap : Nat → Nat → Instruction} {file : List Char} {s₀ : MemSim}
    {s : Storage} (hread : Logged.simMemReset heap (some file) s₀ = .ok (0, s)) :
    (∀ p ∈ s.places, p.Inside) ↔ ∀ b ∈ blocks (segments (fgets 1024 file)), b.Fits := by
  obtain ⟨s', hs', h⟩ := except_bind_ok hread
  cases h
  rw [readConfig_segments] at hs'
  rw [Logged.readSegments_inside _ hs']
  exact and_iff_right fun p hp => absurd hp List.not_mem_nil

/-- Of an image that `SIM_MemReset` reads, with at most 100 words in each
data block, all is stored inside exactly when no block of instructions has
more than 40. -/
theorem places_inside_iff {heap : Nat → Nat → Instruction} {file : List Char} {s₀ : MemSim}
    {s : Storage} (hread : Logged.simMemReset heap (some file) s₀ = .ok (0, s))
    (hwords : ∀ lines, Block.data lines ∈ blocks (segments (fgets 1024 file)) →
      lines.length ≤ 100) :
    (∀ p ∈ s.places, p.Inside) ↔
      ∀ lines, Block.code lines ∈ blocks (segments (fgets 1024 file)) → lines.length ≤ 40 := by
  rw [places_inside_iff_fits hread]
  constructor
  · exact fun h lines hmem => h _ hmem
  · intro h b hb
    cases b with
    | code lines => exact h lines hb
    | data lines => exact hwords lines hb

/-! ## A thread of `NOP`s -/

def nopLines (n : Nat) : List (List Char) :=
  "N1".toList :: "T0".toList :: "I@0x0".toList :: List.replicate n "NOP ".toList

def nopText (n : Nat) : List Char := (nopLines n).flatMap fun l => l ++ ['\n']

theorem fgets_nopText (n : Nat) :
    fgets 1024 (nopText n) = (nopLines n).map fun l => l ++ ['\n'] := by
  refine fgets_flatMap fun l hl => ?_
  simp only [nopLines, List.mem_cons, List.mem_replicate] at hl
  rcases hl with rfl | rfl | rfl | ⟨-, rfl⟩ <;> decide

theorem segments_nopText (n : Nat) : segments (fgets 1024 (nopText n)) =
    "T0\n".toList :: "I@0x0\n".toList :: List.replicate n "NOP \n".toList := by
  rw [fgets_nopText, nopLines, List.map_cons, List.map_cons, List.map_cons, List.map_replicate]
  rfl

theorem blocks_nopText (n : Nat) : blocks (segments (fgets 1024 (nopText n))) =
    [.code (List.replicate n "NOP \n".toList)] := by
  have htake : (List.replicate n "NOP \n".toList).takeWhile (fun l => !endsBlock 'D' l) =
      List.replicate n "NOP \n".toList := by
    rw [List.takeWhile_replicate]
    rfl
  have hdrop : (List.replicate n "NOP \n".toList).dropWhile (fun l => !endsBlock 'D' l) = [] := by
    rw [List.dropWhile_replicate]
    rfl
  rw [segments_nopText, blocks]
  · show blocks (('I' :: '@' :: "0x0\n".toList) :: List.replicate n "NOP \n".toList) = _
    rw [blocks, htake, hdrop, List.tail_nil, blocks]
  · exact fun _ h => nomatch (List.cons.inj h).1
  · exact fun _ h => nomatch (List.cons.inj h).1

theorem readCode_nops (n : Nat) : ∀ (k : Nat) (s : Storage), s.mem.threadnumber = 1 →
    ∃ s', readCode Logged.loader (List.replicate n "NOP \n".toList) k (some 0) s = .ok s' ∧
      s'.mem.threadnumber = 1 := by
  induction n with
  | zero => exact fun k s hs => ⟨s, rfl, hs⟩
  | succ n ih =>
      intro k s hs
      have hends : endsBlock 'D' "NOP \n".toList = false := rfl
      obtain ⟨s₁, hstore, hs₁⟩ : ∃ s₁, Logged.loader.inst "NOP \n".toList k (some 0) s = .ok s₁ ∧
          s₁.mem.threadnumber = 1 := by
        simp only [Logged.loader, Logged.storeInst, hs]
        exact ⟨_, rfl, rfl⟩
      obtain ⟨s', hread, hs'⟩ := ih (k + 1) s₁ hs₁
      refine ⟨s', ?_, hs'⟩
      rw [List.replicate_succ, readCode, hends, if_neg Bool.false_ne_true, hstore]
      exact hread

theorem simMemReset_nopText (n : Nat) : ∃ s,
    Logged.simMemReset initial.instructions (some (nopText (n + 1))) initial = .ok (0, s) ∧
      s.mem.threadnumber = 1 := by
  obtain ⟨s, hread, hs⟩ := readCode_nops (n + 1) 0
    ⟨{ initial with threadnumber := 1 }, []⟩ rfl
  refine ⟨s, ?_, hs⟩
  have hconfig : readConfig initial.instructions (fgets 1024 (nopText (n + 1))) initial =
      ({ initial with threadnumber := 1 }, segments (fgets 1024 (nopText (n + 1)))) := by
    rw [segments_nopText, fgets_nopText, nopLines, List.map_cons, List.map_cons, List.map_cons,
      List.map_replicate]
    rfl
  have hsegments : readSegments Logged.loader (segments (fgets 1024 (nopText (n + 1)))) none
      ⟨{ initial with threadnumber := 1 }, []⟩ = .ok s := by
    rw [segments_nopText]
    exact hread
  simp only [Logged.simMemReset, hconfig, hsegments]
  rfl

/-- 40 instructions are stored inside. -/
theorem places_inside_iff_nopText : ∃ s,
    Logged.simMemReset initial.instructions (some (nopText 40)) initial = .ok (0, s) ∧
      (∀ p ∈ s.places, p.Inside) := by
  obtain ⟨s, hread, -⟩ := simMemReset_nopText 39
  have hblocks := blocks_nopText 40
  refine ⟨s, hread, (places_inside_iff hread ?_).mpr ?_⟩
  · rw [hblocks]
    intro lines h
    cases List.mem_singleton.mp h
  · rw [hblocks]
    intro lines h
    cases List.mem_singleton.mp h
    exact Nat.le_of_eq List.length_replicate

/-- Of 41 instructions for thread 0 of 1 the last one is not. -/
theorem not_inside_nopText : ∃ s,
    Logged.simMemReset initial.instructions (some (nopText 41)) initial = .ok (0, s) ∧
      s.mem.threadnumber = 1 ∧
      blocks (segments (fgets 1024 (nopText 41))) =
        [.code (List.replicate 41 "NOP \n".toList)] ∧
      ¬∀ p ∈ s.places, p.Inside := by
  obtain ⟨s, hread, hs⟩ := simMemReset_nopText 40
  have hblocks := blocks_nopText 41
  refine ⟨s, hread, hs, hblocks, ?_⟩
  rw [places_inside_iff_fits hread, hblocks, List.forall_mem_singleton, Block.Fits,
    List.length_replicate]
  omega

end SimApi

end ArchSim
