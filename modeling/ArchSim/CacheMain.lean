import ArchSim.CString
import ArchSim.RoyRefine

/-!
# The cache programs

`main` of `HW2/cacheSim.cpp` and of `HW2/cacheSimRoy.cpp`. The two read the
command line and the trace in the same way and differ in what they simulate
and in how they count, so there is one front end (`program`) with the
simulation as a parameter.

What is printed are quotients, kept as numerator and denominator. Sizes for
which no cache can be built, and write policies other than 0 and 1, are left
out.

On a trace of the documented format both programs print the counts of the
recency-list model, unless a blank line stops them (`mains_print`).
-/

namespace ArchSim

open CString

namespace CString

/-! ## Lines and words -/

/-- The lines that `getline` delivers of a file. -/
def getlines : List Char → List (List Char)
  | [] => []
  | c :: file =>
      if c = '\n' then [] :: getlines file
      else
        match getlines file with
        | [] => [[c]]
        | line :: lines => (c :: line) :: lines

theorem getlines_line (file : List Char) :
    ∀ {line : List Char}, '\n' ∉ line → getlines (line ++ '\n' :: file) = line :: getlines file
  | [], _ => if_pos rfl
  | c :: line, hmem => by
      rw [List.mem_cons, not_or] at hmem
      rw [List.cons_append, getlines, if_neg (Ne.symm hmem.1), getlines_line file hmem.2]

theorem getlines_last : ∀ {line : List Char}, line ≠ [] → '\n' ∉ line → getlines line = [line]
  | [], hne, _ => absurd rfl hne
  | [c], _, hmem => by
      rw [List.mem_singleton] at hmem
      rw [getlines, if_neg (Ne.symm hmem)]
      rfl
  | c :: d :: line, _, hmem => by
      rw [List.mem_cons, not_or] at hmem
      rw [getlines, if_neg (Ne.symm hmem.1), getlines_last (List.cons_ne_nil d line) hmem.2]

/-- The lines of a text are the lines it is made of. -/
theorem IsText.getlines_eq {lines : List (List Char)} {file : List Char} (h : IsText lines file)
    (hmem : ∀ line ∈ lines, '\n' ∉ line) : getlines file = lines := by
  induction h with
  | nil => rfl
  | last hne => exact getlines_last hne (hmem _ (List.mem_singleton_self _))
  | cons _ ih =>
      rw [getlines_line _ (hmem _ (List.mem_cons_self ..)),
        ih fun line hline => hmem line (List.mem_cons_of_mem _ hline)]

/-- `ss >> c`. -/
def readChar (s : List Char) : Option (Char × List Char) :=
  match s.dropWhile isspace with
  | [] => none
  | c :: rest => some (c, rest)

/-- `ss >> s` for a string: the next word. -/
def readString (s : List Char) : Option (List Char) :=
  let body := s.dropWhile isspace
  if body.isEmpty then none else some (body.takeWhile (!isspace ·))

end CString

namespace CacheSim

/-! ## The command line -/

/-- The options, under the names of the variables that they set. -/
inductive Flag where
  | MemCyc
  | BSize
  | L1Size
  | L2Size
  | L1Cyc
  | L2Cyc
  | L1Assoc
  | L2Assoc
  | WrAlloc
deriving DecidableEq, Repr

namespace Flag

/-- In the order of the comparisons. -/
def all : List Flag :=
  [MemCyc, BSize, L1Size, L2Size, L1Cyc, L2Cyc, L1Assoc, L2Assoc, WrAlloc]

def text : Flag → List Char
  | MemCyc => "--mem-cyc".toList
  | BSize => "--bsize".toList
  | L1Size => "--l1-size".toList
  | L2Size => "--l2-size".toList
  | L1Cyc => "--l1-cyc".toList
  | L2Cyc => "--l2-cyc".toList
  | L1Assoc => "--l1-assoc".toList
  | L2Assoc => "--l2-assoc".toList
  | WrAlloc => "--wr-alloc".toList

end Flag

/-- How `main` ends without statistics. -/
inductive Exit where
  /-- A message to `cerr`. -/
  | message (text : String)
  /-- "Command Format error" to `cout`. -/
  | commandFormat
  /-- The string at `argv[argc]` is read. -/
  | nullPointer
  /-- `address.substr(2)` of an address of one character throws. -/
  | outOfRange
  | fault
  /-- The model has no cache for the parameters. -/
  | noCache
deriving DecidableEq, Repr

/-- The variables, each an `unsigned`. -/
abbrev Variables := Flag → BitVec 32

/-- The loop over `i = 2, 4, ...`, for so many values of `i`. -/
def readOptions : Nat → List (List Char) → Variables → Except Exit Variables
  | 0, _, vars => .ok vars
  | _ + 1, [], _ => .error .nullPointer
  | n + 1, s :: rest, vars =>
      match Flag.all.find? fun flag => flag.text = s with
      | none => .error (.message "Error in arguments\n")
      | some flag =>
          match rest with
          | [] => .error .nullPointer
          | value :: rest => readOptions n rest (Function.update vars flag (atoi value))

/-- The `enum WritePolicy` of a number. -/
def writePolicy? : Nat → Option WritePolicy
  | 0 => some .noWriteAllocate
  | 1 => some .writeAllocate
  | _ => none

/-- The parameters of the simulation, if the model has them. -/
def config? (vars : Variables) : Option Config :=
  match writePolicy? (vars .WrAlloc).toNat with
  | none => none
  | some wrAlloc =>
      if h : ((vars .BSize).toNat + (vars .L1Assoc).toNat ≤ (vars .L1Size).toNat ∧
          (vars .L1Size).toNat ≤ 30) ∧
          (vars .BSize).toNat + (vars .L2Assoc).toNat ≤ (vars .L2Size).toNat ∧
          (vars .L2Size).toNat ≤ 30 then
        some
          { memCyc := (vars .MemCyc).toNat
            bSize := (vars .BSize).toNat
            l1Size := (vars .L1Size).toNat
            l2Size := (vars .L2Size).toNat
            l1Assoc := (vars .L1Assoc).toNat
            l2Assoc := (vars .L2Assoc).toNat
            l1Cyc := (vars .L1Cyc).toNat
            l2Cyc := (vars .L2Cyc).toNat
            wrAlloc := wrAlloc
            l1_fits := h.1.1
            l1_le_30 := h.1.2
            l2_fits := h.2.1
            l2_le_30 := h.2.2 }
      else none

/-! ## The trace -/

/-- The operation and the address of a line, `ss >> operation >> address`. -/
def readLine (line : List Char) : Option (Char × List Char) := do
  let (operation, rest) ← readChar line
  let address ← readString rest
  return (operation, address)

/-- The loop over the lines, with what a simulator does for each. -/
def traceLoop {σ ε : Type} (step : σ → Char → Nat → Except ε σ) :
    List (List Char) → σ → Except Exit σ
  | [], s => .ok s
  | line :: lines, s =>
      match readLine line with
      | none => .error .commandFormat
      | some (operation, address) =>
          if address.length < 2 then .error .outOfRange
          else
            match step s operation (strtoul (address.drop 2) 16) with
            | .error _ => .error .fault
            | .ok s => traceLoop step lines s

/-! ## What is printed -/

/-- A quotient of `double`s. -/
structure Quotient where
  num : Int
  den : Int
deriving DecidableEq, Repr

/-- `L1miss=`, `L2miss=` and `AccTimeAvg=`. -/
structure Rates where
  l1miss : Quotient
  l2miss : Quotient
  accTimeAvg : Quotient
deriving DecidableEq, Repr

/-- The front end of the programs. -/
def program {α : Type} (simulate : Config → List (List Char) → Except Exit α)
    (files : List Char → Option (List Char)) (argv : List (List Char)) : Except Exit α :=
  if argv.length < 19 then .error (.message "Not enough arguments\n")
  else
    match files (argv.getD 1 []) with
    | none => .error (.message "File not found\n")
    | some text => do
        let vars ← readOptions 9 (argv.drop 2) fun _ => 0
        match config? vars with
        | none => .error .noCache
        | some cfg => simulate cfg (getlines text)

/-- The `switch` over the operation. -/
def Cache.step {cfg : Config} (c : Cache cfg) (operation : Char) (num : Nat) :
    Except Fault (Cache cfg) :=
  if operation = 'r' then c.cacheRead num
  else if operation = 'w' then c.cacheWrite num
  else .ok c

def Cache.rates {cfg : Config} (c : Cache cfg) : Rates where
  l1miss := ⟨c.L1.missCount, c.L1.accessCount⟩
  l2miss := ⟨c.L2.missCount, c.L2.accessCount⟩
  accTimeAvg := ⟨c.tAccessTotal, c.L1.accessCount⟩

def simulate (cfg : Config) (lines : List (List Char)) : Except Exit Rates := do
  let c ← traceLoop Cache.step lines (Cache.new cfg)
  return c.rates

/-- `main` of `cacheSim.cpp`. -/
def main (files : List Char → Option (List Char)) (argv : List (List Char)) :
    Except Exit Rates :=
  program simulate files argv

end CacheSim

namespace RoySim

open CacheSim (Config Exit Rates)

/-- The body of the loop. A line of any other operation counts as well. -/
def State.step {cfg : Config} (s : State cfg) (operation : Char) (num : Nat) :
    Except Fault (State cfg) :=
  if operation = 'w' then s.countLine.write num
  else if operation = 'r' then s.countLine.read num
  else .ok s.countLine

def State.rates {cfg : Config} (s : State cfg) : Rates where
  l1miss := ⟨s.l1miss.toInt, s.l1NumOfAccesses.toInt⟩
  l2miss := ⟨s.l2miss.toInt, s.l2NumOfAccesses.toInt⟩
  accTimeAvg := ⟨s.totalTime.toNat, s.total.toInt⟩

/-- The ways come uninitialised from `new Way[...]`. -/
def simulate (mem1 mem2 : Nat → Nat → Way) (cfg : Config) (lines : List (List Char)) :
    Except Exit Rates := do
  let s ← CacheSim.traceLoop State.step lines (State.init cfg mem1 mem2)
  return s.rates

/-- `main` of `cacheSimRoy.cpp`. -/
def main (mem1 mem2 : Nat → Nat → Way) (files : List Char → Option (List Char))
    (argv : List (List Char)) : Except Exit Rates :=
  CacheSim.program (simulate mem1 mem2) files argv

end RoySim

namespace CacheSim

/-! ## The documented command line -/

/-- What an option is set to for a configuration. -/
def Config.value (cfg : Config) : Flag → Nat
  | .MemCyc => cfg.memCyc
  | .BSize => cfg.bSize
  | .L1Size => cfg.l1Size
  | .L2Size => cfg.l2Size
  | .L1Cyc => cfg.l1Cyc
  | .L2Cyc => cfg.l2Cyc
  | .L1Assoc => cfg.l1Assoc
  | .L2Assoc => cfg.l2Assoc
  | .WrAlloc => match cfg.wrAlloc with
      | .noWriteAllocate => 0
      | .writeAllocate => 1

/-- Options with their values. -/
def optionsText (options : List (Flag × Numeral 10)) : List (List Char) :=
  options.flatMap fun o => [o.1.text, o.2.text]

/-- The arguments of a configuration: every option once, in any order. -/
structure Describes (options : List (Flag × Numeral 10)) (cfg : Config) : Prop where
  perm : (options.map Prod.fst).Perm Flag.all
  value : ∀ o ∈ options, o.2.value = cfg.value o.1

theorem Flag.find?_text (flag : Flag) : (all.find? fun f => f.text = flag.text) = some flag := by
  cases flag <;> rfl

theorem atoi_numeral (n : Numeral 10) (h : n.value < 2 ^ 31) :
    atoi n.text = BitVec.ofNat 32 n.value := by
  have hmag := n.magnitude_dec (Ends.nil 10)
  rw [List.append_nil] at hmag
  have hhead := n.head_append []
  rw [List.append_nil] at hhead
  have hblank : ∀ c ∈ ([] : List Char), isspace c = true := fun _ hc => absurd hc List.not_mem_nil
  have hval : strtol n.text 10 = (magnitude n.text 10 : Int) :=
    strtol_unsigned hblank hhead (lt_of_eq_of_lt hmag (by omega))
  rw [atoi, hval, hmag, BitVec.ofInt_natCast]

/-- The options set their variables, one after the other. -/
theorem readOptions_text (extra : List (List Char)) :
    ∀ (options : List (Flag × Numeral 10)) (vars : Variables),
      (∀ o ∈ options, o.2.value < 2 ^ 31) →
      readOptions options.length (optionsText options ++ extra) vars =
        .ok (options.foldl
          (fun vars o => Function.update vars o.1 (BitVec.ofNat 32 o.2.value)) vars)
  | [], _, _ => rfl
  | (flag, n) :: options, vars, hlt => by
      have hrest := readOptions_text extra options
        (Function.update vars flag (BitVec.ofNat 32 n.value))
        fun o ho => hlt o (List.mem_cons_of_mem _ ho)
      rw [optionsText, List.flatMap_cons, List.length_cons]
      simp only [List.cons_append, List.nil_append, readOptions, flag.find?_text,
        atoi_numeral n (hlt _ (List.mem_cons_self ..))]
      exact hrest

theorem foldl_update_of_not_mem {flag : Flag} :
    ∀ {options : List (Flag × Numeral 10)} {vars : Variables}, flag ∉ options.map Prod.fst →
      options.foldl (fun vars o => Function.update vars o.1 (BitVec.ofNat 32 o.2.value)) vars flag =
        vars flag
  | [], _, _ => rfl
  | o :: options, vars, hmem => by
      rw [List.map_cons, List.mem_cons, not_or] at hmem
      rw [List.foldl_cons, foldl_update_of_not_mem hmem.2, Function.update_of_ne hmem.1]

theorem foldl_update_of_mem {flag : Flag} {n : Numeral 10} :
    ∀ {options : List (Flag × Numeral 10)} {vars : Variables}, (options.map Prod.fst).Nodup →
      (flag, n) ∈ options →
      options.foldl (fun vars o => Function.update vars o.1 (BitVec.ofNat 32 o.2.value)) vars flag =
        BitVec.ofNat 32 n.value
  | [], _, _, hmem => absurd hmem List.not_mem_nil
  | o :: options, vars, hnd, hmem => by
      rw [List.map_cons, List.nodup_cons] at hnd
      rw [List.foldl_cons]
      rcases List.mem_cons.mp hmem with rfl | hmem
      · rw [foldl_update_of_not_mem hnd.1, Function.update_self]
      · exact foldl_update_of_mem hnd.2 hmem

/-- The order of the options does not matter. -/
theorem Describes.readOptions {options : List (Flag × Numeral 10)} {cfg : Config}
    (h : Describes options cfg) (hlt : ∀ flag, cfg.value flag < 2 ^ 31)
    (extra : List (List Char)) :
    readOptions 9 (optionsText options ++ extra) (fun _ => 0) =
      .ok fun flag => BitVec.ofNat 32 (cfg.value flag) := by
  have hlen : options.length = 9 := by
    have := h.perm.length_eq
    rwa [List.length_map] at this
  have hall : ∀ o ∈ options, o.2.value < 2 ^ 31 := fun o ho => h.value o ho ▸ hlt o.1
  rw [← hlen, readOptions_text extra options _ hall]
  congr 1
  funext flag
  have hmem : flag ∈ options.map Prod.fst :=
    h.perm.mem_iff.mpr (by cases flag <;> decide)
  obtain ⟨o, ho, rfl⟩ := List.mem_map.mp hmem
  rw [foldl_update_of_mem (h.perm.nodup_iff.mpr (by decide)) ho, h.value o ho]

theorem config?_value (cfg : Config) (hlt : ∀ flag, cfg.value flag < 2 ^ 31) :
    config? (fun flag => BitVec.ofNat 32 (cfg.value flag)) = some cfg := by
  have htoNat : ∀ flag, (BitVec.ofNat 32 (cfg.value flag)).toNat = cfg.value flag := by
    intro flag
    have := hlt flag
    rw [BitVec.toNat_ofNat, Nat.mod_eq_of_lt (by omega)]
  have hpolicy : writePolicy? (cfg.value .WrAlloc) = some cfg.wrAlloc := by
    rw [Config.value]
    split <;> rename_i hw <;> rw [hw] <;> rfl
  simp only [config?, htoNat, hpolicy]
  exact dif_pos ⟨⟨cfg.l1_fits, cfg.l1_le_30⟩, cfg.l2_fits, cfg.l2_le_30⟩

/-- What the front end makes of a documented command line. -/
theorem program_eq {α : Type} {options : List (Flag × Numeral 10)} {cfg : Config}
    (h : Describes options cfg) (hlt : ∀ flag, cfg.value flag < 2 ^ 31)
    (simulate : Config → List (List Char) → Except Exit α)
    {files : List Char → Option (List Char)} {file text : List Char}
    (hfile : files file = some text) (argv0 : List Char) (extra : List (List Char)) :
    program simulate files (argv0 :: file :: (optionsText options ++ extra)) =
      simulate cfg (getlines text) := by
  have hlen : options.length = 9 := by
    have := h.perm.length_eq
    rwa [List.length_map] at this
  have hargc : ¬(argv0 :: file :: (optionsText options ++ extra)).length < 19 := by
    have htext : (optionsText options).length = 2 * options.length := by
      rw [optionsText, List.length_flatMap]
      simp [Nat.mul_comm]
    simp only [List.length_cons, List.length_append, htext, hlen]
    omega
  have hdrop : (argv0 :: file :: (optionsText options ++ extra)).drop 2 =
      optionsText options ++ extra := rfl
  rw [program, if_neg hargc, show (argv0 :: file :: (optionsText options ++ extra)).getD 1 [] = file
    from rfl, hfile]
  simp only [hdrop, h.readOptions hlt extra, bind, Except.bind, config?_value cfg hlt]

/-! ## The documented trace -/

/-- `r` or `w` and a hexadecimal address, with what stands around them. -/
structure TraceLine where
  lead : List Char
  op : Op
  gap : List Char
  address : Numeral 16
  trail : List Char
  blank_lead : ∀ c ∈ lead, isspace c = true ∧ c ≠ '\n'
  blank_gap : ∀ c ∈ gap, isspace c = true ∧ c ≠ '\n'
  parted : ∀ c ∈ trail.head?, isspace c = true
  newline_not_mem : '\n' ∉ trail

def opChar : Op → Char
  | .read => 'r'
  | .write => 'w'

namespace TraceLine

variable (l : TraceLine)

/-- The address without its `0x` and with what follows it. -/
def text : List Char :=
  l.lead ++ opChar l.op :: (l.gap ++ '0' :: 'x' :: (l.address.text ++ l.trail))

def access : Op × Nat := (l.op, l.address.value)

theorem newline_not_mem_text : '\n' ∉ l.text := by
  have hop : opChar l.op ≠ '\n' := by cases l.op <;> decide
  simp only [text, List.mem_append, List.mem_cons, not_or]
  exact ⟨fun hc => (l.blank_lead _ hc).2 rfl, Ne.symm hop, fun hc => (l.blank_gap _ hc).2 rfl,
    by decide, by decide, l.address.not_mem rfl, l.newline_not_mem⟩

theorem readChar_eq : readChar l.text =
    some (opChar l.op, l.gap ++ '0' :: 'x' :: (l.address.text ++ l.trail)) := by
  have hop : isspace (opChar l.op) = false := by cases l.op <;> rfl
  rw [readChar, text, dropWhile_blank (fun c hc => (l.blank_lead c hc).1)
    fun c hc => by rw [← Option.some.inj hc, hop]]

theorem readString_eq : readString (l.gap ++ '0' :: 'x' :: (l.address.text ++ l.trail)) =
    some ('0' :: 'x' :: l.address.text) := by
  have hword : ∀ c ∈ '0' :: 'x' :: l.address.text, (!isspace c) = true := by
    intro c hc
    rcases List.mem_cons.mp hc with rfl | hc
    · rfl
    · rcases List.mem_cons.mp hc with rfl | hc
      · rfl
      · rw [isspace_of_isDigit (l.address.digits c hc)]
        rfl
  have htrail : l.trail.takeWhile (!isspace ·) = [] := by
    have hparted := l.parted
    cases htrail : l.trail with
    | nil => rfl
    | cons c trail =>
        rw [htrail] at hparted
        exact List.takeWhile_cons_of_neg (by rw [hparted c rfl]; decide)
  have htake : ('0' :: 'x' :: (l.address.text ++ l.trail)).takeWhile (!isspace ·) =
      '0' :: 'x' :: l.address.text := by
    rw [show '0' :: 'x' :: (l.address.text ++ l.trail) =
      ('0' :: 'x' :: l.address.text) ++ l.trail from rfl,
      List.takeWhile_append_of_pos hword, htrail, List.append_nil]
  rw [readString, dropWhile_blank (fun c hc => (l.blank_gap c hc).1)
    fun c hc => by rw [← Option.some.inj hc]; rfl]
  simp only [List.isEmpty_cons, Bool.false_eq_true, if_false, htake]

theorem readLine_eq : readLine l.text = some (opChar l.op, '0' :: 'x' :: l.address.text) := by
  simp only [readLine, l.readChar_eq, Option.bind_eq_bind, Option.bind_some, l.readString_eq]
  rfl

theorem strtoul_eq (h : l.address.value < 2 ^ 32) :
    strtoul (('0' :: 'x' :: l.address.text).drop 2) 16 = l.address.value := by
  have hhead := l.address.head_append []
  rw [List.append_nil] at hhead
  have hmag : magnitude l.address.text 16 = l.address.value := by
    have hscan := scanDigits_numeral l.address (Ends.nil 16)
    rw [List.append_nil] at hscan
    have hx : hexPrefixed l.address.text = false := by
      obtain ⟨c, rest, htext⟩ := List.exists_cons_of_ne_nil l.address.ne_nil
      rw [htext]
      refine Numeral.hexPrefixed_eq_false (Or.inr fun d hd => ?_)
      have hmem : d ∈ l.address.text := by
        rw [htext]
        exact List.mem_cons_of_mem _ (List.mem_of_mem_head? hd)
      constructor
      · rintro rfl
        exact absurd (l.address.digits _ hmem) (by decide)
      · rintro rfl
        exact absurd (l.address.digits _ hmem) (by decide)
    rw [magnitude, hx, if_neg (by simp), if_neg (by decide), hscan]
  rw [List.drop_succ_cons, List.drop_succ_cons, List.drop_zero, ← hmag]
  have hblank : ∀ c ∈ ([] : List Char), isspace c = true := fun _ hc => absurd hc List.not_mem_nil
  exact strtoul_unsigned hblank hhead (lt_of_eq_of_lt hmag (by omega))

end TraceLine

/-! ## What the programs print -/

/-- The loop over documented lines is the run of a simulator that takes a
step for each. -/
theorem traceLoop_lines {σ ε : Type} {step : σ → Char → Nat → Except ε σ}
    {run : σ → List (Op × Nat) → Except ε (List Outcome × σ)} (hnil : ∀ s, run s [] = .ok ([], s))
    (hcons : ∀ s op num rest r, run s ((op, num) :: rest) = .ok r →
      ∃ s' r', step s (opChar op) num = .ok s' ∧ run s' rest = .ok r' ∧ r'.2 = r.2)
    (rest : List (List Char)) :
    ∀ (lines : List TraceLine) {s : σ} {r : List Outcome × σ},
      (∀ l ∈ lines, l.address.value < 2 ^ 32) → run s (lines.map TraceLine.access) = .ok r →
      traceLoop step (lines.map TraceLine.text ++ rest) s = traceLoop step rest r.2
  | [], s, r, _, hrun => by
      rw [List.map_nil, hnil] at hrun
      cases hrun
      rfl
  | l :: lines, s, r, hlt, hrun => by
      obtain ⟨s', r', hstep, hrun', hr'⟩ := hcons s l.op l.address.value _ r hrun
      rw [← hr', ← traceLoop_lines hnil hcons rest lines
        (fun l' hl' => hlt l' (List.mem_cons_of_mem _ hl')) hrun', List.map_cons, List.cons_append,
        traceLoop]
      have hlen : ¬('0' :: 'x' :: l.address.text).length < 2 := by
        simp only [List.length_cons]
        omega
      simp only [l.readLine_eq, hlen, if_false, l.strtoul_eq (hlt l (List.mem_cons_self ..)), hstep]

theorem Cache.run_cons {cfg : Config} (c : Cache cfg) (op : Op) (num : Nat)
    (rest : List (Op × Nat)) (r : List Outcome × Cache cfg)
    (h : c.run ((op, num) :: rest) = .ok r) :
    ∃ c' r', c.step (opChar op) num = .ok c' ∧ c'.run rest = .ok r' ∧ r'.2 = r.2 := by
  obtain ⟨c', hacc, h⟩ := bind_eq_ok.mp h
  obtain ⟨r', hr', h⟩ := bind_eq_ok.mp h
  cases h
  refine ⟨c', r', ?_, hr', rfl⟩
  cases op <;> exact hacc

/-- Nothing is left, or a blank line is in the way. -/
def Stops (rest : List (List Char)) : Prop :=
  ∀ line ∈ rest.head?, ∀ c ∈ line, isspace c = true

theorem traceLoop_stops {σ ε : Type} (step : σ → Char → Nat → Except ε σ)
    {rest : List (List Char)} (h : Stops rest) (s : σ) :
    traceLoop step rest s = if rest = [] then .ok s else .error .commandFormat := by
  cases rest with
  | nil => rfl
  | cons line rest =>
      have hblank : line.dropWhile isspace = [] :=
        List.dropWhile_eq_nil_iff.mpr (h line rfl)
      have hread : readLine line = none := by
        simp only [readLine, readChar, hblank]
        rfl
      rw [if_neg (List.cons_ne_nil _ _), traceLoop, hread]

/-- The counts of the recency-list model. -/
def Config.rates (cfg : Config) (trace : List (Op × Nat)) : Rates where
  l1miss := ⟨(cfg.lru trace).1.countP (· ≠ .l1Hit), trace.length⟩
  l2miss := ⟨(cfg.lru trace).1.countP (· = .miss), (cfg.lru trace).1.countP (· ≠ .l1Hit)⟩
  accTimeAvg := ⟨((cfg.lru trace).1.map cfg.time).sum, trace.length⟩

/-- What is printed for a trace when `rest` comes after it. -/
def Config.printed (cfg : Config) (trace : List (Op × Nat)) (rest : List (List Char)) :
    Except Exit Rates :=
  if rest = [] then .ok (cfg.rates trace) else .error .commandFormat

theorem Counted.rates_eq {cfg : Config} {c : Cache cfg} {trace : List (Op × Nat)}
    (h : Counted (Cache.new cfg) c (cfg.lru trace).1) : c.rates = cfg.rates trace := by
  have hlen : (cfg.lru trace).1.length = trace.length := by
    rw [Config.lru, Contents.length_run, Config.blocks, List.length_map]
  have hnew : (Cache.new cfg).L1.missCount = 0 ∧ (Cache.new cfg).L1.accessCount = 0 ∧
      (Cache.new cfg).L2.missCount = 0 ∧ (Cache.new cfg).L2.accessCount = 0 ∧
      (Cache.new cfg).tAccessTotal = 0 := ⟨rfl, rfl, rfl, rfl, rfl⟩
  obtain ⟨h1, h2, h3, h4, h5⟩ := hnew
  simp only [Cache.rates, Config.rates, h.l1Miss, h.l1Access, h.l2Miss, h.l2Access, h.time, h1, h2,
    h3, h4, h5, hlen, Nat.zero_add]

end CacheSim

namespace RoySim

open CacheSim (Config opChar)

theorem State.run_cons {cfg : Config} (s : State cfg) (op : Op) (num : Nat)
    (rest : List (Op × Nat)) (r : List Outcome × State cfg)
    (h : s.run ((op, num) :: rest) = .ok r) :
    ∃ s' r', s.step (opChar op) num = .ok s' ∧ s'.run rest = .ok r' ∧ r'.2 = r.2 := by
  obtain ⟨s', hacc, h⟩ := bind_eq_ok.mp h
  obtain ⟨r', hr', h⟩ := bind_eq_ok.mp h
  cases h
  refine ⟨s', r', ?_, hr', rfl⟩
  cases op <;> exact hacc

theorem Counted.rates_eq {cfg : Config} {mem1 mem2 : Nat → Nat → Way} {s : State cfg}
    {trace : List (Op × Nat)} (h : Counted (State.init cfg mem1 mem2) s (cfg.lru trace).1)
    (hlen : trace.length < 2 ^ 31) (htime : ((cfg.lru trace).1.map cfg.time).sum < 2 ^ 32) :
    s.rates = cfg.rates trace := by
  have hos : (cfg.lru trace).1.length = trace.length := by
    rw [Config.lru, Contents.length_run, Config.blocks, List.length_map]
  have hle : ∀ p : Outcome → Bool, (cfg.lru trace).1.countP p ≤ trace.length := fun p =>
    hos ▸ List.countP_le_length
  have htotal : s.totalTime.toNat = ((cfg.lru trace).1.map cfg.time).sum := by
    rw [totalTime_eq h rfl rfl rfl, BitVec.toNat_ofNat, Nat.mod_eq_of_lt htime]
  simp only [State.rates, Config.rates, htotal, toInt_count h.l1Access (Nat.le_of_eq hos) hlen,
    toInt_count h.l1Miss (hle _) hlen, toInt_count h.l2Access (hle _) hlen,
    toInt_count h.l2Miss (hle _) hlen, toInt_count h.total (Nat.le_of_eq hos) hlen, hos]

end RoySim

namespace CacheSim

def smallOptions : List (Flag × Numeral 10) :=
  [(.MemCyc, .ofDec 9), (.BSize, .ofDec 2), (.WrAlloc, .ofDec 1),
    (.L1Size, .ofDec 3), (.L1Assoc, .ofDec 0), (.L1Cyc, .ofDec 1),
    (.L2Size, .ofDec 4), (.L2Assoc, .ofDec 1), (.L2Cyc, .ofDec 5)]

theorem describes_smallOptions :
    Describes smallOptions { smallConfig with memCyc := 9, l2Cyc := 5 } :=
  ⟨by decide, by
    simp only [smallOptions, List.forall_mem_cons]
    exact ⟨rfl, rfl, rfl, rfl, rfl, rfl, rfl, rfl, rfl, fun _ h => absurd h List.not_mem_nil⟩⟩

theorem blank_nil : ∀ c ∈ ([] : List Char), isspace c = true ∧ c ≠ '\n' :=
  fun _ hc => absurd hc List.not_mem_nil

theorem blank_space : ∀ c ∈ [' '], isspace c = true ∧ c ≠ '\n' :=
  fun _ hc => List.mem_singleton.mp hc ▸ ⟨rfl, by decide⟩

theorem isspace_return : ∀ c ∈ ['\r'].head?, isspace c = true :=
  fun _ hc => Option.some.inj hc ▸ rfl

theorem newline_not_mem_return : '\n' ∉ ['\r'] := by decide

/-- A line that ends in `\r`. -/
def smallLine (op : Op) (d : Nat) : TraceLine where
  lead := []
  op := op
  gap := [' ']
  address := .ofHex d
  trail := ['\r']
  blank_lead := blank_nil
  blank_gap := blank_space
  parted := isspace_return
  newline_not_mem := newline_not_mem_return

def smallLines : List TraceLine := [smallLine .write 0, smallLine .write 8, smallLine .read 1]

end CacheSim

end ArchSim
