import ArchSim.DataFlowMachine
import ArchSim.DataFlowText

/-!
# The dataflow program

`main` of `HW3/dflow_main.c`: the two files it reads, the analysis, and the
queries `p<number>` and `d<number>` of the command line. An argument is its
characters without the NUL, and a file system gives each name its text.

On files and queries of the documented format `main` prints the length of the
critical path and, one line a query in their order, the longest chain before
an instruction or its last writers, computed from the texts alone; the first
argument that is no query ends it (`main_answers`).
-/

namespace ArchSim

namespace DataFlow

open CString

/-! ## What is printed -/

/-- The lines that `main` prints itself; those of the functions that read the
files are left out. -/
inductive Report where
  | usage
  | readingLatencies (opFname : List Char)
  | gotLatencies (numOps : Int)
  | readingProgram (progName : List Char)
  | errorReading (progName : List Char)
  | found (progLen : Int)
  | progDepth (length : Int)
  | depth (instNum : Nat) (rc : Int)
  | depthError (rc : Int) (instNum : Nat)
  | deps (instNum : Nat) (src1Dep src2Dep : Int)
  | depsError (rc : Int) (instNum : Nat)
  | invalidNumber (arg : List Char)
  | invalidType (qType : Char) (arg : List Char)
deriving DecidableEq, Repr

def Report.text : Report → String
  | usage => "Usage: dflow_calc <opcodes info. filename> <program filename> [<Query> <Query>...]\n" ++
      "\tQuery: [p|d]<program line#> - Report [dependency depth| dependencies of this inst.]\n" ++
      "Example: dflow_calc opcode.dat example1.in d4 d7 p12\n"
  | readingLatencies opFname =>
      "Reading the opcodes latency info from " ++ String.ofList opFname ++ " ... "
  | gotLatencies numOps => "Got latency for " ++ toString numOps ++ " opcodes\n"
  | readingProgram progName =>
      "Reading the program file " ++ String.ofList progName ++ " ... "
  | errorReading progName => "Error reading program file " ++ String.ofList progName ++ "!\n"
  | found progLen => "Found " ++ toString progLen ++ " instructions\n"
  | progDepth length => "getProgDepth()==" ++ toString length ++ "\n"
  | .depth instNum rc => "getDepDepth(" ++ toString instNum ++ ")==" ++ toString rc ++ "\n"
  | depthError rc instNum =>
      "Error " ++ toString rc ++ " for getDepDepth(" ++ toString instNum ++ ")\n"
  | deps instNum src1Dep src2Dep =>
      "getInstDeps(" ++ toString instNum ++ ")==\x7b" ++ toString src1Dep ++ "," ++
        toString src2Dep ++ "\x7d\n"
  | depsError rc instNum =>
      "Error " ++ toString rc ++ " for getInstDeps(" ++ toString instNum ++ ")\n"
  | invalidNumber arg =>
      "Error: Invalid instruction number in the query: " ++ String.ofList arg ++ "\n"
  | invalidType qType arg =>
      "Invalid query type '" ++ String.singleton qType ++ "' in argument '" ++ String.ofList arg ++
        "'\n"

/-- How the process ends. -/
inductive Exit where
  | code (status : Nat)
  /-- An array or a string is left. -/
  | outOfBounds
deriving DecidableEq, Repr

/-! ## The queries -/

/-- One turn of the loop over the queries. -/
def query (ctx : ProgCtx) : List Char → Except (List Report × Exit) Report
  -- The number would start behind the end of the string.
  | [] => .error ([], .outOfBounds)
  | qType :: number =>
      let instNum := uint32 (strtol number 10)
      if strtolEnd number ≠ [] then .error ([.invalidNumber (qType :: number)], .code 3)
      else if qType = 'p' then
        let rc := getInstDepth ctx instNum
        .ok (if rc < 0 then .depthError rc instNum else .depth instNum rc)
      else if qType = 'd' then
        match getInstDeps ctx instNum with
        | (0, some (src1Dep, src2Dep)) => .ok (.deps instNum src1Dep src2Dep)
        | (rc, _) => .ok (.depsError rc instNum)
      else .error ([.invalidType qType (qType :: number)], .code 3)

def queries (ctx : ProgCtx) : List (List Char) → List Report × Exit
  | [] => ([], .code 0)
  | arg :: args =>
      match query ctx arg with
      | .error stopped => stopped
      | .ok report => (report :: (queries ctx args).1, (queries ctx args).2)

/-! ## The program -/

/-- An entry that has its place in the arrays of the analysis. -/
def InstFields.inst? (inst : InstFields) : Option InstInfo :=
  if h : inst.opcode.toNat < maxOps ∧ inst.dstIdx.toNat < numOfRegs ∧
      inst.src1Idx.toNat < numOfRegs ∧ inst.src2Idx.toNat < numOfRegs then
    some ⟨⟨_, h.1⟩, ⟨_, h.2.1⟩, ⟨_, h.2.2.1⟩, ⟨_, h.2.2.2⟩⟩
  else none

/-- The program that the analysis walks, if it stays within its arrays. -/
def progTrace? (progBuf : Nat → InstFields) (progLen : Nat) : Option (Nat → InstInfo) :=
  if ∀ i < progLen, (progBuf i).inst?.isSome then
    some fun i => (progBuf i).inst?.getD ⟨0, 0, 0, 0⟩
  else none

/-- `main` after `analyzeProg`. -/
def answerAll (ctx : ProgCtx) (args : List (List Char)) : List Report × Exit :=
  (.progDepth (getProgDepth ctx) :: (queries ctx args).1, (queries ctx args).2)

/-- `main` after the latencies have been read. -/
def analyzeFile (heap : Nat → InstFields) (files : List Char → Option (List Char)) (fuel : Nat)
    (opsLatency : Fin maxOps → Nat) (progName : List Char) (args : List (List Char)) :
    Option (List Report × Exit) :=
  match readProgram heap (files progName) with
  | .error _ => some ([], .outOfBounds)
  | .ok (progLen, theProg) =>
      if progLen ≤ 0 then some ([.errorReading progName], .code 1)
      else
        match theProg.bind (progTrace? · progLen.toNat) with
        | none => some ([.found progLen], .outOfBounds)
        | some progTrace =>
            (analyzeProg opsLatency progTrace fuel progLen.toNat).map fun ctx =>
              (.found progLen :: (answerAll ctx args).1, (answerAll ctx args).2)

/-- The reports of a run; `none` when the fuel of the analysis runs out. -/
def reports (heap : Nat → InstFields) (files : List Char → Option (List Char)) (fuel : Nat) :
    List (List Char) → Option (List Report × Exit)
  | _ :: opFname :: progName :: args =>
      if (readOpsLatency (files opFname)).1 < 0 then some ([.readingLatencies opFname], .code 1)
      else
        (analyzeFile heap files fuel (readOpsLatency (files opFname)).2 progName args).map
          fun result =>
            ([.readingLatencies opFname, .gotLatencies (readOpsLatency (files opFname)).1,
              .readingProgram progName] ++ result.1, result.2)
  | _ => some ([.usage], .code 1)

def printed (reports : List Report) : String := String.join (reports.map Report.text)

/-- What is printed, and how the process ends. -/
def main (heap : Nat → InstFields) (files : List Char → Option (List Char)) (fuel : Nat)
    (argv : List (List Char)) : Option (String × Exit) :=
  (reports heap files fuel argv).map fun result => (printed result.1, result.2)

/-! ## The table of latencies -/

/-- A line of the latency file: a number, or nothing, which stands for 0. -/
inductive LatLine where
  | blank (text : List Char) (hblank : ∀ c ∈ text, isspace c = true ∧ c ≠ '\n')
  | number (lead : Gap) (d : Decimal) (trail : Gap)

namespace LatLine

def text : LatLine → List Char
  | blank text _ => text
  | number lead d trail => lead.text ++ (d.text ++ trail.text)

def latency : LatLine → Nat
  | blank _ _ => 0
  | number _ d _ => uint32 d.value

end LatLine

/-- The latencies of the opcodes that have a line, and 0 for the others. -/
def tableOf (lines : List LatLine) (op : Fin maxOps) : Nat :=
  (lines[op.val]?.map LatLine.latency).getD 0

/-- A number among blanks. -/
theorem strtol_number {lead rest : List Char} (hlead : ∀ c ∈ lead, isspace c = true) (d : Decimal)
    (hrest : Ends 10 rest) :
    strtol (lead ++ (d.text ++ rest)) 10 = d.value ∧
      strtolEnd (lead ++ (d.text ++ rest)) = rest := by
  have hlt := d.lt
  have hmag : magnitude (d.digits.text ++ rest) 10 = d.digits.value := d.digits.magnitude_dec hrest
  have hfits : magnitude (d.digits.text ++ rest) 10 < 2 ^ 63 := by omega
  obtain ⟨hend, hend'⟩ := d.digits.strtolEnd_append hlead hrest
  unfold Decimal.text Decimal.value
  split
  · refine ⟨?_, hend'⟩
    rw [← hmag]
    exact strtol_negative hlead hfits
  · refine ⟨?_, hend⟩
    rw [← hmag]
    exact strtol_unsigned hlead (d.digits.head_append rest) hfits

theorem strtol_blank {text : List Char} (hblank : ∀ c ∈ text, isspace c = true) :
    strtol text 10 = 0 ∧ strtolEnd text = text := by
  have hdrop : text.dropWhile isspace = [] := List.dropWhile_eq_nil_iff.mpr hblank
  constructor
  · unfold strtol
    rw [hdrop]
    rfl
  · unfold strtolEnd
    rw [hdrop]
    rfl

namespace LatLine

/-- The newline, if the line has one, is a blank. -/
theorem strtol_text (line : LatLine) {eol : List Char} (heol : ∀ c ∈ eol, c = '\n') :
    uint32 (strtol (line.text ++ eol) 10) = line.latency ∧
      (strtolEnd (line.text ++ eol)).dropWhile isspace = [] := by
  have heol' : ∀ c ∈ eol, isspace c = true := by
    intro c hc
    rw [heol c hc]
    rfl
  cases line with
  | blank text hblank =>
      have hall : ∀ c ∈ text ++ eol, isspace c = true := List.forall_mem_append.mpr
        ⟨fun c hc => (hblank c hc).1, heol'⟩
      obtain ⟨hval, hend⟩ := strtol_blank hall
      refine ⟨congrArg uint32 hval, ?_⟩
      rw [LatLine.text, hend]
      exact List.dropWhile_eq_nil_iff.mpr hall
  | number lead d trail =>
      have hall : ∀ c ∈ trail.text ++ eol, isspace c = true := List.forall_mem_append.mpr
        ⟨trail.isspace, heol'⟩
      have hends : Ends 10 (trail.text ++ eol) := by
        intro c hc
        rw [Bool.eq_false_iff]
        intro hdigit
        have hspace := isspace_of_isDigit hdigit
        rw [hall c (List.mem_of_mem_head? hc)] at hspace
        cases hspace
      obtain ⟨hval, hend⟩ := strtol_number lead.isspace d hends
      have htext : (number lead d trail).text ++ eol =
          lead.text ++ (d.text ++ (trail.text ++ eol)) := by
        rw [LatLine.text, List.append_assoc, List.append_assoc]
      rw [htext, hval, hend]
      exact ⟨rfl, List.dropWhile_eq_nil_iff.mpr hall⟩

theorem newline_not_mem (line : LatLine) : '\n' ∉ line.text := by
  cases line with
  | blank text hblank => exact fun hmem => (hblank _ hmem).2 rfl
  | number lead d trail =>
      intro hmem
      rcases List.mem_append.mp hmem with h | h
      · rcases lead.mem _ h with h | h <;> cases h
      · rcases List.mem_append.mp h with h | h
        · exact d.not_mem_delims h (by decide)
        · rcases trail.mem _ h with h | h <;> cases h

end LatLine

/-- The first line of the rest fills the next place of the table. -/
theorem table_cons (line : LatLine) (lines : List LatLine) {numOps : Nat}
    (hnum : numOps < maxOps) (opsLatency : Fin maxOps → Nat) (op : Fin maxOps) :
    (if op.val < numOps + 1 then
        Function.update opsLatency ⟨numOps, hnum⟩ line.latency op
      else (lines[op.val - (numOps + 1)]?.map LatLine.latency).getD
        (Function.update opsLatency ⟨numOps, hnum⟩ line.latency op)) =
      if op.val < numOps then opsLatency op
      else ((line :: lines)[op.val - numOps]?.map LatLine.latency).getD (opsLatency op) := by
  rcases Nat.lt_trichotomy op.val numOps with hlt | heq | hgt
  · have hne : op ≠ ⟨numOps, hnum⟩ := Fin.ne_of_val_ne (Nat.ne_of_lt hlt)
    rw [if_pos (Nat.lt_succ_of_lt hlt), if_pos hlt, Function.update_of_ne hne]
  · obtain rfl : op = ⟨numOps, hnum⟩ := Fin.ext heq
    rw [if_pos (Nat.lt_succ_self _), if_neg (Nat.lt_irrefl _), Function.update_self, Nat.sub_self]
    rfl
  · have hne : op ≠ ⟨numOps, hnum⟩ := Fin.ne_of_val_ne (Nat.ne_of_gt hgt)
    obtain ⟨k, hk⟩ := Nat.exists_eq_add_of_lt hgt
    have hnew : op.val - (numOps + 1) = k := by omega
    have hold : op.val - numOps = k + 1 := by omega
    rw [if_neg (by omega), if_neg (by omega), Function.update_of_ne hne, hnew, hold,
      List.getElem?_cons_succ]

/-- The lines from the first one on go to the entries from `numOps` on. -/
theorem readLatencies_text {lines : List LatLine} (hlen : ∀ line ∈ lines, line.text.length ≤ 79) :
    ∀ {file : List Char} {numOps : Nat} {opsLatency : Fin maxOps → Nat},
      IsText (lines.map LatLine.text) file → numOps + lines.length ≤ maxOps →
      readLatencies (fgets lineSize file) numOps opsLatency =
        (((numOps + lines.length : Nat) : Int), fun op =>
          if op.val < numOps then opsLatency op
          else (lines[op.val - numOps]?.map LatLine.latency).getD (opsLatency op)) := by
  induction lines with
  | nil =>
      intro file numOps opsLatency htext _
      cases htext
      refine Prod.ext rfl (funext fun op => ?_)
      change opsLatency op = if op.val < numOps then opsLatency op else opsLatency op
      rw [ite_self]
  | cons line lines ih =>
      intro file numOps opsLatency htext hroom
      obtain ⟨hline, hrest⟩ := List.forall_mem_cons.mp hlen
      rw [List.length_cons] at hroom
      have hnum : numOps < maxOps := by omega
      -- The string of the first line, with or without its newline.
      have hstep : ∀ (eol : List Char) (pieces : List (List Char)), (∀ c ∈ eol, c = '\n') →
          readLatencies ((line.text ++ eol) :: pieces) numOps opsLatency =
            readLatencies pieces (numOps + 1)
              (Function.update opsLatency ⟨numOps, hnum⟩ line.latency) := by
        intro eol pieces heol
        obtain ⟨hval, hend⟩ := line.strtol_text heol
        rw [readLatencies, dif_pos hnum]
        simp only [hval, hend, if_true]
      obtain ⟨eol, rest, heol, hpieces, htext'⟩ := htext.fgets_cons line.newline_not_mem
        (show line.text.length + 1 < lineSize by simp only [lineSize]; omega)
      rw [hpieces, hstep eol _ heol, ih hrest htext' (by omega)]
      refine Prod.ext (congrArg Nat.cast ?_) (funext (table_cons line lines hnum opsLatency))
      rw [List.length_cons]
      omega

/-- A file of at most 32 lines gives its table. -/
theorem readOpsLatency_text {lines : List LatLine} {file : List Char}
    (htext : IsText (lines.map LatLine.text) file) (hlines : lines.length ≤ maxOps)
    (hlen : ∀ line ∈ lines, line.text.length ≤ 79) :
    readOpsLatency (some file) = (((lines.length : Nat) : Int), tableOf lines) := by
  rw [readOpsLatency, readLatencies_text hlen htext (by omega), Nat.zero_add]
  exact congrArg (Prod.mk _) (funext fun op => if_neg (Nat.not_lt_zero op.val))


/-! ## The files -/

/-- The program of the file. -/
def progOf (lines : List ProgLine) (i : Nat) : InstInfo :=
  ((instsOf lines)[i]?.bind InstFields.inst?).getD ⟨0, 0, 0, 0⟩

/-- A latency file and a program file of the documented format, with opcodes
and registers that the processor has. -/
structure Readable (lats : List LatLine) (lines : List ProgLine) (opFile progFile : List Char) :
    Prop where
  ops : IsText (lats.map LatLine.text) opFile
  numOps : lats.length ≤ maxOps
  lineLength : ∀ line ∈ lats, line.text.length ≤ 79
  prog : IsText (lines.map ProgLine.text) progFile
  comments : ∀ line ∈ lines, line.IsComment →
    ∀ piece ∈ fgets lineSize line.text, isIgnored piece = true
  nonempty : instsOf lines ≠ []
  length : (instsOf lines).length < 2 ^ 31
  inRange : ∀ inst ∈ instsOf lines, inst.inst?.isSome = true

namespace Readable

variable {lats : List LatLine} {lines : List ProgLine} {opFile progFile : List Char}

/-- `readProgram` returns a buffer that begins with the instructions. -/
theorem readProgram_eq (h : Readable lats lines opFile progFile) (heap : Nat → InstFields) :
    ∃ progBuf, readProgram heap (some progFile) =
        .ok (((instsOf lines).length : Nat), some progBuf) ∧
      ∀ k < (instsOf lines).length, (instsOf lines)[k]? = some (progBuf k) := by
  have hstart : Holds [] { lineNum := 0, maxInsts := 0, progBuf := heap } :=
    ⟨Nat.le_refl 0, rfl, fun k hk => absurd hk (Nat.not_lt_zero k)⟩
  have hlen := h.length
  have hpos : 0 < (instsOf lines).length := List.length_pos_of_ne_nil h.nonempty
  obtain ⟨s, hrun, hs⟩ := hstart.readText
    (fun line hline hc => readCount_eq_zero.mpr (h.comments line hline hc)) h.prog
    (by rwa [List.length_nil, Nat.zero_add])
  rw [List.nil_append] at hs
  have hnum : wrap s.lineNum = (instsOf lines).length := by
    rw [hs.lineNum, wrap_of_lt (Nat.lt_trans hlen (by decide))]
  have hroom : s.maxInsts ≠ 0 := by
    have hfits := hs.fits
    rw [ProgBuf.Fits, hnum] at hfits
    omega
  have hrun' : readLines heap (fgets lineSize progFile) = .ok s := hrun
  refine ⟨s.progBuf, ?_, hs.entries⟩
  rw [readProgram]
  simp only [hrun', hnum, int32_of_lt hlen, if_neg hroom]

/-- The program that is analyzed is the one of the file. -/
theorem progTrace_eq (h : Readable lats lines opFile progFile) {progBuf : Nat → InstFields}
    (hbuf : ∀ k < (instsOf lines).length, (instsOf lines)[k]? = some (progBuf k)) :
    ∃ progTrace, progTrace? progBuf (instsOf lines).length = some progTrace ∧
      ∀ k < (instsOf lines).length, progTrace k = progOf lines k := by
  have hsome : ∀ k < (instsOf lines).length, (progBuf k).inst?.isSome = true := fun k hk =>
    h.inRange _ (List.mem_of_getElem? (hbuf k hk))
  refine ⟨_, if_pos hsome, fun k hk => ?_⟩
  rw [progOf, hbuf k hk]
  rfl

end Readable

/-- The analysis reads the instructions of the program only. -/
theorem analyzeProg_congr {opsLatency : Fin maxOps → Nat} {progTrace progTrace' : Nat → InstInfo}
    {n : Nat} (h : ∀ i < n, progTrace i = progTrace' i) (fuel : Nat) :
    analyzeProg opsLatency progTrace fuel n = analyzeProg opsLatency progTrace' fuel n := by
  have hloop : (List.range n).foldl (initNode opsLatency progTrace) (start n) =
      (List.range n).foldl (initNode opsLatency progTrace') (start n) := by
    refine List.foldl_ext _ _ _ fun flow i hi => ?_
    rw [initNode, initNode, h i (List.mem_range.mp hi)]
  have hnum : (start n).numOfInsts = n := rfl
  rw [analyzeProg, analyzeProg, initData, initData, hnum, hloop]

/-! ## The answers -/

/-- A query of the documented format. -/
inductive Query where
  | depth (number : Decimal)
  | deps (number : Decimal)

namespace Query

def text : Query → List Char
  | .depth number => 'p' :: number.text
  | .deps number => 'd' :: number.text

/-- The number as the `unsigned` that it is stored in. -/
def instNum : Query → Nat
  | .depth number => uint32 number.value
  | .deps number => uint32 number.value

/-- What a query asks for: the latency of the longest chain before the
instruction, or the last writers of its sources; or that there is none. -/
def Answered (opsLatency : Fin maxOps → Nat) (progTrace : Nat → InstInfo) (n : Nat) (q : Query)
    (report : Report) : Prop :=
  match q with
  | .depth _ =>
      if q.instNum < n then
        ∃ d : Int, report = .depth q.instNum d ∧
          IsGreatest {d : Int | ∃ l, List.IsChain (DependsOn progTrace) (q.instNum :: l) ∧
            d = chainLatency opsLatency progTrace l} d
      else report = .depthError NONE q.instNum
  | .deps _ =>
      if q.instNum < n then
        ∃ dep1 dep2, report = .deps q.instNum dep1 dep2 ∧
          IsSource progTrace (progTrace q.instNum).src1Idx q.instNum dep1 ∧
          IsSource progTrace (progTrace q.instNum).src2Idx q.instNum dep2
      else report = .depsError NONE q.instNum

end Query

/-- An argument that is no query, and what is said about it. -/
inductive Malformed : List Char → Report → Prop
  | number {qType : Char} {number : List Char} (h : strtolEnd number ≠ []) :
      Malformed (qType :: number) (.invalidNumber (qType :: number))
  | type {qType : Char} {number : List Char} (h : strtolEnd number = []) (hp : qType ≠ 'p')
      (hd : qType ≠ 'd') : Malformed (qType :: number) (.invalidType qType (qType :: number))

section Answers

variable {opsLatency : Fin maxOps → Nat} {progTrace : Nat → InstInfo} {n : Nat} {ctx : ProgCtx}

theorem Malformed.query_eq {arg : List Char} {report : Report} (h : Malformed arg report) :
    query ctx arg = .error ([report], .code 3) := by
  cases h with
  | number h => exact if_pos h
  | type h hp hd =>
      rw [query]
      simp only [h, ne_eq, not_true, if_false, hp, hd]

theorem query_depth (number : Decimal) {rc : Int}
    (hrc : getInstDepth ctx (uint32 number.value) = rc) :
    query ctx ('p' :: number.text) = .ok (if rc < 0 then .depthError rc (uint32 number.value)
      else .depth (uint32 number.value) rc) := by
  obtain ⟨hval, hend⟩ := number.strtol_text
  rw [query]
  simp only [hval, hend, ne_eq, not_true, if_false, if_true, hrc]

/-- The two calls of `getInstDeps` that there are. -/
theorem query_deps (number : Decimal) :
    (∀ dep1 dep2, getInstDeps ctx (uint32 number.value) = (0, some (dep1, dep2)) →
      query ctx ('d' :: number.text) = .ok (.deps (uint32 number.value) dep1 dep2)) ∧
    (getInstDeps ctx (uint32 number.value) = (NONE, none) →
      query ctx ('d' :: number.text) = .ok (.depsError NONE (uint32 number.value))) := by
  obtain ⟨hval, hend⟩ := number.strtol_text
  have hd : ('d' : Char) ≠ 'p' := by decide
  constructor
  · intro dep1 dep2 hrc
    rw [query]
    simp only [hval, hend, ne_eq, not_true, if_false, if_true, hd, hrc]
  · intro hrc
    rw [query]
    simp only [hval, hend, ne_eq, not_true, if_false, if_true, hd, hrc, NONE]

/-- What `main` prints for a query is its answer. -/
theorem query_text (h : Analyzed opsLatency progTrace n ctx)
    (hsum : ∑ i ∈ Finset.range n, opsLatency (progTrace i).opcode < 2 ^ 31) (q : Query) :
    ∃ report, query ctx q.text = .ok report ∧ q.Answered opsLatency progTrace n report := by
  rcases Nat.lt_or_ge q.instNum n with hlt | hge
  · cases q with
    | depth number =>
        have hrc := (h.visited hsum).getInstDepth_eq hsum hlt
        refine ⟨_, query_depth number hrc, ?_⟩
        rw [Query.Answered, if_pos hlt, if_neg (Int.not_lt.mpr (Int.natCast_nonneg _))]
        exact ⟨_, rfl, isGreatest_chainLatency _⟩
    | deps number =>
        refine ⟨_, (query_deps number).1 _ _ (h.getInstDeps_eq hlt), ?_⟩
        rw [Query.Answered, if_pos hlt]
        exact ⟨_, _, rfl, isSource_lastWriter _ _, isSource_lastWriter _ _⟩
  · have hlt : ¬q.instNum < n := Nat.not_lt.mpr hge
    cases q with
    | depth number =>
        have hrc : getInstDepth ctx (uint32 number.value) = NONE := by
          rw [getInstDepth, h.numOfInsts]
          exact if_pos hge
        refine ⟨_, query_depth number hrc, ?_⟩
        rw [Query.Answered, if_neg hlt]
        rfl
    | deps number =>
        have hrc : getInstDeps ctx (uint32 number.value) = (NONE, none) := by
          rw [getInstDeps, h.numOfInsts]
          exact if_pos hge
        refine ⟨_, (query_deps number).2 hrc, ?_⟩
        rw [Query.Answered, if_neg hlt]
        rfl

/-- The queries are answered in their order, up to an argument that is none. -/
theorem queries_text (h : Analyzed opsLatency progTrace n ctx)
    (hsum : ∑ i ∈ Finset.range n, opsLatency (progTrace i).opcode < 2 ^ 31) (qs : List Query) :
    ∃ answers, List.Forall₂ (Query.Answered opsLatency progTrace n) qs answers ∧
      queries ctx (qs.map Query.text) = (answers, .code 0) ∧
      ∀ bad report rest, Malformed bad report →
        queries ctx (qs.map Query.text ++ bad :: rest) = (answers ++ [report], .code 3) := by
  induction qs with
  | nil =>
      refine ⟨[], .nil, rfl, fun bad report rest hbad => ?_⟩
      rw [List.map_nil, List.nil_append, queries, hbad.query_eq]
      rfl
  | cons q qs ih =>
      obtain ⟨answers, hanswers, hall, hbad⟩ := ih
      obtain ⟨report, hq, hanswer⟩ := query_text h hsum q
      refine ⟨report :: answers, .cons hanswer hanswers, ?_, fun bad stopped rest hstop => ?_⟩
      · rw [List.map_cons, queries, hq, hall]
      · rw [List.map_cons, List.cons_append, queries, hq, hbad bad stopped rest hstop]
        rfl

/-- The critical path of the program. -/
theorem isGreatest_getProgDepth (h : Analyzed opsLatency progTrace n ctx)
    (hsum : ∑ i ∈ Finset.range n, opsLatency (progTrace i).opcode < 2 ^ 31) (hn : 1 ≤ n) :
    IsGreatest {d : Int | ∃ i < n, ∃ l, List.IsChain (DependsOn progTrace) (i :: l) ∧
      d = chainLatency opsLatency progTrace (i :: l)} (getProgDepth ctx) := by
  have hcons : ∀ i l, (chainLatency opsLatency progTrace (i :: l) : Int) =
      chainLatency opsLatency progTrace l + opsLatency (progTrace i).opcode := by
    intro i l
    rw [chainLatency, List.map_cons, List.sum_cons, Nat.add_comm, Int.natCast_add]
    rfl
  have hfinish : ∀ i, (finish opsLatency progTrace i : Int) =
      (graph opsLatency progTrace).depth i + opsLatency (progTrace i).opcode := fun _ => rfl
  obtain ⟨⟨i, hi, hmax⟩, hupper⟩ := (h.visited hsum).isGreatest_maxDepth hn
  constructor
  · obtain ⟨⟨l, hl, hd⟩, -⟩ := @isGreatest_chainLatency opsLatency progTrace i
    refine ⟨i, hi, l, hl, ?_⟩
    rw [hcons, ← hd, ← hfinish]
    exact hmax
  · rintro d ⟨j, hj, l, hl, rfl⟩
    refine Int.le_trans ?_ (hupper ⟨j, hj, rfl⟩)
    rw [hcons, hfinish]
    exact Int.add_le_add_right (isGreatest_chainLatency j |>.2 ⟨l, hl, rfl⟩) _

end Answers

/-! ## The whole run -/

/-- The reports before the answers. -/
def opening (opFname progName : List Char) (numOps progLen : Nat) (length : Int) : List Report :=
  [.readingLatencies opFname, .gotLatencies numOps, .readingProgram progName, .found progLen,
    .progDepth length]

section Run

variable {lats : List LatLine} {lines : List ProgLine} {opFile progFile : List Char}

/-- On readable files `main` gets to the queries. -/
theorem Readable.reports_eq (h : Readable lats lines opFile progFile)
    {fuel : Nat} (hfuel : (instsOf lines).length < fuel) :
    ∃ ctx, Analyzed (tableOf lats) (progOf lines) (instsOf lines).length ctx ∧
      ∀ (heap : Nat → InstFields) (files : List Char → Option (List Char))
        (name opFname progName : List Char) (args : List (List Char)),
        files opFname = some opFile → files progName = some progFile →
        main heap files fuel (name :: opFname :: progName :: args) =
          some (printed (opening opFname progName lats.length (instsOf lines).length
            (getProgDepth ctx) ++ (queries ctx args).1), (queries ctx args).2) := by
  have hlen := h.length
  have hpos : 0 < (instsOf lines).length := List.length_pos_of_ne_nil h.nonempty
  obtain ⟨ctx, hrun, hctx⟩ : ∃ ctx, analyzeProg (tableOf lats) (progOf lines) fuel
      (instsOf lines).length = some ctx ∧
      Analyzed (tableOf lats) (progOf lines) (instsOf lines).length ctx :=
    analyzeProg_analyzed (Nat.le_of_lt hlen) hfuel
  refine ⟨ctx, hctx, fun heap files name opFname progName args hop hprog => ?_⟩
  obtain ⟨progBuf, hread, hbuf⟩ := h.readProgram_eq heap
  obtain ⟨progTrace, htrace, hsame⟩ := h.progTrace_eq hbuf
  have hanalyze : analyzeProg (tableOf lats) progTrace fuel (instsOf lines).length = some ctx := by
    rw [analyzeProg_congr hsame, hrun]
  have hfile : analyzeFile heap files fuel (tableOf lats) progName args =
      some (.found (instsOf lines).length :: (answerAll ctx args).1, (answerAll ctx args).2) := by
    rw [analyzeFile, hprog, hread]
    simp only [Option.bind_some, Int.toNat_natCast, htrace, hanalyze, Option.map_some]
    exact if_neg (by omega)
  rw [main, reports, hop, readOpsLatency_text h.ops h.numOps h.lineLength, hfile]
  simp only [if_neg (Int.not_lt.mpr (Int.natCast_nonneg lats.length)), Option.map_some]
  rfl

/-- A run over readable files prints the critical path and the answers to the
queries, and nothing after an argument that is no query. -/
theorem main_answers (h : Readable lats lines opFile progFile)
    (hsum : ∑ i ∈ Finset.range (instsOf lines).length,
      tableOf lats (progOf lines i).opcode < 2 ^ 31)
    (heap : Nat → InstFields) {files : List Char → Option (List Char)}
    (name : List Char) {opFname progName : List Char} (hop : files opFname = some opFile)
    (hprog : files progName = some progFile) {fuel : Nat}
    (hfuel : (instsOf lines).length < fuel) :
    ∃ length, IsGreatest {d : Int | ∃ i < (instsOf lines).length, ∃ l,
        List.IsChain (DependsOn (progOf lines)) (i :: l) ∧
          d = chainLatency (tableOf lats) (progOf lines) (i :: l)} length ∧
      ∀ qs : List Query, ∃ answers, List.Forall₂
        (Query.Answered (tableOf lats) (progOf lines) (instsOf lines).length) qs answers ∧
        main heap files fuel (name :: opFname :: progName :: qs.map Query.text) =
          some (printed (opening opFname progName lats.length (instsOf lines).length length ++
            answers), .code 0) ∧
        ∀ bad report rest, Malformed bad report →
          main heap files fuel
              (name :: opFname :: progName :: (qs.map Query.text ++ bad :: rest)) =
            some (printed (opening opFname progName lats.length (instsOf lines).length length ++
              answers ++ [report]), .code 3) := by
  obtain ⟨ctx, hctx, hmain⟩ := h.reports_eq hfuel
  refine ⟨getProgDepth ctx,
    isGreatest_getProgDepth hctx hsum (List.length_pos_of_ne_nil h.nonempty), fun qs => ?_⟩
  obtain ⟨answers, hanswers, hall, hbad⟩ := queries_text hctx hsum qs
  refine ⟨answers, hanswers, ?_, fun bad report rest hmalformed => ?_⟩
  · rw [hmain heap files name opFname progName _ hop hprog, hall]
  · rw [hmain heap files name opFname progName _ hop hprog, hbad bad report rest hmalformed,
      List.append_assoc]

end Run

theorem isDigit_three : isDigit 10 '3' = true := rfl

theorem isBlank_nil : ∀ c ∈ ([] : List Char), isspace c = true ∧ c ≠ '\n' :=
  List.forall_mem_nil _

/-- An empty line, and the latency 3. -/
def smallLats : List LatLine :=
  [.blank [] isBlank_nil, .number (gap 0) (decimal '3' isDigit_three) (gap 1)]

/-- The file `o` of the latencies, and the file `p` of the program. -/
def smallFiles (name : List Char) : Option (List Char) :=
  if name = ['o'] then some ((smallLats.map LatLine.text).flatMap fun line => line ++ ['\n'])
  else if name = ['p'] then
    some ((smallLines.map ProgLine.text).flatMap fun line => line ++ ['\n'])
  else none

theorem smallFiles_names :
    smallFiles ['o'] = some ((smallLats.map LatLine.text).flatMap fun line => line ++ ['\n']) ∧
      smallFiles ['p'] =
        some ((smallLines.map ProgLine.text).flatMap fun line => line ++ ['\n']) :=
  ⟨rfl, rfl⟩

theorem readable_smallLines : Readable smallLats smallLines
    ((smallLats.map LatLine.text).flatMap fun line => line ++ ['\n'])
    ((smallLines.map ProgLine.text).flatMap fun line => line ++ ['\n']) where
  ops := isText_flatMap _
  numOps := by decide
  lineLength := by decide
  prog := isText_flatMap _
  comments := by
    intro line hline _
    simp only [smallLines, List.mem_cons, List.not_mem_nil, or_false] at hline
    rcases hline with rfl | rfl
    · decide
    · contradiction
  nonempty := List.cons_ne_nil _ _
  length := by decide
  inRange := by decide

theorem main_answers_smallLines :
    ∃ length, IsGreatest {d : Int | ∃ i < (instsOf smallLines).length, ∃ l,
        List.IsChain (DependsOn (progOf smallLines)) (i :: l) ∧
          d = chainLatency (tableOf smallLats) (progOf smallLines) (i :: l)} length ∧
      ∀ qs : List Query, ∃ answers, List.Forall₂ (Query.Answered (tableOf smallLats)
          (progOf smallLines) (instsOf smallLines).length) qs answers ∧
        main (fun _ => ⟨0, 0, 0, 0⟩) smallFiles 2 ([] :: ['o'] :: ['p'] :: qs.map Query.text) =
          some (printed (opening ['o'] ['p'] smallLats.length (instsOf smallLines).length length ++
            answers), .code 0) ∧
        ∀ bad report rest, Malformed bad report →
          main (fun _ => ⟨0, 0, 0, 0⟩) smallFiles 2
              ([] :: ['o'] :: ['p'] :: (qs.map Query.text ++ bad :: rest)) =
            some (printed (opening ['o'] ['p'] smallLats.length (instsOf smallLines).length length ++
              answers ++ [report]), .code 3) :=
  main_answers readable_smallLines (by decide) (fun _ => ⟨0, 0, 0, 0⟩) [] smallFiles_names.1
    smallFiles_names.2 (show (instsOf smallLines).length < 2 by decide)

end DataFlow

end ArchSim
