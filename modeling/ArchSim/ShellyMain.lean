import ArchSim.ShellyRefine

/-!
# The third cache program

`main` of `HW2/cacheSimShelly.cpp`. It reads its arguments and its trace as the
other two programs do, but prints the rates after every line of the trace and
once more at the end, and a rate keeps its value as long as its denominator is
zero.

Where L2 has room for the blocks of a documented trace, each of the reports is
the one that the first program would give for the trace so far
(`main_prints_each_line`).
-/

namespace ArchSim

namespace ShellySim

open CString CacheSim

/-- The variables `L1MissRate`, `L2MissRate` and `avgAccTime` once they have
been computed anew. -/
def Memory.rates {cfg : Config} (m : Memory cfg) (old : Rates) : Rates where
  l1miss := if m.accessCountL1 = 0 then old.l1miss else ⟨m.missCountL1.toNat, m.accessCountL1.toNat⟩
  l2miss := if m.accessCountL2 = 0 then old.l2miss else ⟨m.missCountL2.toNat, m.accessCountL2.toNat⟩
  accTimeAvg := ⟨m.totalTime.toNat, m.accessCountL1.toNat⟩

/-- What has been printed, and how the program ends if not with `return 0` at
its end. -/
structure Output where
  printed : List Rates
  exit : Option Exit
deriving DecidableEq, Repr

/-- The loop over the lines, and what is printed after it. -/
def printLoop {cfg : Config} : List (List Char) → Memory cfg → Rates → Output
  | [], m, old => ⟨[m.rates old], none⟩
  | line :: lines, m, old =>
      match readLine line with
      | none => ⟨[], some .commandFormat⟩
      | some (operation, address) =>
          if address.length < 2 then ⟨[], some .outOfRange⟩
          else
            match m.calcOperation (strtoul (address.drop 2) 16) operation with
            | .error _ => ⟨[], some .fault⟩
            | .ok m =>
                let output := printLoop lines m (m.rates old)
                ⟨m.rates old :: output.printed, output.exit⟩

/-- The initial values of the three variables. -/
def noRates : Rates where
  l1miss := ⟨0, 1⟩
  l2miss := ⟨0, 1⟩
  accTimeAvg := ⟨0, 1⟩

def simulate (cfg : Config) (lines : List (List Char)) : Except Exit Output :=
  .ok (printLoop lines (Memory.new cfg) noRates)

/-- `main` of `cacheSimShelly.cpp`. -/
def main (files : List Char → Option (List Char)) (argv : List (List Char)) :
    Except Exit Output :=
  program simulate files argv

variable {cfg : Config}

/-! ## One report -/

/-- The last operation of a run is one from where the run without it ends. -/
theorem Memory.run_snoc {op : Char} {a : Nat} :
    ∀ {ops : List (Char × Nat)} {m s s' : Memory cfg} {os os' : List Outcome},
      m.run ops = .ok (os, s) → m.run (ops ++ [(op, a)]) = .ok (os', s') →
      s.calcOperation a op = .ok s'
  | [], m, s, s', os, os', h, h' => by
      cases h
      obtain ⟨m', hcalc, h'⟩ := bind_eq_ok.mp h'
      cases h'
      exact hcalc
  | x :: ops, m, s, s', os, os', h, h' => by
      obtain ⟨m₁, hcalc, hrest⟩ := bind_eq_ok.mp h
      obtain ⟨r, hrun, hr⟩ := bind_eq_ok.mp hrest
      obtain ⟨m₂, hcalc', hrest'⟩ := bind_eq_ok.mp h'
      obtain ⟨r', hrun', hr'⟩ := bind_eq_ok.mp hrest'
      obtain rfl := Except.ok.inj (hcalc.symm.trans hcalc')
      cases hr
      cases hr'
      exact run_snoc hrun hrun'

/-- The first access of a trace is a miss. -/
theorem lru_not_all_hits {trace : List (Op × Nat)} (hne : trace ≠ []) :
    0 < (cfg.lru trace).1.countP (· ≠ .l1Hit) := by
  obtain ⟨a, rest, rfl⟩ := List.exists_cons_of_ne_nil hne
  have hmiss : (Contents.empty : Contents Nat Nat Nat).lookup cfg.hierarchy (cfg.block a.2) =
      .miss := by simp [Contents.lookup, Resident, Contents.empty]
  refine List.countP_pos_iff.mpr ⟨.miss, ?_, rfl⟩
  rw [Config.lru, Config.blocks, List.map_cons, Contents.run, hmiss]
  exact List.mem_cons_self ..

/-- After a trace that the other programs find the same in, the rates are
those that they print. -/
theorem Counted.rates_eq {s : Memory cfg} {trace : List (Op × Nat)}
    (h : Counted (Memory.new cfg) s (cfg.lru trace).1) (hne : trace ≠ [])
    (hlen : trace.length < 2 ^ 32) (htime : ((cfg.lru trace).1.map cfg.time).sum < 2 ^ 32)
    (old : Rates) : s.rates old = cfg.rates trace := by
  have hos : (cfg.lru trace).1.length = trace.length := by
    rw [Config.lru, Contents.length_run, Config.blocks, List.length_map]
  have hle : ∀ p : Outcome → Bool, (cfg.lru trace).1.countP p < 2 ^ 32 := fun p =>
    Nat.lt_of_le_of_lt (List.countP_le_length.trans hos.le) hlen
  have htoNat : ∀ {x : BitVec 32} {n : Nat}, x = 0 + BitVec.ofNat 32 n → n < 2 ^ 32 →
      x.toNat = n := by
    intro x n hx hn
    rw [hx, show (0 : BitVec 32) = 0#32 from rfl, BitVec.zero_add, BitVec.toNat_ofNat,
      Nat.mod_eq_of_lt hn]
  have h1 := htoNat h.l1Access (hos.symm ▸ hlen)
  have h2 := htoNat h.l1Miss (hle _)
  have h3 := htoNat h.l2Access (hle _)
  have h4 := htoNat h.l2Miss (hle _)
  have hpos₁ : s.accessCountL1 ≠ 0 := fun hzero => by
    rw [hzero, hos] at h1
    exact hne (List.length_eq_zero_iff.mp h1.symm)
  have hpos₂ : s.accessCountL2 ≠ 0 := fun hzero => by
    rw [hzero] at h3
    exact Nat.ne_of_gt (lru_not_all_hits hne) h3.symm
  have htotal : s.totalTime.toNat = ((cfg.lru trace).1.map cfg.time).sum := by
    rw [totalTime_eq h rfl rfl rfl, BitVec.toNat_ofNat, Nat.mod_eq_of_lt htime]
  simp only [Memory.rates, if_neg hpos₁, if_neg hpos₂, h1, h2, h3, h4, htotal, hos, Config.rates]

/-! ## The loop -/

/-- The run on a trace does not fail and leaves the rates of the other programs. -/
def Reported (cfg : Config) (trace : List (Op × Nat)) : Prop :=
  ∃ os s, (Memory.new cfg).run (operations trace) = .ok (os, s) ∧
    (trace ≠ [] → ∀ old, s.rates old = cfg.rates trace)

theorem printLoop_stops {rest : List (List Char)} (h : Stops rest) (m : Memory cfg) (old : Rates) :
    printLoop rest m old =
      if rest = [] then ⟨[m.rates old], none⟩ else ⟨[], some .commandFormat⟩ := by
  cases rest with
  | nil => rfl
  | cons line rest =>
      have hblank : line.dropWhile isspace = [] :=
        List.dropWhile_eq_nil_iff.mpr (h line rfl)
      have hread : readLine line = none := by
        simp only [readLine, readChar, hblank]
        rfl
      rw [if_neg (List.cons_ne_nil _ _), printLoop, hread]

/-- The loop reports on the trace so far after each line. -/
theorem printLoop_lines {rest : List (List Char)} (hrest : Stops rest) :
    ∀ (lines : List TraceLine) (pre : List (Op × Nat)) {os : List Outcome} {m : Memory cfg}
      (old : Rates), (∀ l ∈ lines, l.address.value < 2 ^ 32) →
      (Memory.new cfg).run (operations pre) = .ok (os, m) →
      (∀ post, post <+: lines.map TraceLine.access → Reported cfg (pre ++ post)) →
      pre ++ lines.map TraceLine.access ≠ [] →
      printLoop (lines.map TraceLine.text ++ rest) m old =
        ⟨(List.range lines.length).map (fun i =>
            cfg.rates (pre ++ (lines.map TraceLine.access).take (i + 1))) ++
          (if rest = [] then [cfg.rates (pre ++ lines.map TraceLine.access)] else []),
          if rest = [] then none else some .commandFormat⟩
  | [], pre, os, m, old, _, hrun, hrep, hne => by
      obtain ⟨os', m', hrun', hrates⟩ := hrep [] List.nil_prefix
      rw [List.append_nil] at hrun' hrates
      rw [hrun] at hrun'
      cases hrun'
      rw [List.map_nil, List.append_nil] at hne
      rw [List.map_nil, List.nil_append, printLoop_stops hrest]
      split
      · rw [hrates hne, List.map_nil, List.append_nil]
        rfl
      · rfl
  | l :: lines, pre, os, m, old, hlt, hrun, hrep, _ => by
      have hfirst : [l.access] <+: (l :: lines).map TraceLine.access :=
        ⟨lines.map TraceLine.access, rfl⟩
      obtain ⟨os', m', hrun', hrates⟩ := hrep [l.access] hfirst
      have hops : operations (pre ++ [l.access]) =
          operations pre ++ [(opChar l.op, l.address.value)] := List.map_append ..
      have hcalc : m.calcOperation l.address.value (opChar l.op) = .ok m' :=
        Memory.run_snoc hrun (hops ▸ hrun')
      have hnil : pre ++ [l.access] ≠ [] :=
        List.append_ne_nil_of_right_ne_nil _ (List.cons_ne_nil _ _)
      have hrec := printLoop_lines hrest lines (pre ++ [l.access]) (m'.rates old)
        (fun l' hl' => hlt l' (List.mem_cons_of_mem _ hl')) hrun'
        (fun post hpost => by
          rw [List.append_assoc]
          exact hrep _ ((List.prefix_cons_inj _).mpr hpost))
        (List.append_ne_nil_of_left_ne_nil hnil _)
      rw [hrates hnil old] at hrec
      have hlen : ¬('0' :: 'x' :: l.address.text).length < 2 := by
        simp only [List.length_cons]
        omega
      rw [List.map_cons, List.cons_append, printLoop]
      simp only [l.readLine_eq, hlen, if_false, l.strtoul_eq (hlt l (List.mem_cons_self ..)), hcalc,
        hrates hnil, hrec]
      simp only [List.length_cons, List.range_succ_eq_map, List.map_map, List.map_cons,
        List.take_succ_cons, List.take_zero, List.append_assoc, List.cons_append, List.nil_append]
      rfl

/-! ## The program -/

/-- A part of a trace needs no more room. -/
theorem fits_of_part {pre trace : List (Op × Nat)} (hpre : pre <+: trace)
    (hfits : cfg.hierarchy.Fits₂ (trace.map fun a => cfg.block a.2).toFinset) :
    cfg.hierarchy.Fits₂ (pre.map fun a => cfg.block a.2).toFinset := by
  intro b hb
  have hsub : (pre.map fun a => cfg.block a.2).toFinset ⊆
      (trace.map fun a => cfg.block a.2).toFinset := fun c hc =>
    List.mem_toFinset.mpr ((hpre.map _).subset (List.mem_toFinset.mp hc))
  exact (Finset.card_le_card (Finset.filter_subset_filter _ hsub)).trans (hfits b (hsub hb))

/-- The access time of a part of a trace is no longer. -/
theorem time_le_of_part {pre trace : List (Op × Nat)} (hpre : pre <+: trace) :
    ((cfg.lru pre).1.map cfg.time).sum ≤ ((cfg.lru trace).1.map cfg.time).sum := by
  obtain ⟨post, rfl⟩ := hpre
  rw [Config.lru, Config.lru, Config.blocks, Config.blocks, List.map_append, Contents.run_append,
    List.map_append, List.sum_append]
  exact Nat.le_add_right ..

theorem reported (cfg : Config) {trace : List (Op × Nat)} (hlen : trace.length < 2 ^ 32)
    (haddr : ∀ a ∈ trace, a.2 < 2 ^ 32)
    (hfits : cfg.hierarchy.Fits₂ (trace.map fun a => cfg.block a.2).toFinset)
    (htime : ((cfg.lru trace).1.map cfg.time).sum < 2 ^ 32) {pre : List (Op × Nat)}
    (hpre : pre <+: trace) : Reported cfg pre := by
  obtain ⟨m, hlate⟩ := runLate_of_fits cfg (fits_of_part hpre hfits)
  obtain ⟨s, hrun, hcnt, -⟩ := ((Refines.new cfg).run pre fun a ha =>
    haddr a (hpre.subset ha)).2 _ hlate
  exact ⟨_, s, hrun, fun hne => hcnt.rates_eq hne (Nat.lt_of_le_of_lt hpre.length_le hlen)
    (Nat.lt_of_le_of_lt (time_le_of_part hpre) htime)⟩

end ShellySim

end ArchSim
