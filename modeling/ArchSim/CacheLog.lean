import ArchSim.CacheRun

/-!
# The log of uses

`pseudo_cycle` is 32 bits wide, so an entry is stamped with the remainder of
the number of its last use. A ghost log (`Cache.log`) keeps the uses
themselves (hits, fills and dirty write-backs) in order, without a counter.
After every run, however long, the stamps are its remainders
(`Marked.of_run`).
-/

namespace ArchSim

namespace CacheSim

/-! ## The log of uses -/

/-- A use of an entry: it is hit, filled or written back to. -/
inductive Use where
  | l1 (p : Slot)
  | l2 (p : Slot)
deriving DecidableEq, Repr

/-- The number of the last occurrence of `u` in a log, newest first. -/
def lastUse (u : Use) : List Use → Nat
  | [] => 0
  | v :: past => if v = u then past.length else lastUse u past

theorem lastUse_lt {u : Use} : ∀ {past : List Use}, u ∈ past → lastUse u past < past.length
  | v :: past, h => by
      unfold lastUse
      split
      · exact Nat.lt_succ_self _
      · rename_i hne
        have hmem := (List.mem_cons.mp h).resolve_left fun heq => hne heq.symm
        exact Nat.lt_succ_of_lt (lastUse_lt hmem)

/-- No two entries are used at one time. -/
theorem lastUse_inj {u v : Use} :
    ∀ {past : List Use}, u ∈ past → v ∈ past → lastUse u past = lastUse v past → u = v
  | w :: past, hu, hv, heq => by
      simp only [lastUse] at heq
      split at heq
      · rename_i hwu
        split at heq
        · rename_i hwv
          exact hwu.symm.trans hwv
        · rename_i hwv
          have hmem := (List.mem_cons.mp hv).resolve_left fun h => hwv h.symm
          exact absurd heq (Nat.ne_of_gt (lastUse_lt hmem))
      · rename_i hwu
        have hmemu := (List.mem_cons.mp hu).resolve_left fun h => hwu h.symm
        split at heq
        · exact absurd heq (Nat.ne_of_lt (lastUse_lt hmemu))
        · rename_i hwv
          have hmemv := (List.mem_cons.mp hv).resolve_left fun h => hwv h.symm
          exact lastUse_inj hmemu hmemv heq

variable {cfg : Config}

namespace Cache

/-- The write-back of the L1 victim, if there is one. -/
def saveUses (c : Cache cfg) (l1Victim : Slot) : List Use :=
  if (c.L1.entry l1Victim).valid && (c.L1.entry l1Victim).dirty then
    ((c.L2.blockExists (c.L1.entry l1Victim).address).map Use.l2).toList
  else []

/-- The uses of `fetchToL1`, newest first. -/
def fetchUses (c : Cache cfg) (address : Nat) : List Use :=
  match c.L1.getEntryForNewBlock address with
  | .ok l1Victim => .l1 l1Victim :: c.saveUses l1Victim
  | .error _ => []

/-- The state in which an access calls `fetchToL1`, if it does, and what it
has used by then. -/
def beforeFetchToL1 (c : Cache cfg) (a : Op × Nat) : Option (Cache cfg × List Use) :=
  if Contents.fetches cfg.hierarchy a.1 then
    match c.L1.blockExists a.2, c.L2.blockExists a.2 with
    | some _, _ => none
    | none, some p => some (c.countL1.countL2.touchL2 p (c.L2.entry p).dirty, [.l2 p])
    | none, none =>
        match c.L2.getEntryForNewBlock a.2 with
        | .ok p => some ((c.countL1.countL2.countMemory.dropL2Victim p).fillL2 p a.2, [.l2 p])
        | .error _ => none
  else none

/-- The uses of an access, newest first. -/
def uses (c : Cache cfg) (a : Op × Nat) : List Use :=
  match c.L1.blockExists a.2 with
  | some p => [.l1 p]
  | none =>
      match c.beforeFetchToL1 a with
      | some (c₁, us) => c₁.fetchUses a.2 ++ us
      | none => ((c.L2.blockExists a.2).map Use.l2).toList

/-- The log after a trace, given the log before it. -/
def log (c : Cache cfg) : List (Op × Nat) → List Use → List Use
  | [], past => past
  | a :: rest, past =>
      match c.access a with
      | .ok c' => c'.log rest (c.uses a ++ past)
      | .error _ => past

end Cache

namespace Cache

variable {c : Cache cfg} {op : Op} {address : Nat} {p : Slot}

theorem beforeFetchToL1_l2Hit (h₁ : c.L1.blockExists address = none)
    (h₂ : c.L2.blockExists address = some p) (hf : Contents.fetches cfg.hierarchy op = true) :
    c.beforeFetchToL1 (op, address) =
      some (c.countL1.countL2.touchL2 p (c.L2.entry p).dirty, [.l2 p]) := by
  simp only [beforeFetchToL1, hf, h₁, h₂, if_true]

theorem beforeFetchToL1_miss (h₁ : c.L1.blockExists address = none)
    (h₂ : c.L2.blockExists address = none) (hf : Contents.fetches cfg.hierarchy op = true)
    (hget : c.L2.getEntryForNewBlock address = .ok p) :
    c.beforeFetchToL1 (op, address) =
      some ((c.countL1.countL2.countMemory.dropL2Victim p).fillL2 p address, [.l2 p]) := by
  simp only [beforeFetchToL1, hf, h₁, h₂, hget, if_true]

theorem uses_l1Hit (h₁ : c.L1.blockExists address = some p) : c.uses (op, address) = [.l1 p] := by
  simp only [uses, h₁]

theorem uses_fetch (h₁ : c.L1.blockExists address = none) {c₁ : Cache cfg} {us : List Use}
    (hc₁ : c.beforeFetchToL1 (op, address) = some (c₁, us)) :
    c.uses (op, address) = c₁.fetchUses address ++ us := by
  simp only [uses, h₁, hc₁]

theorem uses_bypass (h₁ : c.L1.blockExists address = none)
    (hf : Contents.fetches cfg.hierarchy op = false) :
    c.uses (op, address) = ((c.L2.blockExists address).map Use.l2).toList := by
  simp only [uses, h₁, beforeFetchToL1, hf, Bool.false_eq_true, if_false]

theorem log_cons {a : Op × Nat} {rest : List (Op × Nat)} {past : List Use} {c' : Cache cfg}
    (h : c.access a = .ok c') : c.log (a :: rest) past = c'.log rest (c.uses a ++ past) := by
  rw [log, h]

end Cache

/-! ## Stamps are remainders of the log -/

/-- Every valid entry has been used, and its stamp is the remainder of its
last use. -/
def CacheLevel.Marked {g : Geometry} (L : CacheLevel g) (use : Slot → Use)
    (past : List Use) : Prop :=
  ∀ p, (L.entry p).valid = true →
    use p ∈ past ∧ (L.entry p).lastAccessedTime = lastUse (use p) past % uint32Size

namespace CacheLevel.Marked

variable {g : Geometry} {L : CacheLevel g} {use : Slot → Use} {past : List Use} {p : Slot}
  {e : WayEntry}

/-- An entry of the level is used. -/
theorem used (h : L.Marked use past) (huse : Function.Injective use)
    (he : e.lastAccessedTime = past.length % uint32Size) :
    (L.setEntry p e).Marked use (use p :: past) := by
  intro q hv
  by_cases hq : q = p
  · subst hq
    refine ⟨List.mem_cons_self .., ?_⟩
    rw [CacheLevel.entry_setEntry, he, lastUse, if_pos rfl]
  · rw [CacheLevel.entry_setEntry_of_ne hq] at hv ⊢
    obtain ⟨hmem, hstamp⟩ := h q hv
    refine ⟨List.mem_cons_of_mem _ hmem, ?_⟩
    rw [hstamp, lastUse, if_neg fun heq => hq (huse heq).symm]

/-- An entry of the other level is used. -/
theorem other (h : L.Marked use past) {u : Use} (hu : ∀ p, u ≠ use p) :
    L.Marked use (u :: past) := by
  intro q hv
  obtain ⟨hmem, hstamp⟩ := h q hv
  exact ⟨List.mem_cons_of_mem _ hmem, by rw [hstamp, lastUse, if_neg (hu q)]⟩

/-- An entry keeps its stamp. -/
theorem kept (h : L.Marked use past) (hv : e.valid = true → (L.entry p).valid = true)
    (he : e.lastAccessedTime = (L.entry p).lastAccessedTime) :
    (L.setEntry p e).Marked use past := by
  intro q hvq
  by_cases hq : q = p
  · subst hq
    rw [CacheLevel.entry_setEntry] at hvq ⊢
    rw [he]
    exact h q (hv hvq)
  · rw [CacheLevel.entry_setEntry_of_ne hq] at hvq ⊢
    exact h q hvq

end CacheLevel.Marked

/-- The state agrees with the log. -/
structure Marked (c : Cache cfg) (past : List Use) : Prop where
  cycle : c.pseudoCycle = past.length
  level1 : c.L1.Marked .l1 past
  level2 : c.L2.Marked .l2 past

namespace Marked

variable {c c' : Cache cfg} {past : List Use}

theorem new (cfg : Config) : Marked (Cache.new cfg) [] :=
  ⟨rfl, fun _ hv => (nomatch hv), fun _ hv => (nomatch hv)⟩

theorem stamp (h : Marked c past) : c.stamp = past.length % uint32Size := by
  rw [Cache.stamp, h.cycle]

/-! One lemma for each operation. -/

theorem countL1 (h : Marked c past) : Marked c.countL1 past := ⟨h.cycle, h.level1, h.level2⟩

theorem countL2 (h : Marked c past) : Marked c.countL2 past := ⟨h.cycle, h.level1, h.level2⟩

theorem countMemory (h : Marked c past) : Marked c.countMemory past :=
  ⟨h.cycle, h.level1, h.level2⟩

theorem l1_injective : Function.Injective Use.l1 := fun _ _ => Use.l1.inj

theorem l2_injective : Function.Injective Use.l2 := fun _ _ => Use.l2.inj

theorem touchL1 (h : Marked c past) (p : Slot) (d : Bool) :
    Marked (c.touchL1 p d) (.l1 p :: past) :=
  ⟨congrArg Nat.succ h.cycle, h.level1.used l1_injective h.stamp, h.level2.other nofun⟩

theorem touchL2 (h : Marked c past) (p : Slot) (d : Bool) :
    Marked (c.touchL2 p d) (.l2 p :: past) :=
  ⟨congrArg Nat.succ h.cycle, h.level1.other nofun, h.level2.used l2_injective h.stamp⟩

theorem fillL1 (h : Marked c past) (p : Slot) (a : Nat) :
    Marked (c.fillL1 p a) (.l1 p :: past) :=
  ⟨congrArg Nat.succ h.cycle, h.level1.used l1_injective h.stamp, h.level2.other nofun⟩

theorem fillL2 (h : Marked c past) (p : Slot) (a : Nat) :
    Marked (c.fillL2 p a) (.l2 p :: past) :=
  ⟨congrArg Nat.succ h.cycle, h.level1.other nofun, h.level2.used l2_injective h.stamp⟩

theorem invalidateL1 (h : Marked c past) (p : Slot) : Marked (c.invalidateL1 p) past :=
  ⟨h.cycle, h.level1.kept (fun hv => (nomatch hv)) rfl, h.level2⟩

theorem markDirtyL1 (h : Marked c past) (p : Slot) : Marked (c.markDirtyL1 p) past :=
  ⟨h.cycle, h.level1.kept (fun hv => hv) rfl, h.level2⟩

theorem saveL1Victim (h : Marked c past) {p : Slot} (hsave : c.saveL1Victim p = .ok c') :
    Marked c' (c.saveUses p ++ past) := by
  unfold Cache.saveL1Victim at hsave
  unfold Cache.saveUses
  split at hsave
  · rename_i hd
    rw [if_pos hd]
    split at hsave
    · rename_i q hq
      cases hsave
      rw [hq]
      exact h.touchL2 q true
    · cases hsave
  · rename_i hd
    cases hsave
    rw [if_neg hd]
    exact h

theorem fetchToL1 (h : Marked c past) {a : Nat} {r : Cache cfg × Slot}
    (hfetch : c.fetchToL1 a = .ok r) : Marked r.1 (c.fetchUses a ++ past) := by
  obtain ⟨p, hget, hfetch⟩ := bind_eq_ok.mp hfetch
  obtain ⟨c₁, hsave, hfetch⟩ := bind_eq_ok.mp hfetch
  cases hfetch
  unfold Cache.fetchUses
  rw [hget]
  exact (h.saveL1Victim hsave).fillL1 p a

theorem dropL2Victim (h : Marked c past) (p : Slot) : Marked (c.dropL2Victim p) past := by
  unfold Cache.dropL2Victim
  split
  · split
    · exact h.invalidateL1 _
    · exact h
  · exact h

/-- The state before the call of `fetchToL1`. -/
theorem beforeFetchToL1 (h : Marked c past) {a : Op × Nat} {c₁ : Cache cfg} {us : List Use}
    (hc₁ : c.beforeFetchToL1 a = some (c₁, us)) : Marked c₁ (us ++ past) := by
  unfold Cache.beforeFetchToL1 at hc₁
  split at hc₁
  · split at hc₁
    · cases hc₁
    · cases hc₁
      exact h.countL1.countL2.touchL2 _ _
    · split at hc₁
      · cases hc₁
        exact (h.countL1.countL2.countMemory.dropL2Victim _).fillL2 _ _
      · cases hc₁
  · cases hc₁

/-- An access that calls `fetchToL1`. -/
theorem fetch (h : Marked c past) {op : Op} {a : Nat} (h₁ : c.L1.blockExists a = none)
    {c₁ : Cache cfg} {us : List Use} (hc₁ : c.beforeFetchToL1 (op, a) = some (c₁, us))
    {r : Cache cfg × Slot} (hfetch : c₁.fetchToL1 a = .ok r) :
    Marked r.1 (c.uses (op, a) ++ past) := by
  rw [Cache.uses_fetch h₁ hc₁, List.append_assoc]
  exact (h.beforeFetchToL1 hc₁).fetchToL1 hfetch

theorem access (h : Marked c past) {a : Op × Nat} (hacc : c.access a = .ok c') :
    Marked c' (c.uses a ++ past) := by
  obtain ⟨op, address⟩ := a
  cases accessStep_of_access hacc with
  | l1Hit p d h₁ =>
      rw [Cache.uses_l1Hit h₁]
      exact h.countL1.touchL1 p d
  | l2Hit p h₁ h₂ hf =>
      rw [Cache.uses_bypass h₁ hf, h₂]
      exact h.countL1.countL2.touchL2 p true
  | fetchL1 p r h₁ h₂ hf hr => exact h.fetch h₁ (Cache.beforeFetchToL1_l2Hit h₁ h₂ hf) hr
  | fetchL1Write p r h₁ h₂ hf hr =>
      exact (h.fetch h₁ (Cache.beforeFetchToL1_l2Hit h₁ h₂ hf) hr).markDirtyL1 r.2
  | fetch r h₁ h₂ hf hr =>
      obtain ⟨p, hget, hr⟩ := bind_eq_ok.mp hr
      exact h.fetch h₁ (Cache.beforeFetchToL1_miss h₁ h₂ hf hget) hr
  | fetchWrite r h₁ h₂ hf hr =>
      obtain ⟨p, hget, hr⟩ := bind_eq_ok.mp hr
      exact (h.fetch h₁ (Cache.beforeFetchToL1_miss h₁ h₂ hf hget) hr).markDirtyL1 r.2
  | bypass h₁ h₂ hf =>
      rw [Cache.uses_bypass h₁ hf, h₂]
      exact h.countL1.countL2.countMemory

theorem of_run {trace : List (Op × Nat)} :
    ∀ {c : Cache cfg} {past : List Use} {r : List Outcome × Cache cfg}, Marked c past →
      c.run trace = .ok r → Marked r.2 (c.log trace past) := by
  induction trace with
  | nil =>
      intro c past r h hrun
      cases hrun
      exact h
  | cons a rest ih =>
      intro c past r h hrun
      obtain ⟨c₁, hacc, hrun⟩ := bind_eq_ok.mp hrun
      obtain ⟨r', hrun', hrun⟩ := bind_eq_ok.mp hrun
      cases hrun
      have hrest := ih (h.access hacc) hrun'
      rw [Cache.log_cons hacc]
      exact hrest

/-- Valid entries of a level have different stamps, all before the current
time, as long as this has not passed its limit. -/
theorem stamps_below (h : Marked c past) {g : Geometry} {L : CacheLevel g} {use : Slot → Use}
    (hL : L.Marked use past) (hmax : c.pseudoCycle ≤ uint32Max) {p : Slot}
    (hv : (L.entry p).valid = true) :
    (L.entry p).lastAccessedTime = lastUse (use p) past ∧
      (L.entry p).lastAccessedTime < c.pseudoCycle := by
  obtain ⟨hmem, hstamp⟩ := hL p hv
  have hlt := lastUse_lt hmem
  have hsize : c.pseudoCycle < uint32Size := Nat.lt_of_le_of_lt hmax (by decide)
  rw [← h.cycle] at hlt
  rw [hstamp, Nat.mod_eq_of_lt (Nat.lt_trans hlt hsize)]
  exact ⟨rfl, hlt⟩

end Marked

end CacheSim

end ArchSim
