import ArchSim.CacheRun

/-!
# What `pseudo_cycle` counts

The source stamps an entry whenever the recency-list model brings a block to
the front of a list, so that the value of `pseudo_cycle` can be read off the
model (`Contents.totalUpdates`). Whether a trace stays below the limit of
the counter therefore does not depend on absolute time stamps.
-/

namespace ArchSim

namespace CacheSim

variable {cfg : Config} {c c' : Cache cfg} {m : Contents Nat Nat Nat} {a : Nat}

theorem saveL1Victim_updates {p : Slot}
    (hp : LevelOrder.VictimOf c.L1 c.pseudoCycle m.order₁ m.dirty₁ a p)
    (hsave : c.saveL1Victim p = .ok c') :
    c'.pseudoCycle = c.pseudoCycle + m.writeBacks cfg.hierarchy (cfg.block a) := by
  have hev : evictee? cfg.hierarchy.ways₁ (m.order₁ (cfg.hierarchy.set₁ (cfg.block a))) = _ :=
    hp.evictee?
  unfold Cache.saveL1Victim at hsave
  unfold Contents.writeBacks
  rw [hev]
  by_cases hv : (c.L1.entry p).valid = true
  · have hdirty := (hp.entryOf hv).2.dirty_eq
    simp only [hv, Bool.true_and, if_true, ← hdirty] at hsave ⊢
    split at hsave
    · rename_i hd
      rw [if_pos hd]
      split at hsave
      · cases hsave
        rfl
      · cases hsave
    · rename_i hd
      rw [if_neg hd]
      cases hsave
      rfl
  · simp only [hv, Bool.false_and, Bool.false_eq_true, if_false] at hsave ⊢
    cases hsave
    rfl

theorem fetchToL1_updates (h : LevelOrder c.L1 c.pseudoCycle m.order₁ m.dirty₁)
    (hc : c.pseudoCycle ≤ uint32Max) (ha : a < uint32Size) {r : Cache cfg × Slot}
    (hfetch : c.fetchToL1 a = .ok r) :
    r.1.pseudoCycle = c.pseudoCycle + m.writeBacks cfg.hierarchy (cfg.block a) + 1 := by
  obtain ⟨p, hget, hp⟩ := h.getEntryForNewBlock hc ha
  obtain ⟨p', hget', hfetch⟩ := bind_eq_ok.mp hfetch
  obtain rfl := Except.ok.inj (hget.symm.trans hget')
  obtain ⟨c₁, hsave, hfetch⟩ := bind_eq_ok.mp hfetch
  cases hfetch
  exact congrArg Nat.succ (saveL1Victim_updates hp hsave)

theorem fetchBlockFromMemory_updates (h : Refines c m) (hc : c.pseudoCycle < uint32Max)
    (ha : a < uint32Size) {r : Cache cfg × Slot} (hfetch : c.fetchBlockFromMemory a = .ok r) :
    r.1.pseudoCycle = c.pseudoCycle +
      (m.insert₂ cfg.hierarchy (cfg.block a)).writeBacks cfg.hierarchy (cfg.block a) + 2 := by
  obtain ⟨p, hget, hp⟩ := h.level2.getEntryForNewBlock (Nat.le_of_lt hc) ha
  obtain ⟨p', hget', hfetch⟩ := bind_eq_ok.mp hfetch
  obtain rfl := Except.ok.inj (hget.symm.trans hget')
  have hcycle : ((c.dropL2Victim p).fillL2 p a).pseudoCycle = c.pseudoCycle + 1 := by
    simp only [Cache.fillL2, Cache.dropL2Victim_pseudoCycle]
  have hL1 : LevelOrder ((c.dropL2Victim p).fillL2 p a).L1
      ((c.dropL2Victim p).fillL2 p a).pseudoCycle
      (m.insert₂ cfg.hierarchy (cfg.block a)).order₁
      (m.insert₂ cfg.hierarchy (cfg.block a)).dirty₁ :=
    (h.dropL2Victim hp).level1.mono (Nat.le_succ _)
  have hr := fetchToL1_updates hL1 (hcycle ▸ hc) ha hfetch
  rw [hcycle] at hr
  omega

/-- An access adds one for each recency update. -/
theorem access_updates (h : Refines c m) (hc : c.pseudoCycle < uint32Max) {op : Op}
    (ha : a < uint32Size) (hacc : c.access (op, a) = .ok c') :
    c'.pseudoCycle = c.pseudoCycle + m.updates cfg.hierarchy op (cfg.block a) := by
  have hlookup := h.outcome_eq ha
  have hcounted := h.countL1.countL2
  have hL1 : ∀ p d, LevelOrder (c.countL1.countL2.touchL2 p d).L1
      (c.countL1.countL2.touchL2 p d).pseudoCycle m.order₁ m.dirty₁ := fun _ _ =>
    hcounted.level1.mono (Nat.le_succ _)
  unfold Contents.updates
  rw [← hlookup]
  cases accessStep_of_access hacc with
  | l1Hit p d h₁ =>
      rw [outcome_l1Hit h₁]
      rfl
  | l2Hit p h₁ h₂ hf =>
      rw [outcome_l2Hit h₁ h₂, hf]
      rfl
  | fetchL1 p r h₁ h₂ hf hr =>
      rw [outcome_l2Hit h₁ h₂, hf, fetchToL1_updates (hL1 p _) hc ha hr]
      simp only [if_true]
      show c.pseudoCycle + 1 + _ + 1 = _
      omega
  | fetchL1Write p r h₁ h₂ hf hr =>
      show r.1.pseudoCycle = _
      rw [outcome_l2Hit h₁ h₂, hf, fetchToL1_updates (hL1 p _) hc ha hr]
      simp only [if_true]
      show c.pseudoCycle + 1 + _ + 1 = _
      omega
  | fetch r h₁ h₂ hf hr =>
      rw [outcome_miss h₁ h₂, hf, fetchBlockFromMemory_updates hcounted.countMemory hc ha hr]
      rfl
  | fetchWrite r h₁ h₂ hf hr =>
      show r.1.pseudoCycle = _
      rw [outcome_miss h₁ h₂, hf, fetchBlockFromMemory_updates hcounted.countMemory hc ha hr]
      rfl
  | bypass h₁ h₂ hf =>
      rw [outcome_miss h₁ h₂, hf]
      rfl

/-! ## Runs -/

theorem run_updates (trace : List (Op × Nat)) :
    ∀ {c : Cache cfg} {m : Contents Nat Nat Nat}, Refines c m →
      (∀ a ∈ trace, a.2 < uint32Size) → c.StaysBelow uint32Max trace →
      ∀ {r : List Outcome × Cache cfg}, c.run trace = .ok r →
        r.2.pseudoCycle = c.pseudoCycle + m.totalUpdates cfg.hierarchy (cfg.blocks trace) := by
  induction trace with
  | nil =>
      intro c m _ _ _ r hrun
      cases hrun
      rfl
  | cons a rest ih =>
      intro c m h haddr hcycle r hrun
      have ha := haddr a (List.mem_cons_self ..)
      obtain ⟨c₁, hacc, -, hpost⟩ := h.access hcycle.now ha a.1
      obtain ⟨c₁', hacc', hrun⟩ := bind_eq_ok.mp hrun
      obtain rfl := Except.ok.inj (hacc.symm.trans hacc')
      obtain ⟨r', hrun', hrun⟩ := bind_eq_ok.mp hrun
      cases hrun
      have hcycle₁ := hcycle.tail hacc
      have hrest := ih (hpost (Nat.le_of_lt hcycle₁.now))
        (fun b hb => haddr b (List.mem_cons_of_mem _ hb)) hcycle₁ hrun'
      rw [access_updates h hcycle.now ha hacc] at hrest
      rw [hrest]
      exact Nat.add_assoc ..

/-- A trace whose updates stay below the limit. -/
theorem staysBelow_of_updates (trace : List (Op × Nat)) :
    ∀ {c : Cache cfg} {m : Contents Nat Nat Nat}, Refines c m →
      (∀ a ∈ trace, a.2 < uint32Size) →
      c.pseudoCycle + m.totalUpdates cfg.hierarchy (cfg.blocks trace) < uint32Max →
      c.StaysBelow uint32Max trace := by
  induction trace with
  | nil =>
      intro c m _ _ hlt pre hpre r hr
      obtain rfl := List.prefix_nil.mp hpre
      cases hr
      exact hlt
  | cons a rest ih =>
      intro c m h haddr hlt pre hpre r hr
      have ha := haddr a (List.mem_cons_self ..)
      have hsum : c.pseudoCycle + (m.updates cfg.hierarchy a.1 (cfg.block a.2) +
          (m.access cfg.hierarchy a.1 (cfg.block a.2)).totalUpdates cfg.hierarchy
            (cfg.blocks rest)) < uint32Max := hlt
      have hnow : c.pseudoCycle < uint32Max := Nat.lt_of_le_of_lt (Nat.le_add_right ..) hlt
      obtain ⟨c₁, hacc, -, hpost⟩ := h.access hnow ha a.1
      have hc₁ := access_updates h hnow ha hacc
      cases pre with
      | nil =>
          cases hr
          exact hnow
      | cons b pre =>
          obtain ⟨rfl, hpre'⟩ := List.cons_prefix_cons.mp hpre
          obtain ⟨c₁', hacc', hr⟩ := bind_eq_ok.mp hr
          obtain rfl := Except.ok.inj (hacc.symm.trans hacc')
          obtain ⟨r', hr', hr⟩ := bind_eq_ok.mp hr
          cases hr
          exact ih (hpost (by omega)) (fun d hd => haddr d (List.mem_cons_of_mem _ hd))
            (by omega) pre hpre' r' hr'

end CacheSim

end ArchSim
