import RiscvEmu.Execution.Traps

/-!
# Checks back to back

The service of the loop and the step after it both check for interrupts, with no instruction in
between.  A trap to S-mode clears `SIE` and one to M-mode clears `MIE`, so there is at most one of
each, and none to S-mode after one to M-mode.
-/

namespace RiscvEmu

namespace Cpu

/-- A number of checks in a row: the modes that traps were delivered to, and the hart. -/
def checks : Nat → Cpu → List PrivMode × Cpu
  | 0, c => ([], c)
  | n + 1, c =>
      match c.checkInterrupts with
      | (false, c') => checks n c'
      | (true, c') => (c'.mode :: (checks n c').1, (checks n c').2)

/-- The law of checks back to back. -/
structure BackToBack (c : Cpu) : Prop where
  /-- At most one trap to S-mode, and then at most one to M-mode. -/
  modes : ∀ n, (checks n c).1.Sublist [.s, .m]
  /-- After two checks none finds anything, as long as the mode and the CSRs stay. -/
  settled : ∀ n, 2 ≤ n → ∀ c' : Cpu, c'.mode = (checks n c).2.mode →
    c'.csr = (checks n c).2.csr → c'.checkInterrupts = (false, c')
  /-- Nor does any check after one that found nothing. -/
  stops : ∀ n, (checks n c).2.checkInterrupts.1 = false → ∀ k, checks (n + k) c = checks n c
  /-- A trap to M-mode after one to S-mode interrupts the handler of the first at its entry. -/
  pair : ∀ n, (checks n c).1 = [.s, .m] →
    (checks n c).2.csr.mepc = trapPc c.csr.stvec c.checkInterrupts.2.csr.scause ∧
      (checks n c).2.csr.sepc = c.pc

section

variable {c : Cpu} {i : Nat}

/-! ## One check -/

/-- A check finds nothing, or delivers an interrupt that is pending and enabled. -/
theorem checkInterrupts_cases (c : Cpu) : c.checkInterrupts = (false, c) ∨
    ∃ i ∈ interruptOrder, c.enabled i = true ∧
      c.checkInterrupts = (true, c.deliverTrap ((1 <<< 63) ||| BitVec.ofNat 64 i) 0) := by
  have hnext := nextInterrupt_eq c
  cases hfind : interruptOrder.find? fun i => c.pending i && c.enabled i with
  | none =>
      left
      rw [checkInterrupts, hnext, hfind]
  | some i =>
      right
      have hq := List.find?_some hfind
      refine ⟨i, List.mem_of_find?_eq_some hfind, (Bool.and_eq_true_iff.mp hq).2, ?_⟩
      rw [checkInterrupts, hnext, hfind]

/-- A check depends on the mode and the CSRs only. -/
theorem checkInterrupts_congr {c' : Cpu} (hmode : c'.mode = c.mode) (hcsr : c'.csr = c.csr)
    (h : c.checkInterrupts = (false, c)) : c'.checkInterrupts = (false, c') := by
  have hnext : c'.nextInterrupt = c.nextInterrupt := by
    simp only [nextInterrupt_eq, pending, enabled, hmode, hcsr]
  rw [checkInterrupts] at h ⊢
  cases hnone : c.nextInterrupt with
  | none => rw [hnext, hnone]
  | some i =>
      rw [hnone] at h
      cases h

/-- In M-mode with `MIE` clear a check finds nothing. -/
theorem checkInterrupts_masked (hmode : c.mode = .m) (hmie : c.csr.mstatus.getLsbD 3 = false) :
    c.checkInterrupts = (false, c) := by
  rcases checkInterrupts_cases c with hnone | ⟨i, -, henabled, -⟩
  · exact hnone
  · rw [enabled, hmode, hmie] at henabled
    split at henabled <;> exact absurd henabled (by simp)

/-- A trap to M-mode leaves nothing to find. -/
theorem checkInterrupts_machine {cause tval : U64} (hm : c.delegated cause = false) :
    (c.deliverTrap cause tval).checkInterrupts = (false, c.deliverTrap cause tval) := by
  rw [deliverTrap_machine hm]
  refine checkInterrupts_masked rfl ?_
  exact (Csr.trapEntry_bit c.csr c.mode (by decide)).trans (if_pos rfl)

/-- In S-mode with `SIE` clear only interrupts of M-mode are enabled. -/
theorem undelegated_of_masked (hmode : c.mode = .s) (hsie : c.csr.mstatus.getLsbD 1 = false)
    (hi : i ∈ interruptOrder) (henabled : c.enabled i = true) :
    c.delegated ((1 <<< 63) ||| BitVec.ofNat 64 i) = false := by
  rw [delegated_interrupt hi]
  cases hdeleg : c.csr.mideleg.getLsbD i with
  | false => rfl
  | true =>
      rw [enabled, if_pos hdeleg, hmode, hsie] at henabled
      exact absurd henabled (by decide)

/-! ## Several checks -/

theorem checks_stop (h : c.checkInterrupts = (false, c)) (n : Nat) : checks n c = ([], c) := by
  induction n with
  | zero => rfl
  | succ n ih =>
      rw [checks, h]
      exact ih

theorem checks_taken {c' : Cpu} (h : c.checkInterrupts = (true, c')) (n : Nat) :
    checks (n + 1) c = (c'.mode :: (checks n c').1, (checks n c').2) := by
  rw [checks, h]

/-- The checks of a hart: none, one or two deliver a trap. -/
theorem checks_cases (c : Cpu) :
    c.checkInterrupts = (false, c) ∨
      (∃ c₁, c.checkInterrupts = (true, c₁) ∧ c₁.checkInterrupts = (false, c₁) ∧
        (c₁.mode = .s ∨ c₁.mode = .m)) ∨
      ∃ c₁ c₂, c.checkInterrupts = (true, c₁) ∧ c₁.checkInterrupts = (true, c₂) ∧
        c₂.checkInterrupts = (false, c₂) ∧ c₁.mode = .s ∧ c₂.mode = .m ∧
        c₂.csr.mepc = trapPc c.csr.stvec c₁.csr.scause ∧ c₂.csr.sepc = c.pc := by
  rcases checkInterrupts_cases c with hnone | ⟨i, hi, henabled, hcheck⟩
  · exact Or.inl hnone
  right
  cases hdel : c.delegated ((1 <<< 63) ||| BitVec.ofNat 64 i) with
  | false =>
      refine Or.inl ⟨_, hcheck, checkInterrupts_machine hdel, Or.inr ?_⟩
      rw [deliverTrap_machine hdel]
  | true =>
      have htrap : c.deliverTrap _ 0 = _ := deliverTrap_delegated hdel
      rw [htrap] at hcheck
      rcases checkInterrupts_cases c.checkInterrupts.2 with hnone | ⟨j, hj, henabled', hcheck'⟩
      · rw [hcheck] at hnone
        exact Or.inl ⟨_, hcheck, hnone, Or.inl rfl⟩
      · rw [hcheck] at henabled' hcheck'
        have hdel' := undelegated_of_masked rfl
          ((Csr.sTrapEntry_bit c.csr _ (by decide)).trans (if_pos rfl)) hj henabled'
        refine Or.inr ⟨_, _, hcheck, hcheck', checkInterrupts_machine hdel', rfl, ?_⟩
        rw [deliverTrap_machine hdel']
        exact ⟨rfl, rfl, rfl⟩

/-- Checks back to back obey the law in every hart. -/
theorem backToBack (c : Cpu) : BackToBack c := by
  rcases checks_cases c with h | ⟨c₁, h, h₁, hmode⟩ | ⟨c₁, c₂, h, h₁, h₂, hs, hm, hmepc, hsepc⟩
  · refine ⟨fun n => ?_, fun n _ c' hmode hcsr => ?_, fun n _ k => ?_, fun n hpair => ?_⟩
    · rw [checks_stop h]
      exact List.nil_sublist _
    · rw [checks_stop h] at hmode hcsr
      exact checkInterrupts_congr hmode hcsr h
    · rw [checks_stop h, checks_stop h]
    · rw [checks_stop h] at hpair
      cases hpair
  · have hone (n : Nat) : checks (n + 1) c = ([c₁.mode], c₁) := by
      rw [checks_taken h, checks_stop h₁]
    refine ⟨fun n => ?_, fun n hn c' hmode hcsr => ?_, fun n hquiet k => ?_, fun n hpair => ?_⟩
    · cases n with
      | zero => exact List.nil_sublist _
      | succ n =>
          rw [hone]
          refine List.singleton_sublist.mpr ?_
          rcases hmode with hmode | hmode <;> rw [hmode] <;> decide
    · obtain ⟨n, rfl⟩ := Nat.exists_eq_add_of_le' hn
      rw [hone] at hmode hcsr
      exact checkInterrupts_congr hmode hcsr h₁
    · cases n with
      | zero => rw [checks, h] at hquiet; cases hquiet
      | succ n => rw [Nat.add_right_comm, hone, hone]
    · cases n with
      | zero => cases hpair
      | succ n =>
          rw [hone] at hpair
          cases (List.cons.inj hpair).2
  · have hone : checks 1 c = ([.s], c₁) := by rw [checks_taken h, hs, checks]
    have htwo (n : Nat) : checks (n + 2) c = ([.s, .m], c₂) := by
      rw [checks_taken h, checks_taken h₁, checks_stop h₂, hs, hm]
    refine ⟨fun n => ?_, fun n hn c' hmode hcsr => ?_, fun n hquiet k => ?_, fun n hpair => ?_⟩
    · match n with
      | 0 => exact List.nil_sublist _
      | 1 =>
          rw [hone]
          exact List.singleton_sublist.mpr (List.mem_cons_self ..)
      | n + 2 =>
          exact (htwo n).symm ▸ List.Sublist.refl _
    · obtain ⟨n, rfl⟩ := Nat.exists_eq_add_of_le' hn
      rw [htwo] at hmode hcsr
      exact checkInterrupts_congr hmode hcsr h₂
    · match n with
      | 0 => rw [checks, h] at hquiet; cases hquiet
      | 1 => rw [hone, h₁] at hquiet; cases hquiet
      | n + 2 => rw [show n + 2 + k = n + k + 2 by omega, htwo, htwo]
    · match n with
      | 0 => cases hpair
      | 1 => rw [hone] at hpair; cases hpair
      | n + 2 =>
          rw [htwo, h]
          exact ⟨hmepc, hsepc⟩

end

end Cpu

end RiscvEmu
