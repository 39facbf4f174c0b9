import RiscvEmu.Device.Plic
import RiscvEmu.Lib.Scan
import Mathlib.Order.Fin.Basic

/-!
# Arbitration of the interrupt controller

A source is claimable by a context when it is pending, enabled for the context, and of a priority
above the threshold of the context.  The search of the controller finds the claimable source of the
highest priority, the lowest-numbered one on ties, and a claim returns it and takes its pending bit.
-/

namespace RiscvEmu

/-- A field of one bit is zero when the bit is clear. -/
theorem shift_and_one_eq_zero {w : Nat} (x : BitVec (w + 1)) (k : Nat) :
    (x >>> k) &&& 1#(w + 1) = 0#(w + 1) ↔ x.getLsbD k = false := by
  rw [← BitVec.toNat_inj, toNat_and_one, BitVec.toNat_ushiftRight, BitVec.getLsbD, Nat.testBit,
    Nat.and_comm, Nat.and_one_is_mod]
  simp

namespace Plic

/-- A context can claim a source. -/
structure Claimable (p : Plic) (ctx : Fin 2) (irq : Nat) : Prop where
  source : 1 ≤ irq ∧ irq < 64
  pending : p.pending.getLsbD irq = true
  enabled : (p.enable ctx (Fin.ofNat 4 (irq / 32))).getLsbD (irq % 32) = true
  above : p.threshold ctx < p.priority (Fin.ofNat 128 irq)

/-- The source that a context should be given. -/
structure Best (p : Plic) (ctx : Fin 2) (irq : Nat) : Prop where
  claimable : p.Claimable ctx irq
  least : ∀ other, p.Claimable ctx other →
    p.priority (Fin.ofNat 128 other) < p.priority (Fin.ofNat 128 irq) ∨
      p.priority (Fin.ofNat 128 other) = p.priority (Fin.ofNat 128 irq) ∧ irq ≤ other

/-- The register that a context claims at. -/
def claimAddr (ctx : Fin 2) : U64 := base + 0x200004 + BitVec.ofNat 64 (0x1000 * ctx.val)

/-- What a claim does: it returns the best source, or zero, and clears no other bit. -/
structure Claims (p : Plic) (ctx : Fin 2) (irq : U64) (p' : Plic) : Prop where
  value : irq = BitVec.ofNat 64 (p.bestIrq ctx)
  pending : ∀ i < 64, p'.pending.getLsbD i =
    (p.pending.getLsbD i && !decide (irq ≠ 0 ∧ i = irq.toNat))
  others : p' = { p with pending := p'.pending }

/-! ## The search -/

section Search

variable (p : Plic) (ctx : Fin 2)

/-- The priority of a source that is pending and enabled. -/
def key (irq : Nat) : Option Nat :=
  if p.pending.getLsbD irq = true ∧
      (p.enable ctx (Fin.ofNat 4 (irq / 32))).getLsbD (irq % 32) = true then
    some (p.priority (Fin.ofNat 128 irq)).toNat
  else none

/-- The search is a scan for the source of the highest priority. -/
theorem bestIrqStep_scan (best : Nat × U32) (irq : Nat) :
    (p.bestIrqStep ctx best irq).map id BitVec.toNat =
      Scan.step (p.key ctx) (best.map id BitVec.toNat) irq := by
  have hpending : (p.pending >>> irq) &&& 1 = 0 ↔ p.pending.getLsbD irq = false :=
    shift_and_one_eq_zero _ _
  have henabled : (p.enable ctx (Fin.ofNat 4 (irq / 32)) >>> (irq % 32)) &&& 1 = 0 ↔
      (p.enable ctx (Fin.ofNat 4 (irq / 32))).getLsbD (irq % 32) = false :=
    shift_and_one_eq_zero _ _
  rw [bestIrqStep, Scan.step, key]
  cases hp : p.pending.getLsbD irq with
  | false =>
      rw [if_pos (hpending.mpr hp)]
      rfl
  | true =>
      rw [if_neg fun h => by rw [hpending.mp h] at hp; cases hp]
      cases he : (p.enable ctx (Fin.ofNat 4 (irq / 32))).getLsbD (irq % 32) with
      | false =>
          rw [if_pos (henabled.mpr he)]
          rfl
      | true =>
          rw [if_neg fun h => by rw [henabled.mp h] at he; cases he]
          simp only [and_self, if_true, Prod.map_snd, BitVec.lt_def]
          split <;> rfl

theorem bestIrq_scan : p.bestIrq ctx =
    ((List.range' 1 63).foldl (Scan.step (p.key ctx)) (0, (p.threshold ctx).toNat)).1 := by
  have hom (l : List Nat) (best : Nat × U32) :
      l.foldl (Scan.step (p.key ctx)) (Prod.map id BitVec.toNat best) =
        Prod.map id BitVec.toNat (l.foldl (p.bestIrqStep ctx) best) :=
    List.foldl_hom _ fun best irq => (p.bestIrqStep_scan ctx best irq).symm
  rw [bestIrq]
  exact (congrArg Prod.fst (hom _ (0, p.threshold ctx))).symm

variable {p ctx}

theorem mem_sources {irq : Nat} : irq ∈ List.range' 1 63 ↔ 1 ≤ irq ∧ irq < 64 := by
  rw [List.mem_range'_1]

/-- The claimable sources are those the scan counts above the threshold. -/
theorem claimable_iff {irq : Nat} : p.Claimable ctx irq ↔ irq ∈ List.range' 1 63 ∧
    p.key ctx irq = some (p.priority (Fin.ofNat 128 irq)).toNat ∧
      (p.threshold ctx).toNat < (p.priority (Fin.ofNat 128 irq)).toNat := by
  rw [mem_sources, key]
  constructor
  · rintro ⟨hsource, hpending, henabled, habove⟩
    exact ⟨hsource, if_pos ⟨hpending, henabled⟩, habove⟩
  · rintro ⟨hsource, hkey, habove⟩
    split at hkey
    · rename_i hbits
      exact ⟨hsource, hbits.1, hbits.2, habove⟩
    · cases hkey

theorem key_eq_some {irq k : Nat} (h : p.key ctx irq = some k) :
    k = (p.priority (Fin.ofNat 128 irq)).toNat := by
  rw [key] at h
  split at h <;> cases h
  rfl

/-- The search finds the best source, or zero when none is claimable. -/
theorem bestIrq_cases (p : Plic) (ctx : Fin 2) :
    (p.bestIrq ctx = 0 ∧ ∀ irq, ¬ p.Claimable ctx irq) ∨ p.Best ctx (p.bestIrq ctx) := by
  rw [bestIrq_scan]
  rcases @Scan.foldl_step _ _ _ (p.key ctx) (List.range' 1 63) 0 (p.threshold ctx).toNat with
    ⟨heq, hnone⟩ | hfirst
  · refine Or.inl ⟨congrArg Prod.fst heq, fun irq hclaim => ?_⟩
    obtain ⟨hmem, hkey, habove⟩ := claimable_iff.mp hclaim
    exact absurd (hnone irq hmem _ hkey) (Nat.not_le.mpr habove)
  · right
    have hpriority := key_eq_some hfirst.key_eq
    have habove := hfirst.above
    rw [hpriority] at habove
    refine ⟨claimable_iff.mpr ⟨hfirst.mem, hpriority ▸ hfirst.key_eq, habove⟩, ?_⟩
    intro other hclaim
    obtain ⟨hmem, hkey, -⟩ := claimable_iff.mp hclaim
    rw [BitVec.lt_def, ← BitVec.toNat_inj, ← hpriority]
    exact hfirst.least List.pairwise_lt_range' hmem hkey

/-- The search returns a source the controller has. -/
theorem bestIrq_lt (p : Plic) (ctx : Fin 2) : p.bestIrq ctx < 64 := by
  rcases bestIrq_cases p ctx with ⟨hzero, -⟩ | hbest
  · omega
  · exact hbest.claimable.source.2

theorem bestIrq_eq_zero : p.bestIrq ctx = 0 ↔ ∀ irq, ¬ p.Claimable ctx irq := by
  constructor
  · intro hzero
    rcases bestIrq_cases p ctx with ⟨-, hnone⟩ | hbest
    · exact hnone
    · have := hbest.claimable.source.1
      omega
  · intro hnone
    rcases bestIrq_cases p ctx with ⟨hzero, -⟩ | hbest
    · exact hzero
    · exact absurd hbest.claimable (hnone _)

end Search

/-! ## Claims -/

theorem load_claimAddr (p : Plic) (ctx : Fin 2) : p.load (claimAddr ctx) = p.claim ctx := by
  match ctx with
  | 0 => rfl
  | 1 => rfl

/-- A cleared bit. -/
theorem getLsbD_clear (x : U64) (irq : Nat) {i : Nat} (hi : i < 64) :
    (x &&& ~~~(1#64 <<< irq)).getLsbD i = (x.getLsbD i && !decide (i = irq)) := by
  rw [BitVec.getLsbD_and, BitVec.getLsbD_not, BitVec.getLsbD_shiftLeft, decide_eq_true hi,
    Bool.true_and, Bool.true_and, BitVec.getLsbD_one]
  rcases Nat.lt_trichotomy i irq with h | rfl | h
  · simp [h, Nat.ne_of_lt h]
  · simp
  · simp [show i - irq ≠ 0 by omega, show i ≠ irq by omega, Nat.not_lt_of_lt h]

theorem claim_claims (p : Plic) (ctx : Fin 2) : p.Claims ctx (p.claim ctx).1 (p.claim ctx).2 := by
  have hlt := bestIrq_lt p ctx
  have hval : (BitVec.ofNat 64 (p.bestIrq ctx)).toNat = p.bestIrq ctx := by
    rw [BitVec.toNat_ofNat]
    omega
  refine ⟨rfl, fun i hi => ?_, ?_⟩
  · rw [claim]
    dsimp only
    by_cases hpos : 0 < p.bestIrq ctx
    · have hne : BitVec.ofNat 64 (p.bestIrq ctx) ≠ 0 := by
        rw [ne_eq, ← BitVec.toNat_inj, hval]
        exact Nat.ne_of_gt hpos
      rw [if_pos hpos, getLsbD_clear _ _ hi, hval]
      simp only [ne_eq, hne, not_false_eq_true, true_and]
    · have hzero : p.bestIrq ctx = 0 := by omega
      rw [if_neg hpos, hzero]
      simp
  · rw [claim]
    dsimp only
    split <;> rfl

/-- The search returns zero exactly when no source is claimable and otherwise the best one, the
interrupt line is up exactly when a claim of the supervisor returns a source, and a claim takes the
pending bit of that source and changes nothing else. -/
theorem arbitration (p : Plic) (ctx : Fin 2) :
    (p.bestIrq ctx = 0 ↔ ∀ irq, ¬ p.Claimable ctx irq) ∧
      (p.bestIrq ctx ≠ 0 → p.Best ctx (p.bestIrq ctx)) ∧
      (p.hasInterrupt = true ↔ (p.load (claimAddr 1)).1 ≠ 0) ∧
      p.Claims ctx (p.load (claimAddr ctx)).1 (p.load (claimAddr ctx)).2 := by
  refine ⟨bestIrq_eq_zero, fun hne => ?_, ?_, ?_⟩
  · rcases bestIrq_cases p ctx with ⟨hzero, -⟩ | hbest
    · exact absurd hzero hne
    · exact hbest
  · have hlt := bestIrq_lt p 1
    have hvalue : (p.load (claimAddr 1)).1 = BitVec.ofNat 64 (p.bestIrq 1) := by
      rw [load_claimAddr]
      rfl
    rw [hasInterrupt, bne_iff_ne, ne_eq, ne_eq, hvalue, ← BitVec.toNat_inj, BitVec.toNat_ofNat,
      Nat.mod_eq_of_lt (by omega)]
    rfl
  · rw [load_claimAddr]
    exact claim_claims p ctx

end Plic

end RiscvEmu
