import RiscvEmu.Interrupts.Arbitration
import RiscvEmu.Lib.System

/-!
# Claims and completions

A source that a claim has returned is in service until its completion is written, and until then it
should be withheld.  The controller does not know which sources are in service.  A claim only takes
the pending bit, and the poll of the devices sets it again as long as the level is up, so a source
is withheld exactly until it is raised.

*Runs.*  A run is a sequence of polls and register accesses.  Beside the controller it tracks the
sources in service, which do not influence it.
-/

namespace RiscvEmu

namespace Plic

/-- A call of the poll, or an access of the guest. -/
inductive Op where
  | setPending (irq : U32) (active : Bool)
  | load (addr : U64)
  | store (addr val : U64)

def after (p : Plic) : Op → Plic
  | .setPending irq active => p.setPending irq active
  | .load addr => (p.load addr).2
  | .store addr val => p.store addr val

/-- The source that an operation claims, or zero. -/
def claimed (p : Plic) : Op → Nat
  | .load addr => if addr = claimAddr 0 ∨ addr = claimAddr 1 then (p.load addr).1.toNat else 0
  | _ => 0

/-- The source that an operation completes, or zero. -/
def completed : Op → Nat
  | .store addr val =>
      if addr = claimAddr 0 ∨ addr = claimAddr 1 then (val.setWidth 32 : U32).toNat else 0
  | _ => 0

/-- The controller, and the sources in service. -/
structure Serving where
  plic : Plic
  serving : Nat → Bool

def Serving.start : Serving := ⟨.new, fun _ => false⟩

/-- The runs of the controller. -/
def services : System Serving Op where
  init s := s = .start
  step op s := some
    { plic := s.plic.after op
      serving := fun irq =>
        if irq ≠ 0 ∧ irq = s.plic.claimed op then true
        else if irq ≠ 0 ∧ irq = completed op then false
        else s.serving irq }

/-! ## The law -/

/-- No context claims the source, and it does not hold up the interrupt line. -/
structure Withheld (p : Plic) (irq : Nat) : Prop where
  unclaimed : ∀ ctx, p.bestIrq ctx ≠ irq
  silent : p.hasInterrupt = { p with pending := p.pending &&& ~~~(1#64 <<< irq) }.hasInterrupt

/-- The law of one operation. -/
structure GatingLaw (s : Serving) (op : Op) : Prop where
  /-- A claim returns no source that is in service. -/
  once : s.plic.claimed op ≠ 0 → s.serving (s.plic.claimed op) = false
  /-- After the operation the sources in service are withheld. -/
  withheld : ∀ s', services.step op s = some s' → ∀ irq, s'.serving irq = true →
    s'.plic.Withheld irq
  /-- A source that is raised while it is not in service can be claimed when its registers allow
  it. -/
  raised : ∀ irq ctx, op = .setPending irq true → s.serving irq.toNat = false →
    1 ≤ irq.toNat ∧ irq.toNat < 64 →
    (s.plic.enable ctx (Fin.ofNat 4 (irq.toNat / 32))).getLsbD (irq.toNat % 32) = true →
    s.plic.threshold ctx < s.plic.priority (Fin.ofNat 128 irq.toNat) →
    (s.plic.after op).Claimable ctx irq.toNat
  /-- A pending source stays pending until it is claimed, completed or lowered. -/
  kept : ∀ irq, irq < 64 → s.plic.pending.getLsbD irq = true →
    (s.plic.after op).pending.getLsbD irq = true ∨
      irq = s.plic.claimed op ∨ irq = completed op ∨
        ∃ n : U32, n.toNat = irq ∧ op = .setPending n false

/-- The operation raises no source that is in service. -/
def Unraised (s : Serving) (op : Op) : Prop :=
  ∀ irq, op = .setPending irq true → s.serving irq.toNat = false

/-- Writes of the guest to priorities, enables and thresholds. -/
def Programs (ops : List Op) : Prop :=
  ∀ op ∈ ops, ∃ addr val, op = .store addr val ∧ addr ≠ claimAddr 0 ∧ addr ≠ claimAddr 1

/-! ## Pending bits -/

/-- A set bit. -/
theorem getLsbD_set (x : U64) (irq : Nat) {i : Nat} (hi : i < 64) :
    (x ||| (1#64 <<< irq)).getLsbD i = (x.getLsbD i || decide (i = irq)) := by
  have h := getLsbD_clear (~~~x) irq hi
  rw [← BitVec.not_or, BitVec.getLsbD_not, BitVec.getLsbD_not, decide_eq_true hi, Bool.true_and,
    Bool.true_and] at h
  rw [← Bool.not_not (b := BitVec.getLsbD _ i), h]
  simp

/-- What a poll makes of the pending bits. -/
theorem setPending_bit (p : Plic) (irq : U32) (active : Bool) {i : Nat} (hi : i < 64) :
    (p.setPending irq active).pending.getLsbD i =
      if i = irq.toNat then active else p.pending.getLsbD i := by
  rw [setPending]
  by_cases hirq : irq.toNat < 64
  · rw [if_pos hirq]
    cases active with
    | true =>
        rw [if_pos rfl, getLsbD_set _ _ hi]
        by_cases heq : i = irq.toNat <;> simp [heq]
    | false =>
        rw [if_neg (by decide), getLsbD_clear _ _ hi]
        by_cases heq : i = irq.toNat <;> simp [heq]
  · rw [if_neg hirq, if_neg (by omega)]

/-- A poll writes no other register. -/
theorem setPending_registers (p : Plic) (irq : U32) (active : Bool) :
    p.setPending irq active = { p with pending := (p.setPending irq active).pending } := by
  rw [setPending]
  split
  · split <;> rfl
  · rfl

theorem eq_of_off {addr k : U64} (h : (addr - base).toNat = k.toNat) : addr = base + k := by
  rw [← BitVec.eq_of_toNat_eq h, BitVec.add_comm, BitVec.sub_add_cancel]

/-- The claim registers are where the offset in the block of a context is four. -/
theorem claimAddr_of_off {addr : U64} {ctx : Fin 2} (hlow : 0x200000 ≤ (addr - base).toNat)
    (hctx : contextIndex (addr - base).toNat = some ctx)
    (hreg : ((addr - base).toNat - 0x200000) % 0x1000 = 4) :
    addr = claimAddr 0 ∨ addr = claimAddr 1 := by
  rw [contextIndex] at hctx
  split at hctx
  · rename_i hlt
    have hoff : (addr - base).toNat = (0x200004 : U64).toNat ∨
        (addr - base).toNat = (0x201004 : U64).toNat := by
      rw [show (0x200004 : U64).toNat = 0x200004 from rfl,
        show (0x201004 : U64).toNat = 0x201004 from rfl]
      omega
    rcases hoff with hoff | hoff
    · exact Or.inl (eq_of_off hoff)
    · exact Or.inr (eq_of_off hoff)
  · cases hctx

/-- A load claims, or leaves the controller alone. -/
theorem load_cases (p : Plic) (addr : U64) :
    (∃ ctx, addr = claimAddr ctx ∧ p.load addr = p.claim ctx) ∨
      addr ≠ claimAddr 0 ∧ addr ≠ claimAddr 1 ∧ (p.load addr).2 = p := by
  by_cases h0 : addr = claimAddr 0
  · exact Or.inl ⟨0, h0, h0 ▸ load_claimAddr p 0⟩
  by_cases h1 : addr = claimAddr 1
  · exact Or.inl ⟨1, h1, h1 ▸ load_claimAddr p 1⟩
  refine Or.inr ⟨h0, h1, ?_⟩
  rw [load]
  split
  · rfl
  · split
    · split <;> rfl
    · split
      · split <;> rfl
      · split
        · rename_i hlow
          split
          · rfl
          · rename_i ctx hctx
            split
            · rfl
            · rename_i hreg
              exact absurd (claimAddr_of_off hlow.1 hctx hreg) (by simp [h0, h1])
            · rfl
        · rfl

/-- A store to a claim register completes. -/
theorem store_claimAddr (p : Plic) {addr : U64} (haddr : addr = claimAddr 0 ∨ addr = claimAddr 1)
    (val : U64) : p.store addr val =
      if 0 < (val.setWidth 32 : U32).toNat ∧ (val.setWidth 32 : U32).toNat < 64 then
        { p with pending := p.pending &&& ~~~(1#64 <<< (val.setWidth 32 : U32).toNat) }
      else p := by
  obtain ⟨ctx, hctx, hoff⟩ : ∃ ctx, contextIndex (addr - base).toNat = some ctx ∧
      (addr - base).toNat = 0x200000 + (0x1000 * ctx.val + 4) := by
    rcases haddr with rfl | rfl
    · exact ⟨0, by decide, by decide⟩
    · exact ⟨1, by decide, by decide⟩
  have hlt := ctx.isLt
  have hreg : ((addr - base).toNat - 0x200000) % 0x1000 = 4 := by omega
  rw [store]
  simp only [hctx, hreg]
  rw [if_neg (by omega), if_neg (by omega), if_pos (by omega)]

/-- A store completes, or leaves the pending bits alone. -/
theorem store_pending (p : Plic) (addr val : U64) :
    (p.store addr val).pending =
      if 0 < completed (.store addr val) ∧ completed (.store addr val) < 64 then
        p.pending &&& ~~~(1#64 <<< completed (.store addr val))
      else p.pending := by
  by_cases hclaim : addr = claimAddr 0 ∨ addr = claimAddr 1
  · have hcompleted : completed (.store addr val) = (val.setWidth 32 : U32).toNat := if_pos hclaim
    rw [hcompleted, store_claimAddr p hclaim]
    split <;> rfl
  · have hcompleted : completed (.store addr val) = 0 := if_neg hclaim
    rw [hcompleted, if_neg (fun h => absurd h.1 (Nat.lt_irrefl 0)), store]
    split
    · rfl
    · split
      · split <;> rfl
      · split
        · rename_i hlow
          split
          · rfl
          · rename_i ctx hctx
            split
            · rfl
            · rename_i hreg
              exact absurd (claimAddr_of_off hlow.1 hctx hreg) hclaim
            · rfl
        · rfl

/-- The source that a claim of a context returns. -/
theorem claimed_load (p : Plic) (ctx : Fin 2) :
    p.claimed (.load (claimAddr ctx)) = p.bestIrq ctx := by
  have hlt := bestIrq_lt p ctx
  have haddr : claimAddr ctx = claimAddr 0 ∨ claimAddr ctx = claimAddr 1 := by
    match ctx with
    | 0 => exact Or.inl rfl
    | 1 => exact Or.inr rfl
  rw [claimed, if_pos haddr, load_claimAddr, claim, BitVec.toNat_ofNat]
  omega

theorem claimed_lt (p : Plic) (op : Op) : p.claimed op < 64 := by
  match op with
  | .setPending irq active => exact Nat.zero_lt_succ _
  | .store addr val => exact Nat.zero_lt_succ _
  | .load addr =>
      rcases load_cases p addr with ⟨ctx, rfl, -⟩ | ⟨h0, h1, -⟩
      · rw [claimed_load]
        exact bestIrq_lt p ctx
      · rw [claimed, if_neg (not_or.mpr ⟨h0, h1⟩)]
        exact Nat.zero_lt_succ _

/-- What an operation makes of a pending bit. -/
theorem after_bit (p : Plic) (op : Op) {i : Nat} (hi : i < 64) :
    (p.after op).pending.getLsbD i =
      match op with
      | .setPending irq active => if i = irq.toNat then active else p.pending.getLsbD i
      | op => p.pending.getLsbD i &&
          !decide (i ≠ 0 ∧ (i = p.claimed op ∨ i = completed op)) := by
  match op with
  | .setPending irq active => exact setPending_bit p irq active hi
  | .load addr =>
      have hcompleted : completed (.load addr) = 0 := rfl
      rw [after]
      dsimp only
      rcases load_cases p addr with ⟨ctx, rfl, hload⟩ | ⟨h0, h1, hsame⟩
      · have hlt := bestIrq_lt p ctx
        have hbits := (claim_claims p ctx).pending i hi
        have hval : (p.claim ctx).1.toNat = p.bestIrq ctx := by
          rw [(claim_claims p ctx).value, BitVec.toNat_ofNat]
          omega
        have hzero : (p.claim ctx).1 ≠ 0 ↔ p.bestIrq ctx ≠ 0 := by
          rw [ne_eq, ← BitVec.toNat_inj, hval]
          rfl
        rw [hload, hbits, hval, claimed_load, hcompleted]
        congr 2
        rw [decide_eq_decide, hzero]
        omega
      · have hnone : p.claimed (.load addr) = 0 := if_neg (not_or.mpr ⟨h0, h1⟩)
        rw [hsame, hnone, hcompleted]
        have hfalse : ¬ (i ≠ 0 ∧ (i = 0 ∨ i = 0)) := fun h => h.2.elim h.1 h.1
        rw [decide_eq_false hfalse, Bool.not_false, Bool.and_true]
  | .store addr val =>
      have hclaimed : p.claimed (.store addr val) = 0 := rfl
      rw [after, store_pending]
      dsimp only
      rw [hclaimed]
      split
      · rename_i hcompleted
        rw [getLsbD_clear _ _ hi]
        congr 2
        rw [decide_eq_decide]
        omega
      · rename_i hcompleted
        rw [decide_eq_false (by omega), Bool.not_false, Bool.and_true]

/-! ## Sources in service -/

/-- A source that is not pending is withheld. -/
theorem withheld_of_clear {p : Plic} {irq : Nat} (hne : irq ≠ 0)
    (hclear : p.pending.getLsbD irq = false) : p.Withheld irq := by
  refine ⟨fun ctx heq => ?_, ?_⟩
  · rcases bestIrq_cases p ctx with ⟨hzero, -⟩ | hfound
    · exact hne (heq.symm.trans hzero)
    · rw [heq] at hfound
      exact absurd (hclear.symm.trans hfound.claimable.pending) (by decide)
  · have hsame : p.pending &&& ~~~(1#64 <<< irq) = p.pending := by
      apply BitVec.eq_of_getLsbD_eq
      intro i hi
      rw [getLsbD_clear _ _ hi]
      by_cases heq : i = irq
      · rw [heq, hclear]
        rfl
      · rw [decide_eq_false heq, Bool.not_false, Bool.and_true]
    rw [hsame]

/-- The sources in service exist and are not pending. -/
def Gated (s : Serving) : Prop :=
  ∀ irq, s.serving irq = true → irq ≠ 0 ∧ irq < 64 ∧ s.plic.pending.getLsbD irq = false

theorem gated_start : Gated .start := nofun

/-- An operation keeps the sources in service not pending unless it raises one of them. -/
theorem Gated.step {s s' : Serving} {op : Op} (hs : Gated s) (hraise : Unraised s op)
    (hstep : services.step op s = some s') : Gated s' := by
  obtain rfl := Option.some.inj hstep
  intro irq hserving
  dsimp only at hserving ⊢
  split at hserving
  · rename_i hclaimed
    have hlt : irq < 64 := hclaimed.2 ▸ claimed_lt s.plic op
    refine ⟨hclaimed.1, hlt, ?_⟩
    rw [after_bit _ _ hlt]
    match op with
    | .setPending n active => exact absurd hclaimed.2 hclaimed.1
    | .load addr =>
        simp only [decide_eq_true (⟨hclaimed.1, Or.inl hclaimed.2⟩ : irq ≠ 0 ∧ _), Bool.not_true,
          Bool.and_false]
    | .store addr val => exact absurd hclaimed.2 hclaimed.1
  · split at hserving
    · cases hserving
    · obtain ⟨hne, hlt, hclear⟩ := hs irq hserving
      refine ⟨hne, hlt, ?_⟩
      rw [after_bit _ _ hlt]
      match op with
      | .setPending n active =>
          dsimp only
          split
          · rename_i heq
            cases active with
            | true =>
                have hfalse := hraise n rfl
                rw [← heq, hserving] at hfalse
                cases hfalse
            | false => rfl
          · exact hclear
      | .load addr => simp [hclear]
      | .store addr val => simp [hclear]

/-- Where the sources in service are not pending, an operation that raises none of them obeys the
law. -/
theorem Gated.law {s : Serving} (hs : Gated s) {op : Op} (hraise : Unraised s op) :
    GatingLaw s op := by
  refine ⟨fun hclaimed => ?_, fun s' hstep irq hserving => ?_,
    fun irq ctx hop _ hsource henabled habove => ?_, fun irq hlt hpending => ?_⟩
  · cases hserving : s.serving (s.plic.claimed op) with
    | false => rfl
    | true =>
        -- a claim returns what is pending
        match op, hclaimed with
        | .load addr, hclaimed =>
            rcases load_cases s.plic addr with ⟨ctx, rfl, -⟩ | ⟨h0, h1, -⟩
            · rw [claimed_load] at hclaimed hserving
              rcases bestIrq_cases s.plic ctx with ⟨hzero, -⟩ | hbest
              · exact absurd hzero hclaimed
              · have hclear := (hs _ hserving).2.2
                exact absurd (hclear.symm.trans hbest.claimable.pending) (by decide)
            · exact absurd (if_neg (not_or.mpr ⟨h0, h1⟩)) hclaimed
  · obtain ⟨hne, -, hclear⟩ := hs.step hraise hstep irq hserving
    exact withheld_of_clear hne hclear
  · subst hop
    have hbit := setPending_bit s.plic irq true hsource.2
    rw [if_pos rfl] at hbit
    rw [after, setPending_registers]
    exact ⟨hsource, hbit, henabled, habove⟩
  · rw [after_bit _ _ hlt]
    match op with
    | .setPending n active =>
        by_cases heq : irq = n.toNat
        · cases active with
          | true => exact Or.inl (if_pos heq)
          | false => exact Or.inr (Or.inr (Or.inr ⟨n, heq.symm, rfl⟩))
        · exact Or.inl ((if_neg heq).trans hpending)
    | .load addr =>
        by_cases heq : irq = s.plic.claimed (.load addr)
        · exact Or.inr (Or.inl heq)
        · left
          have hcompleted : completed (.load addr) = 0 := rfl
          simp only [hpending, hcompleted, heq, false_or, Bool.true_and, Bool.not_eq_true',
            decide_eq_false_iff_not]
          exact fun h => h.1 h.2
    | .store addr val =>
        by_cases heq : irq = completed (.store addr val)
        · exact Or.inr (Or.inr (Or.inl heq))
        · left
          have hclaimed : s.plic.claimed (.store addr val) = 0 := rfl
          simp only [hpending, hclaimed, heq, or_false, Bool.true_and, Bool.not_eq_true',
            decide_eq_false_iff_not]
          exact fun h => h.1 h.2

/-! ## A source raised in service -/

/-- The word of an enable register that enables one source only. -/
def enableWord (irq word : Nat) : U64 := if irq / 32 = word then 1#64 <<< (irq % 32) else 0#64

/-- Register writes that let the supervisor claim one source only. -/
def programFor (irq : Nat) : List Op :=
  [.store (base + BitVec.ofNat 64 (4 * irq)) 1, .store (base + 0x201000) 0,
    .store (base + 0x2080) (enableWord irq 0), .store (base + 0x2084) (enableWord irq 1)]

/-- The controller after those writes. -/
def programmedFor (p : Plic) (irq : Nat) : Plic :=
  { p with
    priority := Function.update p.priority (Fin.ofNat 128 irq) 1
    threshold := Function.update p.threshold 1 0
    enable := Function.update p.enable 1
      (Function.update (Function.update (p.enable 1) 0 ((enableWord irq 0).setWidth 32)) 1
        ((enableWord irq 1).setWidth 32)) }

theorem base_add_off {n : Nat} (hn : n < 2 ^ 64) : (base + BitVec.ofNat 64 n - base).toNat = n := by
  rw [BitVec.add_comm, BitVec.add_sub_cancel, BitVec.toNat_ofNat, Nat.mod_eq_of_lt hn]

theorem store_sourcePriority (p : Plic) {irq : Nat} (hirq : irq < 64) (val : U64) :
    p.store (base + BitVec.ofNat 64 (4 * irq)) val =
      { p with priority := Function.update p.priority (Fin.ofNat 128 irq) (val.setWidth 32) } := by
  have hoff : (base + BitVec.ofNat 64 (4 * irq) - base).toNat = 4 * irq := base_add_off (by omega)
  have hlow : (base + BitVec.ofNat 64 (4 * irq) - base).toNat ≤ 0x0001FF := by omega
  refine (if_pos hlow).trans ?_
  rw [hoff, Nat.mul_div_cancel_left irq (by decide)]

theorem after_programFor (p : Plic) {irq : Nat} (hirq : irq < 64) :
    (programFor irq).foldl after p = programmedFor p irq := by
  have hthreshold : ∀ q : Plic, q.store (base + 0x201000) 0 =
      { q with threshold := Function.update q.threshold 1 0 } := fun _ => rfl
  have henable₀ : ∀ (q : Plic) (val : U64), q.store (base + 0x2080) val =
      { q with
        enable := Function.update q.enable 1
          (Function.update (q.enable 1) 0 (val.setWidth 32)) } := fun _ _ => rfl
  have henable₁ : ∀ (q : Plic) (val : U64), q.store (base + 0x2084) val =
      { q with
        enable := Function.update q.enable 1
          (Function.update (q.enable 1) 1 (val.setWidth 32)) } := fun _ _ => rfl
  simp only [programFor, List.foldl_cons, List.foldl_nil, after, store_sourcePriority p hirq,
    hthreshold, henable₀, henable₁, Function.update_self, Function.update_idem]
  rfl

/-- Those registers are not the ones a claim is made at. -/
theorem programFor_programs {irq : Nat} (hirq : irq < 64) : Programs (programFor irq) := by
  have hlow : ∀ k : U64, 0x100 ≤ (k - base).toNat → base + BitVec.ofNat 64 (4 * irq) ≠ k := by
    rintro k hk rfl
    rw [base_add_off (by omega)] at hk
    omega
  intro op hop
  simp only [programFor, List.mem_cons, List.not_mem_nil, or_false] at hop
  rcases hop with rfl | rfl | rfl | rfl
  · exact ⟨_, _, rfl, hlow _ (by decide), hlow _ (by decide)⟩
  · exact ⟨_, _, rfl, by decide, by decide⟩
  · exact ⟨_, _, rfl, by decide, by decide⟩
  · exact ⟨_, _, rfl, by decide, by decide⟩

theorem enableWord_bit (irq word : Nat) {i : Nat} (hi : i < 32) :
    ((enableWord irq word).setWidth 32 : U32).getLsbD i = decide (irq = 32 * word + i) := by
  rw [enableWord]
  split
  · rename_i hword
    rw [BitVec.getLsbD_setWidth, decide_eq_true hi, Bool.true_and, BitVec.getLsbD_shiftLeft,
      decide_eq_true (show i < 64 by omega), Bool.true_and, BitVec.getLsbD_one]
    rw [← Bool.decide_coe (!decide (i < irq % 32)), ← Bool.decide_coe (_ && _), decide_eq_decide]
    simp
    omega
  · rename_i hword
    rw [BitVec.setWidth_zero, BitVec.getLsbD_zero, eq_comm, decide_eq_false_iff_not]
    omega

/-- The source is the one the supervisor would claim. -/
theorem bestIrq_programmedFor {p : Plic} {irq : Nat} (hne : irq ≠ 0) (hirq : irq < 64)
    (hpending : p.pending.getLsbD irq = true) : (programmedFor p irq).bestIrq 1 = irq := by
  have henabled : ∀ j < 64,
      ((programmedFor p irq).enable 1 (Fin.ofNat 4 (j / 32))).getLsbD (j % 32) =
        decide (irq = j) := by
    intro j hj
    obtain hword | hword : j / 32 = 0 ∨ j / 32 = 1 := by omega
    · have hbit := enableWord_bit irq 0 (i := j % 32) (by omega)
      rw [show 32 * 0 + j % 32 = j by omega] at hbit
      rw [hword]
      exact hbit
    · have hbit := enableWord_bit irq 1 (i := j % 32) (by omega)
      rw [show 32 * 1 + j % 32 = j by omega] at hbit
      rw [hword]
      exact hbit
  have hclaim : (programmedFor p irq).Claimable 1 irq := by
    refine ⟨⟨by omega, hirq⟩, hpending, (henabled irq hirq).trans (decide_eq_true rfl), ?_⟩
    rw [programmedFor]
    dsimp only
    rw [Function.update_self, Function.update_self]
    decide
  rcases bestIrq_cases (programmedFor p irq) 1 with ⟨-, hnone⟩ | hbest
  · exact absurd hclaim (hnone irq)
  · have hbit := hbest.claimable.enabled
    rw [henabled _ hbest.claimable.source.2] at hbit
    exact (of_decide_eq_true hbit).symm

/-- The state that register writes lead to. -/
theorem along_programs {P : Serving → Op → Prop} : ∀ {ops : List Op} {s : Serving},
    Programs ops → ops ≠ [] → services.Along P ops s →
      ∃ s₁ op, P s₁ op ∧ services.step op s₁ = some ⟨ops.foldl after s.plic, s.serving⟩
  | op :: ops, s, hops, _, ⟨hp, hrest⟩ => by
      obtain ⟨addr, val, rfl, h0, h1⟩ := hops _ (List.mem_cons_self ..)
      have hstep : services.step (.store addr val) s =
          some ⟨s.plic.after (.store addr val), s.serving⟩ := by
        have hcompleted : completed (.store addr val) = 0 := if_neg (not_or.mpr ⟨h0, h1⟩)
        simp only [services, claimed, hcompleted]
        congr 2
        funext irq
        rw [if_neg fun h => h.1 h.2, if_neg fun h => h.1 h.2]
      match ops with
      | [] => exact ⟨s, _, hp, hstep⟩
      | op' :: ops' =>
          have hnext : Programs (op' :: ops') := fun o ho => hops o (.tail _ ho)
          obtain ⟨s₁, o, hlaw, hlast⟩ := along_programs hnext (List.cons_ne_nil _ _) (hrest _ hstep)
          exact ⟨s₁, o, hlaw, hlast⟩

/-- A poll that raises a source in service breaks the law, as soon as the guest lets the supervisor
claim that source. -/
theorem Gated.breaks {s : Serving} (hs : Gated s) {op : Op} (hraise : ¬ Unraised s op) :
    ∃ regs, Programs regs ∧ ¬ services.Along GatingLaw (op :: regs) s := by
  rw [Unraised] at hraise
  push Not at hraise
  obtain ⟨n, rfl, hserving⟩ := hraise
  rw [Bool.ne_false_iff] at hserving
  obtain ⟨hne, hlt, -⟩ := hs _ hserving
  refine ⟨programFor n.toNat, programFor_programs hlt, fun ⟨_, hrest⟩ => ?_⟩
  obtain ⟨s₁, op, hlaw, hstep⟩ := along_programs (programFor_programs hlt) (by simp [programFor])
    (hrest _ rfl)
  have hkept : ∀ irq, (if irq ≠ 0 ∧ irq = 0 then true else if irq ≠ 0 ∧ irq = 0 then false
      else s.serving irq) = s.serving irq := fun irq => by
    rw [if_neg fun h => h.1 h.2, if_neg fun h => h.1 h.2]
  have hwithheld := hlaw.withheld _ hstep n.toNat ((hkept _).trans hserving)
  refine hwithheld.unclaimed 1 ?_
  rw [after_programFor _ hlt]
  refine bestIrq_programmedFor hne hlt ?_
  rw [after_bit _ _ hlt]
  exact if_pos rfl

/-- Along a run of the controller in which no poll raises a source that is in service the law holds.
A run in which one does begins a run that breaks it, with writes to priorities, enables and
thresholds only behind the poll. -/
theorem gating_along (ops : List Op) :
    (services.Along Unraised ops .start → services.Along GatingLaw ops .start) ∧
      (¬ services.Along Unraised ops .start → ∃ polls regs, polls <+: ops ∧ Programs regs ∧
        ¬ services.Along GatingLaw (polls ++ regs) .start) := by
  have hgated : ∀ {s : Serving}, Gated s →
      (services.Along Unraised ops s → services.Along GatingLaw ops s) ∧
        (¬ services.Along Unraised ops s → ∃ polls regs, polls <+: ops ∧ Programs regs ∧
          ¬ services.Along GatingLaw (polls ++ regs) s) := by
    induction ops with
    | nil => exact fun _ => ⟨fun _ => trivial, fun h => absurd trivial h⟩
    | cons op ops ih =>
        intro s hs
        refine ⟨fun ⟨hraise, hrest⟩ => ⟨hs.law hraise, fun s' hstep =>
          (ih (hs.step hraise hstep)).1 (hrest s' hstep)⟩, fun hbreaks => ?_⟩
        by_cases hraise : Unraised s op
        · have hrest : ¬ ∀ s', services.step op s = some s' → services.Along Unraised ops s' :=
            fun hrest => hbreaks ⟨hraise, hrest⟩
          push Not at hrest
          obtain ⟨s', hstep, hrest⟩ := hrest
          obtain ⟨polls, regs, hpre, hregs, hbad⟩ := (ih (hs.step hraise hstep)).2 hrest
          exact ⟨op :: polls, regs, List.cons_prefix_cons.mpr ⟨rfl, hpre⟩, hregs,
            fun h => hbad (h.2 s' hstep)⟩
        · obtain ⟨regs, hregs, hbad⟩ := hs.breaks hraise
          exact ⟨[op], regs, ⟨ops, rfl⟩, hregs, hbad⟩
  exact hgated gated_start

/-- The serial port raises its source, the supervisor claims it, and the next poll finds the level
still up: the same source is claimed again. -/
theorem raised_inService :
    ¬ ∀ ops, services.Along GatingLaw ops .start := by
  intro hall
  obtain ⟨-, hrun⟩ := hall [.store (base + 40) 1, .store (base + 0x2080) (1 <<< 10),
    .setPending 10 true, .load (claimAddr 1), .setPending 10 true, .load (claimAddr 1)]
  obtain ⟨-, hrun⟩ := hrun _ rfl
  obtain ⟨-, hrun⟩ := hrun _ rfl
  obtain ⟨-, hrun⟩ := hrun _ rfl
  obtain ⟨-, hrun⟩ := hrun _ rfl
  have honce := (hrun _ rfl).1.once
  exact absurd (honce (by decide +kernel)) (by decide +kernel)

end Plic

end RiscvEmu
