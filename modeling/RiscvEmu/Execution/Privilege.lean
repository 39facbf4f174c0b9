import RiscvEmu.RamAccess
import RiscvEmu.Execution.Endings
import RiscvEmu.Csrs.Aliases

/-!
# Privilege isolation

Below M-mode a step should deliver a trap, or keep to what the mode allows: the mode is not
raised, only CSRs of the mode are written, and no return or translation fence of a higher mode
is performed.  An instruction that the mode does not allow should be illegal.

The execution arms check `TSR` and `TVM`, and nothing else.  So the law holds of a step exactly
when the instruction it executes is one the mode allows (`privilegeLaw_iff`).
-/

namespace RiscvEmu

/-- The lowest privilege that may access a CSR, from bits 9:8 of the address. -/
def requiredPriv (addr : CsrAddr) : U64 := ((addr >>> 8) &&& 3).setWidth 64

/-- Whether a mode allows an instruction. -/
def Allowed (mode : PrivMode) : Instruction → Prop
  | .csr _ _ _ csr => requiredPriv csr ≤ mode.code
  | .mret => mode = .m
  | .sret | .sfenceVma => mode ≠ .u
  | _ => True

namespace Cpu

/-! ## The instruction of a step -/

/-- The instruction a step executes, and the hart it executes it on.  There is none when an
interrupt is taken, or the fetch or the decoder fails. -/
def fetched (c : Cpu) : Option (Instruction × Cpu) :=
  if c.nextInterrupt = none ∧ c.pc &&& 0x1 = 0 then
    match fetch c.mode c.pc c with
    | some (.ok raw, c') =>
        match (decodeFetched raw).2 with
        | .ok inst => some (inst, { c' with instSize := (decodeFetched raw).1 })
        | .error _ => none
    | _ => none
  else none

section

variable {fpu : Fpu} {c c' : Cpu} {inst : Instruction} {r : Retired}

/-- What a fetch leaves. -/
theorem fetched_eq_some (h : c.fetched = some (inst, c')) :
    c.nextInterrupt = none ∧ c.pc &&& 0x1 = 0 ∧
      ∃ raw c₁, fetch c.mode c.pc c = some (.ok raw, c₁) ∧ (decodeFetched raw).2 = .ok inst ∧
        c' = { c₁ with instSize := (decodeFetched raw).1 } := by
  rw [fetched] at h
  split at h
  · rename_i hc
    split at h
    · rename_i raw c₁ hf
      split at h
      · rename_i inst' hd
        cases h
        exact ⟨hc.1, hc.2, raw, c₁, hf, hd, rfl⟩
      · cases h
    · cases h
  · cases h

/-- A step with an instruction executes it. -/
theorem step_of_fetched (h : c.fetched = some (inst, c')) :
    step fpu c = execute fpu inst c' := by
  obtain ⟨hint, hpc, raw, c₁, hf, hd, rfl⟩ := fetched_eq_some h
  simp only [step, hint, hpc, ne_eq, not_true_eq_false, if_false, orRaise, hf, executeFetched, hd]

/-- The hart an instruction executes on has the mode, the CSRs and the counter of the step. -/
theorem fetched_keeps (h : c.fetched = some (inst, c')) :
    c'.mode = c.mode ∧ c'.csr = c.csr ∧ c'.pc = c.pc := by
  obtain ⟨_, _, raw, c₁, hf, _, rfl⟩ := fetched_eq_some h
  have hkeep := fetch_keepsHart _ _ _ _ _ hf
  exact ⟨hkeep.mode, hkeep.csr, hkeep.pc⟩

/-- A step without an instruction delivers a trap, before or after the fetch. -/
theorem not_fetched_cases (h : c.fetched = none) (hs : step fpu c = some r) :
    ∃ t c₁ n, (c₁ = c ∨ ∃ res, fetch c.mode c.pc c = some (res, c₁)) ∧
      r = { c₁ with instSize := n }.raise t := by
  rw [step] at hs
  split at hs
  · cases hs
    exact ⟨_, c, c.instSize, Or.inl rfl, rfl⟩
  · rename_i hint
    split at hs
    · cases hs
      exact ⟨_, c, c.instSize, Or.inl rfl, rfl⟩
    · rename_i hpc
      rcases orRaise_eq_some hs with ⟨t, c₁, hf, rfl⟩ | ⟨raw, c₁, hf, hx⟩
      · exact ⟨t, c₁, c₁.instSize, Or.inr ⟨_, hf⟩, rfl⟩
      · rw [executeFetched] at hx
        cases hd : (decodeFetched raw).2 with
        | error tval =>
            simp only [hd] at hx
            cases hx
            exact ⟨_, c₁, _, Or.inr ⟨_, hf⟩, rfl⟩
        | ok inst =>
            rw [fetched, if_pos ⟨hint, not_not.mp hpc⟩, hf] at h
            simp only [hd] at h
            cases h

theorem step_of_not_fetched (h : c.fetched = none) (hs : step fpu c = some r) :
    ∃ (t : Trap) (c₁ : Cpu), r = c₁.raise t ∧ c₁.mode = c.mode ∧ c₁.csr = c.csr ∧ c₁.pc = c.pc := by
  obtain ⟨t, c₁, n, rfl | ⟨res, hf⟩, rfl⟩ := not_fetched_cases h hs
  · exact ⟨t, _, rfl, rfl, rfl, rfl⟩
  · have hkeep := fetch_keepsHart _ _ _ _ _ hf
    exact ⟨t, _, rfl, hkeep.mode, hkeep.csr, hkeep.pc⟩

/-! ## Trap entry -/

/-- Trap entry reads the mode, the CSRs and the counter only. -/
theorem deliverTrap_congr {c₁ : Cpu} (hmode : c₁.mode = c.mode) (hcsr : c₁.csr = c.csr)
    (hpc : c₁.pc = c.pc) (cause tval : U64) :
    (c₁.deliverTrap cause tval).mode = (c.deliverTrap cause tval).mode ∧
      (c₁.deliverTrap cause tval).csr = (c.deliverTrap cause tval).csr ∧
      (c₁.deliverTrap cause tval).pc = (c.deliverTrap cause tval).pc := by
  have hdel : c₁.delegated cause = c.delegated cause := by rw [delegated, delegated, hmode, hcsr]
  rw [deliverTrap, deliverTrap, hdel, hmode, hcsr, hpc]
  split <;> exact ⟨rfl, rfl, rfl⟩

end

/-! ## The law -/

/-- The changes of the CSR file a mode allows: writes of CSRs of the mode, the status update of a
return from S-mode, and the floating-point state marked dirty. -/
inductive CsrsWithin (mode : PrivMode) (csr : Csr) : Csr → Prop where
  | same : CsrsWithin mode csr csr
  | dirty : CsrsWithin mode csr (dirtyCsr csr)
  | write {addr : CsrAddr} (val : U64) : requiredPriv addr ≤ mode.code →
      CsrsWithin mode csr (csr.write addr val)
  | sret : mode ≠ .u →
      CsrsWithin mode csr { csr with mstatus := csr.mstatus &&& ~~~(1 <<< 17 : U64) }.sRet

/-- The bits of `mstatus` that lie outside the view of S-mode.  A return from S-mode clears `MPRV`
as well. -/
def machineStatus : U64 := ~~~(0xD_E162 ||| 1 <<< 17)

/-- The files agree on the registers that only M-mode has a view of, and on the bits of the others
that lie outside the views of S-mode. -/
structure SameMachine (csr csr' : Csr) : Prop where
  misa : csr'.misa = csr.misa
  mtvec : csr'.mtvec = csr.mtvec
  mscratch : csr'.mscratch = csr.mscratch
  mepc : csr'.mepc = csr.mepc
  mcause : csr'.mcause = csr.mcause
  mtval : csr'.mtval = csr.mtval
  medeleg : csr'.medeleg = csr.medeleg
  mideleg : csr'.mideleg = csr.mideleg
  pmpcfg0 : csr'.pmpcfg0 = csr.pmpcfg0
  pmpcfg2 : csr'.pmpcfg2 = csr.pmpcfg2
  pmpaddr : csr'.pmpaddr = csr.pmpaddr
  mstatus : csr'.mstatus &&& machineStatus = csr.mstatus &&& machineStatus
  mie : csr'.mie &&& ~~~0x222 = csr.mie &&& ~~~0x222
  mip : csr'.mip &&& ~~~0x002 = csr.mip &&& ~~~0x002

/-- A mode below M-mode is no higher than S-mode. -/
theorem code_le_one {mode : PrivMode} (h : mode ≠ .m) : mode.code ≤ 1 := by
  cases mode with
  | u | s => decide
  | m => exact absurd rfl h

theorem requiredPriv_pmp {addr : CsrAddr} {i : Fin 16} (h : Csr.pmpIndex addr = some i) :
    requiredPriv addr = 3 := by
  rw [Csr.pmpIndex] at h
  split at h
  · rename_i hrange
    obtain ⟨hlo, hhi⟩ := hrange
    rw [BitVec.le_def, BitVec.toNat_ofNat] at hlo hhi
    have hlt := addr.isLt
    apply BitVec.eq_of_toNat_eq
    rw [requiredPriv, BitVec.toNat_setWidth, BitVec.toNat_and, BitVec.toNat_ushiftRight,
      Nat.shiftRight_eq_div_pow, show (3 : CsrAddr).toNat = 2 ^ 2 - 1 from rfl,
      Nat.and_two_pow_sub_one_eq_mod, show (3 : U64).toNat = 3 from rfl]
    omega
  · cases h

section Writes

variable (csr : Csr) {addr : CsrAddr} (val : U64) {f : Csr.Field}

/-- A field that only M-mode has an address for. -/
theorem get_write_machine (hpriv : requiredPriv addr ≤ 1)
    (hmachine : (Csr.addresses f).all fun a => !decide (requiredPriv a ≤ 1)) :
    (csr.write addr val).get f = csr.get f := by
  refine Csr.get_write_of_ne csr val fun h => ?_
  have hnot := List.all_eq_true.mp hmachine addr (Csr.mem_addresses h)
  rw [decide_eq_true hpriv] at hnot
  cases hnot

/-- A field that S-mode has one view of. -/
theorem get_write_view {own : CsrAddr} {w : Window 64} (hplace : Csr.place own = some (f, w))
    (hall : w.kept ||| w.writable = BitVec.allOnes 64) (hpriv : requiredPriv addr ≤ 1)
    (hview : (Csr.addresses f).all fun a => decide (requiredPriv a ≤ 1 → a = own)) :
    (csr.write addr val).get f &&& ~~~w.writable = csr.get f &&& ~~~w.writable := by
  by_cases ha : addr = own
  · subst ha
    exact Csr.get_write_outside csr val hplace hall
  · rw [Csr.get_write_of_ne csr val fun h => ha (of_decide_eq_true
      (List.all_eq_true.mp hview addr (Csr.mem_addresses h)) hpriv)]

/-- Writing a CSR of S-mode or U-mode leaves what belongs to M-mode alone. -/
theorem write_sameMachine (h : requiredPriv addr ≤ 1) : SameMachine csr (csr.write addr val) := by
  have hkept (f : Csr.Field) (hf : (Csr.addresses f).all fun a => !decide (requiredPriv a ≤ 1)) :
      (csr.write addr val).get f = csr.get f := get_write_machine csr val h hf
  have hsstatus := get_write_view csr val
    (show Csr.place 0x100#12 = some (.mstatus, Csr.sstatusWindow) from rfl) (by decide) h
    (by decide)
  have hsie := get_write_view csr val
    (show Csr.place 0x104#12 = some (.mie, Csr.sieWindow) from rfl) (by decide) h (by decide)
  have hsip := get_write_view csr val
    (show Csr.place 0x144#12 = some (.mip, Csr.sipWindow) from rfl) (by decide) h (by decide)
  have hpmp : ∀ i : Fin 16,
      ((Csr.addresses (.pmpaddr i)).all fun a => !decide (requiredPriv a ≤ 1)) = true := by decide
  have hmask : machineStatus = ~~~(0xD_E162 : U64) &&& ~~~(1 <<< 17 : U64) := by decide
  generalize csr.write addr val = csr' at hkept hsstatus hsie hsip
  refine ⟨hkept .misa (by decide), hkept .mtvec (by decide), hkept .mscratch (by decide),
    hkept .mepc (by decide), hkept .mcause (by decide), hkept .mtval (by decide),
    hkept .medeleg (by decide), hkept .mideleg (by decide), hkept .pmpcfg0 (by decide),
    hkept .pmpcfg2 (by decide), funext fun i => hkept (.pmpaddr i) (hpmp i), ?_, hsie, hsip⟩
  rw [hmask, ← BitVec.and_assoc, ← BitVec.and_assoc]
  exact congrArg (· &&& ~~~(1 <<< 17 : U64)) hsstatus

end Writes

/-- A return from S-mode changes bits of the view of S-mode, and `MPRV`. -/
theorem sRet_outside (csr : Csr) :
    ({ csr with mstatus := csr.mstatus &&& ~~~(1 <<< 17 : U64) } : Csr).sRet.mstatus &&&
      machineStatus = csr.mstatus &&& machineStatus := by
  have hmask : ~~~(1 <<< 17 : U64) &&& (~~~0x122 &&& machineStatus) = machineStatus := by decide
  have hspie : (1 <<< 5 : U64) &&& machineStatus = 0 := by decide
  have hsie (b : U64) (hb : b = 0 ∨ b = 1) : (b <<< 1) &&& machineStatus = 0 := by
    rcases hb with rfl | rfl <;> decide
  dsimp only [Csr.sRet]
  have hbit : ((csr.mstatus &&& ~~~(1 <<< 17 : U64)) >>> 5 &&& 1) = 0 ∨
      ((csr.mstatus &&& ~~~(1 <<< 17 : U64)) >>> 5 &&& 1) = 1 := and_one_cases _
  rw [BitVec.and_or_distrib_right, BitVec.and_or_distrib_right, hspie, hsie _ hbit,
    BitVec.and_assoc, BitVec.and_assoc, hmask]
  exact BitVec.or_zero.trans BitVec.or_zero

/-- What a mode below M-mode allows leaves what belongs to M-mode alone. -/
theorem CsrsWithin.sameMachine {mode : PrivMode} {csr csr' : Csr} (hm : mode ≠ .m)
    (h : CsrsWithin mode csr csr') : SameMachine csr csr' := by
  cases h with
  | same => exact ⟨rfl, rfl, rfl, rfl, rfl, rfl, rfl, rfl, rfl, rfl, rfl, rfl, rfl, rfl⟩
  | dirty =>
      refine ⟨rfl, rfl, rfl, rfl, rfl, rfl, rfl, rfl, rfl, rfl, rfl, ?_, rfl, rfl⟩
      have hmask : (0x6000 : U64) &&& machineStatus = 0 := by decide
      rw [dirtyCsr, BitVec.and_or_distrib_right, hmask]
      exact BitVec.or_zero
  | sret =>
      exact ⟨rfl, rfl, rfl, rfl, rfl, rfl, rfl, rfl, rfl, rfl, rfl, sRet_outside csr, rfl, rfl⟩
  | write val hw => exact write_sameMachine csr val (BitVec.le_trans hw (code_le_one hm))

/-- What a step may do in its mode. -/
structure PrivilegeLaw (c : Cpu) (r : Retired) : Prop where
  /-- A trap goes where trap entry sends it. -/
  trapped : ∀ t, r.trap = some t → r.cpu.mode = (c.deliverTrap t.cause t.tval).mode ∧
    r.cpu.pc = (c.deliverTrap t.cause t.tval).pc
  /-- Without a trap the mode is not raised. -/
  mode : r.trap = none → r.cpu.mode.code ≤ c.mode.code
  /-- Without a trap only CSRs of the mode are written. -/
  csrs : r.trap = none → CsrsWithin c.mode c.csr r.cpu.csr
  /-- So what belongs to M-mode stays as it is. -/
  machine : r.trap = none → SameMachine c.csr r.cpu.csr
  /-- No return from M-mode is performed below it, and no return from S-mode and no translation
  fence in U-mode. -/
  performs : r.trap = none → ∀ inst c', c.fetched = some (inst, c') →
    (inst = .mret → c.mode = .m) ∧ (inst = .sret ∨ inst = .sfenceVma → c.mode ≠ .u)
  /-- What the mode does not allow is illegal, and changes no CSR but by the trap entry. -/
  illegal : ∀ inst c', c.fetched = some (inst, c') → ¬ Allowed c.mode inst →
    ∃ tval, r.trap = some ⟨2, tval⟩ ∧ r.cpu.csr = (c.deliverTrap 2 tval).csr

/-! ## The arms -/

section Arms

variable {fpu : Fpu} {c : Cpu} {inst : Instruction} {r : Retired}

/-- No arm raises an exception because the mode does not allow the instruction. -/
theorem trap_of_not_allowed (hna : ¬ Allowed c.mode inst)
    (h : execute fpu inst c = some r) : r.trap = none := by
  cases inst with
  | csr op rd src csr =>
      have htvm : ¬ (csr = 0x180 ∧ c.tvmTraps) := by
        rintro ⟨rfl, htvm⟩
        rw [tvmTraps, Bool.and_eq_true, decide_eq_true_eq] at htvm
        rw [htvm.1] at hna
        exact hna (show requiredPriv 0x180 ≤ PrivMode.s.code by decide)
      rw [execute, execCsr, if_neg htvm] at h
      cases h
      rfl
  | mret =>
      cases h
      rfl
  | sret =>
      have hu : c.mode = .u := not_not.mp hna
      rw [execute, execSret, if_neg (by simp [hu])] at h
      cases h
      rfl
  | sfenceVma =>
      have hu : c.mode = .u := not_not.mp hna
      rw [execute, execSfenceVma, if_neg (by simp [tvmTraps, hu])] at h
      cases h
      rfl
  | _ => exact absurd trivial hna

/-- An allowed instruction that retires keeps to the mode. -/
theorem within_of_allowed (hm : c.mode ≠ .m) (ha : Allowed c.mode inst) (h : Ends c inst r)
    (hr : r.trap = none) :
    r.cpu.mode.code ≤ c.mode.code ∧ CsrsWithin c.mode c.csr r.cpu.csr := by
  cases h with
  | raised | memory | fpRaised => cases hr
  | plain pc hmode hcsr =>
      simp only [retire, hmode, hcsr]
      exact ⟨BitVec.le_refl _, .same⟩
  | dirty pc hmode hcsr =>
      simp only [retire, hmode, hcsr]
      exact ⟨BitVec.le_refl _, .dirty⟩
  | csrWrite pc val hmode hcsr =>
      simp only [retire, hmode, hcsr]
      exact ⟨BitVec.le_refl _, .write val ha⟩
  | mret => exact absurd ha hm
  | sret pc hmode hcsr =>
      have hs : c.mode = .s := by
        cases hc : c.mode with
        | u => exact absurd hc ha
        | s => rfl
        | m => exact absurd hc hm
      simp only [retire, hcsr]
      refine ⟨?_, .sret ha⟩
      rw [hs]
      exact code_le_one hmode

/-- Trap entry, for the ways an instruction raises an exception. -/
theorem Ends.trapped {t : Trap} (h : Ends c inst r) (hr : r.trap = some t) :
    r.cpu.mode = (c.deliverTrap t.cause t.tval).mode ∧
      r.cpu.pc = (c.deliverTrap t.cause t.tval).pc := by
  cases h with
  | raised | fpRaised =>
      cases hr
      exact ⟨rfl, rfl⟩
  | memory t' hmem =>
      cases hr
      have hkeep := memoryPart_keepsHart _ _ _ _ _ hmem
      have hd := deliverTrap_congr hkeep.mode hkeep.csr hkeep.pc t.cause t.tval
      exact ⟨hd.1, hd.2.2⟩
  | mret hx =>
      cases hx
      cases hr
  | plain | dirty | csrWrite | sret => cases hr

end Arms

/-- Below M-mode the law holds of a step exactly when the mode allows the instruction. -/
theorem privilegeLaw_iff {fpu : Fpu} {c : Cpu} {r : Retired} (hm : c.mode ≠ .m)
    (h : step fpu c = some r) :
    PrivilegeLaw c r ↔ ∀ inst c', c.fetched = some (inst, c') → Allowed c.mode inst := by
  constructor
  · intro hlaw inst c' hf
    by_contra hna
    have hmode := (fetched_keeps hf).1
    rw [step_of_fetched hf] at h
    obtain ⟨tval, htrap, _⟩ := hlaw.illegal inst c' hf hna
    rw [trap_of_not_allowed (hmode ▸ hna) h] at htrap
    cases htrap
  · intro hall
    cases hf : c.fetched with
    | none =>
        obtain ⟨t, c₁, rfl, hmode, hcsr, hpc⟩ := step_of_not_fetched hf h
        have hd := deliverTrap_congr hmode hcsr hpc t.cause t.tval
        refine ⟨?_, nofun, nofun, nofun, nofun, ?_⟩
        · intro t' ht
          cases ht
          exact ⟨hd.1, hd.2.2⟩
        · intro inst c' hf'
          rw [hf] at hf'
          cases hf'
    | some p =>
        obtain ⟨inst, c₁⟩ := p
        obtain ⟨hmode, hcsr, hpc⟩ := fetched_keeps hf
        have ha := hall inst c₁ hf
        rw [step_of_fetched hf] at h
        have hends := execute_ends h
        have hwithin := within_of_allowed (hmode ▸ hm) (hmode ▸ ha) hends
        rw [hmode, hcsr] at hwithin
        refine ⟨?_, fun hr => (hwithin hr).1, fun hr => (hwithin hr).2,
          fun hr => (hwithin hr).2.sameMachine hm, ?_, ?_⟩
        · intro t ht
          have hd := deliverTrap_congr hmode hcsr hpc t.cause t.tval
          rw [← hd.1, ← hd.2.2]
          exact hends.trapped ht
        · intro _ inst' c' hf'
          rw [hf] at hf'
          cases hf'
          constructor
          · rintro rfl
            exact ha
          · rintro (rfl | rfl) <;> exact ha
        · intro inst' c' hf' hna
          rw [hf] at hf'
          cases hf'
          exact absurd ha hna

/-- A hart in U-mode without translation, about to execute the given word. -/
def userHart (word : U64) : Cpu :=
  { Cpu.new ((Bus.new 0x1000 0x8000_0000).withWords [(0, word)]) 0x8000_0000 with mode := .u }

theorem userHart_ecall :
    ∃ r, step default (userHart 0x0000_0073) = some r ∧ PrivilegeLaw (userHart 0x0000_0073) r := by
  obtain ⟨r, hr⟩ := Option.isSome_iff_exists.mp
    (by decide : (step default (userHart 0x0000_0073)).isSome = true)
  have hf : (userHart 0x0000_0073).fetched.map Prod.fst = some .ecall := by decide
  refine ⟨r, hr, (privilegeLaw_iff (by decide) hr).mpr fun inst c' h => ?_⟩
  rw [h] at hf
  cases hf
  trivial

/-- `MRET` in U-mode retires. -/
theorem userHart_mret :
    (userHart 0x3020_0073).mode = .u ∧
      ¬ ∀ r, step default (userHart 0x3020_0073) = some r →
        PrivilegeLaw (userHart 0x3020_0073) r := by
  refine ⟨rfl, fun hlaw => ?_⟩
  have hf : (userHart 0x3020_0073).fetched.map Prod.fst = some .mret := by decide
  have htrap : (step default (userHart 0x3020_0073)).map Retired.trap = some none := by decide
  obtain ⟨r, hr, hnone⟩ := Option.map_eq_some_iff.mp htrap
  obtain ⟨⟨inst, c'⟩, hc', rfl⟩ := Option.map_eq_some_iff.mp hf
  exact absurd (((hlaw r hr).performs hnone _ c' hc').1 rfl) (by decide)

end Cpu

end RiscvEmu
