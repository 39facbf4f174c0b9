import RiscvEmu.Confinement.Accesses
import RiscvEmu.Runs.Poll

/-!
# Steps of a program in U-mode

A step of a program that runs in its sandbox leaves it there, or ends in a trap entry from such a
state (`Sandbox.Lands`).  That holds of every instruction that U-mode allows, but for an atomic that
crosses a page boundary: it translates its first byte only.  A service of the loop may take an
interrupt, and otherwise the program goes on.
-/

namespace RiscvEmu

open Mmu

/-- An atomic does not cross a page boundary. -/
def Cpu.AtomicInPage (c : Cpu) : Instruction → Prop
  | .lr width _ rs1 | .sc width _ rs1 _ | .amo _ width _ rs1 _ =>
      ¬ Cpu.Crosses (c.reg rs1) width.width
  | _ => True

namespace Sandbox

variable {B : Sandbox} {c c' : Cpu} {r : Retired} {fpu : Fpu} {inst : Instruction}

variable (B) in
/-- The program goes on in its sandbox, or it was left by a trap entry.  An illegal floating-point
operation may mark the floating-point state dirty behind the entry. -/
def Lands (c : Cpu) : Prop :=
  B.Runs c ∨ ∃ d cause tval, B.Runs d ∧
    (c = d.deliverTrap cause tval ∨ c = (d.deliverTrap cause tval).markFsDirty)

theorem Runs.raise (h : B.Runs c) (t : Trap) : B.Lands (c.raise t).cpu :=
  .inr ⟨c, t.cause, t.tval, h, .inl rfl⟩

/-- A change of parts that the sandbox is not about. -/
theorem Runs.congr (h : B.Runs c) (hmode : c'.mode = c.mode) (hcsr : c'.csr = c.csr)
    (hmmu : c'.mmu = c.mmu) (hbus : c'.bus = c.bus) : B.Runs c' where
  mode := hmode.trans h.mode
  csr := by rw [hcsr]; exact h.csr
  status := by rw [hcsr]; exact h.status
  held := by rw [hmmu, hbus]; exact h.held
  wrote := by rw [hbus]; exact h.wrote
  devices := by rw [hbus]; exact h.devices

theorem Runs.setReg (h : B.Runs c) (rd : Reg) (v : U64) : B.Runs (c.setReg rd v) := by
  rw [Cpu.setReg]
  split
  · exact h.congr rfl rfl rfl rfl
  · exact h

theorem Runs.reserve (h : B.Runs c) (a : Option U64) : B.Runs { c with reservation := a } :=
  h.congr rfl rfl rfl rfl

theorem Runs.setFreg (h : B.Runs c) (fd : Reg) (v : U64) : B.Runs (c.setFreg fd v) :=
  h.congr rfl rfl rfl rfl

theorem Runs.retire (h : B.Runs c) (pc : U64) : B.Lands (c.retire pc).cpu :=
  .inl (h.congr rfl rfl rfl rfl)

theorem Runs.markFsDirty (h : B.Runs c) : B.Runs c.markFsDirty where
  mode := h.mode
  csr := by
    have hcsr := h.csr
    rw [Cpu.markFsDirty]
    dsimp only
    rw [hcsr]
  status i hi hi' := by
    have hbits : ∀ i < 64, i ≠ 13 → i ≠ 14 → (0x6000 : U64).getLsbD i = false := by decide
    refine Eq.trans ?_ (h.status i hi hi')
    change (c.csr.mstatus ||| 0x6000).getLsbD i = _
    rw [BitVec.getLsbD_or]
    by_cases hlt : i < 64
    · rw [hbits i hlt hi hi', Bool.or_false]
    · have hge := Nat.le_of_not_lt hlt
      rw [BitVec.getLsbD_of_ge _ _ hge, BitVec.getLsbD_of_ge _ _ hge]
      rfl
  held := h.held
  wrote := h.wrote
  devices := h.devices

/-! ## Instructions -/

/-- A memory operation, followed by code that starts in the sandbox. -/
theorem orRaise_lands {α : Type} {P : α → Prop} {m : Run Cpu Trap α} {k : α → Cpu → Option Retired}
    (hm : Run.Ensures B.Runs P m)
    (hk : ∀ a c₁ r, P a → B.Runs c₁ → k a c₁ = some r → B.Lands r.cpu) (hc : B.Runs c)
    (h : Cpu.orRaise m k c = some r) : B.Lands r.cpu := by
  rcases Cpu.orRaise_eq_some h with ⟨t, c₁, hrun, rfl⟩ | ⟨a, c₁, hrun, hx⟩
  · exact (hm _ _ _ hc hrun).1.raise t
  · obtain ⟨hc₁, ha⟩ := hm _ _ _ hc hrun
    exact hk a c₁ r (ha a rfl) hc₁ hx

theorem execJump_lands {target : U64} {link : Cpu → Cpu} (hlink : B.Runs (link c)) (hc : B.Runs c)
    (h : c.execJump target link = some r) : B.Lands r.cpu := by
  rw [Cpu.execJump] at h
  split at h
  · cases h
    exact hc.raise _
  · cases h
    exact hlink.retire _

theorem execLoad_lands {rs1 : Reg} {imm : U64} {width : Width} {dest : U64 → Cpu → Cpu}
    (hdest : ∀ v c, B.Runs c → B.Runs (dest v c)) (hc : B.Runs c)
    (h : c.execLoad rs1 imm width dest = some r) : B.Lands r.cpu := by
  rw [Cpu.execLoad, hc.lsMode] at h
  refine orRaise_lands (mmuLoad_ensures _ _) (fun v c₁ r _ hc₁ hx => ?_) hc h
  cases hx
  exact (hdest v c₁ hc₁).retire _

theorem execStore_lands {rs1 : Reg} {imm val : U64} {width : Width} (hc : B.Runs c)
    (h : c.execStore rs1 imm width val = some r) : B.Lands r.cpu := by
  rw [Cpu.execStore, hc.lsMode] at h
  refine orRaise_lands (mmuStore_ensures _ _ _) (fun _ c₁ r _ hc₁ hx => ?_) hc h
  cases hx
  exact hc₁.retire _

theorem execLr_lands {width : AmoWidth} {rd rs1 : Reg} (hc : B.Runs c)
    (h : c.execLr width rd rs1 = some r) : B.Lands r.cpu := by
  rw [Cpu.execLr, hc.lsMode] at h
  refine orRaise_lands (translateOrTrap_ensures _ _) (fun pa c₁ r hpa hc₁ hx => ?_) hc h
  refine orRaise_lands (busLoad_ensures (region_of_maps_zero hpa) _ _)
    (fun v c₂ r _ hc₂ hx => ?_) hc₁ hx
  cases hx
  exact ((hc₂.setReg rd _).reserve _).retire _

/-- The bytes of an atomic that stays in its page. -/
theorem writable_of_inPage {va pa : U64} {width : AmoWidth} (hpage : ¬ Cpu.Crosses va width.width)
    (hpa : ∀ i, va.toNat % 4096 + i < 4096 →
      B.Maps .store (va + BitVec.ofNat 64 i) (pa + BitVec.ofNat 64 i)) :
    ∀ i < width.width.bytes, B.Writable (pa + BitVec.ofNat 64 i) := by
  intro i hi
  have hfit := not_not.mp hpage
  have hoff := Cpu.pageOff_eq va
  exact ⟨_, hpa i (by omega)⟩

theorem execSc_lands {width : AmoWidth} {rd rs1 rs2 : Reg} (hc : B.Runs c)
    (hpage : ¬ Cpu.Crosses (c.reg rs1) width.width) (h : c.execSc width rd rs1 rs2 = some r) :
    B.Lands r.cpu := by
  rw [Cpu.execSc, hc.lsMode] at h
  refine orRaise_lands (translateOrTrap_ensures _ _) (fun pa c₁ r hpa hc₁ hx => ?_) hc h
  split at hx
  · split at hx
    · cases hx
    · rename_i hs
      cases hx
      have hc₂ := (busStore_ensures (writable_of_inPage hpage hpa) _ _ _ _ _ hc₁ hs).1
      exact ((hc₂.setReg rd _).reserve _).retire _
  · cases hx
    exact ((hc₁.setReg rd _).reserve _).retire _

theorem execAmo_lands {op : AmoOp} {width : AmoWidth} {rd rs1 rs2 : Reg} (hc : B.Runs c)
    (hpage : ¬ Cpu.Crosses (c.reg rs1) width.width) (h : c.execAmo op width rd rs1 rs2 = some r) :
    B.Lands r.cpu := by
  rw [Cpu.execAmo, hc.lsMode] at h
  refine orRaise_lands (translateOrTrap_ensures _ _) (fun pa c₁ r hpa hc₁ hx => ?_) hc h
  dsimp only at hx
  split at hx
  · cases hx
  · rename_i hl
    have hc₂ := (busLoad_ensures (region_of_maps_zero hpa) _ _ _ _ _ hc₁ hl).1
    split at hx
    · cases hx
    · rename_i hs
      cases hx
      have hc₃ := (busStore_ensures (writable_of_inPage hpage hpa) _ _ _ _ _ hc₂ hs).1
      exact (hc₃.setReg rd _).retire _

/-- U-mode writes no CSR. -/
theorem write_of_requiredPriv (csr : Csr) {addr : CsrAddr} (val : U64)
    (h : requiredPriv addr ≤ PrivMode.u.code) : csr.write addr val = csr := by
  unfold Csr.write
  split
  case h_23 =>
    split
    · rename_i hi
      rw [Cpu.requiredPriv_pmp hi] at h
      exact absurd h (by decide)
    · rfl
  all_goals exact absurd h (by decide)

theorem Runs.writeIf (hc : B.Runs c) (p : Prop) [Decidable p] {csr : CsrAddr}
    (hallowed : requiredPriv csr ≤ PrivMode.u.code) (v : U64) :
    B.Runs (if p then c.csrWrite csr v else c) := by
  split
  · rw [Cpu.csrWrite, write_of_requiredPriv _ _ hallowed]
    exact hc
  · exact hc

theorem Runs.flagIf (hc : B.Runs c) (p : Prop) [Decidable p] :
    B.Runs (if p then { c with jitInvalidate := true } else c) := by
  split
  · exact hc.congr rfl rfl rfl rfl
  · exact hc

theorem execFp_lands {rd : Reg} {res : FpResult} (hc : B.Runs c)
    (h : c.execFp rd res = some r) : B.Lands r.cpu := by
  cases res with
  | freg v =>
      cases h
      exact (hc.setFreg rd v).markFsDirty.retire _
  | ireg v =>
      cases h
      exact (hc.setReg rd v).markFsDirty.retire _
  | illegalReturn =>
      cases h
      exact hc.raise _
  | illegalFallthrough =>
      cases h
      exact .inr ⟨c, 2, 0, hc, .inr rfl⟩

theorem execCsr_lands {op : CsrOp} {rd : Reg} {src : CsrSrc} {csr : CsrAddr} (hc : B.Runs c)
    (hallowed : requiredPriv csr ≤ PrivMode.u.code) (h : c.execCsr op rd src csr = some r) :
    B.Lands r.cpu := by
  rw [Cpu.execCsr] at h
  split at h
  · cases h
    exact hc.raise _
  · cases h
    exact (((hc.writeIf _ hallowed _).setReg rd _).flagIf _).retire _

/-- An instruction that U-mode allows stays in the sandbox, unless it is an atomic that crosses a
page boundary. -/
theorem execute_lands (hc : B.Runs c) (hallowed : Allowed .u inst) (hpage : c.AtomicInPage inst)
    (h : execute fpu inst c = some r) : B.Lands r.cpu := by
  cases inst with
  | op | opImm | shift | lui | auipc =>
      cases h
      exact (hc.setReg _ _).retire _
  | load => exact execLoad_lands (fun _ _ hc => hc.setReg _ _) hc h
  | flw | fld =>
      rw [execute] at h
      exact execLoad_lands (fun _ _ hc => (hc.setFreg _ _).markFsDirty) hc h
  | store | fsw | fsd => exact execStore_lands hc h
  | branch op rs1 rs2 imm =>
      change c.execBranch op rs1 rs2 imm = some r at h
      rw [Cpu.execBranch] at h
      split at h
      · exact execJump_lands hc hc h
      · cases h
        exact hc.retire _
  | jal | jalr => exact execJump_lands (hc.setReg _ _) hc h
  | fence | wfi =>
      cases h
      exact .inl (hc.congr rfl rfl rfl rfl)
  | ecall | ebreak =>
      cases h
      exact hc.raise _
  | mret => cases hallowed
  | sret | sfenceVma => exact absurd rfl hallowed
  | csr => exact execCsr_lands hc hallowed h
  | lr => exact execLr_lands hc h
  | sc => exact execSc_lands hc hpage h
  | amo => exact execAmo_lands hc hpage h
  | opFp | fma => exact execFp_lands hc h

/-! ## Steps -/

/-- What a step executes is allowed in U-mode, and is no atomic that crosses a page boundary. -/
def Plain (c : Cpu) : Prop :=
  ∀ inst c', c.fetched = some (inst, c') → Allowed .u inst ∧ c'.AtomicInPage inst

/-- Such a step stays in the sandbox. -/
theorem step_lands (hc : B.Runs c) (hplain : Plain c) (h : Cpu.step fpu c = some r) :
    B.Lands r.cpu := by
  rw [Cpu.step] at h
  split at h
  · cases h
    exact hc.raise _
  · rename_i hint
    split at h
    · cases h
      exact hc.raise _
    · rename_i heven
      have heven := not_not.mp heven
      have hensures := fetch_ensures (B := B) heven
      rw [← hc.mode] at hensures
      rcases Cpu.orRaise_eq_some h with ⟨t, c₁, hfetch, rfl⟩ | ⟨raw, c₁, hfetch, hx⟩
      · exact (hensures _ _ _ hc hfetch).1.raise t
      · have hc₁ := (hensures _ _ _ hc hfetch).1
        have hsized : B.Runs { c₁ with instSize := (Cpu.decodeFetched raw).1 } :=
          hc₁.congr rfl rfl rfl rfl
        rw [Cpu.executeFetched] at hx
        split at hx
        · cases hx
          exact hsized.raise _
        · rename_i inst hdec
          have hfetched : c.fetched =
              some (inst, { c₁ with instSize := (Cpu.decodeFetched raw).1 }) := by
            rw [Cpu.fetched, if_pos ⟨hint, heven⟩, hfetch]
            simp only [hdec]
          obtain ⟨hallowed, hpage⟩ := hplain _ _ hfetched
          exact execute_lands hsized hallowed hpage hx

/-! ## Services -/

/-- A use of the devices by the service. -/
theorem Runs.attend (h : B.Runs c) {b : Bus} (hram : b.ram = c.bus.ram)
    (hbase : b.ramBase = c.bus.ramBase) (hdevices : Attended c.bus b) :
    B.Runs { c with bus := b } where
  mode := h.mode
  csr := h.csr
  status := h.status
  held := by
    have hwrote : WroteOnly (fun _ => False) c.bus b :=
      ⟨hbase, by rw [hram], fun o => .inl (by rw [hram])⟩
    exact h.held.wroteOnly (fun _ hno => hno.elim) hwrote
  wrote := h.wrote.trans ⟨hbase, by rw [hram], fun o => .inl (by rw [hram])⟩
  devices := h.devices.trans hdevices

theorem Runs.setMip (h : B.Runs c) (bit : Nat) (active : Bool) :
    B.Runs (Jit.setMip c bit active) where
  mode := h.mode
  csr := by
    have hcsr := h.csr
    rw [Jit.setMip]
    dsimp only
    rw [hcsr]
  status := h.status
  held := h.held
  wrote := h.wrote
  devices := h.devices

theorem foldl_pushRx (bytes : List U8) (u : Uart16550) :
    bytes.foldl .pushRx u = { u with
      rxBuf := (bytes.foldl .pushRx u).rxBuf
      rxBytes := (bytes.foldl .pushRx u).rxBytes } := by
  induction bytes generalizing u with
  | nil => rfl
  | cons b bytes ih =>
      rw [List.foldl_cons]
      exact ih (u.pushRx b)

theorem setPending_lines (p : Plic) (irq : U32) (active : Bool) :
    p.setPending irq active = { p with pending := (p.setPending irq active).pending } := by
  rw [Plic.setPending]
  split
  · split <;> rfl
  · rfl

theorem deviceLines_pending (b : Bus) :
    Jit.deviceLines b = { b.plic with pending := (Jit.deviceLines b).pending } := by
  rw [Jit.deviceLines, setPending_lines, setPending_lines]

theorem Runs.externalLines (h : B.Runs c) : B.Runs (Jit.externalLines c) := by
  have hlines : B.Runs { c with bus := { c.bus with plic := Jit.deviceLines c.bus } } :=
    h.attend rfl rfl ⟨rfl, rfl, deviceLines_pending _, rfl⟩
  exact hlines.setMip _ _

/-- A service keeps the sandbox, up to the interrupt it may take. -/
theorem serviced_runs (hc : B.Runs c) (input : Jit.Input) : B.Runs (Jit.serviced input c) := by
  have hreceived : B.Runs (Jit.receive input c) := by
    rw [Jit.receive]
    split
    · exact hc.attend rfl rfl ⟨rfl, foldl_pushRx _ _, rfl, rfl⟩
    · exact hc
  have hclock : B.Runs (Jit.advanceClock input (Jit.receive input c)) :=
    hreceived.attend rfl rfl ⟨rfl, rfl, rfl, rfl⟩
  have htimers : B.Runs (Jit.timerLines (Jit.advanceClock input (Jit.receive input c))) := by
    rw [Jit.timerLines]
    split
    · exact (hclock.setMip _ _).setMip _ _
    · exact hclock.setMip _ _
  exact htimers.externalLines

theorem poll_lands (hc : B.Runs c) (input : Jit.Input) : B.Lands (Jit.poll input c) := by
  have hserviced := serviced_runs hc input
  rw [Jit.poll_eq, Cpu.checkInterrupts]
  split
  · exact .inr ⟨_, _, _, hserviced, .inl rfl⟩
  · exact .inl hserviced

end Sandbox

end RiscvEmu
