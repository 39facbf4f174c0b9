import RiscvEmu.Csrs.Aliases
import RiscvEmu.Execution.Endings
import RiscvEmu.Jit.Loop

/-!
# CSR instructions and the flush of the blocks

A CSR instruction writes one word at one address, or nothing.  After a write of `satp` it compares
the root of the page tables with the old one, and asks for a flush of the compiled blocks when they
differ.  The mode field is not compared: turning the translation on or off over the same root asks
for no flush.
-/

namespace RiscvEmu

namespace Cpu

/-! ## CSR instructions -/

/-- Whether a CSR instruction writes. -/
def writesCsr (op : CsrOp) (src : CsrSrc) : Prop := op = .csrrw ∨ (src ≠ .reg 0 ∧ src ≠ .imm 0)

instance (op : CsrOp) (src : CsrSrc) : Decidable (writesCsr op src) :=
  inferInstanceAs (Decidable (_ ∨ _))

/-- The value a CSR instruction reads. -/
def csrOld (c : Cpu) (op : CsrOp) (rd : Reg) (csr : CsrAddr) : U64 :=
  if op = .csrrw ∧ rd = 0 then 0 else c.csrRead csr

/-- The value a CSR instruction writes, if it does. -/
def csrNew (c : Cpu) (op : CsrOp) (rd : Reg) (src : CsrSrc) (csr : CsrAddr) : U64 :=
  match op with
  | .csrrw => c.csrOperand src
  | .csrrs => c.csrOld op rd csr ||| c.csrOperand src
  | .csrrc => c.csrOld op rd csr &&& ~~~c.csrOperand src

/-- The CSR file after a CSR instruction. -/
def csrAfter (c : Cpu) (op : CsrOp) (rd : Reg) (src : CsrSrc) (csr : CsrAddr) : Csr :=
  if writesCsr op src then c.csr.write csr (c.csrNew op rd src csr) else c.csr

@[simp] theorem setReg_jitInvalidate (c : Cpu) (rd : Reg) (v : U64) :
    (c.setReg rd v).jitInvalidate = c.jitInvalidate := by
  rw [setReg]
  split <;> rfl

@[simp] theorem deliverTrap_satp (c : Cpu) (cause tval : U64) :
    (c.deliverTrap cause tval).csr.satp = c.csr.satp := by
  rw [deliverTrap]
  split <;> rfl

@[simp] theorem deliverTrap_jitInvalidate (c : Cpu) (cause tval : U64) :
    (c.deliverTrap cause tval).jitInvalidate = c.jitInvalidate := by
  rw [deliverTrap]
  split <;> rfl

/-- The hart after the write and the read of a CSR instruction. -/
def csrMoved (c : Cpu) (op : CsrOp) (rd : Reg) (src : CsrSrc) (csr : CsrAddr) : Cpu :=
  (if writesCsr op src then c.csrWrite csr (c.csrNew op rd src csr) else c).setReg rd
    (c.csrOld op rd csr)

theorem csrMoved_csr (c : Cpu) (op : CsrOp) (rd : Reg) (src : CsrSrc) (csr : CsrAddr) :
    (c.csrMoved op rd src csr).csr = c.csrAfter op rd src csr := by
  rw [csrMoved, setReg_csr, csrAfter]
  split <;> rfl

theorem csrMoved_jitInvalidate (c : Cpu) (op : CsrOp) (rd : Reg) (src : CsrSrc)
    (csr : CsrAddr) : (c.csrMoved op rd src csr).jitInvalidate = c.jitInvalidate := by
  rw [csrMoved, setReg_jitInvalidate]
  split <;> rfl

/-- A CSR instruction that does not trap writes, reads, and sets the flag when the root changed. -/
theorem execCsr_eq (c : Cpu) (op : CsrOp) (rd : Reg) (src : CsrSrc) (csr : CsrAddr) :
    c.execCsr op rd src csr =
      if csr = 0x180 ∧ c.tvmTraps then some (c.raise ⟨2, 0⟩)
      else
        let c' := c.csrMoved op rd src csr
        some (retire (if csr = 0x180 ∧ writesCsr op src ∧ c'.satpPpn ≠ c.satpPpn then
          { c' with jitInvalidate := true } else c') c.nextPc) := by
  cases op <;> rfl

/-! ## The translation regime -/

/-- The mode and the root that `satp` selects. -/
def regime (c : Cpu) : U64 × U64 := (c.csr.satp >>> 60, c.satpPpn)

/-- A write of any other register leaves `satp`. -/
theorem csrAfter_satp_of_ne (c : Cpu) (op : CsrOp) (rd : Reg) (src : CsrSrc) {csr : CsrAddr}
    (hne : csr ≠ 0x180) : (c.csrAfter op rd src csr).satp = c.csr.satp := by
  rw [csrAfter]
  split
  · refine c.csr.get_write_of_ne _ (f := .satp) fun hfield => ?_
    have hmem := Csr.mem_addresses hfield
    simp only [Csr.addresses, List.mem_singleton] at hmem
    exact hne hmem
  · rfl

/-- `satp` after a CSR instruction that names it: the new value, unless nothing is written or its
mode is not supported. -/
theorem csrAfter_satp (c : Cpu) (op : CsrOp) (rd : Reg) (src : CsrSrc) :
    (c.csrAfter op rd src 0x180).satp =
      if writesCsr op src ∧ (c.csrNew op rd src 0x180 >>> 60 = 0 ∨
        c.csrNew op rd src 0x180 >>> 60 = 8) then c.csrNew op rd src 0x180
      else c.csr.satp := by
  rw [csrAfter]
  by_cases hwrites : writesCsr op src
  · rw [if_pos hwrites]
    change (if _ then _ else _ : Csr).satp = _
    simp only [hwrites, true_and]
    split <;> rfl
  · rw [if_neg hwrites, if_neg fun h => hwrites h.1]

/-- The instruction gives `satp` another mode over the same root, and no flush is due yet. -/
structure MissesFlush (c : Cpu) (op : CsrOp) (rd : Reg) (src : CsrSrc) (csr : CsrAddr) : Prop where
  satp : csr = 0x180
  allowed : c.tvmTraps = false
  writes : writesCsr op src
  supported : c.csrNew op rd src csr >>> 60 = 0 ∨ c.csrNew op rd src csr >>> 60 = 8
  otherMode : c.csrNew op rd src csr >>> 60 ≠ c.csr.satp >>> 60
  sameRoot : c.csrNew op rd src csr &&& 0x0FFF_FFFF_FFFF = c.csr.satp &&& 0x0FFF_FFFF_FFFF
  clear : c.jitInvalidate = false

/-- A CSR instruction that does not trap, as its new `satp` and the flag. -/
theorem execCsr_regime (c : Cpu) (op : CsrOp) (rd : Reg) (src : CsrSrc) (csr : CsrAddr)
    (hallowed : ¬(csr = 0x180 ∧ c.tvmTraps)) :
    ∃ r, c.execCsr op rd src csr = some r ∧ r.cpu.csr = c.csrAfter op rd src csr ∧
      r.cpu.jitInvalidate = (c.jitInvalidate || decide (csr = 0x180 ∧ writesCsr op src ∧
        r.cpu.satpPpn ≠ c.satpPpn)) := by
  rw [execCsr_eq, if_neg hallowed]
  refine ⟨_, rfl, ?_⟩
  have hcsr := c.csrMoved_csr op rd src csr
  have hflag := c.csrMoved_jitInvalidate op rd src csr
  by_cases hroot : csr = 0x180 ∧ writesCsr op src ∧
      (c.csrMoved op rd src csr).satpPpn ≠ c.satpPpn
  · rw [if_pos hroot]
    refine ⟨hcsr, ?_⟩
    have hdecide := decide_eq_true hroot
    change true = (c.jitInvalidate || decide (csr = 0x180 ∧ writesCsr op src ∧
      (c.csrMoved op rd src csr).satpPpn ≠ c.satpPpn))
    rw [hdecide, Bool.or_true]
  · rw [if_neg hroot]
    refine ⟨hcsr, ?_⟩
    have hdecide := decide_eq_false hroot
    change (c.csrMoved op rd src csr).jitInvalidate = (c.jitInvalidate ||
      decide (csr = 0x180 ∧ writesCsr op src ∧
        (c.csrMoved op rd src csr).satpPpn ≠ c.satpPpn))
    rw [hdecide, Bool.or_false, hflag]

end Cpu

namespace Jit

open Cpu

/-! ## The flush -/

theorem poll_jitInvalidate (input : Input) (c : Cpu) :
    (poll input c).jitInvalidate = c.jitInvalidate := by
  have hcheck : ∀ c : Cpu, c.checkInterrupts.2.jitInvalidate = c.jitInvalidate := by
    intro c
    rw [checkInterrupts]
    split
    · exact deliverTrap_jitInvalidate c _ _
    · rfl
  unfold poll
  extract_lets b rx _ clint _ timed mtip stip plic _ lines seip
  have hstip : stip.jitInvalidate = mtip.jitInvalidate := by
    unfold stip
    split <;> rfl
  have hrx : rx.jitInvalidate = c.jitInvalidate := by
    unfold rx
    split <;> rfl
  rw [hcheck]
  exact hstip.trans hrx

/-- A round whose instructions leave the flag set ends with no blocks and the flag clear. -/
theorem round_flushes {h : Host} {fpu : Fpu} {input : Input} {m m' : Machine} {c : Cpu}
    {jit : JitCache} {n : U64} (hadv : advance h fpu m.jit m.cpu = some (c, jit, n))
    (hflag : c.jitInvalidate = true) (hround : round h fpu input m = some m') :
    m'.jit = .new ∧ m'.cpu.jitInvalidate = false := by
  rw [round, hadv] at hround
  dsimp only at hround
  have hsatp : flushSatp { m with cpu := c, jit := jit } =
      { m with cpu := { c with jitInvalidate := false }, jit := .new } := by
    rw [flushSatp, if_pos hflag]
    rfl
  have hfence : ∀ m : Machine, m.jit = .new → m.cpu.jitInvalidate = false →
      (flushFenceI m).jit = .new ∧ (flushFenceI m).cpu.jitInvalidate = false := by
    intro m hjit hclear
    rw [flushFenceI]
    split
    · dsimp only
      split
      · exact ⟨rfl, hclear⟩
      · exact ⟨hjit, hclear⟩
    · exact ⟨hjit, hclear⟩
  rw [hsatp] at hround
  obtain ⟨hjit, hclear⟩ :=
    hfence { m with cpu := { c with jitInvalidate := false }, jit := .new } rfl rfl
  split at hround
  · cases hround
    exact ⟨hjit, (poll_jitInvalidate input _).trans hclear⟩
  · cases hround
    exact ⟨hjit, hclear⟩

/-- The flush a CSR instruction owes: it is asked for exactly when the regime changes, and the
round then empties the cache. -/
structure FlushLaw (c : Cpu) (r : Retired) : Prop where
  changed : r.cpu.regime ≠ c.regime → r.cpu.jitInvalidate = true
  unchanged : r.cpu.regime = c.regime → r.cpu.jitInvalidate = c.jitInvalidate
  flushed : ∀ h fpu input (m m' : Machine) jit n,
    advance h fpu m.jit m.cpu = some (r.cpu, jit, n) → r.cpu.jitInvalidate = true →
      round h fpu input m = some m' → m'.jit = .new ∧ m'.cpu.jitInvalidate = false

theorem FlushLaw.of_same {c : Cpu} {r : Retired} (hregime : r.cpu.regime = c.regime)
    (hflag : r.cpu.jitInvalidate = c.jitInvalidate) : FlushLaw c r where
  changed hne := absurd hregime hne
  unchanged _ := hflag
  flushed _ _ _ _ _ _ _ hadv hset hround := round_flushes hadv hset hround

theorem FlushLaw.of_changed {c : Cpu} {r : Retired} (hregime : r.cpu.regime ≠ c.regime)
    (hflag : r.cpu.jitInvalidate = true) : FlushLaw c r where
  changed _ := hflag
  unchanged heq := absurd heq hregime
  flushed _ _ _ _ _ _ _ hadv hset hround := round_flushes hadv hset hround

/-- A CSR instruction obeys the law unless it gives `satp` another mode over the same root. -/
theorem csr_flushLaw_iff (fpu : Fpu) (c : Cpu) (op : CsrOp) (rd : Reg) (src : CsrSrc)
    (csr : CsrAddr) :
    ∃ r, execute fpu (.csr op rd src csr) c = some r ∧
      (FlushLaw c r ↔ ¬ MissesFlush c op rd src csr) := by
  change ∃ r, c.execCsr op rd src csr = some r ∧ _
  by_cases htvm : csr = 0x180 ∧ c.tvmTraps
  · refine ⟨c.raise ⟨2, 0⟩, by rw [execCsr_eq, if_pos htvm], ?_⟩
    refine iff_of_true (.of_same ?_ (deliverTrap_jitInvalidate c 2 0)) fun hmiss => ?_
    · simp [regime, satpPpn, raise]
    · rw [hmiss.allowed] at htvm
      exact Bool.false_ne_true htvm.2
  · obtain ⟨r, hr, hcsr, hflag⟩ := execCsr_regime c op rd src csr htvm
    refine ⟨r, hr, ?_⟩
    by_cases htaken : csr = 0x180 ∧ writesCsr op src ∧
        (c.csrNew op rd src csr >>> 60 = 0 ∨ c.csrNew op rd src csr >>> 60 = 8)
    · obtain ⟨rfl, hwrites, hsupported⟩ := htaken
      have hsatp : r.cpu.csr.satp = c.csrNew op rd src 0x180 := by
        rw [hcsr, csrAfter_satp, if_pos ⟨hwrites, hsupported⟩]
      by_cases hroot : r.cpu.satpPpn = c.satpPpn
      · have hkeep : r.cpu.jitInvalidate = c.jitInvalidate := by simpa [hroot] using hflag
        by_cases hmode : r.cpu.csr.satp >>> 60 = c.csr.satp >>> 60
        · -- the same mode and root
          refine iff_of_true (.of_same ?_ hkeep) fun hmiss => hmiss.otherMode (hsatp ▸ hmode)
          rw [regime, regime, hmode, hroot]
        · have hregime : r.cpu.regime ≠ c.regime := fun h => hmode (congrArg Prod.fst h)
          cases hclear : c.jitInvalidate with
          | true =>
              refine iff_of_true (.of_changed hregime (hkeep.trans hclear)) fun hmiss => ?_
              exact Bool.false_ne_true (hmiss.clear.symm.trans hclear)
          | false =>
              -- the missed flush
              refine iff_of_false (fun hlaw => ?_) fun hnot => hnot ?_
              · rw [hclear] at hkeep
                exact Bool.false_ne_true (hkeep.symm.trans (hlaw.changed hregime))
              · exact {
                  satp := rfl
                  allowed := by simpa using htvm
                  writes := hwrites
                  supported := hsupported
                  otherMode := hsatp ▸ hmode
                  sameRoot := hsatp ▸ hroot
                  clear := hclear }
      · have hset : r.cpu.jitInvalidate = true := by simpa [hroot, hwrites] using hflag
        have hregime : r.cpu.regime ≠ c.regime := fun h => hroot (congrArg Prod.snd h)
        refine iff_of_true (.of_changed hregime hset) fun hmiss => hroot ?_
        rw [satpPpn, hsatp]
        exact hmiss.sameRoot
    · have hsatp : r.cpu.csr.satp = c.csr.satp := by
        rw [hcsr]
        by_cases haddr : csr = 0x180
        · subst haddr
          rw [csrAfter_satp, if_neg fun h => htaken ⟨rfl, h⟩]
        · exact c.csrAfter_satp_of_ne op rd src haddr
      have hroot : r.cpu.satpPpn = c.satpPpn := by rw [satpPpn, satpPpn, hsatp]
      refine iff_of_true (.of_same ?_ ?_) fun hmiss =>
        htaken ⟨hmiss.satp, hmiss.writes, hmiss.supported⟩
      · rw [regime, regime, hsatp, hroot]
      · simpa [hroot] using hflag

/-- A hart in machine mode that turns the translation on over the root it has. -/
def pagingHart : Cpu :=
  let c := Cpu.new (.new 0x1000 0x8000_0000) 0x8000_0000
  { c.setReg 1 (8 <<< 60) with csr := { c.csr with satp := 0x80002 } }

/-- Turning the translation on with `csrrs x0, satp, x1` changes the regime, and no flush is asked
for. -/
theorem pagingHart_keepsBlocks :
    ¬ ∀ (fpu : Fpu) (c : Cpu) (op : CsrOp) (rd : Reg) (src : CsrSrc) (csr : CsrAddr),
      ∃ r, execute fpu (.csr op rd src csr) c = some r ∧ FlushLaw c r := by
  intro hall
  obtain ⟨r, hr, hlaw⟩ := hall default pagingHart .csrrs 0 (.reg 1) 0x180
  cases hr
  exact Bool.false_ne_true (hlaw.changed (by decide))

end Jit

end RiscvEmu
