import RiscvEmu.Execution.Frames
import RiscvEmu.Native.Restart

/-!
# What aborts an instruction

Translations, loads and fetches return, as long as the translation unit holds its entries where they
may be.  A store returns unless it notifies a block device that does not finish its requests.  The
notifying register lies in the middle of its page, so an access that crosses into another page never
reaches it.

An instruction therefore aborts exactly where the address it stores to is that of the register, and
the device does not finish (`execute_none_iff`).  The same holds of steps, and of the stores of
blocks (`runRaws_abort_iff`).  Compilation returns.
-/

namespace RiscvEmu

open Mmu (Placed)

namespace Bus

/-- The block device does not finish its requests. -/
def Unfinished (b : Bus) : Prop := b.virtioBlk.processQueue b.ram b.ramBase = none

/-- Only a notification can abort a store. -/
theorem store_none_iff {addr value : U64} {width : Width} {b : Bus} :
    store addr width value b = none ↔ Notifies addr ∧ b.Unfinished := by
  constructor
  · intro hnone
    have hnotifies : Notifies addr := by
      by_contra hnot
      obtain ⟨r, b', hstore⟩ := store_returns width value b hnot
      rw [hstore] at hnone
      cases hnone
    refine ⟨hnotifies, ?_⟩
    rw [store, hnotifies.1, hnotifies.2] at hnone
    exact Option.map_eq_none_iff.mp hnone
  · rintro ⟨⟨hr, hoff⟩, hqueue⟩
    rw [store, hr, hoff]
    exact Option.map_eq_none_iff.mpr hqueue

/-- The register is in the middle of its page. -/
theorem Notifies.pageOff {addr : U64} (h : Notifies addr) : addr.toNat % 4096 = 0x50 := by
  have haddr : addr = 0x1000_1050 := by
    have hoff := h.2
    rw [BitVec.sub_eq_iff_eq_add] at hoff
    exact hoff
  rw [haddr]
  rfl

end Bus

namespace Cpu

variable {c c' : Cpu} {mode : PrivMode} {va pa value : U64} {width : Width} {access : AccessType}
  {trap : Trap} {fpu : Fpu} {inst : Instruction}

/-! ## Translations and loads -/

/-- The unit keeps its entries where they may be. -/
theorem placed_frame : Frame fun c c' => Placed c.mmu → Placed c'.mmu where
  refl _ h := h
  trans _ _ _ h h' hplaced := h' (h hplaced)
  translateOrTrap mode va access c r c' h hplaced := by
    obtain ⟨r₀, s, ht, -, rfl⟩ := translateOrTrap_eq_some h
    exact Placed.translate (s := (c.mmu, c.bus)) hplaced ht
  busLoad pa width trap c r c' h hplaced := by
    obtain ⟨r₀, b, -, -, rfl⟩ := busLoad_eq_some h
    exact hplaced
  busStore pa width value trap c r c' h hplaced := by
    obtain ⟨r₀, b, -, -, rfl⟩ := busStore_eq_some h
    exact hplaced
  congr := by
    intro c c' d _ hmmu h hplaced
    rw [hmmu]
    exact h hplaced
  flush c _ i hv := by
    cases hv

/-- The computation returns while the entries are in place. -/
abbrev ReturnsPlaced {ε α : Type} (m : Run Cpu ε α) : Prop := Run.Returns (fun c => Placed c.mmu) m

theorem translate_returns : ReturnsPlaced (translate mode va access) := by
  intro c hplaced
  obtain ⟨r, s, hs⟩ := Placed.translate_returns (s := (c.mmu, c.bus)) hplaced c.csr.satp mode
    c.csr.mstatus va access
  have hsome : translate mode va access c = some _ := Run.zoom_of_some hs
  rw [hsome]
  simp

theorem translateOrTrap_returns : ReturnsPlaced (translateOrTrap mode va access) :=
  translate_returns.zoom fun _ h => h

theorem busLoad_returns : ReturnsPlaced (busLoad pa width trap) := by
  intro c _
  obtain ⟨r, b, hload⟩ := Bus.load_returns pa width c.bus
  rw [busLoad, Run.zoom_of_some hload]
  simp

theorem afterTranslation_returns {α : Type} {f : U64 → Run Cpu Trap α}
    (hf : ∀ pa, ReturnsPlaced (f pa)) : ReturnsPlaced (translateOrTrap mode va access >>= f) :=
  translateOrTrap_returns.bind (placed_frame.translateOrTrap mode va access) hf

theorem afterLoad_returns {α : Type} {f : U64 → Run Cpu Trap α}
    (hf : ∀ v, ReturnsPlaced (f v)) : ReturnsPlaced (busLoad pa width trap >>= f) :=
  busLoad_returns.bind (placed_frame.busLoad pa width trap) hf

theorem loadBytes_returns (pa va : U64) (k : Nat) :
    ∀ (n i : Nat) (v : U64), ReturnsPlaced (loadBytes pa va k n i v)
  | 0, _, _ => .pure _
  | n + 1, i, _ => afterLoad_returns fun _ => loadBytes_returns pa va k n (i + 1) _

theorem mmuLoad_returns : ReturnsPlaced (mmuLoad mode va width) := by
  rw [mmuLoad]
  split
  · exact afterTranslation_returns fun pa => busLoad_returns
  · refine afterTranslation_returns fun pa₁ => afterTranslation_returns fun pa₂ => ?_
    exact (loadBytes_returns _ _ _ _ _ _).bind (placed_frame.loadBytes _ _ _ _ _ _) fun v =>
      loadBytes_returns _ _ _ _ _ _

theorem fetch_returns (mode : PrivMode) (pc : U64) : ReturnsPlaced (fetch mode pc) := by
  refine afterTranslation_returns fun pa => afterLoad_returns fun lo => ?_
  dsimp only
  split
  · exact .pure _
  · split
    · exact afterTranslation_returns fun paHi => afterLoad_returns fun hi => .pure _
    · exact (Run.Returns.pure _).bind (placed_frame.pure _)
        fun paHi => afterLoad_returns fun hi => .pure _

/-! ## Stores -/

theorem busStore_none_iff :
    busStore pa width value trap c = none ↔ Bus.Notifies pa ∧ c.bus.Unfinished :=
  Run.zoom_eq_none.trans Bus.store_none_iff

/-- A part of an access aborts where one of its bytes notifies. -/
theorem storeBytes_notifies {k n i : Nat} (h : storeBytes pa va k value n i c = none) :
    ∃ j, i ≤ j ∧ j < i + n ∧ Bus.Notifies (pa + BitVec.ofNat 64 j) := by
  induction n generalizing i c with
  | zero => cases h
  | succ n ih =>
      rcases Run.bind_eq_none.mp h with hfirst | ⟨u, c₁, -, hrest⟩
      · exact ⟨i, Nat.le_refl i, by omega, (busStore_none_iff.mp hfirst).1⟩
      · obtain ⟨j, hle, hlt, hnotifies⟩ := ih hrest
        exact ⟨j, by omega, by omega, hnotifies⟩

theorem translateOrTrap_pageOff {pa : U64}
    (h : translateOrTrap mode va access c = some (.ok pa, c')) :
    pa.toNat % 4096 = va.toNat % 4096 := by
  obtain ⟨r₀, s, ht, hr, -⟩ := translateOrTrap_eq_some h
  cases r₀ with
  | error f => cases hr
  | ok pa' =>
      cases hr
      exact Mmu.translate_pageOff ht

theorem add_pageOff (pa : U64) (j : Nat) :
    (pa + BitVec.ofNat 64 j).toNat % 4096 = (pa.toNat + j) % 4096 := by
  rw [BitVec.toNat_add, BitVec.toNat_ofNat]
  omega

theorem nextPage_pageOff (va : U64) : (nextPage va).toNat % 4096 = 0 := by
  have hlt := pageOff_lt va
  rw [nextPage_eq, add_pageOff, pageOff_eq]
  rw [pageOff_eq] at hlt
  omega

/-- An access that crosses into another page does not notify. -/
theorem crossingStore_returns (hplaced : Placed c.mmu) (hcross : Crosses va width) :
    mmuStore mode va width value c ≠ none := by
  have hbytes : width.bytes ≤ 8 := by cases width <;> decide
  have hoff := pageOff_eq va
  rw [Crosses] at hcross
  intro hnone
  rw [mmuStore, if_neg hcross] at hnone
  rcases Run.bind_eq_none.mp hnone with h₁ | ⟨pa₁, c₁, h₁, hnone⟩
  · exact translateOrTrap_returns c hplaced h₁
  · have hplaced₁ : Placed c₁.mmu := placed_frame.translateOrTrap _ _ _ _ _ _ h₁ hplaced
    rcases Run.bind_eq_none.mp hnone with h₂ | ⟨pa₂, c₂, h₂, hnone⟩
    · exact translateOrTrap_returns c₁ hplaced₁ h₂
    · rcases Run.bind_eq_none.mp hnone with hstore | ⟨u, c₃, -, hstore⟩
      · -- the bytes at the end of the first page
        obtain ⟨j, -, hlt, hnotifies⟩ := storeBytes_notifies hstore
        have hpa := hnotifies.pageOff
        rw [add_pageOff] at hpa
        have hpage := translateOrTrap_pageOff h₁
        omega
      · -- the bytes at the start of the second page
        obtain ⟨j, -, hlt, hnotifies⟩ := storeBytes_notifies hstore
        have hpa := hnotifies.pageOff
        rw [add_pageOff] at hpa
        have hpage := translateOrTrap_pageOff h₂
        rw [nextPage_pageOff] at hpage
        omega

/-- A store aborts where it notifies. -/
theorem mmuStore_none_iff (hplaced : Placed c.mmu) :
    mmuStore mode va width value c = none ↔
      ∃ pa c₁, translateOrTrap mode va .store c = some (.ok pa, c₁) ∧ Bus.Notifies pa ∧
        c₁.bus.Unfinished := by
  constructor
  · intro hnone
    have hwithin : ¬ Crosses va width := fun hcross => crossingStore_returns hplaced hcross hnone
    rw [mmuStore_within hwithin] at hnone
    rcases Run.bind_eq_none.mp hnone with ht | ⟨pa, c₁, ht, hstore⟩
    · exact absurd ht (translateOrTrap_returns c hplaced)
    · exact ⟨pa, c₁, ht, busStore_none_iff.mp hstore⟩
  · rintro ⟨pa, c₁, ht, hnotifies, hqueue⟩
    have hwithin : ¬ Crosses va width := by
      have hbytes : width.bytes ≤ 8 := by cases width <;> decide
      have hoff := pageOff_eq va
      have hpa := hnotifies.pageOff
      rw [translateOrTrap_pageOff ht] at hpa
      rw [Crosses]
      omega
    rw [mmuStore_within hwithin, Run.bind_ok ht]
    exact busStore_none_iff.mpr ⟨hnotifies, hqueue⟩

/-! ## Instructions -/

/-- The address an instruction stores to. -/
def storeAddress (c : Cpu) : Instruction → Option U64
  | .store _ rs1 _ imm | .fsw rs1 _ imm | .fsd rs1 _ imm => some (c.reg rs1 + imm)
  | .sc _ _ rs1 _ | .amo _ _ _ rs1 _ => some (c.reg rs1)
  | _ => none

/-- An instruction, on a hart that stores in a mode, notifies a block device that does not finish. A
store-conditional does so only where the address is reserved. -/
def Stalls (mode : PrivMode) (inst : Instruction) (c : Cpu) : Prop :=
  ∃ va pa c₁, c.storeAddress inst = some va ∧
    translateOrTrap mode va .store c = some (.ok pa, c₁) ∧
    (∀ width rd rs1 rs2, inst = .sc width rd rs1 rs2 → c.reservation = some pa) ∧
    Bus.Notifies pa ∧ c₁.bus.Unfinished

/-- A memory operation, or the code behind it, aborts. -/
theorem orRaise_eq_none {α : Type} {m : Run Cpu Trap α} {k : α → Cpu → Option Retired} :
    orRaise m k c = none ↔ m c = none ∨ ∃ a c₁, m c = some (.ok a, c₁) ∧ k a c₁ = none := by
  rw [orRaise]
  cases hm : m c with
  | none => simp
  | some p =>
      obtain ⟨r, c₁⟩ := p
      cases r with
      | error t => simp
      | ok a =>
          constructor
          · intro h
            exact .inr ⟨a, c₁, rfl, h⟩
          · rintro (h | ⟨a', c', heq, h⟩)
            · cases h
            · cases heq
              exact h

theorem execLoad_returns (hplaced : Placed c.mmu) {rs1 : Reg} {imm : U64}
    {dest : U64 → Cpu → Cpu} : c.execLoad rs1 imm width dest ≠ none := by
  intro hnone
  rcases orRaise_eq_none.mp hnone with hload | ⟨v, c₁, -, hrest⟩
  · exact mmuLoad_returns c hplaced hload
  · cases hrest

theorem execLr_returns (hplaced : Placed c.mmu) {size : AmoWidth} {rd rs1 : Reg} :
    c.execLr size rd rs1 ≠ none := by
  intro hnone
  rcases orRaise_eq_none.mp hnone with ht | ⟨pa, c₁, ht, hrest⟩
  · exact translateOrTrap_returns c hplaced ht
  · have hplaced₁ : Placed c₁.mmu := placed_frame.translateOrTrap _ _ _ _ _ _ ht hplaced
    rcases orRaise_eq_none.mp hrest with hload | ⟨v, c₂, -, hrest⟩
    · exact busLoad_returns c₁ hplaced₁ hload
    · cases hrest

/-- A store of the given address and value. -/
theorem execStore_none_iff (hplaced : Placed c.mmu) {rs1 : Reg} {imm : U64} :
    c.execStore rs1 imm width value = none ↔
      ∃ pa c₁, translateOrTrap c.lsMode (c.reg rs1 + imm) .store c = some (.ok pa, c₁) ∧
        Bus.Notifies pa ∧ c₁.bus.Unfinished := by
  rw [← mmuStore_none_iff hplaced, execStore, orRaise_eq_none]
  constructor
  · rintro (hnone | ⟨u, c₁, -, hrest⟩)
    · exact hnone
    · cases hrest
  · exact .inl

theorem execSc_none_iff (hplaced : Placed c.mmu) {size : AmoWidth} {rd rs1 rs2 : Reg} :
    c.execSc size rd rs1 rs2 = none ↔
      ∃ pa c₁, translateOrTrap c.lsMode (c.reg rs1) .store c = some (.ok pa, c₁) ∧
        c.reservation = some pa ∧ Bus.Notifies pa ∧ c₁.bus.Unfinished := by
  rw [execSc, orRaise_eq_none]
  constructor
  · rintro (ht | ⟨pa, c₁, ht, hrest⟩)
    · exact absurd ht (translateOrTrap_returns c hplaced)
    · have hkeep := (translateOrTrap_keepsHart _ _ _ _ _ _ ht).reservation
      split at hrest
      · rename_i hres
        split at hrest
        · rename_i hstore
          exact ⟨pa, c₁, ht, hkeep ▸ hres, busStore_none_iff.mp hstore⟩
        · cases hrest
      · cases hrest
  · rintro ⟨pa, c₁, ht, hres, hstore⟩
    have hkeep := (translateOrTrap_keepsHart _ _ _ _ _ _ ht).reservation
    refine .inr ⟨pa, c₁, ht, ?_⟩
    rw [if_pos (hkeep.trans hres), busStore_none_iff.mpr hstore]

/-- A load from the register leaves the hart alone. -/
theorem busLoad_notifies (width : Width) (trap : Trap) (c : Cpu) (hnotifies : Bus.Notifies pa) :
    ∃ r, busLoad pa width trap c = some (r, c) := by
  have hload := Bus.load_virtioBlk width c.bus hnotifies.1
  exact ⟨_, Run.zoom_of_some hload⟩

theorem execAmo_none_iff (hplaced : Placed c.mmu) {op : AmoOp} {size : AmoWidth}
    {rd rs1 rs2 : Reg} :
    c.execAmo op size rd rs1 rs2 = none ↔
      ∃ pa c₁, translateOrTrap c.lsMode (c.reg rs1) .store c = some (.ok pa, c₁) ∧
        Bus.Notifies pa ∧ c₁.bus.Unfinished := by
  rw [execAmo, orRaise_eq_none]
  constructor
  · rintro (ht | ⟨pa, c₁, ht, hrest⟩)
    · exact absurd ht (translateOrTrap_returns c hplaced)
    · have hplaced₁ : Placed c₁.mmu := placed_frame.translateOrTrap _ _ _ _ _ _ ht hplaced
      dsimp only at hrest
      split at hrest
      · rename_i hload
        exact absurd hload (busLoad_returns c₁ hplaced₁)
      · rename_i r c₂ hload
        split at hrest
        · rename_i hstore
          obtain ⟨hnotifies, hqueue⟩ := busStore_none_iff.mp hstore
          obtain ⟨r', hsame⟩ := busLoad_notifies size.width ⟨5, c.reg rs1⟩ c₁ hnotifies
          rw [hsame] at hload
          cases hload
          exact ⟨pa, c₁, ht, hnotifies, hqueue⟩
        · cases hrest
  · rintro ⟨pa, c₁, ht, hnotifies, hqueue⟩
    refine .inr ⟨pa, c₁, ht, ?_⟩
    obtain ⟨r, hload⟩ := busLoad_notifies size.width ⟨5, c.reg rs1⟩ c₁ hnotifies
    rw [hload]
    dsimp only
    rw [busStore_none_iff.mpr ⟨hnotifies, hqueue⟩]

/-- Instructions that store unconditionally stall where their store notifies. -/
theorem stalls_iff {mode : PrivMode} (haddr : c.storeAddress inst = some va)
    (hsc : ∀ width rd rs1 rs2, inst ≠ .sc width rd rs1 rs2) :
    Stalls mode inst c ↔ ∃ pa c₁, translateOrTrap mode va .store c = some (.ok pa, c₁) ∧
      Bus.Notifies pa ∧ c₁.bus.Unfinished := by
  constructor
  · rintro ⟨va', pa, c₁, haddr', ht, -, hstore⟩
    rw [haddr] at haddr'
    cases haddr'
    exact ⟨pa, c₁, ht, hstore⟩
  · rintro ⟨pa, c₁, ht, hstore⟩
    refine ⟨va, pa, c₁, haddr, ht, ?_, hstore⟩
    intro width rd rs1 rs2 heq
    exact absurd heq (hsc width rd rs1 rs2)

theorem not_stalls (haddr : c.storeAddress inst = none) : ¬ Stalls mode inst c := by
  rintro ⟨va, pa, c₁, haddr', -⟩
  rw [haddr] at haddr'
  cases haddr'

/-- An instruction aborts where it notifies a device that does not finish. -/
theorem execute_none_iff (hplaced : Placed c.mmu) :
    execute fpu inst c = none ↔ Stalls c.lsMode inst c := by
  have hnever : c.storeAddress inst = none → execute fpu inst c ≠ none →
      (execute fpu inst c = none ↔ Stalls c.lsMode inst c) :=
    fun haddr hreturns => iff_of_false hreturns (not_stalls haddr)
  cases inst with
  | store op rs1 rs2 imm =>
      exact (execStore_none_iff hplaced).trans (stalls_iff rfl (by simp)).symm
  | fsw | fsd => exact (execStore_none_iff hplaced).trans (stalls_iff rfl (by simp)).symm
  | amo => exact (execAmo_none_iff hplaced).trans (stalls_iff rfl (by simp)).symm
  | sc size rd rs1 rs2 =>
      refine (execSc_none_iff hplaced).trans ?_
      constructor
      · rintro ⟨pa, c₁, ht, hres, hstore⟩
        exact ⟨_, pa, c₁, rfl, ht, fun _ _ _ _ _ => hres, hstore⟩
      · rintro ⟨va, pa, c₁, haddr, ht, hres, hstore⟩
        cases haddr
        exact ⟨pa, c₁, ht, hres _ _ _ _ rfl, hstore⟩
  | load | flw | fld => exact hnever rfl (execLoad_returns hplaced)
  | lr => exact hnever rfl (execLr_returns hplaced)
  | branch op rs1 rs2 imm =>
      refine hnever rfl ?_
      change c.execBranch op rs1 rs2 imm ≠ none
      rw [execBranch, execJump]
      split
      · split <;> simp
      · simp
  | jal rd imm =>
      refine hnever rfl ?_
      change c.execJal rd imm ≠ none
      rw [execJal, execJump]
      split <;> simp
  | jalr rd rs1 imm =>
      refine hnever rfl ?_
      change c.execJalr rd rs1 imm ≠ none
      rw [execJalr, execJump]
      split <;> simp
  | sret =>
      refine hnever rfl ?_
      change c.execSret ≠ none
      rw [execSret]
      split <;> simp
  | sfenceVma =>
      refine hnever rfl ?_
      change c.execSfenceVma ≠ none
      rw [execSfenceVma]
      split <;> simp
  | csr op rd src csr =>
      refine hnever rfl ?_
      change c.execCsr op rd src csr ≠ none
      rw [execCsr]
      split <;> simp
  | opFp funct7 rs2 rs1 rm rd =>
      refine hnever rfl ?_
      change c.execFp rd (opFpResult fpu c funct7 rs2 rs1 rm) ≠ none
      cases opFpResult fpu c funct7 rs2 rs1 rm <;> simp [execFp]
  | fma opcode fmt rs3 rs2 rs1 rd =>
      refine hnever rfl ?_
      change c.execFp rd (fmaFpResult fpu c opcode fmt rs3 rs2 rs1) ≠ none
      cases fmaFpResult fpu c opcode fmt rs3 rs2 rs1 <;> simp [execFp]
  | _ => exact hnever rfl (by simp [execute, execWrite, execMret])

/-- The next step notifies a device that does not finish. -/
def StepStalls (c : Cpu) : Prop :=
  ∃ inst c', c.fetched = some (inst, c') ∧ Stalls c'.lsMode inst c'

/-- A step aborts where its instruction does. -/
theorem step_none_iff (hplaced : Placed c.mmu) : step fpu c = none ↔ StepStalls c := by
  cases hfetched : c.fetched with
  | some p =>
      obtain ⟨inst, c'⟩ := p
      have hplaced' : Placed c'.mmu := by
        obtain ⟨-, -, raw, c₁, hfetch, -, rfl⟩ := fetched_eq_some hfetched
        have hplaced₁ : Placed c₁.mmu := placed_frame.fetch _ _ _ _ _ hfetch hplaced
        exact hplaced₁
      rw [step_of_fetched hfetched, execute_none_iff hplaced']
      constructor
      · intro hstalls
        exact ⟨inst, c', hfetched, hstalls⟩
      · rintro ⟨inst', c'', heq, hstalls⟩
        rw [hfetched] at heq
        cases heq
        exact hstalls
  | none =>
      refine iff_of_false ?_ ?_
      · intro hnone
        rw [step] at hnone
        split at hnone
        · cases hnone
        · rename_i hint
          split at hnone
          · cases hnone
          · rename_i hpc
            rcases orRaise_eq_none.mp hnone with hfetch | ⟨raw, c₁, hfetch, hrest⟩
            · exact fetch_returns _ _ c hplaced hfetch
            · rw [executeFetched] at hrest
              split at hrest
              · cases hrest
              · -- such a step executes an instruction
                rename_i inst hdec
                rw [fetched, if_pos ⟨hint, not_not.mp hpc⟩, hfetch] at hfetched
                simp only [hdec] at hfetched
                cases hfetched
      · rintro ⟨inst, c', heq, -⟩
        rw [hfetched] at heq
        cases heq

end Cpu

namespace Jit

open Cpu (placed_frame Stalls not_stalls ReturnsPlaced)

variable {h : Host} {c c' : Cpu} {va val pc : U64} {width : Width} {raw4 : U32} {raws : List U32}

/-! ## Blocks -/

theorem jitLoad_returns (hplaced : Placed c.mmu) : c.jitLoad width va ≠ none := by
  intro hnone
  unfold Cpu.jitLoad at hnone
  split at hnone
  · rename_i ht
    exact Cpu.translate_returns c hplaced ht
  · cases hnone
  · rename_i pa c₁ ht
    obtain ⟨r, b, hload⟩ := Bus.load_returns pa width c₁.bus
    rw [hload] at hnone
    cases r <;> cases hnone

/-- The store of a block aborts where it notifies a device that does not finish. -/
theorem jitStore_none_iff (hplaced : Placed c.mmu) :
    c.jitStore width va val = none ↔
      ∃ pa c₁, Cpu.translateOrTrap c.mode va .store c = some (.ok pa, c₁) ∧ Bus.Notifies pa ∧
        c₁.bus.Unfinished := by
  unfold Cpu.jitStore
  cases ht : Cpu.translate c.mode va .store c with
  | none => exact absurd ht (Cpu.translate_returns c hplaced)
  | some p =>
      obtain ⟨r, c₁⟩ := p
      have htrap : Cpu.translateOrTrap c.mode va .store c = some _ := Run.zoom_of_some ht
      rw [htrap]
      cases r with
      | error f =>
          refine iff_of_false (by simp) ?_
          rintro ⟨pa, c₂, heq, -⟩
          cases heq
      | ok pa =>
          have hstore : c₁.bus.store pa width val = none ↔ Bus.Notifies pa ∧ c₁.bus.Unfinished :=
            Bus.store_none_iff
          constructor
          · intro hnone
            dsimp only at hnone
            split at hnone
            · rename_i hs
              exact ⟨pa, c₁, rfl, hstore.mp hs⟩
            · cases hnone
            · cases hnone
          · rintro ⟨pa', c₂, heq, hstalls⟩
            cases heq
            dsimp only
            rw [hstore.mpr hstalls]

theorem answered_abort_iff {k : U64 → Cpu → Cpu} {answer : Option (U64 × Cpu)} :
    answered pc k answer = .abort ↔ answer = none := by
  cases answer with
  | none => simp [answered]
  | some p =>
      rw [answered]
      split <;> simp

/-- The code of an instruction aborts where it notifies a device that does not finish. -/
theorem native_abort_iff (hplaced : Placed c.mmu) (hhandled : Handled h pc raw4) :
    native (instOf raw4) pc (pc + sizeOf raw4) c = .abort ↔ Stalls c.mode (instOf raw4) c := by
  cases hdec : (Cpu.decodeFetched raw4).2 with
  | error tval =>
      rw [instOf, hdec]
      refine iff_of_false ?_ (not_stalls rfl)
      intro habort
      cases habort
  | ok inst =>
      have hinst : instOf raw4 = inst := by rw [instOf, hdec]
      rw [hinst]
      rcases hhandled.compiled hdec with hinline | hcalls
      · have hnostore : c.storeAddress inst = none := by
          cases inst <;> first | rfl | cases hinline
        rcases native_inlined (c := c) hinline pc (pc + sizeOf raw4) with
          ⟨c₁, hnative, -⟩ | ⟨c₁, target, hnative⟩
        · rw [hnative]
          exact iff_of_false (by simp) (not_stalls hnostore)
        · rw [hnative]
          exact iff_of_false (by simp) (not_stalls hnostore)
      · cases inst with
        | load =>
            refine iff_of_false ?_ (not_stalls rfl)
            intro habort
            exact jitLoad_returns hplaced (answered_abort_iff.mp habort)
        | store op rs1 rs2 imm =>
            rw [Cpu.stalls_iff rfl (by simp)]
            exact answered_abort_iff.trans (jitStore_none_iff hplaced)
        | _ => cases hcalls

/-- An instruction of a block that is reached notifies a device that does not finish. -/
def StallsAlong : U64 → List U32 → Cpu → Prop
  | _, [], _ => False
  | pc, raw4 :: raws, c =>
      Stalls c.mode (instOf raw4) c ∨
        ∃ c', native (instOf raw4) pc (pc + sizeOf raw4) c = .next c' ∧
          StallsAlong (pc + sizeOf raw4) raws c'

/-- A block aborts where one of its instructions does. -/
theorem runRaws_abort_iff (hplaced : Placed c.mmu) (hhandled : AllHandled h pc raws) :
    runRaws pc raws c = .abort ↔ StallsAlong pc raws c := by
  induction raws generalizing pc c with
  | nil => exact iff_of_false (by simp [runRaws]) id
  | cons raw4 raws ih =>
      obtain ⟨hhead, htail⟩ := hhandled
      have hframe := native_frame placed_frame (instOf raw4) pc (pc + sizeOf raw4) c
      rw [runRaws, StallsAlong, ← native_abort_iff hplaced hhead]
      cases hnative : native (instOf raw4) pc (pc + sizeOf raw4) c with
      | abort => simp [Outcome.andThen]
      | leave | fault => simp [Outcome.andThen]
      | next c₁ =>
          rw [hnative] at hframe
          have hrest := ih (c := c₁) (hframe hplaced) htail
          simpa [Outcome.andThen] using hrest

/-- A block does not end behind its last instruction. -/
theorem runRaws_ends (pc : U64) (raws : List U32) (c c' : Cpu) : runRaws pc raws c ≠ .next c' := by
  induction raws generalizing pc c with
  | nil =>
      intro hnext
      cases hnext
  | cons raw4 raws ih =>
      rw [runRaws]
      cases native (instOf raw4) pc (pc + sizeOf raw4) c with
      | next c₁ => exact ih _ c₁
      | leave | fault | abort =>
          intro hnext
          cases hnext

/-! ## Compilation -/

theorem fetchRaw_returns (pc : U64) : ReturnsPlaced (fetchRaw pc) := by
  intro c hplaced
  have hreturns : ReturnsPlaced
      (do
        let pa ← Cpu.translateOrTrap c.mode pc .fetch
        let v ← Cpu.busLoad pa .b4 ⟨1, pc⟩
        pure (v.setWidth 32) : Run Cpu Trap U32) :=
    Cpu.afterTranslation_returns fun pa => Cpu.afterLoad_returns fun v => .pure _
  exact hreturns c hplaced

theorem emitBlock_returns {left n : Nat} (hplaced : Placed c.mmu) :
    emitBlock h left pc n c ≠ none := by
  induction left generalizing pc n c with
  | zero =>
      intro hnone
      cases hnone
  | succ left ih =>
      intro hnone
      rw [emitBlock] at hnone
      split at hnone
      · rename_i hfetch
        exact fetchRaw_returns pc c hplaced hfetch
      · cases hnone
      · rename_i raw4 c₁ hfetch
        have hplaced₁ : Placed c₁.mmu := fetchRaw_frame placed_frame hfetch hplaced
        dsimp only at hnone
        split at hnone
        · exact ih hplaced₁ (Option.map_eq_none_iff.mp hnone)
        · cases hnone
        · cases hnone

/-- Compilation returns. -/
theorem compile_returns {jit : JitCache} (hplaced : Placed c.mmu) : compile h jit pc c ≠ none := by
  intro hnone
  rw [compile] at hnone
  split at hnone
  · cases hnone
  · split at hnone
    · rename_i hfetch
      exact fetchRaw_returns pc c hplaced hfetch
    · cases hnone
    · rename_i c₁ hfetch
      have hplaced₁ : Placed c₁.mmu := fetchRaw_frame placed_frame hfetch hplaced
      cases hemit : emitBlock h maxInsts pc 0 c₁ with
      | none => exact emitBlock_returns hplaced₁ hemit
      | some p =>
          rw [hemit] at hnone
          cases hnone

end Jit

end RiscvEmu
