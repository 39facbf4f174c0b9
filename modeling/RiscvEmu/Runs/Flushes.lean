import RiscvEmu.Csrs.Satp
import RiscvEmu.Runs.Aborts

/-!
# When blocks are forgotten

Nothing marks a fence for instructions as pending, so the only flush of the blocks that ever happens
is the one a change of the root of the page tables asks for.  As long as the root stays, a block
stays in the cache whatever the guest does: it may store over the code of the block, fence, flush
the translation unit, and take traps (`block_stays`).
-/

namespace RiscvEmu.Jit

open Cpu (Stable Steady Ordinary)

variable {h : Host} {fpu : Fpu} {bus : Bus} {entry : U64} {m m' : Machine} {a : Action} {c c' : Cpu}
  {r : Retired}

/-! ## Fences for instructions -/

/-- No fence for instructions is pending. -/
def Unfenced (c : Cpu) : Prop := c.fenceIPending = false

theorem unfenced_setReg (rd : Reg) (v : U64) (hc : Unfenced c) : Unfenced (c.setReg rd v) := by
  rw [Cpu.setReg]
  split
  · exact hc
  · exact hc

theorem unfenced_trap (cause tval : U64) (hc : Unfenced c) :
    Unfenced (c.deliverTrap cause tval) := by
  rw [Cpu.deliverTrap]
  split
  · exact hc
  · exact hc

theorem unfenced_stable : Stable Unfenced where
  memory hkeep hc := hkeep.fenceIPending.trans hc
  setReg := unfenced_setReg
  setFreg _ _ hc := hc
  markFsDirty hc := hc
  reservation _ hc := hc
  jitInvalidate hc := hc
  instSize _ hc := hc
  csrWrite _ _ hc := hc
  trap := unfenced_trap
  next hc := hc
  jump _ hc := hc
  mret hr hc := by
    rw [Cpu.execMret] at hr
    cases hr
    exact hc
  sret hr hc := by
    rw [Cpu.execSret] at hr
    split at hr
    · cases hr
      exact unfenced_trap _ _ hc
    · cases hr
      exact hc

theorem unfenced_blockStable : BlockStable Unfenced fun _ => True where
  memory hkeep hc := hkeep.fenceIPending.trans hc
  setReg := unfenced_setReg
  pc _ hc := hc
  add _ _ := trivial
  clear _ := trivial

theorem unfenced_act (hm : ZeroReg m.cpu ∧ Cached h m.jit) (hc : Unfenced m.cpu)
    (hact : m.act h a = some m') : Unfenced m'.cpu := by
  cases a with
  | step fpu =>
      obtain ⟨r, hstep, rfl⟩ := Option.map_eq_some_iff.mp hact
      exact unfenced_stable.step hc hstep
  | block =>
      rw [Machine.act] at hact
      split at hact
      · cases hact
      · rename_i code hget
        obtain ⟨⟨next, c'⟩, hrun, rfl⟩ := Option.map_eq_some_iff.mp hact
        exact block_keeps unfenced_blockStable trivial hm.1 hc (hm.2 _ _ hget) hrun
  | compile startPc =>
      obtain ⟨⟨jit', c'⟩, hcompile, rfl⟩ := Option.map_eq_some_iff.mp hact
      exact (compile_eq hcompile).1.fenceIPending.trans hc
  | trap cause tval =>
      cases hact
      exact unfenced_trap cause tval hc
  | poll input =>
      cases hact
      exact poll_keeps unfenced_stable.memory (fun _ hc => hc) unfenced_trap input hc
  | csrWrite | ticks =>
      cases hact
      exact hc
  | flushSatp =>
      cases hact
      rw [flushSatp]
      split
      · exact hc
      · exact hc
  | flushFenceI =>
      cases hact
      rw [Unfenced] at hc
      rw [flushFenceI, hc]
      exact hc

theorem start_unfenced (bus : Bus) (entry : U64) :
    Unfenced (Machine.start (.new bus entry)).cpu := rfl

/-- No fence for instructions is ever pending. -/
theorem unfenced_reached (hm : Reached h bus entry m) : Unfenced m.cpu := by
  have hboth : Unfenced m.cpu ∧ ZeroReg m.cpu ∧ Cached h m.jit := by
    refine hm.invariant (I := fun m => Unfenced m.cpu ∧ ZeroReg m.cpu ∧ Cached h m.jit) ?_ ?_
    · rintro m rfl
      exact ⟨start_unfenced bus entry, start_zero⟩
    · intro m a m' hm _ hact
      exact ⟨unfenced_act hm.2 hm.1 hact, zeroReg_runStable.act hm.2 hact⟩
  exact hboth.1

/-! ## Changes of the root -/

/-- No flush is asked for. -/
def Unasked (c : Cpu) : Prop := c.jitInvalidate = false

theorem unasked_setReg (rd : Reg) (v : U64) (hc : Unasked c) : Unasked (c.setReg rd v) :=
  (Cpu.setReg_jitInvalidate c rd v).trans hc

theorem unasked_trap (cause tval : U64) (hc : Unasked c) : Unasked (c.deliverTrap cause tval) :=
  (Cpu.deliverTrap_jitInvalidate c cause tval).trans hc

theorem unasked_steady : Steady Unasked where
  memory hkeep hc := hkeep.jitInvalidate.trans hc
  setReg := unasked_setReg
  reservation _ hc := hc
  instSize _ hc := hc
  trap := unasked_trap
  next hc := hc
  jump _ hc := hc
  mret hr hc := by
    rw [Cpu.execMret] at hr
    cases hr
    exact hc
  sret hr hc := by
    rw [Cpu.execSret] at hr
    split at hr
    · cases hr
      exact unasked_trap _ _ hc
    · cases hr
      exact hc

theorem unasked_blockStable : BlockStable Unasked fun _ => True where
  memory hkeep hc := hkeep.jitInvalidate.trans hc
  setReg := unasked_setReg
  pc _ hc := hc
  add _ _ := trivial
  clear _ := trivial

/-- A CSR instruction asks for a flush when it has changed the root. -/
theorem unasked_csr {op : CsrOp} {rd : Reg} {src : CsrSrc} {csr : CsrAddr} (hc : Unasked c)
    (h : c.execCsr op rd src csr = some r) (hroot : r.cpu.satpPpn = c.satpPpn) : Unasked r.cpu := by
  have hmoved : Unasked (c.csrMoved op rd src csr) :=
    (Cpu.csrMoved_jitInvalidate c op rd src csr).trans hc
  rw [Cpu.execCsr_eq] at h
  split at h
  · cases h
    exact unasked_trap _ _ hc
  · cases h
    by_cases hchanged : csr = 0x180 ∧ Cpu.writesCsr op src ∧
        (c.csrMoved op rd src csr).satpPpn ≠ c.satpPpn
    · rw [if_pos hchanged] at hroot
      exact absurd hroot hchanged.2.2
    · rw [if_neg hchanged]
      exact hmoved

theorem unasked_fp {rd : Reg} {res : FpResult} (hc : Unasked c) (h : c.execFp rd res = some r) :
    Unasked r.cpu := by
  cases res with
  | freg v =>
      cases h
      exact hc
  | ireg v =>
      cases h
      exact unasked_setReg rd v hc
  | illegalReturn | illegalFallthrough =>
      cases h
      exact unasked_trap _ _ hc

/-- A step that leaves the root alone asks for no flush. -/
theorem unasked_step (hc : Unasked c) (hstep : Cpu.step fpu c = some r)
    (hroot : r.cpu.satpPpn = c.satpPpn) : Unasked r.cpu := by
  refine unasked_steady.step hc (fun inst c' hfetched hother hc' hx => ?_) hstep
  have hppn : c'.satpPpn = c.satpPpn := by
    rw [Cpu.satpPpn, (Cpu.fetched_keeps hfetched).2.1]
    rfl
  cases inst with
  | csr op rd src csr => exact unasked_csr hc' hx (hroot.trans hppn.symm)
  | flw | fld =>
      rw [execute] at hx
      refine unasked_steady.execLoad ?_ ?_ ?_ hc' hx
      · intro v c hc
        exact hc
      · intro v c
        rfl
      · intro v c
        rfl
  | opFp | fma => exact unasked_fp hc' hx
  | _ => exact absurd trivial hother

/-- So does an action that leaves the root alone. -/
theorem unasked_act (hm : ZeroReg m.cpu ∧ Cached h m.jit) (hc : Unasked m.cpu)
    (hact : m.act h a = some m') (hroot : m'.cpu.satpPpn = m.cpu.satpPpn) : Unasked m'.cpu := by
  cases a with
  | step fpu =>
      obtain ⟨r, hstep, rfl⟩ := Option.map_eq_some_iff.mp hact
      exact unasked_step hc hstep hroot
  | block =>
      rw [Machine.act] at hact
      split at hact
      · cases hact
      · rename_i code hget
        obtain ⟨⟨next, c'⟩, hrun, rfl⟩ := Option.map_eq_some_iff.mp hact
        exact block_keeps unasked_blockStable trivial hm.1 hc (hm.2 _ _ hget) hrun
  | compile startPc =>
      obtain ⟨⟨jit', c'⟩, hcompile, rfl⟩ := Option.map_eq_some_iff.mp hact
      exact (compile_eq hcompile).1.jitInvalidate.trans hc
  | trap cause tval =>
      cases hact
      exact unasked_trap cause tval hc
  | poll input =>
      cases hact
      exact poll_keeps unasked_steady.memory (fun _ hc => hc) unasked_trap input hc
  | csrWrite | ticks =>
      cases hact
      exact hc
  | flushSatp =>
      cases hact
      rw [Unasked] at hc
      rw [flushSatp, hc]
      exact hc
  | flushFenceI =>
      cases hact
      rw [flushFenceI]
      split
      · dsimp only
        split
        · exact hc
        · exact hc
      · exact hc

/-! ## The cache -/

/-- Compilation adds a block where there is none. -/
theorem compile_keeps {jit jit' : JitCache} {startPc pc : U64} {code : Code}
    (hcompile : compile h jit startPc c = some (jit', c')) (hget : jit.get pc = some code) :
    jit'.get pc = some code := by
  rw [compile] at hcompile
  split at hcompile
  · cases hcompile
    exact hget
  · rename_i hnone
    have hother : pc ≠ startPc := by
      rintro rfl
      rw [hget] at hnone
      exact hnone rfl
    split at hcompile
    · cases hcompile
    · cases hcompile
      exact hget
    · split at hcompile
      · cases hcompile
      · cases hcompile
        split
        · rw [JitCache.get, JitCache.insert, Function.update_of_ne hother]
          exact hget
        · exact hget

/-- While no flush is asked for and no fence is pending, a block stays over an action. -/
theorem block_stays_act {pc : U64} {code : Code} (hunasked : Unasked m.cpu)
    (hunfenced : Unfenced m.cpu) (hact : m.act h a = some m') (hget : m.jit.get pc = some code) :
    m'.jit.get pc = some code := by
  cases a with
  | step fpu =>
      obtain ⟨r, hstep, rfl⟩ := Option.map_eq_some_iff.mp hact
      exact hget
  | block =>
      rw [Machine.act] at hact
      split at hact
      · cases hact
      · obtain ⟨⟨next, c'⟩, hrun, rfl⟩ := Option.map_eq_some_iff.mp hact
        exact hget
  | compile startPc =>
      obtain ⟨⟨jit', c'⟩, hcompile, rfl⟩ := Option.map_eq_some_iff.mp hact
      exact compile_keeps hcompile hget
  | csrWrite | trap | poll | ticks =>
      cases hact
      exact hget
  | flushSatp =>
      cases hact
      rw [Unasked] at hunasked
      rw [flushSatp, hunasked]
      exact hget
  | flushFenceI =>
      cases hact
      rw [Unfenced] at hunfenced
      rw [flushFenceI, hunfenced]
      exact hget

/-- A run leaves the root of the page tables alone. -/
def SameRoot (h : Host) (bus : Bus) (entry : U64) : List Action → Machine → Prop :=
  (interleavings h bus entry).Along fun m a =>
    ∀ m', m.act h a = some m' → m'.cpu.satpPpn = m.cpu.satpPpn

theorem SameRoot.cons {actions : List Action} (hact : m.act h a = some m')
    (hroot : m'.cpu.satpPpn = m.cpu.satpPpn) (hrest : SameRoot h bus entry actions m') :
    SameRoot h bus entry (a :: actions) m := by
  refine ⟨fun m₁ hact₁ => ?_, fun m₁ hact₁ => ?_⟩
  · rw [hact] at hact₁
    cases hact₁
    exact hroot
  · change m.act h a = some m₁ at hact₁
    rw [hact] at hact₁
    cases hact₁
    exact hrest

/-- No fence for instructions is ever pending.  From any state with no flush asked for, in every run
that leaves the root of the page tables alone, a block that is in the cache stays there as it is. -/
theorem block_stays (h : Host) (bus : Bus) (entry : U64) (m m' : Machine)
    (hm : Reached h bus entry m) (hunasked : m.cpu.jitInvalidate = false) (actions : List Action)
    (hroot : SameRoot h bus entry actions m)
    (hrun : (interleavings h bus entry).after actions m = some m') :
    m.cpu.fenceIPending = false ∧ m'.cpu.fenceIPending = false ∧
      m'.cpu.jitInvalidate = false ∧
      ∀ pc code, m.jit.get pc = some code → m'.jit.get pc = some code := by
  refine ⟨unfenced_reached hm, ?_⟩
  induction actions generalizing m with
  | nil =>
      cases hrun
      exact ⟨unfenced_reached hm, hunasked, fun _ _ hget => hget⟩
  | cons a actions ih =>
      obtain ⟨m₁, hact, hrest⟩ := System.after_cons hrun
      have hunasked₁ : Unasked m₁.cpu :=
        unasked_act (placed_reached hm).2 hunasked hact (hroot.1 m₁ hact)
      obtain ⟨hfence, hflush, hstay⟩ := ih m₁ (hm.act hact) hunasked₁ (hroot.2 m₁ hact) hrest
      refine ⟨hfence, hflush, fun pc code hget => hstay pc code ?_⟩
      exact block_stays_act hunasked (unfenced_reached hm) hact hget

/-- A jump to itself, and behind it code that stores over the jump and fences. -/
def patchBus : Bus :=
  (Bus.new 0x1000 0x8000_0000).withWords
    [(0, 0x0000_006F), (8, 0xFE05_2C23_0000_0517), (16, 0x0000_100F)]

/-- The machine with the jump compiled. -/
def patchMachine : Machine :=
  ((Machine.start (.new patchBus 0x8000_0008)).act layoutHost (.compile 0x8000_0000)).getD
    (.start (.new patchBus 0x8000_0008))

/-- The machine some steps later. -/
def patchMachineAfter (n : Nat) : Machine :=
  ((interleavings layoutHost patchBus 0x8000_0008).after (List.replicate n (.step default))
    patchMachine).getD patchMachine

theorem patchMachine_reached : Reached layoutHost patchBus 0x8000_0008 patchMachine :=
  have hstart : Reached layoutHost patchBus 0x8000_0008 (.start (.new patchBus 0x8000_0008)) :=
    .init rfl
  hstart.act (a := .compile 0x8000_0000) rfl

theorem patchMachine_sameRoot :
    SameRoot layoutHost patchBus 0x8000_0008 (List.replicate 3 (.step default)) patchMachine := by
  have hfirst : patchMachine.act layoutHost (.step default) = some (patchMachineAfter 1) := rfl
  have hsecond : (patchMachineAfter 1).act layoutHost (.step default) =
      some (patchMachineAfter 2) := rfl
  have hthird : (patchMachineAfter 2).act layoutHost (.step default) =
      some (patchMachineAfter 3) := rfl
  exact .cons hfirst rfl (.cons hsecond rfl (.cons hthird rfl trivial))

/-- The jump is gone from memory, and its block is still there behind the fence. -/
theorem patchMachine_stays : ∃ code, patchMachine.jit.get 0x8000_0000 = some code ∧
    (patchMachineAfter 3).jit.get 0x8000_0000 = some code ∧
    patchMachine.cpu.bus.ram.byte 0 = 0x6F ∧ (patchMachineAfter 3).cpu.bus.ram.byte 0 = 0 := by
  have hsome : (patchMachine.jit.get 0x8000_0000).isSome = true := by decide
  obtain ⟨code, hget⟩ := Option.isSome_iff_exists.mp hsome
  have hstays := block_stays layoutHost patchBus 0x8000_0008 patchMachine (patchMachineAfter 3)
    patchMachine_reached rfl _ patchMachine_sameRoot rfl
  exact ⟨code, hget, hstays.2.2.2 _ _ hget, rfl, rfl⟩

end RiscvEmu.Jit
