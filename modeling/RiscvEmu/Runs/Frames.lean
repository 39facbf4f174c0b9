import Mathlib.Data.BitVec
import RiscvEmu.Execution.Frames
import RiscvEmu.Lib.Simulation
import RiscvEmu.Runs.Poll
import RiscvEmu.Runs.Registers
import RiscvEmu.Virtio.Requests

/-!
# What the guest cannot change

Steps, blocks, compilations and flushes meet every frame of memory (`act_frame`), and a service
changes the bus in known places.  So some things hold of every run, whatever the guest does.  The
timer moves at services only, by the time the host gives them (`mtime_after`).  What was printed
stays printed.  RAM stays where it is and as long as it is, and the block device keeps its capacity
(`printed_after`).
-/

namespace RiscvEmu

/-! ## The serial port -/

namespace Uart16550

theorem stdout_print (u : Uart16550) (b : U8) : u.stdout <+: (u.print b).stdout :=
  List.prefix_append _ _

theorem stdout_foldl_print (held : List U8) (u : Uart16550) :
    u.stdout <+: (held.foldl print u).stdout := by
  induction held generalizing u with
  | nil => exact List.prefix_refl _
  | cons b held ih => exact (u.stdout_print b).trans (ih _)

theorem stdout_flushPrefix (u : Uart16550) : u.stdout <+: u.flushPrefix.stdout := by
  rw [flushPrefix]
  split
  · exact List.prefix_refl _
  · exact stdout_foldl_print _ u

theorem bpmStep_stdout (u : Uart16550) (byte : U8) : (u.bpmStep byte).stdout = u.stdout := by
  rw [bpmStep]
  split
  · dsimp only
    split <;> rfl
  · rfl

theorem stdout_dsrStep (u : Uart16550) (byte : U8) : u.stdout <+: (u.dsrStep byte).stdout := by
  rw [dsrStep]
  split
  · exact u.stdout_flushPrefix
  · split
    · exact List.prefix_refl _
    · split
      · exact List.prefix_refl _
      · split
        · exact List.prefix_refl _
        · exact u.stdout_flushPrefix.trans (u.flushPrefix.stdout_print byte)

/-- A store keeps what was printed. -/
theorem stdout_store (u : Uart16550) (addr val : U64) : u.stdout <+: (u.store addr val).stdout := by
  rw [store]
  split
  · split <;> exact List.prefix_refl _
  · have hstep := (u.bpmStep (val.setWidth 8)).stdout_dsrStep (val.setWidth 8)
    rwa [bpmStep_stdout] at hstep

theorem load_stdout (u : Uart16550) (addr : U64) : (u.load addr).2.stdout = u.stdout := by
  rw [load]
  split
  · rfl
  · rfl
  · split
    · rfl
    · split <;> rfl
  all_goals rfl

theorem foldl_pushRx_stdout (bytes : List U8) (u : Uart16550) :
    (bytes.foldl .pushRx u).stdout = u.stdout := by
  induction bytes generalizing u with
  | nil => rfl
  | cons b bytes ih => exact ih _

end Uart16550

/-! ## The block device -/

namespace VirtioBlk

theorem serveNext_capacity {v v' : VirtioBlk} {ram ram' : Ram} {base : U64}
    (h : v.serveNext ram base = some (v', ram')) : v'.capacity = v.capacity := by
  rw [serveNext] at h
  obtain ⟨head, -, h⟩ := Option.bind_eq_some_iff.mp h
  obtain ⟨⟨v₁, ram₁⟩, hreq, h⟩ := Option.bind_eq_some_iff.mp h
  obtain ⟨disk, rfl⟩ := (doRequest_frame hreq).1
  obtain ⟨usedIdx, -, h⟩ := Option.bind_eq_some_iff.mp h
  obtain ⟨ram₂, -, h⟩ := Option.bind_eq_some_iff.mp h
  obtain ⟨ram₃, -, h⟩ := Option.bind_eq_some_iff.mp h
  obtain ⟨ram₄, -, h⟩ := Option.bind_eq_some_iff.mp h
  cases h
  rfl

theorem drain_capacity (base : U64) (v : VirtioBlk) (ram : Ram) (r : VirtioBlk × Ram)
    (h : drain base v ram = some r) : r.1.capacity = v.capacity := by
  refine drain.partial_correctness base (fun v ram r => r.1.capacity = v.capacity) ?_ v ram r h
  intro drain ih v ram r h
  obtain ⟨availIdx, -, h⟩ := Option.bind_eq_some_iff.mp h
  split at h
  · cases h
    rfl
  · obtain ⟨⟨v₁, ram₁⟩, hs, h⟩ := Option.bind_eq_some_iff.mp h
    exact (ih v₁ ram₁ r h).trans (serveNext_capacity hs)

theorem processQueue_capacity {v v' : VirtioBlk} {ram ram' : Ram} {base : U64}
    (h : v.processQueue ram base = some (v', ram')) : v'.capacity = v.capacity := by
  rw [processQueue] at h
  split at h
  · cases h
    rfl
  · exact drain_capacity base v ram _ h

theorem store_capacity (v : VirtioBlk) (off val : U64) :
    (v.store off val).2.capacity = v.capacity := by
  unfold store
  dsimp only
  split <;> first | rfl | (split <;> rfl)

end VirtioBlk

/-! ## Frames of the bus -/

/-- How a store changes the bus: in RAM, in one device, or in the block device and RAM. -/
theorem Bus.store_cases {addr value : U64} {width : Width} {b b' : Bus}
    {r : Except BusFault Unit} (h : Bus.store addr width value b = some (r, b')) :
    (∃ ram, b' = { b with ram := ram }) ∨ (∃ cmp, b' = { b with clint :=
        { b.clint with mtimecmp := cmp } }) ∨
      (∃ plic, b' = { b with plic := plic }) ∨ b' = { b with uart := b.uart.store addr value } ∨
      ∃ v ram, v.capacity = b.virtioBlk.capacity ∧ b' = { b with virtioBlk := v, ram := ram } := by
  cases hr : region addr with
  | ram =>
      cases ho : b.offset addr width with
      | error e =>
          rw [store_ram_error value hr ho] at h
          cases h
          exact .inl ⟨b.ram, rfl⟩
      | ok off =>
          rw [store_ram value hr ho] at h
          cases h
          exact .inl ⟨_, rfl⟩
  | clint =>
      rw [store_clint width b value hr] at h
      cases h
      refine .inr (.inl ⟨if addr = 0x0200_4000#64 then value else b.clint.mtimecmp, ?_⟩)
      rw [Clint.store]
      split <;> rfl
  | plic =>
      rw [store_plic width b value hr] at h
      cases h
      exact .inr (.inr (.inl ⟨_, rfl⟩))
  | uart =>
      rw [store_uart width b value hr] at h
      cases h
      exact .inr (.inr (.inr (.inl rfl)))
  | virtioBlk =>
      refine .inr (.inr (.inr (.inr ?_)))
      have hcap := b.virtioBlk.store_capacity (addr - 0x1000_1000#64) value
      simp only [store, hr] at h
      split at h
      · rename_i hs
        cases h
        rw [hs] at hcap
        exact ⟨_, _, hcap, rfl⟩
      · rename_i hs
        obtain ⟨⟨v, ram⟩, hq, hb⟩ := Option.map_eq_some_iff.mp h
        cases hb
        rw [hs] at hcap
        exact ⟨v, ram, (VirtioBlk.processQueue_capacity hq).trans hcap, rfl⟩

/-- How a load changes the bus. -/
theorem Bus.load_cases {addr : U64} {width : Width} {b b' : Bus} {r : Except BusFault U64}
    (h : Bus.load addr width b = some (r, b')) :
    b' = b ∨ (∃ plic, b' = { b with plic := plic }) ∨
      b' = { b with uart := (b.uart.load addr).2 } := by
  cases hr : region addr with
  | ram =>
      cases ho : b.offset addr width with
      | error e =>
          rw [load_ram_error hr ho] at h
          cases h
          exact .inl rfl
      | ok off =>
          rw [load_ram hr ho] at h
          cases h
          exact .inl rfl
  | clint =>
      rw [load_clint width b hr] at h
      cases h
      exact .inl rfl
  | plic =>
      rw [load_plic width b hr] at h
      cases h
      exact .inr (.inl ⟨_, rfl⟩)
  | uart =>
      rw [load_uart width b hr] at h
      cases h
      exact .inr (.inr rfl)
  | virtioBlk =>
      rw [load_virtioBlk width b hr] at h
      cases h
      exact .inl rfl

/-- No access moves the timer. -/
theorem mtime_busFrame : BusFrame fun b b' => b'.clint.mtime = b.clint.mtime where
  refl _ := rfl
  trans _ _ _ h h' := h'.trans h
  load addr width b r b' h := by
    rcases Bus.load_cases h with rfl | ⟨plic, rfl⟩ | rfl <;> rfl
  store addr width value b r b' h := by
    rcases Bus.store_cases h with ⟨ram, rfl⟩ | ⟨cmp, rfl⟩ | ⟨plic, rfl⟩ | rfl | ⟨v, ram, -, rfl⟩ <;>
      rfl

/-- What was printed stays printed, RAM stays in its place, and the disk keeps its capacity. -/
structure Extends (b b' : Bus) : Prop where
  printed : b.uart.stdout <+: b'.uart.stdout
  base : b'.ramBase = b.ramBase
  len : b'.ram.len = b.ram.len
  capacity : b'.virtioBlk.capacity = b.virtioBlk.capacity

namespace Extends

theorem refl (b : Bus) : Extends b b := ⟨List.prefix_refl _, rfl, rfl, rfl⟩

theorem trans {b b' b'' : Bus} (h : Extends b b') (h' : Extends b' b'') : Extends b b'' :=
  ⟨h.printed.trans h'.printed, h'.base.trans h.base, h'.len.trans h.len,
    h'.capacity.trans h.capacity⟩

end Extends

/-- So it does at every access. -/
theorem extends_busFrame : BusFrame Extends where
  refl := .refl
  trans _ _ _ := .trans
  load addr width b r b' h := by
    rcases Bus.load_cases h with rfl | ⟨plic, rfl⟩ | rfl
    · exact .refl _
    · exact ⟨List.prefix_refl _, rfl, rfl, rfl⟩
    · refine ⟨?_, rfl, rfl, rfl⟩
      exact ⟨[], (List.append_nil _).trans (b.uart.load_stdout addr).symm⟩
  store addr width value b r b' h := by
    obtain ⟨hbase, hlen⟩ := Bus.store_placement h
    rcases Bus.store_cases h with ⟨ram, rfl⟩ | ⟨cmp, rfl⟩ | ⟨plic, rfl⟩ | rfl | ⟨v, ram, hcap, rfl⟩
    · exact ⟨List.prefix_refl _, hbase, hlen, rfl⟩
    · exact ⟨List.prefix_refl _, hbase, hlen, rfl⟩
    · exact ⟨List.prefix_refl _, hbase, hlen, rfl⟩
    · exact ⟨b.uart.stdout_store addr value, hbase, hlen, rfl⟩
    · exact ⟨List.prefix_refl _, hbase, hlen, hcap⟩

namespace Jit

/-! ## Runs -/

variable {h : Host} {bus : Bus} {entry : U64} {m m' : Machine} {a : Action}

/-- A block meets a frame. -/
theorem block_frame {R : Cpu → Cpu → Prop} (hR : Cpu.Frame R) {c c' : Cpu} {code : Code}
    {next : U64} (hzero : ZeroReg c) (hblock : IsBlock h c.pc code)
    (hrun : runBlock h code c = some (next, c')) : R c (resume next c') := by
  obtain ⟨raws, hhandled, rfl⟩ := hblock
  rw [runBlock_does (emitRaws_does hhandled hzero)] at hrun
  have hall := runRaws_frame hR c.pc raws c
  have hresume : ∀ {c₁ : Cpu}, R c c₁ → R c (resume next c₁) := by
    intro c₁ hc₁
    rw [resume]
    split
    · exact hc₁
    · exact hR.keep hc₁ rfl rfl
  cases hout : runRaws c.pc raws c with
  | next | abort =>
      rw [hout] at hrun
      cases hrun
  | leave c₁ pc =>
      rw [hout] at hrun hall
      cases hrun
      exact hresume hall.1
  | fault c₁ =>
      rw [hout] at hrun hall
      cases hrun
      exact hresume hall

/-- Every action but a service meets a frame. -/
theorem act_frame {R : Cpu → Cpu → Prop} (hR : Cpu.Frame R)
    (hm : ZeroReg m.cpu ∧ Cached h m.jit) (hact : m.act h a = some m') :
    (∃ input, a = .poll input ∧ m'.cpu = poll input m.cpu) ∨ R m.cpu m'.cpu := by
  cases a with
  | step fpu =>
      obtain ⟨r, hstep, rfl⟩ := Option.map_eq_some_iff.mp hact
      exact .inr (hR.step hstep)
  | block =>
      rw [Machine.act] at hact
      split at hact
      · cases hact
      · rename_i code hget
        obtain ⟨⟨next, c'⟩, hrun, rfl⟩ := Option.map_eq_some_iff.mp hact
        exact .inr (block_frame hR hm.1 (hm.2 _ _ hget) hrun)
  | compile startPc =>
      obtain ⟨⟨jit', c'⟩, hcompile, rfl⟩ := Option.map_eq_some_iff.mp hact
      exact .inr (compile_frame hR hcompile)
  | csrWrite addr v =>
      cases hact
      exact .inr (hR.of_eq rfl rfl)
  | trap cause tval =>
      cases hact
      exact .inr (hR.deliverTrap cause tval)
  | poll input =>
      cases hact
      exact .inl ⟨input, rfl, rfl⟩
  | flushSatp =>
      cases hact
      refine .inr ?_
      rw [flushSatp]
      split
      · exact hR.of_eq rfl rfl
      · exact hR.refl _
  | flushFenceI =>
      cases hact
      refine .inr ?_
      rw [flushFenceI]
      split
      · dsimp only
        split <;> exact hR.of_eq rfl rfl
      · exact hR.refl _
  | ticks n =>
      cases hact
      exact .inr (hR.refl _)

/-- The time the host gives to an action. -/
def elapsed : Action → U64
  | .poll input => input.elapsed
  | _ => 0

theorem poll_clint (input : Input) (c : Cpu) : (poll input c).bus.clint.mtime =
    c.bus.clint.mtime + input.elapsed := by
  rw [poll_bus, advanceClock, receive_uart]

theorem elapsed_of_frame {c c' : Cpu} (hnot : ¬ ∃ input, a = .poll input)
    (heq : c'.bus.clint.mtime = c.bus.clint.mtime) :
    c'.bus.clint.mtime = c.bus.clint.mtime + elapsed a := by
  cases a with
  | poll input => exact absurd ⟨input, rfl⟩ hnot
  | _ => exact heq.trans (BitVec.add_zero _).symm

/-- An action moves the timer by the time the host gives to it. -/
theorem mtime_act (hm : ZeroReg m.cpu ∧ Cached h m.jit) (hact : m.act h a = some m') :
    m'.cpu.bus.clint.mtime = m.cpu.bus.clint.mtime + elapsed a := by
  by_cases hpoll : ∃ input, a = .poll input
  · obtain ⟨input, rfl⟩ := hpoll
    cases hact
    exact poll_clint input m.cpu
  · rcases act_frame mtime_busFrame.frame hm hact with ⟨input, ha, -⟩ | heq
    · exact absurd ⟨input, ha⟩ hpoll
    · exact elapsed_of_frame hpoll heq

/-- So do the actions of a run. -/
theorem mtime_run {actions : List Action} (hm : ZeroReg m.cpu ∧ Cached h m.jit)
    (hrun : (interleavings h bus entry).after actions m = some m') :
    m'.cpu.bus.clint.mtime = m.cpu.bus.clint.mtime + (actions.map elapsed).sum := by
  induction actions generalizing m with
  | nil =>
      cases hrun
      exact (BitVec.add_zero _).symm
  | cons a actions ih =>
      obtain ⟨m₁, hact, hrest⟩ := System.after_cons hrun
      rw [ih (zeroReg_runStable.act hm hact) hrest, mtime_act hm hact, List.map_cons, List.sum_cons,
        BitVec.add_assoc]

theorem start_zero : ZeroReg (Machine.start (.new bus entry)).cpu ∧
    Cached h (Machine.start (.new bus entry)).jit := ⟨rfl, cached_new⟩

/-- In every run, whatever the guest does, the timer has moved by the time the host gave to the
services, modulo 2 ^ 64. -/
theorem mtime_after (h : Host) (bus : Bus) (entry : U64) (actions : List Action) (m : Machine)
    (hrun : (interleavings h bus entry).after actions (.start (.new bus entry)) = some m) :
    m.cpu.bus.clint.mtime = bus.clint.mtime + (actions.map elapsed).sum :=
  mtime_run start_zero hrun

/-- RAM that holds a loop of three instructions, which takes an address behind the timer into a
register, stores it to the timer, and jumps back. -/
def clockBus : Bus :=
  (Bus.new 0x1000 0x8000_0000).withWords
    [(0, 0xFE21_2C23_0200_C137), (8, 0xFF9F_F06F)]

/-- Two services, with stores to the timer before, between and behind them: by steps, and by a
block. -/
def clockActions : List Action :=
  List.replicate 3 (.step default) ++ [.compile 0x8000_0000, .poll ⟨[], 5⟩, .block, .block] ++
    [.csrWrite 0xC01 0, .poll ⟨[], 7⟩, .step default, .step default]

theorem mtime_after_two : ∃ m, (interleavings layoutHost clockBus 0x8000_0000).after clockActions
      (.start (.new clockBus 0x8000_0000)) = some m ∧
    m.cpu.pc = 0x8000_0008 ∧ m.cpu.csr.mcause = 0 ∧ m.cpu.bus.clint.mtime = 12 := by
  have hrun : ((interleavings layoutHost clockBus 0x8000_0000).after clockActions
      (.start (.new clockBus 0x8000_0000))).map (fun m => (m.cpu.pc, m.cpu.csr.mcause)) =
        some (0x8000_0008, 0) := by decide +kernel
  obtain ⟨m, hm, heq⟩ := Option.map_eq_some_iff.mp hrun
  obtain ⟨hpc, hcause⟩ := Prod.mk.inj heq
  exact ⟨m, hm, hpc, hcause, mtime_after layoutHost clockBus 0x8000_0000 clockActions m hm⟩

/-! ## What stays -/

theorem poll_extends (input : Input) (c : Cpu) : Extends c.bus (poll input c).bus := by
  rw [poll_bus, advanceClock, receive_uart]
  refine ⟨?_, rfl, rfl, rfl⟩
  dsimp only
  split
  · exact ⟨[], (List.append_nil _).trans (Uart16550.foldl_pushRx_stdout _ _).symm⟩
  · exact List.prefix_refl _

theorem extends_act (hm : ZeroReg m.cpu ∧ Cached h m.jit) (hact : m.act h a = some m') :
    Extends m.cpu.bus m'.cpu.bus := by
  rcases act_frame extends_busFrame.frame hm hact with ⟨input, -, hpoll⟩ | hext
  · rw [hpoll]
    exact poll_extends input m.cpu
  · exact hext

/-- In every run the output only grows, RAM stays where it is and as long as it is, and the block
device keeps its capacity: what is so at one state is so at every later one. -/
theorem extends_after (h : Host) (bus : Bus) (entry : U64) (actions later : List Action)
    (m m' : Machine)
    (hrun : (interleavings h bus entry).after actions (.start (.new bus entry)) = some m)
    (hlater : (interleavings h bus entry).after later m = some m') :
    m.cpu.bus.uart.stdout <+: m'.cpu.bus.uart.stdout ∧ m'.cpu.bus.ramBase = bus.ramBase ∧
      m'.cpu.bus.ram.len = bus.ram.len ∧
      m'.cpu.bus.virtioBlk.capacity = bus.virtioBlk.capacity := by
  have hall : ∀ {actions : List Action} {m m' : Machine}, ZeroReg m.cpu ∧ Cached h m.jit →
      (interleavings h bus entry).after actions m = some m' →
      (ZeroReg m'.cpu ∧ Cached h m'.jit) ∧ Extends m.cpu.bus m'.cpu.bus := by
    intro actions m m' hm hrun
    refine System.after_invariant
      (I := fun m' => (ZeroReg m'.cpu ∧ Cached h m'.jit) ∧ Extends m.cpu.bus m'.cpu.bus) ?_
      ⟨hm, .refl _⟩ hrun
    intro m₁ a m₂ hm₁ hact
    exact ⟨zeroReg_runStable.act hm₁.1 hact, hm₁.2.trans (extends_act hm₁.1 hact)⟩
  obtain ⟨hm, hfirst⟩ := hall start_zero hrun
  have hsecond := (hall hm hlater).2
  have hboth : Extends bus m'.cpu.bus := hfirst.trans hsecond
  exact ⟨hsecond.printed, hboth.base, hboth.len, hboth.capacity⟩

/-- Firmware that prints a letter twice. -/
def printBus : Bus :=
  (Bus.new 0x1000 0x8000_0000).withWords [(0, 0x0410_0593_1000_0537), (8, 0x00B5_0023_00B5_0023)]

theorem printBus_extends : ∃ m m',
    (interleavings layoutHost printBus 0x8000_0000).after
        [.step default, .step default, .step default]
          (.start (.new printBus 0x8000_0000)) = some m ∧
      (interleavings layoutHost printBus 0x8000_0000).after [.step default] m = some m' ∧
      m'.cpu.bus.uart.stdout = [0x41, 0x41] ∧
      m.cpu.bus.uart.stdout <+: m'.cpu.bus.uart.stdout ∧ m'.cpu.bus.ram.len = 0x1000 := by
  have hext := extends_after layoutHost printBus 0x8000_0000
    [.step default, .step default, .step default] [.step default] _ _ rfl rfl
  exact ⟨_, _, rfl, rfl, rfl, hext.1, hext.2.2.1⟩

end Jit

end RiscvEmu
