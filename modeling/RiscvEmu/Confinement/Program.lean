import RiscvEmu.Confinement.Steps
import RiscvEmu.Execution.Isolation
import RiscvEmu.Lib.System

/-!
# Runs of a program in U-mode

A program runs in U-mode by steps, between which the loop may serve the devices.  It ends with the
first trap entry.  If none of its instructions is privileged, and no atomic crosses a page boundary,
then whatever the program is, and however long it runs, it changes only what the tables let it
write, and every address space is as it was (`user_confined`).
-/

namespace RiscvEmu

open Mmu

/-- What happens to a hart: it takes a step, or the loop serves the devices. -/
inductive Event where
  | step
  | serve (input : Jit.Input)

/-- A hart, from a state on. -/
def hart (fpu : Fpu) (c₀ : Cpu) : System Cpu Event where
  init c := c = c₀
  step
    | .step, c => (Cpu.step fpu c).map Retired.cpu
    | .serve input, c => some (Jit.poll input c)

/-- The hart is in U-mode, and a step executes a plain instruction. -/
def InUser (c : Cpu) : Event → Prop
  | .step => c.mode = .u ∧ Sandbox.Plain c
  | .serve _ => c.mode = .u

namespace Sandbox

variable {B : Sandbox} {c c' : Cpu} {fpu : Fpu}

/-- A trap entry leaves U-mode. -/
theorem deliverTrap_mode_ne (c : Cpu) (cause tval : U64) :
    (c.deliverTrap cause tval).mode ≠ .u := by
  rw [Cpu.deliverTrap]
  split
  · exact fun h => by cases h
  · exact fun h => by cases h

/-- In U-mode the program is still in its sandbox. -/
theorem Lands.runs (h : B.Lands c) (hmode : c.mode = .u) : B.Runs c := by
  rcases h with hruns | ⟨d, cause, tval, -, rfl | rfl⟩
  · exact hruns
  · exact absurd hmode (deliverTrap_mode_ne d cause tval)
  · exact absurd hmode (deliverTrap_mode_ne d cause tval)

/-- A trap entry leaves memory and the cache alone. -/
theorem Lands.memory (h : B.Lands c) : ∃ d, B.Runs d ∧ c.bus = d.bus ∧ c.mmu = d.mmu := by
  rcases h with hruns | ⟨d, cause, tval, hd, rfl | rfl⟩
  · exact ⟨c, hruns, rfl, rfl⟩
  all_goals
    refine ⟨d, hd, ?_⟩
    rw [Cpu.deliverTrap]
    split <;> exact ⟨rfl, rfl⟩

/-- One event of the program. -/
theorem lands_event {c₀ : Cpu} {e : Event} (h : B.Lands c) (huser : InUser c e)
    (hevent : (hart fpu c₀).step e c = some c') : B.Lands c' := by
  cases e with
  | step =>
      obtain ⟨r, hstep, rfl⟩ := Option.map_eq_some_iff.mp hevent
      exact step_lands (h.runs huser.1) huser.2 hstep
  | serve input =>
      cases hevent
      exact poll_lands (h.runs huser) input

/-- A run of the program. -/
theorem lands_run {c₀ : Cpu} (hstart : B.Runs c₀) (hrun : (hart fpu c₀).Reachable InUser c) :
    B.Lands c := by
  refine hrun.invariant ?_ fun _ _ _ h huser hevent => lands_event h huser hevent
  rintro c rfl
  exact .inl hstart

/-- A program in U-mode whose instructions are not privileged, and whose atomics stay in their
pages, stays in its sandbox until a trap takes the hart out of U-mode.  Up to there it changes RAM
only where the tables let it write and in words of the tables, and every translation in every
address space answers as it did at the start. -/
theorem user_confined (fpu : Fpu) (B : Sandbox) (c₀ c : Cpu) (hstart : B.Runs c₀)
    (hrun : (hart fpu c₀).Reachable InUser c) :
    B.Lands c ∧ WroteOnly B.Reach B.bus c.bus ∧
      ∀ satp mode mstatus addr access,
        B.spaces.Allows (.translate satp mode mstatus addr access) →
        ∃ s, translate satp mode mstatus addr access (c.mmu, c.bus) =
          some (reference B.bus (B.spaces.root (asidOf satp)) mode mstatus addr access, s) := by
  have hlands := lands_run hstart hrun
  obtain ⟨d, hd, hbus, hmmu⟩ := hlands.memory
  refine ⟨hlands, by rw [hbus]; exact hd.wrote, fun satp mode mstatus addr access hcall => ?_⟩
  obtain ⟨s, hs, -⟩ := hd.held.translate hcall
  exact ⟨s, by rw [hbus, hmmu]; exact hs⟩

/-! ## A program over uniform tables -/

/-- A slot of a table lies in the page of the table. -/
theorem slot_toNat_lt (vpn : U64) (rem : Nat) {t : U64} (ht : t.toNat < 2 ^ 40) :
    ((tableSearch vpn).slot rem t).toNat < (t.toNat + 1) * 4096 := by
  have hidx : ((vpn >>> (rem * 9)) &&& 0x1FF).toNat < 512 := by
    rw [BitVec.toNat_and]
    exact Nat.lt_of_le_of_lt Nat.and_le_right (by decide)
  simp only [tableSearch, BitVec.toNat_add, BitVec.toNat_mul, BitVec.toNat_shiftLeft,
    Nat.shiftLeft_eq]
  rw [show (8 : U64).toNat = 8 from rfl]
  omega

/-- The uniform tables lie in three pages. -/
theorem uniform_tables {pa : U64} (h : Spaces.uniformSpaces.InTables pa) :
    pa.toNat < 0x8000_3000 := by
  obtain ⟨a, ⟨asid, vpn, -, ha⟩, i, hi, rfl⟩ := h
  change a ∈ (tableSearch vpn).visits (pteWord Spaces.uniformBus) 3 0x80000 at ha
  rw [Radix.Search.visits_of_next (Spaces.pteWord_uniformBus _ 2 0 (by decide) (by omega))
      (show (tableSearch vpn).view (Spaces.uniformWord (0 * 0x1000)) = .next 0x80001 from rfl),
    Radix.Search.visits_of_next (Spaces.pteWord_uniformBus _ 1 1 (by decide) (by omega))
      (show (tableSearch vpn).view (Spaces.uniformWord (1 * 0x1000)) = .next 0x80002 from rfl)]
    at ha
  have hlast : a = (tableSearch vpn).slot 2 0x80000 ∨ a = (tableSearch vpn).slot 1 0x80001 ∨
      a = (tableSearch vpn).slot 0 0x80002 := by
    rw [Radix.Search.visits, Spaces.pteWord_uniformBus _ 0 2 (by decide) (by omega)] at ha
    simpa [show (tableSearch vpn).view (Spaces.uniformWord (2 * 0x1000)) = .leaf from rfl] using ha
  have h8 : a.toNat % 8 = 0 := by
    rcases hlast with rfl | rfl | rfl <;> exact slot_aligned _ _ _
  have hlt : a.toNat < 0x8000_3000 := by
    have h0 := slot_toNat_lt vpn 2 (show (0x80000 : U64).toNat < 2 ^ 40 by decide)
    have h1 := slot_toNat_lt vpn 1 (show (0x80001 : U64).toNat < 2 ^ 40 by decide)
    have h2 := slot_toNat_lt vpn 0 (show (0x80002 : U64).toNat < 2 ^ 40 by decide)
    rw [show (0x80000 : U64).toNat = 0x80000 from rfl] at h0
    rw [show (0x80001 : U64).toNat = 0x80001 from rfl] at h1
    rw [show (0x80002 : U64).toNat = 0x80002 from rfl] at h2
    rcases hlast with rfl | rfl | rfl <;> omega
  rw [BitVec.toNat_add, BitVec.toNat_ofNat]
  omega

/-- The registers of control of a program over the uniform tables. -/
def uniformCsr : Csr := { Csr.new with satp := 0x8000_0000_0008_0000 }

/-- The uniform tables map every address of the program to one frame. -/
theorem uniform_maps {access : AccessType} {va pa : U64}
    (h : UserMaps Spaces.uniformSpaces uniformCsr access va pa) :
    pa.toNat = 0x8000_3000 + va.toNat % 4096 := by
  rw [UserMaps, reference, if_neg (by decide)] at h
  split at h
  · change verdict (mapping Spaces.uniformBus 0x80000 va) _ _ _ _ = _ at h
    rw [Spaces.mapping_uniform, verdict] at h
    split at h
    · cases h
    · cases h
      rw [leafAddress_toNat (by decide)]
      rfl
  · cases h

theorem uniform_sv39 : uniformCsr.satp >>> 60 = 8 := by decide

theorem uniform_root : uniformCsr.satp &&& 0x0FFF_FFFF_FFFF =
    Spaces.uniformSpaces.root (asidOf uniformCsr.satp) := by decide

theorem uniform_mprv : uniformCsr.mstatus.getLsbD 17 = false := by decide

theorem uniform_noDevice (access : AccessType) (va pa : U64)
    (h : UserMaps Spaces.uniformSpaces uniformCsr access va pa) : region pa = .ram := by
  have hpa := uniform_maps h
  simp only [region, BitVec.le_def, BitVec.toNat_ofNat]
  rw [if_neg (by omega), if_neg (by omega), if_neg (by omega), if_neg (by omega)]

theorem uniform_apart (va pa : U64)
    (h : UserMaps Spaces.uniformSpaces uniformCsr .store va pa) :
    ¬ Spaces.uniformSpaces.InTables pa := by
  intro htables
  have hpa := uniform_maps h
  have hlt := uniform_tables htables
  omega

/-- A program whose tables map every page to one frame. -/
def uniformSandbox : Sandbox where
  bus := Spaces.uniformBus
  spaces := Spaces.uniformSpaces
  csr := uniformCsr
  sv39 := uniform_sv39
  used := trivial
  root := uniform_root
  mprv := uniform_mprv
  noDevice := uniform_noDevice
  apart := uniform_apart

/-- The hart of a program that stores a register in its page. -/
def storingHart : Cpu :=
  { Cpu.uniformHart 0x2A with
    bus := { Spaces.uniformBus with
      ram := { Spaces.uniformBus.ram with
        byte := Bytes.writeLe Spaces.uniformBus.ram.byte 0x3000 4 0x1010_3023 } } }

/-- The program can write its first word. -/
theorem uniform_stores {i : Nat} (hi : i < 4) :
    UserMaps Spaces.uniformSpaces uniformCsr .store
      (BitVec.ofNat 64 i) (Spaces.uniformBus.ramBase + BitVec.ofNat 64 (0x3000 + i)) := by
  have hmap := Spaces.mapping_uniform (BitVec.ofNat 64 i)
  have hi' : i = 0 ∨ i = 1 ∨ i = 2 ∨ i = 3 := by omega
  rw [UserMaps, reference, if_neg (by decide)]
  change (if _ then verdict (mapping Spaces.uniformBus 0x80000 _) _ _ _ _ else _) = _
  rw [hmap]
  rcases hi' with rfl | rfl | rfl | rfl <;> rfl

theorem storingHart_wrote :
    WroteOnly uniformSandbox.Writable Spaces.uniformBus storingHart.bus := by
  refine ⟨rfl, rfl, fun o => ?_⟩
  by_cases hin : 0x3000 ≤ o ∧ o < 0x3004
  · obtain ⟨i, hi, rfl⟩ : ∃ i < 4, o = 0x3000 + i := ⟨o - 0x3000, by omega, by omega⟩
    exact .inr ⟨BitVec.ofNat 64 i, uniform_stores hi⟩
  · exact .inl (Bytes.writeLe_outside _ _ (by omega))

theorem storingHart_runs : uniformSandbox.Runs storingHart where
  mode := rfl
  csr := rfl
  status _ _ _ := rfl
  held := by
    have hcold : Spaces.uniformSpaces.Held (Mmu.new, Spaces.uniformBus) :=
      ⟨.refl, fun _ hv => by cases hv⟩
    exact hcold.wroteOnly (fun pa ⟨va, hva⟩ => uniformSandbox.apart va pa hva) storingHart_wrote
  wrote := storingHart_wrote.mono fun _ => .inr
  devices := ⟨rfl, rfl, rfl, rfl⟩

theorem storingHart_plain : Plain storingHart := by
  intro inst c' hfetched
  have hinst : storingHart.fetched.map Prod.fst = some (.store .sd 0 1 0x100) := by decide
  rw [hfetched] at hinst
  cases hinst
  exact ⟨trivial, trivial⟩

/-- The program stores the register, in its own frame. -/
theorem storingHart_confined : ∃ c, (hart default storingHart).Reachable InUser c ∧
    c.bus.ram.byte 0x3100 = 0x2A ∧ uniformSandbox.Lands c ∧
      WroteOnly uniformSandbox.Reach uniformSandbox.bus c.bus := by
  obtain ⟨r, hr⟩ := Option.isSome_iff_exists.mp
    (by decide : (Cpu.step default storingHart).isSome = true)
  have hstep : (hart default storingHart).step .step storingHart = some r.cpu :=
    congrArg (Option.map Retired.cpu) hr
  have huser : InUser storingHart .step := And.intro rfl storingHart_plain
  have hreach : (hart default storingHart).Reachable InUser r.cpu := .step (.init rfl) huser hstep
  have hbyte : (Cpu.step default storingHart).map (fun r => r.cpu.bus.ram.byte 0x3100) =
      some 0x2A := by decide
  rw [hr] at hbyte
  obtain ⟨hlands, hwrote, -⟩ := user_confined default uniformSandbox storingHart r.cpu
    storingHart_runs hreach
  exact ⟨r.cpu, hreach, Option.some.inj hbyte, hlands, hwrote⟩

end Sandbox

end RiscvEmu
