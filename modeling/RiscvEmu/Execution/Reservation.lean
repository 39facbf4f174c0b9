import RiscvEmu.Execution.Bytewise
import RiscvEmu.Execution.Privilege

/-!
# Reservations

A store-conditional should succeed exactly when a load-reserved of the same physical address has
completed since the last store-conditional, and one that does not succeed should leave memory
alone.

*The record.*  A run is recorded as the list of the load-reserved that completed and of the
store-conditionals that were translated.  The reservation of the hart is what the newest of them
left: every other instruction, trap and return keeps it (`execute_quiet`, `step_reservation`).

*Memory.*  A store-conditional is translated as a store before the reservation is looked at.  If
this rebuilds a cache entry that memory no longer holds, then memory changes although no store is
made.  A run without such a store-conditional is one in which the law holds (`pairing_iff`).
-/

namespace RiscvEmu

open Mmu (MarksLeaf)

namespace Cpu

/-! ## Quiet changes -/

/-- The reservation is kept, and the translation unit is used by calls only. -/
structure Quiet (c c' : Cpu) : Prop where
  reservation : c'.reservation = c.reservation
  unit : Mmu.shared.Reachable (fun _ _ => True) (c.mmu, c.bus) →
    Mmu.shared.Reachable (fun _ _ => True) (c'.mmu, c'.bus)

namespace Quiet

variable {c c' c'' : Cpu}

theorem trans (h : Quiet c c') (h' : Quiet c' c'') : Quiet c c'' :=
  ⟨h'.reservation.trans h.reservation, fun hu => h'.unit (h.unit hu)⟩

/-- Anything but the reservation and the unit may change. -/
theorem of_eq (hmmu : c'.mmu = c.mmu) (hres : c'.reservation = c.reservation) : Quiet c c' := by
  refine ⟨hres, fun hu => ?_⟩
  rw [hmmu]
  exact hu.step (l := .change c'.bus) trivial rfl

theorem refl (c : Cpu) : Quiet c c := of_eq rfl rfl

theorem flush (c : Cpu) : Quiet c { c with mmu := c.mmu.flush } :=
  ⟨rfl, fun hu => hu.step (l := .call .flush) trivial rfl⟩

theorem setReg (c : Cpu) (rd : Reg) (v : U64) : Quiet c (c.setReg rd v) := by
  rw [Cpu.setReg]
  split
  · exact of_eq rfl rfl
  · exact refl c

theorem raise (c : Cpu) (t : Trap) : Quiet c (c.raise t).cpu := by
  rw [Cpu.raise, deliverTrap]
  split <;> exact of_eq rfl rfl

theorem retire (c : Cpu) (pc : U64) : Quiet c (c.retire pc).cpu := of_eq rfl rfl

end Quiet

/-- Memory operations are quiet. -/
theorem quiet_closed : MemoryClosed Quiet where
  refl := .refl
  trans _ _ _ := .trans
  translateOrTrap mode va access c r c' h := by
    obtain ⟨r₀, s, ht, -, rfl⟩ := translateOrTrap_eq_some h
    refine ⟨rfl, fun hu => ?_⟩
    exact hu.step (l := .call (.translate c.csr.satp mode c.csr.mstatus va access)) trivial
      (Option.map_eq_some_iff.mpr ⟨_, ht, rfl⟩)
  busLoad pa width trap c r c' h := by
    obtain ⟨r₀, b, -, -, rfl⟩ := busLoad_eq_some h
    exact .of_eq rfl rfl
  busStore pa width value trap c r c' h := by
    obtain ⟨r₀, b, -, -, rfl⟩ := busStore_eq_some h
    exact .of_eq rfl rfl

/-! ## Instructions -/

section Instructions

variable {fpu : Fpu} {inst : Instruction} {c c' : Cpu} {r : Retired}

/-- A memory operation, followed by code that is quiet on any hart it leaves. -/
theorem orRaise_quiet {α : Type} {m : Run Cpu Trap α} {k : α → Cpu → Option Retired}
    (hm : Run.Keeps Quiet m) (hk : ∀ a c₁ r, k a c₁ = some r → Quiet c₁ r.cpu)
    (h : orRaise m k c = some r) : Quiet c r.cpu := by
  rcases orRaise_eq_some h with ⟨t, c₁, hrun, rfl⟩ | ⟨a, c₁, hrun, hx⟩
  · exact (hm _ _ _ hrun).trans (.raise c₁ t)
  · exact (hm _ _ _ hrun).trans (hk a c₁ r hx)

theorem execJump_quiet {target : U64} {link : Cpu → Cpu} (hlink : Quiet c (link c))
    (h : c.execJump target link = some r) : Quiet c r.cpu := by
  rw [execJump] at h
  split at h
  · cases h
    exact .raise c _
  · cases h
    exact hlink.trans (.retire _ _)

theorem execLoad_quiet {rs1 : Reg} {imm : U64} {width : Width} {dest : U64 → Cpu → Cpu}
    (hdest : ∀ v c, Quiet c (dest v c)) (h : c.execLoad rs1 imm width dest = some r) :
    Quiet c r.cpu := by
  refine orRaise_quiet (quiet_closed.mmuLoad _ _ _) (fun v c₁ r hx => ?_) h
  cases hx
  exact (hdest v c₁).trans (.retire _ _)

theorem execStore_quiet {rs1 : Reg} {imm val : U64} {width : Width}
    (h : c.execStore rs1 imm width val = some r) : Quiet c r.cpu := by
  refine orRaise_quiet (quiet_closed.mmuStore _ _ _ _) (fun _ c₁ r hx => ?_) h
  cases hx
  exact .retire c₁ _

theorem execAmo_quiet {op : AmoOp} {width : AmoWidth} {rd rs1 rs2 : Reg}
    (h : c.execAmo op width rd rs1 rs2 = some r) : Quiet c r.cpu := by
  refine orRaise_quiet (quiet_closed.translateOrTrap _ _ _) (fun pa c₁ r hx => ?_) h
  cases hl : busLoad pa width.width ⟨5, c.reg rs1⟩ c₁ with
  | none => rw [hl] at hx; cases hx
  | some p =>
      obtain ⟨res, c₂⟩ := p
      rw [hl] at hx
      dsimp only at hx
      split at hx
      · cases hx
      · rename_i hs
        cases hx
        have hload := quiet_closed.busLoad _ _ _ _ _ _ hl
        have hstore := quiet_closed.busStore _ _ _ _ _ _ _ hs
        exact hload.trans (hstore.trans ((Quiet.setReg _ rd _).trans (.retire _ _)))

theorem execCsr_quiet {op : CsrOp} {rd : Reg} {src : CsrSrc} {csr : CsrAddr}
    (h : c.execCsr op rd src csr = some r) : Quiet c r.cpu := by
  rw [execCsr] at h
  split at h
  · cases h
    exact .raise c _
  · cases h
    have hwrite (p : Prop) [Decidable p] (v : U64) :
        Quiet c (if p then c.csrWrite csr v else c) := by
      split
      · exact .of_eq rfl rfl
      · exact .refl c
    have hflag (p : Prop) [Decidable p] (c : Cpu) :
        Quiet c (if p then { c with jitInvalidate := true } else c) := by
      split
      · exact .of_eq rfl rfl
      · exact .refl c
    exact (hwrite _ _).trans ((Quiet.setReg _ rd _).trans ((hflag _ _).trans (.retire _ _)))

theorem execFp_quiet {rd : Reg} {res : FpResult} (h : c.execFp rd res = some r) :
    Quiet c r.cpu := by
  cases res with
  | freg v =>
      cases h
      exact .of_eq rfl rfl
  | ireg v =>
      cases h
      exact (Quiet.setReg c rd v).trans (.of_eq rfl rfl)
  | illegalReturn =>
      cases h
      exact .raise c _
  | illegalFallthrough =>
      cases h
      exact (Quiet.raise c _).trans (.of_eq rfl rfl)

/-- The instruction is a load-reserved or a store-conditional. -/
def Reserves : Instruction → Prop
  | .lr .. | .sc .. => True
  | _ => False

/-- Every other instruction keeps the reservation. -/
theorem execute_quiet (hinst : ¬ Reserves inst) (h : execute fpu inst c = some r) :
    Quiet c r.cpu := by
  cases inst with
  | op | opImm | shift | lui | auipc =>
      cases h
      exact (Quiet.setReg c _ _).trans (.retire _ _)
  | load => exact execLoad_quiet (fun v c => .setReg c _ _) h
  | flw | fld =>
      rw [execute] at h
      refine execLoad_quiet ?_ h
      exact fun _ _ => .of_eq rfl rfl
  | store | fsw | fsd => exact execStore_quiet h
  | branch op rs1 rs2 imm =>
      change c.execBranch op rs1 rs2 imm = some r at h
      rw [execBranch] at h
      split at h
      · exact execJump_quiet (.refl c) h
      · cases h
        exact .retire c _
  | jal | jalr => exact execJump_quiet (.setReg c _ _) h
  | fence | wfi =>
      cases h
      exact .retire c _
  | ecall | ebreak =>
      cases h
      exact .raise c _
  | mret =>
      cases h
      exact .of_eq rfl rfl
  | sret =>
      change c.execSret = some r at h
      rw [execSret] at h
      split at h
      · cases h
        exact .raise c _
      · cases h
        exact .of_eq rfl rfl
  | sfenceVma =>
      change c.execSfenceVma = some r at h
      rw [execSfenceVma] at h
      split at h
      · cases h
        exact .raise c _
      · cases h
        exact (Quiet.flush c).trans (.retire _ _)
  | csr => exact execCsr_quiet h
  | lr | sc => exact absurd trivial hinst
  | amo => exact execAmo_quiet h
  | opFp | fma => exact execFp_quiet h

end Instructions

/-! ## The record -/

/-- What a run is recorded by: a load-reserved that completed and the physical address it read, or
a store-conditional that was translated. -/
inductive Mark where
  | reserved (pa : U64)
  | conditional
  deriving DecidableEq

/-- The mark of an instruction. -/
def markOf (c : Cpu) : Instruction → Option Mark
  | .lr width _ rs1 =>
      match translateOrTrap c.lsMode (c.reg rs1) .load c with
      | some (.ok pa, c₁) =>
          match busLoad pa width.width ⟨5, c.reg rs1⟩ c₁ with
          | some (.ok _, _) => some (.reserved pa)
          | _ => none
      | _ => none
  | .sc _ _ rs1 _ =>
      match translateOrTrap c.lsMode (c.reg rs1) .store c with
      | some (.ok _, _) => some .conditional
      | _ => none
  | _ => none

/-- The mark of the step of a hart. -/
def mark (c : Cpu) : Option Mark := c.fetched.bind fun p => markOf p.2 p.1

/-- The address that the marks of a run, the newest first, leave reserved. -/
def reservedBy : List Mark → Option U64
  | .reserved pa :: _ => some pa
  | _ => none

/-- A load-reserved has completed since the last store-conditional, and the latest one to complete
read the physical address. -/
def Paired (marks : List Mark) (pa : U64) : Prop :=
  (∃ pa', .reserved pa' ∈ marks.takeWhile (· ≠ .conditional)) ∧
    (marks.find? (· ≠ .conditional)) = some (.reserved pa)

theorem paired_iff {marks : List Mark} {pa : U64} :
    Paired marks pa ↔ reservedBy marks = some pa := by
  match marks with
  | [] => simp [Paired, reservedBy]
  | .conditional :: _ => simp [Paired, reservedBy]
  | .reserved pa' :: _ => simp [Paired, reservedBy]

section Marks

variable {fpu : Fpu} {c c₁ : Cpu} {r : Retired} {width : AmoWidth} {rd rs1 rs2 : Reg} {pa : U64}

/-- A load-reserved traps, or it completes. -/
theorem execLr_cases (h : c.execLr width rd rs1 = some r) :
    (markOf c (.lr width rd rs1) = none ∧ ∃ t c', OnlyMemory c c' ∧ Quiet c c' ∧ r = c'.raise t) ∨
      ∃ pa c', markOf c (.lr width rd rs1) = some (.reserved pa) ∧ Quiet c c' ∧
        r.cpu.reservation = some pa ∧ r.cpu.mmu = c'.mmu ∧ r.trap = none := by
  rcases orRaise_eq_some h with ⟨t, c', ht, rfl⟩ | ⟨pa, c₁, ht, hx⟩
  · refine Or.inl ⟨?_, t, c', ?_, ?_, rfl⟩
    · simp only [markOf, ht]
    · exact translateOrTrap_keepsHart _ _ _ _ _ _ ht
    · exact quiet_closed.translateOrTrap _ _ _ _ _ _ ht
  · have hkeep := translateOrTrap_keepsHart _ _ _ _ _ _ ht
    have hquiet := quiet_closed.translateOrTrap _ _ _ _ _ _ ht
    rcases orRaise_eq_some hx with ⟨t, c', hl, rfl⟩ | ⟨v, c', hl, hr⟩
    · refine Or.inl ⟨?_, t, c', ?_, ?_, rfl⟩
      · simp only [markOf, ht, hl]
      · exact hkeep.trans (busLoad_keepsHart _ _ _ _ _ _ hl)
      · exact hquiet.trans (quiet_closed.busLoad _ _ _ _ _ _ hl)
    · cases hr
      refine Or.inr ⟨pa, c'.setReg rd (width.extend v), ?_, ?_, rfl, rfl, rfl⟩
      · simp only [markOf, ht, hl]
      · exact (hquiet.trans (quiet_closed.busLoad _ _ _ _ _ _ hl)).trans (.setReg _ _ _)

/-- The store-conditional attempts its store and writes 0.  In RAM the store takes effect. -/
structure Stores (c c₁ : Cpu) (width : AmoWidth) (pa : U64) (rd rs2 : Reg) (r : Retired) :
    Prop where
  attempted : ∃ res, Bus.store pa width.width (c.reg rs2) c₁.bus = some (res, r.cpu.bus)
  effect : ∀ off, region pa = .ram → c₁.bus.offset pa width.width = .ok off →
    r.cpu.bus = c₁.bus.setBytes off width.width.bytes (c.reg rs2)
  regs : r.cpu.regs = (c.setReg rd 0).regs

/-- The store-conditional writes 1, and its translation is all it does to memory. -/
structure Refuses (c c₁ : Cpu) (rd : Reg) (r : Retired) : Prop where
  memory : r.cpu.bus = c₁.bus
  regs : r.cpu.regs = (c.setReg rd 1).regs

theorem setReg_regs {c c' : Cpu} (h : c'.regs = c.regs) (rd : Reg) (v : U64) :
    (c'.setReg rd v).regs = (c.setReg rd v).regs := by
  rw [setReg, setReg]
  split
  · exact congrArg (Function.update · rd v) h
  · exact h

theorem setReg_mmu (c : Cpu) (rd : Reg) (v : U64) : (c.setReg rd v).mmu = c.mmu := by
  rw [setReg]
  split <;> rfl

/-- A store-conditional traps, or it is translated and looks at the reservation. -/
theorem execSc_cases (h : c.execSc width rd rs1 rs2 = some r) :
    (markOf c (.sc width rd rs1 rs2) = none ∧
      ∃ t c', OnlyMemory c c' ∧ Quiet c c' ∧ r = c'.raise t) ∨
    ∃ pa c₁, translateOrTrap c.lsMode (c.reg rs1) .store c = some (.ok pa, c₁) ∧
      markOf c (.sc width rd rs1 rs2) = some .conditional ∧
      (∃ c', Quiet c c' ∧ r.cpu.mmu = c'.mmu) ∧ r.cpu.reservation = none ∧ r.trap = none ∧
      (c.reservation = some pa → Stores c c₁ width pa rd rs2 r) ∧
      (c.reservation ≠ some pa → Refuses c c₁ rd r) := by
  rcases orRaise_eq_some h with ⟨t, c', ht, rfl⟩ | ⟨pa, c₁, ht, hx⟩
  · refine Or.inl ⟨?_, t, c', ?_, ?_, rfl⟩
    · simp only [markOf, ht]
    · exact translateOrTrap_keepsHart _ _ _ _ _ _ ht
    · exact quiet_closed.translateOrTrap _ _ _ _ _ _ ht
  · have hkeep := translateOrTrap_keepsHart _ _ _ _ _ _ ht
    have hquiet := quiet_closed.translateOrTrap _ _ _ _ _ _ ht
    have hmark : markOf c (.sc width rd rs1 rs2) = some .conditional := by simp only [markOf, ht]
    dsimp only at hx
    rw [hkeep.reservation] at hx
    by_cases hres : c.reservation = some pa
    · rw [if_pos hres] at hx
      have hreg : c₁.reg rs2 = c.reg rs2 := by rw [reg, reg, hkeep.regs]
      cases hs : busStore pa width.width (c₁.reg rs2) ⟨7, c.reg rs1⟩ c₁ with
      | none => rw [hs] at hx; cases hx
      | some p =>
          obtain ⟨res, c₂⟩ := p
          rw [hs] at hx
          cases hx
          obtain ⟨res₀, b, hstore, -, rfl⟩ := busStore_eq_some hs
          rw [hreg] at hstore
          have hbus : ({ c₁ with bus := b }.setReg rd 0).bus = b := setReg_bus _ rd 0
          have hregs : { c₁ with bus := b }.regs = c.regs := hkeep.regs
          refine Or.inr ⟨pa, c₁, ht, hmark, ⟨_, hquiet, setReg_mmu _ rd 0⟩, rfl, rfl, fun _ => ?_,
            fun hne => absurd hres hne⟩
          refine ⟨⟨res₀, ?_⟩, fun off hr ho => ?_, ?_⟩
          · exact hstore.trans (congrArg (fun b' => some (res₀, b')) hbus.symm)
          · rw [Bus.store_ram _ hr ho] at hstore
            cases hstore
            exact hbus
          · exact setReg_regs hregs rd 0
    · rw [if_neg hres] at hx
      cases hx
      refine Or.inr ⟨pa, c₁, ht, hmark, ⟨_, hquiet, setReg_mmu _ rd 1⟩, rfl, rfl,
        fun heq => absurd heq hres, fun _ => ⟨setReg_bus _ rd 1, setReg_regs hkeep.regs rd 1⟩⟩

/-- The reservation after a mark. -/
def reserve (reservation : Option U64) : Option Mark → Option U64
  | none => reservation
  | some m => reservedBy [m]

/-- What an instruction does to the reservation and the unit. -/
theorem execute_reservation {inst : Instruction} (h : execute fpu inst c = some r) :
    r.cpu.reservation = reserve c.reservation (markOf c inst) ∧
      ∃ c', Quiet c c' ∧ r.cpu.mmu = c'.mmu := by
  cases inst with
  | lr width rd rs1 =>
      rcases execLr_cases h with
        ⟨hmark, t, c', -, hquiet, rfl⟩ | ⟨pa, c', hmark, hquiet, hres, hmmu, -⟩
      · rw [hmark]
        exact ⟨(hquiet.trans (.raise c' t)).reservation, _, hquiet.trans (.raise c' t), rfl⟩
      · rw [hmark]
        exact ⟨hres, c', hquiet, hmmu⟩
  | sc width rd rs1 rs2 =>
      rcases execSc_cases h with ⟨hmark, t, c', -, hquiet, rfl⟩ | ⟨pa, c₁, -, hmark, hunit, hres, -⟩
      · rw [hmark]
        exact ⟨(hquiet.trans (.raise c' t)).reservation, _, hquiet.trans (.raise c' t), rfl⟩
      · rw [hmark]
        exact ⟨hres, hunit⟩
  | _ =>
      have hquiet := execute_quiet (by exact id) h
      exact ⟨hquiet.reservation, _, hquiet, rfl⟩

theorem fetched_quiet {inst : Instruction} {c' : Cpu} (h : c.fetched = some (inst, c')) :
    Quiet c c' := by
  obtain ⟨-, -, raw, c₁, hf, -, rfl⟩ := fetched_eq_some h
  exact (quiet_closed.fetch _ _ _ _ _ hf).trans (.of_eq rfl rfl)

/-- A step changes the reservation only by the mark it leaves. -/
theorem step_reservation (h : step fpu c = some r) :
    r.cpu.reservation = reserve c.reservation c.mark ∧
      ∃ c', Quiet c c' ∧ r.cpu.mmu = c'.mmu := by
  cases hfetched : c.fetched with
  | none =>
      have hmark : c.mark = none := by rw [mark, hfetched, Option.bind_none]
      obtain ⟨t, c₁, n, hc₁, rfl⟩ := not_fetched_cases hfetched h
      have hquiet : Quiet c c₁ := by
        rcases hc₁ with rfl | ⟨res, hf⟩
        · exact .refl _
        · exact quiet_closed.fetch _ _ _ _ _ hf
      have hsize : Quiet c₁ { c₁ with instSize := n } := .of_eq rfl rfl
      have hraised := hquiet.trans (hsize.trans (.raise _ t))
      rw [hmark]
      exact ⟨hraised.reservation, _, hraised, rfl⟩
  | some p =>
      obtain ⟨inst, c'⟩ := p
      have hmark : c.mark = markOf c' inst := by rw [mark, hfetched, Option.bind_some]
      have hquiet := fetched_quiet hfetched
      rw [step_of_fetched hfetched] at h
      obtain ⟨hres, c'', hquiet', hmmu⟩ := execute_reservation h
      rw [hmark, ← hquiet.reservation]
      exact ⟨hres, c'', hquiet.trans hquiet', hmmu⟩

end Marks

/-! ## Fetches -/

/-- A fetch marks the leaves of the pages it translates, and leaves the rest of RAM alone. -/
def FetchMarks (c c' : Cpu) : Prop :=
  ∃ b, MarksLeaf c.csr.satp c.pc .fetch c.bus b ∧
    MarksLeaf c.csr.satp (c.pc + 2) .fetch b c'.bus

section Fetches

variable {c c' : Cpu}

theorem marksLeaf_of_ram {satp va : U64} {access : AccessType} {b b' b'' : Bus}
    (h : MarksLeaf satp va access b b') (hram : b''.ram = b'.ram) :
    MarksLeaf satp va access b b'' := by
  rw [MarksLeaf, hram]
  exact h

/-- A translation for a fetch, and the load after it. -/
theorem fetchHalf_marks {mode : PrivMode} {va pa v : U64} {t : Trap} {c₁ : Cpu}
    (hu : Mmu.shared.Reachable (fun _ _ => True) (c.mmu, c.bus))
    (ht : translateOrTrap mode va .fetch c = some (.ok pa, c₁)) {pa' : U64}
    (hl : busLoad pa' .b2 t c₁ = some (.ok v, c')) :
    MarksLeaf c.csr.satp va .fetch c.bus c'.bus := by
  obtain ⟨hrun, -⟩ := translateOrTrap_eq_ok ht
  obtain ⟨r₀, b, hload, -, rfl⟩ := busLoad_eq_some hl
  have hmarks : MarksLeaf c.csr.satp va .fetch c.bus c₁.bus :=
    Mmu.shared_marksLeaf hu (by decide) hrun
  exact marksLeaf_of_ram hmarks (Mmu.load_keeps_ram hload).1

theorem fetch_marks (hu : Mmu.shared.Reachable (fun _ _ => True) (c.mmu, c.bus)) {raw : U32}
    (h : fetch c.mode c.pc c = some (.ok raw, c')) : FetchMarks c c' := by
  obtain ⟨pa, c₁, ht, h⟩ := Run.bind_eq_ok h
  obtain ⟨lo, c₂, hl, h⟩ := Run.bind_eq_ok h
  have hlow := fetchHalf_marks hu ht hl
  refine ⟨c₂.bus, hlow, ?_⟩
  dsimp only at h
  split at h
  · cases h
    exact Or.inl rfl
  · split at h
    · have hu₂ := ((quiet_closed.translateOrTrap _ _ _ _ _ _ ht).trans
        (quiet_closed.busLoad _ _ _ _ _ _ hl)).unit hu
      have hkeep := (translateOrTrap_keepsHart _ _ _ _ _ _ ht).trans
        (busLoad_keepsHart _ _ _ _ _ _ hl)
      obtain ⟨paHi, c₃, ht', h⟩ := Run.bind_eq_ok h
      obtain ⟨hi, c₄, hl', h⟩ := Run.bind_eq_ok h
      cases h
      have hhigh := fetchHalf_marks hu₂ ht' hl'
      rwa [hkeep.csr] at hhigh
    · obtain ⟨hi, c₄, hl', h⟩ := Run.bind_eq_ok (m := busLoad (pa + 2) .b2 ⟨1, c.pc + 2⟩) h
      cases h
      obtain ⟨r₀, b, hload, -, rfl⟩ := busLoad_eq_some hl'
      exact Or.inl (Mmu.load_keeps_ram hload).1

end Fetches

/-! ## The law -/

/-- A step of the hart, or anything the rest of the machine does to the bus and to the pending
interrupts between two steps. -/
inductive HartEvent where
  | step (fpu : Fpu)
  | outside (bus : Bus) (mip : U64)

/-- A hart that starts without a reservation. -/
def harts : System Cpu HartEvent where
  init c := c.reservation = none ∧ Mmu.shared.Reachable (fun _ _ => True) (c.mmu, c.bus)
  step
    | .step fpu, c => (step fpu c).map Retired.cpu
    | .outside bus mip, c => some { c with bus := bus, csr := { c.csr with mip := mip } }

/-- The mark of an event. -/
def eventMark (c : Cpu) : HartEvent → Option Mark
  | .step _ => c.mark
  | .outside .. => none

/-- The runs, with their records. -/
def recorded : System (List Mark × Cpu) HartEvent := harts.tracing eventMark

/-- What a store-conditional that is translated does after the given marks.  It is executed on `c`,
and its translation leaves `c₁`. -/
structure ScLaw (marks : List Mark) (c c₁ : Cpu) (width : AmoWidth) (pa va : U64) (rd rs2 : Reg)
    (r : Retired) : Prop where
  paired : Paired marks pa → Stores c c₁ width pa rd rs2 r
  refused : ¬ Paired marks pa →
    Refuses c c₁ rd r ∧ MarksLeaf c.csr.satp va .store c.bus r.cpu.bus
  result : rd ≠ 0 → (r.cpu.reg rd = 0 ↔ Paired marks pa)

/-- What a step does after the given marks. -/
structure StepLaw (marks : List Mark) (c : Cpu) (r : Retired) : Prop where
  /-- Only load-reserved that complete and store-conditionals that are translated change the
  reservation. -/
  other : c.mark = none → r.cpu.reservation = c.reservation
  /-- One that faults changes neither the reservation nor a register. -/
  fault : ∀ inst c' t, c.fetched = some (inst, c') → Reserves inst → r.trap = some t →
    r.cpu.reservation = c.reservation ∧ r.cpu.regs = c.regs
  conditional : ∀ width rd rs1 rs2 c' pa c₁, c.fetched = some (.sc width rd rs1 rs2, c') →
    translateOrTrap c'.lsMode (c'.reg rs1) .store c' = some (.ok pa, c₁) →
      FetchMarks c c' ∧ ScLaw marks c' c₁ width pa (c'.reg rs1) rd rs2 r

/-- Load-reserved and store-conditional are paired in an event of a recorded run. -/
def PairingLaw (s : List Mark × Cpu) : HartEvent → Prop
  | .step fpu => ∀ r, step fpu s.2 = some r → StepLaw s.1 s.2 r
  | .outside .. => True

/-- No store-conditional that is refused rebuilds a cache entry that memory no longer holds. -/
def RefusesClean (s : List Mark × Cpu) : HartEvent → Prop
  | .step _ => ∀ width rd rs1 rs2 c pa c₁, s.2.fetched = some (.sc width rd rs1 rs2, c) →
      translateOrTrap c.lsMode (c.reg rs1) .store c = some (.ok pa, c₁) → ¬ Paired s.1 pa →
        c.HeldAt c.lsMode .store (c.reg rs1)
  | .outside .. => True

section Law

variable {fpu : Fpu} {marks : List Mark} {c c' c₁ : Cpu} {r : Retired} {width : AmoWidth}
  {rd rs1 rs2 : Reg} {pa : U64}

/-- The reservation is what the newest mark left, and the unit is used by calls only. -/
structure Recorded (s : List Mark × Cpu) : Prop where
  reservation : s.2.reservation = reservedBy s.1
  unit : Mmu.shared.Reachable (fun _ _ => True) (s.2.mmu, s.2.bus)

theorem reserve_reservedBy (marks : List Mark) (m : Option Mark) :
    reserve (reservedBy marks) m = reservedBy (m.toList ++ marks) := by
  match m with
  | none => rfl
  | some .conditional => rfl
  | some (.reserved _) => rfl

/-- An event keeps the record right. -/
theorem recorded_step {s s' : List Mark × Cpu} {e : HartEvent} (hs : Recorded s)
    (h : recorded.step e s = some s') : Recorded s' := by
  obtain ⟨marks, c⟩ := s
  obtain ⟨c', hstep, rfl⟩ := Option.map_eq_some_iff.mp h
  cases e with
  | step fpu =>
      obtain ⟨r, hr, rfl⟩ := Option.map_eq_some_iff.mp hstep
      obtain ⟨hres, c'', hquiet, hmmu⟩ := step_reservation hr
      refine ⟨?_, ?_⟩
      · have hbefore : c.reservation = reservedBy marks := hs.reservation
        rw [hbefore, reserve_reservedBy] at hres
        exact hres
      · have hunit := (hquiet.unit hs.unit).step (l := .change r.cpu.bus) trivial rfl
        rw [← hmmu] at hunit
        exact hunit
  | outside bus mip =>
      cases hstep
      exact ⟨hs.reservation, hs.unit.step (l := .change bus) trivial rfl⟩

/-- A store-conditional obeys the law, if one that is refused marks the leaf of its page. -/
theorem scLaw_of (hres : c.reservation = reservedBy marks)
    (hstores : c.reservation = some pa → Stores c c₁ width pa rd rs2 r)
    (hrefuses : c.reservation ≠ some pa → Refuses c c₁ rd r)
    (hmarks : ¬ Paired marks pa → MarksLeaf c.csr.satp (c.reg rs1) .store c.bus c₁.bus) :
    ScLaw marks c c₁ width pa (c.reg rs1) rd rs2 r := by
  rw [hres, ← paired_iff] at hstores
  rw [hres, ne_eq, ← paired_iff] at hrefuses
  refine ⟨hstores, fun hnot => ⟨hrefuses hnot, ?_⟩, fun hrd => ?_⟩
  · rw [(hrefuses hnot).memory]
    exact hmarks hnot
  · have hwritten (v : U64) (h : r.cpu.regs = (c.setReg rd v).regs) : r.cpu.reg rd = v := by
      have hreg := reg_setReg c rd v
      rw [if_neg hrd] at hreg
      rw [← hreg, reg, reg, h]
    by_cases hpaired : Paired marks pa
    · exact iff_of_true (hwritten 0 (hstores hpaired).regs) hpaired
    · refine iff_of_false ?_ hpaired
      rw [hwritten 1 (hrefuses hpaired).regs]
      decide

/-- A load-reserved or a store-conditional that faults. -/
theorem execute_fault {inst : Instruction} (hinst : Reserves inst) (h : execute fpu inst c = some r)
    {t : Trap} (ht : r.trap = some t) :
    r.cpu.reservation = c.reservation ∧ r.cpu.regs = c.regs := by
  have hraised {t' : Trap} {c' : Cpu} (hkeep : OnlyMemory c c') (hquiet : Quiet c c') :
      (c'.raise t').cpu.reservation = c.reservation ∧ (c'.raise t').cpu.regs = c.regs :=
    ⟨(hquiet.trans (.raise c' t')).reservation,
      (deliverTrap_regs c' t'.cause t'.tval).1.trans hkeep.regs⟩
  cases inst with
  | lr =>
      rcases execLr_cases h with ⟨-, t', c', hkeep, hquiet, rfl⟩ | ⟨pa, c', -, -, -, -, hnone⟩
      · exact hraised hkeep hquiet
      · rw [hnone] at ht
        cases ht
  | sc =>
      rcases execSc_cases h with ⟨-, t', c', hkeep, hquiet, rfl⟩ |
        ⟨pa, c₁, -, -, -, -, hnone, -⟩
      · exact hraised hkeep hquiet
      · rw [hnone] at ht
        cases ht
  | _ => exact hinst.elim

/-- A step obeys the law, if the store-conditionals that are refused mark the leaves of their
pages. -/
theorem stepLaw_of (hs : Recorded (marks, c)) (hr : step fpu c = some r)
    (hmarks : ∀ width rd rs1 rs2 c' pa c₁, c.fetched = some (.sc width rd rs1 rs2, c') →
      translateOrTrap c'.lsMode (c'.reg rs1) .store c' = some (.ok pa, c₁) → ¬ Paired marks pa →
        MarksLeaf c'.csr.satp (c'.reg rs1) .store c'.bus c₁.bus) : StepLaw marks c r := by
  refine ⟨fun hnone => ?_, fun inst c' t hfetched hinst ht => ?_,
    fun width rd rs1 rs2 c' pa c₁ hfetched ht => ⟨?_, ?_⟩⟩
  · rw [(step_reservation hr).1, hnone]
    rfl
  · rw [step_of_fetched hfetched] at hr
    obtain ⟨hres, hregs⟩ := execute_fault hinst hr ht
    obtain ⟨-, -, raw, c₂, hf, -, rfl⟩ := fetched_eq_some hfetched
    have hkeep := fetch_keepsHart _ _ _ _ _ hf
    exact ⟨hres.trans hkeep.reservation, hregs.trans hkeep.regs⟩
  · obtain ⟨-, -, raw, c₂, hf, -, rfl⟩ := fetched_eq_some hfetched
    have hfetch : FetchMarks c c₂ := fetch_marks hs.unit hf
    exact hfetch
  · rw [step_of_fetched hfetched] at hr
    have hres : c'.reservation = reservedBy marks :=
      (fetched_quiet hfetched).reservation.trans hs.reservation
    rcases execSc_cases hr with ⟨hmark, -⟩ | ⟨pa', c₁', ht', -, -, -, -, hstores, hrefuses⟩
    · simp only [markOf, ht] at hmark
      cases hmark
    · rw [ht] at ht'
      cases ht'
      exact scLaw_of hres hstores hrefuses (hmarks width rd rs1 rs2 c' pa c₁ hfetched ht)

/-- A store-conditional without the reservation goes on. -/
theorem execute_sc_refused (fpu : Fpu) (width : AmoWidth) (rd rs2 : Reg)
    (ht : translateOrTrap c.lsMode (c.reg rs1) .store c = some (.ok pa, c₁))
    (hres : c.reservation ≠ some pa) :
    ∃ r, execute fpu (.sc width rd rs1 rs2) c = some r := by
  have hres₁ : ¬ c₁.reservation = some pa := by
    rwa [(translateOrTrap_keepsHart _ _ _ _ _ _ ht).reservation]
  exact ⟨{ c₁.setReg rd 1 with reservation := none }.retire c.nextPc,
    by simp only [execute, execSc, orRaise, ht, if_neg hres₁]⟩

/-- An event obeys the law exactly when no refused store-conditional rebuilds a stale entry. -/
theorem pairingLaw_iff {s : List Mark × Cpu} (hs : Recorded s) (e : HartEvent) :
    PairingLaw s e ↔ RefusesClean s e := by
  obtain ⟨marks, c⟩ := s
  have hplaced {inst : Instruction} {c' : Cpu} (h : c.fetched = some (inst, c')) :
      Mmu.Placed c'.mmu := Mmu.shared_placed ((fetched_quiet h).unit hs.unit)
  cases e with
  | outside bus mip => exact Iff.rfl
  | step fpu =>
      constructor
      · intro hlaw width rd rs1 rs2 c' pa c₁ hfetched ht hnot
        have hres : c'.reservation ≠ some pa := by
          rw [(fetched_quiet hfetched).reservation, show c.reservation = _ from hs.reservation]
          exact fun heq => hnot (paired_iff.mpr heq)
        obtain ⟨r, hr⟩ := execute_sc_refused fpu width rd rs2 ht hres
        rw [← step_of_fetched hfetched] at hr
        obtain ⟨-, hsc⟩ := (hlaw r hr).conditional width rd rs1 rs2 c' pa c₁ hfetched ht
        obtain ⟨hrefuses, hmarks⟩ := hsc.refused hnot
        rw [hrefuses.memory] at hmarks
        exact (marksLeaf_iff_held (hplaced hfetched) ht).mp hmarks
      · intro hclean r hr
        refine stepLaw_of hs hr fun width rd rs1 rs2 c' pa c₁ hfetched ht hnot => ?_
        exact (marksLeaf_iff_held (hplaced hfetched) ht).mpr
          (hclean width rd rs1 rs2 c' pa c₁ hfetched ht hnot)

/-- In a run from a hart without a reservation, load-reserved and store-conditional are paired at
every step exactly when no refused store-conditional rebuilds a stale entry. -/
theorem pairing_iff (s : List Mark × Cpu) (hinit : recorded.init s) (events : List HartEvent) :
    recorded.Along PairingLaw events s ↔ recorded.Along RefusesClean events s := by
  obtain ⟨hmarks, hnone, hunit⟩ := hinit
  have hs : Recorded s := by
    refine ⟨?_, hunit⟩
    rw [hmarks, hnone]
    rfl
  exact System.along_congr_on (fun _ _ _ => recorded_step) (fun _ e hs => pairingLaw_iff hs e)
    events hs

end Law

/-- A hart in U-mode at an `SC.W` to the page it is fetched from, whose leaf is the given word. -/
def scHart (leaf : U64) : Cpu :=
  (pagedHart [(0x0000, 0x2000_0401), (0x1000, 0x2000_0801), (0x2008, leaf),
    (0x3000, 0x1820_A1AF)]).setReg 1 0x1000

/-- The hart after the fetch. -/
def scFetched (leaf : U64) : Cpu := ((scHart leaf).fetched.map Prod.snd).getD (scHart leaf)

theorem scHart_init (leaf : U64) : recorded.init ([], scHart leaf) := ⟨rfl, rfl, .init rfl⟩

theorem scHart_fetched {leaf : U64}
    (h : (scHart leaf).fetched.map Prod.fst = some (.sc .w 3 1 2)) :
    (scHart leaf).fetched = some (.sc .w 3 1 2, scFetched leaf) := by
  obtain ⟨⟨inst, c'⟩, hfetched, rfl⟩ := Option.map_eq_some_iff.mp h
  rw [scFetched, hfetched]
  rfl

/-- The accessed and dirty bits of the page are set. -/
theorem scHart_used : recorded.Along PairingLaw [.step default] ([], scHart 0x2000_0CDF) := by
  refine (pairing_iff _ (scHart_init _) _).mpr ⟨?_, fun _ _ => trivial⟩
  intro width rd rs1 rs2 c pa c₁ hfetched ht hnot hrebuilds
  rw [scHart_fetched (by decide +kernel)] at hfetched
  cases hfetched
  exact absurd hrebuilds.1.2.2 (by decide +kernel)

/-- They are clear, and a bit reserved for software is set: the store-conditional that is refused
clears it. -/
theorem scHart_tagged : ¬ ∀ (s : List Mark × Cpu) (events : List HartEvent), recorded.init s →
    recorded.Along PairingLaw events s := by
  intro h
  have hfetched : (scHart 0x2000_0D1F).fetched = _ := scHart_fetched (by decide +kernel)
  have hinit := scHart_init 0x2000_0D1F
  have hlaw := (h _ [.step default] hinit).1
  have hs : Recorded ([], scHart 0x2000_0D1F) := ⟨rfl, hinit.2.2⟩
  have htranslate : (translateOrTrap (scFetched 0x2000_0D1F).lsMode
      ((scFetched 0x2000_0D1F).reg 1) .store (scFetched 0x2000_0D1F)).map
        (fun p => p.1.toOption) = some (some 0x8000_3000) := by decide +kernel
  obtain ⟨⟨res, c₁⟩, ht, hres⟩ := Option.map_eq_some_iff.mp htranslate
  cases res with
  | error t => cases hres
  | ok pa =>
      have hnot : ¬ Paired [] pa := by
        rw [paired_iff]
        exact fun heq => by cases heq
      have hheld := (pairingLaw_iff hs _).mp hlaw .w 3 1 2 _ pa c₁ hfetched ht hnot
      have hpaged : Mmu.Paged 0x8000_0000_0008_0000 .u 0x1000 3 :=
        ⟨by decide, by decide, by decide⟩
      have hword : Mmu.pteWord (scFetched 0x2000_0D1F).bus
          ((scFetched 0x2000_0D1F).mmu.tlb (Mmu.tlbIndex (0x1000#64 >>> 12))).pteAddr =
            some 0x2000_0D5F := by decide +kernel
      have hkeeps := (hheld ⟨⟨⟨3, hpaged⟩, by decide +kernel, by decide +kernel⟩,
        by decide +kernel⟩ _ hword).1
      exact absurd hkeeps (by decide +kernel)

end Cpu

end RiscvEmu
