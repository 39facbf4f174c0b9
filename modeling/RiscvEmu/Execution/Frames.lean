import RiscvEmu.Native.Blocks
import RiscvEmu.Translation.Cases

/-!
# Frames of memory

What an instruction does to the bus and to the translation unit it does by memory operations, and by
`SFENCE.VMA`.  So a relation of harts that is about these parts only, and that memory operations and
the flush of the unit meet, is met by instructions, by steps, by blocks and by compilation.

A relation of buses that every load and every store meets gives such a relation of harts
(`BusFrame.frame`): the walks of the translation are loads and stores as well.
-/

namespace RiscvEmu

namespace Cpu

theorem setJit_mmu (c : Cpu) (p : Prop) [Decidable p] :
    (if p then { c with jitInvalidate := true } else c).mmu = c.mmu := by
  split <;> rfl

/-- A relation of harts about the bus and the translation unit, which memory operations meet. -/
structure Frame (R : Cpu → Cpu → Prop) : Prop extends MemoryClosed R where
  congr : ∀ {c c' d : Cpu}, d.bus = c'.bus → d.mmu = c'.mmu → R c c' → R c d
  flush : ∀ c : Cpu, R c { c with mmu := c.mmu.flush }

namespace Frame

variable {R : Cpu → Cpu → Prop} (hR : Frame R) {fpu : Fpu} {inst : Instruction} {c c' : Cpu}
  {r : Retired}

include hR

theorem keep {d : Cpu} (h : R c c') (hbus : d.bus = c'.bus) (hmmu : d.mmu = c'.mmu) : R c d :=
  hR.congr hbus hmmu h

/-- A change of other parts. -/
theorem of_eq (hbus : c'.bus = c.bus) (hmmu : c'.mmu = c.mmu) : R c c' :=
  hR.congr hbus hmmu (hR.refl c)

theorem setReg (rd : Reg) (v : U64) : R c (c.setReg rd v) := by
  rw [Cpu.setReg]
  split
  · exact hR.of_eq rfl rfl
  · exact hR.refl c

theorem deliverTrap (cause tval : U64) : R c (c.deliverTrap cause tval) := by
  rw [Cpu.deliverTrap]
  split <;> exact hR.of_eq rfl rfl

theorem raise (t : Trap) : R c (c.raise t).cpu := hR.deliverTrap _ _

theorem retire (pc : U64) : R c (c.retire pc).cpu := hR.of_eq rfl rfl

/-- A memory operation, followed by code that meets the relation. -/
theorem orRaise {α : Type} {m : Run Cpu Trap α} {k : α → Cpu → Option Retired}
    (hm : Run.Keeps R m) (hk : ∀ a c₁ r, k a c₁ = some r → R c₁ r.cpu)
    (h : orRaise m k c = some r) : R c r.cpu := by
  rcases orRaise_eq_some h with ⟨t, c₁, hrun, rfl⟩ | ⟨a, c₁, hrun, hx⟩
  · exact hR.trans _ _ _ (hm _ _ _ hrun) (hR.raise t)
  · exact hR.trans _ _ _ (hm _ _ _ hrun) (hk a c₁ r hx)

theorem execJump {target : U64} {link : Cpu → Cpu} (hlink : R c (link c))
    (h : c.execJump target link = some r) : R c r.cpu := by
  rw [Cpu.execJump] at h
  split at h
  · cases h
    exact hR.raise _
  · cases h
    exact hR.trans _ _ _ hlink (hR.retire _)

theorem execLoad {rs1 : Reg} {imm : U64} {width : Width} {dest : U64 → Cpu → Cpu}
    (hdest : ∀ v c, R c (dest v c)) (h : c.execLoad rs1 imm width dest = some r) : R c r.cpu := by
  refine hR.orRaise (hR.mmuLoad _ _ _) (fun v c₁ r hx => ?_) h
  cases hx
  exact hR.trans _ _ _ (hdest v c₁) (hR.retire _)

theorem execStore {rs1 : Reg} {imm val : U64} {width : Width}
    (h : c.execStore rs1 imm width val = some r) : R c r.cpu := by
  refine hR.orRaise (hR.mmuStore _ _ _ _) (fun v c₁ r hx => ?_) h
  cases hx
  exact hR.retire _

theorem execLr {width : AmoWidth} {rd rs1 : Reg} (h : c.execLr width rd rs1 = some r) :
    R c r.cpu := by
  refine hR.orRaise (hR.translateOrTrap _ _ _) (fun pa c₁ r hx => ?_) h
  refine hR.orRaise (hR.busLoad _ _ _) (fun v c₂ r hx => ?_) hx
  cases hx
  exact hR.keep (hR.setReg rd _) rfl rfl

theorem execSc {width : AmoWidth} {rd rs1 rs2 : Reg} (h : c.execSc width rd rs1 rs2 = some r) :
    R c r.cpu := by
  refine hR.orRaise (hR.translateOrTrap _ _ _) (fun pa c₁ r hx => ?_) h
  split at hx
  · split at hx
    · cases hx
    · rename_i hs
      cases hx
      exact hR.trans _ _ _ (hR.busStore _ _ _ _ _ _ _ hs) (hR.keep (hR.setReg rd _) rfl rfl)
  · cases hx
    exact hR.keep (hR.setReg rd _) rfl rfl

theorem execAmo {op : AmoOp} {width : AmoWidth} {rd rs1 rs2 : Reg}
    (h : c.execAmo op width rd rs1 rs2 = some r) : R c r.cpu := by
  refine hR.orRaise (hR.translateOrTrap _ _ _) (fun pa c₁ r hx => ?_) h
  dsimp only at hx
  split at hx
  · cases hx
  · rename_i hl
    split at hx
    · cases hx
    · rename_i hs
      cases hx
      have hload := hR.busLoad _ _ _ _ _ _ hl
      have hstore := hR.busStore _ _ _ _ _ _ _ hs
      exact hR.trans _ _ _ (hR.trans _ _ _ hload hstore) (hR.keep (hR.setReg rd _) rfl rfl)

theorem execSret (h : c.execSret = some r) : R c r.cpu := by
  rw [Cpu.execSret] at h
  split at h
  · cases h
    exact hR.raise _
  · cases h
    exact hR.of_eq rfl rfl

theorem execSfenceVma (h : c.execSfenceVma = some r) : R c r.cpu := by
  rw [Cpu.execSfenceVma] at h
  split at h
  · cases h
    exact hR.raise _
  · cases h
    exact hR.keep (hR.flush c) rfl rfl

theorem execCsr {op : CsrOp} {rd : Reg} {src : CsrSrc} {csr : CsrAddr}
    (h : c.execCsr op rd src csr = some r) : R c r.cpu := by
  rw [Cpu.execCsr] at h
  split at h
  · cases h
    exact hR.raise _
  · cases h
    have hwritten : ∀ (p : Prop) [Decidable p] (v : U64),
        R c (if p then c.csrWrite csr v else c) := by
      intro p _ v
      split
      · exact hR.of_eq rfl rfl
      · exact hR.refl c
    exact hR.keep (hR.trans _ _ _ (hwritten _ _) (hR.setReg rd _)) (setJit_bus _ _)
      (setJit_mmu _ _)

theorem execFp {rd : Reg} {res : FpResult} (h : c.execFp rd res = some r) : R c r.cpu := by
  cases res with
  | freg v =>
      cases h
      exact hR.of_eq rfl rfl
  | ireg v =>
      cases h
      exact hR.keep (hR.setReg rd v) rfl rfl
  | illegalReturn =>
      cases h
      exact hR.raise _
  | illegalFallthrough =>
      cases h
      exact hR.keep (hR.raise _) rfl rfl

/-- An instruction meets the relation. -/
theorem execute (h : execute fpu inst c = some r) : R c r.cpu := by
  cases inst with
  | op op rd | opImm op rd | shift op rd | lui rd | auipc rd =>
      cases h
      exact hR.keep (hR.setReg rd _) rfl rfl
  | load => exact hR.execLoad (fun _ _ => hR.setReg _ _) h
  | flw | fld =>
      rw [RiscvEmu.execute] at h
      refine hR.execLoad ?_ h
      intro v c
      exact hR.of_eq rfl rfl
  | store | fsw | fsd => exact hR.execStore h
  | branch op rs1 rs2 imm =>
      change c.execBranch op rs1 rs2 imm = some r at h
      rw [execBranch] at h
      split at h
      · exact hR.execJump (hR.refl c) h
      · cases h
        exact hR.retire _
  | jal | jalr => exact hR.execJump (hR.setReg _ _) h
  | fence | wfi | mret =>
      cases h
      exact hR.of_eq rfl rfl
  | ecall | ebreak =>
      cases h
      exact hR.raise _
  | sret => exact hR.execSret h
  | sfenceVma => exact hR.execSfenceVma h
  | csr => exact hR.execCsr h
  | lr => exact hR.execLr h
  | sc => exact hR.execSc h
  | amo => exact hR.execAmo h
  | opFp | fma => exact hR.execFp h

theorem executeFetched {raw : U32} (h : executeFetched fpu raw c = some r) : R c r.cpu := by
  have hsize : R c { c with instSize := (decodeFetched raw).1 } := hR.of_eq rfl rfl
  rw [Cpu.executeFetched] at h
  split at h
  · cases h
    exact hR.trans _ _ _ hsize (hR.raise _)
  · exact hR.trans _ _ _ hsize (hR.execute h)

/-- So does a step. -/
theorem step (h : step fpu c = some r) : R c r.cpu := by
  rw [Cpu.step] at h
  split at h
  · cases h
    exact hR.raise _
  · split at h
    · cases h
      exact hR.raise _
    · exact hR.orRaise (hR.fetch _ _) (fun raw c₁ r hx => hR.executeFetched hx) h

end Frame

end Cpu

/-! ## Relations of buses -/

/-- A relation of buses that every access meets. -/
structure BusFrame (S : Bus → Bus → Prop) : Prop where
  refl : ∀ b : Bus, S b b
  trans : ∀ b b' b'' : Bus, S b b' → S b' b'' → S b b''
  load : ∀ addr width, Run.Keeps S (Bus.load addr width)
  store : ∀ addr width value, Run.Keeps S (Bus.store addr width value)

namespace BusFrame

variable {S : Bus → Bus → Prop} (hS : BusFrame S)

include hS

/-- A walk loads entries. -/
theorem findLeaf {addr : U64} {access : AccessType} :
    ∀ (n : Nat) (t : U64), Run.Keeps S (Mmu.findLeaf addr access n t)
  | 0, _ => Run.Keeps.throw hS.refl _
  | n + 1, t => by
      intro b r b' h
      rw [Mmu.findLeaf] at h
      dsimp only at h
      split at h
      · cases h
      · rename_i hl
        cases h
        exact hS.load _ _ _ _ _ hl
      · rename_i pte b₁ hl
        have hload := hS.load _ _ _ _ _ hl
        split at h
        · cases h
          exact hload
        · split at h
          · cases h
            exact hload
          · exact hS.trans _ _ _ hload (findLeaf n _ _ _ _ h)

/-- A hit may store an entry. -/
theorem hit {i : Fin 64} {mode : PrivMode} {mstatus addr : U64} {access : AccessType} :
    Run.Keeps (fun s s' : Mmu × Bus => S s.2 s'.2) (Mmu.hit i mode mstatus addr access) := by
  intro s r s' h
  rw [Mmu.hit] at h
  dsimp only at h
  split at h
  · cases h
    exact hS.refl _
  · split at h
    · split at h
      · cases h
      · rename_i hs
        cases h
        exact hS.store _ _ _ _ _ _ hs
    · cases h
      exact hS.refl _

/-- So may the use of a leaf. -/
theorem useLeaf {leaf : Mmu.Leaf} {asid : U16} {mode : PrivMode} {mstatus addr : U64}
    {access : AccessType} :
    Run.Keeps (fun s s' : Mmu × Bus => S s.2 s'.2)
      (Mmu.useLeaf leaf asid mode mstatus addr access) := by
  intro s r s' h
  rw [Mmu.useLeaf] at h
  dsimp only at h
  split at h
  · cases h
    exact hS.refl _
  · split at h
    · cases h
      exact hS.refl _
    · split at h
      · split at h
        · cases h
        · rename_i hs
          cases h
          exact hS.store _ _ _ _ _ _ hs
        · rename_i hs
          cases h
          exact hS.store _ _ _ _ _ _ hs
      · cases h
        exact hS.refl _

/-- A translation meets the relation. -/
theorem translate {satp mstatus addr : U64} {mode : PrivMode} {access : AccessType} :
    Run.Keeps (fun s s' : Mmu × Bus => S s.2 s'.2)
      (Mmu.translate satp mode mstatus addr access) := by
  intro s r s' h
  cases Mmu.translate_ended h with
  | bare | noncanonical => exact hS.refl _
  | hit _ _ hhit => exact hS.hit _ _ _ hhit
  | unmapped _ _ hf => exact hS.findLeaf _ _ _ _ _ hf
  | leaf _ _ hf _ hu => exact hS.trans _ _ _ (hS.findLeaf _ _ _ _ _ hf) (hS.useLeaf _ _ _ hu)

/-- The buses of related harts are related. -/
theorem frame : Cpu.Frame fun c c' => S c.bus c'.bus where
  refl c := hS.refl c.bus
  trans c c' c'' := hS.trans c.bus c'.bus c''.bus
  translateOrTrap mode va access := by
    have hunit : Run.Keeps (fun c c' : Cpu => S c.bus c'.bus) (Cpu.translate mode va access) := by
      intro c r c' h
      obtain ⟨r₀, s, hs, -, rfl⟩ := Run.zoom_eq_some h
      exact hS.translate _ _ _ hs
    exact hunit.zoom fun _ _ h => h
  busLoad pa width trap := (hS.load pa width).zoom fun _ _ h => h
  busStore pa width value trap := (hS.store pa width value).zoom fun _ _ h => h
  congr := by
    intro c c' d hbus _ h
    rw [hbus]
    exact h
  flush c := hS.refl c.bus

end BusFrame

namespace Jit

/-! ## Blocks -/

section

variable {R : Cpu → Cpu → Prop} (hR : Cpu.Frame R) {c c' d : Cpu} {pc nextSeq : U64}
  {inst : Instruction} {raws : List U32}

include hR

/-- A translation, whose fault is not made a trap. -/
theorem translate_frame {mode : PrivMode} {va : U64} {access : AccessType}
    {r : Except MmuFault U64} (ht : Cpu.translate mode va access c = some (r, c')) : R c c' := by
  refine hR.translateOrTrap mode va access c (r.mapError fun f => ⟨f.cause, f.tval⟩) c' ?_
  exact Run.zoom_of_some ht

theorem load_frame {width : Width} {pa : U64} {r : Except BusFault U64} {b : Bus}
    (hl : Bus.load pa width c.bus = some (r, b)) : R c { c with bus := b } :=
  hR.busLoad pa width ⟨0, 0⟩ c (r.mapError fun _ => ⟨0, 0⟩) _ (Run.zoom_of_some hl)

theorem store_frame {width : Width} {pa value : U64} {r : Except BusFault Unit} {b : Bus}
    (hs : Bus.store pa width value c.bus = some (r, b)) : R c { c with bus := b } :=
  hR.busStore pa width value ⟨0, 0⟩ c (r.mapError fun _ => ⟨0, 0⟩) _ (Run.zoom_of_some hs)

theorem jitLoad_frame {width : Width} {va v : U64} (h : c.jitLoad width va = some (v, c')) :
    R c c' := by
  unfold Cpu.jitLoad at h
  split at h
  · cases h
  · rename_i ht
    cases h
    exact translate_frame hR ht
  · rename_i ht
    have hfirst := translate_frame hR ht
    split at h
    · cases h
    · rename_i hl
      cases h
      exact hR.trans _ _ _ hfirst (load_frame hR hl)
    · rename_i hl
      cases h
      exact hR.trans _ _ _ hfirst (load_frame hR hl)

theorem jitStore_frame {width : Width} {va val v : U64}
    (h : c.jitStore width va val = some (v, c')) : R c c' := by
  unfold Cpu.jitStore at h
  split at h
  · cases h
  · rename_i ht
    cases h
    exact translate_frame hR ht
  · rename_i ht
    have hfirst := translate_frame hR ht
    split at h
    · cases h
    · rename_i hs
      cases h
      exact hR.trans _ _ _ hfirst (store_frame hR hs)
    · rename_i hs
      cases h
      exact hR.trans _ _ _ hfirst (store_frame hR hs)

theorem answered_frame {k : U64 → Cpu → Cpu} (hk : ∀ v c, R c (k v c))
    {answer : Option (U64 × Cpu)} (hanswer : ∀ v c', answer = some (v, c') → R d c') :
    (answered pc k answer).All (R d) fun _ => True := by
  cases answer with
  | none => exact trivial
  | some p =>
      obtain ⟨v, c'⟩ := p
      rw [answered]
      split
      · exact hR.keep (hanswer v c' rfl) rfl rfl
      · exact hR.trans _ _ _ (hanswer v c' rfl) (hk v c')

/-- The code of an instruction meets the relation. -/
theorem native_frame (inst : Instruction) (pc nextSeq : U64) (c : Cpu) :
    (native inst pc nextSeq c).All (R c) fun _ => True := by
  cases inst with
  | op | opImm | shift | lui | auipc => exact hR.setReg _ _
  | load => exact answered_frame hR (fun _ _ => hR.setReg _ _) fun _ _ => jitLoad_frame hR
  | store => exact answered_frame hR (fun _ _ => hR.refl _) fun _ _ => jitStore_frame hR
  | branch => exact ⟨hR.refl c, trivial⟩
  | jal | jalr => exact ⟨hR.setReg _ _, trivial⟩
  | fence => exact hR.refl c
  | _ => exact trivial

theorem andThen_frame {o : Outcome} {k : Cpu → Outcome} (ho : o.All (R c) fun _ => True)
    (hk : ∀ d, (k d).All (R d) fun _ => True) : (o.andThen k).All (R c) fun _ => True := by
  cases o with
  | next c₁ =>
      have hrest := hk c₁
      change (k c₁).All (R c) _
      cases hrun : k c₁ with
      | abort => exact trivial
      | next c₂ | fault c₂ =>
          rw [hrun] at hrest
          exact hR.trans _ _ _ ho hrest
      | leave c₂ target =>
          rw [hrun] at hrest
          exact ⟨hR.trans _ _ _ ho hrest.1, trivial⟩
  | leave | fault | abort => exact ho

/-- A block meets the relation. -/
theorem runRaws_frame (pc : U64) (raws : List U32) (c : Cpu) :
    (runRaws pc raws c).All (R c) fun _ => True := by
  induction raws generalizing pc c with
  | nil => exact ⟨hR.refl c, trivial⟩
  | cons raw4 raws ih => exact andThen_frame hR (native_frame hR _ _ _ c) fun d => ih _ d

theorem fetchRaw_frame {r : Except Trap U32} (h : fetchRaw pc c = some (r, c')) : R c c' := by
  have hfetch : Run.Keeps R
      (do
        let pa ← Cpu.translateOrTrap c.mode pc .fetch
        let v ← Cpu.busLoad pa .b4 ⟨1, pc⟩
        pure (v.setWidth 32) : Run Cpu Trap U32) :=
    hR.bind (hR.translateOrTrap _ _ _) fun _ => hR.bind (hR.busLoad _ _ _) fun _ => hR.pure _
  exact hfetch _ _ _ h

theorem emitBlock_frame {h : Host} {left n : Nat} {p : Code × Nat}
    (hemit : emitBlock h left pc n c = some (p, c')) : R c c' := by
  induction left generalizing pc n c p with
  | zero =>
      cases hemit
      exact hR.refl _
  | succ left ih =>
      rw [emitBlock] at hemit
      split at hemit
      · cases hemit
      · rename_i hfetch
        cases hemit
        exact fetchRaw_frame hR hfetch
      · rename_i raw4 c₁ hfetch
        have hfirst := fetchRaw_frame hR hfetch
        dsimp only at hemit
        split at hemit
        · obtain ⟨q, hrest, heq⟩ := Option.map_eq_some_iff.mp hemit
          cases heq
          exact hR.trans _ _ _ hfirst (ih hrest)
        · cases hemit
          exact hfirst
        · cases hemit
          exact hfirst

/-- So does compilation. -/
theorem compile_frame {h : Host} {jit jit' : JitCache}
    (hcompile : compile h jit pc c = some (jit', c')) : R c c' := by
  rw [compile] at hcompile
  split at hcompile
  · cases hcompile
    exact hR.refl _
  · split at hcompile
    · cases hcompile
    · rename_i hfetch
      cases hcompile
      exact fetchRaw_frame hR hfetch
    · rename_i hfetch
      split at hcompile
      · cases hcompile
      · rename_i hemit
        cases hcompile
        exact hR.trans _ _ _ (fetchRaw_frame hR hfetch) (emitBlock_frame hR hemit)

end

end Jit

end RiscvEmu
