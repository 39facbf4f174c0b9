import RiscvEmu.Jit.Callouts
import RiscvEmu.Execution.Precise

/-!
# Callouts and the interpreter

A callout is the interpreter's access when the interpreter finds the same place and the access stays
in its page.  It may also cross, when the second page lies behind the first one in RAM: the
interpreter then moves the bytes one at a time where the callout moves the word (`SameAccess`).  The
two may start from harts that differ in what an access does not look at, and leave such harts.

With `MPRV` the callout translates in the wrong mode, and of an access that crosses it never
translates the second page.
-/

namespace RiscvEmu.Cpu

open Mmu

variable {c c₁ c₂ c' d : Cpu} {mode : PrivMode} {va pa : U64} {width : Width}

/-- The word a load callout may return for a result of the interpreter. -/
def Answers (j : U64) : Except Trap U64 → Prop
  | .ok v => j = v ∨ j = u64Max
  | .error _ => j = u64Max

/-- The callouts of one width, at one address, are the accesses of the interpreter. -/
structure CalloutsMatch (c : Cpu) (va : U64) (width : Width) : Prop where
  load : ∀ r c', mmuLoad c.lsMode va width c = some (r, c') →
    ∃ j cj, jitLoad width va c = some (j, cj) ∧ Answers j r
  store : ∀ val cj, jitStore width va val c = some (0, cj) →
    ∃ c', mmuStore c.lsMode va width val c = some (.ok (), c') ∧ c'.bus.ram = cj.bus.ram

/-- The hart does not translate the addresses of its loads and stores. -/
def Untranslated (c : Cpu) : Prop :=
  levels c.csr.satp = none ∨ (c.mode = .m ∧ c.lsMode = .m)

/-- The accesses on which the callouts do what the interpreter does. -/
structure Covered (c : Cpu) (va : U64) (width : Width) : Prop where
  mode : c.lsMode = c.mode ∨ levels c.csr.satp = none
  whole : Crosses va width →
    c.Untranslated ∧ ∀ i < width.bytes, region (va + BitVec.ofNat 64 i) = .ram

/-- A relation between harts with the same bus, whatever is on it. -/
structure SharesBus (R : Cpu → Cpu → Prop) : Prop where
  bus : ∀ {c d : Cpu}, R c d → d.bus = c.bus
  put : ∀ {c d : Cpu} (b : Bus), R c d → R { c with bus := b } { d with bus := b }

/-- The interpreter, on a hart of its own, makes the access of a callout: it finds the same place,
and an access that crosses goes on in RAM, behind that place.  The translations of the one and of
the other leave related harts. -/
def SameAccess (R : Cpu → Cpu → Prop) (c d : Cpu) (access : AccessType) (va : U64)
    (width : Width) : Prop :=
  ∀ pa c₁, Cpu.translate c.mode va access c = some (.ok pa, c₁) →
    ∃ d₁, Cpu.translate d.lsMode va access d = some (.ok pa, d₁) ∧ R c₁ d₁ ∧
      (Crosses va width → (∀ i < width.bytes, region (pa + BitVec.ofNat 64 i) = .ram) ∧
        ∃ d₂, Cpu.translate d.lsMode (nextPage va) access d₁ =
          some (.ok (pa + BitVec.ofNat 64 (0x1000 - pageOff va)), d₂) ∧ R c₁ d₂)

/-! ## Translations -/

theorem translate_bare {satp mstatus : U64} {mode : PrivMode} {access : AccessType}
    (h : levels satp = none) (s : Mmu × Bus) :
    Mmu.translate satp mode mstatus va access s = some (.ok va, s) := by
  simp only [Mmu.translate, h]

theorem translate_machine {satp mstatus : U64} {access : AccessType} (s : Mmu × Bus) :
    Mmu.translate satp .m mstatus va access s = some (.ok va, s) := by
  cases h : levels satp with
  | none => exact translate_bare h s
  | some n => simp only [Mmu.translate, h, if_pos]

/-- The mode of a covered access does not matter to its translation. -/
theorem Covered.translate_eq {access : AccessType} (hc : c.Covered va width) (addr : U64) :
    Cpu.translate c.lsMode addr access c = Cpu.translate c.mode addr access c := by
  rcases hc.mode with h | h
  · rw [h]
  · simp only [Cpu.translate, Run.zoom, translate_bare h]

/-- Without translation an address stands for itself. -/
theorem Untranslated.translate (hc : c.Untranslated) (access : AccessType) :
    Cpu.translate c.mode va access c = some (.ok va, c) ∧
      Cpu.translate c.lsMode va access c = some (.ok va, c) := by
  rcases hc with h | ⟨hm, hl⟩
  · exact ⟨Run.zoom_of_some (translate_bare h _), Run.zoom_of_some (translate_bare h _)⟩
  · rw [hm, hl]
    exact ⟨Run.zoom_of_some (translate_machine _), Run.zoom_of_some (translate_machine _)⟩

/-- The interpreter makes the accesses that are covered. -/
theorem Covered.sameAccess {R : Cpu → Cpu → Prop} (hrefl : ∀ c, R c c) (hc : c.Covered va width)
    (access : AccessType) : SameAccess R c c access va width := by
  intro pa c₁ ht
  refine ⟨c₁, (hc.translate_eq va).trans ht, hrefl c₁, fun hcross => ?_⟩
  obtain ⟨hbare, hram⟩ := hc.whole hcross
  rw [(hbare.translate access).1] at ht
  cases ht
  rw [← nextPage_eq]
  exact ⟨hram, c, (hbare.translate access).2, hrefl c⟩

/-! ## Accesses in one page -/

theorem mmuLoad_within (h : ¬ Crosses va width) (mode : PrivMode) :
    mmuLoad mode va width =
      translateOrTrap mode va .load >>= fun pa => busLoad pa width ⟨5, va⟩ :=
  if_pos (Decidable.not_not.mp h)

theorem mmuStore_within (h : ¬ Crosses va width) (mode : PrivMode) (val : U64) :
    mmuStore mode va width val =
      translateOrTrap mode va .store >>= fun pa => busStore pa width val ⟨7, va⟩ :=
  if_pos (Decidable.not_not.mp h)

theorem u64Max_ne_zero : u64Max ≠ 0 := by decide

/-- A store callout that succeeds translated its address and stored to the bus. -/
theorem jitStore_eq_zero {val : U64} {cj : Cpu} (h : jitStore width va val c = some (0, cj)) :
    ∃ pa c₁ b, translate c.mode va .store c = some (.ok pa, c₁) ∧
      c₁.bus.store pa width val = some (.ok (), b) ∧ cj = { c₁ with bus := b } := by
  unfold jitStore at h
  cases ht : translate c.mode va .store c with
  | none => rw [ht] at h; cases h
  | some p =>
      obtain ⟨r, c₁⟩ := p
      rw [ht] at h
      cases r with
      | error f => exact absurd (congrArg Prod.fst (Option.some.inj h)) u64Max_ne_zero
      | ok pa =>
          dsimp only at h
          cases hs : c₁.bus.store pa width val with
          | none => rw [hs] at h; cases h
          | some q =>
              obtain ⟨r₁, b⟩ := q
              rw [hs] at h
              cases r₁ with
              | error e => exact absurd (congrArg Prod.fst (Option.some.inj h)) u64Max_ne_zero
              | ok u =>
                  cases h
                  exact ⟨pa, c₁, b, rfl, hs, rfl⟩

/-- So did a load callout that reports no fault. -/
theorem jitLoad_answered {v : U64} {cj : Cpu} (h : jitLoad width va c = some (v, cj))
    (hv : v ≠ u64Max) : ∃ pa c₁ b, translate c.mode va .load c = some (.ok pa, c₁) ∧
      c₁.bus.load pa width = some (.ok v, b) ∧ cj = { c₁ with bus := b } := by
  unfold jitLoad at h
  cases ht : translate c.mode va .load c with
  | none => rw [ht] at h; cases h
  | some p =>
      obtain ⟨r, c₁⟩ := p
      rw [ht] at h
      cases r with
      | error f => exact absurd (congrArg Prod.fst (Option.some.inj h)).symm hv
      | ok pa =>
          dsimp only at h
          cases hl : c₁.bus.load pa width with
          | none => rw [hl] at h; cases h
          | some q =>
              obtain ⟨r₁, b⟩ := q
              rw [hl] at h
              cases r₁ with
              | error e => exact absurd (congrArg Prod.fst (Option.some.inj h)).symm hv
              | ok v =>
                  cases h
                  exact ⟨pa, c₁, b, rfl, hl, rfl⟩

/-! ## Accesses that cross -/

section Crossing

variable {off : Nat}

/-- The two parts of an access that lies in RAM as a whole. -/
theorem runAt_parts (hcross : Crosses va width)
    (hram : ∀ i < width.bytes, region (pa + BitVec.ofNat 64 i) = .ram) {b : Bus}
    (ho : b.offset pa width = .ok off) :
    RunAt b pa off (0x1000 - pageOff va) 0 ∧
      RunAt b (pa + BitVec.ofNat 64 (0x1000 - pageOff va)) (off + (0x1000 - pageOff va))
        (width.bytes - (0x1000 - pageOff va)) 0 := by
  have hlt := pageOff_lt va
  rw [Crosses] at hcross
  refine ⟨fun j hj => ?_, fun j hj => ?_⟩
  · rw [Nat.zero_add]
    exact ⟨hram j (by omega), Bus.offset_byte ho (by omega)⟩
  · rw [Nat.zero_add, BitVec.add_assoc, ← BitVec.ofNat_add, Nat.add_assoc]
    exact ⟨hram _ (by omega), Bus.offset_byte ho (by omega)⟩

/-- Byte by byte the interpreter loads the word. -/
theorem mmuLoad_crossing (hcross : Crosses va width)
    (h₁ : translateOrTrap mode va .load c = some (.ok pa, c₁))
    (h₂ : translateOrTrap mode (nextPage va) .load c₁ =
      some (.ok (pa + BitVec.ofNat 64 (0x1000 - pageOff va)), c₂))
    (hram : ∀ i < width.bytes, region (pa + BitVec.ofNat 64 i) = .ram)
    (ho : c₂.bus.offset pa width = .ok off) :
    mmuLoad mode va width c = some (.ok (Bytes.readLe c₂.bus.ram.byte off width.bytes), c₂) := by
  have hw := width.bytes_le
  have hlt := pageOff_lt va
  obtain ⟨hrun₁, hrun₂⟩ := runAt_parts hcross hram ho
  have hzero : ∀ l, 0 + 0 ≤ l → Bytes.byteAt 0 l = 0 := fun l _ => by
    apply BitVec.eq_of_getLsbD_eq
    intro j hj
    rw [Bytes.byteAt_getElem _ _ hj]
    simp
  have hcr := hcross
  rw [Crosses] at hcr
  obtain ⟨v₁, hl₁, hb₁⟩ := loadBytes_ram va (by omega) hrun₁ hzero
  obtain ⟨v₂, hl₂, hb₂⟩ := loadBytes_ram (nextPage va) (k := 0x1000 - pageOff va)
    (by omega) hrun₂ (v := v₁) fun l hl => by
      rw [hb₁, if_neg (by omega), hzero l (by omega)]
  have hval : v₂ = Bytes.readLe c₂.bus.ram.byte off width.bytes := by
    apply Bytes.eq_of_byteAt
    intro l _
    rw [hb₂, hb₁, Bytes.byteAt_readLe _ _ _ _ hw]
    by_cases hfirst : l < 0x1000 - pageOff va
    · rw [if_neg (by omega), if_pos (by omega), if_pos (by omega), Nat.sub_zero]
    · rw [if_neg (show ¬ (0 + 0 ≤ l ∧ l < 0 + 0 + (0x1000 - pageOff va)) by omega)]
      by_cases hin : l < width.bytes
      · rw [if_pos (by omega), if_pos hin]
        congr 1
        omega
      · rw [if_neg (by omega), if_neg hin, hzero l (by omega)]
  rw [mmuLoad, if_neg hcross, Run.bind_ok h₁, Run.bind_ok h₂, Run.bind_ok hl₁, hl₂, hval]

/-- Byte by byte the interpreter stores the word. -/
theorem mmuStore_crossing (hcross : Crosses va width) {val : U64}
    (h₁ : translateOrTrap mode va .store c = some (.ok pa, c₁))
    (h₂ : translateOrTrap mode (nextPage va) .store c₁ =
      some (.ok (pa + BitVec.ofNat 64 (0x1000 - pageOff va)), c₂))
    (hram : ∀ i < width.bytes, region (pa + BitVec.ofNat 64 i) = .ram)
    (ho : c₂.bus.offset pa width = .ok off) :
    mmuStore mode va width val c =
      some (.ok (), { c₂ with bus := c₂.bus.setBytes off width.bytes val }) := by
  obtain ⟨hrun₁, hrun₂⟩ := runAt_parts hcross hram ho
  have hlt := pageOff_lt va
  rw [mmuStore, if_neg hcross, Run.bind_ok h₁, Run.bind_ok h₂]
  refine (storeParts_ram hrun₁ hrun₂).trans ?_
  rw [Crosses] at hcross
  rw [Bus.setBytes_append]
  rw [show 0x1000 - pageOff va + (width.bytes - (0x1000 - pageOff va)) = width.bytes by omega]

end Crossing

/-! ## The callouts -/

theorem SameAccess.of_translations {R : Cpu → Cpu → Prop} {access : AccessType} {d₁ d₂ : Cpu}
    (hc : Cpu.translate c.mode va access c = some (.ok pa, c₁))
    (hd : Cpu.translate d.lsMode va access d = some (.ok pa, d₁)) (hrel : R c₁ d₁)
    (hram : ∀ i < width.bytes, region (pa + BitVec.ofNat 64 i) = .ram)
    (hnext : Cpu.translate d.lsMode (nextPage va) access d₁ =
      some (.ok (pa + BitVec.ofNat 64 (0x1000 - pageOff va)), d₂)) (hrel₂ : R c₁ d₂) :
    SameAccess R c d access va width := by
  intro pa' c' ht
  rw [hc] at ht
  cases ht
  exact ⟨d₁, hd, hrel, fun _ => ⟨hram, d₂, hnext, hrel₂⟩⟩

/-- A load whose callout reports no fault is the load of the interpreter. -/
theorem SameAccess.load {R : Cpu → Cpu → Prop} (hR : SharesBus R)
    (hc : SameAccess R c d .load va width) {v : U64} {cj : Cpu}
    (h : jitLoad width va c = some (v, cj)) (hv : v ≠ u64Max) :
    ∃ dj, mmuLoad d.lsMode va width d = some (.ok v, dj) ∧ R cj dj := by
  obtain ⟨pa, c₁, b, ht, hl, rfl⟩ := jitLoad_answered h hv
  obtain ⟨d₁, hfirst, hrel, hwhole⟩ := hc pa c₁ ht
  by_cases hcross : Crosses va width
  · obtain ⟨hram, d₂, hnext, hrel₂⟩ := hwhole hcross
    have hr := hram 0 width.bytes_pos
    rw [show BitVec.ofNat 64 0 = 0#64 from rfl, BitVec.add_zero] at hr
    rw [← hR.bus hrel₂] at hl
    cases ho : d₂.bus.offset pa width with
    | error e =>
        rw [Bus.load_ram_error hr ho] at hl
        cases hl
    | ok off =>
        rw [Bus.load_ram hr ho] at hl
        cases hl
        exact ⟨d₂, mmuLoad_crossing hcross (translateOrTrap_ok hfirst) (translateOrTrap_ok hnext)
          hram ho, hR.put d₂.bus hrel₂⟩
  · rw [← hR.bus hrel] at hl
    rw [mmuLoad_within hcross, Run.bind_ok (translateOrTrap_ok hfirst)]
    exact ⟨{ d₁ with bus := b }, Run.zoom_of_some hl, hR.put b hrel⟩

/-- So is a store. -/
theorem SameAccess.store {R : Cpu → Cpu → Prop} (hR : SharesBus R)
    (hc : SameAccess R c d .store va width) {val : U64} {cj : Cpu}
    (h : jitStore width va val c = some (0, cj)) :
    ∃ dj, mmuStore d.lsMode va width val d = some (.ok (), dj) ∧ R cj dj := by
  obtain ⟨pa, c₁, b, ht, hs, rfl⟩ := jitStore_eq_zero h
  obtain ⟨d₁, hfirst, hrel, hwhole⟩ := hc pa c₁ ht
  by_cases hcross : Crosses va width
  · obtain ⟨hram, d₂, hnext, hrel₂⟩ := hwhole hcross
    have hr := hram 0 width.bytes_pos
    rw [show BitVec.ofNat 64 0 = 0#64 from rfl, BitVec.add_zero] at hr
    rw [← hR.bus hrel₂] at hs
    cases ho : d₂.bus.offset pa width with
    | error e =>
        rw [Bus.store_ram_error val hr ho] at hs
        cases hs
    | ok off =>
        rw [Bus.store_ram val hr ho] at hs
        cases hs
        exact ⟨_, mmuStore_crossing hcross (translateOrTrap_ok hfirst) (translateOrTrap_ok hnext)
          hram ho, hR.put _ hrel₂⟩
  · rw [← hR.bus hrel] at hs
    rw [mmuStore_within hcross, Run.bind_ok (translateOrTrap_ok hfirst)]
    exact ⟨{ d₁ with bus := b }, Run.zoom_of_some hs, hR.put b hrel⟩

end RiscvEmu.Cpu
