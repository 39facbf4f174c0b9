import RiscvEmu.Boot.Loading
import RiscvEmu.Boot.Setup

/-!
# The images in memory

Each image is compared with the end of RAM only, and goes over what is there.  So after a setup
with a device tree all images are whole exactly when any two of them have the same bytes where both
are; the range of the initial RAM disk in the device tree is always the one it was copied to.
-/

namespace RiscvEmu

namespace Setup

open Overlay
open Loader (ramBase loadElf LoadedElf)
open Dtb (initrdBase)

/-! ## Images -/

/-- The bytes of a file that is given, at the offset in RAM of an address. -/
def imageAt (files : String → Option (List U8)) (path : Option String) (physAddr : U64) :
    List (Nat × List U8) :=
  ((path.bind files).map fun bytes => ((physAddr - ramBase).toNat, bytes)).toList

/-- The kernel, the initial RAM disk and the device tree, in the order they are copied. -/
def images (files : String → Option (List U8)) (args : Args) (dtb : List U8) :
    List (Nat × List U8) :=
  imageAt files args.kernel kernelBase ++ imageAt files args.initrd initrdBase ++
    [((dtbBase - ramBase).toNat, dtb)]

/-- A bus with some images in RAM. -/
def withImages (bus : Bus) (ps : List (Nat × List U8)) : Bus :=
  { bus with ram := ⟨putAll bus.ram.byte ps, bus.ram.len⟩ }

def initrdSize (files : String → Option (List U8)) (args : Args) : Nat :=
  ((args.initrd.bind files).getD []).length

/-- The calls that describe the machine for some arguments. -/
def callsFor (files : String → Option (List U8)) (args : Args) : Option (List FdtCall) :=
  Dtb.calls (BitVec.ofNat 64 (initrdSize files args)) args.disk.isSome

/-! ## Reading the device tree -/

/-- A call for a property. -/
def isProperty : FdtCall → Bool
  | .beginNode _ => false
  | .endNode => false
  | _ => true

/-- The properties of the first node of a name, up to the first node in it. -/
def nodeProperties (name : String) (cs : List FdtCall) : List FdtCall :=
  ((cs.dropWhile fun c => c ≠ .beginNode name).tail).takeWhile isProperty

/-- The value of a property of 64 bits. -/
def property64 (name : String) (cs : List FdtCall) : Option U64 :=
  cs.findSome? fun c =>
    match c with
    | .propertyU64 n val => if n = name then some val else none
    | _ => none

/-- The range of the initial RAM disk that the device tree names. -/
def initrdRange (cs : List FdtCall) : Option (U64 × U64) := do
  let chosen := nodeProperties "chosen" cs
  let start ← property64 "linux,initrd-start" chosen
  let stop ← property64 "linux,initrd-end" chosen
  return (start, stop)

/-! ## The law -/

/-- All images are in RAM as a whole, and the device tree names the range of the initial RAM disk,
when that has any bytes. -/
def Complete (write : List FdtCall → Option (List U8)) (files : String → Option (List U8))
    (args : Args) (cpu : Cpu) : Prop :=
  ∃ cs dtb, callsFor files args = some cs ∧ write cs = some dtb ∧
    (∀ p ∈ images files args dtb,
      p.1 + p.2.length ≤ cpu.bus.ram.len.toNat ∧ Shows cpu.bus.ram.byte p) ∧
    initrdRange cs = if initrdSize files args = 0 then none
      else some (initrdBase, initrdBase + BitVec.ofNat 64 (initrdSize files args))

/-- A setup with a device tree that is accepted is complete. -/
def Lawful (parse : List U8 → Option Elf) (write : List FdtCall → Option (List U8))
    (files : String → Option (List U8)) (isTerminal : Bool) (args : Args) : Prop :=
  ∀ cpu, args.dtb = true → setup parse write files isTerminal args = some (.ok cpu) →
    Complete write files args cpu

/-- The files and the device tree are ones that the setup takes: the ELF file loads, every file
that is named is there, and every image ends within RAM. -/
structure Accepts (parse : List U8 → Option Elf) (files : String → Option (List U8)) (args : Args)
    (dtb : List U8) : Prop where
  loads : ∃ bytes loaded, files args.binary = some bytes ∧ loadElf parse bytes = some (.ok loaded)
  given : ∀ path, some path ∈ [args.kernel, args.initrd, args.disk] → (files path).isSome
  fits : ∀ p ∈ images files args dtb, p.1 + p.2.length ≤ 0x1000_0000

/-- Any two images have the same bytes where both are. -/
def NoClash (parse : List U8 → Option Elf) (write : List FdtCall → Option (List U8))
    (files : String → Option (List U8)) (args : Args) : Prop :=
  args.dtb = true → ∀ cs dtb, callsFor files args = some cs → write cs = some dtb →
    Accepts parse files args dtb → (images files args dtb).Pairwise Agree

/-! ## The device tree -/

/-- The properties of the chosen node. -/
theorem chosen_properties (hasDisk : Bool) {initrd : List FdtCall} (rest : List FdtCall)
    (h : ∀ c ∈ initrd, isProperty c) :
    nodeProperties "chosen" (Dtb.rootCalls ++ Dtb.chosenCalls hasDisk initrd ++ rest) =
      [.propertyString "stdout-path" "/soc/serial@10000000",
        .propertyString "bootargs" (if hasDisk then Dtb.diskBootargs else Dtb.initrdBootargs)] ++
      initrd := by
  have hprops : (initrd ++ .endNode :: rest).takeWhile isProperty = initrd := by
    rw [List.takeWhile_append_of_pos h, List.takeWhile_cons_of_neg (by decide), List.append_nil]
  have htail : ((Dtb.rootCalls ++ Dtb.chosenCalls hasDisk initrd ++ rest).dropWhile
      fun c => c ≠ .beginNode "chosen").tail =
      .propertyString "stdout-path" "/soc/serial@10000000" ::
        .propertyString "bootargs" (if hasDisk then Dtb.diskBootargs else Dtb.initrdBootargs) ::
        (initrd ++ .endNode :: rest) := by
    simp [Dtb.rootCalls, Dtb.chosenCalls]
  rw [nodeProperties, htail, List.takeWhile_cons_of_pos rfl, List.takeWhile_cons_of_pos rfl, hprops]
  rfl

/-- The device tree names the range of an initial RAM disk that has any bytes. -/
theorem initrdRange_calls {n : U64} {hasDisk : Bool} {cs : List FdtCall}
    (h : Dtb.calls n hasDisk = some cs) :
    initrdRange cs = if n = 0 then none else some (initrdBase, initrdBase + n) := by
  obtain ⟨initrd, hinitrd, rfl⟩ := Option.map_eq_some_iff.mp h
  rw [Dtb.initrdCalls] at hinitrd
  rw [initrdRange, List.append_assoc, List.append_assoc, List.append_assoc]
  split at hinitrd
  · rename_i hpos
    have hne : n ≠ 0 := fun h => absurd (h ▸ hpos) (by decide)
    obtain ⟨stop, hstop, hinitrd⟩ := Option.bind_eq_some_iff.mp hinitrd
    rw [Loader.checkedAdd] at hstop
    split at hstop <;> cases hstop
    cases hinitrd
    rw [chosen_properties hasDisk _ (by simp [isProperty]), if_neg hne]
    simp [property64]
  · rename_i hpos
    have hzero : n = 0 := by
      rw [BitVec.lt_def] at hpos
      exact BitVec.eq_of_toNat_eq (Nat.eq_zero_of_not_pos hpos)
    cases hinitrd
    rw [chosen_properties hasDisk _ (List.forall_mem_nil _), if_pos hzero]
    simp [property64]

/-! ## The setup -/

section Steps

variable {files : String → Option (List U8)} {bus bus' : Bus} {path : Option String}
  {physAddr : U64} {n : Nat}

/-- A file that may not be given is copied when it is there and fits. -/
theorem loadGiven_eq_ok_iff : loadGiven files bus path physAddr = .ok (bus', n) ↔
    (∀ p, path = some p → (files p).isSome) ∧
    (∀ q ∈ imageAt files path physAddr, q.1 + q.2.length ≤ bus.ram.len.toNat) ∧
    bus' = withImages bus (imageAt files path physAddr) ∧
    n = ((path.bind files).getD []).length := by
  cases path with
  | none =>
      have hnone : imageAt files none physAddr = [] := rfl
      rw [loadGiven, hnone]
      constructor
      · intro h
        cases h
        exact ⟨nofun, nofun, rfl, rfl⟩
      · rintro ⟨-, -, rfl, rfl⟩
        rfl
  | some p =>
      rw [loadGiven, loadRaw]
      cases hfile : files p with
      | none =>
          refine iff_of_false nofun fun h => ?_
          have hsome := h.1 p rfl
          rw [hfile] at hsome
          cases hsome
      | some bytes =>
          have himage : imageAt files (some p) physAddr =
              [((physAddr - ramBase).toNat, bytes)] := by
            rw [imageAt, Option.bind_some, hfile]
            rfl
          rw [himage, Option.bind_some, hfile]
          dsimp only
          have hlen := bus.ram.len.isLt
          split
          · rename_i hover
            refine iff_of_false nofun fun h => ?_
            have hfits := h.2.1 _ (List.mem_singleton_self _)
            dsimp only at hfits
            omega
          · split
            · rename_i hlarge
              refine iff_of_false nofun fun h => ?_
              exact Nat.not_le.mpr hlarge (h.2.1 _ (List.mem_singleton_self _))
            · rename_i hfits
              constructor
              · intro h
                cases h
                refine ⟨fun q hq => ?_, ?_, rfl, rfl⟩
                · cases hq
                  rw [hfile]
                  rfl
                · intro q hq
                  obtain rfl := List.mem_singleton.mp hq
                  exact Nat.not_lt.mp hfits
              · rintro ⟨-, -, rfl, rfl⟩
                rfl

/-- Attaching a disk that is there leaves RAM. -/
theorem attachDisk_iff {ram' : Ram} :
    (∃ bus', attachDisk files bus path = .ok bus' ∧ bus'.ram = ram') ↔
      (∀ p, path = some p → (files p).isSome) ∧ ram' = bus.ram := by
  cases path with
  | none =>
      constructor
      · rintro ⟨_, h, rfl⟩
        cases h
        exact ⟨nofun, rfl⟩
      · rintro ⟨-, rfl⟩
        exact ⟨bus, rfl, rfl⟩
  | some p =>
      rw [attachDisk]
      cases hfile : files p with
      | none =>
          refine iff_of_false (fun ⟨_, h, _⟩ => nomatch h) fun h => ?_
          have hsome := h.1 p rfl
          rw [hfile] at hsome
          cases hsome
      | some content =>
          constructor
          · rintro ⟨_, h, rfl⟩
            cases h
            refine ⟨fun q hq => ?_, rfl⟩
            cases hq
            rw [hfile]
            rfl
          · rintro ⟨-, rfl⟩
            exact ⟨_, rfl, rfl⟩

/-- The images of the files are copied one after the other, when all files are there and fit. -/
theorem loadImages_iff {args : Args} {ram' : Ram} {size : U64} :
    (∃ bus', loadImages files args bus = .ok (bus', size) ∧ bus'.ram = ram') ↔
      (∀ p, some p ∈ [args.kernel, args.initrd, args.disk] → (files p).isSome) ∧
      (∀ q ∈ imageAt files args.kernel kernelBase ++ imageAt files args.initrd initrdBase,
        q.1 + q.2.length ≤ bus.ram.len.toNat) ∧
      ram' = (withImages bus
        (imageAt files args.kernel kernelBase ++ imageAt files args.initrd initrdBase)).ram ∧
      size = BitVec.ofNat 64 (initrdSize files args) := by
  constructor
  · rintro ⟨bus', h, rfl⟩
    rw [loadImages] at h
    rcases hkernel : loadGiven files bus args.kernel kernelBase with e | ⟨bus₁, n₁⟩
    · rw [hkernel] at h
      cases h
    rcases hinitrd : loadGiven files bus₁ args.initrd initrdBase with e | ⟨bus₂, n₂⟩
    · rw [hkernel] at h
      simp only [bind, Except.bind, hinitrd] at h
      cases h
    rcases hdisk : attachDisk files bus₂ args.disk with e | bus₃
    · rw [hkernel] at h
      simp only [bind, Except.bind, hinitrd, hdisk] at h
      cases h
    rw [hkernel] at h
    simp only [bind, Except.bind, hinitrd, hdisk] at h
    cases h
    obtain ⟨hgiven₁, hfits₁, rfl, -⟩ := loadGiven_eq_ok_iff.mp hkernel
    obtain ⟨hgiven₂, hfits₂, rfl, rfl⟩ := loadGiven_eq_ok_iff.mp hinitrd
    obtain ⟨hgiven₃, hram⟩ := attachDisk_iff.mp ⟨_, hdisk, rfl⟩
    refine ⟨fun p hp => ?_, List.forall_mem_append.mpr ⟨hfits₁, hfits₂⟩, ?_, rfl⟩
    · simp only [List.mem_cons, List.not_mem_nil, or_false] at hp
      rcases hp with hp | hp | hp
      · exact hgiven₁ p hp.symm
      · exact hgiven₂ p hp.symm
      · exact hgiven₃ p hp.symm
    · rw [hram, withImages, withImages, withImages, putAll_append]
  · rintro ⟨hgiven, hfits, rfl, rfl⟩
    obtain ⟨hfits₁, hfits₂⟩ := List.forall_mem_append.mp hfits
    have hkernel : loadGiven files bus args.kernel kernelBase =
        .ok (withImages bus (imageAt files args.kernel kernelBase), _) :=
      loadGiven_eq_ok_iff.mpr ⟨fun p hp => hgiven p (by simp [hp]), hfits₁, rfl, rfl⟩
    have hinitrd : loadGiven files (withImages bus (imageAt files args.kernel kernelBase))
        args.initrd initrdBase = .ok (withImages _ (imageAt files args.initrd initrdBase), _) :=
      loadGiven_eq_ok_iff.mpr ⟨fun p hp => hgiven p (by simp [hp]), hfits₂, rfl, rfl⟩
    obtain ⟨bus₃, hdisk, hram⟩ := attachDisk_iff.mpr
      ⟨fun p (hp : args.disk = some p) => hgiven p (by simp [hp]),
        @rfl _ (withImages (withImages bus (imageAt files args.kernel kernelBase))
          (imageAt files args.initrd initrdBase)).ram⟩
    refine ⟨bus₃, ?_, hram.trans ?_⟩
    · rw [loadImages, hkernel]
      simp only [bind, Except.bind, hinitrd, hdisk]
      rfl
    · rw [withImages, withImages, withImages, putAll_append]

end Steps

section Setup

/-- Images that go over others. -/
theorem withImages_append {bus bus' : Bus} {pre post : List (Nat × List U8)}
    (h : bus'.ram = (withImages bus pre).ram) :
    (withImages bus' post).ram = (withImages bus (pre ++ post)).ram := by
  rw [withImages, withImages, h, withImages, putAll_append]

variable {parse : List U8 → Option Elf} {write : List FdtCall → Option (List U8)}
  {files : String → Option (List U8)} {isTerminal : Bool} {args : Args} {cpu : Cpu} {ram' : Ram}

theorem ram_len {bytes : List U8} {loaded : LoadedElf}
    (h : loadElf parse bytes = some (.ok loaded)) : loaded.bus.ram.len.toNat = 0x1000_0000 := by
  rw [Loader.loadElf_len h, Loader.ramSize_toNat]

/-- The device tree goes over what is there, when it fits. -/
theorem installDtb_iff {size : U64} {hasDisk : Bool} :
    (∃ cpu', installDtb write size hasDisk cpu = some (.ok cpu') ∧ cpu'.bus.ram = ram') ↔
      ∃ cs dtb, Dtb.calls size hasDisk = some cs ∧ write cs = some dtb ∧
        (dtbBase - ramBase).toNat + dtb.length ≤ cpu.bus.ram.len.toNat ∧
        ram' = (withImages cpu.bus [((dtbBase - ramBase).toNat, dtb)]).ram := by
  rw [installDtb, Dtb.buildDtb]
  cases hcalls : Dtb.calls size hasDisk with
  | none => exact iff_of_false (fun ⟨_, h, _⟩ => nomatch h) fun ⟨_, _, h, _⟩ => nomatch h
  | some cs =>
      cases hwrite : write cs with
      | none =>
          rw [Option.map_some, hwrite]
          refine iff_of_false (fun ⟨_, h, _⟩ => nomatch h) fun ⟨_, _, h, hdtb, _⟩ => ?_
          cases h
          rw [hwrite] at hdtb
          cases hdtb
      | some dtb =>
          rw [Option.map_some, hwrite]
          dsimp only
          constructor
          · rintro ⟨cpu', h, rfl⟩
            split at h
            · cases h
            · rename_i hfits
              cases h
              exact ⟨cs, dtb, rfl, hwrite, Nat.not_lt.mp hfits, rfl⟩
          · rintro ⟨_, _, h, hdtb, hfits, rfl⟩
            cases h
            rw [hwrite] at hdtb
            cases hdtb
            rw [if_neg (Nat.not_lt.mpr hfits)]
            exact ⟨_, rfl, rfl⟩

/-- A setup with a device tree is accepted when the ELF file loads, all files are there and all
images fit, and leaves the images in RAM one after the other. -/
theorem setup_iff (hdtb : args.dtb = true) :
    (∃ cpu, setup parse write files isTerminal args = some (.ok cpu) ∧ cpu.bus.ram = ram') ↔
      ∃ bytes loaded cs dtb, files args.binary = some bytes ∧
        loadElf parse bytes = some (.ok loaded) ∧ callsFor files args = some cs ∧
        write cs = some dtb ∧ Accepts parse files args dtb ∧
        ram' = (withImages loaded.bus (images files args dtb)).ram := by
  have hready (cpu : Cpu) : (if isTerminal then cpu else { cpu with
      bus := { cpu.bus with uart := { cpu.bus.uart with stdinReady := true } } }).bus.ram =
        cpu.bus.ram := by
    cases isTerminal <;> rfl
  have hflag (path : Option String) : ¬ (path.isSome ∧ args.dtb = false) := fun h => by
    rw [hdtb] at h
    cases h.2
  rw [setup]
  constructor
  · rintro ⟨cpu, h, rfl⟩
    cases hbinary : files args.binary with
    | none =>
        rw [hbinary] at h
        cases h
    | some bytes =>
        rw [hbinary] at h
        dsimp only at h
        rcases hload : loadElf parse bytes with _ | e | loaded
        · rw [hload] at h
          cases h
        · rw [hload] at h
          cases h
        · rw [hload] at h
          dsimp only at h
          rw [if_neg (hflag _), if_neg (hflag _)] at h
          rcases himages : loadImages files args loaded.bus with e | ⟨bus, size⟩
          · rw [himages] at h
            cases h
          · rw [himages] at h
            dsimp only at h
            rw [if_pos hdtb] at h
            obtain ⟨r, hinstall, heq⟩ := Option.map_eq_some_iff.mp h
            cases r with
            | error e => cases heq
            | ok cpu' =>
                cases heq
                obtain ⟨hgiven, hfits, hram, rfl⟩ := loadImages_iff.mp ⟨bus, himages, rfl⟩
                obtain ⟨cs, dtb, hcalls, hwrite, hdtbFits, hram'⟩ :=
                  installDtb_iff.mp ⟨cpu', hinstall, rfl⟩
                have hlen := ram_len hload
                have hkept : (Cpu.new bus loaded.entry).bus.ram.len.toNat = 0x1000_0000 := by
                  rw [Cpu.new, hram]
                  exact hlen
                rw [hlen] at hfits
                rw [hkept] at hdtbFits
                refine ⟨bytes, loaded, cs, dtb, rfl, hload, hcalls, hwrite,
                  ⟨⟨bytes, loaded, hbinary, hload⟩, hgiven,
                    List.forall_mem_append.mpr ⟨hfits, List.forall_mem_singleton.mpr hdtbFits⟩⟩, ?_⟩
                exact (hready cpu').trans (hram'.trans (withImages_append hram))
  · rintro ⟨bytes, loaded, cs, dtb, hbinary, hload, hcalls, hwrite, haccepts, rfl⟩
    have hlen := ram_len hload
    obtain ⟨hfits, hdtbFits⟩ := List.forall_mem_append.mp haccepts.fits
    rw [← hlen] at hfits hdtbFits
    obtain ⟨bus, himages, hram⟩ := loadImages_iff.mpr ⟨haccepts.given, hfits, rfl, rfl⟩
    have hroom : (dtbBase - ramBase).toNat + dtb.length ≤
        (Cpu.new bus loaded.entry).bus.ram.len.toNat := by
      rw [Cpu.new, hram]
      exact hdtbFits _ (List.mem_singleton_self _)
    obtain ⟨cpu', hinstall, hram'⟩ := installDtb_iff.mpr ⟨cs, dtb, hcalls, hwrite, hroom, rfl⟩
    refine ⟨_, ?_, (hready cpu').trans (hram'.trans (withImages_append hram))⟩
    rw [hbinary]
    dsimp only
    rw [hload]
    dsimp only
    rw [if_neg (hflag _), if_neg (hflag _), himages]
    dsimp only
    rw [if_pos hdtb, hinstall]
    rfl

/-- An initial RAM disk that fits is no larger than RAM. -/
theorem initrdSize_le {dtb : List U8}
    (hfits : ∀ p ∈ images files args dtb, p.1 + p.2.length ≤ 0x1000_0000) :
    initrdSize files args ≤ 0x1000_0000 := by
  rw [initrdSize]
  cases hinitrd : args.initrd.bind files with
  | none => exact Nat.zero_le _
  | some bytes =>
      have himage : ((initrdBase - ramBase).toNat, bytes) ∈ images files args dtb := by
        simp only [images, imageAt, hinitrd, List.mem_append]
        exact Or.inl (Or.inr (List.mem_singleton_self _))
      exact Nat.le_trans (Nat.le_add_left _ _) (hfits _ himage)

/-- All images are in RAM as a whole exactly when they agree. -/
theorem complete_iff {loaded : LoadedElf} {cs : List FdtCall} {dtb : List U8}
    (hload : loaded.bus.ram.len.toNat = 0x1000_0000) (hcalls : callsFor files args = some cs)
    (hwrite : write cs = some dtb)
    (hfits : ∀ p ∈ images files args dtb, p.1 + p.2.length ≤ 0x1000_0000)
    (hram : cpu.bus.ram = (withImages loaded.bus (images files args dtb)).ram) :
    Complete write files args cpu ↔ (images files args dtb).Pairwise Agree := by
  rw [← shows_all_iff loaded.bus.ram.byte, Complete, hram]
  constructor
  · rintro ⟨cs', dtb', hcalls', hwrite', hshows, -⟩
    cases hcalls.symm.trans hcalls'
    cases hwrite.symm.trans hwrite'
    exact fun p hp => (hshows p hp).2
  · intro hshows
    refine ⟨cs, dtb, hcalls, hwrite, fun p hp => ⟨?_, hshows p hp⟩, ?_⟩
    · exact Nat.le_trans (hfits p hp) (Nat.le_of_eq hload.symm)
    · have hsmall : BitVec.ofNat 64 (initrdSize files args) = 0 ↔ initrdSize files args = 0 := by
        have hle := initrdSize_le hfits
        rw [← BitVec.toNat_inj, BitVec.toNat_ofNat, Nat.mod_eq_of_lt (by omega)]
        rfl
      rw [initrdRange_calls hcalls]
      simp only [hsmall]

/-- A setup with a device tree is complete whenever it is accepted exactly when no two images that
it accepts have different bytes where both are. -/
theorem images_whole_iff (parse : List U8 → Option Elf) (write : List FdtCall → Option (List U8))
    (files : String → Option (List U8)) (isTerminal : Bool) (args : Args) :
    Lawful parse write files isTerminal args ↔ NoClash parse write files args := by
  constructor
  · intro h hdtb cs dtb hcalls hwrite haccepts
    obtain ⟨bytes, loaded, hbinary, hload⟩ := haccepts.loads
    obtain ⟨cpu, hsetup, hram⟩ := (setup_iff hdtb).mpr
      ⟨bytes, loaded, cs, dtb, hbinary, hload, hcalls, hwrite, haccepts, rfl⟩
    exact (complete_iff (ram_len hload) hcalls hwrite haccepts.fits hram).mp (h cpu hdtb hsetup)
  · intro h cpu hdtb hsetup
    obtain ⟨bytes, loaded, cs, dtb, hbinary, hload, hcalls, hwrite, haccepts, hram⟩ :=
      (setup_iff hdtb).mp ⟨cpu, hsetup, rfl⟩
    exact (complete_iff (ram_len hload) hcalls hwrite haccepts.fits hram).mpr
      (h hdtb cs dtb hcalls hwrite haccepts)

theorem mem_imageAt {path : Option String} {physAddr : U64} {p : Nat × List U8}
    (h : p ∈ imageAt files path physAddr) :
    p.1 = (physAddr - ramBase).toNat ∧ path.bind files = some p.2 := by
  obtain ⟨bytes, hbytes, rfl⟩ := Option.map_eq_some_iff.mp (Option.mem_toList.mp h)
  exact ⟨rfl, hbytes⟩

theorem imageAt_pairwise (path : Option String) (physAddr : U64) :
    (imageAt files path physAddr).Pairwise Agree := by
  rw [imageAt]
  cases path.bind files with
  | none => exact List.Pairwise.nil
  | some bytes => exact List.pairwise_singleton _ _

/-- A kernel that ends before the device tree, which ends before the initial RAM disk, clash with
nothing. -/
theorem noClash_of_small
    (hkernel : ∀ bytes, args.kernel.bind files = some bytes → bytes.length ≤ 0x200_0000)
    (htree : ∀ cs dtb, callsFor files args = some cs → write cs = some dtb →
      dtb.length ≤ 0x3E0_0000) : NoClash parse write files args := by
  intro _ cs dtb hcalls hwrite _
  have hlen := htree cs dtb hcalls hwrite
  have hkernelAt : (kernelBase - ramBase).toNat = 0x20_0000 := rfl
  have hinitrdAt : (initrdBase - ramBase).toNat = 0x600_0000 := rfl
  have htreeAt : (dtbBase - ramBase).toNat = 0x220_0000 := rfl
  rw [images, htreeAt]
  refine List.pairwise_append.mpr ⟨List.pairwise_append.mpr
    ⟨imageAt_pairwise .., imageAt_pairwise .., fun p hp q hq => ?_⟩, List.pairwise_singleton _ _,
    fun p hp q hq => ?_⟩
  · obtain ⟨hp₁, hp₂⟩ := mem_imageAt hp
    obtain ⟨hq₁, -⟩ := mem_imageAt hq
    have hsize := hkernel _ hp₂
    exact agree_of_apart (Or.inl (by omega))
  · obtain rfl := List.mem_singleton.mp hq
    rcases List.mem_append.mp hp with hp | hp
    · obtain ⟨hp₁, hp₂⟩ := mem_imageAt hp
      have hsize := hkernel _ hp₂
      exact agree_of_apart (Or.inl (by dsimp only; omega))
    · obtain ⟨hp₁, -⟩ := mem_imageAt hp
      exact agree_of_apart (Or.inr (by dsimp only; omega))

end Setup

/-! ### A kernel that reaches the device tree -/

/-- A firmware file without a segment to load. -/
def firmware : List U8 := Loader.overflowingFile.set 64 0

/-- A flattened tree: it begins with the magic number of such trees. -/
def flatTree : List U8 := [0xD0, 0x0D, 0xFE, 0xED] ++ List.replicate 61 0

def bootFiles (kernel : List U8) (path : String) : Option (List U8) :=
  if path = "firmware" then some firmware else if path = "kernel" then some kernel else none

def bootArgs : Args where
  binary := "firmware"
  dtb := true
  kernel := some "kernel"
  initrd := none
  disk := none

section Boot

variable {kernel : List U8}

theorem boot_images : images (bootFiles kernel) bootArgs flatTree =
    [(0x20_0000, kernel), (0x220_0000, flatTree)] := rfl

theorem boot_accepts (hlen : kernel.length = 0x200_0001) :
    Accepts Loader.parseOne (bootFiles kernel) bootArgs flatTree where
  loads := ⟨firmware, _, rfl, rfl⟩
  given path hpath := by
    rcases List.mem_cons.mp hpath with heq | hrest
    · cases heq
      rfl
    · simp [bootArgs] at hrest
  fits := by
    rw [boot_images]
    refine List.forall_mem_cons.mpr ⟨?_, List.forall_mem_singleton.mpr (by decide)⟩
    rw [hlen]
    exact (by decide : 0x20_0000 + 0x200_0001 ≤ 0x1000_0000)

/-- A kernel one byte longer than the room below the device tree is taken, and not whole. -/
theorem boot_not_lawful (hlen : kernel.length = 0x200_0001) (hbyte : kernel[0x200_0000]? = some 0) :
    ¬ Lawful Loader.parseOne (fun _ => some flatTree) (bootFiles kernel) true bootArgs := by
  intro h
  have haccepts := boot_accepts hlen
  obtain ⟨bytes, loaded, hbinary, hload⟩ := haccepts.loads
  obtain ⟨cs, hcalls⟩ : ∃ cs, callsFor (bootFiles kernel) bootArgs = some cs := ⟨_, rfl⟩
  have hstarts : ∃ cpu, setup Loader.parseOne (fun _ => some flatTree) (bootFiles kernel) true
      bootArgs = some (.ok cpu) ∧ cpu.bus.ram = _ :=
    (setup_iff rfl).mpr ⟨bytes, loaded, cs, flatTree, hbinary, hload, hcalls, rfl, haccepts, rfl⟩
  obtain ⟨cpu, hsetup, hram⟩ := hstarts
  have hagree := (complete_iff (ram_len hload) hcalls rfl haccepts.fits hram).mp (h cpu rfl hsetup)
  rw [boot_images] at hagree
  have hcovers : Covers (0x20_0000, kernel) 0x220_0000 := by
    rw [Covers, hlen]
    exact ⟨(by decide : 0x20_0000 ≤ 0x220_0000), (by decide : 0x220_0000 < 0x20_0000 + 0x200_0001)⟩
  have hlast := List.rel_of_pairwise_cons hagree (List.mem_singleton_self _) 0x220_0000 hcovers
    ⟨by decide, by decide⟩
  dsimp only at hlast
  rw [show 0x220_0000 - 0x20_0000 = 0x200_0000 from rfl, hbyte, Nat.sub_self] at hlast
  exact absurd hlast (by decide)

end Boot

/-- The device tree goes over the last byte of such a kernel. -/
theorem dtb_overwrites_kernel :
    ¬ ∀ parse write files isTerminal args, Lawful parse write files isTerminal args := by
  intro h
  have hbyte : (List.replicate 0x200_0001 (0 : U8))[0x200_0000]? = some 0 := by
    rw [List.getElem?_replicate]
    exact if_pos (by decide)
  exact boot_not_lawful List.length_replicate hbyte (h _ _ _ _ _)

end Setup

end RiscvEmu
