import RiscvEmu.Boot.Loader
import RiscvEmu.Lib.Overlay

/-!
# What the loader loads

A segment fits when its bytes lie in the file and where they go lies in RAM.  The loader goes
through the segments until one does not fit, which it refuses; when all fit, each byte of RAM is
that of the last segment to cover it.  Two things are missing.  A sum over the fields of a header
can overflow before its segment is refused, and the address of `tohost` is not moved with a
position-independent file.
-/

namespace RiscvEmu

namespace Loader

open Overlay

/-! ## Segments -/

/-- The loadable segments, in order. -/
def segments (elf : Elf) : List ProgramHeader :=
  elf.programHeaders.filter fun ph => ph.pType = ptLoad

/-- The address of the first byte of a segment. -/
def memAddr (offset : U64) (ph : ProgramHeader) : Nat := ph.pPaddr.toNat + offset.toNat

/-- The file range of a segment lies in the file. -/
def InFile (bytes : List U8) (ph : ProgramHeader) : Prop :=
  ph.pOffset.toNat + ph.pFilesz.toNat ≤ bytes.length

/-- The load range of a segment lies in RAM. -/
def InRam (offset : U64) (ph : ProgramHeader) : Prop :=
  0x8000_0000 ≤ memAddr offset ph ∧ memAddr offset ph + ph.pFilesz.toNat ≤ 0x9000_0000

def Fits (bytes : List U8) (offset : U64) (ph : ProgramHeader) : Prop :=
  InFile bytes ph ∧ InRam offset ph

/-- A sum that the loader makes for a segment overflows: the end of its file range, its address, or
for one from RAM on with its bytes in the file the end of its load range. -/
def Overflows (bytes : List U8) (offset : U64) (ph : ProgramHeader) : Prop :=
  2 ^ 64 ≤ ph.pOffset.toNat + ph.pFilesz.toNat ∨ 2 ^ 64 ≤ memAddr offset ph ∨
    (0x8000_0000 ≤ memAddr offset ph ∧ InFile bytes ph ∧
      2 ^ 64 ≤ memAddr offset ph + ph.pFilesz.toNat)

/-- No sum overflows for the segments up to the first that does not fit. -/
def NoOverflow (bytes : List U8) (offset : U64) : List ProgramHeader → Prop
  | [] => True
  | ph :: phs => ¬ Overflows bytes offset ph ∧ (Fits bytes offset ph → NoOverflow bytes offset phs)

/-- A segment covers an address. -/
def Loads (offset : U64) (ph : ProgramHeader) (a : Nat) : Prop :=
  memAddr offset ph ≤ a ∧ a < memAddr offset ph + ph.pFilesz.toNat

/-- The file bytes of a segment, at their offset in RAM. -/
def image (bytes : List U8) (offset : U64) (ph : ProgramHeader) : Nat × List U8 :=
  ((ph.pPaddr + offset - ramBase).toNat, (bytes.drop ph.pOffset.toNat).take ph.pFilesz.toNat)

/-! ## The law -/

/-- RAM, the entry point and the address of `tohost` are those of a parsed file. -/
structure Exact (bytes : List U8) (elf : Elf) (l : LoadedElf) : Prop where
  len : l.bus.ram.len = ramSize
  covered : ∀ pre ph post, segments elf = pre ++ ph :: post →
    ∀ a, Loads (loadOffset elf) ph a → (∀ q ∈ post, ¬ Loads (loadOffset elf) q a) →
      bytes[ph.pOffset.toNat + (a - memAddr (loadOffset elf) ph)]? =
        some (l.bus.ram.byte (a - 0x8000_0000))
  uncovered : ∀ a, 0x8000_0000 ≤ a → (∀ ph ∈ segments elf, ¬ Loads (loadOffset elf) ph a) →
    l.bus.ram.byte (a - 0x8000_0000) = 0
  entry : l.entry.toNat = elf.entry.toNat + (loadOffset elf).toNat
  tohost : l.tohostAddr = (tohost elf).map (· + loadOffset elf)

/-- Loading returns; it refuses a file with a segment that does not fit, and what it loads is
exact. -/
def Lawful (parse : List U8 → Option Elf) (bytes : List U8) : Prop :=
  loadElf parse bytes ≠ none ∧ ∀ elf, parse bytes = some elf →
    ((∃ ph ∈ segments elf, ¬ Fits bytes (loadOffset elf) ph) →
        ∃ e, loadElf parse bytes = some (.error e)) ∧
      ∀ l, loadElf parse bytes = some (.ok l) → Exact bytes elf l

/-- No sum overflows before the file is refused, and a position-independent file that is not
refused has no `tohost`. -/
def Plain (bytes : List U8) (elf : Elf) : Prop :=
  NoOverflow bytes (loadOffset elf) (segments elf) ∧
    ((∀ ph ∈ segments elf, Fits bytes (loadOffset elf) ph) →
      elf.entry.toNat + (loadOffset elf).toNat < 2 ^ 64 ∧
        (elf.eType = etDyn → tohost elf = none))

/-! ## One segment -/

section Segment

variable {bytes : List U8} {offset : U64} {ph : ProgramHeader}

theorem checkedAdd_none {a b : U64} (h : 2 ^ 64 ≤ a.toNat + b.toNat) : checkedAdd a b = none :=
  if_neg (Nat.not_lt.mpr h)

theorem checkedAdd_some {a b : U64} (h : a.toNat + b.toNat < 2 ^ 64) :
    checkedAdd a b = some (a + b) ∧ (a + b).toNat = a.toNat + b.toNat :=
  ⟨if_pos h, by rw [BitVec.toNat_add, Nat.mod_eq_of_lt h]⟩

theorem ramBase_toNat : ramBase.toNat = 0x8000_0000 := rfl

theorem ramSize_toNat : ramSize.toNat = 0x1000_0000 := rfl

/-- The offset of an address in RAM. -/
theorem sub_ramBase_toNat {a : U64} (h : 0x8000_0000 ≤ a.toNat) :
    (a - ramBase).toNat = a.toNat - 0x8000_0000 := by
  have hlt := a.isLt
  rw [BitVec.toNat_sub, ramBase_toNat]
  omega

theorem image_length (h : InFile bytes ph) :
    (image bytes offset ph).2.length = ph.pFilesz.toNat := by
  rw [InFile] at h
  rw [image, List.length_take, List.length_drop]
  omega

theorem image_pos (h : Fits bytes offset ph) :
    (image bytes offset ph).1 = memAddr offset ph - 0x8000_0000 := by
  obtain ⟨-, hlow, hhigh⟩ := h
  have haddr : (ph.pPaddr + offset).toNat = memAddr offset ph :=
    (checkedAdd_some (by rw [← memAddr]; omega)).2
  rw [image, sub_ramBase_toNat (haddr ▸ hlow), haddr]

/-- A segment covers what its file bytes do, seen from the base of RAM. -/
theorem image_covers_iff (h : Fits bytes offset ph) {a : Nat} :
    Covers (image bytes offset ph) a ↔ Loads offset ph (0x8000_0000 + a) := by
  have hlow := h.2.1
  rw [Covers, Loads, image_length h.1, image_pos h]
  omega

theorem getRange_in {start n : Nat} (h : start + n ≤ bytes.length) :
    getRange bytes start (start + n) = some ((bytes.drop start).take n) := by
  rw [getRange, if_pos ⟨Nat.le_add_right _ _, h⟩, Nat.add_sub_cancel_left]

theorem getRange_out {start n : Nat} (h : ¬ start + n ≤ bytes.length) :
    getRange bytes start (start + n) = none :=
  if_neg fun hin => h hin.2

/-- A segment overflows a sum, or is refused, or is copied. -/
theorem loadSegment_cases (hload : ph.pType = ptLoad) (ram : Ram) :
    (Overflows bytes offset ph ∧ loadSegment bytes offset ph ram = none) ∨
    (¬ Overflows bytes offset ph ∧ ¬ Fits bytes offset ph ∧
      ∃ e, loadSegment bytes offset ph ram = some (.error e)) ∨
    (¬ Overflows bytes offset ph ∧ Fits bytes offset ph ∧ loadSegment bytes offset ph ram =
      some (.ok { ram with
        byte := put ram.byte (image bytes offset ph).1 (image bytes offset ph).2 })) := by
  rw [loadSegment, if_neg (not_not.mpr hload)]
  rcases Nat.lt_or_ge (ph.pOffset.toNat + ph.pFilesz.toNat) (2 ^ 64) with hfile | hfile
  swap
  · exact Or.inl ⟨Or.inl hfile, by rw [checkedAdd_none hfile]; rfl⟩
  obtain ⟨hfileEnd, hend⟩ := checkedAdd_some hfile
  rcases Nat.lt_or_ge (memAddr offset ph) (2 ^ 64) with hmem | hmem
  swap
  · exact Or.inl ⟨Or.inr (Or.inl hmem), by rw [hfileEnd, checkedAdd_none hmem]; rfl⟩
  obtain ⟨hmemAddr, haddr⟩ := checkedAdd_some hmem
  rw [← memAddr] at haddr
  have hsmall : ¬ Overflows bytes offset ph ↔ ¬ (0x8000_0000 ≤ memAddr offset ph ∧
      InFile bytes ph ∧ 2 ^ 64 ≤ memAddr offset ph + ph.pFilesz.toNat) := by
    rw [Overflows, or_iff_right (Nat.not_le.mpr hfile), or_iff_right (Nat.not_le.mpr hmem)]
  rw [hfileEnd, hmemAddr]
  simp only [Option.bind_eq_bind, Option.bind_some]
  by_cases hlow : ph.pPaddr + offset < ramBase
  · have hbelow : memAddr offset ph < 0x8000_0000 := haddr ▸ BitVec.lt_def.mp hlow
    rw [if_pos hlow]
    exact Or.inr (Or.inl ⟨hsmall.mpr fun h => Nat.not_le.mpr hbelow h.1,
      fun h => Nat.not_le.mpr hbelow h.2.1, _, rfl⟩)
  have hbase : 0x8000_0000 ≤ memAddr offset ph :=
    haddr ▸ Nat.not_lt.mp fun h => hlow (BitVec.lt_def.mpr h)
  rw [if_neg hlow, hend]
  by_cases hin : InFile bytes ph
  swap
  · rw [getRange_out hin]
    exact Or.inr (Or.inl ⟨hsmall.mpr fun h => hin h.2.1, fun h => hin h.1, _, rfl⟩)
  have hlen : BitVec.ofNat 64
      ((bytes.drop ph.pOffset.toNat).take ph.pFilesz.toNat).length = ph.pFilesz := by
    have himage : ((bytes.drop ph.pOffset.toNat).take ph.pFilesz.toNat).length = _ :=
      @image_length bytes offset ph hin
    rw [himage, BitVec.ofNat_toNat, BitVec.setWidth_eq]
  have hoff := sub_ramBase_toNat (haddr.symm ▸ hbase)
  rw [haddr] at hoff
  simp only [getRange_in hin, hlen]
  rcases Nat.lt_or_ge (memAddr offset ph + ph.pFilesz.toNat) (2 ^ 64) with hend' | hend'
  · have hnot : ¬ Overflows bytes offset ph := hsmall.mpr fun h => Nat.not_le.mpr hend' h.2.2
    obtain ⟨hstop, hstopNat⟩ :=
      checkedAdd_some (a := ph.pPaddr + offset - ramBase) (b := ph.pFilesz) (by omega)
    rw [hstop, Option.bind_some]
    by_cases hlarge : ramSize < ph.pPaddr + offset - ramBase + ph.pFilesz
    · rw [if_pos hlarge, (checkedAdd_some (by omega)).1]
      rw [BitVec.lt_def, hstopNat, hoff, ramSize_toNat] at hlarge
      exact Or.inr (Or.inl ⟨hnot, fun h => by have := h.2.2; omega, _, rfl⟩)
    · rw [if_neg hlarge]
      rw [BitVec.lt_def, hstopNat, hoff, ramSize_toNat] at hlarge
      exact Or.inr (Or.inr ⟨hnot, ⟨hin, hbase, by omega⟩, rfl⟩)
  · refine Or.inl ⟨Or.inr (Or.inr ⟨hbase, hin, hend'⟩), ?_⟩
    rcases Nat.lt_or_ge ((ph.pPaddr + offset - ramBase).toNat + ph.pFilesz.toNat) (2 ^ 64) with
      hsum | hsum
    · obtain ⟨hstop, hstopNat⟩ := checkedAdd_some hsum
      have hlarge : ramSize < ph.pPaddr + offset - ramBase + ph.pFilesz := by
        rw [BitVec.lt_def, hstopNat, hoff, ramSize_toNat]
        omega
      rw [hstop, Option.bind_some, if_pos hlarge, checkedAdd_none (by omega)]
      rfl
    · rw [checkedAdd_none hsum]
      rfl

end Segment

/-! ## All segments -/

section Segments

variable {bytes : List U8} {offset : U64}

theorem loadSegment_skip {ph : ProgramHeader} (h : ph.pType ≠ ptLoad) (ram : Ram) :
    loadSegment bytes offset ph ram = some (.ok ram) := if_pos h

/-- Loading overflows a sum before the first segment that does not fit, or is refused there, or
puts all segments one after the other. -/
theorem loadSegments_cases : ∀ (phs : List ProgramHeader) (ram : Ram),
    let segs := phs.filter fun ph => ph.pType = ptLoad
    (¬ NoOverflow bytes offset segs ∧ loadSegments bytes offset phs ram = none) ∨
    (NoOverflow bytes offset segs ∧ (∃ ph ∈ segs, ¬ Fits bytes offset ph) ∧
      ∃ e, loadSegments bytes offset phs ram = some (.error e)) ∨
    (NoOverflow bytes offset segs ∧ (∀ ph ∈ segs, Fits bytes offset ph) ∧
      loadSegments bytes offset phs ram =
        some (.ok { ram with byte := putAll ram.byte (segs.map (image bytes offset)) }))
  | [], ram => Or.inr (Or.inr ⟨trivial, nofun, rfl⟩)
  | ph :: phs, ram => by
      dsimp only
      rw [loadSegments]
      by_cases hload : ph.pType = ptLoad
      swap
      · rw [List.filter_cons_of_neg (by simpa using hload), loadSegment_skip hload]
        exact loadSegments_cases phs ram
      rw [List.filter_cons_of_pos (by simpa using hload)]
      rcases loadSegment_cases hload ram with
        ⟨hover, heq⟩ | ⟨hover, hfits, e, heq⟩ | ⟨hover, hfits, heq⟩
      · rw [heq]
        exact Or.inl ⟨fun h => h.1 hover, rfl⟩
      · rw [heq]
        exact Or.inr (Or.inl ⟨⟨hover, fun h => absurd h hfits⟩,
          ⟨ph, List.mem_cons_self .., hfits⟩, e, rfl⟩)
      · rw [heq]
        dsimp only
        rcases loadSegments_cases phs { ram with
            byte := put ram.byte (image bytes offset ph).1 (image bytes offset ph).2 } with
          ⟨hrest, heq⟩ | ⟨hrest, ⟨q, hq, hout⟩, e, heq⟩ | ⟨hrest, hall, heq⟩
        · exact Or.inl ⟨fun h => hrest (h.2 hfits), heq⟩
        · exact Or.inr (Or.inl ⟨⟨hover, fun _ => hrest⟩, ⟨q, List.mem_cons_of_mem _ hq, hout⟩,
            e, heq⟩)
        · exact Or.inr (Or.inr ⟨⟨hover, fun _ => hrest⟩,
            List.forall_mem_cons.mpr ⟨hfits, hall⟩, heq⟩)

/-- What RAM holds after all segments were put. -/
theorem putAll_images {segs : List ProgramHeader} (hfits : ∀ ph ∈ segs, Fits bytes offset ph) :
    (∀ pre ph post, segs = pre ++ ph :: post → ∀ a, Loads offset ph a →
      (∀ q ∈ post, ¬ Loads offset q a) →
        bytes[ph.pOffset.toNat + (a - memAddr offset ph)]? =
          some (putAll (fun _ => 0) (segs.map (image bytes offset)) (a - 0x8000_0000))) ∧
    ∀ a, 0x8000_0000 ≤ a → (∀ ph ∈ segs, ¬ Loads offset ph a) →
      putAll (fun _ => 0) (segs.map (image bytes offset)) (a - 0x8000_0000) = 0 := by
  have hcovers {ph : ProgramHeader} (hph : ph ∈ segs) {a : Nat} (ha : 0x8000_0000 ≤ a) :
      Covers (image bytes offset ph) (a - 0x8000_0000) ↔ Loads offset ph a := by
    rw [image_covers_iff (hfits ph hph), Nat.add_sub_cancel' ha]
  constructor
  · rintro pre ph post rfl a hloads hpost
    have hph : ph ∈ pre ++ ph :: post := List.mem_append_right _ (List.mem_cons_self ..)
    have hlow := (hfits ph hph).2.1
    have ha : 0x8000_0000 ≤ a := Nat.le_trans hlow hloads.1
    have hpost' : ∀ q ∈ post.map (image bytes offset), ¬ Covers q (a - 0x8000_0000) := by
      intro q hq
      obtain ⟨r, hr, rfl⟩ := List.mem_map.mp hq
      rw [hcovers (List.mem_append_right _ (List.mem_cons_of_mem _ hr)) ha]
      exact hpost r hr
    have hindex : a - 0x8000_0000 - (image bytes offset ph).1 = a - memAddr offset ph := by
      rw [image_pos (hfits ph hph)]
      omega
    have hfile : (image bytes offset ph).2[a - memAddr offset ph]? =
        bytes[ph.pOffset.toNat + (a - memAddr offset ph)]? := by
      rw [image, List.getElem?_take_of_lt (Nat.sub_lt_left_of_lt_add hloads.1 hloads.2),
        List.getElem?_drop]
    rw [List.map_append, List.map_cons, ← hfile, ← hindex]
    exact putAll_last ((hcovers hph ha).mpr hloads) hpost'
  · intro a ha hnone
    refine putAll_uncovered fun q hq => ?_
    obtain ⟨ph, hph, rfl⟩ := List.mem_map.mp hq
    rw [hcovers hph ha]
    exact hnone ph hph

end Segments

/-! ## The loader -/

section Loader

variable {parse : List U8 → Option Elf} {bytes : List U8} {elf : Elf}

/-- Loading a file of 64 bits overflows a sum, or is refused, or fills RAM and moves the entry
point. -/
theorem loadParsed_cases (h64 : elf.is64 = true) :
    (¬ NoOverflow bytes (loadOffset elf) (segments elf) ∧ loadParsed bytes elf = none) ∨
    (NoOverflow bytes (loadOffset elf) (segments elf) ∧
      (∃ ph ∈ segments elf, ¬ Fits bytes (loadOffset elf) ph) ∧
      ∃ e, loadParsed bytes elf = some (.error e)) ∨
    (NoOverflow bytes (loadOffset elf) (segments elf) ∧
      (∀ ph ∈ segments elf, Fits bytes (loadOffset elf) ph) ∧
      loadParsed bytes elf = (checkedAdd elf.entry (loadOffset elf)).map fun entry => .ok
        { bus := { Bus.new ramSize ramBase with
            ram := ⟨putAll (fun _ => 0) ((segments elf).map (image bytes (loadOffset elf))),
              ramSize⟩ }
          entry := entry
          tohostAddr := tohost elf }) := by
  rw [loadParsed, if_neg (by rw [h64]; exact Bool.noConfusion)]
  dsimp only
  rcases loadSegments_cases elf.programHeaders (Bus.new ramSize ramBase).ram with
    ⟨hover, heq⟩ | ⟨hover, hout, e, heq⟩ | ⟨hover, hfits, heq⟩
  · exact Or.inl ⟨hover, by rw [heq]⟩
  · exact Or.inr (Or.inl ⟨hover, hout, e, by rw [heq]⟩)
  · refine Or.inr (Or.inr ⟨hover, hfits, ?_⟩)
    rw [heq]
    dsimp only
    cases checkedAdd elf.entry (loadOffset elf) <;> rfl

/-- A loaded file leaves RAM its size. -/
theorem loadElf_len {l : LoadedElf} (h : loadElf parse bytes = some (.ok l)) :
    l.bus.ram.len = ramSize := by
  rw [loadElf] at h
  split at h
  · cases h
  · rename_i elf _
    cases h64 : elf.is64 with
    | false =>
        rw [loadParsed, if_pos h64] at h
        cases h
    | true =>
        rcases loadParsed_cases h64 with ⟨-, heq⟩ | ⟨-, -, e, heq⟩ | ⟨-, -, heq⟩
        · rw [heq] at h
          cases h
        · rw [heq] at h
          cases h
        · rw [heq] at h
          obtain ⟨entry, -, hl⟩ := Option.map_eq_some_iff.mp h
          cases hl
          rfl

/-- A position-independent file moves what it names. -/
theorem add_loadOffset_eq_iff (elf : Elf) :
    tohost elf = (tohost elf).map (· + loadOffset elf) ↔
      (elf.eType = etDyn → tohost elf = none) := by
  rw [loadOffset]
  cases tohost elf with
  | none => exact iff_of_true rfl fun _ => rfl
  | some x =>
      split
      · rename_i hdyn
        refine iff_of_false (fun heq => ?_) (fun h => nomatch h hdyn)
        have hmoved : x = x + ramBase := Option.some.inj heq
        exact absurd (BitVec.self_eq_add_right.mp hmoved) (by decide)
      · rename_i hfixed
        refine iff_of_true ?_ fun hdyn => absurd hdyn hfixed
        exact congrArg some (BitVec.add_zero x).symm

/-- The loader keeps its law on a file exactly when no sum overflows before the file is refused,
and a position-independent file that it loads has no `tohost`. -/
theorem load_exact_iff (parse : List U8 → Option Elf) (bytes : List U8) :
    Lawful parse bytes ↔ ∀ elf, parse bytes = some elf → elf.is64 = true → Plain bytes elf := by
  rw [Lawful, loadElf]
  cases parse bytes with
  | none => exact iff_of_true ⟨nofun, nofun⟩ nofun
  | some elf =>
      simp only [Option.some.injEq, forall_eq']
      cases h64 : elf.is64 with
      | false =>
          have hrefused : loadParsed bytes elf = some (.error .notElf64) := if_pos h64
          rw [hrefused]
          exact iff_of_true ⟨nofun, fun _ => ⟨_, rfl⟩, nofun⟩ nofun
      | true =>
          rw [Plain, forall_prop_of_true rfl]
          rcases loadParsed_cases h64 with
            ⟨hover, heq⟩ | ⟨hover, hout, e, heq⟩ | ⟨hover, hfits, heq⟩
          · exact iff_of_false (fun h => h.1 heq) fun h => hover h.1
          · obtain ⟨ph, hph, hnot⟩ := hout
            rw [heq]
            exact iff_of_true ⟨nofun, fun _ => ⟨e, rfl⟩, nofun⟩
              ⟨hover, fun hfits => absurd (hfits ph hph) hnot⟩
          · rw [and_iff_right hover, forall_prop_of_true hfits]
            rcases Nat.lt_or_ge (elf.entry.toNat + (loadOffset elf).toNat) (2 ^ 64) with hlt | hle
            · obtain ⟨hentry, hentryNat⟩ := checkedAdd_some hlt
              rw [hentry] at heq
              rw [heq, and_iff_right hlt, ← add_loadOffset_eq_iff]
              obtain ⟨hcovered, huncovered⟩ := putAll_images hfits
              constructor
              · rintro ⟨-, -, hexact⟩
                exact (hexact _ rfl).tohost
              · intro htohost
                refine ⟨nofun, fun ⟨ph, hph, hnot⟩ => absurd (hfits ph hph) hnot, fun l hl => ?_⟩
                cases hl
                exact ⟨rfl, hcovered, huncovered, hentryNat, htohost⟩
            · rw [checkedAdd_none hle] at heq
              exact iff_of_false (fun h => h.1 heq) fun h => Nat.not_le.mpr h.1 hle

/-! ### A header whose file range overflows -/

/-- The header of a file of 64 bits for a fixed address, with one program header after it: a
loadable segment at the base of RAM, of one byte at the last offset there is. -/
def overflowingFile : List U8 :=
  [0x7F, 0x45, 0x4C, 0x46, 2, 1, 1, 0] ++ List.replicate 8 0 ++
    [2, 0, 0xF3, 0, 1, 0, 0, 0] ++ [0, 0, 0, 0x80, 0, 0, 0, 0] ++ [64, 0, 0, 0, 0, 0, 0, 0] ++
    List.replicate 12 0 ++ [64, 0, 56, 0, 1, 0, 0, 0, 0, 0, 0, 0] ++
    [1, 0, 0, 0, 5, 0, 0, 0] ++ List.replicate 8 0xFF ++ [0, 0, 0, 0x80, 0, 0, 0, 0] ++
    [0, 0, 0, 0x80, 0, 0, 0, 0] ++ [1, 0, 0, 0, 0, 0, 0, 0] ++ [1, 0, 0, 0, 0, 0, 0, 0] ++
    [1, 0, 0, 0, 0, 0, 0, 0]

/-- The fields of a file with one program header and no symbols, at their places. -/
def parseOne (bytes : List U8) : Option Elf :=
  let field (pos n : Nat) : U64 := Bytes.readLe (fun a => (bytes[a]?).getD 0) pos n
  some {
    is64 := bytes[4]? = some 2
    eType := (field 16 2).setWidth 16
    entry := field 24 8
    programHeaders := [{
      pType := (field 64 4).setWidth 32
      pOffset := field 72 8
      pPaddr := field 88 8
      pFilesz := field 96 8 }]
    syms := []
    strtab := fun _ => none }

/-- The sum of the offset and the size of the segment aborts the loader. -/
theorem file_range_overflows : ¬ ∀ parse bytes, Lawful parse bytes := fun h =>
  (h parseOne overflowingFile).1 (by decide)

end Loader

end Loader

end RiscvEmu
