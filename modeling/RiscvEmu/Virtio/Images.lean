import RiscvEmu.Virtio.Queue
import RiscvEmu.Lib.Overlay

/-!
# What serving an entry writes

The images that serving the next entry puts in memory, one after the other, worked out from the
memory and the disk before: the buffers a read fills, each with the bytes the disk has for it, the
status byte, the used slot and the used index.  A read ends at a buffer outside RAM, and at one that
the disk ends in, which gets the bytes there are.  Without a disk only the status byte is written
before the completion.  What no image covers keeps its value.
-/

namespace RiscvEmu

namespace VirtioBlk

/-! ## Images -/

/-- The images of a read from a position on the disk, and whether it fills all its buffers. -/
def readImages (ram : Ram) (base : U64) (content : List U8) :
    List Desc → Nat → List (Nat × List U8) × Bool
  | [], _ => ([], true)
  | d :: ds, pos =>
      if d.flags &&& descFWrite = 0 then readImages ram base content ds pos
      else if outOfRam ram base d then ([], false)
      else
        let bs := (content.drop pos).take d.len.toNat
        if bs.length = d.len.toNat then
          let (images, ok) := readImages ram base content ds (pos + d.len.toNat)
          (((d.addr - base).toNat, bs) :: images, ok)
        else ([((d.addr - base).toNat, bs)], false)

/-- Whether a write to a position on the disk takes all its buffers. -/
def takesAll (ram : Ram) (base : U64) : List Desc → Nat → Bool
  | [], _ => true
  | d :: ds, pos =>
      if d.flags &&& descFWrite ≠ 0 then takesAll ram base ds pos
      else !outOfRam ram base d &&
        decide (d.len.toNat = 0 ∨ pos + d.len.toNat < 2 ^ 63) &&
        takesAll ram base ds (pos + d.len.toNat)

/-- The images of a transfer of the given type and starting byte, and whether it succeeds. -/
def transferImages (ram : Ram) (base : U64) (reqType : U32) (byteOff : U64) (data : List Desc)
    (content : List U8) : List (Nat × List U8) × Bool :=
  if reqType = tIn then
    if byteOff.toNat < 2 ^ 63 then readImages ram base content data byteOff.toNat else ([], false)
  else if reqType = tOut then
    ([], decide (byteOff.toNat < 2 ^ 63) && takesAll ram base data byteOff.toNat)
  else ([], decide (reqType = tFlush))

/-- The images of a request with the given descriptors. -/
def requestImages (v : VirtioBlk) (ram : Ram) (base : U64) : List Desc → List (Nat × List U8)
  | first :: second :: rest =>
      let status := ((second :: rest).getLast (List.cons_ne_nil _ _)).addr
      match v.disk with
      | none => [((status - base).toNat, [sIoErr])]
      | some disk =>
          let (images, ok) := transferImages ram base (typeAt ram.byte (first.addr - base).toNat)
            (Bytes.readLe ram.byte (first.addr + 8 - base).toNat 8 * sectorSize)
            (second :: rest).dropLast disk.content
          images ++ [((status - base).toNat, [if ok then sOk else sIoErr])]
  | _ => []

/-- The images of the request that is served next. -/
def nextImages (v : VirtioBlk) (ram : Ram) (base : U64) : List (Nat × List U8) :=
  v.requestImages ram base (v.request base ram.byte (v.headAt base ram.byte v.lastAvailIdx))

/-- The images of serving the next entry.  The used slot is the one that the used index selects
once the request has written its images. -/
def serveImages (v : VirtioBlk) (ram : Ram) (base : U64) : List (Nat × List U8) :=
  let idx := v.usedIdx base (Overlay.putAll ram.byte (v.nextImages ram base))
  let elem := (v.usedEntry (slot idx) - base).toNat
  let head : U32 := (v.headAt base ram.byte v.lastAvailIdx).setWidth 32
  v.nextImages ram base ++
    [(elem, Bytes.leBytes 4 (head.setWidth 64)), (elem + 4, Bytes.leBytes 4 0),
      ((v.usedAddr + 2 - base).toNat, Bytes.leBytes 2 ((idx + 1).setWidth 64))]

/-! ## The memory afterwards -/

section Serving

variable {v v' : VirtioBlk} {ram ram₁ ram' : Ram} {base : U64} {disk disk' : Disk} {ok : Bool}

theorem outOfRam_len (d : Desc) (h : ram₁.len = ram.len) :
    outOfRam ram₁ base d = outOfRam ram base d := by
  rw [outOfRam, outOfRam, h]

theorem readExact_returned {n : Nat} {bs : List U8} (h : disk.readExact n = (ok, bs, disk')) :
    bs = (disk.content.drop disk.cursor).take n ∧ ok = (bs.length == n) ∧
      disk' = ⟨disk.content, disk.cursor + bs.length⟩ := by
  cases h
  exact ⟨rfl, rfl, rfl⟩

/-- A read fills the buffers as its images say.  The buffers before may have changed the memory. -/
theorem readData_images : ∀ {ds : List Desc} {disk disk' : Disk} {ram₁ ram' : Ram} {ok : Bool},
    ram₁.len = ram.len → readData base ds disk ram₁ = some (ok, disk', ram') →
      ram'.byte = Overlay.putAll ram₁.byte (readImages ram base disk.content ds disk.cursor).1 ∧
        ok = (readImages ram base disk.content ds disk.cursor).2
  | [], _, _, _, _, _, _, h => by
      cases h
      exact ⟨rfl, rfl⟩
  | d :: ds, disk, disk', ram₁, ram', ok, hlen, h => by
      rw [readData, outOfRam_len d hlen] at h
      rw [readImages]
      split at h
      · rename_i hskip
        rw [if_pos hskip]
        exact readData_images hlen h
      · rename_i hfill
        rw [if_neg hfill]
        split at h
        · rename_i hout
          cases h
          rw [if_pos hout]
          exact ⟨rfl, rfl⟩
        · rename_i hin
          rw [if_neg hin]
          obtain ⟨_, _, h⟩ := Option.bind_eq_some_iff.mp h
          rcases hread : disk.readExact d.len.toNat with ⟨full, bs, disk₁⟩
          obtain ⟨rfl, hfull, rfl⟩ := readExact_returned hread
          simp only [hread] at h
          cases full with
          | true =>
              have hlength := beq_iff_eq.mp hfull.symm
              have hlen₁ : (ram₁.fill (d.addr - base).toNat
                  ((disk.content.drop disk.cursor).take d.len.toNat)).len = ram.len := hlen
              have hserved := readData_images hlen₁ h
              simp only [if_pos hlength]
              rw [hlength] at hserved
              exact hserved
          | false =>
              cases h
              simp only [if_neg (beq_eq_false_iff_ne.mp hfull.symm)]
              exact ⟨rfl, trivial⟩

theorem slice_length {o n : Nat} {bs : List U8} (h : ram.slice o n = some bs) : bs.length = n := by
  rw [Ram.slice] at h
  split at h <;> cases h
  rw [List.length_map, List.length_range]

theorem writeData_takes : ∀ {ds : List Desc} {disk disk' : Disk} {ok : Bool},
    writeData base ram ds disk = some (ok, disk') → ok = takesAll ram base ds disk.cursor
  | [], _, _, _, h => by
      cases h
      rfl
  | d :: ds, disk, disk', ok, h => by
      rw [writeData] at h
      rw [takesAll]
      split at h
      · rename_i hskip
        rw [if_pos hskip]
        exact writeData_takes h
      · rename_i htake
        rw [if_neg htake]
        split at h
        · rename_i hout
          cases h
          rw [hout]
          rfl
        · rename_i hin
          obtain ⟨bs, hslice, h⟩ := Option.bind_eq_some_iff.mp h
          have hlength : bs.length = d.len.toNat := slice_length hslice
          rw [Bool.eq_false_of_not_eq_true hin]
          rcases writeAll_cases disk bs with ⟨hfits, content, hwrite⟩ | ⟨hfits, hwrite⟩
          · rw [hwrite] at h
            rw [hlength] at hfits h
            rw [decide_eq_true hfits]
            exact writeData_takes h
          · rw [hwrite] at h
            rw [hlength] at hfits
            cases h
            rw [decide_eq_false hfits]
            rfl

theorem transfer_images {reqType : U32} {byteOff : U64} {data : List Desc}
    (h : transfer reqType byteOff base data disk ram = some (ok, disk', ram')) :
    ram'.byte = Overlay.putAll ram.byte
        (transferImages ram base reqType byteOff data disk.content).1 ∧
      ok = (transferImages ram base reqType byteOff data disk.content).2 := by
  rw [transfer] at h
  rw [transferImages]
  split at h
  · rename_i hread
    rw [if_pos hread]
    split at h
    · rename_i hseek
      rw [if_neg fun hlt => Option.some_ne_none _ ((if_pos hlt).symm.trans hseek)]
      cases h
      exact ⟨rfl, rfl⟩
    · rename_i hseek
      obtain ⟨hlt, rfl⟩ := seek_eq_some hseek
      rw [if_pos hlt]
      exact readData_images rfl h
  · rename_i hread
    rw [if_neg hread]
    split at h
    · rename_i hwrite
      rw [if_pos hwrite]
      split at h
      · rename_i hseek
        rw [decide_eq_false fun hlt => Option.some_ne_none _ ((if_pos hlt).symm.trans hseek)]
        cases h
        exact ⟨rfl, rfl⟩
      · rename_i hseek
        obtain ⟨hlt, rfl⟩ := seek_eq_some hseek
        obtain ⟨⟨ok₁, disk₁⟩, hdata, h⟩ := Option.bind_eq_some_iff.mp h
        cases h
        rw [decide_eq_true hlt]
        exact ⟨rfl, writeData_takes hdata⟩
    · rename_i hwrite
      rw [if_neg hwrite]
      cases h
      exact ⟨rfl, rfl⟩

theorem w8_put {addr : U64} {val : U8} (h : w8 ram base addr val = some ram') :
    ram'.byte = Overlay.put ram.byte (addr - base).toNat [val] := by
  rw [w8, Ram.write] at h
  split at h <;> cases h
  have hbyte : Bytes.leBytes 1 (val.setWidth 64) = [val] :=
    congrArg ([·]) ((Bytes.byteAt_setWidth val 0).trans (if_pos rfl))
  rw [← hbyte, Overlay.put_leBytes]

/-- A request that is served puts its images in memory. -/
theorem doRequest_images {head : U16} (h : v.doRequest ram base head = some (v', ram')) :
    ram'.byte =
      Overlay.putAll ram.byte (v.requestImages ram base (v.request base ram.byte head)) := by
  obtain ⟨descs, hcollect, h⟩ := Option.bind_eq_some_iff.mp h
  obtain rfl : descs = v.request base ram.byte head := collect_returned hcollect
  generalize v.request base ram.byte head = ds at h
  match ds, h with
  | [], h =>
      cases h
      rfl
  | [_], h =>
      cases h
      rfl
  | first :: second :: rest, h =>
      obtain ⟨reqType, hreq, h⟩ := Option.bind_eq_some_iff.mp h
      obtain ⟨sector, hsector, h⟩ := Option.bind_eq_some_iff.mp h
      obtain ⟨rfl, _⟩ := r32_returned hreq
      obtain ⟨rfl, _⟩ := r64_returned hsector
      dsimp only at h
      cases hdisk : v.disk with
      | none =>
          rw [hdisk] at h
          obtain ⟨ram₁, hstatus, h⟩ := Option.bind_eq_some_iff.mp h
          cases h
          rw [requestImages, hdisk]
          exact w8_put hstatus
      | some disk =>
          rw [hdisk] at h
          obtain ⟨⟨ok, disk', ram₁⟩, hdata, h⟩ := Option.bind_eq_some_iff.mp h
          obtain ⟨ram₂, hstatus, h⟩ := Option.bind_eq_some_iff.mp h
          cases h
          obtain ⟨hbytes, rfl⟩ := transfer_images hdata
          rw [requestImages, hdisk]
          dsimp only [typeAt]
          rw [Overlay.putAll_append, ← hbytes]
          exact w8_put hstatus

/-- An entry that was served: its request was, and its completion went to the next used slot. -/
theorem serveNext_returned (h : v.serveNext ram base = some (v', ram')) :
    ∃ disk ram₁, v.doRequest ram base (v.headAt base ram.byte v.lastAvailIdx) =
        some ({ v with disk := disk }, ram₁) ∧
      v' = { v with disk := disk, lastAvailIdx := v.lastAvailIdx + 1, irqStatus := 1 } ∧
      ram' = v.appended ram₁ base (v.headAt base ram.byte v.lastAvailIdx) ∧
      (v.usedEntry (slot (v.usedIdx base ram₁.byte)) + 4 - base).toNat =
        (v.usedEntry (slot (v.usedIdx base ram₁.byte)) - base).toNat + 4 := by
  obtain ⟨head, hhead, h⟩ := Option.bind_eq_some_iff.mp h
  obtain ⟨⟨v₁, ram₁⟩, hreq, h⟩ := Option.bind_eq_some_iff.mp h
  obtain ⟨idx, hidx, h⟩ := Option.bind_eq_some_iff.mp h
  obtain ⟨ram₂, h₂, h⟩ := Option.bind_eq_some_iff.mp h
  obtain ⟨ram₃, h₃, h⟩ := Option.bind_eq_some_iff.mp h
  obtain ⟨ram₄, h₄, h⟩ := Option.bind_eq_some_iff.mp h
  cases h
  obtain rfl : head = v.headAt base ram.byte v.lastAvailIdx := (r16_returned hhead).1
  obtain ⟨⟨disk, rfl⟩, _⟩ := doRequest_frame hreq
  obtain rfl : idx = v.usedIdx base ram₁.byte := (r16_returned hidx).1
  obtain ⟨rfl, hfit⟩ := w32_returned h₂
  obtain ⟨rfl, _⟩ := w32_returned h₃
  obtain ⟨rfl, _⟩ := w16_returned h₄
  exact ⟨disk, ram₁, hreq, rfl, rfl, offset_add hfit 4 (by decide)⟩

/-- Serving an entry puts its images in memory. -/
theorem serveNext_images (h : v.serveNext ram base = some (v', ram')) :
    ram'.byte = Overlay.putAll ram.byte (v.serveImages ram base) := by
  obtain ⟨disk, ram₁, hreq, rfl, rfl, hoff⟩ := serveNext_returned h
  have hbytes : ram₁.byte = Overlay.putAll ram.byte (v.nextImages ram base) := doRequest_images hreq
  rw [serveImages, Overlay.putAll_append, ← hbytes]
  simp only [appended, Checked.put, Overlay.putAll, List.foldl_cons, List.foldl_nil,
    Overlay.put_leBytes, hoff]
  rfl

end Serving

/-! ## Where the images lie -/

section Places

variable {v : VirtioBlk} {ram : Ram} {base : U64} {content : List U8} {a : Nat}

theorem readImages_covers : ∀ {ds : List Desc} {pos : Nat},
    ∀ p ∈ (readImages ram base content ds pos).1, Overlay.Covers p a → a ∈ bufferSpan base ds
  | [], _, p, hp, _ => nomatch hp
  | d :: ds, pos, p, hp, ha => by
      have htail : a ∈ bufferSpan base ds → a ∈ bufferSpan base (d :: ds) := fun ⟨e, he, hin⟩ =>
        ⟨e, List.mem_cons_of_mem _ he, hin⟩
      have hhead (hfill : d.flags &&& descFWrite ≠ 0)
          (hcovers : Overlay.Covers
            ((d.addr - base).toNat, (content.drop pos).take d.len.toNat) a) :
          a ∈ bufferSpan base (d :: ds) := by
        obtain ⟨hlow, hhigh⟩ := hcovers
        rw [List.length_take] at hhigh
        exact ⟨d, List.mem_cons_self .., hfill, hlow, by dsimp only at hhigh; omega⟩
      rw [readImages] at hp
      split at hp
      · exact htail (readImages_covers p hp ha)
      · rename_i hfill
        split at hp
        · cases hp
        · dsimp only at hp
          split at hp
          · rcases List.mem_cons.mp hp with rfl | hp
            · exact hhead hfill ha
            · exact htail (readImages_covers p hp ha)
          · obtain rfl := List.mem_singleton.mp hp
            exact hhead hfill ha

/-- The images of a request cover its status byte and, if it is a read, bytes of its buffers. -/
theorem requestImages_covers {ds : List Desc} :
    ∀ p ∈ v.requestImages ram base ds, Overlay.Covers p a → a ∈ written base ram.byte ds := by
  intro p hp ha
  match ds, hp with
  | first :: second :: rest, hp =>
      have hstatus (val : U8) (hcovers : Overlay.Covers
          ((((second :: rest).getLast (List.cons_ne_nil _ _)).addr - base).toNat, [val]) a) :
          a ∈ written base ram.byte (first :: second :: rest) := Or.inl hcovers
      rw [requestImages] at hp
      dsimp only at hp
      split at hp
      · obtain rfl := List.mem_singleton.mp hp
        exact hstatus _ ha
      · rcases List.mem_append.mp hp with hp | hp
        · rw [transferImages] at hp
          split at hp
          · rename_i hread
            split at hp
            · exact Or.inr ⟨hread, readImages_covers p hp ha⟩
            · cases hp
          · split at hp <;> cases hp
        · obtain rfl := List.mem_singleton.mp hp
          exact hstatus _ ha

end Places

end VirtioBlk

end RiscvEmu
