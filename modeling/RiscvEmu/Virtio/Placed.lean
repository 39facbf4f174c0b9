import RiscvEmu.Virtio.Completion

/-!
# Requests in RAM

A request whose table entries, header, status byte and buffers lie in RAM is served, whatever
sector it names: the byte offset on the disk may wrap, and the disk may refuse, but no access
aborts.
-/

namespace RiscvEmu

namespace VirtioBlk

/-- Everything a request consults or moves lies in RAM. -/
structure Placed (v : VirtioBlk) (ram : Ram) (base : U64) (head : U16) : Prop where
  entries : ∀ idx ∈ v.chain base ram.byte 16 head, InRam ram.len base (v.entry idx) 16
  header : ∀ first second rest, v.request base ram.byte head = first :: second :: rest →
    InRam ram.len base first.addr 16
  status : ∀ first second rest, v.request base ram.byte head = first :: second :: rest →
    InRam ram.len base ((second :: rest).getLast (List.cons_ne_nil _ _)).addr 1
  buffers : ∀ first second rest, v.request base ram.byte head = first :: second :: rest →
    ∀ d ∈ (second :: rest).dropLast, InRam ram.len base d.addr d.len.toNat

section Serving

variable {v : VirtioBlk} {ram : Ram} {base addr : U64}

theorem r16_inRam (h : InRam ram.len base addr 2) :
    r16 ram base addr = some ((Bytes.readLe ram.byte (addr - base).toNat 2).setWidth 16) :=
  Checked.r16_eq (Checked.r16_of_fits h)

theorem r32_inRam (h : InRam ram.len base addr 4) :
    r32 ram base addr = some ((Bytes.readLe ram.byte (addr - base).toNat 4).setWidth 32) :=
  Checked.r32_eq (Checked.r32_of_fits h)

theorem r64_inRam (h : InRam ram.len base addr 8) :
    r64 ram base addr = some (Bytes.readLe ram.byte (addr - base).toNat 8) :=
  Checked.r64_eq (Checked.r64_of_fits h)

theorem w8_inRam (val : U8) (h : InRam ram.len base addr 1) :
    w8 ram base addr val = some (Checked.put ram base addr 1 (val.setWidth 64)) :=
  Checked.w8_eq (Checked.w8_of_fits val h)

theorem w16_inRam (val : U16) (h : InRam ram.len base addr 2) :
    w16 ram base addr val = some (Checked.put ram base addr 2 (val.setWidth 64)) :=
  Checked.w16_eq (Checked.w16_of_fits val h)

theorem w32_inRam (val : U32) (h : InRam ram.len base addr 4) :
    w32 ram base addr val = some (Checked.put ram base addr 4 (val.setWidth 64)) :=
  Checked.w32_eq (Checked.w32_of_fits val h)

/-- The range check accepts a buffer in RAM. -/
theorem outOfRam_inRam {d : Desc} (h : InRam ram.len base d.addr d.len.toNat) :
    outOfRam ram base d = false := by
  have hlow : ¬ d.addr < base := BitVec.not_lt.mpr (BitVec.le_def.mpr h.1)
  have hbound := h.bound
  have hlen := ram.len.isLt
  have hwide : (d.len.setWidth 64 : U64).toNat = d.len.toNat := by
    have := d.len.isLt
    rw [BitVec.toNat_setWidth]
    omega
  have hroom : ¬ ram.len - d.len.setWidth 64 < d.addr - base := by
    rw [BitVec.lt_def, BitVec.toNat_sub, hwide]
    omega
  rw [outOfRam, decide_eq_false hlow, decide_eq_false hroom]
  rfl

theorem slice_inRam {d : Desc} (h : InRam ram.len base d.addr d.len.toNat) :
    ram.slice (d.addr - base).toNat d.len.toNat =
      some ((List.range d.len.toNat).map fun i => ram.byte ((d.addr - base).toNat + i)) :=
  if_pos h.bound

theorem readData_inRam : ∀ {ds : List Desc} {disk : Disk} {ram : Ram},
    (∀ d ∈ ds, InRam ram.len base d.addr d.len.toNat) →
      ∃ r, readData base ds disk ram = some r
  | [], _, _, _ => ⟨_, rfl⟩
  | d :: ds, disk, ram, h => by
      have hhead := h d (List.mem_cons_self ..)
      have htail (disk : Disk) (ram' : Ram) (hlen : ram'.len = ram.len) :
          ∃ r, readData base ds disk ram' = some r :=
        readData_inRam fun e he => hlen ▸ h e (List.mem_cons_of_mem _ he)
      rw [readData]
      split
      · exact htail disk ram rfl
      · simp only [outOfRam_inRam hhead, slice_inRam hhead, Bool.false_eq_true, if_false,
          Option.bind_eq_bind, Option.bind_some]
        rcases hread : disk.readExact d.len.toNat with ⟨ok, bs, disk'⟩
        cases ok with
        | true => exact htail disk' _ rfl
        | false => exact ⟨_, rfl⟩

theorem writeData_inRam : ∀ {ds : List Desc} {disk : Disk},
    (∀ d ∈ ds, InRam ram.len base d.addr d.len.toNat) →
      ∃ r, writeData base ram ds disk = some r
  | [], _, _ => ⟨_, rfl⟩
  | d :: ds, disk, h => by
      have hhead := h d (List.mem_cons_self ..)
      have htail (disk : Disk) : ∃ r, writeData base ram ds disk = some r :=
        writeData_inRam fun e he => h e (List.mem_cons_of_mem _ he)
      rw [writeData]
      split
      · exact htail disk
      · simp only [outOfRam_inRam hhead, slice_inRam hhead, Bool.false_eq_true, if_false,
          Option.bind_eq_bind, Option.bind_some]
        cases disk.writeAll _ with
        | some disk' => exact htail disk'
        | none => exact ⟨_, rfl⟩

theorem transfer_inRam {reqType : U32} {byteOff : U64} {data : List Desc} {disk : Disk}
    (h : ∀ d ∈ data, InRam ram.len base d.addr d.len.toNat) :
    ∃ r, transfer reqType byteOff base data disk ram = some r := by
  rw [transfer]
  split
  · cases disk.seek byteOff with
    | none => exact ⟨_, rfl⟩
    | some disk' => exact readData_inRam h
  · split
    · cases disk.seek byteOff with
      | none => exact ⟨_, rfl⟩
      | some disk' =>
          have hserved : ∃ r, writeData base ram data disk' = some r := writeData_inRam h
          obtain ⟨r, hr⟩ := hserved
          simp only [hr]
          exact ⟨_, rfl⟩
    · exact ⟨_, rfl⟩

/-- A chain whose entries are in RAM is collected. -/
theorem collect_inRam {n : Nat} {idx : U16}
    (h : ∀ i ∈ v.chain base ram.byte n idx, InRam ram.len base (v.entry i) 16) :
    v.collect ram base n idx =
      some ((v.chain base ram.byte n idx).map fun i => descAt ram.byte (v.entry i - base).toNat) :=
  Checked.collect_eq (Checked.collect_of_fits h)

/-- A request of two or more descriptors, with its header in RAM. -/
theorem doRequest_cons {head : U16} {first second : Desc} {rest : List Desc}
    (hentries : ∀ idx ∈ v.chain base ram.byte 16 head, InRam ram.len base (v.entry idx) 16)
    (hreq : v.request base ram.byte head = first :: second :: rest)
    (hheader : InRam ram.len base first.addr 16) :
    v.doRequest ram base head = match v.disk with
      | none =>
          (w8 ram base ((second :: rest).getLast (List.cons_ne_nil _ _)).addr sIoErr).map
            fun ram => (v, ram)
      | some disk =>
          (transfer (typeAt ram.byte (first.addr - base).toNat)
            (sectorAt ram.byte (first.addr - base).toNat * sectorSize) base
            (second :: rest).dropLast disk ram).bind fun p =>
              (w8 p.2.2 base ((second :: rest).getLast (List.cons_ne_nil _ _)).addr
                (if p.1 then sOk else sIoErr)).map
                  fun ram => ({ v with disk := some p.2.1 }, ram) := by
  have h0 : r32 ram base first.addr = some (typeAt ram.byte (first.addr - base).toNat) :=
    r32_inRam ⟨hheader.1, by have := hheader.2.1; omega, by have := hheader.2.2; omega⟩
  have h8 := r64_inRam (hheader.part 8 (m := 8) (by decide) (by decide))
  rw [hheader.offset_part 8 (by decide)] at h8
  have hcollect : v.collect ram base 16 head = some (first :: second :: rest) :=
    (collect_inRam hentries).trans (congrArg some hreq)
  simp only [doRequest, hcollect, h0, h8, Option.bind_eq_bind, Option.bind_some]
  cases v.disk with
  | none => cases w8 ram base _ sIoErr <;> rfl
  | some disk =>
      refine congrArg (Option.bind _ ·) (funext fun p => ?_)
      obtain ⟨ok, disk', ram'⟩ := p
      cases w8 ram' base _ _ <;> rfl

/-- A request in RAM is served. -/
theorem doRequest_placed {head : U16} (h : Placed v ram base head) :
    ∃ r, v.doRequest ram base head = some r := by
  match hreq : v.request base ram.byte head with
  | [] =>
      have hcollect : v.collect ram base 16 head = some [] :=
        (collect_inRam h.entries).trans (congrArg some hreq)
      exact ⟨_, by rw [doRequest, hcollect]; rfl⟩
  | [_] =>
      have hcollect : v.collect ram base 16 head = some [_] :=
        (collect_inRam h.entries).trans (congrArg some hreq)
      exact ⟨_, by rw [doRequest, hcollect]; rfl⟩
  | first :: second :: rest =>
      rw [doRequest_cons h.entries hreq (h.header first second rest hreq)]
      have hstatus := h.status first second rest hreq
      cases v.disk with
      | none =>
          rw [w8_inRam _ hstatus]
          exact ⟨_, rfl⟩
      | some disk =>
          have hserved : ∃ r, transfer (typeAt ram.byte (first.addr - base).toNat)
              (sectorAt ram.byte (first.addr - base).toNat * sectorSize) base
              (second :: rest).dropLast disk ram = some r :=
            transfer_inRam (h.buffers first second rest hreq)
          obtain ⟨⟨ok, disk', ram'⟩, ht⟩ := hserved
          have hlen := transfer_len ht
          simp only [ht, Option.bind_some]
          rw [w8_inRam _ (hlen ▸ hstatus)]
          exact ⟨_, rfl⟩

/-- A request that was served is completed, when its used slot is in RAM. -/
theorem complete_of_request {v₁ : VirtioBlk} {ram₁ : Ram} {head : U16}
    (hreq : v.doRequest ram base head = some (v₁, ram₁)) (hfit : CompletionFits v₁ ram₁ base) :
    v.complete ram base head = some (v₁.advanced, v₁.appended ram₁ base head) := by
  have helem := hfit.elem
  have hlow : InRam ram₁.len base (v₁.usedEntry (slot (v₁.usedIdx base ram₁.byte))) 4 :=
    ⟨helem.1, by have := helem.2.1; omega, by have := helem.2.2; omega⟩
  have hhigh := helem.part 4 (m := 4) (by decide) (by decide)
  refine Option.bind_eq_some_iff.mpr ⟨(v₁, ram₁), hreq, ?_⟩
  refine Option.bind_eq_some_iff.mpr ⟨_, r16_inRam hfit.usedIdx, ?_⟩
  refine Option.bind_eq_some_iff.mpr ⟨_, w32_inRam (head.setWidth 32) hlow, ?_⟩
  refine Option.bind_eq_some_iff.mpr ⟨_, w32_inRam 0 hhigh, ?_⟩
  exact Option.bind_eq_some_iff.mpr ⟨_, w16_inRam _ hfit.usedIdx, rfl⟩

end Serving

end VirtioBlk

end RiscvEmu
