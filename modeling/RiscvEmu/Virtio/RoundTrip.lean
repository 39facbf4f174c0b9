import RiscvEmu.Virtio.Chains
import RiscvEmu.Lib.Splice

/-!
# Writing and reading back

A write request gathers its device-readable buffers into one run of bytes of the disk, and a read
request scatters such a run over its device-writable buffers.  Both go through the cursor of the
backing file, so that the division into buffers is invisible on the disk: what was written comes
back in whatever buffers it is read into, and nothing else changes.
-/

namespace RiscvEmu

namespace VirtioBlk

open Splice

/-! ## Buffers -/

/-- The descriptors that the device reads. -/
def readable (data : List Desc) : List Desc := data.filter fun d => d.flags &&& descFWrite = 0

/-- The descriptors that the device writes. -/
def writable (data : List Desc) : List Desc := data.filter fun d => d.flags &&& descFWrite ≠ 0

def totalLen (ds : List Desc) : Nat := (ds.map fun d => d.len.toNat).sum

/-- The bytes of some buffers, one buffer after the other. -/
def gather (base : U64) (ram : Ram) (ds : List Desc) : List U8 :=
  ds.flatMap (bufferBytes base ram)

/-- The memory with bytes put into some buffers, one buffer after the other. -/
def scatter (base : U64) : List Desc → List U8 → Ram → Ram
  | [], _, ram => ram
  | d :: ds, bs, ram =>
      scatter base ds (bs.drop d.len.toNat) (ram.fill (d.addr - base).toNat (bs.take d.len.toNat))

/-- No two buffers have a byte in common. -/
def Apart (base : U64) (ds : List Desc) : Prop :=
  ds.Pairwise fun d e => Disjoint (span base d.addr d.len.toNat) (span base e.addr e.len.toNat)

section Buffers

variable {base : U64} {ram : Ram} {d : Desc} {ds : List Desc} {bs : List U8}

theorem bufferBytes_length (ram : Ram) (d : Desc) :
    (bufferBytes base ram d).length = d.len.toNat := by
  rw [bufferBytes, List.length_map, List.length_range]

theorem totalLen_cons (d : Desc) (ds : List Desc) :
    totalLen (d :: ds) = d.len.toNat + totalLen ds := by
  rw [totalLen, List.map_cons, List.sum_cons, totalLen]

theorem gather_cons (ram : Ram) (d : Desc) (ds : List Desc) :
    gather base ram (d :: ds) = bufferBytes base ram d ++ gather base ram ds :=
  List.flatMap_cons

theorem gather_length (ram : Ram) (ds : List Desc) : (gather base ram ds).length = totalLen ds := by
  induction ds with
  | nil => rfl
  | cons d ds ih => rw [gather_cons, List.length_append, bufferBytes_length, ih, totalLen_cons]

/-- Bytes put into a buffer are its bytes. -/
theorem bufferBytes_fill (hlen : bs.length = d.len.toNat) :
    bufferBytes base (ram.fill (d.addr - base).toNat bs) d = bs := by
  refine List.ext_getElem ((bufferBytes_length _ d).trans hlen.symm) fun i hi hb => ?_
  simp only [bufferBytes, Ram.fill, List.getElem_map, List.getElem_range, Nat.le_add_right,
    if_true, Nat.add_sub_cancel_left, List.getElem?_eq_getElem hb, Option.getD_some]

/-- Scattering changes nothing outside the buffers. -/
theorem scatter_outside {a : Nat} (ha : ∀ d ∈ ds, a ∉ span base d.addr d.len.toNat) :
    (scatter base ds bs ram).byte a = ram.byte a := by
  induction ds generalizing bs ram with
  | nil => rfl
  | cons d ds ih =>
      have hhead := ha d (List.mem_cons_self ..)
      rw [span, Set.mem_Ico] at hhead
      refine (ih fun e he => ha e (List.mem_cons_of_mem _ he)).trans (fill_outside ?_)
      rw [List.length_take]
      omega

theorem bufferBytes_congr {ram' : Ram}
    (h : Set.EqOn ram.byte ram'.byte (span base d.addr d.len.toNat)) :
    bufferBytes base ram d = bufferBytes base ram' d :=
  List.map_congr_left fun _ hi =>
    h ⟨Nat.le_add_right _ _, Nat.add_lt_add_left (List.mem_range.mp hi) _⟩

theorem gather_congr {ram' : Ram}
    (h : ∀ d ∈ ds, Set.EqOn ram.byte ram'.byte (span base d.addr d.len.toNat)) :
    gather base ram ds = gather base ram' ds := by
  induction ds with
  | nil => rfl
  | cons d ds ih =>
      rw [gather_cons, gather_cons, bufferBytes_congr (h d (List.mem_cons_self ..)),
        ih fun e he => h e (List.mem_cons_of_mem _ he)]

/-- Bytes scattered over buffers that are apart are gathered from them. -/
theorem gather_scatter (hapart : Apart base ds) (hlen : totalLen ds ≤ bs.length) :
    gather base (scatter base ds bs ram) ds = bs.take (totalLen ds) := by
  induction ds generalizing bs ram with
  | nil => rfl
  | cons d ds ih =>
      obtain ⟨hhead, htail⟩ := List.pairwise_cons.mp hapart
      rw [totalLen_cons] at hlen ⊢
      have hfirst : bufferBytes base (scatter base (d :: ds) bs ram) d = bs.take d.len.toNat := by
        have hkept : Set.EqOn (scatter base (d :: ds) bs ram).byte
            (ram.fill (d.addr - base).toNat (bs.take d.len.toNat)).byte
            (span base d.addr d.len.toNat) := fun a ha =>
          scatter_outside fun e he => Set.disjoint_left.mp (hhead e he) ha
        rw [bufferBytes_congr hkept, bufferBytes_fill (by rw [List.length_take]; omega)]
      rw [gather_cons, hfirst, scatter, ih htail (by rw [List.length_drop]; omega), List.take_add]

end Buffers

/-! ## The data loops -/

section Loops

variable {base : U64} {ram : Ram} {content bs : List U8} {pos n : Nat}

/-- A write within the file replaces the bytes at the cursor. -/
theorem writeAll_within (h : pos + bs.length ≤ content.length) (hfile : content.length < 2 ^ 63) :
    Disk.writeAll ⟨content, pos⟩ bs = some ⟨splice content pos bs, pos + bs.length⟩ := by
  rw [Disk.writeAll]
  split
  · rename_i hempty
    subst hempty
    rw [splice_nil]
    rfl
  · rw [if_pos (Nat.lt_of_le_of_lt h hfile), Nat.sub_eq_zero_of_le (by dsimp only; omega),
      List.replicate_zero, List.append_nil]
    rfl

/-- A read within the file takes the bytes at the cursor. -/
theorem readExact_within (h : pos + n ≤ content.length) :
    Disk.readExact ⟨content, pos⟩ n =
      (true, (content.drop pos).take n, ⟨content, pos + n⟩) := by
  have hlen : ((content.drop pos).take n).length = n := by
    rw [List.length_take, List.length_drop]
    omega
  simp only [Disk.readExact, hlen, beq_self_eq_true]

/-- The write loop puts the gathered bytes at the cursor, whatever the division into buffers. -/
theorem writeData_within : ∀ {ds : List Desc} {content : List U8} {pos : Nat},
    content.length < 2 ^ 63 →
      (∀ d ∈ readable ds, InRam ram.len base d.addr d.len.toNat) →
      pos + totalLen (readable ds) ≤ content.length →
        writeData base ram ds ⟨content, pos⟩ = some (true,
          ⟨splice content pos (gather base ram (readable ds)), pos + totalLen (readable ds)⟩)
  | [], content, pos, _, _, _ => by
      rw [readable, List.filter_nil]
      exact congrArg (fun c => some (true, (⟨c, pos⟩ : Disk))) splice_nil.symm
  | d :: ds, content, pos, hlt, hin, hcap => by
      rw [writeData]
      split
      · rename_i hskip
        have htail : readable (d :: ds) = readable ds :=
          List.filter_cons_of_neg (by simpa using hskip)
        rw [htail] at hin hcap ⊢
        exact writeData_within hlt hin hcap
      · rename_i hmatch
        have hcons : readable (d :: ds) = d :: readable ds :=
          List.filter_cons_of_pos (by simpa using hmatch)
        rw [hcons] at hin hcap ⊢
        rw [totalLen_cons] at hcap ⊢
        have hhead := hin d (List.mem_cons_self ..)
        have hbytes : (bufferBytes base ram d).length = d.len.toNat := bufferBytes_length ram d
        have hwrite : Disk.writeAll ⟨content, pos⟩ (bufferBytes base ram d) = _ :=
          writeAll_within (by omega) hlt
        have hlen : (splice content pos (bufferBytes base ram d)).length = content.length :=
          length_splice (by omega)
        have htail : writeData base ram ds
            ⟨splice content pos (bufferBytes base ram d), pos + d.len.toNat⟩ = _ :=
          writeData_within (by omega) (fun e he => hin e (List.mem_cons_of_mem _ he)) (by omega)
        have hjoin : splice (splice content pos (bufferBytes base ram d))
            (pos + (bufferBytes base ram d).length) (gather base ram (readable ds)) = _ :=
          splice_splice (by rw [hbytes, gather_length]; omega)
        rw [hbytes] at hwrite hjoin
        simp only [outOfRam_inRam hhead, slice_inRam hhead, Bool.false_eq_true, if_false,
          Option.bind_eq_bind, Option.bind_some]
        rw [bufferBytes] at hwrite
        simp only [hwrite]
        rw [← bufferBytes, htail, hjoin, gather_cons, Nat.add_assoc]

/-- The read loop scatters the bytes from the cursor on, whatever the division into buffers. -/
theorem readData_within : ∀ {ds : List Desc} {pos : Nat} {ram : Ram},
    (∀ d ∈ writable ds, InRam ram.len base d.addr d.len.toNat) →
      pos + totalLen (writable ds) ≤ content.length →
        readData base ds ⟨content, pos⟩ ram = some (true,
          ⟨content, pos + totalLen (writable ds)⟩,
          scatter base (writable ds) (content.drop pos) ram)
  | [], _, _, _, _ => rfl
  | d :: ds, pos, ram, hin, hcap => by
      rw [readData]
      split
      · rename_i hskip
        have htail : writable (d :: ds) = writable ds :=
          List.filter_cons_of_neg (by simpa using hskip)
        rw [htail] at hin hcap ⊢
        exact readData_within hin hcap
      · rename_i hmatch
        have hcons : writable (d :: ds) = d :: writable ds :=
          List.filter_cons_of_pos (by simpa using hmatch)
        rw [hcons] at hin hcap ⊢
        rw [totalLen_cons] at hcap ⊢
        have hhead := hin d (List.mem_cons_self ..)
        have hread : Disk.readExact ⟨content, pos⟩ d.len.toNat = _ := readExact_within (by omega)
        have htail : readData base ds ⟨content, pos + d.len.toNat⟩
            (ram.fill (d.addr - base).toNat ((content.drop pos).take d.len.toNat)) = _ :=
          readData_within (fun e he => hin e (List.mem_cons_of_mem _ he)) (by omega)
        simp only [outOfRam_inRam hhead, slice_inRam hhead, Bool.false_eq_true, if_false,
          Option.bind_eq_bind, Option.bind_some, hread]
        rw [htail, scatter, List.drop_drop, Nat.add_assoc]

end Loops

/-! ## Requests -/

/-- A request of a type, at a sector: a chain of at most sixteen descriptors, with its table
entries, header and status byte in RAM. -/
structure IsRequest (v : VirtioBlk) (ram : Ram) (base : U64) (head : U16) (first : Desc)
    (mid : List Desc) (last : Desc) (reqType : U32) (sector : U64) : Prop where
  entries : ∀ idx ∈ v.chain base ram.byte 16 head, InRam ram.len base (v.entry idx) 16
  descs : v.request base ram.byte head = first :: (mid ++ [last])
  ends : last.flags &&& descFNext = 0
  header : InRam ram.len base first.addr 16
  reqType : typeAt ram.byte (first.addr - base).toNat = reqType
  sector : sectorAt ram.byte (first.addr - base).toNat = sector
  status : InRam ram.len base last.addr 1

/-- A write and a read of the same sector, one after the other: both report that all is well, the
bytes that were written are in the buffers that were read, and the rest of the disk and of RAM is
as it was. -/
def RoundTrips (v : VirtioBlk) (ram : Ram) (base : U64) (disk : Disk) (head head' : U16)
    (mid mid' : List Desc) (last last' : Desc) (sector : U64) : Prop :=
  ∃ v₁ ram₁ v₂ ram₂ disk₂, v.doRequest ram base head = some (v₁, ram₁) ∧
    v₁.doRequest ram₁ base head' = some (v₂, ram₂) ∧
    ram₁.byte (last.addr - base).toNat = sOk ∧ ram₂.byte (last'.addr - base).toNat = sOk ∧
    gather base ram₂ (writable mid') = gather base ram (readable mid) ∧
    v₂.disk = some disk₂ ∧ disk₂.content.length = disk.content.length ∧
    (∀ i, i < sector.toNat * 512 ∨ sector.toNat * 512 + totalLen (readable mid) ≤ i →
      disk₂.content[i]? = disk.content[i]?) ∧
    ∀ a ∉ bufferSpan base mid' ∪ span base last.addr 1 ∪ span base last'.addr 1,
      ram₂.byte a = ram.byte a

section Requests

variable {v : VirtioBlk} {ram : Ram} {base : U64} {disk : Disk} {head : U16} {first last : Desc}
  {mid : List Desc} {reqType : U32} {sector : U64}

theorem IsRequest.collect (h : IsRequest v ram base head first mid last reqType sector) :
    v.collect ram base 16 head = some (first :: (mid ++ [last])) :=
  (collect_inRam h.entries).trans (congrArg some h.descs)

/-- Serving a request of a device with a disk. -/
theorem IsRequest.doRequest (h : IsRequest v ram base head first mid last reqType sector)
    (hdisk : v.disk = some disk) {ok : Bool} {disk' : Disk} {ram' : Ram}
    (ht : transfer reqType (sector * sectorSize) base mid disk ram = some (ok, disk', ram')) :
    v.doRequest ram base head = some ({ v with disk := some disk' },
      Checked.put ram' base last.addr 1 ((if ok then sOk else sIoErr).setWidth 64)) := by
  have hw : w8 ram' base last.addr (if ok then sOk else sIoErr) = _ :=
    w8_inRam _ (transfer_len ht ▸ h.status)
  have hlog : (transferLog reqType (sector * sectorSize) base mid disk ram).map Prod.snd = _ :=
    transferLog_erase reqType (sector * sectorSize) mid disk ram
  rw [ht] at hlog
  obtain ⟨⟨acts, _⟩, hacts, heq⟩ := Option.map_eq_some_iff.mp hlog
  obtain rfl : _ = (ok, disk', ram') := heq
  rw [← doRequestLog_erase, doRequestLog_eq h.collect h.header, h.reqType, h.sector, hdisk]
  simp only [hacts, Option.bind_some, hw, Option.map_some]

/-- The byte offset of a sector within the file. -/
theorem seek_within (h : sector.toNat * 512 ≤ disk.content.length)
    (hfile : disk.content.length < 2 ^ 63) :
    disk.seek (sector * sectorSize) = some ⟨disk.content, sector.toNat * 512⟩ := by
  have hoff : (sector * sectorSize).toNat = sector.toNat * 512 := by
    rw [byteOff_toNat, Nat.mod_eq_of_lt (by omega)]
  rw [Disk.seek, hoff, if_pos (by omega)]

/-- A write within the disk. -/
theorem IsRequest.write (h : IsRequest v ram base head first mid last tOut sector)
    (hdisk : v.disk = some disk) (hfile : disk.content.length < 2 ^ 63)
    (hin : ∀ d ∈ readable mid, InRam ram.len base d.addr d.len.toNat)
    (hcap : sector.toNat * 512 + totalLen (readable mid) ≤ disk.content.length) :
    v.doRequest ram base head = some ({ v with
      disk := some ⟨splice disk.content (sector.toNat * 512) (gather base ram (readable mid)),
        sector.toNat * 512 + totalLen (readable mid)⟩ },
      Checked.put ram base last.addr 1 (sOk.setWidth 64)) := by
  have hseek : disk.seek (sector * sectorSize) = _ :=
    seek_within (Nat.le_trans (Nat.le_add_right _ _) hcap) hfile
  have ht : transfer tOut (sector * sectorSize) base mid disk ram = some (true,
      ⟨splice disk.content (sector.toNat * 512) (gather base ram (readable mid)),
        sector.toNat * 512 + totalLen (readable mid)⟩, ram) := by
    rw [transfer, if_neg (by decide), if_pos rfl, hseek]
    simp only [writeData_within hfile hin hcap]
    rfl
  have hserved := h.doRequest hdisk ht
  rwa [if_pos rfl] at hserved

/-- A read within the disk. -/
theorem IsRequest.read (h : IsRequest v ram base head first mid last tIn sector)
    (hdisk : v.disk = some disk) (hfile : disk.content.length < 2 ^ 63)
    (hin : ∀ d ∈ writable mid, InRam ram.len base d.addr d.len.toNat)
    (hcap : sector.toNat * 512 + totalLen (writable mid) ≤ disk.content.length) :
    v.doRequest ram base head = some ({ v with
      disk := some ⟨disk.content, sector.toNat * 512 + totalLen (writable mid)⟩ },
      Checked.put (scatter base (writable mid) (disk.content.drop (sector.toNat * 512)) ram) base
        last.addr 1 (sOk.setWidth 64)) := by
  have hseek : disk.seek (sector * sectorSize) = _ :=
    seek_within (Nat.le_trans (Nat.le_add_right _ _) hcap) hfile
  have ht : transfer tIn (sector * sectorSize) base mid disk ram = some (true,
      ⟨disk.content, sector.toNat * 512 + totalLen (writable mid)⟩,
      scatter base (writable mid) (disk.content.drop (sector.toNat * 512)) ram) := by
    rw [transfer, if_pos rfl, hseek]
    exact readData_within hin hcap
  have hserved := h.doRequest hdisk ht
  rwa [if_pos rfl] at hserved

/-- A request survives a change of memory apart from what decides it, and of the disk. -/
theorem IsRequest.congr {ram' : Ram} (h : IsRequest v ram base head first mid last reqType sector)
    (disk : Option Disk) (hlen : ram'.len = ram.len)
    (hkept : Set.EqOn ram.byte ram'.byte (v.consulted base ram.byte head)) :
    IsRequest { v with disk := disk } ram' base head first mid last reqType sector := by
  have hchain : { v with disk := disk }.chain base ram'.byte 16 head =
      v.chain base ram.byte 16 head :=
    (chain_update v disk v.lastAvailIdx v.irqStatus base ram'.byte 16 head).trans
      (chain_of_consulted hkept)
  have hrequest : { v with disk := disk }.request base ram'.byte head =
      v.request base ram.byte head :=
    (request_update v disk v.lastAvailIdx v.irqStatus base ram'.byte head).trans
      (request_of_consulted hkept)
  obtain ⟨second, rest, htail⟩ :=
    List.exists_cons_of_ne_nil (List.append_ne_nil_of_right_ne_nil mid (List.cons_ne_nil last []))
  have hdescs := h.descs
  rw [htail] at hdescs
  refine ⟨?_, hrequest.trans h.descs, h.ends, hlen ▸ h.header, ?_, ?_, hlen ▸ h.status⟩
  · rw [hchain, hlen]
    exact h.entries
  · rw [typeAt_of_consulted hkept hdescs, h.reqType]
  · rw [sectorAt_of_consulted hkept hdescs, h.sector]

end Requests

/-! ## A write and a read -/

section RoundTrip

variable {v : VirtioBlk} {ram : Ram} {base : U64} {disk : Disk} {head head' : U16}
  {first first' last last' : Desc} {mid mid' : List Desc} {sector : U64}

/-- The status byte of a request, as it is written. -/
theorem put_status (ram : Ram) (addr : U64) (val : U8) :
    (Checked.put ram base addr 1 (val.setWidth 64)).byte (addr - base).toNat = val := by
  have hin : (Checked.put ram base addr 1 (val.setWidth 64)).byte ((addr - base).toNat + 0) = _ :=
    Bytes.writeLe_inside _ _ Nat.one_pos
  rw [Nat.add_zero] at hin
  exact hin.trans (Bytes.byteAt_setWidth val 0)

theorem put_apart {addr : U64} {n a : Nat} (val : U64) (ha : a ∉ span base addr n) :
    (Checked.put ram base addr n val).byte a = ram.byte a :=
  Checked.put_outside n val (Set.disjoint_singleton_right.mpr ha) rfl

theorem mem_bufferSpan {ds : List Desc} {a : Nat} :
    a ∈ bufferSpan base ds ↔ ∃ d ∈ writable ds, a ∈ span base d.addr d.len.toNat := by
  simp only [bufferSpan, writable, Set.mem_ofPred_eq, List.mem_filter, decide_eq_true_eq, and_assoc]

/-- What a write request put on the disk, a read request of the same sector and length brings
back, whatever the buffers of either. -/
theorem write_read_roundTrips (hdisk : v.disk = some disk)
    (hfile : disk.content.length < 2 ^ 63)
    (hwrite : IsRequest v ram base head first mid last tOut sector)
    (hread : IsRequest v ram base head' first' mid' last' tIn sector)
    (hin : ∀ d ∈ readable mid, InRam ram.len base d.addr d.len.toNat)
    (hin' : ∀ d ∈ writable mid', InRam ram.len base d.addr d.len.toNat)
    (htotal : totalLen (writable mid') = totalLen (readable mid))
    (hcap : sector.toNat * 512 + totalLen (readable mid) ≤ disk.content.length)
    (hapart : Apart base (writable mid'))
    (hkept : Disjoint (span base last.addr 1) (v.consulted base ram.byte head'))
    (hstatus : Disjoint (span base last'.addr 1) (bufferSpan base mid')) :
    RoundTrips v ram base disk head head' mid mid' last last' sector := by
  have hlength : (gather base ram (readable mid)).length = totalLen (readable mid) :=
    gather_length ram (readable mid)
  have hwritten := hwrite.write hdisk hfile hin hcap
  have hread₁ : IsRequest { v with
      disk := some ⟨splice disk.content (sector.toNat * 512) (gather base ram (readable mid)),
        sector.toNat * 512 + totalLen (readable mid)⟩ }
      (Checked.put ram base last.addr 1 (sOk.setWidth 64)) base head' first' mid' last' tIn
      sector := hread.congr _ rfl (Checked.put_outside 1 _ hkept).symm
  have hlen : (splice disk.content (sector.toNat * 512) (gather base ram (readable mid))).length =
      disk.content.length := length_splice (by rw [hlength]; exact hcap)
  have hreturned := hread₁.read rfl (hlen.symm ▸ hfile) hin' (by
    rw [hlen, htotal]
    exact hcap)
  refine ⟨_, _, _, _, _, hwritten, hreturned, put_status _ _ _, put_status _ _ _, ?_, rfl, hlen, ?_,
    ?_⟩
  · have hkept₂ (ram' : Ram) : gather base
        (Checked.put ram' base last'.addr 1 (sOk.setWidth 64)) (writable mid') =
          gather base ram' (writable mid') :=
      gather_congr fun d hd => Checked.put_outside 1 _ (hstatus.mono_right fun a ha =>
        mem_bufferSpan.mpr ⟨d, hd, ha⟩)
    rw [hkept₂, gather_scatter hapart, htotal, ← hlength]
    · exact take_drop_splice (by rw [hlength]; exact hcap)
    · rw [List.length_drop, hlen, htotal]
      exact Nat.le_sub_of_add_le' hcap
  · intro i hi
    exact getElem?_splice (by rw [hlength]; exact hcap) (by rw [hlength]; exact hi)
  · intro a ha
    simp only [Set.mem_union, not_or] at ha
    obtain ⟨⟨hbuffers, hfirst⟩, hsecond⟩ := ha
    rw [put_apart _ hsecond, scatter_outside fun d hd hin => hbuffers
      (mem_bufferSpan.mpr ⟨d, hd, hin⟩), put_apart _ hfirst]

end RoundTrip

/-! ### Requests with and without a status byte of their own -/

/-- The table of a write with one buffer of two bytes and of a read with two of one byte. -/
def roundTable (status : U64) : List Desc :=
  [⟨0x8000_1000, 16, 1⟩, ⟨0x8000_1100, 2, 1⟩, ⟨0x8000_1200, 1, 2⟩,
    ⟨0x8000_1010, 16, 1⟩, ⟨0x8000_1300, 1, 3⟩, ⟨0x8000_1301, 1, 3⟩, ⟨status, 1, 2⟩]

/-- A byte of a table entry. -/
def entryByte (d : Desc) (next k : Nat) : U8 :=
  if k < 8 then Bytes.byteAt d.addr k
  else if k < 12 then Bytes.byteAt (d.len.setWidth 64) (k - 8)
  else if k < 14 then Bytes.byteAt (d.flags.setWidth 64) (k - 12)
  else Bytes.byteAt (BitVec.ofNat 64 next) (k - 14)

/-- That table, with the headers of both requests and the two bytes to write. -/
def roundRam (status : U64) : Ram where
  byte a :=
    match (roundTable status)[a / 16]? with
    | some d => entryByte d (a / 16 + 1) (a % 16)
    | none => if a = 0x1000 then 1 else if a = 0x1100 then 5 else if a = 0x1101 then 6 else 0
  len := 0x3000

/-- What decides a request lies below a bound when its table entries and its header do. -/
theorem IsRequest.consulted_below {v : VirtioBlk} {ram : Ram} {base : U64} {head : U16}
    {first last : Desc} {mid : List Desc} {reqType : U32} {sector : U64} {bound : Nat}
    (h : IsRequest v ram base head first mid last reqType sector)
    (hentries : ∀ idx ∈ v.chain base ram.byte 16 head, (v.entry idx - base).toNat + 16 ≤ bound)
    (hheader : (first.addr - base).toNat + 16 ≤ bound) :
    v.consulted base ram.byte head ⊆ Set.Iio bound := by
  obtain ⟨second, rest, htail⟩ :=
    List.exists_cons_of_ne_nil (List.append_ne_nil_of_right_ne_nil mid (List.cons_ne_nil last []))
  rintro a (⟨idx, hmem, -, hhigh⟩ | hmem)
  · exact Nat.lt_of_lt_of_le hhigh (hentries idx hmem)
  · rw [h.descs, htail, headerSpan, span, Set.mem_Ico] at hmem
    exact Nat.lt_of_lt_of_le hmem.2 hheader

theorem roundRam_write {status : U64} (hstatus : status = 0x8000_1301 ∨ status = 0x8000_1302) :
    chainBlk.chain 0x8000_0000 (roundRam status).byte 16 0 = 0 :: chainIdxs 2 ∧
      chainBlk.IsRequest (roundRam status) 0x8000_0000 0 ⟨0x8000_1000, 16, 1⟩
        [⟨0x8000_1100, 2, 1⟩] ⟨0x8000_1200, 1, 2⟩ tOut 0 := by
  have hchain : chainBlk.chain 0x8000_0000 (roundRam status).byte 16 0 = 0 :: chainIdxs 2 := by
    rcases hstatus with rfl | rfl <;> decide
  refine ⟨hchain, hchain ▸ chainBlk_entries (by decide), ?_, rfl, ?_, ?_, ?_, ?_⟩
  · rcases hstatus with rfl | rfl <;> decide
  · exact (⟨by decide, by decide, by decide⟩ : InRam 0x3000 0x8000_0000 0x8000_1000 16)
  · rcases hstatus with rfl | rfl <;> decide
  · rcases hstatus with rfl | rfl <;> decide
  · exact (⟨by decide, by decide, by decide⟩ : InRam 0x3000 0x8000_0000 0x8000_1200 1)

theorem roundRam_read {status : U64} (hstatus : status = 0x8000_1301 ∨ status = 0x8000_1302) :
    chainBlk.chain 0x8000_0000 (roundRam status).byte 16 3 = [3, 4, 5, 6] ∧
      chainBlk.IsRequest (roundRam status) 0x8000_0000 3 ⟨0x8000_1010, 16, 1⟩
        [⟨0x8000_1300, 1, 3⟩, ⟨0x8000_1301, 1, 3⟩] ⟨status, 1, 2⟩ tIn 0 := by
  have hchain : chainBlk.chain 0x8000_0000 (roundRam status).byte 16 3 = [3, 4, 5, 6] := by
    rcases hstatus with rfl | rfl <;> decide
  have hsub : [3, 4, 5, 6] ⊆ 0 :: chainIdxs 6 := by decide
  have hends : (2 : U16) &&& descFNext = 0 := rfl
  refine ⟨hchain, hchain ▸ fun i hi => chainBlk_entries (by decide) i (hsub hi), ?_, hends, ?_, ?_,
    ?_, ?_⟩
  · rcases hstatus with rfl | rfl <;> decide
  · exact (⟨by decide, by decide, by decide⟩ : InRam 0x3000 0x8000_0000 0x8000_1010 16)
  · rcases hstatus with rfl | rfl <;> decide
  · rcases hstatus with rfl | rfl <;> decide
  · rcases hstatus with rfl | rfl
    · exact (⟨by decide, by decide, by decide⟩ : InRam 0x3000 0x8000_0000 0x8000_1301 1)
    · exact (⟨by decide, by decide, by decide⟩ : InRam 0x3000 0x8000_0000 0x8000_1302 1)

/-- What decides the two requests of the table lies below their buffers. -/
theorem roundRam_consulted {status : U64}
    (hstatus : status = 0x8000_1301 ∨ status = 0x8000_1302) :
    chainBlk.consulted 0x8000_0000 (roundRam status).byte 0 ∪
      chainBlk.consulted 0x8000_0000 (roundRam status).byte 3 ⊆ Set.Iio 0x1020 := by
  obtain ⟨hchain, hwrite⟩ := roundRam_write hstatus
  obtain ⟨hchain', hread⟩ := roundRam_read hstatus
  have hentry : ∀ i ∈ 0 :: chainIdxs 6, (chainBlk.entry i - 0x8000_0000).toNat + 16 ≤ 0x1020 := by
    intro i hi
    have hle := chainIdxs_le (by decide) i hi
    rw [(chainBlk_entries (by decide) i hi).offset, chainBlk_entry hle,
      show (0x8000_0000 : U64).toNat = 0x8000_0000 from rfl]
    omega
  refine Set.union_subset (hwrite.consulted_below ?_ (by decide))
    (hread.consulted_below ?_ (by decide))
  · rw [hchain]
    have hsub : 0 :: chainIdxs 2 ⊆ 0 :: chainIdxs 6 := by decide
    exact fun i hi => hentry i (hsub hi)
  · rw [hchain']
    have hsub : [3, 4, 5, 6] ⊆ 0 :: chainIdxs 6 := by decide
    exact fun i hi => hentry i (hsub hi)

theorem span_above {addr : U64} {n bound : Nat} {s : Set Nat} (hs : s ⊆ Set.Iio bound)
    (haddr : bound ≤ (addr - 0x8000_0000).toNat) : Disjoint (span 0x8000_0000 addr n) s := by
  refine Set.disjoint_left.mpr fun a ha hmem => ?_
  rw [span, Set.mem_Ico] at ha
  exact absurd (hs hmem) (Nat.not_lt.mpr (Nat.le_trans haddr ha.1))

theorem roundMid_apart : Apart 0x8000_0000 (writable
    [⟨0x8000_1300, 1, 3⟩, ⟨0x8000_1301, 1, 3⟩]) := by
  refine List.Pairwise.cons (fun e he => ?_) (List.pairwise_singleton _ _)
  obtain rfl := List.mem_singleton.mp he
  refine Set.disjoint_left.mpr fun a ha hmem => ?_
  have hhigh : a < 0x1301 := ha.2
  have hlow : 0x1301 ≤ a := hmem.1
  omega

theorem roundMid_inRam : ∀ d ∈ writable [⟨0x8000_1300, 1, 3⟩, ⟨0x8000_1301, 1, 3⟩],
    InRam 0x3000 0x8000_0000 d.addr d.len.toNat := by
  refine List.forall_mem_cons.mpr ⟨⟨by decide, by decide, by decide⟩, fun d hd => ?_⟩
  obtain rfl := List.mem_singleton.mp hd
  exact ⟨by decide, by decide, by decide⟩

theorem roundBuffer_inRam : ∀ d ∈ readable [⟨0x8000_1100, 2, 1⟩],
    InRam 0x3000 0x8000_0000 d.addr d.len.toNat := by
  intro d hd
  obtain rfl := List.mem_singleton.mp hd
  exact ⟨by decide, by decide, by decide⟩

theorem roundDisk_small : (List.replicate 512 (0 : U8)).length < 2 ^ 63 := by
  rw [List.length_replicate]
  decide

theorem roundDisk_room : (0 : U64).toNat * 512 + totalLen (readable [⟨0x8000_1100, 2, 1⟩]) ≤
    (List.replicate 512 (0 : U8)).length := by
  rw [List.length_replicate]
  decide

theorem round_apart_status : RoundTrips chainBlk (roundRam 0x8000_1302) 0x8000_0000
    ⟨List.replicate 512 0, 0⟩ 0 3 [⟨0x8000_1100, 2, 1⟩]
    [⟨0x8000_1300, 1, 3⟩, ⟨0x8000_1301, 1, 3⟩] ⟨0x8000_1200, 1, 2⟩ ⟨0x8000_1302, 1, 2⟩ 0 := by
  have hconsulted := Set.union_subset_iff.mp (roundRam_consulted (Or.inr rfl))
  have hbuffers : bufferSpan 0x8000_0000 [⟨0x8000_1300, 1, 3⟩, ⟨0x8000_1301, 1, 3⟩] ⊆
      Set.Iio 0x1302 := by
    rintro a ⟨d, hd, -, -, ha⟩
    refine Nat.lt_of_lt_of_le ha ?_
    rcases List.mem_pair.mp hd with rfl | rfl <;> decide
  exact write_read_roundTrips rfl roundDisk_small (roundRam_write (Or.inr rfl)).2
    (roundRam_read (Or.inr rfl)).2 roundBuffer_inRam roundMid_inRam rfl roundDisk_room
    roundMid_apart (span_above hconsulted.2 (by decide)) (span_above hbuffers (by decide))

/-- A status byte inside a buffer that is read is written over what was read. -/
theorem shared_status_overwrites :
    ¬ ∀ (v : VirtioBlk) (ram : Ram) (base : U64) (disk : Disk) (head head' : U16)
      (first first' last last' : Desc) (mid mid' : List Desc) (sector : U64),
      v.disk = some disk → disk.content.length < 2 ^ 63 →
      IsRequest v ram base head first mid last tOut sector →
      IsRequest v ram base head' first' mid' last' tIn sector →
      (∀ d ∈ readable mid, InRam ram.len base d.addr d.len.toNat) →
      (∀ d ∈ writable mid', InRam ram.len base d.addr d.len.toNat) →
      totalLen (writable mid') = totalLen (readable mid) →
      sector.toNat * 512 + totalLen (readable mid) ≤ disk.content.length →
      Apart base (writable mid') →
      (∀ d ∈ mid ++ mid', Disjoint (span base d.addr d.len.toNat)
        (v.consulted base ram.byte head ∪ v.consulted base ram.byte head')) →
      (∀ d ∈ [last, last'], Disjoint (span base d.addr 1)
        (v.consulted base ram.byte head ∪ v.consulted base ram.byte head')) →
      RoundTrips v ram base disk head head' mid mid' last last' sector := by
  intro h
  have hconsulted := roundRam_consulted (Or.inl rfl)
  obtain ⟨_, _, _, ram₂, _, _, _, _, hok, hgather, _⟩ :=
    h chainBlk (roundRam 0x8000_1301) 0x8000_0000 _ 0 3 _ _ _ _ _ _ 0 rfl roundDisk_small
      (roundRam_write (Or.inl rfl)).2 (roundRam_read (Or.inl rfl)).2 roundBuffer_inRam
      roundMid_inRam rfl roundDisk_room roundMid_apart
      (by
        intro d hd
        refine span_above hconsulted ?_
        rcases List.mem_cons.mp hd with rfl | hd
        · decide
        · rcases List.mem_pair.mp hd with rfl | rfl <;> decide)
      (by
        intro d hd
        refine span_above hconsulted ?_
        rcases List.mem_pair.mp hd with rfl | rfl <;> decide)
  have hwritten : gather 0x8000_0000 (roundRam 0x8000_1301) (readable [⟨0x8000_1100, 2, 1⟩]) =
      [5, 6] := by decide
  have hbytes : [ram₂.byte 0x1300, ram₂.byte 0x1301] = [5, 6] := hgather.trans hwritten
  have hsix : ram₂.byte 0x1301 = 6 := (List.cons.inj (List.cons.inj hbytes).2).1
  have hzero : ram₂.byte 0x1301 = sOk := hok
  exact absurd (hzero.symm.trans hsix) (by decide)

end VirtioBlk

end RiscvEmu
