import RiscvEmu.RamAccess
import RiscvEmu.Virtio.Checked
import Mathlib.Data.Set.Function
import Mathlib.Data.Set.Lattice
import Mathlib.Order.CompletePartialOrder
import Mathlib.Order.Interval.Set.Defs

/-!
# Requests of the block device

What serving one request reads and writes, as sets of RAM offsets, and when every access of it
lies in RAM.  The descriptor chain and the header decide what is served, so memory that agrees on
them holds the same request.
-/

namespace RiscvEmu

/-- A span of addresses lies in a RAM of the given length and base. -/
def InRam (len base addr : U64) (n : Nat) : Prop :=
  base.toNat ≤ addr.toNat ∧ addr.toNat + n ≤ base.toNat + len.toNat ∧ addr.toNat + n ≤ 2 ^ 64

/-- The RAM offsets of `n` bytes from an address. -/
def span (base addr : U64) (n : Nat) : Set Nat :=
  Set.Ico (addr - base).toNat ((addr - base).toNat + n)

namespace InRam

variable {len base addr : U64} {n : Nat}

theorem offset (h : InRam len base addr n) : (addr - base).toNat = addr.toNat - base.toNat := by
  have haddr := addr.isLt
  have hbase := base.isLt
  obtain ⟨hlow, _, _⟩ := h
  rw [BitVec.toNat_sub]
  omega

theorem bound (h : InRam len base addr n) : (addr - base).toNat + n ≤ len.toNat := by
  rw [h.offset]
  obtain ⟨hlow, hhigh, _⟩ := h
  omega

/-- A part of a span in RAM. -/
theorem part (h : InRam len base addr n) (k : U64) {m : Nat} (hm : 0 < m) (hk : k.toNat + m ≤ n) :
    InRam len base (addr + k) m := by
  obtain ⟨hlow, hhigh, htop⟩ := h
  have hval : (addr + k).toNat = addr.toNat + k.toNat := by
    rw [BitVec.toNat_add]
    omega
  refine ⟨?_, ?_, ?_⟩ <;> rw [hval] <;> omega

/-- The offset of a part. -/
theorem offset_part (h : InRam len base addr n) (k : U64) (hk : k.toNat < n) :
    (addr + k - base).toNat = (addr - base).toNat + k.toNat := by
  have hpart := h.part k (m := 1) Nat.one_pos (by omega)
  rw [hpart.offset, h.offset, BitVec.toNat_add]
  obtain ⟨hlow, _, htop⟩ := h
  omega

theorem le_len (h : InRam len base addr n) : n ≤ len.toNat := by
  obtain ⟨hlow, hhigh, _⟩ := h
  omega

theorem sub (h : InRam len base addr n) : VirtioBlk.Checked.sub addr base = some (addr - base) :=
  if_pos (BitVec.le_def.mpr h.1)

end InRam

namespace VirtioBlk

/-! ## Accesses in RAM -/

namespace Checked

section Accesses

variable {ram : Ram} {base addr : U64}

theorem r16_of_fits (h : InRam ram.len base addr 2) :
    r16 ram base addr = some ((Bytes.readLe ram.byte (addr - base).toNat 2).setWidth 16) := by
  rw [r16, h.sub, Option.bind_eq_bind, Option.bind_some, Ram.read_of_le h.bound, Option.map_some]

theorem r32_of_fits (h : InRam ram.len base addr 4) :
    r32 ram base addr = some ((Bytes.readLe ram.byte (addr - base).toNat 4).setWidth 32) := by
  rw [r32, h.sub, Option.bind_eq_bind, Option.bind_some, Ram.read_of_le h.bound, Option.map_some]

theorem r64_of_fits (h : InRam ram.len base addr 8) :
    r64 ram base addr = some (Bytes.readLe ram.byte (addr - base).toNat 8) := by
  rw [r64, h.sub, Option.bind_eq_bind, Option.bind_some, Ram.read_of_le h.bound]

/-- The memory with a value put at an address. -/
def put (ram : Ram) (base addr : U64) (n : Nat) (val : U64) : Ram :=
  { ram with byte := Bytes.writeLe ram.byte (addr - base).toNat n val }

theorem w8_of_fits (val : U8) (h : InRam ram.len base addr 1) :
    w8 ram base addr val = some (put ram base addr 1 (val.setWidth 64)) := by
  rw [w8, h.sub, Option.bind_eq_bind, Option.bind_some, Ram.write_of_le _ h.bound, put]

theorem w16_of_fits (val : U16) (h : InRam ram.len base addr 2) :
    w16 ram base addr val = some (put ram base addr 2 (val.setWidth 64)) := by
  rw [w16, h.sub, Option.bind_eq_bind, Option.bind_some, Ram.write_of_le _ h.bound, put]

theorem w32_of_fits (val : U32) (h : InRam ram.len base addr 4) :
    w32 ram base addr val = some (put ram base addr 4 (val.setWidth 64)) := by
  rw [w32, h.sub, Option.bind_eq_bind, Option.bind_some, Ram.write_of_le _ h.bound, put]

theorem put_outside (n : Nat) (val : U64) {s : Set Nat} (h : Disjoint (span base addr n) s) :
    Set.EqOn (put ram base addr n val).byte ram.byte s := by
  intro a ha
  have hout := Set.disjoint_right.mp h ha
  rw [span, Set.mem_Ico] at hout
  exact Bytes.writeLe_outside _ _ (by omega)

end Accesses

theorem mul_of_lt {a b : U64} (h : a.toNat * b.toNat < 2 ^ 64) : mul a b = some (a * b) := if_pos h

end Checked

/-! ## The chain in memory -/

/-- The descriptor that an entry at an offset holds. -/
def descAt (m : Nat → U8) (o : Nat) : Desc where
  addr := Bytes.readLe m o 8
  len := (Bytes.readLe m (o + 8) 4).setWidth 32
  flags := (Bytes.readLe m (o + 12) 2).setWidth 16

/-- The link that an entry at an offset holds. -/
def nextAt (m : Nat → U8) (o : Nat) : U16 := (Bytes.readLe m (o + 14) 2).setWidth 16

/-- The request type in a header. -/
def typeAt (m : Nat → U8) (o : Nat) : U32 := (Bytes.readLe m o 4).setWidth 32

/-- The first sector in a header. -/
def sectorAt (m : Nat → U8) (o : Nat) : U64 := Bytes.readLe m (o + 8) 8

/-- The address of a table entry. -/
def entry (v : VirtioBlk) (idx : U16) : U64 := v.descAddr + idx.setWidth 64 * 16

/-- The table indices that a chain visits. -/
def chain (v : VirtioBlk) (base : U64) (m : Nat → U8) : Nat → U16 → List U16
  | 0, _ => []
  | n + 1, idx =>
      let o := (v.entry idx - base).toNat
      idx :: if (descAt m o).flags &&& descFNext = 0 then [] else v.chain base m n (nextAt m o)

/-- The descriptors of the request with a given head. -/
def request (v : VirtioBlk) (base : U64) (m : Nat → U8) (head : U16) : List Desc :=
  (v.chain base m 16 head).map fun idx => descAt m (v.entry idx - base).toNat

/-- The offsets of the header of a request that has one. -/
def headerSpan (base : U64) : List Desc → Set Nat
  | first :: _ :: _ => span base first.addr 16
  | _ => ∅

/-- The offsets that decide what a request is: its table entries and its header. -/
def consulted (v : VirtioBlk) (base : U64) (m : Nat → U8) (head : U16) : Set Nat :=
  {a | ∃ idx ∈ v.chain base m 16 head, a ∈ span base (v.entry idx) 16} ∪
    headerSpan base (v.request base m head)

/-- The offsets that device-writable descriptors cover. -/
def bufferSpan (base : U64) (data : List Desc) : Set Nat :=
  {a | ∃ d ∈ data, d.flags &&& descFWrite ≠ 0 ∧ a ∈ span base d.addr d.len.toNat}

/-- The offsets that serving a request may write: its status byte, and its buffers if it is a
read. -/
def written (base : U64) (m : Nat → U8) : List Desc → Set Nat
  | first :: second :: rest =>
      span base ((second :: rest).getLast (List.cons_ne_nil _ _)).addr 1 ∪
        {a | typeAt m (first.addr - base).toNat = tIn ∧
          a ∈ bufferSpan base (second :: rest).dropLast}
  | _ => ∅

/-! ## Requests in memory that agrees -/

section Congr

variable {v : VirtioBlk} {base : U64} {m m' : Nat → U8}

theorem span_congr {addr : U64} {n : Nat} (h : Set.EqOn m m' (span base addr n)) {k l : Nat}
    (hk : k + l ≤ n) : Bytes.readLe m ((addr - base).toNat + k) l =
      Bytes.readLe m' ((addr - base).toNat + k) l :=
  Bytes.readLe_congr fun i hi => h ⟨by omega, by omega⟩

theorem descAt_congr {addr : U64} (h : Set.EqOn m m' (span base addr 16)) :
    descAt m (addr - base).toNat = descAt m' (addr - base).toNat := by
  rw [descAt, descAt, span_congr (k := 8) (l := 4) h (by omega),
    span_congr (k := 12) (l := 2) h (by omega)]
  exact congrArg (Desc.mk · _ _) (span_congr (k := 0) h (by omega))

theorem nextAt_congr {addr : U64} (h : Set.EqOn m m' (span base addr 16)) :
    nextAt m (addr - base).toNat = nextAt m' (addr - base).toNat := by
  rw [nextAt, nextAt, span_congr (k := 14) (l := 2) h (by omega)]

/-- A chain is the same in memory that agrees on the entries it visits. -/
theorem chain_congr : ∀ {n : Nat} {idx : U16},
    (∀ i ∈ v.chain base m n idx, Set.EqOn m m' (span base (v.entry i) 16)) →
      v.chain base m' n idx = v.chain base m n idx
  | 0, _, _ => rfl
  | n + 1, idx, h => by
      have hhead := h idx (List.mem_cons_self ..)
      simp only [chain, ← descAt_congr hhead, ← nextAt_congr hhead]
      split
      · rfl
      · rename_i hmore
        rw [chain_congr]
        intro i hi
        refine h i (List.mem_cons_of_mem _ ?_)
        rwa [if_neg hmore]

variable {head : U16}

theorem chain_of_consulted (h : Set.EqOn m m' (v.consulted base m head)) :
    v.chain base m' 16 head = v.chain base m 16 head :=
  chain_congr fun i hi _ ha => h (Or.inl ⟨i, hi, ha⟩)

theorem request_of_consulted (h : Set.EqOn m m' (v.consulted base m head)) :
    v.request base m' head = v.request base m head := by
  rw [request, request, chain_of_consulted h]
  apply List.map_congr_left
  intro i hi
  exact (descAt_congr fun _ ha => h (Or.inl ⟨i, hi, ha⟩)).symm

theorem consulted_of_consulted (h : Set.EqOn m m' (v.consulted base m head)) :
    v.consulted base m' head = v.consulted base m head := by
  rw [consulted, consulted, chain_of_consulted h, request_of_consulted h]

theorem typeAt_of_consulted (h : Set.EqOn m m' (v.consulted base m head)) {first second : Desc}
    {rest : List Desc} (hreq : v.request base m head = first :: second :: rest) :
    typeAt m' (first.addr - base).toNat = typeAt m (first.addr - base).toNat := by
  have hheader : Set.EqOn m m' (span base first.addr 16) := by
    intro a ha
    refine h (Or.inr ?_)
    rw [hreq]
    exact ha
  exact congrArg (·.setWidth 32) (span_congr (k := 0) (l := 4) hheader (by omega)).symm

theorem sectorAt_of_consulted (h : Set.EqOn m m' (v.consulted base m head)) {first second : Desc}
    {rest : List Desc} (hreq : v.request base m head = first :: second :: rest) :
    sectorAt m' (first.addr - base).toNat = sectorAt m (first.addr - base).toNat := by
  have hheader : Set.EqOn m m' (span base first.addr 16) := by
    intro a ha
    refine h (Or.inr ?_)
    rw [hreq]
    exact ha
  rw [sectorAt, sectorAt, span_congr (k := 8) (l := 8) hheader (by omega)]

theorem written_of_consulted (h : Set.EqOn m m' (v.consulted base m head)) :
    written base m' (v.request base m' head) = written base m (v.request base m head) := by
  rw [request_of_consulted h]
  match hreq : v.request base m head with
  | [] => rfl
  | [_] => rfl
  | first :: second :: rest => rw [written, written, typeAt_of_consulted h hreq]

end Congr

/-! ## When a request can be served -/

/-- A buffer lies inside RAM. -/
def Inside (len base : U64) (d : Desc) : Prop :=
  base ≤ d.addr ∧ (d.addr - base).toNat + d.len.toNat ≤ len.toNat

/-- Every buffer that a read fills fits RAM, as far as the disk goes on. -/
def ReadFits (len base : U64) : List Desc → Disk → Prop
  | [], _ => True
  | d :: ds, disk =>
      if d.flags &&& descFWrite = 0 then ReadFits len base ds disk
      else d.addr < base ∨ d.len.toNat ≤ len.toNat ∧
        (Inside len base d → (disk.readExact d.len.toNat).1 = true →
          ReadFits len base ds (disk.readExact d.len.toNat).2.2)

/-- Every buffer that a write takes fits RAM, as far as the disk goes on. -/
def WriteFits (base : U64) (ram : Ram) : List Desc → Disk → Prop
  | [], _ => True
  | d :: ds, disk =>
      if d.flags &&& descFWrite ≠ 0 then WriteFits base ram ds disk
      else d.addr < base ∨ d.len.toNat ≤ ram.len.toNat ∧
        ∀ bs disk', ram.slice (d.addr - base).toNat d.len.toNat = some bs →
          disk.writeAll bs = some disk' → WriteFits base ram ds disk'

/-- The buffers of a request fit RAM. -/
def BuffersFit (base : U64) (ram : Ram) (reqType : U32) (data : List Desc) (disk : Disk) : Prop :=
  (reqType = tIn → ReadFits ram.len base data disk) ∧
    (reqType = tOut → WriteFits base ram data disk)

/-- A chain of two or more descriptors can be served: its header and status byte are in RAM,
the byte offset on the disk does not wrap, and the buffers fit. -/
structure BodyFits (v : VirtioBlk) (ram : Ram) (base : U64) (first : Desc) (tail : List Desc)
    (status : Desc) : Prop where
  header : InRam ram.len base first.addr 16
  status : InRam ram.len base status.addr 1
  sector : v.disk.isSome → (sectorAt ram.byte (first.addr - base).toNat).toNat * 512 < 2 ^ 64
  buffers : ∀ disk disk', v.disk = some disk →
    disk.seek (sectorAt ram.byte (first.addr - base).toNat * sectorSize) = some disk' →
      BuffersFit base ram (typeAt ram.byte (first.addr - base).toNat) tail.dropLast disk'

/-- The request with a given head can be served. -/
structure RequestFits (v : VirtioBlk) (ram : Ram) (base : U64) (head : U16) : Prop where
  entries : ∀ idx ∈ v.chain base ram.byte 16 head, InRam ram.len base (v.entry idx) 16
  body : ∀ first second rest, v.request base ram.byte head = first :: second :: rest →
    BodyFits v ram base first (second :: rest)
      ((second :: rest).getLast (List.cons_ne_nil _ _))

namespace Checked

section Serving

variable {v : VirtioBlk} {ram : Ram} {base : U64}

theorem collect_of_fits : ∀ {n : Nat} {idx : U16},
    (∀ i ∈ v.chain base ram.byte n idx, InRam ram.len base (v.entry i) 16) →
      collect v ram base n idx =
        some ((v.chain base ram.byte n idx).map fun i => descAt ram.byte (v.entry i - base).toNat)
  | 0, _, _ => rfl
  | n + 1, idx, h => by
      have hfit := h idx (List.mem_cons_self ..)
      have hlink : mul (idx.setWidth 64) 16 = some (idx.setWidth 64 * 16) := by
        apply mul_of_lt
        have := idx.isLt
        rw [BitVec.toNat_setWidth, show (16 : U64).toNat = 16 from rfl]
        omega
      have h0 : r64 ram base (v.entry idx) = _ :=
        r64_of_fits ⟨hfit.1, by have := hfit.2.1; omega, by have := hfit.2.2; omega⟩
      have h8 := r32_of_fits (hfit.part 8 (m := 4) (by decide) (by decide))
      have h12 := r16_of_fits (hfit.part 12 (m := 2) (by decide) (by decide))
      have h14 := r16_of_fits (hfit.part 14 (m := 2) (by decide) (by decide))
      rw [hfit.offset_part 8 (by decide)] at h8
      rw [hfit.offset_part 12 (by decide)] at h12
      rw [hfit.offset_part 14 (by decide)] at h14
      rw [entry] at h0 h8 h12 h14
      rw [collect]
      simp only [hlink, h0, h8, h12, h14, Option.bind_eq_bind, Option.bind_some]
      rw [chain]
      split
      · rename_i hlast
        have hlast' : (descAt ram.byte (v.entry idx - base).toNat).flags &&& descFNext = 0 := hlast
        rw [if_pos hlast']
        rfl
      · rename_i hmore
        have hmore' : ¬ (descAt ram.byte (v.entry idx - base).toNat).flags &&& descFNext = 0 :=
          hmore
        have htail : collect v ram base n (nextAt ram.byte (v.entry idx - base).toNat) = _ :=
          collect_of_fits fun i hi => h i (List.mem_cons_of_mem _ (by rwa [if_neg hmore']))
        rw [if_neg hmore']
        exact (congrArg (Option.bind · _) htail).trans rfl

/-- The range check, where it does not wrap, accepts exactly the buffers inside RAM. -/
theorem outOfRam_of_fits {d : Desc} (h : d.addr < base ∨ d.len.toNat ≤ ram.len.toNat) :
    outOfRam ram base d = some true ∨
      outOfRam ram base d = some false ∧ Inside ram.len base d := by
  rw [outOfRam]
  split
  · exact Or.inl rfl
  · rename_i hlow
    have hle : base ≤ d.addr := BitVec.not_lt.mp hlow
    have hroom : d.len.toNat ≤ ram.len.toNat := h.resolve_left hlow
    have hlen := d.len.isLt
    have hwide : (d.len.setWidth 64 : U64).toNat = d.len.toNat := by
      rw [BitVec.toNat_setWidth]
      omega
    have hsub : (ram.len - d.len.setWidth 64).toNat = ram.len.toNat - d.len.toNat := by
      have := ram.len.isLt
      rw [BitVec.toNat_sub, hwide]
      omega
    rw [sub, if_pos hle, sub, if_pos (BitVec.le_def.mpr (by omega))]
    simp only [Option.bind_eq_bind, Option.bind_some, BitVec.lt_def, hsub]
    cases hout : decide (ram.len.toNat - d.len.toNat < (d.addr - base).toNat) with
    | true => exact Or.inl rfl
    | false =>
        refine Or.inr ⟨rfl, hle, ?_⟩
        have := of_decide_eq_false hout
        omega

theorem slice_of_inside {d : Desc} (h : Inside ram.len base d) :
    ∃ bs, ram.slice (d.addr - base).toNat d.len.toNat = some bs := ⟨_, if_pos h.2⟩

theorem readData_of_fits : ∀ {ds : List Desc} {disk : Disk} {ram : Ram},
    ReadFits ram.len base ds disk → ∃ r, readData base ds disk ram = some r
  | [], _, _, _ => ⟨_, rfl⟩
  | d :: ds, disk, ram, h => by
      rw [ReadFits] at h
      rw [readData]
      split at h
      · rename_i hskip
        rw [if_pos hskip]
        exact readData_of_fits h
      · rename_i hskip
        rw [if_neg hskip]
        rcases outOfRam_of_fits (h.imp_right And.left) with hout | ⟨hout, hin⟩
        · rw [hout]
          exact ⟨_, rfl⟩
        · obtain ⟨bs, hbs⟩ := slice_of_inside hin
          simp only [hout, sub, if_pos hin.1, hbs, Option.bind_eq_bind, Option.bind_some,
            Bool.false_eq_true, if_false]
          split
          · rename_i hread
            rcases h with hlow | ⟨_, hrest⟩
            · exact absurd hlow (BitVec.not_lt.mpr hin.1)
            · have := hrest hin (by rw [hread])
              rw [hread] at this
              exact readData_of_fits this
          · exact ⟨_, rfl⟩

theorem writeData_of_fits : ∀ {ds : List Desc} {disk : Disk},
    WriteFits base ram ds disk → ∃ r, writeData base ram ds disk = some r
  | [], _, _ => ⟨_, rfl⟩
  | d :: ds, disk, h => by
      rw [WriteFits] at h
      rw [writeData]
      split at h
      · rename_i hskip
        rw [if_pos hskip]
        exact writeData_of_fits h
      · rename_i hskip
        rw [if_neg hskip]
        rcases outOfRam_of_fits (h.imp_right And.left) with hout | ⟨hout, hin⟩
        · rw [hout]
          exact ⟨_, rfl⟩
        · obtain ⟨bs, hbs⟩ := slice_of_inside hin
          simp only [hout, sub, if_pos hin.1, hbs, Option.bind_eq_bind, Option.bind_some,
            Bool.false_eq_true, if_false]
          split
          · rename_i hwrite
            rcases h with hlow | ⟨_, hrest⟩
            · exact absurd hlow (BitVec.not_lt.mpr hin.1)
            · exact writeData_of_fits (hrest _ _ hbs hwrite)
          · exact ⟨_, rfl⟩

theorem transfer_of_fits {reqType : U32} {byteOff : U64} {data : List Desc} {disk : Disk}
    (h : ∀ disk', disk.seek byteOff = some disk' → BuffersFit base ram reqType data disk') :
    ∃ r, transfer reqType byteOff base data disk ram = some r := by
  rw [transfer]
  split
  · rename_i hin
    cases hseek : disk.seek byteOff with
    | none => exact ⟨_, rfl⟩
    | some disk' => exact readData_of_fits ((h disk' hseek).1 hin)
  · split
    · rename_i hout
      cases hseek : disk.seek byteOff with
      | none => exact ⟨_, rfl⟩
      | some disk' =>
          obtain ⟨r, hr⟩ := writeData_of_fits ((h disk' hseek).2 hout)
          simp only [hr, Option.bind_eq_bind, Option.bind_some]
          exact ⟨_, rfl⟩
    · exact ⟨_, rfl⟩

/-- A request that can be served is served, with every index in range and no operation
wrapping. -/
theorem doRequest_of_fits {head : U16} (h : RequestFits v ram base head) :
    ∃ r, doRequest v ram base head = some r := by
  rw [doRequest, collect_of_fits h.entries, Option.bind_eq_bind, Option.bind_some]
  have hbody := h.body
  rw [request] at hbody
  generalize (v.chain base ram.byte 16 head).map _ = ds at hbody
  match ds, hbody with
  | [], _ => exact ⟨_, rfl⟩
  | [_], _ => exact ⟨_, rfl⟩
  | first :: second :: rest, hbody =>
      obtain ⟨hheader, hstatus, hsector, hbuffers⟩ := hbody first second rest rfl
      have h0 : r32 ram base first.addr = _ :=
        r32_of_fits ⟨hheader.1, by have := hheader.2.1; omega, by have := hheader.2.2; omega⟩
      have h8 := r64_of_fits (hheader.part 8 (m := 8) (by decide) (by decide))
      rw [hheader.offset_part 8 (by decide)] at h8
      simp only [h0, h8, Option.bind_eq_bind, Option.bind_some]
      cases hdisk : v.disk with
      | none =>
          simp only [w8_of_fits sIoErr hstatus, Option.bind_some]
          exact ⟨_, rfl⟩
      | some disk =>
          have hmul : mul (sectorAt ram.byte (first.addr - base).toNat) sectorSize = some _ :=
            mul_of_lt (hsector (by rw [hdisk]; rfl))
          obtain ⟨⟨ok, disk', ram'⟩, ht⟩ :=
            transfer_of_fits fun disk' hseek => hbuffers disk disk' hdisk hseek
          have hlen : ram'.len = ram.len := VirtioBlk.transfer_len (transfer_eq ht)
          rw [← hlen] at hstatus
          have hw : w8 ram' base _ (if ok then sOk else sIoErr) = _ := w8_of_fits _ hstatus
          rw [sectorAt] at hmul
          rw [sectorAt, typeAt] at ht
          have hsize : (8 : U64).toNat = 8 := rfl
          simp only [hsize, hmul, ht, hw, Option.bind_some]
          exact ⟨_, rfl⟩

end Serving

end Checked

/-! ## What a request that was served has read -/

section Returned

variable {v : VirtioBlk} {ram ram' : Ram} {base addr : U64}

theorem r16_returned {x : U16} (h : r16 ram base addr = some x) :
    x = (Bytes.readLe ram.byte (addr - base).toNat 2).setWidth 16 ∧
      (addr - base).toNat + 2 ≤ ram.len.toNat := by
  rw [r16, Ram.read] at h
  split at h <;> cases h
  exact ⟨rfl, ‹_›⟩

theorem r32_returned {x : U32} (h : r32 ram base addr = some x) :
    x = (Bytes.readLe ram.byte (addr - base).toNat 4).setWidth 32 ∧
      (addr - base).toNat + 4 ≤ ram.len.toNat := by
  rw [r32, Ram.read] at h
  split at h <;> cases h
  exact ⟨rfl, ‹_›⟩

theorem r64_returned {x : U64} (h : r64 ram base addr = some x) :
    x = Bytes.readLe ram.byte (addr - base).toNat 8 ∧
      (addr - base).toNat + 8 ≤ ram.len.toNat := by
  rw [r64, Ram.read] at h
  split at h <;> cases h
  exact ⟨rfl, ‹_›⟩

theorem w16_returned {val : U16} (h : w16 ram base addr val = some ram') :
    ram' = Checked.put ram base addr 2 (val.setWidth 64) ∧
      (addr - base).toNat + 2 ≤ ram.len.toNat := by
  rw [w16, Ram.write] at h
  split at h <;> cases h
  exact ⟨rfl, ‹_›⟩

theorem w32_returned {val : U32} (h : w32 ram base addr val = some ram') :
    ram' = Checked.put ram base addr 4 (val.setWidth 64) ∧
      (addr - base).toNat + 4 ≤ ram.len.toNat := by
  rw [w32, Ram.write] at h
  split at h <;> cases h
  exact ⟨rfl, ‹_›⟩

/-- Offsets go on from a span in RAM without wrapping. -/
theorem offset_add {len : U64} {n : Nat} (h : (addr - base).toNat + n ≤ len.toNat) (k : U64)
    (hk : k.toNat ≤ n) : (addr + k - base).toNat = (addr - base).toNat + k.toNat := by
  have hlen := len.isLt
  have hbase := base.isLt
  have haddr := addr.isLt
  rw [BitVec.toNat_sub] at h ⊢
  rw [BitVec.toNat_sub, BitVec.toNat_add]
  omega

/-- A chain that was collected is the one in memory. -/
theorem collect_returned : ∀ {n : Nat} {idx : U16} {ds : List Desc},
    v.collect ram base n idx = some ds →
      ds = (v.chain base ram.byte n idx).map fun i => descAt ram.byte (v.entry i - base).toNat
  | 0, _, ds, h => by
      cases h
      rfl
  | n + 1, idx, ds, h => by
      obtain ⟨addr, haddr, h⟩ := Option.bind_eq_some_iff.mp h
      obtain ⟨len, hlen, h⟩ := Option.bind_eq_some_iff.mp h
      obtain ⟨flags, hflags, h⟩ := Option.bind_eq_some_iff.mp h
      obtain ⟨next, hnext, h⟩ := Option.bind_eq_some_iff.mp h
      obtain ⟨haddr, h8⟩ := r64_returned haddr
      obtain ⟨hlen, h12⟩ := r32_returned hlen
      rw [offset_add h8 8 (by decide)] at hlen h12
      obtain ⟨hflags, h14⟩ := r16_returned hflags
      rw [offset_add (n := 12) (by exact h12) 12 (by decide)] at hflags h14
      obtain ⟨hnext, _⟩ := r16_returned hnext
      rw [offset_add (n := 14) (by exact h14) 14 (by decide)] at hnext
      have hdesc : descAt ram.byte (v.entry idx - base).toNat = ⟨addr, len, flags⟩ := by
        rw [descAt, haddr, hlen, hflags]
        rfl
      have hlink : nextAt ram.byte (v.entry idx - base).toNat = next := hnext.symm
      dsimp only at h
      rw [chain]
      simp only [hdesc, hlink, List.map_cons]
      split at h
      · rename_i hlast
        cases h
        rw [if_pos hlast]
        rfl
      · rename_i hmore
        obtain ⟨rest, hrest, h⟩ := Option.bind_eq_some_iff.mp h
        cases h
        rw [if_neg hmore]
        exact congrArg _ (collect_returned hrest)

end Returned

/-! ## What serving a request leaves alone -/

section Frames

variable {v v' : VirtioBlk} {ram ram' : Ram} {base : U64}

theorem fill_outside {o : Nat} {bs : List U8} {a : Nat} (h : a < o ∨ o + bs.length ≤ a) :
    (ram.fill o bs).byte a = ram.byte a := by
  simp only [Ram.fill]
  rcases h with h | h
  · rw [if_neg (by omega)]
  · rw [if_pos (by omega), List.getElem?_eq_none (by omega)]
    rfl

theorem readExact_length (disk : Disk) (n : Nat) : (disk.readExact n).2.1.length ≤ n := by
  simp only [Disk.readExact, List.length_take]
  omega

/-- A write moves the cursor past its bytes, or is refused. -/
theorem writeAll_cases (disk : Disk) (bs : List U8) :
    ((bs.length = 0 ∨ disk.cursor + bs.length < 2 ^ 63) ∧
        ∃ content, disk.writeAll bs = some ⟨content, disk.cursor + bs.length⟩) ∨
      ¬ (bs.length = 0 ∨ disk.cursor + bs.length < 2 ^ 63) ∧ disk.writeAll bs = none := by
  rw [Disk.writeAll]
  split
  · rename_i hempty
    subst hempty
    exact Or.inl ⟨Or.inl rfl, disk.content, rfl⟩
  · rename_i hne
    split
    · rename_i hlt
      exact Or.inl ⟨Or.inr hlt, _, rfl⟩
    · rename_i hge
      exact Or.inr ⟨not_or.mpr ⟨fun h => hne (List.eq_nil_of_length_eq_zero h), hge⟩, rfl⟩

theorem seek_eq_some {disk disk₁ : Disk} {byteOff : U64} (h : disk.seek byteOff = some disk₁) :
    byteOff.toNat < 2 ^ 63 ∧ disk₁ = ⟨disk.content, byteOff.toNat⟩ := by
  rw [Disk.seek] at h
  split at h <;> cases h
  exact ⟨‹_›, rfl⟩

/-- A filled buffer changes nothing outside itself. -/
theorem fill_buffer {d : Desc} {disk : Disk} {a : Nat}
    (ha : a ∉ span base d.addr d.len.toNat) :
    (ram.fill (d.addr - base).toNat (disk.readExact d.len.toNat).2.1).byte a = ram.byte a := by
  have hlen := readExact_length disk d.len.toNat
  rw [span, Set.mem_Ico] at ha
  exact fill_outside (by omega)

theorem readData_frame : ∀ {ds : List Desc} {disk disk' : Disk} {ram ram' : Ram} {ok : Bool},
    readData base ds disk ram = some (ok, disk', ram') →
      ∀ a ∉ bufferSpan base ds, ram'.byte a = ram.byte a
  | [], _, _, _, _, _, h, a, _ => by
      cases h
      rfl
  | d :: ds, disk, disk', ram, ram', ok, h, a, ha => by
      have htail : a ∉ bufferSpan base ds := fun ⟨e, he, hrest⟩ =>
        ha ⟨e, List.mem_cons_of_mem _ he, hrest⟩
      rw [readData] at h
      split at h
      · exact readData_frame h a htail
      · rename_i hwritable
        have hhead : a ∉ span base d.addr d.len.toNat := fun hin =>
          ha ⟨d, List.mem_cons_self .., hwritable, hin⟩
        split at h
        · cases h
          rfl
        · obtain ⟨_, _, h⟩ := Option.bind_eq_some_iff.mp h
          have hfill : (ram.fill _ (disk.readExact _).2.1).byte a = _ := fill_buffer hhead
          split at h
          · rename_i hread
            rw [hread] at hfill
            exact (readData_frame h a htail).trans hfill
          · rename_i hread
            rw [hread] at hfill
            cases h
            exact hfill

theorem transfer_frame {reqType : U32} {byteOff : U64} {data : List Desc} {disk disk' : Disk}
    {ok : Bool} (h : transfer reqType byteOff base data disk ram = some (ok, disk', ram')) {a : Nat}
    (ha : ¬ (reqType = tIn ∧ a ∈ bufferSpan base data)) : ram'.byte a = ram.byte a := by
  rw [transfer] at h
  split at h
  · rename_i hin
    split at h
    · cases h
      rfl
    · exact readData_frame h a fun hmem => ha ⟨hin, hmem⟩
  · split at h
    · split at h
      · cases h
        rfl
      · obtain ⟨_, _, h⟩ := Option.bind_eq_some_iff.mp h
        cases h
        rfl
    · cases h
      rfl

theorem w8_outside {addr : U64} {val : U8} (h : w8 ram base addr val = some ram') {a : Nat}
    (ha : a ∉ span base addr 1) : ram'.byte a = ram.byte a := by
  rw [w8, Ram.write] at h
  split at h <;> cases h
  rw [span, Set.mem_Ico] at ha
  exact Bytes.writeLe_outside _ _ (by omega)

/-- Serving a request changes the disk, and RAM at what the request writes, and nothing else. -/
theorem doRequest_frame {head : U16} (h : v.doRequest ram base head = some (v', ram')) :
    (∃ disk, v' = { v with disk := disk }) ∧
      ∀ a ∉ written base ram.byte (v.request base ram.byte head), ram'.byte a = ram.byte a := by
  obtain ⟨descs, hcollect, h⟩ := Option.bind_eq_some_iff.mp h
  obtain rfl : descs = v.request base ram.byte head := collect_returned hcollect
  generalize v.request base ram.byte head = ds at h
  match ds, h with
  | [], h =>
      cases h
      exact ⟨⟨v.disk, rfl⟩, fun _ _ => rfl⟩
  | [_], h =>
      cases h
      exact ⟨⟨v.disk, rfl⟩, fun _ _ => rfl⟩
  | first :: second :: rest, h =>
      obtain ⟨reqType, hreq, h⟩ := Option.bind_eq_some_iff.mp h
      obtain ⟨sector, _, h⟩ := Option.bind_eq_some_iff.mp h
      have htype : reqType = typeAt ram.byte (first.addr - base).toNat := (r32_returned hreq).1
      dsimp only at h
      split at h
      · obtain ⟨ram₁, hw, h⟩ := Option.bind_eq_some_iff.mp h
        cases h
        refine ⟨⟨v.disk, rfl⟩, fun a ha => w8_outside hw fun hin => ha (Or.inl hin)⟩
      · obtain ⟨⟨ok, disk', ram₁⟩, ht, h⟩ := Option.bind_eq_some_iff.mp h
        obtain ⟨ram₂, hw, h⟩ := Option.bind_eq_some_iff.mp h
        cases h
        refine ⟨⟨some disk', rfl⟩, fun a ha => ?_⟩
        rw [w8_outside hw fun hin => ha (Or.inl hin)]
        exact transfer_frame ht fun hin => ha (Or.inr (htype ▸ hin))

end Frames

end VirtioBlk

end RiscvEmu
