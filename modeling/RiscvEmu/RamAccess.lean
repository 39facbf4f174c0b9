import RiscvEmu.Bus
import Mathlib.Tactic.Common

/-!
# RAM accesses of the bus

Outside the device windows a load or store is a slice of guest RAM or a bus fault.  The bounds
check of the bus is the one the slice needs, so a RAM access never aborts.  No access moves RAM,
not even a notification of the block device, which runs requests against it.
-/

namespace RiscvEmu

/-! ## The length of RAM -/

namespace Ram

theorem write_len {r r' : Ram} {o n : Nat} {v : U64} (h : r.write o n v = some r') :
    r'.len = r.len := by
  rw [write] at h
  split at h
  · cases h
    rfl
  · cases h

end Ram

namespace VirtioBlk

theorem w16_len {ram ram' : Ram} {base addr : U64} {val : U16}
    (h : w16 ram base addr val = some ram') : ram'.len = ram.len := Ram.write_len h

theorem w32_len {ram ram' : Ram} {base addr : U64} {val : U32}
    (h : w32 ram base addr val = some ram') : ram'.len = ram.len := Ram.write_len h

theorem w8_len {ram ram' : Ram} {base addr : U64} {val : U8}
    (h : w8 ram base addr val = some ram') : ram'.len = ram.len := Ram.write_len h

theorem readData_len {base : U64} :
    ∀ {ds : List Desc} {disk disk' : Disk} {ram ram' : Ram} {ok : Bool},
      readData base ds disk ram = some (ok, disk', ram') → ram'.len = ram.len
  | [], _, _, _, _, _, h => by
      cases h
      rfl
  | d :: ds, disk, disk', ram, ram', ok, h => by
      rw [readData] at h
      split at h
      · exact readData_len h
      · split at h
        · cases h
          rfl
        · obtain ⟨_, _, h⟩ := Option.bind_eq_some_iff.mp h
          split at h
          · exact (readData_len h :)
          · cases h
            rfl

theorem transfer_len {reqType : U32} {byteOff base : U64} {data : List Desc} {disk disk' : Disk}
    {ram ram' : Ram} {ok : Bool}
    (h : transfer reqType byteOff base data disk ram = some (ok, disk', ram')) :
    ram'.len = ram.len := by
  rw [transfer] at h
  split at h
  · split at h
    · cases h
      rfl
    · exact readData_len h
  · split at h
    · split at h
      · cases h
        rfl
      · obtain ⟨_, _, h⟩ := Option.bind_eq_some_iff.mp h
        cases h
        rfl
    · cases h
      rfl

theorem doRequest_len {v v' : VirtioBlk} {ram ram' : Ram} {base : U64} {head : U16}
    (h : v.doRequest ram base head = some (v', ram')) : ram'.len = ram.len := by
  rw [doRequest] at h
  obtain ⟨descs, _, h⟩ := Option.bind_eq_some_iff.mp h
  split at h
  · cases h
    rfl
  · cases h
    rfl
  · obtain ⟨reqType, _, h⟩ := Option.bind_eq_some_iff.mp h
    obtain ⟨sector, _, h⟩ := Option.bind_eq_some_iff.mp h
    dsimp only at h
    split at h
    · obtain ⟨ram₁, hw, h⟩ := Option.bind_eq_some_iff.mp h
      cases h
      exact w8_len hw
    · obtain ⟨⟨ok, disk', ram₁⟩, ht, h⟩ := Option.bind_eq_some_iff.mp h
      obtain ⟨ram₂, hw, h⟩ := Option.bind_eq_some_iff.mp h
      cases h
      exact (w8_len hw).trans (transfer_len ht)

theorem serveNext_len {v v' : VirtioBlk} {ram ram' : Ram} {base : U64}
    (h : v.serveNext ram base = some (v', ram')) : ram'.len = ram.len := by
  rw [serveNext] at h
  obtain ⟨head, _, h⟩ := Option.bind_eq_some_iff.mp h
  obtain ⟨⟨v₁, ram₁⟩, hreq, h⟩ := Option.bind_eq_some_iff.mp h
  obtain ⟨usedIdx, _, h⟩ := Option.bind_eq_some_iff.mp h
  obtain ⟨ram₂, h₂, h⟩ := Option.bind_eq_some_iff.mp h
  obtain ⟨ram₃, h₃, h⟩ := Option.bind_eq_some_iff.mp h
  obtain ⟨ram₄, h₄, h⟩ := Option.bind_eq_some_iff.mp h
  cases h
  exact (w16_len h₄).trans ((w32_len h₃).trans ((w32_len h₂).trans (doRequest_len hreq)))

theorem drain_len (base : U64) (v : VirtioBlk) (ram : Ram) (r : VirtioBlk × Ram)
    (h : drain base v ram = some r) : r.2.len = ram.len := by
  refine drain.partial_correctness base (fun v ram r => r.2.len = ram.len) ?_ v ram r h
  intro drain ih v ram r h
  obtain ⟨availIdx, _, h⟩ := Option.bind_eq_some_iff.mp h
  split at h
  · cases h
    rfl
  · obtain ⟨⟨v₁, ram₁⟩, hs, h⟩ := Option.bind_eq_some_iff.mp h
    exact (ih v₁ ram₁ r h).trans (serveNext_len hs)

theorem processQueue_len {v v' : VirtioBlk} {ram ram' : Ram} {base : U64}
    (h : v.processQueue ram base = some (v', ram')) : ram'.len = ram.len := by
  rw [processQueue] at h
  split at h
  · cases h
    rfl
  · exact drain_len base v ram _ h

end VirtioBlk

namespace Bus

/-! ## The bounds check -/

/-- An accepted access lies in RAM as a whole. -/
theorem offset_ok {b : Bus} {addr : U64} {w : Width} {off : Nat} (h : b.offset addr w = .ok off) :
    off = (addr - b.ramBase).toNat ∧ b.ramBase.toNat ≤ addr.toNat ∧
      off + w.bytes ≤ b.ram.len.toNat ∧
      addr.toNat + w.bytes ≤ (b.ramBase + b.ram.len).toNat := by
  have hw := w.bytes_pos
  have hbase := b.ramBase.isLt
  have hlen := b.ram.len.isLt
  have haddr := addr.isLt
  rw [offset] at h
  split at h
  · rename_i hfit
    simp only [BitVec.toNat_add, BitVec.lt_def] at h ⊢
    split at h
    · cases h
    · rename_i hin
      cases h
      rw [BitVec.toNat_sub]
      refine ⟨rfl, ?_, ?_, ?_⟩ <;> omega
  · cases h

/-- The offset of an accepted access. -/
theorem offset_eq {b : Bus} {addr : U64} {w : Width} {off : Nat} (h : b.offset addr w = .ok off) :
    off = addr.toNat - b.ramBase.toNat := by
  have haddr := addr.isLt
  have hbase := b.ramBase.isLt
  obtain ⟨rfl, hle, _, _⟩ := offset_ok h
  rw [BitVec.toNat_sub]
  omega

/-- The physical address of a byte of an accepted access. -/
theorem address_eq {b : Bus} {addr : U64} {w : Width} {off : Nat} (ho : b.offset addr w = .ok off)
    {i : Nat} : b.ramBase + BitVec.ofNat 64 (off + i) = addr + BitVec.ofNat 64 i := by
  have heq := Bus.offset_eq ho
  have hle := (Bus.offset_ok ho).2.1
  have haddr := addr.isLt
  apply BitVec.eq_of_toNat_eq
  rw [BitVec.toNat_add, BitVec.toNat_add, BitVec.toNat_ofNat, BitVec.toNat_ofNat]
  omega

/-- A part of an accepted access is accepted. -/
theorem offset_within {b : Bus} {addr : U64} {w u : Width} {off : Nat}
    (ho : b.offset addr w = .ok off) {i : Nat} (hi : i + u.bytes ≤ w.bytes) :
    b.offset (addr + BitVec.ofNat 64 i) u = .ok (off + i) := by
  have heq := offset_eq ho
  have hu := u.bytes_pos
  obtain ⟨_, hle, hlen, hend⟩ := offset_ok ho
  have hbound := (b.ramBase + b.ram.len).isLt
  have hbase := b.ramBase.isLt
  have hval : (addr + BitVec.ofNat 64 i).toNat = addr.toNat + i := by
    rw [BitVec.toNat_add, BitVec.toNat_ofNat]
    omega
  rw [offset, hval, if_pos (by omega)]
  have hin : ¬ (addr + BitVec.ofNat 64 i < b.ramBase ∨
      (b.ramBase + b.ram.len).toNat < addr.toNat + i + u.bytes) := by
    rw [BitVec.lt_def, hval]
    omega
  simp only [if_neg hin, BitVec.toNat_sub, hval]
  congr 1
  omega

/-- The bytes of an accepted access are accepted, one after the other. -/
theorem offset_byte {b : Bus} {addr : U64} {w : Width} {off : Nat}
    (ho : b.offset addr w = .ok off) {i : Nat} (hi : i < w.bytes) :
    b.offset (addr + BitVec.ofNat 64 i) .b1 = .ok (off + i) :=
  offset_within ho hi

/-- The check depends on the placement of RAM only. -/
theorem offset_congr {b b' : Bus} (hbase : b'.ramBase = b.ramBase)
    (hlen : b'.ram.len = b.ram.len) (addr : U64) (w : Width) :
    b'.offset addr w = b.offset addr w := by
  rw [offset, offset, hbase, hlen]

/-! ## Loads and stores -/

section Ram

variable {b : Bus} {addr : U64} {w : Width}

theorem load_ram {off : Nat} (hr : region addr = .ram) (ho : b.offset addr w = .ok off) :
    load addr w b = some (.ok (Bytes.readLe b.ram.byte off w.bytes), b) := by
  simp only [load, hr, ho, Ram.read_of_le (offset_ok ho).2.2.1, Option.map_some]

theorem load_ram_error {e : BusFault} (hr : region addr = .ram)
    (ho : b.offset addr w = .error e) : load addr w b = some (.error e, b) := by
  simp only [load, hr, ho]

/-- A load from RAM leaves the bus alone. -/
theorem load_ram_still {r : Except BusFault U64} {b' : Bus} (hr : region addr = .ram)
    (hload : load addr w b = some (r, b')) : b' = b := by
  cases ho : b.offset addr w with
  | error e =>
      rw [load_ram_error hr ho] at hload
      cases hload
      rfl
  | ok off =>
      rw [load_ram hr ho] at hload
      cases hload
      rfl

/-- The bus after bytes of its RAM were replaced. -/
def setBytes (b : Bus) (off n : Nat) (v : U64) : Bus :=
  { b with ram := { b.ram with byte := Bytes.writeLe b.ram.byte off n v } }

@[simp] theorem setBytes_byte (b : Bus) (off n : Nat) (v : U64) :
    (b.setBytes off n v).ram.byte = Bytes.writeLe b.ram.byte off n v := rfl

@[simp] theorem setBytes_zero (b : Bus) (off : Nat) (v : U64) : b.setBytes off 0 v = b := by
  rw [setBytes, Bytes.writeLe_zero]

/-- Neighbouring parts of a value are put in place one after the other. -/
theorem setBytes_append (b : Bus) (off m n : Nat) (v : U64) :
    (b.setBytes off m v).setBytes (off + m) n (v >>> (m * 8)) = b.setBytes off (m + n) v := by
  rw [setBytes, setBytes, setBytes, Bytes.writeLe_append]

theorem setBytes_mask_one (b : Bus) (off : Nat) (v : U64) :
    b.setBytes off 1 (v &&& 0xff) = b.setBytes off 1 v := by
  rw [setBytes, setBytes, Bytes.writeLe_mask_one]

theorem store_ram {off : Nat} (v : U64) (hr : region addr = .ram)
    (ho : b.offset addr w = .ok off) :
    store addr w v b = some (.ok (), b.setBytes off w.bytes v) := by
  simp only [store, hr, ho, Ram.write_of_le v (offset_ok ho).2.2.1, Option.map_some, setBytes]

theorem store_ram_error {e : BusFault} (v : U64) (hr : region addr = .ram)
    (ho : b.offset addr w = .error e) : store addr w v b = some (.error e, b) := by
  simp only [store, hr, ho]

end Ram

section Devices

variable {addr : U64} (w : Width) (b : Bus)

theorem load_clint (hr : region addr = .clint) :
    load addr w b = some (.ok (b.clint.load addr), b) := by
  simp only [load, hr]

theorem load_plic (hr : region addr = .plic) :
    load addr w b = some (.ok (b.plic.load addr).1, { b with plic := (b.plic.load addr).2 }) := by
  simp only [load, hr]

theorem load_uart (hr : region addr = .uart) :
    load addr w b = some (.ok (b.uart.load addr).1, { b with uart := (b.uart.load addr).2 }) := by
  simp only [load, hr]

theorem load_virtioBlk (hr : region addr = .virtioBlk) :
    load addr w b = some (.ok (b.virtioBlk.load (addr - 0x1000_1000#64)), b) := by
  simp only [load, hr]

variable (v : U64)

theorem store_clint (hr : region addr = .clint) :
    store addr w v b = some (.ok (), { b with clint := b.clint.store addr v }) := by
  simp only [store, hr]

theorem store_plic (hr : region addr = .plic) :
    store addr w v b = some (.ok (), { b with plic := b.plic.store addr v }) := by
  simp only [store, hr]

theorem store_uart (hr : region addr = .uart) :
    store addr w v b = some (.ok (), { b with uart := b.uart.store addr v }) := by
  simp only [store, hr]

/-- The notify register of the block device. -/
def Notifies (addr : U64) : Prop := region addr = .virtioBlk ∧ addr - 0x1000_1000#64 = 0x050

theorem virtio_store_fst (v : VirtioBlk) {off : U64} (val : U64) (h : off ≠ 0x050) :
    (v.store off val).1 = false := by
  unfold VirtioBlk.store
  dsimp only
  split <;> first | rfl | (split <;> rfl) | contradiction

theorem store_virtioBlk (hr : region addr = .virtioBlk) (hn : ¬ Notifies addr) :
    store addr w v b =
      some (.ok (), { b with virtioBlk := (b.virtioBlk.store (addr - 0x1000_1000#64) v).2 }) := by
  have hfst := virtio_store_fst b.virtioBlk v fun heq => hn ⟨hr, heq⟩
  cases hs : b.virtioBlk.store (addr - 0x1000_1000#64) v with
  | mk flag dev =>
      rw [hs] at hfst
      cases hfst
      simp only [store, hr, hs]

end Devices

/-- A load always returns. -/
theorem load_returns (addr : U64) (w : Width) (b : Bus) :
    ∃ r b', load addr w b = some (r, b') := by
  cases hr : region addr with
  | ram =>
      cases ho : b.offset addr w with
      | error e => exact ⟨_, _, load_ram_error hr ho⟩
      | ok off => exact ⟨_, _, load_ram hr ho⟩
  | clint => exact ⟨_, _, load_clint w b hr⟩
  | plic => exact ⟨_, _, load_plic w b hr⟩
  | uart => exact ⟨_, _, load_uart w b hr⟩
  | virtioBlk => exact ⟨_, _, load_virtioBlk w b hr⟩

/-- A store that does not notify the block device returns. -/
theorem store_returns {addr : U64} (w : Width) (v : U64) (b : Bus) (h : ¬ Notifies addr) :
    ∃ r b', store addr w v b = some (r, b') := by
  cases hr : region addr with
  | ram =>
      cases ho : b.offset addr w with
      | error e => exact ⟨_, _, store_ram_error v hr ho⟩
      | ok off => exact ⟨_, _, store_ram v hr ho⟩
  | clint => exact ⟨_, _, store_clint w b v hr⟩
  | plic => exact ⟨_, _, store_plic w b v hr⟩
  | uart => exact ⟨_, _, store_uart w b v hr⟩
  | virtioBlk => exact ⟨_, _, store_virtioBlk w b v hr h⟩

/-- A store does not move RAM. -/
theorem store_placement {addr : U64} {w : Width} {v : U64} {b b' : Bus}
    {r : Except BusFault Unit} (h : store addr w v b = some (r, b')) :
    b'.ramBase = b.ramBase ∧ b'.ram.len = b.ram.len := by
  cases hr : region addr with
  | ram =>
      cases ho : b.offset addr w with
      | error e => rw [store_ram_error v hr ho] at h; cases h; exact ⟨rfl, rfl⟩
      | ok off => rw [store_ram v hr ho] at h; cases h; exact ⟨rfl, rfl⟩
  | clint => rw [store_clint w b v hr] at h; cases h; exact ⟨rfl, rfl⟩
  | plic => rw [store_plic w b v hr] at h; cases h; exact ⟨rfl, rfl⟩
  | uart => rw [store_uart w b v hr] at h; cases h; exact ⟨rfl, rfl⟩
  | virtioBlk =>
      simp only [store, hr] at h
      split at h
      · cases h
        exact ⟨rfl, rfl⟩
      · obtain ⟨⟨dev, ram⟩, hq, hb⟩ := Option.map_eq_some_iff.mp h
        cases hb
        exact ⟨rfl, VirtioBlk.processQueue_len hq⟩

/-- The bus takes a store of one byte at an address. -/
def Takes (b : Bus) (addr : U64) : Prop :=
  region addr = .ram → ∃ off, b.offset addr .b1 = .ok off

theorem Takes.congr {b b' : Bus} {addr : U64} (h : b.Takes addr) (hbase : b'.ramBase = b.ramBase)
    (hlen : b'.ram.len = b.ram.len) : b'.Takes addr := by
  intro hr
  obtain ⟨off, ho⟩ := h hr
  exact ⟨off, (offset_congr hbase hlen addr .b1).trans ho⟩

/-- A rejected load changes nothing. -/
theorem load_error {addr : U64} {w : Width} {b b' : Bus} {e : BusFault}
    (h : load addr w b = some (.error e, b')) :
    region addr = .ram ∧ (∃ e', b.offset addr w = .error e') ∧ b' = b := by
  cases hr : region addr with
  | ram =>
      cases ho : b.offset addr w with
      | error e' => rw [load_ram_error hr ho] at h; cases h; exact ⟨rfl, ⟨e, rfl⟩, rfl⟩
      | ok off => rw [load_ram hr ho] at h; cases h
  | clint => rw [load_clint w b hr] at h; cases h
  | plic => rw [load_plic w b hr] at h; cases h
  | uart => rw [load_uart w b hr] at h; cases h
  | virtioBlk => rw [load_virtioBlk w b hr] at h; cases h

/-- A rejected store changes nothing. -/
theorem store_error {addr : U64} {w : Width} {v : U64} {b b' : Bus} {e : BusFault}
    (h : store addr w v b = some (.error e, b')) :
    region addr = .ram ∧ (∃ e', b.offset addr w = .error e') ∧ b' = b := by
  cases hr : region addr with
  | ram =>
      cases ho : b.offset addr w with
      | error e' => rw [store_ram_error v hr ho] at h; cases h; exact ⟨rfl, ⟨e, rfl⟩, rfl⟩
      | ok off => rw [store_ram v hr ho] at h; cases h
  | clint => rw [store_clint w b v hr] at h; cases h
  | plic => rw [store_plic w b v hr] at h; cases h
  | uart => rw [store_uart w b v hr] at h; cases h
  | virtioBlk =>
      simp only [store, hr] at h
      split at h
      · cases h
      · obtain ⟨_, _, hb⟩ := Option.map_eq_some_iff.mp h
        cases hb

/-- The bus with the given words stored at RAM offsets. -/
def withWords (b : Bus) (words : List (Nat × U64)) : Bus :=
  words.foldl (fun b p => b.setBytes p.1 8 p.2) b

end Bus

end RiscvEmu
