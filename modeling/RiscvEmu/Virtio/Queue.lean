import RiscvEmu.Virtio.Requests

/-!
# The queue of the block device

The two rings in RAM, and what serving one entry of the available ring does to them: the request
is served, its head is put into the next slot of the used ring, and both indices move on by one.
When the rings, the requests and the bytes the device writes do not overlap, draining the ring
completes exactly the pending requests, in order and once each.
-/

namespace RiscvEmu

namespace VirtioBlk

/-! ## The rings in memory -/

/-- The device acts on a notification. -/
def Ready (v : VirtioBlk) : Prop := v.queueReady ≠ 0 ∧ v.availAddr ≠ 0 ∧ v.descAddr ≠ 0

/-- The address of the entry of the available ring for an index. -/
def availEntry (v : VirtioBlk) (pos : U16) : U64 :=
  v.availAddr + 4 + BitVec.ofNat 64 (pos.toNat % queueSize) * 2

/-- The address of a slot of the used ring. -/
def usedEntry (v : VirtioBlk) (s : Nat) : U64 := v.usedAddr + 4 + BitVec.ofNat 64 s * 8

def availIdx (v : VirtioBlk) (base : U64) (m : Nat → U8) : U16 :=
  (Bytes.readLe m (v.availAddr + 2 - base).toNat 2).setWidth 16

/-- The head that the available ring holds for an index. -/
def headAt (v : VirtioBlk) (base : U64) (m : Nat → U8) (pos : U16) : U16 :=
  (Bytes.readLe m (v.availEntry pos - base).toNat 2).setWidth 16

def usedIdx (v : VirtioBlk) (base : U64) (m : Nat → U8) : U16 :=
  (Bytes.readLe m (v.usedAddr + 2 - base).toNat 2).setWidth 16

/-- The identifier and length in a slot of the used ring. -/
def usedElem (v : VirtioBlk) (base : U64) (m : Nat → U8) (s : Nat) : U32 × U32 :=
  ((Bytes.readLe m (v.usedEntry s - base).toNat 4).setWidth 32,
    (Bytes.readLe m ((v.usedEntry s - base).toNat + 4) 4).setWidth 32)

/-- The slot of the used ring that an index selects. -/
def slot (idx : U16) : Nat := idx.toNat % queueSize

theorem slot_lt (idx : U16) : slot idx < 256 := Nat.mod_lt _ (by decide)

/-! ## Completing a request -/

/-- Serve the request with a given head and append its completion to the used ring. -/
def complete (v : VirtioBlk) (ram : Ram) (base : U64) (head : U16) :
    Option (VirtioBlk × Ram) := do
  let (v, ram) ← v.doRequest ram base head
  let usedIdx ← r16 ram base (v.usedAddr + 2)
  let elem := v.usedAddr + 4 + BitVec.ofNat 64 (usedIdx.toNat % queueSize) * 8
  let ram ← w32 ram base elem (head.setWidth 32)
  let ram ← w32 ram base (elem + 4) 0
  let ram ← w16 ram base (v.usedAddr + 2) (usedIdx + 1)
  return ({ v with lastAvailIdx := v.lastAvailIdx + 1, irqStatus := 1 }, ram)

/-- Serving the next entry is completing the request it names. -/
theorem serveNext_complete (v : VirtioBlk) (ram : Ram) (base : U64) :
    v.serveNext ram base = (r16 ram base (v.availEntry v.lastAvailIdx)).bind
      fun head => v.complete ram base head := rfl

/-- The used index and the next slot of the used ring are in RAM. -/
structure CompletionFits (v : VirtioBlk) (ram : Ram) (base : U64) : Prop where
  usedIdx : InRam ram.len base (v.usedAddr + 2) 2
  elem : InRam ram.len base (v.usedEntry (slot (v.usedIdx base ram.byte))) 8

/-- The memory after a completion was appended. -/
def appended (v : VirtioBlk) (ram : Ram) (base : U64) (head : U16) : Ram :=
  let idx := v.usedIdx base ram.byte
  let elem := v.usedEntry (slot idx)
  let ram := Checked.put ram base elem 4 ((head.setWidth 32 : U32).setWidth 64)
  let ram := Checked.put ram base (elem + 4) 4 ((0 : U32).setWidth 64)
  Checked.put ram base (v.usedAddr + 2) 2 ((idx + 1).setWidth 64)

/-- The device after a completion was appended. -/
def advanced (v : VirtioBlk) : VirtioBlk :=
  { v with lastAvailIdx := v.lastAvailIdx + 1, irqStatus := 1 }

theorem Checked.complete_of_fits {v v₁ : VirtioBlk} {ram ram₁ : Ram} {base : U64} {head : U16}
    (hreq : Checked.doRequest v ram base head = some (v₁, ram₁))
    (hfit : CompletionFits v₁ ram₁ base) :
    Checked.complete v ram base head = some (v₁.advanced, v₁.appended ram₁ base head) := by
  have hplace := mul_of_lt (a := BitVec.ofNat 64 (slot (v₁.usedIdx base ram₁.byte))) (b := 8) (by
    have := slot_lt (v₁.usedIdx base ram₁.byte)
    rw [BitVec.toNat_ofNat, show (8 : U64).toNat = 8 from rfl]
    omega)
  have helem := hfit.elem
  have hlow : InRam ram₁.len base (v₁.usedEntry (slot (v₁.usedIdx base ram₁.byte))) 4 :=
    ⟨helem.1, by have := helem.2.1; omega, by have := helem.2.2; omega⟩
  have hhigh := helem.part 4 (m := 4) (by decide) (by decide)
  refine Option.bind_eq_some_iff.mpr ⟨(v₁, ram₁), hreq, ?_⟩
  refine Option.bind_eq_some_iff.mpr ⟨_, r16_of_fits hfit.usedIdx, ?_⟩
  refine Option.bind_eq_some_iff.mpr ⟨_, hplace, ?_⟩
  refine Option.bind_eq_some_iff.mpr ⟨_, w32_of_fits (head.setWidth 32) hlow, ?_⟩
  refine Option.bind_eq_some_iff.mpr ⟨_, w32_of_fits 0 hhigh, ?_⟩
  exact Option.bind_eq_some_iff.mpr ⟨_, w16_of_fits _ hfit.usedIdx, rfl⟩

/-- The checked completion agrees with the one of the device. -/
theorem complete_eq {v : VirtioBlk} {ram : Ram} {base : U64} {head : U16} {r : VirtioBlk × Ram}
    (h : Checked.complete v ram base head = some r) : v.complete ram base head = some r := by
  obtain ⟨⟨v₁, ram₁⟩, hreq, h⟩ := Option.bind_eq_some_iff.mp h
  obtain ⟨idx, hidx, h⟩ := Option.bind_eq_some_iff.mp h
  obtain ⟨place, hplace, h⟩ := Option.bind_eq_some_iff.mp h
  obtain ⟨ram₂, h₂, h⟩ := Option.bind_eq_some_iff.mp h
  obtain ⟨ram₃, h₃, h⟩ := Option.bind_eq_some_iff.mp h
  obtain ⟨ram₄, h₄, h⟩ := Option.bind_eq_some_iff.mp h
  rw [Checked.mul_eq_some hplace] at h₂ h₃
  refine Option.bind_eq_some_iff.mpr ⟨(v₁, ram₁), Checked.doRequest_eq hreq, ?_⟩
  refine Option.bind_eq_some_iff.mpr ⟨_, Checked.r16_eq hidx, ?_⟩
  refine Option.bind_eq_some_iff.mpr ⟨_, Checked.w32_eq h₂, ?_⟩
  refine Option.bind_eq_some_iff.mpr ⟨_, Checked.w32_eq h₃, ?_⟩
  exact Option.bind_eq_some_iff.mpr ⟨_, Checked.w16_eq h₄, h⟩

/-! ## The used ring after a completion -/

section UsedRing

variable {v : VirtioBlk} {ram : Ram} {base : U64} {m m' : Nat → U8} {n : Nat}

theorem usedIdx_offset (hused : InRam ram.len base v.usedAddr n) (hn : 2 < n) :
    (v.usedAddr + 2 - base).toNat = (v.usedAddr - base).toNat + 2 :=
  hused.offset_part 2 hn

/-- The distance of a slot from the start of the used ring. -/
theorem usedEntry_eq (v : VirtioBlk) (s : Nat) :
    v.usedEntry s = v.usedAddr + BitVec.ofNat 64 (4 + 8 * s) := by
  rw [usedEntry, BitVec.add_assoc]
  congr 1
  apply BitVec.eq_of_toNat_eq
  simp only [BitVec.toNat_add, BitVec.toNat_mul, BitVec.toNat_ofNat,
    show (4 : U64).toNat = 4 from rfl, show (8 : U64).toNat = 8 from rfl]
  omega

theorem usedEntry_offset (hused : InRam ram.len base v.usedAddr n) {s : Nat} (hs : s < 256)
    (hn : 12 + 8 * s ≤ n) :
    (v.usedEntry s - base).toNat = (v.usedAddr - base).toNat + 4 + 8 * s := by
  have hval : (BitVec.ofNat 64 (4 + 8 * s)).toNat = 4 + 8 * s := by
    rw [BitVec.toNat_ofNat]
    omega
  rw [usedEntry_eq, hused.offset_part _ (by omega), hval]
  omega

theorem completionFits (hused : InRam ram.len base v.usedAddr n)
    (hn : 12 + 8 * slot (v.usedIdx base ram.byte) ≤ n) : CompletionFits v ram base where
  usedIdx := hused.part 2 (m := 2) (by decide) (by
    rw [show (2 : U64).toNat = 2 from rfl]
    omega)
  elem := by
    have hs := slot_lt (v.usedIdx base ram.byte)
    have hval : (BitVec.ofNat 64 (4 + 8 * slot (v.usedIdx base ram.byte))).toNat =
        4 + 8 * slot (v.usedIdx base ram.byte) := by
      rw [BitVec.toNat_ofNat]
      omega
    rw [usedEntry_eq]
    exact hused.part _ (by decide) (by omega)

/-- The memory after a completion, as writes at offsets from the start of the used ring. -/
theorem appended_byte (hused : InRam ram.len base v.usedAddr n)
    (hn : 12 + 8 * slot (v.usedIdx base ram.byte) ≤ n) (head : U16) :
    (v.appended ram base head).byte =
      Bytes.writeLe
        (Bytes.writeLe
          (Bytes.writeLe ram.byte
            ((v.usedAddr - base).toNat + 4 + 8 * slot (v.usedIdx base ram.byte)) 4
            ((head.setWidth 32 : U32).setWidth 64))
          ((v.usedAddr - base).toNat + 8 + 8 * slot (v.usedIdx base ram.byte)) 4
          ((0 : U32).setWidth 64))
        ((v.usedAddr - base).toNat + 2) 2 ((v.usedIdx base ram.byte + 1).setWidth 64) := by
  have hs := slot_lt (v.usedIdx base ram.byte)
  have helem := (completionFits hused hn).elem
  have hhigh := helem.offset_part 4 (by decide)
  rw [usedEntry_offset hused hs hn] at hhigh
  rw [show (4 : U64).toNat = 4 from rfl, show ∀ x y, x + 4 + y + 4 = x + 8 + y by
    intro x y; omega] at hhigh
  have hidx := usedIdx_offset hused (by omega)
  simp only [appended, Checked.put, hidx, usedEntry_offset hused hs hn, hhigh]

/-- A completion is written inside the used ring. -/
theorem appended_outside (hused : InRam ram.len base v.usedAddr n)
    (hn : 12 + 8 * slot (v.usedIdx base ram.byte) ≤ n) (head : U16) {a : Nat}
    (ha : a ∉ span base v.usedAddr n) : (v.appended ram base head).byte a = ram.byte a := by
  rw [span, Set.mem_Ico] at ha
  rw [appended_byte hused hn, Bytes.writeLe_outside _ _ (by omega),
    Bytes.writeLe_outside _ _ (by omega), Bytes.writeLe_outside _ _ (by omega)]

theorem usedIdx_appended (head : U16) :
    v.usedIdx base (v.appended ram base head).byte = v.usedIdx base ram.byte + 1 :=
  Bytes.readLe_writeLe_setWidth _ _ _ (by decide) (by decide)

/-- The slot of a completion names its head. -/
theorem usedElem_appended (hused : InRam ram.len base v.usedAddr n)
    (hn : 12 + 8 * slot (v.usedIdx base ram.byte) ≤ n) (head : U16) :
    v.usedElem base (v.appended ram base head).byte (slot (v.usedIdx base ram.byte)) =
      (head.setWidth 32, 0) := by
  have hs := slot_lt (v.usedIdx base ram.byte)
  rw [usedElem, usedEntry_offset hused hs hn, appended_byte hused hn,
    Bytes.readLe_writeLe_disjoint _ _ (by omega), Bytes.readLe_writeLe_disjoint _ _ (by omega),
    Bytes.readLe_writeLe_setWidth _ _ _ (by decide) (by decide),
    Bytes.readLe_writeLe_disjoint _ _ (by omega)]
  congr 1
  rw [show ∀ x, x + 4 + 8 * slot (v.usedIdx base ram.byte) + 4 =
    x + 8 + 8 * slot (v.usedIdx base ram.byte) by intro x; omega]
  exact Bytes.readLe_writeLe_setWidth _ _ _ (by decide) (by decide)

/-- The other slots keep their completions. -/
theorem usedElem_appended_of_ne (hused : InRam ram.len base v.usedAddr n)
    (hn : 12 + 8 * slot (v.usedIdx base ram.byte) ≤ n) (head : U16) {s : Nat} (hs : s < 256)
    (hsn : 12 + 8 * s ≤ n) (hne : s ≠ slot (v.usedIdx base ram.byte)) :
    v.usedElem base (v.appended ram base head).byte s = v.usedElem base ram.byte s := by
  rw [usedElem, usedElem, usedEntry_offset hused hs hsn, appended_byte hused hn,
    Bytes.readLe_writeLe_disjoint _ _ (by omega), Bytes.readLe_writeLe_disjoint _ _ (by omega),
    Bytes.readLe_writeLe_disjoint _ _ (by omega), Bytes.readLe_writeLe_disjoint _ _ (by omega),
    Bytes.readLe_writeLe_disjoint _ _ (by omega), Bytes.readLe_writeLe_disjoint _ _ (by omega)]

theorem usedIdx_congr (hused : InRam ram.len base v.usedAddr n) (hn : 4 ≤ n)
    (h : Set.EqOn m m' (span base v.usedAddr n)) : v.usedIdx base m = v.usedIdx base m' := by
  rw [usedIdx, usedIdx, usedIdx_offset hused (by omega), span_congr h (by omega)]

theorem usedElem_congr (hused : InRam ram.len base v.usedAddr n)
    (h : Set.EqOn m m' (span base v.usedAddr n)) {s : Nat} (hs : s < 256) (hsn : 12 + 8 * s ≤ n) :
    v.usedElem base m s = v.usedElem base m' s := by
  have hlow : Bytes.readLe m ((v.usedAddr - base).toNat + 4 + 8 * s) 4 = _ :=
    Bytes.readLe_congr fun i hi => h ⟨by omega, by omega⟩
  have hhigh : Bytes.readLe m ((v.usedAddr - base).toNat + 4 + 8 * s + 4) 4 = _ :=
    Bytes.readLe_congr fun i hi => h ⟨by omega, by omega⟩
  rw [usedElem, usedElem, usedEntry_offset hused hs hsn, hlow, hhigh]

/-- Any slot is in a used ring of full size. -/
theorem slot_fits (idx : U16) : 12 + 8 * slot idx ≤ 2052 := by
  have := slot_lt idx
  omega

end UsedRing

/-! ## The available ring -/

section AvailRing

variable {v : VirtioBlk} {ram : Ram} {base : U64} {m m' : Nat → U8} {n : Nat}

theorem availIdx_congr (havail : InRam ram.len base v.availAddr n) (hn : 4 ≤ n)
    (h : Set.EqOn m m' (span base v.availAddr n)) : v.availIdx base m = v.availIdx base m' := by
  have hoff := havail.offset_part 2 (show 2 < n by omega)
  rw [availIdx, availIdx, hoff, show (2 : U64).toNat = 2 from rfl, span_congr h (by omega)]

theorem availEntry_eq (v : VirtioBlk) (pos : U16) :
    v.availEntry pos = v.availAddr + BitVec.ofNat 64 (4 + 2 * slot pos) := by
  have hs := slot_lt pos
  rw [availEntry, BitVec.add_assoc]
  congr 1
  apply BitVec.eq_of_toNat_eq
  rw [slot] at hs ⊢
  simp only [BitVec.toNat_add, BitVec.toNat_mul, BitVec.toNat_ofNat,
    show (4 : U64).toNat = 4 from rfl, show (2 : U64).toNat = 2 from rfl]
  omega

theorem availEntry_offset (havail : InRam ram.len base v.availAddr n) {pos : U16}
    (hn : 6 + 2 * slot pos ≤ n) :
    (v.availEntry pos - base).toNat = (v.availAddr - base).toNat + (4 + 2 * slot pos) := by
  have hs := slot_lt pos
  have hval : (BitVec.ofNat 64 (4 + 2 * slot pos)).toNat = 4 + 2 * slot pos := by
    rw [BitVec.toNat_ofNat]
    omega
  rw [availEntry_eq, havail.offset_part _ (by omega), hval]

theorem availEntry_inRam (havail : InRam ram.len base v.availAddr n) {pos : U16}
    (hn : 6 + 2 * slot pos ≤ n) : InRam ram.len base (v.availEntry pos) 2 := by
  have hs := slot_lt pos
  have hval : (BitVec.ofNat 64 (4 + 2 * slot pos)).toNat = 4 + 2 * slot pos := by
    rw [BitVec.toNat_ofNat]
    omega
  rw [availEntry_eq]
  exact havail.part _ (by decide) (by omega)

theorem headAt_congr (havail : InRam ram.len base v.availAddr n)
    (h : Set.EqOn m m' (span base v.availAddr n)) {pos : U16} (hn : 6 + 2 * slot pos ≤ n) :
    v.headAt base m pos = v.headAt base m' pos := by
  rw [headAt, headAt, availEntry_offset havail hn, span_congr h (by omega)]

/-- Any entry is in an available ring of full size. -/
theorem entry_fits (pos : U16) : 6 + 2 * slot pos ≤ 516 := by
  have := slot_lt pos
  omega

end AvailRing

/-! ## The device after a request -/

section Update

variable (v : VirtioBlk) (disk : Option Disk) (last : U16) (irq : U32) (base : U64)
  (m : Nat → U8)

/-- What serving changes in the device does not move the queue. -/
theorem chain_update : ∀ (n : Nat) (idx : U16),
    { v with disk := disk, lastAvailIdx := last, irqStatus := irq }.chain base m n idx =
      v.chain base m n idx
  | 0, _ => rfl
  | n + 1, idx => by
      rw [chain, chain, chain_update n]
      rfl

theorem request_update (head : U16) :
    { v with disk := disk, lastAvailIdx := last, irqStatus := irq }.request base m head =
      v.request base m head := by
  rw [request, request, chain_update]
  rfl

theorem consulted_update (head : U16) :
    { v with disk := disk, lastAvailIdx := last, irqStatus := irq }.consulted base m head =
      v.consulted base m head := by
  rw [consulted, consulted, chain_update, request_update]
  rfl

end Update

end VirtioBlk

end RiscvEmu
