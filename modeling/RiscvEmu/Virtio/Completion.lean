import RiscvEmu.Virtio.Queue

/-!
# Draining the queue

A notification finds a list of pending heads.  When everything the device consults and writes
lies in RAM, and what it writes is disjoint from what it consults, it completes these requests,
in order and once each.  The layout survives every completion, so the proof is an induction on
the pending heads.
-/

namespace RiscvEmu

namespace VirtioBlk

/-! ## The layout of a queue -/

/-- Everything a request consults or moves lies in RAM, and its sector has a byte offset. -/
structure RequestInRam (v : VirtioBlk) (ram : Ram) (base : U64) (head : U16) : Prop where
  entries : ∀ idx ∈ v.chain base ram.byte 16 head, InRam ram.len base (v.entry idx) 16
  header : ∀ first second rest, v.request base ram.byte head = first :: second :: rest →
    InRam ram.len base first.addr 16
  status : ∀ first second rest, v.request base ram.byte head = first :: second :: rest →
    InRam ram.len base ((second :: rest).getLast (List.cons_ne_nil _ _)).addr 1
  sector : ∀ first second rest, v.request base ram.byte head = first :: second :: rest →
    (sectorAt ram.byte (first.addr - base).toNat).toNat < 2 ^ 54
  buffers : ∀ first second rest, v.request base ram.byte head = first :: second :: rest →
    ∀ d ∈ (second :: rest).dropLast, InRam ram.len base d.addr d.len.toNat

/-- The offsets that decide what the pending requests are. -/
def ringAndRequests (v : VirtioBlk) (base : U64) (m : Nat → U8) (heads : List U16) : Set Nat :=
  span base v.availAddr 516 ∪ {a | ∃ head ∈ heads, a ∈ v.consulted base m head}

/-- The rings and the requests with the given heads lie in RAM.  The used ring and the bytes a
request writes are disjoint from each other and from what decides the requests. -/
structure Layout (v : VirtioBlk) (ram : Ram) (base : U64) (heads : List U16) : Prop where
  avail : InRam ram.len base v.availAddr 516
  used : InRam ram.len base v.usedAddr 2052
  requests : ∀ head ∈ heads, RequestInRam v ram base head
  used_apart : Disjoint (span base v.usedAddr 2052) (v.ringAndRequests base ram.byte heads)
  written_apart : ∀ head ∈ heads,
    Disjoint (written base ram.byte (v.request base ram.byte head))
      (span base v.usedAddr 2052 ∪ v.ringAndRequests base ram.byte heads)

/-- The ready queue holds exactly the given heads as pending entries. -/
structure Pending (v : VirtioBlk) (ram : Ram) (base : U64) (heads : List U16) : Prop where
  layout : Layout v ram base heads
  count : v.availIdx base ram.byte = v.lastAvailIdx + BitVec.ofNat 16 heads.length
  small : heads.length ≤ 256
  head : ∀ i (hi : i < heads.length),
    v.headAt base ram.byte (v.lastAvailIdx + BitVec.ofNat 16 i) = heads[i]

/-! ## A request in RAM can be served -/

section Servable

variable {v : VirtioBlk} {ram : Ram} {base : U64}

theorem readFits_of_inRam {len : U64} : ∀ {ds : List Desc},
    (∀ d ∈ ds, InRam len base d.addr d.len.toNat) → ∀ disk, ReadFits len base ds disk
  | [], _, _ => trivial
  | d :: ds, h, disk => by
      have htail := readFits_of_inRam fun e he => h e (List.mem_cons_of_mem _ he)
      rw [ReadFits]
      split
      · exact htail disk
      · exact Or.inr ⟨(h d (List.mem_cons_self ..)).le_len, fun _ _ => htail _⟩

theorem writeFits_of_inRam : ∀ {ds : List Desc},
    (∀ d ∈ ds, InRam ram.len base d.addr d.len.toNat) → ∀ disk, WriteFits base ram ds disk
  | [], _, _ => trivial
  | d :: ds, h, disk => by
      have htail := writeFits_of_inRam fun e he => h e (List.mem_cons_of_mem _ he)
      rw [WriteFits]
      split
      · exact htail disk
      · exact Or.inr ⟨(h d (List.mem_cons_self ..)).le_len, fun _ disk' _ _ => htail disk'⟩

theorem RequestInRam.fits {head : U16} (h : RequestInRam v ram base head) :
    RequestFits v ram base head where
  entries := h.entries
  body first second rest hreq :=
    { header := h.header first second rest hreq
      status := h.status first second rest hreq
      sector := fun _ => by
        have := h.sector first second rest hreq
        omega
      buffers := fun _ _ _ _ =>
        ⟨fun _ => readFits_of_inRam (h.buffers first second rest hreq) _,
          fun _ => writeFits_of_inRam (h.buffers first second rest hreq) _⟩ }

end Servable

/-! ## One completion -/

/-- What completing a request leaves in RAM: one more used slot, and everything that decides the
pending requests as it was. -/
structure Appended (v : VirtioBlk) (ram : Ram) (base : U64) (head : U16) (kept : Set Nat)
    (ram' : Ram) : Prop where
  len : ram'.len = ram.len
  kept : Set.EqOn ram.byte ram'.byte kept
  idx : v.usedIdx base ram'.byte = v.usedIdx base ram.byte + 1
  elem : v.usedElem base ram'.byte (slot (v.usedIdx base ram.byte)) = (head.setWidth 32, 0)
  others : ∀ s < 256, s ≠ slot (v.usedIdx base ram.byte) →
    v.usedElem base ram'.byte s = v.usedElem base ram.byte s

section Step

variable {v : VirtioBlk} {ram ram' : Ram} {base : U64} {head : U16} {heads : List U16}

/-- The request at the front is completed. -/
theorem complete_layout (h : Layout v ram base (head :: heads)) :
    ∃ disk ram', v.complete ram base head =
        some ({ v with
          disk := disk, lastAvailIdx := v.lastAvailIdx + 1, irqStatus := 1 }, ram') ∧
      Appended v ram base head (v.ringAndRequests base ram.byte (head :: heads)) ram' := by
  have hfit := (h.requests head (List.mem_cons_self ..)).fits
  obtain ⟨⟨v₁, ram₁⟩, hreq⟩ := Checked.doRequest_of_fits hfit
  have hserved := Checked.doRequest_eq hreq
  obtain ⟨⟨disk, rfl⟩, hframe⟩ := doRequest_frame hserved
  have hlen := doRequest_len hserved
  have hused₁ : InRam ram₁.len base v.usedAddr 2052 := hlen ▸ h.used
  have hcomplete := complete_eq
    (Checked.complete_of_fits hreq
      (completionFits (v := { v with disk := disk }) hused₁ (slot_fits _)))
  have happ := Set.disjoint_union_right.mp (h.written_apart head (List.mem_cons_self ..))
  have hring : Set.EqOn ram₁.byte ram.byte (span base v.usedAddr 2052) := fun a ha =>
    hframe a fun hw => Set.disjoint_left.mp happ.1 hw ha
  have hidx : v.usedIdx base ram₁.byte = v.usedIdx base ram.byte :=
    usedIdx_congr h.used (by decide) hring
  refine ⟨disk, _, hcomplete, hlen, ?_, ?_, ?_, ?_⟩
  · intro a ha
    have hin : a ∉ span base v.usedAddr 2052 := Set.disjoint_right.mp h.used_apart ha
    have hout := appended_outside (v := { v with disk := disk }) hused₁ (slot_fits _) head hin
    rw [hout]
    exact (hframe a fun hw => Set.disjoint_left.mp happ.2 hw ha).symm
  · rw [← hidx]
    exact usedIdx_appended (v := { v with disk := disk }) head
  · rw [← hidx]
    exact usedElem_appended (v := { v with disk := disk }) hused₁ (slot_fits _) head
  · intro s hs hne
    rw [← hidx] at hne
    rw [← usedElem_congr h.used hring hs (by omega)]
    exact usedElem_appended_of_ne (v := { v with disk := disk }) hused₁ (slot_fits _) head hs
      (by omega) hne

/-- The layout of the remaining requests survives. -/
theorem Layout.next (h : Layout v ram base (head :: heads)) (disk : Option Disk) (last : U16)
    (irq : U32) (hlen : ram'.len = ram.len)
    (hkept : Set.EqOn ram.byte ram'.byte (v.ringAndRequests base ram.byte (head :: heads))) :
    Layout { v with disk := disk, lastAvailIdx := last, irqStatus := irq } ram' base heads := by
  have hconsulted : ∀ k ∈ heads, Set.EqOn ram.byte ram'.byte (v.consulted base ram.byte k) :=
    fun k hk _ ha => hkept (Or.inr ⟨k, List.mem_cons_of_mem _ hk, ha⟩)
  have hdecides : { v with
      disk := disk, lastAvailIdx := last, irqStatus := irq }.ringAndRequests base ram'.byte heads ⊆
      v.ringAndRequests base ram.byte (head :: heads) := by
    rintro a (ha | ⟨k, hk, ha⟩)
    · exact Or.inl ha
    · rw [consulted_update, consulted_of_consulted (hconsulted k hk)] at ha
      exact Or.inr ⟨k, List.mem_cons_of_mem _ hk, ha⟩
  refine
    { avail := hlen ▸ h.avail
      used := hlen ▸ h.used
      requests := ?_
      used_apart := h.used_apart.mono_right hdecides
      written_apart := ?_ }
  · intro k hk
    have hreq := h.requests k (List.mem_cons_of_mem _ hk)
    have hsame := hconsulted k hk
    refine ⟨?_, ?_, ?_, ?_, ?_⟩
    · rw [chain_update, chain_of_consulted hsame, hlen]
      exact hreq.entries
    all_goals
      rw [request_update, request_of_consulted hsame]
      try rw [hlen]
    · exact hreq.header
    · exact hreq.status
    · intro first second rest hlist
      rw [sectorAt_of_consulted hsame hlist]
      exact hreq.sector first second rest hlist
    · exact hreq.buffers
  · intro k hk
    rw [request_update, written_of_consulted (hconsulted k hk)]
    exact (h.written_apart k (List.mem_cons_of_mem _ hk)).mono_right
      (Set.union_subset_union_right _ hdecides)

end Step

/-! ## All of them -/

/-- Complete requests one after the other. -/
def completeAll (base : U64) : List U16 → VirtioBlk → Ram → Option (VirtioBlk × Ram)
  | [], v, ram => some (v, ram)
  | head :: heads, v, ram => do
      let (v, ram) ← v.complete ram base head
      completeAll base heads v ram

/-- What completing the pending requests leaves.  The completion of the `i`-th head is in the
`i`-th slot from the used index on, and no other slot changed. -/
structure Completed (v : VirtioBlk) (ram : Ram) (base : U64) (heads : List U16) (v' : VirtioBlk)
    (ram' : Ram) : Prop where
  last : v'.lastAvailIdx = v.lastAvailIdx + BitVec.ofNat 16 heads.length
  irq : v'.irqStatus = if heads = [] then v.irqStatus else 1
  used : v.usedIdx base ram'.byte = v.usedIdx base ram.byte + BitVec.ofNat 16 heads.length
  elems : ∀ i (hi : i < heads.length),
    v.usedElem base ram'.byte (slot (v.usedIdx base ram.byte + BitVec.ofNat 16 i)) =
      (heads[i].setWidth 32, 0)
  others : ∀ s < 256,
    (∀ i < heads.length, s ≠ slot (v.usedIdx base ram.byte + BitVec.ofNat 16 i)) →
      v.usedElem base ram'.byte s = v.usedElem base ram.byte s
  avail : v.availIdx base ram'.byte = v.availIdx base ram.byte

section Run

variable {v v' : VirtioBlk} {ram ram₁ ram' : Ram} {base : U64} {head : U16} {heads : List U16}

theorem ofNat_succ (i : Nat) (x : U16) :
    x + 1 + BitVec.ofNat 16 i = x + BitVec.ofNat 16 (i + 1) := by
  apply BitVec.eq_of_toNat_eq
  simp only [BitVec.toNat_add, BitVec.toNat_ofNat, show (1 : U16).toNat = 1 from rfl]
  omega

/-- A later slot, within one turn of the ring, is another slot. -/
theorem slot_ne (x : U16) {i : Nat} (hi : i < 255) :
    slot x ≠ slot (x + BitVec.ofNat 16 (i + 1)) := by
  simp only [slot, queueSize, BitVec.toNat_add, BitVec.toNat_ofNat]
  omega

theorem Completed.nil : Completed v ram base [] v ram where
  last := by simp
  irq := rfl
  used := by simp
  elems _ hi := absurd hi (Nat.not_lt_zero _)
  others _ _ _ := rfl
  avail := rfl

/-- The completions of the rest come after the first one and spare its slot. -/
theorem Completed.cons {disk : Option Disk} (hsmall : (head :: heads).length ≤ 256)
    (hfirst : Appended v ram base head (v.ringAndRequests base ram.byte (head :: heads)) ram₁)
    (havail : InRam ram.len base v.availAddr 516)
    (hrest : Completed { v with
      disk := disk, lastAvailIdx := v.lastAvailIdx + 1, irqStatus := 1 } ram₁ base heads v' ram') :
    Completed v ram base (head :: heads) v' ram' := by
  have hidx : v.usedIdx base ram₁.byte = v.usedIdx base ram.byte + 1 := hfirst.idx
  have hlength : heads.length < 256 := hsmall
  have hsucc (i : Nat) : slot (v.usedIdx base ram₁.byte + BitVec.ofNat 16 i) =
      slot (v.usedIdx base ram.byte + BitVec.ofNat 16 (i + 1)) := by
    rw [hidx, ofNat_succ]
  refine ⟨?_, ?_, ?_, ?_, ?_, ?_⟩
  · rw [hrest.last]
    exact ofNat_succ _ _
  · rw [hrest.irq, if_neg (List.cons_ne_nil _ _)]
    split <;> rfl
  · refine hrest.used.trans ?_
    have := ofNat_succ heads.length (v.usedIdx base ram.byte)
    rw [← hidx] at this
    exact this
  · intro i hi
    cases i with
    | zero =>
        have hspared := hrest.others (slot (v.usedIdx base ram.byte)) (slot_lt _) fun i hi heq =>
          slot_ne (v.usedIdx base ram.byte) (i := i) (by omega) (heq.trans (hsucc i))
        rw [show v.usedIdx base ram.byte + BitVec.ofNat 16 0 = v.usedIdx base ram.byte by simp]
        exact hspared.trans hfirst.elem
    | succ i =>
        rw [← hsucc]
        exact hrest.elems i (Nat.lt_of_succ_lt_succ hi)
  · intro s hs hne
    have hne₀ := hne 0 (Nat.succ_pos _)
    rw [show v.usedIdx base ram.byte + BitVec.ofNat 16 0 = v.usedIdx base ram.byte by simp] at hne₀
    refine (hrest.others s hs fun i hi heq => ?_).trans (hfirst.others s hs hne₀)
    exact hne (i + 1) (Nat.succ_lt_succ hi) (heq.trans (hsucc i))
  · refine hrest.avail.trans ?_
    exact (availIdx_congr havail (by decide) fun a ha => hfirst.kept (Or.inl ha)).symm

theorem r16_availIdx (havail : InRam ram.len base v.availAddr 516) :
    r16 ram base (v.availAddr + 2) = some (v.availIdx base ram.byte) :=
  Checked.r16_eq (Checked.r16_of_fits (havail.part 2 (by decide) (by decide)))

theorem Pending.idle (h : Pending v ram base []) : v.lastAvailIdx = v.availIdx base ram.byte := by
  have := h.count
  simpa using this.symm

theorem Pending.busy (h : Pending v ram base (head :: heads)) :
    v.lastAvailIdx ≠ v.availIdx base ram.byte := by
  have hsmall := h.small
  rw [h.count]
  intro heq
  have hval := congrArg BitVec.toNat heq
  simp only [List.length_cons, BitVec.toNat_add, BitVec.toNat_ofNat] at hval hsmall
  omega

theorem Pending.next (h : Pending v ram base (head :: heads)) (disk : Option Disk)
    (hfirst : Appended v ram base head (v.ringAndRequests base ram.byte (head :: heads)) ram₁) :
    Pending { v with disk := disk, lastAvailIdx := v.lastAvailIdx + 1, irqStatus := 1 } ram₁ base
      heads where
  layout := h.layout.next disk _ _ hfirst.len hfirst.kept
  count := by
    have hcount : v.availIdx base ram₁.byte = v.availIdx base ram.byte :=
      (availIdx_congr h.layout.avail (by decide) fun a ha => hfirst.kept (Or.inl ha)).symm
    refine (hcount.trans h.count).trans ?_
    exact (ofNat_succ heads.length v.lastAvailIdx).symm
  small := Nat.le_of_succ_le h.small
  head i hi := by
    have hhead := h.head (i + 1) (Nat.succ_lt_succ hi)
    rw [headAt_congr h.layout.avail (fun a ha => hfirst.kept (Or.inl ha)) (entry_fits _),
      ← ofNat_succ] at hhead
    exact hhead

/-- The loop serves the pending request at the front. -/
theorem Pending.serve (h : Pending v ram base (head :: heads)) :
    ∃ disk ram₁, v.complete ram base head = some ({ v with
        disk := disk, lastAvailIdx := v.lastAvailIdx + 1, irqStatus := 1 }, ram₁) ∧
      v.serveNext ram base = some ({ v with
        disk := disk, lastAvailIdx := v.lastAvailIdx + 1, irqStatus := 1 }, ram₁) ∧
      Appended v ram base head (v.ringAndRequests base ram.byte (head :: heads)) ram₁ := by
  obtain ⟨disk, ram₁, hcomplete, hfirst⟩ := complete_layout h.layout
  have hentry := Checked.r16_eq (Checked.r16_of_fits
    (availEntry_inRam h.layout.avail (entry_fits v.lastAvailIdx)))
  have hhead : v.headAt base ram.byte v.lastAvailIdx = head := by
    have := h.head 0 (Nat.succ_pos _)
    simpa using this
  refine ⟨disk, ram₁, hcomplete, ?_, hfirst⟩
  rw [serveNext_complete, hentry, Option.bind_some, ← hcomplete, ← hhead]
  rfl

/-- Draining a laid out queue completes the pending requests.  The induction is on them, and
every completion leaves a queue with the rest pending. -/
theorem drain_pending : ∀ {heads : List U16} {v : VirtioBlk} {ram : Ram},
    Pending v ram base heads →
      ∃ v' ram', drain base v ram = some (v', ram') ∧
        completeAll base heads v ram = some (v', ram') ∧ Completed v ram base heads v' ram'
  | [], v, ram, h => by
      refine ⟨v, ram, ?_, rfl, .nil⟩
      rw [drain, r16_availIdx h.layout.avail, Option.bind_eq_bind, Option.bind_some, if_pos h.idle]
      rfl
  | head :: heads, v, ram, h => by
      obtain ⟨disk, ram₁, hcomplete, hserve, hfirst⟩ := h.serve
      obtain ⟨v', ram', hdrain, hall, hrest⟩ := drain_pending (h.next disk hfirst)
      refine ⟨v', ram', ?_, ?_, .cons h.small hfirst h.layout.avail hrest⟩
      · rw [drain, r16_availIdx h.layout.avail, Option.bind_eq_bind, Option.bind_some,
          if_neg h.busy, hserve]
        exact hdrain
      · rw [completeAll, hcomplete]
        exact hall

end Run

/-! ## A notification -/

/-- The number of pending entries, across a wrap of the 16-bit index. -/
def pendingCount (v : VirtioBlk) (base : U64) (m : Nat → U8) : Nat :=
  (v.availIdx base m - v.lastAvailIdx).toNat

/-- The heads of the pending entries. -/
def pendingHeads (v : VirtioBlk) (base : U64) (m : Nat → U8) : List U16 :=
  (List.range (v.pendingCount base m)).map fun k =>
    v.headAt base m (v.lastAvailIdx + BitVec.ofNat 16 k)

theorem pendingHeads_length (v : VirtioBlk) (base : U64) (m : Nat → U8) :
    (v.pendingHeads base m).length = v.pendingCount base m := by
  rw [pendingHeads, List.length_map, List.length_range]

/-- The index of the available ring is the counter and the pending entries. -/
theorem availIdx_eq (v : VirtioBlk) (base : U64) (m : Nat → U8) :
    v.availIdx base m = v.lastAvailIdx + BitVec.ofNat 16 (v.pendingCount base m) := by
  rw [pendingCount, BitVec.ofNat_toNat, BitVec.setWidth_eq]
  apply BitVec.eq_of_toNat_eq
  have hidx := (v.availIdx base m).isLt
  have hlast := v.lastAvailIdx.isLt
  rw [BitVec.toNat_add, BitVec.toNat_sub]
  omega

theorem pending_of_layout {v : VirtioBlk} {ram : Ram} {base : U64}
    (hlayout : Layout v ram base (v.pendingHeads base ram.byte))
    (hsmall : v.pendingCount base ram.byte ≤ 256) :
    Pending v ram base (v.pendingHeads base ram.byte) where
  layout := hlayout
  count := by
    rw [pendingHeads_length]
    exact availIdx_eq v base ram.byte
  small := by rwa [pendingHeads_length]
  head i hi := by
    simp only [pendingHeads, List.getElem_map, List.getElem_range]

/-- A notification completes exactly the pending requests: each once, in the order of the
available ring, in the next slots of the used ring.  Both indices may wrap. -/
theorem processQueue_completes {v : VirtioBlk} {ram : Ram} {base : U64} (hready : v.Ready)
    (hlayout : Layout v ram base (v.pendingHeads base ram.byte))
    (hsmall : v.pendingCount base ram.byte ≤ 256) :
    ∃ v' ram', v.processQueue ram base = some (v', ram') ∧
      completeAll base (v.pendingHeads base ram.byte) v ram = some (v', ram') ∧
      (∀ k < v.pendingCount base ram.byte,
        v.usedElem base ram'.byte (slot (v.usedIdx base ram.byte + BitVec.ofNat 16 k)) =
          ((v.headAt base ram.byte (v.lastAvailIdx + BitVec.ofNat 16 k)).setWidth 32, 0)) ∧
      (∀ s < 256, (∀ k < v.pendingCount base ram.byte,
          s ≠ slot (v.usedIdx base ram.byte + BitVec.ofNat 16 k)) →
        v.usedElem base ram'.byte s = v.usedElem base ram.byte s) ∧
      v.usedIdx base ram'.byte =
        v.usedIdx base ram.byte + BitVec.ofNat 16 (v.pendingCount base ram.byte) ∧
      v.availIdx base ram'.byte = v.availIdx base ram.byte ∧
      v'.lastAvailIdx = v.availIdx base ram'.byte ∧
      v'.irqStatus = if v.pendingCount base ram.byte = 0 then v.irqStatus else 1 := by
  have hpending := pending_of_layout hlayout hsmall
  have hlength := v.pendingHeads_length base ram.byte
  obtain ⟨v', ram', hdrain, hall, hdone⟩ := drain_pending hpending
  have hprocess : v.processQueue ram base = drain base v ram := by
    obtain ⟨hflag, havail, hdesc⟩ := hready
    rw [processQueue, if_neg (by rintro (h | h | h) <;> contradiction)]
  refine ⟨v', ram', hprocess.trans hdrain, hall, ?_, ?_, ?_, hdone.avail, ?_, ?_⟩
  · intro k hk
    rw [hdone.elems k (by omega)]
    simp only [pendingHeads, List.getElem_map, List.getElem_range]
  · intro s hs hne
    exact hdone.others s hs fun i hi => hne i (by omega)
  · rw [hdone.used, hlength]
  · rw [hdone.last, hdone.avail, hpending.count]
  · rw [hdone.irq, ← hlength]
    cases v.pendingHeads base ram.byte with
    | nil => rfl
    | cons head heads => rfl

/-- A ready queue with one pending request, at the last index before the wrap. -/
def lastSlotBlk : VirtioBlk :=
  { new none with
    queueReady := 1
    descAddr := 0x8000_1000
    availAddr := 0x8000_0000
    usedAddr := 0x8000_0400
    lastAvailIdx := 0xFFFF }

/-- Its memory: a header descriptor linked to a status descriptor. -/
def lastSlotRam : Ram where
  byte a := match a with
    | 0x1001 => 0x18 | 0x1003 => 0x80 | 0x100c => 1 | 0x100e => 1
    | 0x1011 => 0x19 | 0x1013 => 0x80 | 0x101c => 2
    | _ => 0
  len := 0x2000

theorem lastSlot_chain : lastSlotBlk.chain 0x8000_0000 lastSlotRam.byte 16 0 = [0, 1] := by decide

theorem lastSlot_request : lastSlotBlk.request 0x8000_0000 lastSlotRam.byte 0 =
    [⟨0x8000_1800, 0, 1⟩, ⟨0x8000_1900, 0, 2⟩] := by decide

theorem lastSlot_decides {a : Nat}
    (ha : a ∈ lastSlotBlk.ringAndRequests 0x8000_0000 lastSlotRam.byte [0]) :
    a < 516 ∨ 0x1000 ≤ a ∧ a < 0x1020 ∨ 0x1800 ≤ a ∧ a < 0x1810 := by
  rcases ha with ha | ⟨head, hhead, ha⟩
  · exact Or.inl ha.2
  · rw [List.mem_singleton] at hhead
    subst hhead
    rw [consulted, lastSlot_chain, lastSlot_request] at ha
    rcases ha with ⟨idx, hidx, ha⟩ | ha
    · simp only [List.mem_cons, List.not_mem_nil, or_false] at hidx
      rcases hidx with rfl | rfl
      · exact Or.inr (Or.inl ⟨ha.1, Nat.lt_trans ha.2 (by decide)⟩)
      · exact Or.inr (Or.inl ⟨Nat.le_trans (by decide) ha.1, ha.2⟩)
    · exact Or.inr (Or.inr ha)

theorem lastSlot_layout : Layout lastSlotBlk lastSlotRam 0x8000_0000 [0] where
  avail := ⟨by decide, by decide, by decide⟩
  used := ⟨by decide, by decide, by decide⟩
  requests head hhead := by
    rw [List.mem_singleton] at hhead
    subst hhead
    refine ⟨?_, ?_, ?_, ?_, ?_⟩
    · rw [lastSlot_chain]
      intro idx hidx
      simp only [List.mem_cons, List.not_mem_nil, or_false] at hidx
      rcases hidx with rfl | rfl <;> exact ⟨by decide, by decide, by decide⟩
    all_goals
      intro first second rest hreq
      rw [lastSlot_request] at hreq
      cases hreq
    · exact ⟨by decide, by decide, by decide⟩
    · exact ⟨by decide, by decide, by decide⟩
    · decide
    · intro d hd
      cases hd
  used_apart := Set.disjoint_left.mpr fun a ha hin => by
    have hlow : 1024 ≤ a := ha.1
    have hhigh : a < 1024 + 2052 := ha.2
    rcases lastSlot_decides hin with h | h | h <;> omega
  written_apart head hhead := by
    rw [List.mem_singleton] at hhead
    subst hhead
    rw [lastSlot_request]
    refine Set.disjoint_left.mpr fun a ha hin => ?_
    have hstatus : a = 0x1900 := by
      rcases ha with ha | ⟨_, d, hd, _⟩
      · have hlow : 0x1900 ≤ a := ha.1
        have hhigh : a < 0x1900 + 1 := ha.2
        omega
      · cases hd
    subst hstatus
    rcases hin with hin | hin
    · exact absurd hin.2 (by decide)
    · rcases lastSlot_decides hin with h | h | h <;> omega

theorem lastSlot_completes :
    ∃ v' ram', lastSlotBlk.processQueue lastSlotRam 0x8000_0000 = some (v', ram') ∧
      lastSlotBlk.usedIdx 0x8000_0000 ram'.byte = 1 ∧ v'.lastAvailIdx = 0 ∧ v'.irqStatus = 1 := by
  have hheads : lastSlotBlk.pendingHeads 0x8000_0000 lastSlotRam.byte = [0] := by decide
  have hcount : lastSlotBlk.pendingCount 0x8000_0000 lastSlotRam.byte = 1 := by decide
  have hused : lastSlotBlk.usedIdx 0x8000_0000 lastSlotRam.byte = 0 := by decide
  have havail : lastSlotBlk.availIdx 0x8000_0000 lastSlotRam.byte = 0 := by decide
  obtain ⟨v', ram', hrun, _, _, _, hidx, hkept, hlast, hirq⟩ :=
    processQueue_completes ⟨by decide, by decide, by decide⟩ (hheads ▸ lastSlot_layout)
      (Nat.le_trans (Nat.le_of_eq hcount) (by decide))
  rw [hcount, hused] at hidx
  rw [hcount] at hirq
  exact ⟨v', ram', hrun, hidx, (hlast.trans hkept).trans havail, hirq⟩

end VirtioBlk

end RiscvEmu
