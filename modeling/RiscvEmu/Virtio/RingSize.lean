import RiscvEmu.Virtio.Placed
import RiscvEmu.Virtio.Termination

/-!
# The negotiated queue size

A driver may ask for fewer entries than the device offers, and then allocates rings of that size.
The device stores the number and reports it, but the loop of a notification counts its slots by
the largest size.  For a power of two the two agree on an index exactly when its slot lies in the
smaller ring; from the first index past it on, the loop reads heads and writes completions beyond
what the driver allocated.
-/

namespace RiscvEmu

namespace VirtioBlk

/-! ## Rings of a given size -/

/-- The address of the entry for an index in an available ring of `q` entries. -/
def availSlot (v : VirtioBlk) (q : Nat) (pos : U16) : U64 :=
  v.availAddr + 4 + BitVec.ofNat 64 (pos.toNat % q) * 2

/-- The address of the slot for an index in a used ring of `q` entries. -/
def usedSlot (v : VirtioBlk) (q : Nat) (idx : U16) : U64 :=
  v.usedAddr + 4 + BitVec.ofNat 64 (idx.toNat % q) * 8

/-- The head that an available ring of `q` entries holds for an index. -/
def sizedHead (v : VirtioBlk) (q : Nat) (base : U64) (m : Nat → U8) (pos : U16) : U16 :=
  (Bytes.readLe m (v.availSlot q pos - base).toNat 2).setWidth 16

/-- The heads of the pending entries of an available ring of `q` entries. -/
def sizedHeads (v : VirtioBlk) (q : Nat) (base : U64) (m : Nat → U8) : List U16 :=
  (List.range (v.pendingCount base m)).map fun k =>
    v.sizedHead q base m (v.lastAvailIdx + BitVec.ofNat 16 k)

/-- The offsets of a queue of `q` entries that decide what the pending requests are. -/
def sizedDecides (v : VirtioBlk) (q : Nat) (base : U64) (m : Nat → U8) (heads : List U16) :
    Set Nat :=
  span base v.availAddr (4 + 2 * q) ∪ {a | ∃ head ∈ heads, a ∈ v.consulted base m head}

/-- The rings of `q` entries and the requests with the given heads lie in RAM.  The used ring and
the bytes a request writes are disjoint from each other and from what decides the requests. -/
structure SizedLayout (q : Nat) (v : VirtioBlk) (ram : Ram) (base : U64) (heads : List U16) :
    Prop where
  avail : InRam ram.len base v.availAddr (4 + 2 * q)
  used : InRam ram.len base v.usedAddr (4 + 8 * q)
  requests : ∀ head ∈ heads, Placed v ram base head
  used_apart : Disjoint (span base v.usedAddr (4 + 8 * q))
    (v.sizedDecides q base ram.byte heads)
  written_apart : ∀ head ∈ heads,
    Disjoint (written base ram.byte (v.request base ram.byte head))
      (span base v.usedAddr (4 + 8 * q) ∪ v.sizedDecides q base ram.byte heads)

/-- A queue of `q` entries holds exactly the given heads as pending entries. -/
structure SizedPending (q : Nat) (v : VirtioBlk) (ram : Ram) (base : U64) (heads : List U16) :
    Prop where
  layout : SizedLayout q v ram base heads
  count : v.availIdx base ram.byte = v.lastAvailIdx + BitVec.ofNat 16 heads.length
  small : heads.length ≤ 256
  head : ∀ i (hi : i < heads.length),
    v.sizedHead q base ram.byte (v.lastAvailIdx + BitVec.ofNat 16 i) = heads[i]

/-! ## What the loop touches -/

/-- Where the next round reads its head. -/
def headAddr (s : VirtioBlk × Ram) : U64 := s.1.availEntry s.1.lastAvailIdx

/-- Where the next round writes its completion, after it served the request. -/
def completionAddr (base : U64) (s : VirtioBlk × Ram) : Option U64 := do
  let head ← r16 s.2 base (headAddr s)
  let (v, ram) ← s.1.doRequest s.2 base head
  let usedIdx ← r16 ram base (v.usedAddr + 2)
  return v.usedEntry (slot usedIdx)

/-- The rounds read their heads and write their completions in rings of `q` entries, from the
given indices on. -/
def Uses (q : Nat) (base : U64) (v : VirtioBlk) (last used : U16) (ss : List (VirtioBlk × Ram)) :
    Prop :=
  ∀ k (hk : k < ss.length), headAddr ss[k] = v.availSlot q (last + BitVec.ofNat 16 k) ∧
    completionAddr base ss[k] = some (v.usedSlot q (used + BitVec.ofNat 16 k))

/-- A notification serves the pending entries of a queue of the negotiated size: it reads the
`k`-th head and writes the `k`-th completion in the slots of that size, reads the available ring
and writes the used ring within their entries, and writes nothing else but what the requests do. -/
def FollowsSize (v : VirtioBlk) (ram : Ram) (base : U64) : Prop :=
  let q := v.queueNum.toNat
  ∃ ss r, (queueLoop base).Exits ss (v, ram) r ∧ v.processQueue ram base = some r ∧
    ss.length = v.pendingCount base ram.byte ∧
    Uses q base v v.lastAvailIdx (v.usedIdx base ram.byte) ss ∧
    (∀ s ∈ ss, span base (headAddr s) 2 ⊆ span base v.availAddr (4 + 2 * q) ∧
      ∃ elem, completionAddr base s = some elem ∧
        span base elem 8 ⊆ span base v.usedAddr (4 + 8 * q)) ∧
    ∀ a ∉ span base v.usedAddr (4 + 8 * q),
      (∀ head ∈ v.sizedHeads q base ram.byte,
        a ∉ written base ram.byte (v.request base ram.byte head)) →
        r.2.byte a = ram.byte a

/-- Every index that the pending entries come to has its slot in the smaller rings. -/
def SlotsInside (v : VirtioBlk) (ram : Ram) (base : U64) : Prop :=
  ∀ k < v.pendingCount base ram.byte,
    (v.lastAvailIdx + BitVec.ofNat 16 k).toNat % 256 < v.queueNum.toNat ∧
      (v.usedIdx base ram.byte + BitVec.ofNat 16 k).toNat % 256 < v.queueNum.toNat

/-! ## Slots of two sizes -/

section Slots

variable {v : VirtioBlk} {q : Nat}

theorem slot_eq_iff (hq : q ∣ 256) (hpos : 0 < q) (idx : U16) :
    slot idx = idx.toNat % q ↔ slot idx < q := by
  have hmod : slot idx % q = idx.toNat % q := Nat.mod_mod_of_dvd _ hq
  constructor
  · intro heq
    rw [heq]
    exact Nat.mod_lt _ hpos
  · intro hlt
    rw [← hmod, Nat.mod_eq_of_lt hlt]

theorem availEntry_eq_availSlot (hq : q ∣ 256) (hpos : 0 < q) (pos : U16) :
    v.availEntry pos = v.availSlot q pos ↔ slot pos < q := by
  rw [← slot_eq_iff hq hpos]
  constructor
  · intro heq
    have hs := slot_lt pos
    have hr := Nat.lt_of_lt_of_le (Nat.mod_lt pos.toNat hpos) (Nat.le_of_dvd (by decide) hq)
    have hval := congrArg BitVec.toNat (add_left_cancel heq)
    rw [slot] at hs ⊢
    simp only [BitVec.toNat_mul, BitVec.toNat_ofNat, show (2 : U64).toNat = 2 from rfl] at hval
    omega
  · intro heq
    rw [availSlot, ← heq]
    rfl

theorem usedEntry_eq_usedSlot (hq : q ∣ 256) (hpos : 0 < q) (idx : U16) :
    v.usedEntry (slot idx) = v.usedSlot q idx ↔ slot idx < q := by
  rw [← slot_eq_iff hq hpos]
  constructor
  · intro heq
    have hs := slot_lt idx
    have hr := Nat.lt_of_lt_of_le (Nat.mod_lt idx.toNat hpos) (Nat.le_of_dvd (by decide) hq)
    have hval := congrArg BitVec.toNat (add_left_cancel heq)
    simp only [BitVec.toNat_mul, BitVec.toNat_ofNat, show (8 : U64).toNat = 8 from rfl] at hval
    omega
  · intro heq
    rw [usedSlot, ← heq]
    rfl

theorem uses_cons {base : U64} {last used : U16} {s : VirtioBlk × Ram}
    {ss : List (VirtioBlk × Ram)} :
    Uses q base v last used (s :: ss) ↔
      (headAddr s = v.availSlot q last ∧ completionAddr base s = some (v.usedSlot q used)) ∧
        Uses q base v (last + 1) (used + 1) ss := by
  constructor
  · intro h
    refine ⟨by simpa using h 0 (Nat.succ_pos _), fun k hk => ?_⟩
    rw [ofNat_succ, ofNat_succ]
    exact h (k + 1) (Nat.succ_lt_succ hk)
  · rintro ⟨hhead, htail⟩ k hk
    cases k with
    | zero => simpa using hhead
    | succ k =>
        have := htail k (Nat.lt_of_succ_lt_succ hk)
        rwa [ofNat_succ, ofNat_succ] at this

end Slots

/-! ## One round -/

section Round

theorem availSlot_eq (v : VirtioBlk) (q : Nat) (pos : U16) :
    v.availSlot q pos = v.availAddr + BitVec.ofNat 64 (4 + 2 * (pos.toNat % q)) := by
  rw [availSlot, BitVec.add_assoc]
  congr 1
  apply BitVec.eq_of_toNat_eq
  simp only [BitVec.toNat_add, BitVec.toNat_mul, BitVec.toNat_ofNat,
    show (4 : U64).toNat = 4 from rfl, show (2 : U64).toNat = 2 from rfl]
  omega

/-- An entry lies in its ring. -/
theorem availSlot_span {q : Nat} {v : VirtioBlk} {len base : U64} (hpos : 0 < q)
    (havail : InRam len base v.availAddr (4 + 2 * q)) (pos : U16) :
    span base (v.availSlot q pos) 2 ⊆ span base v.availAddr (4 + 2 * q) := by
  have hs := Nat.mod_lt pos.toNat hpos
  have hp := Nat.mod_le pos.toNat q
  have hlt := pos.isLt
  have hval : (BitVec.ofNat 64 (4 + 2 * (pos.toNat % q))).toNat = 4 + 2 * (pos.toNat % q) := by
    rw [BitVec.toNat_ofNat]
    omega
  intro a ha
  rw [span, Set.mem_Ico, availSlot_eq, havail.offset_part _ (by omega), hval] at ha
  exact ⟨by omega, by omega⟩

theorem usedSlot_span {q : Nat} {v : VirtioBlk} {len base : U64} (hpos : 0 < q)
    (hused : InRam len base v.usedAddr (4 + 8 * q)) (idx : U16) :
    span base (v.usedSlot q idx) 8 ⊆ span base v.usedAddr (4 + 8 * q) := by
  have hs := Nat.mod_lt idx.toNat hpos
  have hp := Nat.mod_le idx.toNat q
  have hlt := idx.isLt
  have hval : (BitVec.ofNat 64 (4 + 8 * (idx.toNat % q))).toNat = 4 + 8 * (idx.toNat % q) := by
    rw [BitVec.toNat_ofNat]
    omega
  have heq : v.usedSlot q idx = v.usedAddr + BitVec.ofNat 64 (4 + 8 * (idx.toNat % q)) :=
    usedEntry_eq v (idx.toNat % q)
  intro a ha
  rw [span, Set.mem_Ico, heq, hused.offset_part _ (by omega), hval] at ha
  exact ⟨by omega, by omega⟩

theorem sizedHead_congr {q : Nat} {v : VirtioBlk} {ram : Ram} {base : U64} {m m' : Nat → U8}
    (hpos : 0 < q) (havail : InRam ram.len base v.availAddr (4 + 2 * q))
    (h : Set.EqOn m m' (span base v.availAddr (4 + 2 * q))) (pos : U16) :
    v.sizedHead q base m pos = v.sizedHead q base m' pos := by
  have hs := Nat.mod_lt pos.toNat hpos
  have hp := Nat.mod_le pos.toNat q
  have hlt := pos.isLt
  have hval : (BitVec.ofNat 64 (4 + 2 * (pos.toNat % q))).toNat = 4 + 2 * (pos.toNat % q) := by
    rw [BitVec.toNat_ofNat]
    omega
  rw [sizedHead, sizedHead, availSlot_eq, havail.offset_part _ (by omega), hval,
    span_congr h (by omega)]

variable {q : Nat} {v : VirtioBlk} {ram ram' : Ram} {base : U64} {head : U16} {heads : List U16}

/-- The layout of the remaining requests survives. -/
theorem SizedLayout.next (h : SizedLayout q v ram base (head :: heads)) (disk : Option Disk)
    (last : U16) (irq : U32) (hlen : ram'.len = ram.len)
    (hkept : Set.EqOn ram.byte ram'.byte (v.sizedDecides q base ram.byte (head :: heads))) :
    SizedLayout q { v with disk := disk, lastAvailIdx := last, irqStatus := irq } ram' base
      heads := by
  have hconsulted : ∀ k ∈ heads, Set.EqOn ram.byte ram'.byte (v.consulted base ram.byte k) :=
    fun k hk _ ha => hkept (Or.inr ⟨k, List.mem_cons_of_mem _ hk, ha⟩)
  have hdecides : { v with
      disk := disk, lastAvailIdx := last, irqStatus := irq }.sizedDecides q base ram'.byte heads ⊆
      v.sizedDecides q base ram.byte (head :: heads) := by
    rintro a (ha | ⟨k, hk, ha⟩)
    · exact Or.inl ha
    · rw [consulted_update, consulted_of_consulted (hconsulted k hk)] at ha
      exact Or.inr ⟨k, List.mem_cons_of_mem _ hk, ha⟩
  refine
    { avail := hlen ▸ h.avail
      used := hlen ▸ h.used
      requests := ?_
      used_apart := h.used_apart.mono_right hdecides
      written_apart := ?_ }
  · intro k hk
    have hreq := h.requests k (List.mem_cons_of_mem _ hk)
    have hsame := hconsulted k hk
    refine ⟨?_, ?_, ?_, ?_⟩
    · rw [chain_update, chain_of_consulted hsame, hlen]
      exact hreq.entries
    all_goals rw [request_update, request_of_consulted hsame, hlen]
    · exact hreq.header
    · exact hreq.status
    · exact hreq.buffers
  · intro k hk
    rw [request_update, written_of_consulted (hconsulted k hk)]
    exact (h.written_apart k (List.mem_cons_of_mem _ hk)).mono_right
      (Set.union_subset_union_right _ hdecides)

theorem SizedPending.poll (h : SizedPending q v ram base heads) (hpos : 0 < q) :
    (queueLoop base).poll (v, ram) = some (decide (heads ≠ [])) := by
  have hpoll : InRam ram.len base (v.availAddr + 2) 2 := h.layout.avail.part 2 (m := 2)
    (by decide) (by rw [show (2 : U64).toNat = 2 from rfl]; omega)
  refine Option.map_eq_some_iff.mpr ⟨_, r16_inRam hpoll, decide_eq_decide.mpr (not_congr ?_)⟩
  have hcount := h.count
  have hsmall := h.small
  rw [availIdx] at hcount
  rw [hcount]
  cases heads with
  | nil => simp
  | cons head heads =>
      refine iff_of_false (fun heq => ?_) (List.cons_ne_nil _ _)
      have hval := congrArg BitVec.toNat heq
      simp only [List.length_cons, BitVec.toNat_add, BitVec.toNat_ofNat] at hval hsmall
      omega

/-- The request at the front is served, and the used ring stays as it is until its completion. -/
theorem SizedPending.request (h : SizedPending q v ram base (head :: heads)) (hpos : 0 < q)
    (hq : q ∣ 256) (hlast : slot v.lastAvailIdx < q) :
    r16 ram base (v.availEntry v.lastAvailIdx) = some head ∧
      ∃ disk ram₁, v.doRequest ram base head = some ({ v with disk := disk }, ram₁) ∧
        r16 ram₁ base (v.usedAddr + 2) = some (v.usedIdx base ram.byte) ∧
        v.usedIdx base ram₁.byte = v.usedIdx base ram.byte := by
  have hentry := (availEntry_eq_availSlot (v := v) hq hpos v.lastAvailIdx).mpr hlast
  have hhead : v.headAt base ram.byte v.lastAvailIdx = head := by
    have hfirst := h.head 0 (Nat.succ_pos _)
    rw [sizedHead, show v.lastAvailIdx + BitVec.ofNat 16 0 = v.lastAvailIdx by simp,
      ← hentry] at hfirst
    exact hfirst
  have hin : InRam ram.len base (v.availEntry v.lastAvailIdx) 2 :=
    availEntry_inRam h.layout.avail (by omega)
  have hread := r16_inRam hin
  obtain ⟨⟨v₁, ram₁⟩, hreq⟩ := doRequest_placed (h.layout.requests head (List.mem_cons_self ..))
  obtain ⟨⟨disk, rfl⟩, hframe⟩ := doRequest_frame hreq
  have happ := Set.disjoint_union_right.mp
    (h.layout.written_apart head (List.mem_cons_self ..))
  have hidx : v.usedIdx base ram₁.byte = v.usedIdx base ram.byte :=
    usedIdx_congr h.layout.used (by omega) fun a ha =>
      hframe a fun hw => Set.disjoint_left.mp happ.1 hw ha
  have hlen := doRequest_len hreq
  have hfield : InRam ram₁.len base (v.usedAddr + 2) 2 := hlen ▸ h.layout.used.part 2 (m := 2)
    (by decide) (by rw [show (2 : U64).toNat = 2 from rfl]; omega)
  refine ⟨hread.trans (congrArg some hhead), disk, ram₁, hreq, ?_, hidx⟩
  rw [← hidx]
  exact r16_inRam hfield

/-- The completion goes to the slot the used index selects. -/
theorem SizedPending.completionAddr (h : SizedPending q v ram base (head :: heads)) (hpos : 0 < q)
    (hq : q ∣ 256) (hlast : slot v.lastAvailIdx < q) :
    completionAddr base (v, ram) = some (v.usedEntry (slot (v.usedIdx base ram.byte))) := by
  obtain ⟨hread, disk, ram₁, hreq, hidx, _⟩ := h.request hpos hq hlast
  exact Option.bind_eq_some_iff.mpr ⟨head, hread, Option.bind_eq_some_iff.mpr
    ⟨_, hreq, Option.bind_eq_some_iff.mpr ⟨_, hidx, rfl⟩⟩⟩

/-- A round whose slots lie in the rings leaves the rest pending. -/
theorem SizedPending.serve (h : SizedPending q v ram base (head :: heads)) (hpos : 0 < q)
    (hq : q ∣ 256) (hlast : slot v.lastAvailIdx < q)
    (hused : slot (v.usedIdx base ram.byte) < q) :
    ∃ disk ram₁, v.serveNext ram base = some ({ v with
        disk := disk, lastAvailIdx := v.lastAvailIdx + 1, irqStatus := 1 }, ram₁) ∧
      SizedPending q { v with
        disk := disk, lastAvailIdx := v.lastAvailIdx + 1, irqStatus := 1 } ram₁ base heads ∧
      v.usedIdx base ram₁.byte = v.usedIdx base ram.byte + 1 ∧
      Set.EqOn ram.byte ram₁.byte (v.sizedDecides q base ram.byte (head :: heads)) ∧
      ∀ a ∉ span base v.usedAddr (4 + 8 * q),
        a ∉ written base ram.byte (v.request base ram.byte head) → ram₁.byte a = ram.byte a := by
  obtain ⟨hread, disk, ram₁, hreq, hidxread, hidx⟩ := h.request hpos hq hlast
  have hlen := doRequest_len hreq
  obtain ⟨_, hframe⟩ := doRequest_frame hreq
  have hring : InRam ram₁.len base v.usedAddr (4 + 8 * q) := hlen ▸ h.layout.used
  have hfits : 12 + 8 * slot (v.usedIdx base ram₁.byte) ≤ 4 + 8 * q := by
    rw [hidx]
    omega
  have happ := Set.disjoint_union_right.mp
    (h.layout.written_apart head (List.mem_cons_self ..))
  have hcomplete := complete_of_request hreq
    (completionFits (v := { v with disk := disk }) hring hfits)
  have houtside (a : Nat) (ha : a ∉ span base v.usedAddr (4 + 8 * q))
      (hw : a ∉ written base ram.byte (v.request base ram.byte head)) :
      (v.appended ram₁ base head).byte a = ram.byte a :=
    (appended_outside (v := { v with disk := disk }) hring hfits head ha).trans (hframe a hw)
  have hkept : Set.EqOn ram.byte (v.appended ram₁ base head).byte
      (v.sizedDecides q base ram.byte (head :: heads)) := fun a ha =>
    (houtside a (Set.disjoint_right.mp h.layout.used_apart ha)
      (Set.disjoint_right.mp happ.2 ha)).symm
  have havail : Set.EqOn ram.byte (v.appended ram₁ base head).byte
      (span base v.availAddr (4 + 2 * q)) := fun a ha => hkept (Or.inl ha)
  refine ⟨disk, v.appended ram₁ base head, ?_, ⟨?_, ?_, ?_, ?_⟩, ?_, hkept, houtside⟩
  · rw [serveNext_complete, hread, Option.bind_some]
    exact hcomplete
  · exact h.layout.next disk _ _ hlen hkept
  · have hcount : v.availIdx base (v.appended ram₁ base head).byte = v.availIdx base ram.byte :=
      (availIdx_congr h.layout.avail (by omega) havail).symm
    exact (hcount.trans h.count).trans (ofNat_succ heads.length v.lastAvailIdx).symm
  · exact Nat.le_of_succ_le h.small
  · intro i hi
    have hhead := h.head (i + 1) (Nat.succ_lt_succ hi)
    rw [← ofNat_succ] at hhead
    refine Eq.trans ?_ hhead
    exact (sizedHead_congr hpos h.layout.avail havail _).symm
  · rw [← hidx]
    exact usedIdx_appended (v := { v with disk := disk }) head

end Round

/-! ## All rounds -/

section Runs

variable {q : Nat} {base : U64}

/-- When every slot lies in the rings the loop serves the pending heads, one round each. -/
theorem SizedPending.follows (hpos : 0 < q) (hq : q ∣ 256) :
    ∀ {heads : List U16} {v : VirtioBlk} {ram : Ram}, SizedPending q v ram base heads →
      (∀ k < heads.length, slot (v.lastAvailIdx + BitVec.ofNat 16 k) < q ∧
        slot (v.usedIdx base ram.byte + BitVec.ofNat 16 k) < q) →
      ∃ ss r, (queueLoop base).Exits ss (v, ram) r ∧ ss.length = heads.length ∧
        Uses q base v v.lastAvailIdx (v.usedIdx base ram.byte) ss ∧
        ∀ a ∉ span base v.usedAddr (4 + 8 * q),
          (∀ head ∈ heads, a ∉ written base ram.byte (v.request base ram.byte head)) →
            r.2.byte a = ram.byte a
  | [], v, ram, h, _ =>
      ⟨[], (v, ram), ⟨.nil _, h.poll hpos⟩, rfl, fun _ hk => absurd hk (Nat.not_lt_zero _),
        fun _ _ _ => rfl⟩
  | head :: heads, v, ram, h, hin => by
      obtain ⟨hlast, hused⟩ := hin 0 (Nat.succ_pos _)
      rw [show v.lastAvailIdx + BitVec.ofNat 16 0 = v.lastAvailIdx by simp] at hlast
      rw [show v.usedIdx base ram.byte + BitVec.ofNat 16 0 = v.usedIdx base ram.byte by simp]
        at hused
      obtain ⟨disk, ram₁, hserve, hnext, hidx, hkept, hframe⟩ := h.serve hpos hq hlast hused
      have hfirst := h.completionAddr hpos hq hlast
      rw [(usedEntry_eq_usedSlot hq hpos _).mpr hused] at hfirst
      have hidx' : { v with disk := disk, lastAvailIdx := v.lastAvailIdx + 1, irqStatus := 1
          }.usedIdx base ram₁.byte = v.usedIdx base ram.byte + 1 := hidx
      obtain ⟨ss, r, ⟨hrun, hdone⟩, hlen, huses, hrest⟩ := hnext.follows hpos hq fun k hk => by
        rw [hidx', ofNat_succ, ofNat_succ]
        exact hin (k + 1) (Nat.succ_lt_succ hk)
      rw [hidx'] at huses
      refine ⟨(v, ram) :: ss, r, ⟨.cons (h.poll hpos) hserve hrun, hdone⟩, congrArg _ hlen,
        uses_cons.mpr ⟨⟨(availEntry_eq_availSlot hq hpos _).mpr hlast, hfirst⟩, huses⟩, ?_⟩
      intro a ha hw
      refine (hrest a ha fun k hk => ?_).trans (hframe a ha (hw head (List.mem_cons_self ..)))
      rw [request_update, written_of_consulted fun a ha =>
        hkept (Or.inr ⟨k, List.mem_cons_of_mem _ hk, ha⟩)]
      exact hw k (List.mem_cons_of_mem _ hk)

/-- When the rounds use the slots of the rings, every slot lies in them.  The induction is on the
pending heads: the slots of a round lie in the rings, so the rest stays pending. -/
theorem SizedPending.inside (hpos : 0 < q) (hq : q ∣ 256) :
    ∀ {heads : List U16} {v : VirtioBlk} {ram : Ram} {ss : List (VirtioBlk × Ram)}
      {r : VirtioBlk × Ram}, SizedPending q v ram base heads →
      (queueLoop base).Rounds ss (v, ram) r → ss.length = heads.length →
      Uses q base v v.lastAvailIdx (v.usedIdx base ram.byte) ss →
        ∀ k < heads.length, slot (v.lastAvailIdx + BitVec.ofNat 16 k) < q ∧
          slot (v.usedIdx base ram.byte + BitVec.ofNat 16 k) < q
  | [], _, _, _, _, _, _, _, _, k, hk => absurd hk (Nat.not_lt_zero k)
  | head :: heads, v, ram, ss, r, h, hrun, hlen, huses, k, hk => by
      cases hrun with
      | nil => cases hlen
      | cons _ hbody hrun =>
          obtain ⟨⟨hentry, helem⟩, htail⟩ := uses_cons.mp huses
          have hlast := (availEntry_eq_availSlot hq hpos _).mp hentry
          have hused : slot (v.usedIdx base ram.byte) < q :=
            (usedEntry_eq_usedSlot hq hpos _).mp
              (Option.some.inj ((h.completionAddr hpos hq hlast).symm.trans helem))
          cases k with
          | zero => simpa using ⟨hlast, hused⟩
          | succ k =>
              obtain ⟨disk, ram₁, hserve, hnext, hidx, _⟩ := h.serve hpos hq hlast hused
              obtain rfl := Option.some.inj (hbody.symm.trans hserve)
              have hidx' : { v with disk := disk, lastAvailIdx := v.lastAvailIdx + 1, irqStatus := 1
                  }.usedIdx base ram₁.byte = v.usedIdx base ram.byte + 1 := hidx
              have hrest := hnext.inside hpos hq hrun (Nat.succ.inj hlen)
                (by rw [hidx']; exact htail) k (Nat.lt_of_succ_lt_succ hk)
              rwa [hidx', ofNat_succ, ofNat_succ] at hrest

end Runs

/-! ## A notification -/

section Notification

variable {v : VirtioBlk} {ram : Ram} {base : U64}

theorem sizedHeads_length (v : VirtioBlk) (q : Nat) (base : U64) (m : Nat → U8) :
    (v.sizedHeads q base m).length = v.pendingCount base m := by
  rw [sizedHeads, List.length_map, List.length_range]

theorem sizedPending_of_layout {q : Nat}
    (hlayout : SizedLayout q v ram base (v.sizedHeads q base ram.byte))
    (hsmall : v.pendingCount base ram.byte ≤ 256) :
    SizedPending q v ram base (v.sizedHeads q base ram.byte) where
  layout := hlayout
  count := by
    rw [sizedHeads_length]
    exact availIdx_eq v base ram.byte
  small := by rwa [sizedHeads_length]
  head i hi := by
    simp only [sizedHeads, List.getElem_map, List.getElem_range]

/-- A queue of a negotiated size is served in its own slots exactly when no pending entry has an
index whose slot among 256 lies beyond the rings of that size. -/
theorem followsSize_iff (hsize : ∃ j ≤ 8, v.queueNum.toNat = 2 ^ j) (hready : v.Ready)
    (hlayout : SizedLayout v.queueNum.toNat v ram base
      (v.sizedHeads v.queueNum.toNat base ram.byte))
    (hsmall : v.pendingCount base ram.byte ≤ v.queueNum.toNat) :
    FollowsSize v ram base ↔ SlotsInside v ram base := by
  obtain ⟨j, hj, hnum⟩ := hsize
  have hq : v.queueNum.toNat ∣ 256 := by
    rw [hnum]
    exact Nat.pow_dvd_pow 2 hj
  have hpos : 0 < v.queueNum.toNat := by
    rw [hnum]
    exact Nat.two_pow_pos j
  have hle := Nat.le_of_dvd (by decide) hq
  have hpending := sizedPending_of_layout hlayout (Nat.le_trans hsmall hle)
  have hlength := v.sizedHeads_length v.queueNum.toNat base ram.byte
  constructor
  · rintro ⟨ss, r, ⟨hrun, _⟩, _, hlen, huses, _⟩ k hk
    exact hpending.inside hpos hq hrun (hlen.trans hlength.symm) huses k (hlength ▸ hk)
  · intro hin
    obtain ⟨ss, r, hexit, hlen, huses, hframe⟩ := hpending.follows hpos hq fun k hk =>
      hin k (hlength ▸ hk)
    refine ⟨ss, r, hexit, processQueue_of_exits hready hexit, hlen.trans hlength, huses, ?_,
      hframe⟩
    intro s hs
    obtain ⟨k, hk, rfl⟩ := List.getElem_of_mem hs
    obtain ⟨hhead, helem⟩ := huses k hk
    rw [hhead]
    exact ⟨availSlot_span hpos hlayout.avail _, _, helem, usedSlot_span hpos hlayout.used _⟩

/-! ### A queue of eight entries -/

/-- A device with a queue of eight entries, after a number of requests. -/
def eightRing (served : U8) : VirtioBlk :=
  { lastSlotBlk with queueNum := 8, lastAvailIdx := served.setWidth 16 }

/-- Its memory: both rings are of eight entries, and one more request is pending. -/
def eightRingRam (served : U8) : Ram where
  byte a := if a = 2 then served + 1 else if a = 0x402 then served else lastSlotRam.byte a
  len := 0x2000

theorem eightRing_chain {served : U8} (h : served = 0 ∨ served = 8) :
    (eightRing served).chain 0x8000_0000 (eightRingRam served).byte 16 0 = [0, 1] := by
  rcases h with rfl | rfl <;> decide

theorem eightRing_request {served : U8} (h : served = 0 ∨ served = 8) :
    (eightRing served).request 0x8000_0000 (eightRingRam served).byte 0 =
      [⟨0x8000_1800, 0, 1⟩, ⟨0x8000_1900, 0, 2⟩] := by
  rcases h with rfl | rfl <;> decide

theorem eightRing_decides {served : U8} (h : served = 0 ∨ served = 8) {a : Nat}
    (ha : a ∈ (eightRing served).sizedDecides 8 0x8000_0000 (eightRingRam served).byte [0]) :
    a < 20 ∨ 0x1000 ≤ a ∧ a < 0x1020 ∨ 0x1800 ≤ a ∧ a < 0x1810 := by
  rcases ha with ha | ⟨head, hhead, ha⟩
  · have ha' : a ∈ span 0x8000_0000 lastSlotBlk.availAddr 20 := ha
    exact Or.inl ha'.2
  · rw [List.mem_singleton] at hhead
    subst hhead
    rw [consulted, eightRing_chain h, eightRing_request h] at ha
    rcases ha with ⟨idx, hidx, ha⟩ | ha
    · replace ha : a ∈ span 0x8000_0000 (lastSlotBlk.entry idx) 16 := ha
      simp only [List.mem_cons, List.not_mem_nil, or_false] at hidx
      rcases hidx with rfl | rfl
      · exact Or.inr (Or.inl ⟨ha.1, Nat.lt_trans ha.2 (by decide)⟩)
      · exact Or.inr (Or.inl ⟨Nat.le_trans (by decide) ha.1, ha.2⟩)
    · exact Or.inr (Or.inr ha)

theorem eightRing_layout {served : U8} (h : served = 0 ∨ served = 8) :
    SizedLayout 8 (eightRing served) (eightRingRam served) 0x8000_0000 [0] where
  avail := (⟨by decide, by decide, by decide⟩ : InRam 0x2000 0x8000_0000 lastSlotBlk.availAddr 20)
  used := (⟨by decide, by decide, by decide⟩ : InRam 0x2000 0x8000_0000 lastSlotBlk.usedAddr 68)
  requests head hhead := by
    rw [List.mem_singleton] at hhead
    subst hhead
    refine ⟨?_, ?_, ?_, ?_⟩
    · rw [eightRing_chain h]
      intro idx hidx
      suffices InRam 0x2000 0x8000_0000 (lastSlotBlk.entry idx) 16 from this
      simp only [List.mem_cons, List.not_mem_nil, or_false] at hidx
      rcases hidx with rfl | rfl <;> exact ⟨by decide, by decide, by decide⟩
    all_goals
      intro first second rest hreq
      rw [eightRing_request h] at hreq
      cases hreq
    · exact (⟨by decide, by decide, by decide⟩ : InRam 0x2000 0x8000_0000 0x8000_1800 16)
    · exact (⟨by decide, by decide, by decide⟩ : InRam 0x2000 0x8000_0000 0x8000_1900 1)
    · intro d hd
      cases hd
  used_apart := Set.disjoint_left.mpr fun a ha hin => by
    replace ha : a ∈ span 0x8000_0000 lastSlotBlk.usedAddr 68 := ha
    have hlow : 1024 ≤ a := ha.1
    have hhigh : a < 1024 + 68 := ha.2
    rcases eightRing_decides h hin with h | h | h <;> omega
  written_apart head hhead := by
    rw [List.mem_singleton] at hhead
    subst hhead
    rw [eightRing_request h]
    refine Set.disjoint_left.mpr fun a ha hin => ?_
    have hstatus : a = 0x1900 := by
      rcases ha with ha | ⟨_, d, hd, _⟩
      · have hlow : 0x1900 ≤ a := ha.1
        have hhigh : a < 0x1900 + 1 := ha.2
        omega
      · cases hd
    subst hstatus
    rcases hin with hin | hin
    · replace hin : 0x1900 ∈ span 0x8000_0000 lastSlotBlk.usedAddr 68 := hin
      exact absurd hin.2 (by decide)
    · rcases eightRing_decides h hin with h | h | h <;> omega

/-- The first request of a queue of eight entries is served in its own slots. -/
theorem eightRing_first : FollowsSize (eightRing 0) (eightRingRam 0) 0x8000_0000 := by
  have hheads : (eightRing 0).sizedHeads (eightRing 0).queueNum.toNat 0x8000_0000
      (eightRingRam 0).byte = [0] := by decide
  exact (followsSize_iff ⟨3, by decide, by decide⟩ ⟨by decide, by decide, by decide⟩
    (hheads ▸ eightRing_layout (Or.inl rfl)) (by decide)).mpr (by unfold SlotsInside; decide)

/-- After eight requests the next one is looked for beyond the rings. -/
theorem eightRing_ninth :
    ¬ ∀ (v : VirtioBlk) (ram : Ram) (base : U64), (∃ j ≤ 8, v.queueNum.toNat = 2 ^ j) →
      v.Ready →
      SizedLayout v.queueNum.toNat v ram base (v.sizedHeads v.queueNum.toNat base ram.byte) →
      v.pendingCount base ram.byte ≤ v.queueNum.toNat → FollowsSize v ram base := by
  intro h
  have hheads : (eightRing 8).sizedHeads (eightRing 8).queueNum.toNat 0x8000_0000
      (eightRingRam 8).byte = [0] := by decide
  have hlayout : SizedLayout (eightRing 8).queueNum.toNat (eightRing 8) (eightRingRam 8)
      0x8000_0000 ((eightRing 8).sizedHeads (eightRing 8).queueNum.toNat 0x8000_0000
        (eightRingRam 8).byte) := hheads ▸ eightRing_layout (Or.inr rfl)
  obtain ⟨ss, r, ⟨hrun, _⟩, _, hlen, huses, _⟩ := h (eightRing 8) (eightRingRam 8) 0x8000_0000
    ⟨3, by decide, by decide⟩ ⟨by decide, by decide, by decide⟩ hlayout (by decide)
  have hin := (sizedPending_of_layout hlayout (by decide)).inside (by decide) (by decide) hrun
    (hlen.trans (sizedHeads_length ..).symm) huses 0 (by rw [hheads]; decide)
  exact absurd hin.1 (by decide)

end Notification

end VirtioBlk

end RiscvEmu
