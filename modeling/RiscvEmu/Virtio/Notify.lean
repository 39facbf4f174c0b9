import RiscvEmu.Virtio.Completion
import Mathlib.Logic.Relation
import Mathlib.Data.BitVec

/-!
# Notifications the guest can make

The guest chooses every address the device uses.  A notification returns, with every index in
RAM and no wrapping subtraction or multiplication, when each entry the loop comes to can be
served and serving it leaves the index of the available ring alone: then the loop counts down to
it.  Nothing in the device checks this, so a guest can abort the emulator.
-/

namespace RiscvEmu

namespace VirtioBlk

variable {v : VirtioBlk} {ram : Ram} {base : U64}

/-! ## One entry -/

/-- The offsets of the index of the available ring. -/
def availIdxSpan (v : VirtioBlk) (base : U64) : Set Nat := span base (v.availAddr + 2) 2

/-- The next entry can be served without an access outside RAM, and serving it leaves the index
of the available ring alone. -/
structure EntryFits (v : VirtioBlk) (ram : Ram) (base : U64) : Prop where
  entry : InRam ram.len base (v.availEntry v.lastAvailIdx) 2
  request : RequestFits v ram base (v.headAt base ram.byte v.lastAvailIdx)
  completion : ∀ v₁ ram₁,
    v.doRequest ram base (v.headAt base ram.byte v.lastAvailIdx) = some (v₁, ram₁) →
      CompletionFits v₁ ram₁ base ∧
        Disjoint (span base (v₁.usedEntry (slot (v₁.usedIdx base ram₁.byte))) 8)
          (v.availIdxSpan base)
  written_apart : Disjoint
    (written base ram.byte (v.request base ram.byte (v.headAt base ram.byte v.lastAvailIdx)))
    (v.availIdxSpan base)
  used_apart : Disjoint (span base (v.usedAddr + 2) 2) (v.availIdxSpan base)

/-- A completion writes the used index and its slot, and nothing else. -/
theorem appended_kept (hoff : (v.usedEntry (slot (v.usedIdx base ram.byte)) + 4 - base).toNat =
      (v.usedEntry (slot (v.usedIdx base ram.byte)) - base).toNat + 4) (head : U16) {s : Set Nat}
    (hidx : Disjoint (span base (v.usedAddr + 2) 2) s)
    (helem : Disjoint (span base (v.usedEntry (slot (v.usedIdx base ram.byte))) 8) s) :
    Set.EqOn (v.appended ram base head).byte ram.byte s := by
  intro a ha
  have hout := Set.disjoint_right.mp helem ha
  have hout' := Set.disjoint_right.mp hidx ha
  rw [span, Set.mem_Ico] at hout hout'
  simp only [appended, Checked.put, hoff]
  rw [Bytes.writeLe_outside _ _ (by omega), Bytes.writeLe_outside _ _ (by omega),
    Bytes.writeLe_outside _ _ (by omega)]

/-- The next entry is served, and the available ring holds the same index afterwards. -/
theorem serveNext_of_fits (h : EntryFits v ram base) :
    ∃ v' ram', Checked.serveNext v ram base = some (v', ram') ∧
      v'.lastAvailIdx = v.lastAvailIdx + 1 ∧
      v'.availIdx base ram'.byte = v.availIdx base ram.byte := by
  obtain ⟨⟨v₁, ram₁⟩, hreq⟩ := Checked.doRequest_of_fits h.request
  have hserved := Checked.doRequest_eq hreq
  obtain ⟨hfit, helem⟩ := h.completion v₁ ram₁ hserved
  obtain ⟨⟨disk, rfl⟩, hframe⟩ := doRequest_frame hserved
  have hplace := Checked.mul_of_lt (a := BitVec.ofNat 64 (slot v.lastAvailIdx)) (b := 2) (by
    have := slot_lt v.lastAvailIdx
    rw [BitVec.toNat_ofNat, show (2 : U64).toNat = 2 from rfl]
    omega)
  have hserve : Checked.serveNext v ram base = some _ :=
    Option.bind_eq_some_iff.mpr ⟨_, hplace, Option.bind_eq_some_iff.mpr
      ⟨_, Checked.r16_of_fits h.entry, Checked.complete_of_fits hreq hfit⟩⟩
  refine ⟨_, _, hserve, rfl, ?_⟩
  have hkept := appended_kept (hfit.elem.offset_part 4 (by decide))
    (v.headAt base ram.byte v.lastAvailIdx) h.used_apart helem
  rw [availIdx, availIdx]
  congr 1
  refine Bytes.readLe_congr fun i hi => ?_
  have hin : (v.availAddr + 2 - base).toNat + i ∈ v.availIdxSpan base :=
    ⟨Nat.le_add_right _ _, Nat.add_lt_add_left hi _⟩
  exact (hkept hin).trans (hframe _ fun hw => Set.disjoint_left.mp h.written_apart hw hin)

/-! ## The loop -/

/-- The loop takes one entry. -/
def Serves (base : U64) (s s' : VirtioBlk × Ram) : Prop :=
  s.1.lastAvailIdx ≠ s.1.availIdx base s.2.byte ∧ s.1.serveNext s.2 base = some s'

/-- Wherever the loop comes to, the index of the available ring is in RAM, and a pending entry
can be served. -/
def QueueFits (v : VirtioBlk) (ram : Ram) (base : U64) : Prop :=
  ∀ s, Relation.ReflTransGen (Serves base) (v, ram) s →
    InRam s.2.len base (s.1.availAddr + 2) 2 ∧
      (s.1.lastAvailIdx ≠ s.1.availIdx base s.2.byte → EntryFits s.1 s.2 base)

/-- The loop returns: the distance to the index of the available ring falls with each entry. -/
theorem drain_of_fits (h : QueueFits v ram base) : ∃ r, Checked.drain base v ram = some r := by
  induction hn : (v.availIdx base ram.byte - v.lastAvailIdx).toNat
    using Nat.strong_induction_on generalizing v ram with
  | _ n ih =>
      obtain ⟨hpoll, hentry⟩ := h (v, ram) .refl
      have hidx : Checked.r16 ram base (v.availAddr + 2) = some (v.availIdx base ram.byte) :=
        Checked.r16_of_fits hpoll
      rw [Checked.drain, hidx, Option.bind_eq_bind, Option.bind_some]
      split
      · exact ⟨_, rfl⟩
      · rename_i hpending
        obtain ⟨v', ram', hserve, hlast, hkept⟩ := serveNext_of_fits (hentry hpending)
        have hstep : Serves base (v, ram) (v', ram') := ⟨hpending, Checked.serveNext_eq hserve⟩
        rw [hserve, Option.bind_eq_bind, Option.bind_some]
        refine ih _ ?_ (fun s hs => h s (.head hstep hs)) rfl
        rw [hkept, hlast, ← hn]
        have hne : (v.availIdx base ram.byte - v.lastAvailIdx).toNat ≠ 0 := by
          intro hzero
          have hsub : v.availIdx base ram.byte - v.lastAvailIdx = 0 := BitVec.eq_of_toNat_eq hzero
          exact hpending (sub_eq_zero.mp hsub).symm
        have hone : (1 : U16).toNat = 1 := rfl
        simp only [BitVec.toNat_sub, BitVec.toNat_add, hone] at hne ⊢
        omega

section Laid

variable {head : U16} {heads : List U16}

/-- In a laid out queue the next entry can be served. -/
theorem Pending.entryFits (h : Pending v ram base (head :: heads)) : EntryFits v ram base := by
  have hhead : v.headAt base ram.byte v.lastAvailIdx = head := by
    have := h.head 0 (Nat.succ_pos _)
    simpa using this
  have hmem : head ∈ head :: heads := List.mem_cons_self ..
  have hoff : (v.availAddr + 2 - base).toNat = (v.availAddr - base).toNat + 2 :=
    h.layout.avail.offset_part 2 (by decide)
  have hpart : v.availIdxSpan base ⊆ v.ringAndRequests base ram.byte (head :: heads) := by
    intro a ha
    rw [availIdxSpan, span, Set.mem_Ico, hoff] at ha
    exact Or.inl ⟨by omega, by omega⟩
  have hwritten := h.layout.written_apart head hmem
  have hring : ∀ s < 256, Disjoint (span base (v.usedEntry s) 8) (v.availIdxSpan base) := by
    intro s hs
    refine (h.layout.used_apart.mono_right hpart).mono_left fun a ha => ?_
    rw [span, Set.mem_Ico, usedEntry_offset h.layout.used hs (by omega)] at ha
    exact ⟨by omega, by omega⟩
  refine ⟨availEntry_inRam h.layout.avail (entry_fits _), ?_, ?_, ?_, ?_⟩
  · rw [hhead]
    exact (h.layout.requests head hmem).fits
  · intro v₁ ram₁ hreq
    have hlen := doRequest_len hreq
    obtain ⟨⟨disk, rfl⟩, _⟩ := doRequest_frame hreq
    exact ⟨completionFits (v := { v with disk := disk }) (hlen ▸ h.layout.used) (slot_fits _),
      hring _ (slot_lt _)⟩
  · rw [hhead]
    exact hwritten.mono_right fun a ha => Or.inr (hpart ha)
  · have hidx := usedIdx_offset h.layout.used (by decide)
    refine (h.layout.used_apart.mono_right hpart).mono_left fun a ha => ?_
    rw [span, Set.mem_Ico, hidx] at ha
    exact ⟨by omega, by omega⟩

/-- Wherever the loop comes to in a laid out queue, the rest of the heads is pending. -/
theorem Pending.reaches {s : VirtioBlk × Ram} (h : Pending v ram base heads)
    (hs : Relation.ReflTransGen (Serves base) (v, ram) s) :
    ∃ rest, Pending s.1 s.2 base rest := by
  induction hs with
  | refl => exact ⟨heads, h⟩
  | tail _ hstep ih =>
      obtain ⟨rest, hrest⟩ := ih
      obtain ⟨hbusy, hserve⟩ := hstep
      cases rest with
      | nil => exact absurd hrest.idle hbusy
      | cons head rest =>
          obtain ⟨disk, ram₁, _, hserve', hfirst⟩ := hrest.serve
          rw [hserve] at hserve'
          cases hserve'
          exact ⟨rest, hrest.next disk hfirst⟩

/-- A laid out queue can be served. -/
theorem Pending.queueFits (h : Pending v ram base heads) : QueueFits v ram base := by
  intro s hs
  obtain ⟨rest, hrest⟩ := h.reaches hs
  refine ⟨hrest.layout.avail.part 2 (by decide) (by decide), fun hbusy => ?_⟩
  cases rest with
  | nil => exact absurd hrest.idle hbusy
  | cons head rest => exact hrest.entryFits

end Laid

/-- A notification of a device that is not ready is ignored; a ready one can serve its queue. -/
def NotifyFits (v : VirtioBlk) (ram : Ram) (base : U64) : Prop := v.Ready → QueueFits v ram base

theorem processQueue_of_fits (h : NotifyFits v ram base) :
    ∃ r, Checked.processQueue v ram base = some r := by
  rw [Checked.processQueue]
  split
  · exact ⟨_, rfl⟩
  · rename_i hready
    simp only [not_or] at hready
    exact drain_of_fits (h hready)

end VirtioBlk

/-! ## Runs of the guest -/

namespace Bus

/-- What a guest does between two notifications: it stores to the bus, or it changes RAM by other
means. -/
inductive Event where
  | store (addr : U64) (w : Width) (val : U64)
  | memory (m : Nat → U8)

/-- The bus after an event. -/
def after (b : Bus) : Event → Option Bus
  | .store addr w val => (store addr w val b).map (·.2)
  | .memory m => some { b with ram := { b.ram with byte := m } }

/-- The bus after a run of events. -/
def run (b : Bus) : List Event → Option Bus
  | [] => some b
  | e :: es => do
      let b ← b.after e
      b.run es

/-- A notification is served with every index in RAM and no operation wrapping. -/
def Clean (b : Bus) : Event → Prop
  | .store addr _ _ => Notifies addr →
      ∃ r, VirtioBlk.Checked.processQueue b.virtioBlk b.ram b.ramBase = some r
  | .memory _ => True

/-- The queue can be served when the guest notifies the device. -/
def EventFits (b : Bus) : Event → Prop
  | .store addr _ _ => Notifies addr → VirtioBlk.NotifyFits b.virtioBlk b.ram b.ramBase
  | .memory _ => True

/-- Every event of a run satisfies a condition on the bus it happens on. -/
def Along (P : Bus → Event → Prop) (b : Bus) : List Event → Prop
  | [] => True
  | e :: es => P b e ∧ ∀ b', b.after e = some b' → Along P b' es

theorem store_notify {addr : U64} (w : Width) (val : U64) (b : Bus) (h : Notifies addr) :
    store addr w val b = (b.virtioBlk.processQueue b.ram b.ramBase).map fun p =>
      (.ok (), { b with virtioBlk := p.1, ram := p.2 }) := by
  have hflag : b.virtioBlk.store 0x050 val = (true, b.virtioBlk) := rfl
  simp only [store, h.1, h.2, hflag]

/-- An event on a queue that can be served returns. -/
theorem after_of_fits {b : Bus} {e : Event} (h : EventFits b e) :
    (∃ b', b.after e = some b') ∧ Clean b e := by
  cases e with
  | memory m => exact ⟨⟨_, rfl⟩, trivial⟩
  | store addr w val =>
      by_cases hn : Notifies addr
      · obtain ⟨r, hr⟩ := VirtioBlk.processQueue_of_fits (h hn)
        refine ⟨?_, fun _ => ⟨r, hr⟩⟩
        rw [after, store_notify w val b hn, VirtioBlk.Checked.processQueue_eq hr]
        exact ⟨_, rfl⟩
      · obtain ⟨r, b', hb⟩ := store_returns w val b hn
        refine ⟨⟨b', ?_⟩, fun hyes => absurd hyes hn⟩
        rw [after, hb]
        rfl

/-- Every notification of a run returns, with every index in RAM and no operation wrapping, when
the queue can be served at each. -/
theorem run_of_fits {b : Bus} {es : List Event} (h : Along EventFits b es) :
    (∃ b', b.run es = some b') ∧ Along Clean b es := by
  induction es generalizing b with
  | nil => exact ⟨⟨b, rfl⟩, trivial⟩
  | cons e es ih =>
      obtain ⟨he, hes⟩ := h
      obtain ⟨⟨b', hb'⟩, hclean⟩ := after_of_fits he
      obtain ⟨⟨b'', hrun⟩, _⟩ := ih (hes b' hb')
      refine ⟨⟨b'', ?_⟩, hclean, fun c hc => (ih (hes c hc)).2⟩
      rw [run, hb']
      exact hrun

/-- The bus with the queue of one pending request. -/
def lastSlotBus : Bus :=
  { Bus.new 0x2000 0x8000_0000 with
    ram := VirtioBlk.lastSlotRam
    virtioBlk := VirtioBlk.lastSlotBlk }

theorem lastSlotBus_returns :
    (∃ b', lastSlotBus.run [.store 0x1000_1050 .b4 0] = some b') ∧
      Along Clean lastSlotBus [.store 0x1000_1050 .b4 0] := by
  have hheads :
      VirtioBlk.lastSlotBlk.pendingHeads 0x8000_0000 VirtioBlk.lastSlotRam.byte = [0] := by
    decide
  have hcount : VirtioBlk.lastSlotBlk.pendingCount 0x8000_0000 VirtioBlk.lastSlotRam.byte = 1 := by
    decide
  have hpending := VirtioBlk.pending_of_layout (hheads ▸ VirtioBlk.lastSlot_layout)
    (Nat.le_trans (Nat.le_of_eq hcount) (by decide))
  exact run_of_fits ⟨fun _ _ => hpending.queueFits, fun _ _ => trivial⟩

/-- A guest that makes the device ready with rings outside RAM and notifies it. -/
def ringsOutside : List Event :=
  [.store 0x1000_1080 .b4 1, .store 0x1000_1090 .b4 1, .store 0x1000_1044 .b4 1,
    .store 0x1000_1050 .b4 0]

/-- The device as that guest leaves it before the notification. -/
def strayBlk : VirtioBlk :=
  { VirtioBlk.new none with descAddr := 1, availAddr := 1, queueReady := 1 }

theorem strayBlk_aborts (ram : Ram) (hlen : ram.len = 0x2000) :
    strayBlk.processQueue ram 0x8000_0000 = none := by
  have hread : VirtioBlk.r16 ram 0x8000_0000 (strayBlk.availAddr + 2) = none := by
    have hout : ¬ (strayBlk.availAddr + 2 - 0x8000_0000).toNat + 2 ≤ ram.len.toNat := by
      rw [hlen]
      decide
    rw [VirtioBlk.r16, Ram.read, if_neg hout]
    rfl
  rw [VirtioBlk.processQueue, if_neg (by decide), VirtioBlk.drain, hread]
  rfl

theorem ringsOutside_aborts :
    ¬ ∀ (b : Bus) (es : List Event), (∃ b', b.run es = some b') ∧ Along Clean b es := by
  intro h
  obtain ⟨b', hb'⟩ := (h (Bus.new 0x2000 0x8000_0000) ringsOutside).1
  have hnotify : (Bus.new 0x2000 0x8000_0000).run ringsOutside =
      ({ Bus.new 0x2000 0x8000_0000 with virtioBlk := strayBlk }.after
        (.store 0x1000_1050 .b4 0)).bind some := rfl
  have habort := strayBlk_aborts (Bus.new 0x2000 0x8000_0000).ram rfl
  rw [hnotify, after, store_notify .b4 0 _ ⟨by decide, by decide⟩] at hb'
  dsimp only [Bus.new] at habort hb'
  rw [habort] at hb'
  cases hb'

end Bus

end RiscvEmu
