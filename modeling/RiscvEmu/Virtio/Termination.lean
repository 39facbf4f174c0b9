import RiscvEmu.Virtio.Notify
import RiscvEmu.Virtio.Images
import RiscvEmu.Lib.PollLoop

/-!
# Whether queue processing ends

The loop of a notification compares a counter with an index that it reads again from guest memory
in every round, and what a round writes may lie over that index.  A round that does not write there
comes one entry closer to the index.  So the loop exits in time exactly when the rounds that do end
in time (`processQueue_exits_iff`), and after at most `2 ^ 16 - 1` rounds when there are none.  When
the used ring starts where the available ring does, the index of the one is the index of the other:
every completion announces one more entry, and the loop never ends.
-/

namespace RiscvEmu

namespace VirtioBlk

/-! ## The loop -/

/-- The loop of a notification, on the device and RAM. -/
def queueLoop (base : U64) : PollLoop (VirtioBlk × Ram) where
  poll s := (r16 s.2 base (s.1.availAddr + 2)).map fun idx => decide (s.1.lastAvailIdx ≠ idx)
  body s := s.1.serveNext s.2 base

section Loop

variable {v v' : VirtioBlk} {ram ram' : Ram} {base : U64} {s t : VirtioBlk × Ram}
  {ss : List (VirtioBlk × Ram)}

theorem poll_eq_some {again : Bool} (h : (queueLoop base).poll s = some again) :
    again = decide (s.1.lastAvailIdx ≠ s.1.availIdx base s.2.byte) := by
  obtain ⟨idx, hidx, rfl⟩ := Option.map_eq_some_iff.mp h
  rw [(r16_returned hidx).1]
  rfl

/-- No entry is pending when the loop is done. -/
theorem pendingCount_done (h : (queueLoop base).poll s = some false) :
    s.1.pendingCount base s.2.byte = 0 := by
  have hlast := of_not_not (of_decide_eq_false (poll_eq_some h).symm)
  rw [pendingCount, ← hlast, sub_self]
  rfl

/-- The loop is the one that drains the queue. -/
theorem drain_of_exits (h : (queueLoop base).Exits ss s t) : drain base s.1 s.2 = some t := by
  obtain ⟨hrun, hdone⟩ := h
  induction hrun with
  | nil s =>
      obtain ⟨idx, hidx, hlast⟩ := Option.map_eq_some_iff.mp hdone
      rw [drain, hidx, Option.bind_eq_bind, Option.bind_some]
      exact if_pos (of_not_not (of_decide_eq_false hlast))
  | cons hpoll hbody _ ih =>
      obtain ⟨idx, hidx, hlast⟩ := Option.map_eq_some_iff.mp hpoll
      rw [drain, hidx, Option.bind_eq_bind, Option.bind_some, if_neg (of_decide_eq_true hlast)]
      exact Option.bind_eq_some_iff.mpr ⟨_, hbody, ih hdone⟩

theorem processQueue_of_exits (hready : v.Ready) (h : (queueLoop base).Exits ss (v, ram) t) :
    v.processQueue ram base = some t := by
  obtain ⟨hflag, havail, hdesc⟩ := hready
  rw [processQueue, if_neg (by rintro (h | h | h) <;> contradiction)]
  exact drain_of_exits h

end Loop

/-! ## One round -/

/-- Images cover neither byte of the index of the available ring. -/
def SparesIdx (v : VirtioBlk) (base : U64) (images : List (Nat × List U8)) : Prop :=
  ∀ p ∈ images, ∀ i < 2, ¬ Overlay.Covers p ((v.availAddr + 2 - base).toNat + i)

instance (v : VirtioBlk) (base : U64) (images : List (Nat × List U8)) :
    Decidable (v.SparesIdx base images) :=
  inferInstanceAs (Decidable (∀ p ∈ images, ∀ i < 2, _))

section Round

variable {v v' : VirtioBlk} {ram ram' : Ram} {base : U64}

theorem SparesIdx.kept {images : List (Nat × List U8)} (h : v.SparesIdx base images)
    (m : Nat → U8) : v.availIdx base (Overlay.putAll m images) = v.availIdx base m :=
  congrArg (·.setWidth 16)
    (Bytes.readLe_congr fun i hi => Overlay.putAll_uncovered fun p hp => h p hp i hi)

/-- A round that spares the index of the available ring comes one entry closer to it. -/
theorem SparesIdx.falls (h : v.SparesIdx base (v.serveImages ram base))
    (hbusy : v.lastAvailIdx ≠ v.availIdx base ram.byte)
    (hserve : v.serveNext ram base = some (v', ram')) :
    v.pendingCount base ram.byte = v'.pendingCount base ram'.byte + 1 := by
  have hkept := h.kept ram.byte
  rw [← serveNext_images hserve] at hkept
  obtain ⟨disk, ram₁, -, rfl, -, -⟩ := serveNext_returned hserve
  have hidx : { v with
      disk := disk, lastAvailIdx := v.lastAvailIdx + 1, irqStatus := 1 }.availIdx base ram'.byte =
        v.availIdx base ram.byte := hkept
  rw [pendingCount, pendingCount, hidx]
  have hne : (v.availIdx base ram.byte).toNat ≠ v.lastAvailIdx.toNat := fun heq =>
    hbusy (BitVec.eq_of_toNat_eq heq.symm)
  have hlt := (v.availIdx base ram.byte).isLt
  have hbound := v.lastAvailIdx.isLt
  simp only [BitVec.toNat_sub, BitVec.toNat_add, show (1 : U16).toNat = 1 from rfl]
  omega

/-- Over one index for both rings, a completion announces one more entry. -/
theorem serveNext_shared (hring : v.usedAddr = v.availAddr)
    (hreq : v.SparesIdx base (v.nextImages ram base))
    (hserve : v.serveNext ram base = some (v', ram')) :
    v'.usedAddr = v'.availAddr ∧
      v'.pendingCount base ram'.byte = v.pendingCount base ram.byte := by
  obtain ⟨disk, ram₁, hserved, rfl, rfl, -⟩ := serveNext_returned hserve
  have hkept := hreq.kept ram.byte
  rw [nextImages, ← doRequest_images hserved] at hkept
  have hidx (m : Nat → U8) : v.availIdx base m = v.usedIdx base m := by
    rw [availIdx, usedIdx, hring]
  refine ⟨hring, ?_⟩
  rw [pendingCount, pendingCount, ← hkept, hidx ram₁.byte]
  exact congrArg BitVec.toNat ((congrArg (· - (v.lastAvailIdx + 1)) ((hidx _).trans
    (usedIdx_appended (v := v) (v.headAt base ram.byte v.lastAvailIdx)))).trans
    (add_sub_add_right_eq_sub _ _ _))

end Round

/-! ## Runs of rounds -/

section Runs

variable {v : VirtioBlk} {ram : Ram} {base : U64}

/-- The rounds of a loop are steps of its relation. -/
theorem Serves.of_rounds {ss : List (VirtioBlk × Ram)} {s t : VirtioBlk × Ram}
    (h : (queueLoop base).Rounds ss s t) : Relation.ReflTransGen (Serves base) s t := by
  induction h with
  | nil => exact .refl
  | cons hpoll hbody _ ih =>
      exact .head ⟨of_decide_eq_true (poll_eq_some hpoll).symm, hbody⟩ ih

/-- A queue that can be served is one whose loop aborts nowhere. -/
theorem QueueFits.safe (h : QueueFits v ram base) : (queueLoop base).Safe (v, ram) := by
  intro ss s hrun habort
  obtain ⟨hpoll, hentry⟩ := h s (Serves.of_rounds hrun)
  rcases habort with habort | ⟨hbusy, habort⟩
  · cases (Option.map_eq_none_iff.mp habort).symm.trans (Checked.r16_eq (Checked.r16_of_fits hpoll))
  · obtain ⟨v', ram', hserve, -⟩ :=
      serveNext_of_fits (hentry (of_decide_eq_true (poll_eq_some hbusy).symm))
    cases habort.symm.trans (Checked.serveNext_eq hserve)

/-- An entry that can be served without writing over the index spares it. -/
theorem EntryFits.spares (h : EntryFits v ram base) :
    v.SparesIdx base (v.serveImages ram base) := by
  obtain ⟨⟨v₁, ram₁⟩, hreq⟩ := Checked.doRequest_of_fits h.request
  have hserved := Checked.doRequest_eq hreq
  obtain ⟨-, helem⟩ := h.completion v₁ ram₁ hserved
  obtain ⟨⟨disk, rfl⟩, -⟩ := doRequest_frame hserved
  have hbytes : ram₁.byte = Overlay.putAll ram.byte (v.nextImages ram base) :=
    doRequest_images hserved
  rw [hbytes] at helem
  intro p hp i hi hcovers
  have hin : (v.availAddr + 2 - base).toNat + i ∈ v.availIdxSpan base :=
    ⟨Nat.le_add_right _ _, Nat.add_lt_add_left hi _⟩
  rcases List.mem_append.mp hp with hp | hp
  · exact Set.disjoint_left.mp h.written_apart (requestImages_covers p hp hcovers) hin
  · have hslot := Set.disjoint_right.mp helem hin
    have hidx := Set.disjoint_right.mp h.used_apart hin
    rw [span, Set.mem_Ico] at hslot hidx
    obtain ⟨hlow, hhigh⟩ := hcovers
    simp only [List.mem_cons, List.not_mem_nil, or_false] at hp
    rcases hp with rfl | rfl | rfl
    · rw [Bytes.leBytes_length] at hhigh
      exact hslot ⟨hlow, Nat.lt_of_lt_of_le hhigh (Nat.add_le_add_left (by decide) _)⟩
    · rw [Bytes.leBytes_length] at hhigh
      exact hslot ⟨Nat.le_of_add_right_le hlow, hhigh⟩
    · rw [Bytes.leBytes_length] at hhigh
      exact hidx ⟨hlow, hhigh⟩

/-- The loop stops writing over the index of the available ring in time: the rounds to the last
that does, if one does, and the entries then pending are at most `2 ^ 16 - 1`. -/
def StopsInTime (v : VirtioBlk) (ram : Ram) (base : U64) : Prop :=
  ∃ ss t, (queueLoop base).Rounds ss (v, ram) t ∧
    (∀ u ∈ ss.getLast?, ¬ u.1.SparesIdx base (u.1.serveImages u.2 base)) ∧
    (queueLoop base).Always (fun u => u.1.SparesIdx base (u.1.serveImages u.2 base)) t ∧
    ss.length + t.1.pendingCount base t.2.byte ≤ 65535

/-- When no round writes over it, whatever is pending is few enough. -/
theorem stopsInTime_of_spares
    (h : (queueLoop base).Always (fun u => u.1.SparesIdx base (u.1.serveImages u.2 base))
      (v, ram)) : StopsInTime v ram base := by
  refine ⟨[], (v, ram), .nil _, nofun, h, ?_⟩
  rw [List.length_nil, Nat.zero_add]
  exact Nat.le_of_lt_succ (BitVec.isLt _)

/-- When no access is out of range, the loop exits after at most `2 ^ 16 - 1` rounds exactly when
it stops writing over the index of the available ring in time. -/
theorem processQueue_exits_iff (hsafe : v.Ready → (queueLoop base).Safe (v, ram)) :
    (∃ r, v.processQueue ram base = some r ∧
      (v.Ready → ∃ ss, ss.length ≤ 65535 ∧ (queueLoop base).Exits ss (v, ram) r)) ↔
      (v.Ready → StopsInTime v ram base) := by
  rcases Classical.em v.Ready with hready | hidle
  · have hexits := PollLoop.exits_within_iff (hsafe hready)
      (fun u => u.1.SparesIdx base (u.1.serveImages u.2 base))
      (fun u => u.1.pendingCount base u.2.byte)
      (fun t u hspares hpoll hbody =>
        hspares.falls (of_decide_eq_true (poll_eq_some hpoll).symm) hbody)
      (fun t hdone => pendingCount_done hdone) 65535
    constructor
    · rintro ⟨r, -, h⟩ -
      obtain ⟨ss, hlen, hexit⟩ := h hready
      exact hexits.mp ⟨ss, r, hlen, hexit⟩
    · intro h
      obtain ⟨ss, r, hlen, hexit⟩ := hexits.mpr (h hready)
      exact ⟨r, processQueue_of_exits hready hexit, fun _ => ⟨ss, hlen, hexit⟩⟩
  · refine iff_of_true ⟨(v, ram), if_pos ?_, fun hready => absurd hready hidle⟩
      fun hready => absurd hready hidle
    rw [Ready] at hidle
    tauto

theorem lastSlot_exits : ∃ r, lastSlotBlk.processQueue lastSlotRam 0x8000_0000 = some r ∧
    (lastSlotBlk.Ready → ∃ ss, ss.length ≤ 65535 ∧
      (queueLoop 0x8000_0000).Exits ss (lastSlotBlk, lastSlotRam) r) := by
  have hfit : QueueFits lastSlotBlk lastSlotRam 0x8000_0000 := by
    have hheads : lastSlotBlk.pendingHeads 0x8000_0000 lastSlotRam.byte = [0] := by decide
    have hcount : lastSlotBlk.pendingCount 0x8000_0000 lastSlotRam.byte = 1 := by decide
    exact (pending_of_layout (hheads ▸ lastSlot_layout)
      (Nat.le_trans (Nat.le_of_eq hcount) (by decide))).queueFits
  refine (processQueue_exits_iff fun _ => hfit.safe).mpr fun _ => stopsInTime_of_spares ?_
  intro ss s hrun hpoll
  exact ((hfit s (Serves.of_rounds hrun)).2 (of_decide_eq_true (poll_eq_some hpoll).symm)).spares

/-- With one index for both rings, as many entries stay pending. -/
theorem pendingCount_shared {ss : List (VirtioBlk × Ram)} {s t : VirtioBlk × Ram}
    (hrun : (queueLoop base).Rounds ss s t) (hring : s.1.usedAddr = s.1.availAddr)
    (hreq : ∀ ss u, (queueLoop base).Rounds ss s u →
      u.1.SparesIdx base (u.1.nextImages u.2 base)) :
    t.1.pendingCount base t.2.byte = s.1.pendingCount base s.2.byte := by
  induction hrun with
  | nil => rfl
  | cons hpoll hbody _ ih =>
      obtain ⟨hring', hcount⟩ := serveNext_shared hring (hreq [] _ (.nil _)) hbody
      exact (ih hring' fun ss u h => hreq _ u (.cons hpoll hbody h)).trans hcount

/-- With one index for both rings and an entry pending, the loop never exits. -/
theorem shared_ring_never_exits (hring : v.usedAddr = v.availAddr)
    (hbusy : v.lastAvailIdx ≠ v.availIdx base ram.byte)
    (hreq : ∀ ss s, (queueLoop base).Rounds ss (v, ram) s →
      s.1.SparesIdx base (s.1.nextImages s.2 base)) :
    ∀ ss s, ¬ (queueLoop base).Exits ss (v, ram) s := by
  rintro ss s ⟨hrun, hdone⟩
  have hpending := pendingCount_shared hrun hring hreq
  rw [pendingCount_done hdone] at hpending
  exact hbusy (sub_eq_zero.mp (BitVec.eq_of_toNat_eq hpending.symm)).symm

end Runs

/-! ## A guest that hangs the loop -/

/-- The device after the guest wrote its registers. -/
def programmed (disk : Option Disk) (writes : List (U64 × U64)) : VirtioBlk :=
  writes.foldl (fun v w => (v.store w.1 w.2).2) (new disk)

/-- Register writes that put the used ring over the available ring. -/
def sharedRingWrites : List (U64 × U64) :=
  [(0x080, 0x8000_0000), (0x090, 0x8010_0000), (0x0a0, 0x8010_0000), (0x044, 1)]

/-- The device these writes make. -/
def sharedRing : VirtioBlk :=
  { new none with
    queueReady := 1
    descAddr := 0x8000_0000
    availAddr := 0x8010_0000
    usedAddr := 0x8010_0000 }

/-- Memory with one entry announced, and a descriptor table of zeros. -/
def sharedRingRam : Ram where
  byte a := if a = 0x10_0002 then 1 else 0
  len := 0x10_1000

theorem sharedRing_programmed : programmed none sharedRingWrites = sharedRing := rfl

example : ¬ sharedRing.SparesIdx 0x8000_0000
    (sharedRing.serveImages sharedRingRam 0x8000_0000) := by decide

/-- One entry is pending, whatever the counters say, and every descriptor is zero. -/
def OneAhead (s : VirtioBlk × Ram) : Prop :=
  ∃ last irq, s.1 = { sharedRing with lastAvailIdx := last, irqStatus := irq } ∧
    s.2.len = 0x10_1000 ∧ (∀ a < 0x10_0000, s.2.byte a = 0) ∧
    s.1.usedIdx 0x8000_0000 s.2.byte = last + 1

section SharedRing

variable {last : U16} {irq : U32} {ram : Ram}

/-- A zero descriptor is a chain of its own, which is no request. -/
theorem sharedRing_doRequest (hlen : ram.len = 0x10_1000)
    (hzero : ∀ a < 0x10_0000, ram.byte a = 0) (head : U16) :
    Checked.doRequest { sharedRing with lastAvailIdx := last, irqStatus := irq } ram 0x8000_0000
      head = some ({ sharedRing with lastAvailIdx := last, irqStatus := irq }, ram) := by
  have hhead := head.isLt
  have haddr : ({ sharedRing with lastAvailIdx := last, irqStatus := irq }.entry head).toNat =
      0x8000_0000 + head.toNat * 16 := by
    simp only [entry, sharedRing, BitVec.toNat_add, BitVec.toNat_mul, BitVec.toNat_setWidth,
      show (0x8000_0000 : U64).toNat = 0x8000_0000 from rfl, show (16 : U64).toNat = 16 from rfl]
    omega
  have hin : InRam ram.len 0x8000_0000
      ({ sharedRing with lastAvailIdx := last, irqStatus := irq }.entry head) 16 := by
    rw [hlen]
    refine ⟨?_, ?_, ?_⟩ <;> rw [haddr]
    · exact Nat.le_add_right _ _
    · rw [show (0x8000_0000 : U64).toNat = 0x8000_0000 from rfl,
        show (0x10_1000 : U64).toNat = 0x10_1000 from rfl]
      omega
    · omega
  have hflags : (descAt ram.byte (({ sharedRing with
      lastAvailIdx := last, irqStatus := irq }.entry head) - 0x8000_0000).toNat).flags = 0 := by
    rw [hin.offset, haddr]
    refine congrArg (·.setWidth 16) (?_ : Bytes.readLe ram.byte _ 2 = 0)
    refine Bytes.readLe_of_zero fun i hi => hzero _ ?_
    rw [show (0x8000_0000 : U64).toNat = 0x8000_0000 from rfl]
    omega
  have hchain : { sharedRing with lastAvailIdx := last, irqStatus := irq }.chain 0x8000_0000
      ram.byte 16 head = [head] := by
    rw [chain]
    exact congrArg (head :: ·) (if_pos (by rw [hflags]; rfl))
  rw [Checked.doRequest, Checked.collect_of_fits (by
    rw [hchain]
    intro i hi
    rw [List.mem_singleton] at hi
    rw [hi]
    exact hin), hchain]
  rfl

/-- Every round leaves an entry pending. -/
theorem OneAhead.next {s : VirtioBlk × Ram} (h : OneAhead s) :
    (queueLoop 0x8000_0000).poll s = some true ∧
      ∃ t, (queueLoop 0x8000_0000).body s = some t ∧ OneAhead t := by
  obtain ⟨v, ram⟩ := s
  obtain ⟨last, irq, rfl, hlen, hzero, hidx⟩ := h
  have hrings : InRam ram.len 0x8000_0000 0x8010_0000 2052 := by
    rw [hlen]
    exact ⟨by decide, by decide, by decide⟩
  have havail : InRam ram.len 0x8000_0000 0x8010_0000 516 := by
    rw [hlen]
    exact ⟨by decide, by decide, by decide⟩
  refine ⟨?_, ?_⟩
  · refine Option.map_eq_some_iff.mpr ⟨_, r16_availIdx havail, decide_eq_true fun heq => ?_⟩
    have hval := congrArg BitVec.toNat (heq.trans hidx)
    simp only [BitVec.toNat_add, show (1 : U16).toNat = 1 from rfl] at hval
    omega
  · have hreq : Checked.doRequest { sharedRing with lastAvailIdx := last, irqStatus := irq } ram
        0x8000_0000 ({ sharedRing with lastAvailIdx := last, irqStatus := irq }.headAt 0x8000_0000
          ram.byte last) = _ := sharedRing_doRequest hlen hzero _
    have hentry := Checked.r16_eq (Checked.r16_of_fits
      (availEntry_inRam (v := { sharedRing with lastAvailIdx := last, irqStatus := irq })
        havail (entry_fits last)))
    have hcomplete := complete_eq
      (Checked.complete_of_fits hreq (completionFits hrings (slot_fits _)))
    refine ⟨_, Option.bind_eq_some_iff.mpr ⟨_, hentry, hcomplete⟩,
      last + 1, 1, rfl, hlen, ?_, ?_⟩
    · intro a ha
      refine (appended_outside hrings (slot_fits _) _ fun hin => ?_).trans (hzero a ha)
      have hlow : ((0x8010_0000 : U64) - 0x8000_0000).toNat ≤ a := hin.1
      rw [show ((0x8010_0000 : U64) - 0x8000_0000).toNat = 0x10_0000 by decide] at hlow
      omega
    · exact (usedIdx_appended _).trans (congrArg (· + 1) hidx)

end SharedRing

/-- The guest can put the used ring over the available ring, and the loop then never ends. -/
theorem sharedRing_hangs :
    ¬ ∀ (disk : Option Disk) (writes : List (U64 × U64)) (ram : Ram) (base : U64),
      (queueLoop base).Safe (programmed disk writes, ram) →
        ∃ ss s, ss.length ≤ 65535 ∧
          (queueLoop base).Exits ss (programmed disk writes, ram) s := by
  intro h
  have hstart : OneAhead (sharedRing, sharedRingRam) :=
    ⟨0, 0, rfl, rfl, fun a ha => if_neg (by omega), by decide⟩
  obtain ⟨ss, s, _, hexit⟩ := h none sharedRingWrites sharedRingRam 0x8000_0000
    (PollLoop.safe_of_endless (fun s => OneAhead.next) hstart)
  exact PollLoop.not_exits_of_endless (fun s => OneAhead.next) hstart hexit

end VirtioBlk

end RiscvEmu
