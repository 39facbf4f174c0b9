import RiscvEmu.Device.VirtioBlk
import RiscvEmu.Lib.Responder
import Mathlib.Tactic.Common

/-!
# Resetting the block device

A write of zero to the status register resets the device.  It clears the queue and leaves the
feature registers and the queue size as they are, and the capacity is the one the file had when the
device was made.  Of these the driver can read the queue size, the capacity, and through the
feature word which one its selector picks, so it can tell a reset device from a new one by them,
and by nothing else.
-/

namespace RiscvEmu

namespace VirtioBlk

/-! ## The device as its driver sees it -/

/-- An access of the driver.  A store comes with guest memory, which a notification works on. -/
inductive Access where
  | load (off : U64)
  | store (off val : U64) (ram : Ram) (base : U64)

/-- What the driver sees of an access: a value, or the memory and the file after a notification. -/
inductive Answer where
  | value (val : U64)
  | stored
  | notified (ram : Ram) (content : Option (List U8))

/-- The device answers its driver.  A notification that does not return is no answer. -/
def responder : Responder VirtioBlk Access Answer where
  answer
    | .load off, v => some (.value (v.load off), v)
    | .store off val ram base, v =>
        match v.store off val with
        | (false, v) => some (.stored, v)
        | (true, v) => (v.processQueue ram base).map fun (v, ram) =>
            (.notified ram (v.disk.map Disk.content), v)

/-- The registers of the driver are those of a new device. -/
structure Initial (v : VirtioBlk) : Prop where
  deviceFeaturesSel : v.deviceFeaturesSel = 0
  driverFeatures : v.driverFeatures = fun _ => 0
  driverFeaturesSel : v.driverFeaturesSel = 0
  deviceStatus : v.deviceStatus = 0
  queueNum : v.queueNum = BitVec.ofNat 32 queueSize
  queueReady : v.queueReady = 0
  descAddr : v.descAddr = 0
  availAddr : v.availAddr = 0
  usedAddr : v.usedAddr = 0
  irqStatus : v.irqStatus = 0
  lastAvailIdx : v.lastAvailIdx = 0

/-! ## What a driver cannot see -/

/-- Two devices that differ in the cursor of their file and the features of their driver only. -/
structure Alike (v w : VirtioBlk) : Prop where
  registers : w = { v with
    disk := w.disk, driverFeatures := w.driverFeatures, driverFeaturesSel := w.driverFeaturesSel }
  content : w.disk.map Disk.content = v.disk.map Disk.content

section Alike

variable {v w v' : VirtioBlk} {ram ram' : Ram} {base : U64}

theorem Alike.symm (h : Alike v w) : Alike w v := by
  refine ⟨?_, h.content.symm⟩
  rw [h.registers]

theorem Alike.load (h : Alike v w) (off : U64) : w.load off = v.load off := by
  rw [h.registers]
  rfl

/-- Files with the same bytes are the same after a seek. -/
theorem seek_congr {d e : Disk} (h : e.content = d.content) (off : U64) :
    e.seek off = d.seek off := by
  rw [Disk.seek, Disk.seek, h]

theorem collect_congr (hdesc : w.descAddr = v.descAddr) : ∀ (n : Nat) (idx : U16),
    w.collect ram base n idx = v.collect ram base n idx
  | 0, _ => rfl
  | n + 1, idx => by simp only [collect, hdesc, collect_congr hdesc n]

/-- A transfer does not depend on the cursor that it begins with. -/
theorem transfer_congr {d e d' : Disk} {reqType : U32} {byteOff : U64} {data : List Desc}
    {ok : Bool} (h : e.content = d.content)
    (ht : transfer reqType byteOff base data d ram = some (ok, d', ram')) :
    ∃ e', transfer reqType byteOff base data e ram = some (ok, e', ram') ∧
      e'.content = d'.content := by
  have hseek := seek_congr h byteOff
  rw [transfer] at ht ⊢
  by_cases hin : reqType = tIn
  · rw [if_pos hin] at ht ⊢
    rw [hseek]
    cases hd : d.seek byteOff with
    | none =>
        rw [hd] at ht
        cases ht
        exact ⟨e, rfl, h⟩
    | some disk =>
        rw [hd] at ht
        exact ⟨d', ht, rfl⟩
  · rw [if_neg hin] at ht ⊢
    by_cases hout : reqType = tOut
    · rw [if_pos hout] at ht ⊢
      rw [hseek]
      cases hd : d.seek byteOff with
      | none =>
          rw [hd] at ht
          cases ht
          exact ⟨e, rfl, h⟩
      | some disk =>
          rw [hd] at ht
          exact ⟨d', ht, rfl⟩
    · rw [if_neg hout] at ht ⊢
      cases ht
      exact ⟨e, rfl, h⟩

theorem Alike.doRequest (h : Alike v w) {head : U16}
    (hreq : v.doRequest ram base head = some (v', ram')) :
    ∃ w', w.doRequest ram base head = some (w', ram') ∧ Alike v' w' := by
  have hdesc : w.descAddr = v.descAddr := by rw [h.registers]
  obtain ⟨descs, hcollect, hreq⟩ := Option.bind_eq_some_iff.mp hreq
  rw [VirtioBlk.doRequest, collect_congr hdesc, hcollect]
  simp only [Option.bind_eq_bind, Option.bind_some]
  match descs, hreq with
  | [], hreq =>
      cases hreq
      exact ⟨w, rfl, h⟩
  | [_], hreq =>
      cases hreq
      exact ⟨w, rfl, h⟩
  | first :: second :: rest, hreq =>
      obtain ⟨reqType, htype, hreq⟩ := Option.bind_eq_some_iff.mp hreq
      obtain ⟨sector, hsector, hreq⟩ := Option.bind_eq_some_iff.mp hreq
      simp only [htype, hsector, Option.bind_some]
      have hcontent := h.content
      cases hdisk : v.disk with
      | none =>
          rw [hdisk] at hreq hcontent
          obtain ⟨ram₁, hstatus, hreq⟩ := Option.bind_eq_some_iff.mp hreq
          cases hreq
          rw [Option.map_eq_none_iff.mp hcontent]
          dsimp only
          rw [hstatus]
          exact ⟨w, rfl, h⟩
      | some disk =>
          rw [hdisk] at hreq hcontent
          obtain ⟨disk', hdisk', hsame⟩ := Option.map_eq_some_iff.mp hcontent
          obtain ⟨⟨ok, disk₁, ram₁⟩, ht, hreq⟩ := Option.bind_eq_some_iff.mp hreq
          obtain ⟨ram₂, hstatus, hreq⟩ := Option.bind_eq_some_iff.mp hreq
          cases hreq
          obtain ⟨disk₂, ht', hsame'⟩ := transfer_congr hsame ht
          rw [hdisk']
          dsimp only
          rw [ht']
          dsimp only [Option.bind_some]
          rw [hstatus]
          refine ⟨_, rfl, ?_, congrArg some hsame'⟩
          rw [h.registers]

/-- Completing a request keeps devices alike. -/
theorem Alike.serveNext (h : Alike v w) (hserve : v.serveNext ram base = some (v', ram')) :
    ∃ w', w.serveNext ram base = some (w', ram') ∧ Alike v' w' := by
  have havail : w.availAddr = v.availAddr := by rw [h.registers]
  have hlast : w.lastAvailIdx = v.lastAvailIdx := by rw [h.registers]
  obtain ⟨head, hhead, hserve⟩ := Option.bind_eq_some_iff.mp hserve
  obtain ⟨⟨v₁, ram₁⟩, hreq, hserve⟩ := Option.bind_eq_some_iff.mp hserve
  obtain ⟨w₁, hreq', h₁⟩ := h.doRequest hreq
  have hused : w₁.usedAddr = v₁.usedAddr := by rw [h₁.registers]
  have hlast₁ : w₁.lastAvailIdx = v₁.lastAvailIdx := by rw [h₁.registers]
  obtain ⟨usedIdx, hidx, hserve⟩ := Option.bind_eq_some_iff.mp hserve
  obtain ⟨ram₂, hid, hserve⟩ := Option.bind_eq_some_iff.mp hserve
  obtain ⟨ram₃, hlen, hserve⟩ := Option.bind_eq_some_iff.mp hserve
  obtain ⟨ram₄, hnext, hserve⟩ := Option.bind_eq_some_iff.mp hserve
  cases hserve
  refine ⟨{ w₁ with lastAvailIdx := w₁.lastAvailIdx + 1, irqStatus := 1 }, ?_, ?_, h₁.content⟩
  · rw [VirtioBlk.serveNext, havail, hlast]
    simp only [hhead, hreq', hused, hidx, hid, hlen, hnext, Option.bind_eq_bind, Option.bind_some]
    rfl
  · rw [h₁.registers]

/-- The loops of devices that are alike run alike, by induction on the run of the one. -/
theorem Alike.drain (h : Alike v w) {r : VirtioBlk × Ram}
    (hdrain : VirtioBlk.drain base v ram = some r) :
    ∃ w', VirtioBlk.drain base w ram = some (w', r.2) ∧ Alike r.1 w' := by
  revert w
  refine drain.partial_correctness base (fun v ram r => ∀ {w}, Alike v w →
    ∃ w', VirtioBlk.drain base w ram = some (w', r.2) ∧ Alike r.1 w') ?_ v ram r hdrain
  intro loop ih v ram r hloop w h
  have havail : w.availAddr = v.availAddr := by rw [h.registers]
  have hlast : w.lastAvailIdx = v.lastAvailIdx := by rw [h.registers]
  obtain ⟨availIdx, hidx, hloop⟩ := Option.bind_eq_some_iff.mp hloop
  rw [VirtioBlk.drain, havail, hidx, hlast, Option.bind_eq_bind, Option.bind_some]
  split at hloop
  · rename_i hempty
    cases hloop
    exact ⟨w, if_pos hempty, h⟩
  · rename_i hmore
    obtain ⟨⟨v₁, ram₁⟩, hserve, hloop⟩ := Option.bind_eq_some_iff.mp hloop
    obtain ⟨w₁, hserve', h₁⟩ := h.serveNext hserve
    rw [if_neg hmore, hserve']
    exact ih v₁ ram₁ r hloop h₁

theorem Alike.processQueue (h : Alike v w) {r : VirtioBlk × Ram}
    (hprocess : v.processQueue ram base = some r) :
    ∃ w', w.processQueue ram base = some (w', r.2) ∧ Alike r.1 w' := by
  have hguard : (w.queueReady = 0 ∨ w.availAddr = 0 ∨ w.descAddr = 0) ↔
      (v.queueReady = 0 ∨ v.availAddr = 0 ∨ v.descAddr = 0) := by rw [h.registers]
  rw [VirtioBlk.processQueue] at hprocess
  rw [VirtioBlk.processQueue]
  split at hprocess
  · rename_i hidle
    cases hprocess
    exact ⟨w, if_pos (hguard.mpr hidle), h⟩
  · rename_i hready
    rw [if_neg fun hidle => hready (hguard.mp hidle)]
    exact h.drain hprocess

/-- A register write keeps devices alike, and notifies both or none. -/
theorem Alike.store (h : Alike v w) (off val : U64) :
    (w.store off val).1 = (v.store off val).1 ∧ Alike (v.store off val).2 (w.store off val).2 := by
  obtain ⟨hregisters, hcontent⟩ := h
  rw [hregisters]
  generalize w.driverFeatures = features, w.driverFeaturesSel = sel, w.disk = disk at hcontent ⊢
  simp only [VirtioBlk.store]
  split
  · exact ⟨rfl, rfl, hcontent⟩
  · split <;> split <;> exact ⟨rfl, rfl, hcontent⟩
  · exact ⟨rfl, rfl, hcontent⟩
  · exact ⟨rfl, rfl, hcontent⟩
  · exact ⟨rfl, rfl, hcontent⟩
  · exact ⟨rfl, rfl, hcontent⟩
  · exact ⟨rfl, rfl, hcontent⟩
  · split <;> exact ⟨rfl, rfl, hcontent⟩
  all_goals exact ⟨rfl, rfl, hcontent⟩

/-- Devices that are alike answer alike. -/
theorem alike_simulation : responder.Simulation Alike := by
  intro v w a r v' h hanswer
  match a with
  | .load off =>
      cases hanswer
      exact ⟨w, congrArg (fun x => some (Answer.value x, w)) (h.load off), h⟩
  | .store off val ram base =>
      obtain ⟨hflag, halike⟩ := h.store off val
      rw [responder] at hanswer ⊢
      dsimp only at hanswer ⊢
      rcases hv : v.store off val with ⟨flag, v₁⟩
      rcases hw : w.store off val with ⟨flag', w₁⟩
      rw [hv, hw] at hflag halike
      obtain rfl : flag' = flag := hflag
      rw [hv] at hanswer
      cases flag' with
      | false =>
          cases hanswer
          exact ⟨w₁, rfl, halike⟩
      | true =>
          obtain ⟨⟨v₂, ram₂⟩, hprocess, heq⟩ := Option.map_eq_some_iff.mp hanswer
          cases heq
          obtain ⟨w₂, hprocess', halike₂⟩ := halike.processQueue hprocess
          refine ⟨w₂, ?_, halike₂⟩
          dsimp only
          rw [hprocess', Option.map_some, halike₂.content]

theorem Alike.indistinguishable (h : Alike v w) : responder.Indistinguishable v w :=
  alike_simulation.indistinguishable (fun _ _ => Alike.symm) h

end Alike

/-! ## The reset -/

section Reset

variable {v w : VirtioBlk}

/-- Devices that cannot be told apart read alike. -/
theorem load_of_indistinguishable (h : responder.Indistinguishable v w) (off : U64) :
    v.load off = w.load off := by
  have hone : some (Answer.value (v.load off)) = some (Answer.value (w.load off)) :=
    h.answer (.load off)
  exact Answer.value.inj (Option.some.inj hone)

/-- The halves of the capacity determine it. -/
theorem capacity_of_halves (hlow : v.load 0x100 = w.load 0x100)
    (hhigh : v.load 0x104 = w.load 0x104) :
    v.capacity = w.capacity := by
  have hlow' : (v.capacity.setWidth 32).setWidth 64 = (w.capacity.setWidth 32).setWidth 64 := hlow
  have hhigh' : v.capacity >>> 32 = w.capacity >>> 32 := hhigh
  apply BitVec.eq_of_toNat_eq
  have hlowNat := congrArg BitVec.toNat hlow'
  have hhighNat := congrArg BitVec.toNat hhigh'
  simp only [BitVec.toNat_setWidth, BitVec.toNat_ushiftRight, Nat.shiftRight_eq_div_pow]
    at hlowNat hhighNat
  omega

/-- After a reset a device cannot be told from a new one over its file exactly when the queue size
and the selector of the feature word were the ones of a new device, and the capacity still is that
of the file.  Its registers are all initial exactly when the features of the driver were, too. -/
theorem reset_iff (v : VirtioBlk) :
    (responder.Indistinguishable (v.store 0x070 0).2 (.new v.disk) ↔
      v.queueNum = BitVec.ofNat 32 queueSize ∧ v.deviceFeaturesSel = 0 ∧
        v.capacity = (new v.disk).capacity) ∧
    (Initial (v.store 0x070 0).2 ↔
      v.queueNum = BitVec.ofNat 32 queueSize ∧ v.deviceFeaturesSel = 0 ∧
        v.driverFeaturesSel = 0 ∧ v.driverFeatures = fun _ => 0) := by
  refine ⟨⟨fun h => ?_, fun ⟨hnum, hsel, hcap⟩ => ?_⟩,
    fun h => ?_, fun ⟨hnum, hsel, hdsel, hdrv⟩ => ?_⟩
  · have hnum : v.queueNum.setWidth 64 = (BitVec.ofNat 32 queueSize).setWidth 64 :=
      load_of_indistinguishable h 0x038
    have hsel : deviceFeatures v.deviceFeaturesSel = 0 := load_of_indistinguishable h 0x010
    refine ⟨?_, ?_, capacity_of_halves (load_of_indistinguishable h 0x100)
      (load_of_indistinguishable h 0x104)⟩
    · have hback := congrArg (BitVec.setWidth 32) hnum
      rwa [BitVec.setWidth_setWidth_of_le _ (by decide), BitVec.setWidth_eq] at hback
    · rw [deviceFeatures] at hsel
      split at hsel
      · assumption
      · cases hsel
  · refine Alike.indistinguishable ⟨?_, rfl⟩
    have hreset : (v.store 0x070 0).2 = reset { v with deviceStatus := 0 } := rfl
    rw [hreset, reset, hnum, hsel, hcap]
    rfl
  · exact ⟨h.queueNum, h.deviceFeaturesSel, h.driverFeaturesSel, h.driverFeatures⟩
  · exact ⟨hsel, hdrv, hdsel, rfl, hnum, rfl, rfl, rfl, rfl, rfl, rfl⟩

/-- A driver makes the queue smaller and resets the device: the size stays. -/
theorem reset_keepsQueueSize :
    ¬ ∀ (disk : Option Disk) (history : List Access) (v : VirtioBlk),
      responder.after history (.new disk) = some v →
      responder.Indistinguishable (v.store 0x070 0).2 (.new v.disk) := by
  intro hall
  have hread := load_of_indistinguishable
    (hall none [.store 0x038 8 ⟨fun _ => 0, 0⟩ 0] _ rfl) 0x038
  exact absurd hread (by decide)

end Reset

end VirtioBlk

end RiscvEmu
