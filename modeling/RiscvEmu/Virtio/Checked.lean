import RiscvEmu.Device.VirtioBlk
import Mathlib.Tactic.Common

/-!
# The block device with checked arithmetic

The queue code once more, where a subtraction below zero and a multiplication past 64 bits abort
like an access outside RAM.  A run of this code is a run of the device in which every index is in
range and no such operation wraps; the two then agree.
-/

namespace RiscvEmu

namespace VirtioBlk.Checked

/-! ## Operations -/

def sub (a b : U64) : Option U64 := if b ≤ a then some (a - b) else none

def mul (a b : U64) : Option U64 := if a.toNat * b.toNat < 2 ^ 64 then some (a * b) else none

theorem sub_eq_some {a b c : U64} (h : sub a b = some c) : c = a - b := by
  rw [sub] at h
  split at h <;> cases h
  rfl

theorem mul_eq_some {a b c : U64} (h : mul a b = some c) : c = a * b := by
  rw [mul] at h
  split at h <;> cases h
  rfl

def r16 (ram : Ram) (base addr : U64) : Option U16 := do
  let o ← sub addr base
  (ram.read o.toNat 2).map (·.setWidth 16)

def r32 (ram : Ram) (base addr : U64) : Option U32 := do
  let o ← sub addr base
  (ram.read o.toNat 4).map (·.setWidth 32)

def r64 (ram : Ram) (base addr : U64) : Option U64 := do
  let o ← sub addr base
  ram.read o.toNat 8

def w8 (ram : Ram) (base addr : U64) (val : U8) : Option Ram := do
  let o ← sub addr base
  ram.write o.toNat 1 (val.setWidth 64)

def w16 (ram : Ram) (base addr : U64) (val : U16) : Option Ram := do
  let o ← sub addr base
  ram.write o.toNat 2 (val.setWidth 64)

def w32 (ram : Ram) (base addr : U64) (val : U32) : Option Ram := do
  let o ← sub addr base
  ram.write o.toNat 4 (val.setWidth 64)

/-! ## Requests -/

def collect (v : VirtioBlk) (ram : Ram) (base : U64) : Nat → U16 → Option (List Desc)
  | 0, _ => some []
  | n + 1, idx => do
      let link ← mul (idx.setWidth 64) 16
      let entry := v.descAddr + link
      let addr ← r64 ram base entry
      let len ← r32 ram base (entry + 8)
      let flags ← r16 ram base (entry + 12)
      let next ← r16 ram base (entry + 14)
      let rest ← if flags &&& descFNext = 0 then some [] else collect v ram base n next
      return ⟨addr, len, flags⟩ :: rest

/-- The range check, whose second subtraction is evaluated only when the first test passes. -/
def outOfRam (ram : Ram) (base : U64) (d : Desc) : Option Bool :=
  if d.addr < base then some true
  else do
    let off ← sub d.addr base
    let room ← sub ram.len (d.len.setWidth 64)
    return decide (room < off)

def readData (base : U64) : List Desc → Disk → Ram → Option (Bool × Disk × Ram)
  | [], disk, ram => some (true, disk, ram)
  | d :: ds, disk, ram =>
      if d.flags &&& descFWrite = 0 then readData base ds disk ram
      else do
        let out ← outOfRam ram base d
        if out then some (false, disk, ram)
        else do
          let off ← sub d.addr base
          let _ ← ram.slice off.toNat d.len.toNat
          match disk.readExact d.len.toNat with
          | (true, bs, disk) => readData base ds disk (ram.fill off.toNat bs)
          | (false, bs, disk) => some (false, disk, ram.fill off.toNat bs)

def writeData (base : U64) (ram : Ram) : List Desc → Disk → Option (Bool × Disk)
  | [], disk => some (true, disk)
  | d :: ds, disk =>
      if d.flags &&& descFWrite ≠ 0 then writeData base ram ds disk
      else do
        let out ← outOfRam ram base d
        if out then some (false, disk)
        else do
          let off ← sub d.addr base
          let bs ← ram.slice off.toNat d.len.toNat
          match disk.writeAll bs with
          | some disk => writeData base ram ds disk
          | none => some (false, disk)

def transfer (reqType : U32) (byteOff base : U64) (data : List Desc) (disk : Disk) (ram : Ram) :
    Option (Bool × Disk × Ram) :=
  if reqType = tIn then
    match disk.seek byteOff with
    | none => some (false, disk, ram)
    | some disk => readData base data disk ram
  else if reqType = tOut then
    match disk.seek byteOff with
    | none => some (false, disk, ram)
    | some disk => do
        let (ok, disk) ← writeData base ram data disk
        return (ok, disk, ram)
  else some (decide (reqType = tFlush), disk, ram)

def doRequest (v : VirtioBlk) (ram : Ram) (base : U64) (head : U16) :
    Option (VirtioBlk × Ram) := do
  let descs ← collect v ram base 16 head
  match descs with
  | [] => return (v, ram)
  | [_] => return (v, ram)
  | first :: second :: rest =>
      let reqType ← r32 ram base first.addr
      let sector ← r64 ram base (first.addr + 8)
      let tail := second :: rest
      let statusAddr := (tail.getLast (List.cons_ne_nil _ _)).addr
      match v.disk with
      | none => do
          let ram ← w8 ram base statusAddr sIoErr
          return (v, ram)
      | some disk => do
          let byteOff ← mul sector sectorSize
          let (ok, disk, ram) ← transfer reqType byteOff base tail.dropLast disk ram
          let ram ← w8 ram base statusAddr (if ok then sOk else sIoErr)
          return ({ v with disk := some disk }, ram)

/-! ## The queue -/

/-- Serve the request with a given head and append its completion to the used ring. -/
def complete (v : VirtioBlk) (ram : Ram) (base : U64) (head : U16) :
    Option (VirtioBlk × Ram) := do
  let (v, ram) ← doRequest v ram base head
  let usedIdx ← r16 ram base (v.usedAddr + 2)
  let slot ← mul (BitVec.ofNat 64 (usedIdx.toNat % queueSize)) 8
  let elem := v.usedAddr + 4 + slot
  let ram ← w32 ram base elem (head.setWidth 32)
  let ram ← w32 ram base (elem + 4) 0
  let ram ← w16 ram base (v.usedAddr + 2) (usedIdx + 1)
  return ({ v with lastAvailIdx := v.lastAvailIdx + 1, irqStatus := 1 }, ram)

def serveNext (v : VirtioBlk) (ram : Ram) (base : U64) : Option (VirtioBlk × Ram) := do
  let slot ← mul (BitVec.ofNat 64 (v.lastAvailIdx.toNat % queueSize)) 2
  let head ← r16 ram base (v.availAddr + 4 + slot)
  complete v ram base head

def drain (base : U64) (v : VirtioBlk) (ram : Ram) : Option (VirtioBlk × Ram) := do
  let availIdx ← r16 ram base (v.availAddr + 2)
  if v.lastAvailIdx = availIdx then return (v, ram)
  else
    let (v, ram) ← serveNext v ram base
    by apply drain; exacts [base, v, ram]
partial_fixpoint

def processQueue (v : VirtioBlk) (ram : Ram) (base : U64) : Option (VirtioBlk × Ram) :=
  if v.queueReady = 0 ∨ v.availAddr = 0 ∨ v.descAddr = 0 then some (v, ram)
  else drain base v ram

/-! ## Agreement with the device -/

section Agreement

variable {base addr : U64} {ram ram' : Ram}

theorem r16_eq {x : U16} (h : r16 ram base addr = some x) :
    VirtioBlk.r16 ram base addr = some x := by
  obtain ⟨o, ho, h⟩ := Option.bind_eq_some_iff.mp h
  rwa [VirtioBlk.r16, ← sub_eq_some ho]

theorem r32_eq {x : U32} (h : r32 ram base addr = some x) :
    VirtioBlk.r32 ram base addr = some x := by
  obtain ⟨o, ho, h⟩ := Option.bind_eq_some_iff.mp h
  rwa [VirtioBlk.r32, ← sub_eq_some ho]

theorem r64_eq {x : U64} (h : r64 ram base addr = some x) :
    VirtioBlk.r64 ram base addr = some x := by
  obtain ⟨o, ho, h⟩ := Option.bind_eq_some_iff.mp h
  rwa [VirtioBlk.r64, ← sub_eq_some ho]

theorem w8_eq {val : U8} (h : w8 ram base addr val = some ram') :
    VirtioBlk.w8 ram base addr val = some ram' := by
  obtain ⟨o, ho, h⟩ := Option.bind_eq_some_iff.mp h
  rwa [VirtioBlk.w8, ← sub_eq_some ho]

theorem w16_eq {val : U16} (h : w16 ram base addr val = some ram') :
    VirtioBlk.w16 ram base addr val = some ram' := by
  obtain ⟨o, ho, h⟩ := Option.bind_eq_some_iff.mp h
  rwa [VirtioBlk.w16, ← sub_eq_some ho]

theorem w32_eq {val : U32} (h : w32 ram base addr val = some ram') :
    VirtioBlk.w32 ram base addr val = some ram' := by
  obtain ⟨o, ho, h⟩ := Option.bind_eq_some_iff.mp h
  rwa [VirtioBlk.w32, ← sub_eq_some ho]

theorem collect_eq {v : VirtioBlk} :
    ∀ {n : Nat} {idx : U16} {ds : List Desc}, collect v ram base n idx = some ds →
      v.collect ram base n idx = some ds
  | 0, _, _, h => h
  | n + 1, idx, ds, h => by
      obtain ⟨link, hlink, h⟩ := Option.bind_eq_some_iff.mp h
      obtain ⟨addr, haddr, h⟩ := Option.bind_eq_some_iff.mp h
      obtain ⟨len, hlen, h⟩ := Option.bind_eq_some_iff.mp h
      obtain ⟨flags, hflags, h⟩ := Option.bind_eq_some_iff.mp h
      obtain ⟨next, hnext, h⟩ := Option.bind_eq_some_iff.mp h
      dsimp only at h
      rw [mul_eq_some hlink] at haddr hlen hflags hnext
      rw [VirtioBlk.collect]
      simp only [r64_eq haddr, r32_eq hlen, r16_eq hflags, r16_eq hnext,
        Option.bind_eq_bind, Option.bind_some]
      split at h
      · rename_i hlast
        rw [if_pos hlast]
        exact h
      · rename_i hmore
        obtain ⟨rest, hrest, h⟩ := Option.bind_eq_some_iff.mp h
        rw [if_neg hmore, collect_eq hrest]
        exact h

theorem outOfRam_eq {d : Desc} {out : Bool} (h : outOfRam ram base d = some out) :
    VirtioBlk.outOfRam ram base d = out := by
  rw [outOfRam] at h
  rw [VirtioBlk.outOfRam]
  split at h
  · rename_i hlow
    cases h
    simp [hlow]
  · rename_i hlow
    obtain ⟨off, hoff, h⟩ := Option.bind_eq_some_iff.mp h
    obtain ⟨room, hroom, h⟩ := Option.bind_eq_some_iff.mp h
    cases h
    rw [← sub_eq_some hoff, ← sub_eq_some hroom]
    simp [hlow]

theorem readData_eq :
    ∀ {ds : List Desc} {disk : Disk} {ram : Ram} {r : Bool × Disk × Ram},
      readData base ds disk ram = some r → VirtioBlk.readData base ds disk ram = some r
  | [], _, _, _, h => h
  | d :: ds, disk, ram, r, h => by
      rw [readData] at h
      rw [VirtioBlk.readData]
      split at h
      · rename_i hskip
        rw [if_pos hskip]
        exact readData_eq h
      · rename_i hskip
        rw [if_neg hskip]
        obtain ⟨out, hout, h⟩ := Option.bind_eq_some_iff.mp h
        rw [outOfRam_eq hout]
        cases out with
        | true => exact h
        | false =>
            obtain ⟨off, hoff, h⟩ := Option.bind_eq_some_iff.mp h
            obtain ⟨bs, hbs, h⟩ := Option.bind_eq_some_iff.mp h
            rw [sub_eq_some hoff] at hbs h
            simp only [Bool.false_eq_true, if_false, hbs, Option.bind_eq_bind, Option.bind_some]
            rcases hread : disk.readExact d.len.toNat with ⟨ok, out, disk'⟩
            simp only [hread] at h ⊢
            cases ok with
            | true => exact readData_eq h
            | false => exact h

theorem writeData_eq :
    ∀ {ds : List Desc} {disk : Disk} {r : Bool × Disk},
      writeData base ram ds disk = some r → VirtioBlk.writeData base ram ds disk = some r
  | [], _, _, h => h
  | d :: ds, disk, r, h => by
      rw [writeData] at h
      rw [VirtioBlk.writeData]
      split at h
      · rename_i hskip
        rw [if_pos hskip]
        exact writeData_eq h
      · rename_i hskip
        rw [if_neg hskip]
        obtain ⟨out, hout, h⟩ := Option.bind_eq_some_iff.mp h
        rw [outOfRam_eq hout]
        cases out with
        | true => exact h
        | false =>
            obtain ⟨off, hoff, h⟩ := Option.bind_eq_some_iff.mp h
            obtain ⟨bs, hbs, h⟩ := Option.bind_eq_some_iff.mp h
            rw [sub_eq_some hoff] at hbs
            simp only [Bool.false_eq_true, if_false, hbs, Option.bind_eq_bind, Option.bind_some]
            cases hwrite : disk.writeAll bs with
            | some disk' =>
                simp only [hwrite] at h
                exact writeData_eq h
            | none =>
                simp only [hwrite] at h
                exact h

theorem transfer_eq {reqType : U32} {byteOff : U64} {data : List Desc} {disk : Disk}
    {r : Bool × Disk × Ram} (h : transfer reqType byteOff base data disk ram = some r) :
    VirtioBlk.transfer reqType byteOff base data disk ram = some r := by
  rw [transfer] at h
  rw [VirtioBlk.transfer]
  split at h
  · rename_i hin
    rw [if_pos hin]
    cases hseek : disk.seek byteOff with
    | none =>
        rw [hseek] at h
        exact h
    | some disk' =>
        rw [hseek] at h
        exact readData_eq h
  · rename_i hin
    rw [if_neg hin]
    split at h
    · rename_i hout
      rw [if_pos hout]
      cases hseek : disk.seek byteOff with
      | none =>
          rw [hseek] at h
          exact h
      | some disk' =>
          rw [hseek] at h
          obtain ⟨p, hp, h⟩ := Option.bind_eq_some_iff.mp h
          simp only [writeData_eq hp, Option.bind_eq_bind, Option.bind_some]
          exact h
    · rename_i hout
      rw [if_neg hout]
      exact h

theorem doRequest_eq {v : VirtioBlk} {head : U16} {r : VirtioBlk × Ram}
    (h : doRequest v ram base head = some r) : v.doRequest ram base head = some r := by
  obtain ⟨descs, hdescs, h⟩ := Option.bind_eq_some_iff.mp h
  rw [VirtioBlk.doRequest]
  simp only [collect_eq hdescs, Option.bind_eq_bind, Option.bind_some]
  match descs, h with
  | [], h => exact h
  | [_], h => exact h
  | first :: second :: rest, h =>
      obtain ⟨reqType, hreq, h⟩ := Option.bind_eq_some_iff.mp h
      obtain ⟨sector, hsector, h⟩ := Option.bind_eq_some_iff.mp h
      simp only [r32_eq hreq, r64_eq hsector, Option.bind_some]
      dsimp only at h
      cases hdisk : v.disk with
      | none =>
          rw [hdisk] at h
          obtain ⟨ram₁, hw, h⟩ := Option.bind_eq_some_iff.mp h
          simp only [w8_eq hw, Option.bind_some]
          exact h
      | some disk =>
          rw [hdisk] at h
          obtain ⟨byteOff, hoff, h⟩ := Option.bind_eq_some_iff.mp h
          obtain ⟨⟨ok, disk', ram₁⟩, ht, h⟩ := Option.bind_eq_some_iff.mp h
          obtain ⟨ram₂, hw, h⟩ := Option.bind_eq_some_iff.mp h
          rw [mul_eq_some hoff] at ht
          simp only [transfer_eq ht, w8_eq hw, Option.bind_some]
          exact h

theorem serveNext_eq {v : VirtioBlk} {r : VirtioBlk × Ram}
    (h : serveNext v ram base = some r) : v.serveNext ram base = some r := by
  obtain ⟨slot, hslot, h⟩ := Option.bind_eq_some_iff.mp h
  obtain ⟨head, hhead, h⟩ := Option.bind_eq_some_iff.mp h
  obtain ⟨⟨v₁, ram₁⟩, hreq, h⟩ := Option.bind_eq_some_iff.mp h
  obtain ⟨usedIdx, hidx, h⟩ := Option.bind_eq_some_iff.mp h
  obtain ⟨place, hplace, h⟩ := Option.bind_eq_some_iff.mp h
  obtain ⟨ram₂, h₂, h⟩ := Option.bind_eq_some_iff.mp h
  obtain ⟨ram₃, h₃, h⟩ := Option.bind_eq_some_iff.mp h
  obtain ⟨ram₄, h₄, h⟩ := Option.bind_eq_some_iff.mp h
  rw [mul_eq_some hslot] at hhead
  rw [mul_eq_some hplace] at h₂ h₃
  rw [VirtioBlk.serveNext]
  simp only [r16_eq hhead, doRequest_eq hreq, r16_eq hidx, w32_eq h₂, w32_eq h₃, w16_eq h₄,
    Option.bind_eq_bind, Option.bind_some]
  exact h

/-- The loops agree, by induction on the run of the checked one. -/
theorem drain_eq (base : U64) (v : VirtioBlk) (ram : Ram) (r : VirtioBlk × Ram)
    (h : drain base v ram = some r) : VirtioBlk.drain base v ram = some r := by
  refine drain.partial_correctness base
    (fun v ram r => VirtioBlk.drain base v ram = some r) ?_ v ram r h
  intro loop ih v ram r h
  obtain ⟨availIdx, hidx, h⟩ := Option.bind_eq_some_iff.mp h
  rw [VirtioBlk.drain]
  simp only [r16_eq hidx, Option.bind_eq_bind, Option.bind_some]
  split at h
  · rename_i hempty
    rw [if_pos hempty]
    exact h
  · rename_i hmore
    rw [if_neg hmore]
    obtain ⟨⟨v₁, ram₁⟩, hs, h⟩ := Option.bind_eq_some_iff.mp h
    simp only [serveNext_eq hs, Option.bind_some]
    exact ih v₁ ram₁ r h

/-- A notification that passes every check is one the device serves the same way. -/
theorem processQueue_eq {v : VirtioBlk} {r : VirtioBlk × Ram}
    (h : processQueue v ram base = some r) : v.processQueue ram base = some r := by
  rw [processQueue] at h
  rw [VirtioBlk.processQueue]
  split at h
  · rename_i hidle
    rw [if_pos hidle]
    exact h
  · rename_i hready
    rw [if_neg hready]
    exact drain_eq base v ram r h

end Agreement

end VirtioBlk.Checked

end RiscvEmu
