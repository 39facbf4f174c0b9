import RiscvEmu.Virtio.RoundTrip
import RiscvEmu.Virtio.Termination
import RiscvEmu.Lib.System

/-!
# The advertised capacity

The driver reads from the device how many sectors its file had when the device was made.  No
request is compared with that number.  A read past the end of the file fails because the file
does, a write past the end makes the file longer, and a flush is not looked at; the byte offset of
a sector wraps.  So a request outside the capacity is refused exactly when the device stops at one
of its buffers for another reason, with the file as it was.
-/

namespace RiscvEmu

namespace VirtioBlk

open Splice

/-! ## Where a request stops -/

/-- A buffer passes the range check, and all of it is there. -/
def Lies (ram : Ram) (base : U64) (d : Desc) : Prop :=
  outOfRam ram base d = false ∧ (d.addr - base).toNat + d.len.toNat ≤ ram.len.toNat

/-- The device moves some buffers, to or from a file of the given length at a position, and stops
at the next: that one fails the range check, or the file takes no part in moving it. -/
structure StopsAt (ram : Ram) (base : U64) (move : Desc → Nat → Act) (length pos : Nat)
    (pre : List Desc) (d : Desc) : Prop where
  lies : ∀ e ∈ pre, Lies ram base e
  accepted : ∀ a ∈ moves move pre pos, a.Accepted length
  stops : outOfRam ram base d = true ∨
    Lies ram base d ∧ ¬ (move d (pos + totalLen pre)).Accepted length

/-- The device stops at one of some buffers, after others that meet a condition. -/
def Stops (ram : Ram) (base : U64) (move : Desc → Nat → Act) (length pos : Nat) (ds : List Desc)
    (P : List Desc → Prop) : Prop :=
  ∃ pre d post, ds = pre ++ d :: post ∧ StopsAt ram base move length pos pre d ∧ P pre

section Stops

variable {base : U64} {ram : Ram} {move : Desc → Nat → Act} {length pos : Nat} {d : Desc}
  {ds : List Desc} {P : List Desc → Prop}

theorem not_stops_nil : ¬ Stops ram base move length pos [] P := by
  rintro ⟨pre, d, post, heq, -⟩
  exact List.append_ne_nil_of_right_ne_nil pre (List.cons_ne_nil d post) heq.symm

/-- The device stops at the first buffer, or moves it and stops at a later one. -/
theorem stops_cons : Stops ram base move length pos (d :: ds) P ↔
    (outOfRam ram base d = true ∨ Lies ram base d ∧ ¬ (move d pos).Accepted length) ∧ P [] ∨
      Lies ram base d ∧ (move d pos).Accepted length ∧
        Stops ram base move length (pos + d.len.toNat) ds fun pre => P (d :: pre) := by
  constructor
  · rintro ⟨pre, e, post, heq, hstops, hp⟩
    cases pre with
    | nil =>
        obtain ⟨rfl, rfl⟩ := List.cons.inj heq
        exact Or.inl ⟨hstops.stops, hp⟩
    | cons d' pre =>
        obtain ⟨rfl, rfl⟩ := List.cons.inj heq
        obtain ⟨hhead, htail⟩ := List.forall_mem_cons.mp hstops.lies
        obtain ⟨haccepted, hrest⟩ := List.forall_mem_cons.mp hstops.accepted
        have hlast := hstops.stops
        rw [totalLen_cons, ← Nat.add_assoc] at hlast
        exact Or.inr ⟨hhead, haccepted, pre, e, post, rfl, ⟨htail, hrest, hlast⟩, hp⟩
  · rintro (⟨hstops, hp⟩ | ⟨hhead, haccepted, pre, e, post, rfl, hstops, hp⟩)
    · exact ⟨[], d, ds, rfl, ⟨nofun, nofun, hstops⟩, hp⟩
    · refine ⟨d :: pre, e, post, rfl, ⟨List.forall_mem_cons.mpr ⟨hhead, hstops.lies⟩,
        List.forall_mem_cons.mpr ⟨haccepted, hstops.accepted⟩, ?_⟩, hp⟩
      rw [totalLen_cons, ← Nat.add_assoc]
      exact hstops.stops

theorem stops_cons_outOfRam (h : outOfRam ram base d = true) :
    Stops ram base move length pos (d :: ds) P ↔ P [] := by
  have hnot : ¬ Lies ram base d := fun hlies => Bool.eq_false_iff.mp hlies.1 h
  rw [stops_cons, or_iff_left fun hrest => hnot hrest.1, and_iff_right (Or.inl h)]

theorem not_stops_cons (hin : outOfRam ram base d = false) (hnot : ¬ Lies ram base d) :
    ¬ Stops ram base move length pos (d :: ds) P := by
  rw [stops_cons, hin]
  rintro (⟨hfirst | hlies, -⟩ | hlies)
  · cases hfirst
  · exact hnot hlies.1
  · exact hnot hlies.1

theorem stops_cons_refused (hlies : Lies ram base d) (h : ¬ (move d pos).Accepted length) :
    Stops ram base move length pos (d :: ds) P ↔ P [] := by
  rw [stops_cons, or_iff_left fun hrest => h hrest.2.1, and_iff_right (Or.inr ⟨hlies, h⟩)]

theorem stops_cons_accepted (hlies : Lies ram base d) (h : (move d pos).Accepted length) :
    Stops ram base move length pos (d :: ds) P ↔
      Stops ram base move length (pos + d.len.toNat) ds fun pre => P (d :: pre) := by
  rw [stops_cons]
  refine (or_iff_right fun hfirst => ?_).trans ((and_iff_right hlies).trans (and_iff_right h))
  rcases hfirst.1 with hout | hrefused
  · exact Bool.eq_false_iff.mp hlies.1 hout
  · exact hrefused.2 h

/-- A buffer fails the range check, or passes it and is not all there, or lies in RAM. -/
theorem lies_cases (ram : Ram) (base : U64) (d : Desc) : outOfRam ram base d = true ∨
    (outOfRam ram base d = false ∧ ¬ Lies ram base d ∧
      ram.slice (d.addr - base).toNat d.len.toNat = none) ∨
    (Lies ram base d ∧
      ram.slice (d.addr - base).toNat d.len.toNat = some (bufferBytes base ram d)) := by
  cases hout : outOfRam ram base d with
  | true => exact Or.inl rfl
  | false =>
      right
      rcases Nat.lt_or_ge ram.len.toNat ((d.addr - base).toNat + d.len.toNat) with hlt | hle
      · exact Or.inl ⟨rfl, fun h => Nat.not_le.mpr hlt h.2, if_neg (Nat.not_le.mpr hlt)⟩
      · exact Or.inr ⟨⟨hout, hle⟩, if_pos hle⟩

theorem Lies.congr {ram' : Ram} (hlen : ram'.len = ram.len) :
    Lies ram' base d ↔ Lies ram base d := by
  rw [Lies, Lies, outOfRam, outOfRam, hlen]

theorem stops_congr {ram' : Ram} (hlen : ram'.len = ram.len) :
    Stops ram' base move length pos ds P ↔ Stops ram base move length pos ds P := by
  induction ds generalizing pos P with
  | nil => exact iff_of_false not_stops_nil not_stops_nil
  | cons d ds ih => rw [stops_cons, stops_cons, ih, Lies.congr hlen, outOfRam, outOfRam, hlen]

end Stops

/-! ## The data loops -/

section Loops

variable {base : U64} {ram : Ram} {content : List U8} {pos n : Nat}

/-- A read that the file takes part in moves the cursor past its bytes. -/
theorem readExact_accepted (h : n ≤ content.length - pos) :
    Disk.readExact ⟨content, pos⟩ n =
      (true, (content.drop pos).take n, ⟨content, pos + n⟩) := by
  have hlen : ((content.drop pos).take n).length = n := by
    rw [List.length_take, List.length_drop]
    omega
  simp only [Disk.readExact, hlen, beq_self_eq_true]

theorem readExact_refused (h : ¬ n ≤ content.length - pos) :
    ∃ bs disk', Disk.readExact ⟨content, pos⟩ n = (false, bs, disk') := by
  have hlen : ((content.drop pos).take n).length ≠ n := by
    rw [List.length_take, List.length_drop]
    omega
  exact ⟨_, _, by simp only [Disk.readExact, beq_eq_false_iff_ne.mpr hlen]; rfl⟩

theorem writable_skip {d : Desc} {ds : List Desc} (h : d.flags &&& descFWrite = 0) :
    writable (d :: ds) = writable ds ∧ readable (d :: ds) = d :: readable ds :=
  ⟨List.filter_cons_of_neg (by simpa using h), List.filter_cons_of_pos (by simpa using h)⟩

theorem readable_skip {d : Desc} {ds : List Desc} (h : ¬ d.flags &&& descFWrite = 0) :
    writable (d :: ds) = d :: writable ds ∧ readable (d :: ds) = readable ds :=
  ⟨List.filter_cons_of_pos (by simpa using h), List.filter_cons_of_neg (by simpa using h)⟩

/-- The read loop fails where the device stops. -/
theorem readData_failed_iff : ∀ {ds : List Desc} {pos : Nat} {ram : Ram},
    (∃ disk' ram', readData base ds ⟨content, pos⟩ ram = some (false, disk', ram')) ↔
      Stops ram base .read content.length pos (writable ds) fun _ => True
  | [], _, _ => by
      refine iff_of_false ?_ not_stops_nil
      rintro ⟨_, _, h⟩
      cases h
  | d :: ds, pos, ram => by
      rw [readData]
      split
      · rename_i hskip
        rw [(writable_skip hskip).1]
        exact readData_failed_iff
      · rename_i hmatch
        rw [(readable_skip hmatch).1]
        rcases lies_cases ram base d with hout | ⟨hin, hnot, hslice⟩ | ⟨hlies, hslice⟩
        · rw [if_pos hout, stops_cons_outOfRam hout]
          exact iff_of_true ⟨_, _, rfl⟩ trivial
        · simp only [hin, hslice, Bool.false_eq_true, if_false, Option.bind_eq_bind,
            Option.bind_none]
          refine iff_of_false ?_ (not_stops_cons hin hnot)
          rintro ⟨_, _, h⟩
          cases h
        · simp only [hlies.1, hslice, Bool.false_eq_true, if_false, Option.bind_eq_bind,
            Option.bind_some]
          by_cases hle : (Act.read d pos).Accepted content.length
          · rw [readExact_accepted hle, stops_cons_accepted hlies hle]
            exact readData_failed_iff.trans (stops_congr rfl)
          · obtain ⟨bs, disk', hread⟩ := readExact_refused hle
            rw [hread, stops_cons_refused hlies hle]
            exact iff_of_true ⟨_, _, rfl⟩ trivial

/-- A read leaves the file. -/
theorem readData_content : ∀ {ds : List Desc} {disk disk' : Disk} {ram ram' : Ram} {ok : Bool},
    readData base ds disk ram = some (ok, disk', ram') → disk'.content = disk.content
  | [], _, _, _, _, _, h => by
      cases h
      rfl
  | d :: ds, disk, disk', ram, ram', ok, h => by
      rw [readData] at h
      split at h
      · exact readData_content h
      · split at h
        · cases h
          rfl
        · obtain ⟨_, -, h⟩ := Option.bind_eq_some_iff.mp h
          rcases hread : disk.readExact d.len.toNat with ⟨all, bs, disk₁⟩
          have hdisk : (disk.readExact d.len.toNat).2.2.content = disk.content := rfl
          rw [hread] at h hdisk
          cases all with
          | true => exact (readData_content h).trans hdisk
          | false =>
              cases h
              exact hdisk

/-- A write puts its bytes at the cursor, unless the file would be too long. -/
theorem writeAll_eq (bs : List U8) : Disk.writeAll ⟨content, pos⟩ bs =
    if bs.length = 0 ∨ pos + bs.length < 2 ^ 63 then
      some ⟨overwrite 0 content pos bs, pos + bs.length⟩
    else none := by
  rw [Disk.writeAll]
  split
  · rename_i hempty
    subst hempty
    rfl
  · rename_i hne
    have hlen : bs.length ≠ 0 := fun h => hne (List.eq_nil_of_length_eq_zero h)
    simp only [or_iff_right hlen, overwrite, if_neg hlen]

/-- The write loop fails where the device stops, with the buffers before that in the file. -/
theorem writeData_failed_iff {after : List U8} : ∀ {ds : List Desc} {content : List U8} {pos : Nat},
    (∃ disk', writeData base ram ds ⟨content, pos⟩ = some (false, disk') ∧
        disk'.content = after) ↔
      Stops ram base .write n pos (readable ds) fun pre =>
        overwrite 0 content pos (gather base ram pre) = after
  | [], _, _ => by
      refine iff_of_false ?_ not_stops_nil
      rintro ⟨_, h, _⟩
      cases h
  | d :: ds, content, pos => by
      have hbytes : (bufferBytes base ram d).length = d.len.toNat := bufferBytes_length ram d
      have hstopped {disk' : Disk} (hcontent : disk'.content = content) :
          (∃ disk, some (false, disk') = some (false, disk) ∧ disk.content = after) ↔
            overwrite 0 content pos (gather base ram []) = after := by
        rw [show gather base ram [] = [] from rfl, overwrite_nil, ← hcontent]
        constructor
        · rintro ⟨_, heq, h⟩
          cases heq
          exact h
        · intro h
          exact ⟨_, rfl, h⟩
      rw [writeData]
      split
      · rename_i hskip
        rw [(readable_skip hskip).2]
        exact writeData_failed_iff
      · rename_i hmatch
        rw [(writable_skip (not_not.mp hmatch)).2]
        rcases lies_cases ram base d with hout | ⟨hin, hnot, hslice⟩ | ⟨hlies, hslice⟩
        · rw [if_pos hout, stops_cons_outOfRam hout]
          exact hstopped rfl
        · simp only [hin, hslice, Bool.false_eq_true, if_false, Option.bind_eq_bind,
            Option.bind_none]
          refine iff_of_false ?_ (not_stops_cons hin hnot)
          rintro ⟨_, h, _⟩
          cases h
        · simp only [hlies.1, hslice, Bool.false_eq_true, if_false, Option.bind_eq_bind,
            Option.bind_some]
          by_cases hfits : (Act.write d pos).Accepted n
          · have hwrite : Disk.writeAll ⟨content, pos⟩ (bufferBytes base ram d) =
                some ⟨overwrite 0 content pos (bufferBytes base ram d), pos + d.len.toNat⟩ := by
              rw [writeAll_eq, hbytes]
              exact if_pos hfits
            simp only [hwrite, stops_cons_accepted hlies hfits, gather_cons]
            rw [writeData_failed_iff, ← hbytes]
            simp only [overwrite_overwrite]
          · have hwrite : Disk.writeAll ⟨content, pos⟩ (bufferBytes base ram d) = none := by
              rw [writeAll_eq, hbytes]
              exact if_neg hfits
            simp only [hwrite]
            rw [stops_cons_refused hlies hfits]
            exact hstopped rfl

/-- After a write the file holds the first of the buffers, and is as long as they need. -/
theorem writeData_content : ∀ {ds : List Desc} {disk disk' : Disk} {ok : Bool},
    writeData base ram ds disk = some (ok, disk') →
      ∃ pre, pre <+: readable ds ∧
        disk'.content = overwrite 0 disk.content disk.cursor (gather base ram pre)
  | [], _, _, _, h => by
      cases h
      exact ⟨[], List.prefix_rfl, rfl⟩
  | d :: ds, ⟨content, pos⟩, disk', ok, h => by
      have hbytes : (bufferBytes base ram d).length = d.len.toNat := bufferBytes_length ram d
      rw [writeData] at h
      split at h
      · rename_i hskip
        rw [(readable_skip hskip).2]
        exact writeData_content h
      · rename_i hmatch
        rw [(writable_skip (not_not.mp hmatch)).2]
        split at h
        · cases h
          exact ⟨[], List.nil_prefix, rfl⟩
        · obtain ⟨bs, hslice, h⟩ := Option.bind_eq_some_iff.mp h
          obtain rfl : bs = bufferBytes base ram d := by
            rw [Ram.slice] at hslice
            split at hslice <;> cases hslice
            rfl
          rw [writeAll_eq] at h
          split at h
          · rename_i hdisk
            split at hdisk <;> cases hdisk
            obtain ⟨pre, hpre, hcontent⟩ := writeData_content h
            refine ⟨d :: pre, List.cons_prefix_cons.mpr ⟨rfl, hpre⟩, hcontent.trans ?_⟩
            rw [gather_cons]
            exact overwrite_overwrite
          · cases h
            exact ⟨[], List.nil_prefix, rfl⟩

end Loops

/-! ## Requests -/

/-- A request as the device takes it from its chain: the descriptors, and the type and the sector
of the header. -/
structure Takes (v : VirtioBlk) (ram : Ram) (base : U64) (head : U16) (first : Desc)
    (mid : List Desc) (last : Desc) (reqType : U32) (sector : U64) : Prop where
  descs : v.collect ram base 16 head = some (first :: (mid ++ [last]))
  reqType : r32 ram base first.addr = some reqType
  sector : r64 ram base (first.addr + 8) = some sector

/-- Some of the addressed range lies at or beyond the capacity. -/
def OutOfRange (v : VirtioBlk) (mid : List Desc) (sector : U64) : Prop :=
  0 < totalLen mid ∧ v.capacity.toNat * 512 < sector.toNat * 512 + totalLen mid

/-- The request completes with an error, and the file is as it was. -/
def Refuses (v : VirtioBlk) (ram : Ram) (base : U64) (head : U16) (last : Desc) : Prop :=
  ∃ v' ram', v.doRequest ram base head = some (v', ram') ∧
    ram'.byte (last.addr - base).toNat = sIoErr ∧
    v'.disk.map Disk.content = v.disk.map Disk.content

/-- A transfer fails with the file as it was: its type is unknown, or it begins where no file can
be, or the device stops on the way, in a write after bytes that the file held already. -/
def Fails (ram : Ram) (base : U64) (reqType : U32) (sector : U64) (mid : List Desc)
    (content : List U8) : Prop :=
  let pos := (sector * sectorSize).toNat
  if reqType = tIn then
    2 ^ 63 ≤ pos ∨ Stops ram base .read content.length pos (writable mid) fun _ => True
  else if reqType = tOut then
    2 ^ 63 ≤ pos ∨ Stops ram base .write content.length pos (readable mid) fun pre =>
      (content.drop pos).take (totalLen pre) = gather base ram pre
  else reqType ≠ tFlush

section Requests

variable {v v' : VirtioBlk} {ram ram' : Ram} {base : U64} {head : U16} {first last : Desc}
  {mid : List Desc} {reqType : U32} {sector : U64} {disk : Disk}

theorem Takes.doRequest (h : Takes v ram base head first mid last reqType sector) :
    v.doRequest ram base head = match v.disk with
      | none => (w8 ram base last.addr sIoErr).map fun ram => (v, ram)
      | some disk => (transfer reqType (sector * sectorSize) base mid disk ram).bind
          fun (ok, disk, ram) => (w8 ram base last.addr (if ok then sOk else sIoErr)).map
            fun ram => ({ v with disk := some disk }, ram) := by
  obtain ⟨second, rest, htail⟩ :=
    List.exists_cons_of_ne_nil (List.append_ne_nil_of_right_ne_nil mid (List.cons_ne_nil last []))
  have hdescs := h.descs
  have hlast : (second :: rest).getLast (List.cons_ne_nil _ _) = last := by
    simp only [← htail, List.getLast_append_singleton]
  have hmid : (second :: rest).dropLast = mid := by
    rw [← htail, List.dropLast_concat]
  rw [htail] at hdescs
  simp only [VirtioBlk.doRequest, hdescs, h.reqType, h.sector, hlast, hmid, Option.bind_eq_bind,
    Option.bind_some]
  cases v.disk with
  | none =>
      dsimp only
      cases w8 ram base last.addr sIoErr <;> rfl
  | some disk =>
      refine Option.bind_congr fun p _ => ?_
      cases w8 p.2.2 base last.addr (if p.1 then sOk else sIoErr) <;> rfl

/-- A byte is written if its address is in RAM, and is there then. -/
theorem w8_eq_some_iff {addr : U64} {val : U8} : w8 ram base addr val = some ram' ↔
    (addr - base).toNat < ram.len.toNat ∧
      Checked.put ram base addr 1 (val.setWidth 64) = ram' := by
  rw [w8, Ram.write]
  split
  · rename_i h
    exact Option.some_inj.trans (and_iff_right h).symm
  · rename_i h
    refine iff_of_false ?_ fun hin => h hin.1
    intro hnone
    cases hnone

theorem seek_far {off : U64} (h : 2 ^ 63 ≤ off.toNat) : disk.seek off = none :=
  if_neg (Nat.not_lt.mpr h)

theorem seek_near {off : U64} (h : off.toNat < 2 ^ 63) :
    disk.seek off = some ⟨disk.content, off.toNat⟩ := if_pos h

/-- A transfer that fails with the file as it was. -/
theorem transfer_failed_iff :
    (∃ disk' ram', transfer reqType (sector * sectorSize) base mid disk ram =
        some (false, disk', ram') ∧ disk'.content = disk.content) ↔
      Fails ram base reqType sector mid disk.content := by
  rw [transfer, Fails]
  dsimp only
  split
  · rcases Nat.lt_or_ge (sector * sectorSize).toNat (2 ^ 63) with hnear | hfar
    · simp only [seek_near hnear]
      rw [or_iff_right (Nat.not_le.mpr hnear), ← readData_failed_iff]
      constructor
      · rintro ⟨disk', ram', h, -⟩
        exact ⟨disk', ram', h⟩
      · rintro ⟨disk', ram', h⟩
        exact ⟨disk', ram', h, (readData_content h).trans rfl⟩
    · simp only [seek_far hfar]
      exact iff_of_true ⟨_, _, rfl, rfl⟩ (Or.inl hfar)
  · split
    · rcases Nat.lt_or_ge (sector * sectorSize).toNat (2 ^ 63) with hnear | hfar
      · have hsame (pre : List Desc) :
            (disk.content.drop (sector * sectorSize).toNat).take (totalLen pre) =
                gather base ram pre ↔
              overwrite 0 disk.content (sector * sectorSize).toNat (gather base ram pre) =
                disk.content := by
          rw [overwrite_eq_self_iff, gather_length]
        simp only [seek_near hnear, hsame]
        rw [or_iff_right (Nat.not_le.mpr hnear)]
        refine Iff.trans ?_ writeData_failed_iff
        constructor
        · rintro ⟨disk', ram', h, hcontent⟩
          obtain ⟨⟨ok, disk₁⟩, hwrite, h⟩ := Option.bind_eq_some_iff.mp h
          cases h
          exact ⟨_, hwrite, hcontent⟩
        · rintro ⟨disk', hwrite, hcontent⟩
          exact ⟨disk', ram, by rw [hwrite]; rfl, hcontent⟩
      · simp only [seek_far hfar]
        exact iff_of_true ⟨_, _, rfl, rfl⟩ (Or.inl hfar)
    · constructor
      · rintro ⟨disk', ram', h, -⟩ hflush
        rw [decide_eq_true hflush] at h
        cases h
      · intro h
        exact ⟨disk, ram, by rw [decide_eq_false h], rfl⟩

/-- A request is refused when its status byte is in RAM and there is no disk, or the transfer
fails with the file as it was. -/
theorem Takes.refuses_iff (h : Takes v ram base head first mid last reqType sector) :
    Refuses v ram base head last ↔ (last.addr - base).toNat < ram.len.toNat ∧
      ∀ disk, v.disk = some disk → Fails ram base reqType sector mid disk.content := by
  rw [Refuses, h.doRequest]
  cases hdisk : v.disk with
  | none =>
      dsimp only
      constructor
      · rintro ⟨v', ram', hserved, -⟩
        obtain ⟨ram₁, hw, -⟩ := Option.map_eq_some_iff.mp hserved
        exact ⟨(w8_eq_some_iff.mp hw).1, nofun⟩
      · rintro ⟨hin, -⟩
        refine ⟨v, _, ?_, put_status ram last.addr sIoErr, congrArg _ hdisk⟩
        rw [w8_eq_some_iff.mpr ⟨hin, rfl⟩]
        rfl
  | some disk =>
      simp only [Option.some.injEq, forall_eq', ← transfer_failed_iff, Option.map_some]
      constructor
      · rintro ⟨v', ram', hserved, hstatus, hcontent⟩
        obtain ⟨⟨ok, disk', ram₁⟩, ht, hserved⟩ := Option.bind_eq_some_iff.mp hserved
        obtain ⟨ram₂, hw, heq⟩ := Option.map_eq_some_iff.mp hserved
        obtain ⟨hin, rfl⟩ := w8_eq_some_iff.mp hw
        cases heq
        rw [put_status] at hstatus
        cases ok with
        | true => cases (show sOk = sIoErr from hstatus)
        | false => exact ⟨transfer_len ht ▸ hin, disk', ram₁, ht, Option.some.inj hcontent⟩
      · rintro ⟨hin, disk', ram', ht, hcontent⟩
        refine ⟨{ v with disk := some disk' }, _, ?_, put_status ram' last.addr sIoErr,
          congrArg some hcontent⟩
        rw [ht]
        simp only [Option.bind_some, Bool.false_eq_true, if_false]
        rw [w8_eq_some_iff.mpr ⟨transfer_len ht ▸ hin, rfl⟩]
        rfl

/-- What a served request leaves in the file: the file as it was, or in a write with the first of
the buffers in it. -/
theorem Takes.content (h : Takes v ram base head first mid last reqType sector)
    (hserved : v.doRequest ram base head = some (v', ram')) :
    v'.disk.map Disk.content = v.disk.map Disk.content ∨
      ∃ disk pre, v.disk = some disk ∧ pre <+: readable mid ∧
        v'.disk.map Disk.content = some (overwrite 0 disk.content (sector * sectorSize).toNat
          (gather base ram pre)) := by
  rw [h.doRequest] at hserved
  cases hdisk : v.disk with
  | none =>
      rw [hdisk] at hserved
      obtain ⟨_, -, heq⟩ := Option.map_eq_some_iff.mp hserved
      cases heq
      exact Or.inl (congrArg _ hdisk)
  | some disk =>
      rw [hdisk] at hserved
      obtain ⟨⟨ok, disk', ram₁⟩, ht, hserved⟩ := Option.bind_eq_some_iff.mp hserved
      obtain ⟨ram₂, -, heq⟩ := Option.map_eq_some_iff.mp hserved
      cases heq
      rw [transfer] at ht
      split at ht
      · split at ht
        · cases ht
          exact Or.inl rfl
        · rename_i disk₁ hseek
          refine Or.inl (congrArg some ((readData_content ht).trans ?_))
          rw [Disk.seek] at hseek
          split at hseek <;> cases hseek
          rfl
      · split at ht
        · split at ht
          · cases ht
            exact Or.inl rfl
          · rename_i disk₁ hseek
            obtain ⟨⟨ok', disk₂⟩, hwrite, ht⟩ := Option.bind_eq_some_iff.mp ht
            cases ht
            obtain ⟨pre, hpre, hcontent⟩ := writeData_content hwrite
            rw [Disk.seek] at hseek
            split at hseek <;> cases hseek
            exact Or.inr ⟨disk, pre, rfl, hpre, congrArg some hcontent⟩
        · cases ht
          exact Or.inl rfl

/-- A request that was served was taken from its chain, or there was nothing to do. -/
theorem doRequest_takes (hserved : v.doRequest ram base head = some (v', ram')) :
    (v', ram') = (v, ram) ∨
      ∃ first mid last reqType sector, Takes v ram base head first mid last reqType sector := by
  obtain ⟨descs, hdescs, hserved⟩ := Option.bind_eq_some_iff.mp hserved
  match descs, hserved with
  | [], hserved => exact Or.inl (Option.some.inj hserved).symm
  | [_], hserved => exact Or.inl (Option.some.inj hserved).symm
  | first :: second :: rest, hserved =>
      obtain ⟨reqType, htype, hserved⟩ := Option.bind_eq_some_iff.mp hserved
      obtain ⟨sector, hsector, -⟩ := Option.bind_eq_some_iff.mp hserved
      refine Or.inr ⟨first, (second :: rest).dropLast, (second :: rest).getLast (by simp), reqType,
        sector, ?_, htype, hsector⟩
      rw [List.dropLast_append_getLast]
      exact hdescs

end Requests

/-! ## Runs -/

/-- What happens to the device: its driver writes a register, or it serves the next entry of the
available ring. -/
inductive Event where
  | store (off val : U64)
  | serve (ram : Ram) (base : U64)

/-- The device from its start on. -/
def driven : System VirtioBlk Event where
  init v := ∃ disk, v = new disk
  step
    | .store off val, v => some (v.store off val).2
    | .serve ram base, v => (v.serveNext ram base).map Prod.fst

/-- A request that leaves the capacity is refused. -/
def Contained (v : VirtioBlk) (ram : Ram) (base : U64) (head : U16) : Prop :=
  ∀ first mid last reqType sector, Takes v ram base head first mid last reqType sector →
    OutOfRange v mid sector → Refuses v ram base head last

/-- A request that leaves the capacity has its status byte in RAM, and its transfer fails with the
file as it was. -/
def FailsOutside (v : VirtioBlk) (ram : Ram) (base : U64) (head : U16) : Prop :=
  ∀ first mid last reqType sector, Takes v ram base head first mid last reqType sector →
    OutOfRange v mid sector → (last.addr - base).toNat < ram.len.toNat ∧
      ∀ disk, v.disk = some disk → Fails ram base reqType sector mid disk.content

/-- The length of the file. -/
def fileLength (v : VirtioBlk) : Option Nat := v.disk.map fun disk => disk.content.length

/-- A condition on the request that an event serves. -/
def Event.Served (P : VirtioBlk → Ram → U64 → U16 → Prop) (v : VirtioBlk) : Event → Prop
  | .store _ _ => True
  | .serve ram base => P v ram base (v.headAt base ram.byte v.lastAvailIdx)

/-- The requests stay inside the capacity, and the file keeps its length. -/
def StaysInside (v : VirtioBlk) (e : Event) : Prop :=
  e.Served Contained v ∧ ∀ v', driven.step e v = some v' → v'.fileLength = v.fileLength

/-- The file has the sectors that the driver was told of. -/
def Covers (v : VirtioBlk) : Prop :=
  ∀ disk, v.disk = some disk → v.capacity.toNat * 512 ≤ disk.content.length

section Runs

variable {v v' : VirtioBlk} {ram ram' : Ram} {base : U64} {head : U16} {e : Event}

theorem new_covers (disk : Option Disk) : (new disk).Covers := by
  rintro d rfl
  have hmod : (new (some d)).capacity.toNat ≤ d.content.length / 512 := by
    rw [new, BitVec.toNat_ofNat]
    exact Nat.mod_le _ _
  exact Nat.le_trans (Nat.mul_le_mul_right 512 hmod) (Nat.div_mul_le_self d.content.length 512)

theorem totalLen_le {ds ds' : List Desc} (h : ds.Sublist ds') : totalLen ds ≤ totalLen ds' := by
  induction h with
  | slnil => exact Nat.le_refl _
  | cons d _ ih =>
      rw [totalLen_cons]
      omega
  | cons_cons d _ ih =>
      rw [totalLen_cons, totalLen_cons]
      omega

/-- The condition is the one under which a request stays inside the capacity. -/
theorem contained_iff (v : VirtioBlk) (ram : Ram) (base : U64) (head : U16) :
    Contained v ram base head ↔ FailsOutside v ram base head := by
  refine forall₅_congr fun first mid last reqType sector => ?_
  exact forall_congr' fun h => imp_congr Iff.rfl h.refuses_iff

/-- A request that stays inside a capacity that the file covers leaves the length of the file. -/
theorem Contained.fileLength (h : Contained v ram base head) (hcovers : v.Covers)
    (hserved : v.doRequest ram base head = some (v', ram')) : v'.fileLength = v.fileLength := by
  have hsame : v'.disk.map Disk.content = v.disk.map Disk.content →
      v'.fileLength = v.fileLength := fun hcontent => by
    have hlength := congrArg (Option.map List.length) hcontent
    rwa [Option.map_map, Option.map_map] at hlength
  rcases doRequest_takes hserved with heq | ⟨first, mid, last, reqType, sector, ht⟩
  · cases heq
    rfl
  by_cases hout : OutOfRange v mid sector
  · obtain ⟨_, _, hrefused, -, hcontent⟩ := h _ _ _ _ _ ht hout
    cases hserved.symm.trans hrefused
    exact hsame hcontent
  rcases ht.content hserved with hcontent | ⟨disk, pre, hdisk, hpre, hcontent⟩
  · exact hsame hcontent
  have hlen : (gather base ram pre).length = totalLen pre := gather_length ram pre
  by_cases hempty : (gather base ram pre).length = 0
  · rw [List.eq_nil_of_length_eq_zero hempty, overwrite_nil] at hcontent
    exact hsame (hcontent.trans (congrArg (Option.map Disk.content) hdisk).symm)
  · have htotal : totalLen pre ≤ totalLen mid :=
      totalLen_le (hpre.sublist.trans List.filter_sublist)
    have hfile := hcovers disk hdisk
    have hoff : (sector * sectorSize).toNat ≤ sector.toNat * 512 := by
      rw [byteOff_toNat]
      exact Nat.mod_le _ _
    rw [OutOfRange] at hout
    have hlength := congrArg (Option.map List.length) hcontent
    rw [Option.map_map, Option.map_some, length_overwrite hempty,
      Nat.max_eq_left (by omega)] at hlength
    exact hlength.trans (congrArg (Option.map fun disk : Disk => disk.content.length) hdisk).symm

/-- A register write leaves the file and the capacity. -/
theorem store_kept (v : VirtioBlk) (off val : U64) :
    (v.store off val).2.disk = v.disk ∧ (v.store off val).2.capacity = v.capacity := by
  unfold store
  dsimp only
  split
  case h_2 => split <;> exact ⟨rfl, rfl⟩
  case h_8 => dsimp only; split <;> exact ⟨rfl, rfl⟩
  all_goals exact ⟨rfl, rfl⟩

/-- Under the condition an event stays inside the capacity. -/
theorem staysInside_iff (hcovers : v.Covers) (e : Event) :
    StaysInside v e ↔ e.Served FailsOutside v := by
  cases e with
  | store off val =>
      refine iff_of_true ⟨trivial, fun v' hstep => ?_⟩ trivial
      cases hstep
      rw [fileLength, (store_kept v off val).1]
      rfl
  | serve ram base =>
      refine ⟨fun h => (contained_iff ..).mp h.1, fun h => ?_⟩
      have hcontained := (contained_iff v ram base _).mpr h
      refine ⟨hcontained, fun v' hstep => ?_⟩
      obtain ⟨⟨_, ram'⟩, hserve, rfl⟩ := Option.map_eq_some_iff.mp hstep
      obtain ⟨disk, ram₁, hreq, rfl, -, -⟩ := serveNext_returned hserve
      exact (hcontained.fileLength hcovers hreq : _)

/-- The file goes on to cover the capacity. -/
theorem Covers.step (hcovers : v.Covers) (h : e.Served FailsOutside v)
    (hstep : driven.step e v = some v') : v'.Covers := by
  have hlength := ((staysInside_iff hcovers e).mpr h).2 v' hstep
  have hcapacity : v'.capacity = v.capacity := by
    cases e with
    | store off val =>
        cases hstep
        exact (store_kept v off val).2
    | serve ram base =>
        obtain ⟨⟨_, ram'⟩, hserve, rfl⟩ := Option.map_eq_some_iff.mp hstep
        obtain ⟨disk, ram₁, hreq, rfl, -, -⟩ := serveNext_returned hserve
        rfl
  intro disk' hdisk'
  rw [fileLength, fileLength, hdisk'] at hlength
  obtain ⟨disk, hdisk, heq⟩ := Option.map_eq_some_iff.mp hlength.symm
  rw [hcapacity]
  exact Nat.le_trans (hcovers disk hdisk) (Nat.le_of_eq heq)

end Runs

/-- Requests stay inside the capacity, and the file keeps its length, exactly while each request
that leaves the capacity fails before it changed the file. -/
theorem inside_capacity_iff (disk : Option Disk) (events : List Event) :
    (∀ v ram base head, Contained v ram base head ↔ FailsOutside v ram base head) ∧
      (driven.Along StaysInside events (new disk) ↔
        driven.Along (fun v e => e.Served FailsOutside v) events (new disk)) :=
  ⟨contained_iff, System.along_congr_while
    (fun _ _ _ hcovers h hstep => Covers.step hcovers h hstep)
    (fun _ e hcovers => staysInside_iff hcovers e) events (new_covers disk)⟩

/-! ### A write to a sector that is not there -/

/-- A disk of one sector, with a queue that is ready and has its table and its available ring. -/
def queuedBlk : VirtioBlk :=
  { new (some ⟨List.replicate 512 0, 0⟩) with
    queueReady := 1
    descAddr := 0x8000_0000
    availAddr := 0x8000_2000 }

/-- A request that writes one byte to the second sector. -/
def beyondRam : Ram :=
  { chainRam 2 with byte := Function.update (chainRam 2).byte 0x1008 1 }

theorem beyond_takes : queuedBlk.Takes beyondRam 0x8000_0000 0 ⟨0x8000_1000, 1, 1⟩
    [⟨0x8000_1100, 1, 1⟩] ⟨0x8000_1200, 1, 2⟩ tOut 1 :=
  ⟨by decide, by decide, by decide⟩

/-- The write is served, and the file gets longer. -/
theorem write_beyond_capacity :
    ¬ ∀ disk events, driven.Along StaysInside events (new disk) := by
  intro h
  have hrun : driven.Along StaysInside [.store 0x080 0x8000_0000, .store 0x090 0x8000_2000,
      .store 0x044 1, .serve beyondRam 0x8000_0000] (new (some ⟨List.replicate 512 0, 0⟩)) := h _ _
  have hserved : StaysInside queuedBlk (.serve beyondRam 0x8000_0000) :=
    (((hrun.2 _ rfl).2 _ rfl).2 _ rfl).1
  have hhead : queuedBlk.headAt 0x8000_0000 beyondRam.byte queuedBlk.lastAvailIdx = 0 := by decide
  have hcontained : Contained queuedBlk beyondRam 0x8000_0000 0 := hhead ▸ hserved.1
  have hout : OutOfRange queuedBlk [⟨0x8000_1100, 1, 1⟩] 1 := by
    have hcapacity : queuedBlk.capacity = 1 := by
      simp only [queuedBlk, new, List.length_replicate]
      rfl
    rw [OutOfRange, hcapacity]
    decide
  have hfails := (beyond_takes.refuses_iff.mp (hcontained _ _ _ _ _ beyond_takes hout)).2 _ rfl
  rw [Fails, if_neg (by decide), if_pos rfl] at hfails
  rcases hfails with hfar | hstops
  · exact absurd hfar (by decide)
  · have hlies : Lies beyondRam 0x8000_0000 ⟨0x8000_1100, 1, 1⟩ := ⟨by decide, by decide⟩
    have haccepted (n : Nat) : (Act.write ⟨0x8000_1100, 1, 1⟩ 512).Accepted n :=
      Or.inr (by decide)
    have hrest : Stops beyondRam 0x8000_0000 .write _ _ [] _ :=
      (stops_cons_accepted hlies (haccepted _)).mp hstops
    exact not_stops_nil hrest

end VirtioBlk

end RiscvEmu
