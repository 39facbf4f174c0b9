import RiscvEmu.Execution.Aborts
import RiscvEmu.Lib.Scatter

/-!
# Where callouts and the interpreter go

The interpreter finds one place in each page of an access, in its load-store mode (`places`).  A
callout finds one place for the access as a whole, in the mode of the hart.

The load callout answers for the interpreter exactly when the word it finds, unless it finds none or
all ones, is the one at the places of the interpreter (`LoadAlike`).  The store callout stores for
the interpreter exactly when it goes to those places (`StoreAlike`): what is left of all values
tells where their bytes go.
-/

namespace RiscvEmu

namespace Bus

/-- The bus answers the bytes from `i` up to `i + n` of a value at the addresses that `f` gives, one
after the other, and the value has no more bytes. -/
def Spells (f : Nat → U64) : (n i : Nat) → U64 → Bus → Prop
  | 0, i, v, _ => ∀ l, i ≤ l → Bytes.byteAt v l = 0
  | n + 1, i, v, b => ∃ x b', load (f i) .b1 b = some (.ok x, b') ∧
      Bytes.byteAt x 0 = Bytes.byteAt v i ∧ Spells f n (i + 1) v b'

/-- The offset of a byte that lies in RAM. -/
def place (b : Bus) (pa : U64) : Option Nat :=
  match region pa, b.offset pa .b1 with
  | .ram, .ok off => some off
  | _, _ => none

theorem place_eq_some {b : Bus} {pa : U64} {o : Nat} :
    b.place pa = some o ↔ region pa = .ram ∧ b.offset pa .b1 = .ok o := by
  rw [place]
  constructor
  · intro h
    split at h
    · rename_i off hr ho
      cases h
      exact ⟨hr, ho⟩
    · cases h
  · rintro ⟨hr, ho⟩
    rw [hr, ho]

/-- What is placed depends on the placement of RAM only. -/
theorem place_congr {b b' : Bus} (hbase : b'.ramBase = b.ramBase) (hlen : b'.ram.len = b.ram.len)
    (pa : U64) : b'.place pa = b.place pa := by
  rw [place, place, offset_congr hbase hlen]

/-- What a store to a device leaves in RAM. -/
def Leaves (b : Bus) (pa : U64) (ram : Ram) : Prop :=
  (Notifies pa ∧ ∃ v, b.virtioBlk.processQueue b.ram b.ramBase = some (v, ram)) ∨
    (¬ Notifies pa ∧ ram = b.ram)

theorem Leaves.unique {b : Bus} {pa : U64} {ram ram' : Ram} (h : b.Leaves pa ram)
    (h' : b.Leaves pa ram') : ram = ram' := by
  rcases h with ⟨hn, v, hq⟩ | ⟨hn, rfl⟩
  · rcases h' with ⟨-, v', hq'⟩ | ⟨hnot, -⟩
    · rw [hq] at hq'
      cases hq'
      rfl
    · exact absurd hn hnot
  · rcases h' with ⟨hn', -⟩ | ⟨-, rfl⟩
    · exact absurd hn' hn
    · rfl

/-- A store to a device succeeds, whatever is stored, if it returns. -/
theorem store_device_iff {pa : U64} (width : Width) (v : U64) {b : Bus} {ram : Ram}
    (hr : region pa ≠ .ram) :
    (∃ b', store pa width v b = some (.ok (), b') ∧ b'.ram = ram) ↔ b.Leaves pa ram := by
  by_cases hn : Notifies pa
  · have hstore : store pa width v b = (b.virtioBlk.processQueue b.ram b.ramBase).map
        fun q => (.ok (), { b with virtioBlk := q.1, ram := q.2 }) := by
      rw [store, hn.1, hn.2]
      rfl
    rw [hstore, Leaves]
    constructor
    · rintro ⟨b', h, rfl⟩
      obtain ⟨⟨v', ram⟩, hq, hb⟩ := Option.map_eq_some_iff.mp h
      cases hb
      exact .inl ⟨hn, v', hq⟩
    · rintro (⟨-, v', hq⟩ | ⟨hnot, -⟩)
      · rw [hq]
        exact ⟨_, rfl, rfl⟩
      · exact absurd hn hnot
  · rw [Leaves]
    constructor
    · rintro ⟨b', h, rfl⟩
      exact .inr ⟨hn, (Mmu.store_device_keeps_ram h hr hn).1⟩
    · rintro (⟨hyes, -⟩ | ⟨-, rfl⟩)
      · exact absurd hyes hn
      · obtain ⟨r, b', h⟩ := store_returns width v b hn
        cases r with
        | error e => exact absurd (store_error h).1 hr
        | ok u => exact ⟨b', h, (Mmu.store_device_keeps_ram h hr hn).1⟩

end Bus

namespace Cpu

variable {c c₁ c₂ c' : Cpu} {mode : PrivMode} {va pa v val : U64} {width : Width}
  {access : AccessType} {p : U64 × U64}

/-! ## Places -/

/-- The places of an access: that of its address, and when it crosses that of the next page. -/
def places (mode : PrivMode) (va : U64) (width : Width) (access : AccessType) :
    Run Cpu Trap (U64 × U64) :=
  if pageOff va + width.bytes ≤ 0x1000 then do
    let pa ← translateOrTrap mode va access
    pure (pa, pa)
  else do
    let pa1 ← translateOrTrap mode va access
    let pa2 ← translateOrTrap mode (nextPage va) access
    pure (pa1, pa2)

/-- The bytes of an access in its first page. -/
def firstPart (va : U64) : Nat := 0x1000 - pageOff va

/-- Load from places. -/
def loadAt (va : U64) (width : Width) (p : U64 × U64) : Run Cpu Trap U64 :=
  if pageOff va + width.bytes ≤ 0x1000 then busLoad p.1 width ⟨5, va⟩
  else loadBytes p.1 va 0 (firstPart va) 0 0 >>=
    loadBytes p.2 (nextPage va) (firstPart va) (width.bytes - firstPart va) 0

/-- Store to places. -/
def storeAt (va : U64) (width : Width) (val : U64) (p : U64 × U64) : Run Cpu Trap Unit :=
  if pageOff va + width.bytes ≤ 0x1000 then busStore p.1 width val ⟨7, va⟩
  else storeBytes p.1 va 0 val (firstPart va) 0 >>= fun _ =>
    storeBytes p.2 (nextPage va) (firstPart va) val (width.bytes - firstPart va) 0

theorem mmuLoad_eq : mmuLoad mode va width = places mode va width .load >>= loadAt va width := by
  unfold mmuLoad places loadAt
  split <;> simp only [Run.bind_bind] <;> rfl

theorem mmuStore_eq :
    mmuStore mode va width val = places mode va width .store >>= storeAt va width val := by
  unfold mmuStore places storeAt
  split <;> simp only [Run.bind_bind] <;> rfl

/-! ## Loads -/

/-- The places of an access hold a word. -/
def Holds (b : Bus) (va : U64) (width : Width) (p : U64 × U64) (v : U64) : Prop :=
  if pageOff va + width.bytes ≤ 0x1000 then ∃ b', Bus.load p.1 width b = some (.ok v, b')
  else Bus.Spells (byteAddress p.1 p.2 (firstPart va)) width.bytes 0 v b

/-- The callout finds no word, or all ones, or the word at the places of the interpreter. -/
def LoadAlike (c : Cpu) (va : U64) (width : Width) : Prop :=
  ∀ rp c₂, places c.lsMode va width .load c = some (rp, c₂) →
    ∃ rj c₁, translate c.mode va .load c = some (rj, c₁) ∧
      ∀ pa v b, rj = .ok pa → Bus.load pa width c₁.bus = some (.ok v, b) → v ≠ u64Max →
        ∃ p, rp = .ok p ∧ Holds c₂.bus va width p v

theorem busLoad_some (pa : U64) (width : Width) (trap : Trap) (c : Cpu) :
    ∃ r c', busLoad pa width trap c = some (r, c') := by
  obtain ⟨r, b, hload⟩ := Bus.load_returns pa width c.bus
  exact ⟨_, _, Run.zoom_of_some hload⟩

theorem bind_some {α β : Type} {m : Run Cpu Trap α} {f : α → Run Cpu Trap β} {r : Except Trap α}
    (h : m c = some (r, c₁)) (hf : ∀ a c, ∃ r c', f a c = some (r, c')) :
    ∃ r c', (m >>= f) c = some (r, c') := by
  cases r with
  | error t => exact ⟨_, _, Run.bind_error h⟩
  | ok a =>
      rw [Run.bind_ok h]
      exact hf a c₁

theorem loadBytes_some (pa va : U64) (k : Nat) :
    ∀ (n i : Nat) (w : U64) (c : Cpu), ∃ r c', loadBytes pa va k n i w c = some (r, c')
  | 0, _, _, _ => ⟨_, _, rfl⟩
  | n + 1, i, _, c =>
      have ⟨_, _, hload⟩ := busLoad_some (pa + BitVec.ofNat 64 i) .b1 ⟨5, va + BitVec.ofNat 64 i⟩ c
      bind_some hload fun _ c => loadBytes_some pa va k n (i + 1) _ c

theorem loadAt_some (va : U64) (width : Width) (p : U64 × U64) (c : Cpu) :
    ∃ r c', loadAt va width p c = some (r, c') := by
  rw [loadAt]
  split
  · exact busLoad_some _ _ _ _
  · obtain ⟨r, c₁, hfirst⟩ := loadBytes_some p.1 va 0 (firstPart va) 0 0 c
    exact bind_some hfirst fun v c => loadBytes_some _ _ _ _ _ _ _

/-- Loading one more byte of a value, whose earlier bytes are there. -/
theorem loadByte_iff {f : Nat → U64} {n i : Nat} {w : U64} (trap : Trap)
    (rest : U64 → Run Cpu Trap U64) (hi : i < 8) (hw : ∀ l, i ≤ l → Bytes.byteAt w l = 0)
    (hrest : ∀ w c, (∀ l, i + 1 ≤ l → Bytes.byteAt w l = 0) →
      ((∃ c', rest w c = some (.ok v, c')) ↔
        (∀ l < i + 1, Bytes.byteAt v l = Bytes.byteAt w l) ∧ Bus.Spells f n (i + 1) v c.bus)) :
    (∃ c', (busLoad (f i) .b1 trap >>= fun x => rest (w ||| ((x &&& 0xff) <<< (i * 8)))) c =
        some (.ok v, c')) ↔
      (∀ l < i, Bytes.byteAt v l = Bytes.byteAt w l) ∧ Bus.Spells f (n + 1) i v c.bus := by
  have hput : ∀ (x : U64) l, Bytes.byteAt (w ||| ((x &&& 0xff) <<< (i * 8))) l =
      Bytes.byteAt w l ||| if l = i then Bytes.byteAt x 0 else 0 := by
    intro x l
    rw [Bytes.byteAt_or, Bytes.byteAt_shiftLeft_byte _ hi]
  have hlate : ∀ (x : U64) l, i + 1 ≤ l →
      Bytes.byteAt (w ||| ((x &&& 0xff) <<< (i * 8))) l = 0 := by
    intro x l hl
    rw [hput, hw l (by omega), if_neg (by omega)]
    rfl
  have hearly : ∀ x : U64, (∀ l < i + 1, Bytes.byteAt v l =
        Bytes.byteAt (w ||| ((x &&& 0xff) <<< (i * 8))) l) ↔
      (∀ l < i, Bytes.byteAt v l = Bytes.byteAt w l) ∧ Bytes.byteAt x 0 = Bytes.byteAt v i := by
    intro x
    have hlow : ∀ l < i, Bytes.byteAt (w ||| ((x &&& 0xff) <<< (i * 8))) l = Bytes.byteAt w l := by
      intro l hl
      rw [hput, if_neg (by omega)]
      exact BitVec.or_zero
    have hat : Bytes.byteAt (w ||| ((x &&& 0xff) <<< (i * 8))) i = Bytes.byteAt x 0 := by
      rw [hput, if_pos rfl, hw i (Nat.le_refl i)]
      exact BitVec.zero_or
    constructor
    · intro h
      refine ⟨fun l hl => (h l (by omega)).trans (hlow l hl), ?_⟩
      rw [h i (Nat.lt_succ_self i), hat]
    · rintro ⟨hbelow, hbyte⟩ l hl
      rcases Nat.lt_succ_iff_lt_or_eq.mp hl with hlt | rfl
      · rw [hlow l hlt, hbelow l hlt]
      · rw [hat, hbyte]
  constructor
  · rintro ⟨c', h⟩
    obtain ⟨x, c₁, hload, hnext⟩ := Run.bind_eq_ok h
    obtain ⟨r, b, hb, hr, rfl⟩ := busLoad_eq_some hload
    cases r with
    | error e => cases hr
    | ok x' =>
        cases hr
        obtain ⟨hbytes, hspells⟩ := (hrest _ _ (hlate x)).mp ⟨c', hnext⟩
        obtain ⟨hbelow, hbyte⟩ := (hearly x).mp hbytes
        exact ⟨hbelow, x, b, hb, hbyte, hspells⟩
  · rintro ⟨hbelow, x, b, hb, hbyte, hspells⟩
    have hload : busLoad (f i) .b1 trap c = some (.ok x, { c with bus := b }) :=
      Run.zoom_of_some hb
    rw [Run.bind_ok hload]
    exact (hrest _ _ (hlate x)).mpr ⟨(hearly x).mpr ⟨hbelow, hbyte⟩, hspells⟩

/-- The loads of the second part of an access. -/
theorem loadSecond_iff {f : Nat → U64} {k : Nat} (hf : ∀ j, f (k + j) = pa + BitVec.ofNat 64 j) :
    ∀ {n j : Nat} {w : U64} {c : Cpu}, k + j + n ≤ 8 →
      (∀ l, k + j ≤ l → Bytes.byteAt w l = 0) →
      ((∃ c', loadBytes pa va k n j w c = some (.ok v, c')) ↔
        (∀ l < k + j, Bytes.byteAt v l = Bytes.byteAt w l) ∧ Bus.Spells f n (k + j) v c.bus)
  | 0, j, w, c, _, hw => by
      constructor
      · rintro ⟨c', h⟩
        cases h
        exact ⟨fun _ _ => rfl, hw⟩
      · rintro ⟨hbelow, hspells⟩
        have hvw : w = v := Bytes.eq_of_byteAt fun l _ => by
          rcases Nat.lt_or_ge l (k + j) with hl | hl
          · exact (hbelow l hl).symm
          · rw [hw l hl, hspells l hl]
        rw [hvw]
        exact ⟨c, rfl⟩
  | n + 1, j, w, c, hfit, hw => by
      have hstep := loadByte_iff (f := f) (n := n) (c := c) (v := v)
        ⟨5, va + BitVec.ofNat 64 j⟩ (loadBytes pa va k n (j + 1)) (by omega) hw
        fun w c hw => loadSecond_iff hf (by omega) hw
      rw [hf] at hstep
      exact hstep

/-- The loads of both parts of an access. -/
theorem loadFirst_iff {f : Nat → U64} {k n : Nat} {pa1 pa2 : U64} (va va' : U64)
    (hfirst : ∀ j < k, f j = pa1 + BitVec.ofNat 64 j)
    (hsecond : ∀ j, f (k + j) = pa2 + BitVec.ofNat 64 j) (hfit : k + n ≤ 8) :
    ∀ {m j : Nat} {w : U64} {c : Cpu}, j + m = k → (∀ l, j ≤ l → Bytes.byteAt w l = 0) →
      ((∃ c', (loadBytes pa1 va 0 m j w >>= loadBytes pa2 va' k n 0) c = some (.ok v, c')) ↔
        (∀ l < j, Bytes.byteAt v l = Bytes.byteAt w l) ∧ Bus.Spells f (m + n) j v c.bus)
  | 0, j, w, c, hj, hw => by
      obtain rfl : j = k := by omega
      rw [Nat.zero_add]
      exact loadSecond_iff hsecond (by omega) hw
  | m + 1, j, w, c, hj, hw => by
      have hstep := loadByte_iff (f := f) (n := m + n) (c := c) (v := v)
        ⟨5, va + BitVec.ofNat 64 j⟩
        (fun w => loadBytes pa1 va 0 m (j + 1) w >>= loadBytes pa2 va' k n 0) (by omega) hw
        fun w c hw => loadFirst_iff va va' hfirst hsecond hfit (by omega) hw
      rw [hfirst j (by omega)] at hstep
      rw [loadBytes, Run.bind_bind, Nat.zero_add, Nat.succ_add]
      exact hstep

theorem byteAddress_second (pa1 pa2 : U64) (k j : Nat) :
    byteAddress pa1 pa2 k (k + j) = pa2 + BitVec.ofNat 64 j := by
  rw [byteAddress, if_neg (by omega), Nat.add_sub_cancel_left]

theorem byteAddress_zero (pa1 pa2 va : U64) : byteAddress pa1 pa2 (firstPart va) 0 = pa1 := by
  have hlt := pageOff_lt va
  rw [byteAddress, if_pos (by rw [firstPart]; omega)]
  exact BitVec.add_zero pa1

/-- Loading from places gives the word they hold. -/
theorem loadAt_ok_iff :
    (∃ c', loadAt va width p c = some (.ok v, c')) ↔ Holds c.bus va width p v := by
  have hw := width.bytes_le
  rw [loadAt, Holds]
  by_cases hfit : pageOff va + width.bytes ≤ 0x1000
  · rw [if_pos hfit, if_pos hfit]
    constructor
    · rintro ⟨c', h⟩
      obtain ⟨r, b, hb, hr, -⟩ := busLoad_eq_some h
      cases r with
      | error e => cases hr
      | ok v' =>
          cases hr
          exact ⟨b, hb⟩
    · rintro ⟨b, hb⟩
      exact ⟨_, Run.zoom_of_some hb⟩
  · obtain ⟨hpos, hlt, -⟩ := crossing_parts hfit
    have hwidth : firstPart va + (width.bytes - firstPart va) = width.bytes := by
      rw [firstPart]
      omega
    have hzero : ∀ l, 0 ≤ l → Bytes.byteAt 0 l = 0 := fun l _ => by simp [Bytes.byteAt]
    have hparts := loadFirst_iff (f := byteAddress p.1 p.2 (firstPart va)) (c := c) (v := v)
      (n := width.bytes - firstPart va) va (nextPage va) (fun j hj => if_pos hj)
      (byteAddress_second _ _ _) (by omega) (Nat.zero_add _) hzero
    rw [if_neg hfit, if_neg hfit, hparts, hwidth]
    exact and_iff_right fun l hl => absurd hl (Nat.not_lt_zero l)

/-- All ones answer every result. -/
theorem answers_max (r : Except Trap U64) : Answers u64Max r := by
  cases r with
  | ok v => exact .inr rfl
  | error t => rfl

/-- The load callout is the load of the interpreter exactly when it finds no word, or all ones, or
the word at the places of the interpreter. -/
theorem load_iff : (∀ r c', mmuLoad c.lsMode va width c = some (r, c') →
      ∃ j cj, jitLoad width va c = some (j, cj) ∧ Answers j r) ↔ LoadAlike c va width := by
  rw [mmuLoad_eq]
  constructor
  · intro hlaw rp c₂ hplaces
    obtain ⟨r, c', hload⟩ := bind_some hplaces (loadAt_some va width)
    obtain ⟨j, cj, hj, hans⟩ := hlaw r c' hload
    unfold jitLoad at hj
    cases ht : translate c.mode va .load c with
    | none => rw [ht] at hj; cases hj
    | some q =>
        obtain ⟨rj, c₁⟩ := q
        refine ⟨rj, c₁, rfl, ?_⟩
        rintro pa v b rfl hb hmax
        simp only [ht, hb] at hj
        obtain ⟨rfl, rfl⟩ := Prod.mk.inj (Option.some.inj hj)
        cases r with
        | error t => exact absurd hans hmax
        | ok v' =>
            obtain rfl : v = v' := Or.resolve_right hans hmax
            obtain ⟨p, c₃, hp, hat⟩ := Run.bind_eq_ok hload
            rw [hplaces] at hp
            cases hp
            exact ⟨p, rfl, loadAt_ok_iff.mp ⟨c', hat⟩⟩
  · intro halike r c' hload
    have hplaces : ∃ rp c₂, places c.lsMode va width .load c = some (rp, c₂) ∧
        ∀ p, rp = .ok p → loadAt va width p c₂ = some (r, c') := by
      rcases Run.bind_eq_some hload with ⟨p, c₂, hp, hat⟩ | ⟨t, hp, -⟩
      · exact ⟨_, c₂, hp, fun p' hp' => by cases hp'; exact hat⟩
      · exact ⟨_, c', hp, fun p' hp' => by cases hp'⟩
    obtain ⟨rp, c₂, hp, hat⟩ := hplaces
    obtain ⟨rj, c₁, ht, hall⟩ := halike rp c₂ hp
    simp only [jitLoad, ht]
    cases rj with
    | error f => exact ⟨_, _, rfl, answers_max r⟩
    | ok pa =>
        obtain ⟨r₁, b, hb⟩ := Bus.load_returns pa width c₁.bus
        simp only [hb]
        cases r₁ with
        | error e => exact ⟨_, _, rfl, answers_max r⟩
        | ok v =>
            refine ⟨_, _, rfl, ?_⟩
            by_cases hmax : v = u64Max
            · rw [hmax]
              exact answers_max r
            · obtain ⟨p, rfl, hholds⟩ := hall pa v b rfl hb hmax
              obtain ⟨c₃, hv⟩ := loadAt_ok_iff.mpr hholds
              rw [hat p rfl] at hv
              cases hv
              exact .inl rfl

/-! ## Stores -/

/-- The callout stores to RAM, and the places of the interpreter are those bytes.  Finding them
changes RAM nowhere else. -/
def SamePlace (c c₁ : Cpu) (va pa : U64) (width : Width) : Prop :=
  ∀ off, c₁.bus.offset pa width = .ok off →
    ∃ p c₂, places c.lsMode va width .store c = some (.ok p, c₂) ∧
      (∀ i < width.bytes, c₂.bus.place (byteAddress p.1 p.2 (firstPart va) i) = some (off + i)) ∧
      ∀ o, o < off ∨ off + width.bytes ≤ o → c₂.bus.ram.byte o = c₁.bus.ram.byte o

/-- The callout stores to a device, and so does the interpreter, which leaves RAM as the callout
does. -/
def BothDevices (c c₁ : Cpu) (va pa : U64) (width : Width) : Prop :=
  ∀ ram, c₁.bus.Leaves pa ram →
    ∃ p c₂, places c.lsMode va width .store c = some (.ok p, c₂) ∧
      (∀ i < width.bytes, i = 0 ∨ Crosses va width →
        region (byteAddress p.1 p.2 (firstPart va) i) ≠ .ram) ∧
      c₂.bus.Leaves p.1 ram

/-- The callout translates its address to none, or the interpreter stores where it does. -/
def StoreAlike (c : Cpu) (va : U64) (width : Width) : Prop :=
  ∀ pa c₁, translate c.mode va .store c = some (.ok pa, c₁) →
    if region pa = .ram then SamePlace c c₁ va pa width else BothDevices c c₁ va pa width

/-- A byte that is stored is put in its place. -/
theorem busStore_scatters {trap : Trap} {f : Nat → U64} {i : Nat} (hnot : ¬ Bus.Notifies (f i))
    (h : busStore (f i) .b1 ((val >>> (i * 8)) &&& 0xff) trap c = some (.ok (), c')) :
    Bytes.Scattered (fun l => c.bus.place (f l)) i (i + 1) val c.bus.ram.byte c'.bus.ram.byte := by
  obtain ⟨r, b, hs, hr, rfl⟩ := busStore_eq_some h
  by_cases hram : region (f i) = .ram
  · cases ho : c.bus.offset (f i) .b1 with
    | error e =>
        rw [Bus.store_ram_error _ hram ho] at hs
        cases hs
        cases hr
    | ok off =>
        rw [Bus.store_ram _ hram ho, show Width.b1.bytes = 1 from rfl, Bus.setBytes_mask_one] at hs
        cases hs
        exact .one (Bus.place_eq_some.mpr ⟨hram, ho⟩)
  · have hkeep := (Mmu.store_device_keeps_ram hs hram hnot).1
    change Bytes.Scattered _ i (i + 1) val c.bus.ram.byte b.ram.byte
    rw [hkeep]
    refine .none ?_
    rw [Bus.place]
    split
    · exact absurd ‹_› hram
    · rfl

/-- The bytes of a part of an access are put in their places. -/
theorem storeBytes_scatters {f : Nat → U64} {k : Nat} :
    ∀ {n i : Nat} {c : Cpu}, (∀ j < i + n, f (k + j) = pa + BitVec.ofNat 64 j) →
      (∀ j < n, ¬ Bus.Notifies (f (k + i + j))) →
      storeBytes pa va k val n i c = some (.ok (), c') →
      Bytes.Scattered (fun l => c.bus.place (f l)) (k + i) (k + i + n) val c.bus.ram.byte
        c'.bus.ram.byte
  | 0, i, c, _, _, h => by
      cases h
      exact .refl _ _
  | n + 1, i, c, hf, hnot, h => by
      obtain ⟨_, c₁, hs, hrest⟩ := Run.bind_eq_ok h
      obtain ⟨hbase, hlen⟩ := busStore_placement hs
      rw [← hf i (by omega)] at hs
      have hone := busStore_scatters (hnot 0 (Nat.succ_pos n)) hs
      have hothers := storeBytes_scatters (fun j hj => hf j (by omega)) (fun j hj => by
        have hnext := hnot (j + 1) (by omega)
        rwa [show k + i + (j + 1) = k + (i + 1) + j by omega] at hnext) hrest
      simp only [Bus.place_congr hbase hlen] at hothers
      rw [show k + (i + 1) = k + i + 1 by omega] at hothers
      rw [show k + i + (n + 1) = k + i + 1 + n by omega]
      exact hone.trans hothers (by omega) (by omega)

/-- Addresses in the page of an address of RAM are in RAM. -/
theorem region_add {i : Nat} (hr : region pa = .ram) (hi : pa.toNat % 4096 + i < 4096) :
    region (pa + BitVec.ofNat 64 i) = .ram := by
  have hlt := pa.isLt
  have hadd : (pa + BitVec.ofNat 64 i).toNat = pa.toNat + i := by
    rw [BitVec.toNat_add, BitVec.toNat_ofNat]
    omega
  simp only [region, BitVec.le_def, hadd, BitVec.toNat_ofNat] at hr ⊢
  split_ifs at hr ⊢ <;> first | rfl | omega

/-- The places of an access are in their pages where its bytes are. -/
structure InPages (va : U64) (width : Width) (p : U64 × U64) : Prop where
  first : p.1.toNat % 4096 = pageOff va
  second : Crosses va width → p.2.toNat % 4096 = 0

theorem places_inPages (h : places mode va width access c = some (.ok p, c')) :
    InPages va width p := by
  rw [places] at h
  split at h
  · obtain ⟨pa, c₁, ht, hpure⟩ := Run.bind_eq_ok h
    cases hpure
    exact ⟨(translateOrTrap_pageOff ht).trans (pageOff_eq va).symm,
      fun hcross => absurd ‹_› hcross⟩
  · obtain ⟨pa1, c₁, ht1, hrest⟩ := Run.bind_eq_ok h
    obtain ⟨pa2, c₂, ht2, hpure⟩ := Run.bind_eq_ok hrest
    cases hpure
    exact ⟨(translateOrTrap_pageOff ht1).trans (pageOff_eq va).symm,
      fun _ => (translateOrTrap_pageOff ht2).trans (nextPage_pageOff va)⟩

theorem places_placement (h : places mode va width access c = some (.ok p, c')) :
    c'.bus.ramBase = c.bus.ramBase ∧ c'.bus.ram.len = c.bus.ram.len := by
  rw [places] at h
  split at h
  · obtain ⟨pa, c₁, ht, hpure⟩ := Run.bind_eq_ok h
    cases hpure
    exact translateOrTrap_placement ht
  · obtain ⟨pa1, c₁, ht1, hrest⟩ := Run.bind_eq_ok h
    obtain ⟨pa2, c₂, ht2, hpure⟩ := Run.bind_eq_ok hrest
    cases hpure
    have h1 := translateOrTrap_placement ht1
    have h2 := translateOrTrap_placement ht2
    exact ⟨h2.1.trans h1.1, h2.2.trans h1.2⟩

namespace InPages

variable (hp : InPages va width p)

include hp

/-- No byte of an access that crosses notifies. -/
theorem not_notifies (hcross : Crosses va width) {i : Nat} (hi : i < width.bytes) :
    ¬ Bus.Notifies (byteAddress p.1 p.2 (firstPart va) i) := by
  have hw := width.bytes_le
  have h1 := hp.first
  have h2 := hp.second hcross
  have hlt := pageOff_lt va
  rw [Crosses] at hcross
  intro hnot
  have hoff := hnot.pageOff
  rw [byteAddress] at hoff
  split at hoff
  · rw [add_pageOff] at hoff
    rw [firstPart] at *
    omega
  · rw [add_pageOff] at hoff
    rw [firstPart] at *
    omega

/-- An access that crosses puts its bytes in their places. -/
theorem scatters (hcross : Crosses va width)
    (h : storeAt va width val p c = some (.ok (), c')) :
    Bytes.Scattered (fun i => c.bus.place (byteAddress p.1 p.2 (firstPart va) i)) 0 width.bytes val
        c.bus.ram.byte c'.bus.ram.byte ∧
      ∀ i < width.bytes, c.bus.Takes (byteAddress p.1 p.2 (firstPart va) i) := by
  have hfit : firstPart va + (width.bytes - firstPart va) = width.bytes := by
    have hcr := hcross
    have hlt := pageOff_lt va
    have hw := width.bytes_le
    rw [Crosses] at hcr
    rw [firstPart]
    omega
  rw [storeAt, if_neg hcross] at h
  obtain ⟨m, hstops⟩ := storeParts_stops h
  obtain ⟨-, rfl⟩ | ⟨⟨t, ht⟩, -⟩ := hstops.ended
  · rw [hfit] at hstops
    refine ⟨?_, hstops.taken⟩
    obtain ⟨_, c₁, h₁, h₂⟩ := Run.bind_eq_ok h
    obtain ⟨m₁, hs₁⟩ := storeBytes_stops h₁
    have hfirst := storeBytes_scatters (f := byteAddress p.1 p.2 (firstPart va)) (k := 0)
      (fun j hj => by rw [Nat.zero_add, byteAddress, if_pos (by omega)])
      (fun j hj => hp.not_notifies hcross (by omega)) h₁
    have hsecond := storeBytes_scatters (f := byteAddress p.1 p.2 (firstPart va))
      (k := firstPart va) (fun j _ => byteAddress_second _ _ _ _)
      (fun j hj => hp.not_notifies hcross (by omega)) h₂
    simp only [Bus.place_congr hs₁.base hs₁.len, Nat.add_zero, hfit] at hsecond
    simp only [Nat.add_zero, Nat.zero_add] at hfirst
    exact hfirst.trans hsecond (Nat.zero_le _) (by omega)
  · cases ht

/-- A word that is stored to RAM puts its bytes in their places. -/
theorem word_scatters (hin : ¬ Crosses va width) (hr : region p.1 = .ram)
    (h : storeAt va width val p c = some (.ok (), c')) :
    Bytes.Scattered (fun i => c.bus.place (byteAddress p.1 p.2 (firstPart va) i)) 0 width.bytes val
        c.bus.ram.byte c'.bus.ram.byte ∧
      ∀ i < width.bytes, c.bus.Takes (byteAddress p.1 p.2 (firstPart va) i) := by
  have hfit := Decidable.not_not.mp hin
  rw [storeAt, if_pos hfit] at h
  obtain ⟨off, ho, hbus⟩ := busStore_ram_ok hr h
  have hplace : ∀ i < width.bytes,
      c.bus.place (byteAddress p.1 p.2 (firstPart va) i) = some (off + i) := by
    intro i hi
    have h1 := hp.first
    rw [byteAddress, if_pos (by rw [firstPart]; omega), Bus.place_eq_some]
    exact ⟨region_add hr (by omega), Bus.offset_byte ho hi⟩
  rw [hbus]
  exact ⟨.run hplace, fun i hi _ => ⟨_, (Bus.place_eq_some.mp (hplace i hi)).2⟩⟩

/-- A store whose places are consecutive bytes of RAM. -/
theorem storeAt_run (val : U64) {off : Nat}
    (hplace : ∀ i < width.bytes,
      c.bus.place (byteAddress p.1 p.2 (firstPart va) i) = some (off + i)) :
    storeAt va width val p c =
      some (.ok (), { c with bus := c.bus.setBytes off width.bytes val }) := by
  have h1 := hp.first
  rw [storeAt]
  split
  · rename_i hfit
    have hrun : RunAt c.bus p.1 off width.bytes 0 := by
      intro j hj
      have hj' := Bus.place_eq_some.mp (hplace j hj)
      rw [byteAddress, if_pos (by rw [firstPart]; omega)] at hj'
      rw [Nat.zero_add]
      exact hj'
    obtain ⟨hr, ho⟩ := hrun.whole (by omega)
    exact Run.zoom_of_some (Bus.store_ram val hr ho)
  · rename_i hcross
    have hcr : Crosses va width := hcross
    obtain ⟨hpos, hlt, -⟩ := crossing_parts hcr
    have hrun₁ : RunAt c.bus p.1 off (firstPart va) 0 := by
      intro j hj
      have hj' := Bus.place_eq_some.mp (hplace j (by rw [firstPart] at hj; omega))
      rw [byteAddress, if_pos hj] at hj'
      rw [Nat.zero_add]
      exact hj'
    have hrun₂ : RunAt c.bus p.2 (off + firstPart va) (width.bytes - firstPart va) 0 := by
      intro j hj
      have hj' := Bus.place_eq_some.mp (hplace (firstPart va + j) (by omega))
      rw [byteAddress_second] at hj'
      rw [Nat.zero_add, Nat.add_assoc]
      exact hj'
    refine (storeParts_ram hrun₁ hrun₂).trans ?_
    rw [Bus.setBytes_append]
    rw [show firstPart va + (width.bytes - firstPart va) = width.bytes by rw [firstPart]; omega]

end InPages

/-- What a store does that is not made to RAM: it leaves RAM as a store to its device does. -/
theorem storeAt_device (hin : ¬ Crosses va width) (hr : region p.1 ≠ .ram) {ram : Ram} :
    (∃ c', storeAt va width val p c = some (.ok (), c') ∧ c'.bus.ram = ram) ↔
      c.bus.Leaves p.1 ram := by
  rw [storeAt, if_pos (Decidable.not_not.mp hin), ← Bus.store_device_iff width val hr]
  constructor
  · rintro ⟨c', h, rfl⟩
    obtain ⟨r, b, hb, hr', rfl⟩ := busStore_eq_some h
    cases r with
    | error e => cases hr'
    | ok u => exact ⟨b, hb, rfl⟩
  · rintro ⟨b, hb, rfl⟩
    exact ⟨_, Run.zoom_of_some hb, rfl⟩

/-- The stores of bytes to devices leave RAM alone. -/
theorem storeBytes_devices (pa va val : U64) (k : Nat) :
    ∀ {n i : Nat} {c : Cpu}, (∀ j < n, region (pa + BitVec.ofNat 64 (i + j)) ≠ .ram ∧
        ¬ Bus.Notifies (pa + BitVec.ofNat 64 (i + j))) →
      ∃ c', storeBytes pa va k val n i c = some (.ok (), c') ∧ c'.bus.ram = c.bus.ram
  | 0, _, c, _ => ⟨c, rfl, rfl⟩
  | n + 1, i, c, hdev => by
      obtain ⟨hr, hnot⟩ := hdev 0 (Nat.succ_pos n)
      obtain ⟨b, hb, hram⟩ := (Bus.store_device_iff .b1
        ((val >>> ((k + i) * 8)) &&& 0xff) hr).mpr (.inr ⟨hnot, rfl⟩)
      have hs : busStore (pa + BitVec.ofNat 64 i) .b1 ((val >>> ((k + i) * 8)) &&& 0xff)
          ⟨7, va + BitVec.ofNat 64 i⟩ c = some (.ok (), { c with bus := b }) := Run.zoom_of_some hb
      obtain ⟨c', hrest, hkeep⟩ := storeBytes_devices pa va val k (n := n) (i := i + 1)
        (c := { c with bus := b }) fun j hj => by
          have hnext := hdev (j + 1) (by omega)
          rwa [show i + (j + 1) = i + 1 + j by omega] at hnext
      exact ⟨c', (Run.bind_ok hs).trans hrest, hkeep.trans hram⟩

/-- A store that crosses and whose bytes go to devices succeeds, and leaves RAM alone. -/
theorem storeAt_devices (val : U64) (hp : InPages va width p) (hcross : Crosses va width)
    (hdev : ∀ i < width.bytes, region (byteAddress p.1 p.2 (firstPart va) i) ≠ .ram) :
    ∃ c', storeAt va width val p c = some (.ok (), c') ∧ c'.bus.ram = c.bus.ram := by
  obtain ⟨hpos, hlt, -⟩ := crossing_parts hcross
  obtain ⟨c₁, h₁, hram₁⟩ := storeBytes_devices p.1 va val 0 (n := firstPart va)
    (i := 0) (c := c) fun j hj => by
      have hw : j < width.bytes := by
        rw [firstPart] at hj
        omega
      have hr := hdev j hw
      have hnot := hp.not_notifies hcross hw
      rw [byteAddress, if_pos hj] at hr hnot
      rw [Nat.zero_add]
      exact ⟨hr, hnot⟩
  obtain ⟨c₂, h₂, hram₂⟩ := storeBytes_devices p.2 (nextPage va) val (firstPart va)
    (n := width.bytes - firstPart va) (i := 0) (c := c₁) fun j hj => by
      have hr := hdev (firstPart va + j) (by omega)
      have hnot := hp.not_notifies hcross (i := firstPart va + j) (by omega)
      rw [byteAddress_second] at hr hnot
      rw [Nat.zero_add]
      exact ⟨hr, hnot⟩
  refine ⟨c₂, ?_, hram₂.trans hram₁⟩
  rw [storeAt, if_neg hcross]
  exact (Run.bind_ok h₁).trans h₂

/-- A store callout that succeeds. -/
theorem jitStore_of {b : Bus} (ht : translate c.mode va .store c = some (.ok pa, c₁))
    (hs : c₁.bus.store pa width val = some (.ok (), b)) :
    jitStore width va val c = some (0, { c₁ with bus := b }) := by
  simp only [jitStore, ht, hs]

theorem translate_placed {r : Except MmuFault U64}
    (h : translate mode va access c = some (r, c')) :
    c'.bus.ramBase = c.bus.ramBase ∧ c'.bus.ram.len = c.bus.ram.len := by
  obtain ⟨r₀, s, hs, -, rfl⟩ := Run.zoom_eq_some h
  exact Mmu.translate_placement hs

/-- The places of the stores of all values. -/
theorem places_of_stores {ram : U64 → Ram}
    (h : ∀ val, ∃ c', mmuStore mode va width val c = some (.ok (), c') ∧ c'.bus.ram = ram val) :
    ∃ p c₂, places mode va width .store c = some (.ok p, c₂) ∧
      ∀ val, ∃ c', storeAt va width val p c₂ = some (.ok (), c') ∧ c'.bus.ram = ram val := by
  obtain ⟨c', hstore, -⟩ := h 0
  rw [mmuStore_eq] at hstore
  obtain ⟨p, c₂, hplaces, -⟩ := Run.bind_eq_ok hstore
  refine ⟨p, c₂, hplaces, fun val => ?_⟩
  obtain ⟨c', hstore, hram⟩ := h val
  rw [mmuStore_eq, Run.bind_ok hplaces] at hstore
  exact ⟨c', hstore, hram⟩

/-- Stores that are not made to one device put their bytes in their places. -/
theorem scatters_of_stores {ram : U64 → Ram} (hp : InPages va width p)
    (hdev : ¬ (¬ Crosses va width ∧ region p.1 ≠ .ram))
    (h : ∀ val, ∃ c', storeAt va width val p c = some (.ok (), c') ∧ c'.bus.ram = ram val) :
    (∀ val, Bytes.Scattered (fun i => c.bus.place (byteAddress p.1 p.2 (firstPart va) i)) 0
        width.bytes val c.bus.ram.byte (ram val).byte) ∧
      ∀ i < width.bytes, c.bus.Takes (byteAddress p.1 p.2 (firstPart va) i) := by
  have hall : ∀ val, Bytes.Scattered
        (fun i => c.bus.place (byteAddress p.1 p.2 (firstPart va) i)) 0 width.bytes val
        c.bus.ram.byte (ram val).byte ∧
      ∀ i < width.bytes, c.bus.Takes (byteAddress p.1 p.2 (firstPart va) i) := by
    intro val
    obtain ⟨c', hstore, hram⟩ := h val
    rw [← hram]
    by_cases hcross : Crosses va width
    · exact hp.scatters hcross hstore
    · exact hp.word_scatters hcross (not_not.mp fun hr => hdev ⟨hcross, hr⟩) hstore
  exact ⟨fun val => (hall val).1, (hall 0).2⟩

/-- If all values are left as a whole, the places of their bytes are those bytes of RAM. -/
theorem samePlace_of_stores {m : Nat → U8} {off : Nat} {ram : U64 → Ram}
    (hp : InPages va width p) (hram : ∀ val, (ram val).byte = Bytes.writeLe m off width.bytes val)
    (h : ∀ val, ∃ c', storeAt va width val p c = some (.ok (), c') ∧ c'.bus.ram = ram val) :
    (∀ i < width.bytes,
        c.bus.place (byteAddress p.1 p.2 (firstPart va) i) = some (off + i)) ∧
      ∀ o, o < off ∨ off + width.bytes ≤ o → c.bus.ram.byte o = m o := by
  by_cases hdev : ¬ Crosses va width ∧ region p.1 ≠ .ram
  · -- a device leaves the same for all values
    have hleaves : ∀ val, c.bus.Leaves p.1 (ram val) := fun val =>
      (storeAt_device hdev.1 hdev.2).mp (h val)
    have hsame := (hleaves (Bytes.ofBytes fun _ => 0)).unique (hleaves (Bytes.ofBytes fun _ => 1))
    have hbyte : ∀ x, (ram (Bytes.ofBytes fun _ => x)).byte off = x := by
      intro x
      have hin := Bytes.writeLe_inside m (o := off) (Bytes.ofBytes fun _ => x) width.bytes_pos
      rw [Nat.add_zero, Bytes.byteAt_ofBytes _ (by decide)] at hin
      rw [hram, hin]
    have heq := hbyte 0
    rw [hsame, hbyte] at heq
    exact absurd heq (by decide)
  · refine Bytes.scattered_run width.bytes_le fun val => ?_
    rw [← hram]
    exact (scatters_of_stores hp hdev h).1 val

/-- If the same is left for all values, the places of their bytes are in devices. -/
theorem bothDevices_of_stores {ram : Ram} (hp : InPages va width p)
    (hlen : ram.len = c.bus.ram.len)
    (h : ∀ val, ∃ c', storeAt va width val p c = some (.ok (), c') ∧ c'.bus.ram = ram) :
    (∀ i < width.bytes, i = 0 ∨ Crosses va width →
        region (byteAddress p.1 p.2 (firstPart va) i) ≠ .ram) ∧ c.bus.Leaves p.1 ram := by
  by_cases hdev : ¬ Crosses va width ∧ region p.1 ≠ .ram
  · refine ⟨fun i _ hi => ?_, (storeAt_device hdev.1 hdev.2).mp (h 0)⟩
    obtain rfl := hi.resolve_right hdev.1
    rw [byteAddress_zero]
    exact hdev.2
  · obtain ⟨hscatters, htakes⟩ := scatters_of_stores hp hdev h
    obtain ⟨hnone, hkeep⟩ := Bytes.scattered_nowhere width.bytes_le hscatters
    have hregion : ∀ i < width.bytes, region (byteAddress p.1 p.2 (firstPart va) i) ≠ .ram := by
      intro i hi hr
      obtain ⟨off, ho⟩ := htakes i hi hr
      have hplace := Bus.place_eq_some.mpr ⟨hr, ho⟩
      rw [hnone i hi] at hplace
      cases hplace
    have hfirst := hregion 0 width.bytes_pos
    rw [byteAddress_zero] at hfirst
    have hcross : Crosses va width := not_not.mp fun hin => hdev ⟨hin, hfirst⟩
    have hnot := hp.not_notifies hcross width.bytes_pos
    rw [byteAddress_zero] at hnot
    refine ⟨fun i hi _ => hregion i hi, .inr ⟨hnot, ?_⟩⟩
    cases ram
    rw [Ram.mk.injEq]
    exact ⟨hkeep, hlen⟩

/-- A store to the bytes of RAM that the callout stores to leaves what the callout leaves. -/
theorem SamePlace.store {off : Nat} (h : SamePlace c c₁ va pa width)
    (hlen : c₁.bus.ram.len = c.bus.ram.len) (ho : c₁.bus.offset pa width = .ok off) (val : U64) :
    ∃ c', mmuStore c.lsMode va width val c = some (.ok (), c') ∧
      c'.bus.ram = (c₁.bus.setBytes off width.bytes val).ram := by
  obtain ⟨p, c₂, hplaces, hplace, hkeep⟩ := h off ho
  have hlen₂ := (places_placement hplaces).2
  have hstore := (places_inPages hplaces).storeAt_run val hplace
  rw [mmuStore_eq, Run.bind_ok hplaces]
  refine ⟨_, hstore, ?_⟩
  change Ram.mk _ _ = Ram.mk _ _
  rw [Ram.mk.injEq]
  refine ⟨funext fun o => ?_, hlen₂.trans hlen.symm⟩
  by_cases hin : o < off ∨ off + width.bytes ≤ o
  · rw [Bytes.writeLe_outside _ _ hin, Bytes.writeLe_outside _ _ hin, hkeep o hin]
  · obtain ⟨i, rfl⟩ := Nat.exists_eq_add_of_le (show off ≤ o by omega)
    rw [Bytes.writeLe_inside _ _ (by omega), Bytes.writeLe_inside _ _ (by omega)]

/-- A store to devices leaves the RAM that a callout to a device leaves. -/
theorem BothDevices.store {ram : Ram} (h : BothDevices c c₁ va pa width)
    (hleaves : c₁.bus.Leaves pa ram) (val : U64) :
    ∃ c', mmuStore c.lsMode va width val c = some (.ok (), c') ∧ c'.bus.ram = ram := by
  obtain ⟨p, c₂, hplaces, hregion, hleft⟩ := h _ hleaves
  rw [mmuStore_eq, Run.bind_ok hplaces]
  have hfirst := hregion 0 width.bytes_pos (.inl rfl)
  rw [byteAddress_zero] at hfirst
  by_cases hcross : Crosses va width
  · obtain ⟨c', hstore, hram⟩ := storeAt_devices (c := c₂) val
      (places_inPages hplaces) hcross fun i hi => hregion i hi (.inr hcross)
    refine ⟨c', hstore, hram.trans ?_⟩
    have hnot := (places_inPages hplaces).not_notifies hcross width.bytes_pos
    rw [byteAddress_zero] at hnot
    exact hleft.elim (fun hyes => absurd hyes.1 hnot) fun hkeep => hkeep.2.symm
  · exact (storeAt_device hcross hfirst).mpr hleft

/-- The store callout is the store of the interpreter exactly when it goes to the places of the
interpreter. -/
theorem store_iff : (∀ val cj, jitStore width va val c = some (0, cj) →
      ∃ c', mmuStore c.lsMode va width val c = some (.ok (), c') ∧ c'.bus.ram = cj.bus.ram) ↔
    StoreAlike c va width := by
  constructor
  · intro hlaw pa c₁ ht
    obtain ⟨-, hlen₁⟩ := translate_placed ht
    split
    · rename_i hr
      intro off ho
      have hall : ∀ val, ∃ c', mmuStore c.lsMode va width val c = some (.ok (), c') ∧
          c'.bus.ram = (c₁.bus.setBytes off width.bytes val).ram := fun val =>
        hlaw val _ (jitStore_of ht (Bus.store_ram val hr ho))
      obtain ⟨p, c₂, hplaces, hstores⟩ := places_of_stores hall
      obtain ⟨hplace, hkeep⟩ := samePlace_of_stores (m := c₁.bus.ram.byte)
        (places_inPages hplaces) (fun _ => rfl) hstores
      exact ⟨p, c₂, hplaces, hplace, hkeep⟩
    · rename_i hr
      intro ram hleaves
      have hall : ∀ val, ∃ c', mmuStore c.lsMode va width val c = some (.ok (), c') ∧
          c'.bus.ram = ram := by
        intro val
        obtain ⟨b, hb, rfl⟩ := (Bus.store_device_iff width val hr).mpr hleaves
        exact hlaw val _ (jitStore_of ht hb)
      obtain ⟨p, c₂, hplaces, hstores⟩ := places_of_stores hall
      have hlen : ram.len = c₂.bus.ram.len := by
        obtain ⟨b, hb, rfl⟩ := (Bus.store_device_iff width 0 hr).mpr hleaves
        rw [(Bus.store_placement hb).2, hlen₁, (places_placement hplaces).2]
      obtain ⟨hregion, hleft⟩ := bothDevices_of_stores (places_inPages hplaces) hlen hstores
      exact ⟨p, c₂, hplaces, hregion, hleft⟩
  · intro halike val cj hj
    obtain ⟨pa, c₁, b, ht, hs, rfl⟩ := jitStore_eq_zero hj
    obtain ⟨-, hlen₁⟩ := translate_placed ht
    have hcond := halike pa c₁ ht
    split at hcond
    · rename_i hr
      cases ho : c₁.bus.offset pa width with
      | error e =>
          rw [Bus.store_ram_error val hr ho] at hs
          cases hs
      | ok off =>
          rw [Bus.store_ram val hr ho] at hs
          cases hs
          exact hcond.store hlen₁ ho val
    · rename_i hr
      exact hcond.store ((Bus.store_device_iff width val hr).mp ⟨b, hs, rfl⟩) val

/-- M-mode firmware that makes its loads and stores in U-mode, under empty page tables. -/
def mprvHart : Cpu :=
  { machineHart with
    csr := { Csr.new with mstatus := 0x2_0000, satp := 0x8000_0000_0008_0000 } }

end Cpu

end RiscvEmu
