import RiscvEmu.Refinement.Fetching

/-!
# Blocks as executions of fetched encodings

A block whose encodings were fetched executes them, one after the other, up to the instruction that
leaves it or to a callout that does not succeed (`runRaws_trail`).  Compiling fetches the encodings
of a block, one directly behind the other (`compile_trail`).
-/

namespace RiscvEmu.Jit

open Fetching (Next executed executed_add)

variable {h : Host} {fpu : Fpu} {c c' d : Cpu} {o : Outcome} {code : Code} {pc size : U64}
  {raw4 : U32} {raws : List U32} {inst : Instruction} {w : Fetching}

/-! ## One instruction -/

/-- The emitter has code for encodings the decoder rejects only where they are additions to
register 0. -/
theorem Handled.hint (hhandled : Handled h pc raw4) {tval : U64}
    (hdec : (Cpu.decodeFetched raw4).2 = .error tval) :
    raw4 &&& 0x3 ≠ 0x3 ∧ Rvc.AddHint (raw4.setWidth 16) := by
  rw [Handled] at hhandled
  by_cases hquad : raw4 &&& 0x3 ≠ 0x3
  · refine ⟨hquad, ?_⟩
    rw [emitRaw_compressed hquad] at hhandled
    by_contra hhint
    obtain ⟨inst, hinst⟩ := (emitRvc_corresponds h pc hhint).accepted hhandled
    rw [Cpu.decodeFetched, if_pos hquad, decodeRvc, hinst] at hdec
    cases hdec
  · cases hfull : decode raw4 with
    | error e =>
        rw [emitRaw_undecoded hquad hfull] at hhandled
        exact absurd rfl hhandled
    | ok inst =>
        rw [Cpu.decodeFetched, if_neg hquad, hfull] at hdec
        cases hdec

theorem instOf_error {tval : U64} (hdec : (Cpu.decodeFetched raw4).2 = .error tval) :
    instOf raw4 = .fence := by
  rw [instOf, hdec]

/-- What a trail that carries out code leads to: the hart behind the instruction, at the address it
leaves for, or in front of it. -/
def Outcome.At (next size : U64) (d : Cpu) : Outcome → Prop
  | .next c => d = atInst c next size
  | .leave c target => d = atInst c target size
  | .fault c => ∃ n, d = Cpu.sized n c
  | .abort => False

/-- The number of instructions the code of one executes. -/
def Outcome.count : Outcome → Nat
  | .fault _ => 0
  | _ => 1

/-- The code of an instruction that was fetched carries out a step of the machine. -/
theorem native_trail (fpu : Fpu) (hhandled : Handled h pc raw4) (heven : IsEven pc)
    (hw : w.cpu = atInst c pc size) (hseen : w.seen pc raw4)
    (hends : native (instOf raw4) pc (pc + sizeOf raw4) c ≠ .abort) :
    ∃ d, Next fpu (executed (native (instOf raw4) pc (pc + sizeOf raw4) c).count) w
        { w with cpu := d } ∧
      (native (instOf raw4) pc (pc + sizeOf raw4) c).At (pc + sizeOf raw4) (sizeOf raw4) d := by
  have hpc : w.cpu.pc = pc := by rw [hw]; rfl
  have hseen' : w.seen w.cpu.pc raw4 := by rw [hpc]; exact hseen
  cases hdec : (Cpu.decodeFetched raw4).2 with
  | error tval =>
      obtain ⟨hquad, hhint⟩ := hhandled.hint hdec
      have hnext := @Next.hint fpu w raw4 hseen' hquad hhint
      rw [instOf_error hdec]
      refine ⟨_, hnext, ?_⟩
      rw [hpc, hw]
      rfl
  | ok inst =>
      have hinst : instOf raw4 = inst := by rw [instOf, hdec]
      rw [hinst] at hends ⊢
      rcases hhandled.compiled hdec with hinline | hcalls
      · have hfollows : Follows fpu raw4 pc size c _ := native_follows hdec hinline heven
        rcases native_inlined (c := c) hinline pc (pc + sizeOf raw4) with
          ⟨c₁, hnative, -⟩ | ⟨c₁, target, hnative⟩
        · rw [hnative] at hfollows ⊢
          rw [Follows, ← hw] at hfollows
          exact ⟨_, .exec hseen' hfollows, rfl⟩
        · rw [hnative] at hfollows ⊢
          rw [Follows, ← hw] at hfollows
          exact ⟨_, .exec hseen' hfollows, rfl⟩
      · obtain ⟨q, hq⟩ := callout_of_callsOut hcalls c
        have hq' : callout inst (atInst c pc size) = _ := callout_atInst inst
        rw [hq, Option.map_some, ← hw] at hq'
        rw [native_callout hq] at hends ⊢
        cases hanswer : q.answer with
        | none =>
            rw [hanswer] at hends
            exact absurd rfl hends
        | some p =>
            obtain ⟨v, c₁⟩ := p
            rw [answered]
            split
            · -- the callout has only translated
              rename_i hv
              subst hv
              rw [hanswer] at hq'
              obtain ⟨r, hwalk⟩ := callout_walks hq' rfl
              exact ⟨_, .walk hwalk, size, rfl⟩
            · rename_i hv
              by_cases hcovered : c.Covered q.va q.width
              · have hfollows : Follows fpu raw4 pc size c (.next (finish inst v c₁)) :=
                  callout_follows hdec hq hanswer hv
                    (sameAccess_atInst (·.atInst) (hcovered.sameAccess (fun _ => ⟨_, _, rfl⟩) _))
                rw [Follows, ← hw] at hfollows
                exact ⟨_, .exec hseen' hfollows, rfl⟩
              · rw [hanswer] at hq'
                rw [← hinst] at hq'
                have hun : ¬ w.cpu.Covered q.va q.width := by
                  rw [hw]
                  exact fun hcov => hcovered ⟨hcov.mode, hcov.whole⟩
                refine ⟨_, .uncovered hseen' hq' hun rfl hv, ?_⟩
                rw [hinst, finish_atInst, hpc]
                rfl

/-! ## Blocks -/

/-- What the trail of a block leads to. -/
def Outcome.Reaches (d : Cpu) : Outcome → Prop
  | .leave c target => ∃ size, d = atInst c target size
  | .fault c => ∃ size, d = Cpu.sized size c
  | .next _ | .abort => False

/-- A block whose encodings were fetched executes them.  It executes at least one, unless it has
none or the first one faults. -/
theorem runRaws_trail (fpu : Fpu) (hhandled : AllHandled h pc raws) (heven : IsEven pc)
    (hw : w.cpu = atInst c pc size) (hseen : SeenAlong w.seen pc raws)
    (hends : runRaws pc raws c ≠ .abort) :
    ∃ n d, Trail (Next fpu) w (executed n) { w with cpu := d } ∧ (runRaws pc raws c).Reaches d ∧
      (raws ≠ [] → 1 ≤ n ∨ ∃ c', runRaws pc raws c = .fault c') := by
  induction raws generalizing pc c size w with
  | nil => exact ⟨0, w.cpu, .refl, ⟨size, hw⟩, fun hne => absurd rfl hne⟩
  | cons raw4 raws ih =>
      obtain ⟨hhead, htail⟩ := hhandled
      obtain ⟨hfirst, hrest⟩ := hseen
      rw [runRaws] at hends ⊢
      cases hnative : native (instOf raw4) pc (pc + sizeOf raw4) c with
      | abort =>
          rw [hnative] at hends
          exact absurd rfl hends
      | leave c₁ target =>
          obtain ⟨d, hnext, hat⟩ := native_trail fpu hhead heven hw hfirst (by simp [hnative])
          rw [hnative] at hnext hat
          exact ⟨1, d, .single hnext, ⟨_, hat⟩, fun _ => .inl (Nat.le_refl 1)⟩
      | fault c₁ =>
          obtain ⟨d, hnext, hat⟩ := native_trail fpu hhead heven hw hfirst (by simp [hnative])
          rw [hnative] at hnext hat
          exact ⟨0, d, .single hnext, hat, fun _ => .inr ⟨c₁, rfl⟩⟩
      | next c₁ =>
          obtain ⟨d, hnext, hat⟩ := native_trail fpu hhead heven hw hfirst (by simp [hnative])
          rw [hnative] at hnext hat hends
          obtain ⟨n, d', htrail, hreaches, -⟩ := ih (w := { w with cpu := d }) htail
            (heven.add (sizeOf_even raw4)) hat hrest hends
          refine ⟨1 + n, d', ?_, hreaches, fun _ => .inl (Nat.le_add_right 1 n)⟩
          rw [executed_add]
          exact .head hnext htrail

/-! ## Compilation -/

/-- More was fetched, and no step was made. -/
structure Fetching.Grows (w w' : Fetching) : Prop where
  last : w'.last = w.last
  seen : ∀ p raw, w.seen p raw → w'.seen p raw

namespace Fetching.Grows

theorem refl (w : Fetching) : w.Grows w := ⟨rfl, fun _ _ hseen => hseen⟩

theorem trans {w w' w'' : Fetching} (hg : w.Grows w') (hg' : w'.Grows w'') : w.Grows w'' :=
  ⟨hg'.last.trans hg.last, fun p raw hseen => hg'.seen p raw (hg.seen p raw hseen)⟩

theorem remember (w : Fetching) (pc : U64) (r : Except Trap U32) (c : Cpu) :
    w.Grows { w with cpu := c, seen := w.remember pc r } := by
  refine ⟨rfl, fun p raw hseen => ?_⟩
  cases r with
  | error t => exact hseen
  | ok raw4 => exact .inl hseen

end Fetching.Grows

theorem Fetching.near_behind {pc : U64} {raw4 : U32} {c : Cpu} : Fetching.Near
    { w with cpu := c, seen := w.remember pc (.ok raw4) } (pc + sizeOf raw4) :=
  .inr ⟨pc, raw4, .inr ⟨rfl, rfl⟩, rfl⟩

/-- A fetch of a hart is one of the machine. -/
theorem fetchRaw_next (fpu : Fpu) {k : U64} {r : Except Trap U32} (hw : c = Cpu.sized k w.cpu)
    (hnear : w.Near pc) (hfetch : fetchRaw pc c = some (r, c')) :
    ∃ d, Next fpu (executed 0) w { w with cpu := d, seen := w.remember pc r } ∧
      c' = Cpu.sized k d := by
  rw [hw, fetchRaw_ignores] at hfetch
  obtain ⟨⟨r', d⟩, hfetch', heq⟩ := Option.map_eq_some_iff.mp hfetch
  cases heq
  exact ⟨d, .fetch hnear hfetch', rfl⟩

/-- The code of a block, made from encodings that were fetched. -/
def Gathered (h : Host) (seen : U64 → U32 → Prop) (pc : U64) (code : Code) (n : Nat) : Prop :=
  ∃ raws, n = raws.length ∧ AllHandled h pc raws ∧ SeenAlong seen pc raws ∧
    code = emitRaws h pc raws

theorem Gathered.nil (h : Host) (seen : U64 → U32 → Prop) (pc : U64) :
    Gathered h seen pc (emitReturn pc) 0 := ⟨[], rfl, trivial, trivial, rfl⟩

theorem Gathered.seq {seen : U64 → U32 → Prop} {rest : Code} {n : Nat}
    (hrest : Gathered h seen (pc + sizeOf raw4) rest n) (hseen : seen pc raw4)
    (heff : (emitRaw h raw4 pc).1.2 = .seq) :
    Gathered h seen pc ((emitRaw h raw4 pc).1.1 ++ rest) (n + 1) := by
  obtain ⟨raws, rfl, hhandled, halong, rfl⟩ := hrest
  refine ⟨raw4 :: raws, rfl, ⟨?_, hhandled⟩, ⟨hseen, halong⟩, ?_⟩
  · rw [Handled, heff]
    simp
  · rw [emitRaws, heff]

theorem Gathered.terminal {seen : U64 → U32 → Prop} (hseen : seen pc raw4)
    (heff : (emitRaw h raw4 pc).1.2 = .terminal) :
    Gathered h seen pc (emitRaw h raw4 pc).1.1 1 := by
  refine ⟨[raw4], rfl, ⟨?_, trivial⟩, ⟨hseen, trivial⟩, ?_⟩
  · rw [Handled, heff]
    simp
  · rw [emitRaws, heff]

/-- The compiler fetches the encodings of a block, one directly behind the other. -/
theorem emitBlock_trail (fpu : Fpu) {left n n' : Nat} {k : U64} (hw : c = Cpu.sized k w.cpu)
    (hnear : w.Near pc)
    (hemit : emitBlock h left pc n c = some ((code, n'), c')) :
    ∃ w', Trail (Next fpu) w (executed 0) w' ∧ c' = Cpu.sized k w'.cpu ∧ w.Grows w' ∧
      (0 < n' → ∃ i, n' = n + i ∧ Gathered h w'.seen pc code i) := by
  induction left generalizing pc n c code n' w with
  | zero =>
      cases hemit
      exact ⟨w, .refl, hw, .refl w, fun _ => ⟨0, rfl, .nil ..⟩⟩
  | succ left ih =>
      rw [emitBlock] at hemit
      split at hemit
      · cases hemit
      · rename_i hfetch
        cases hemit
        obtain ⟨d, hnext, hd⟩ := fetchRaw_next fpu hw hnear hfetch
        refine ⟨_, .single hnext, hd, .remember .., fun hn => ⟨0, rfl, ?_⟩⟩
        rw [blockExit_pos hn]
        exact .nil ..
      · rename_i raw4 c₁ hfetch
        obtain ⟨d, hnext, hd⟩ := fetchRaw_next fpu hw hnear hfetch
        have hgrows := Fetching.Grows.remember w pc (.ok raw4) d
        dsimp only at hemit
        cases heff : (emitRaw h raw4 pc).1.2 with
        | unhandled =>
            rw [heff] at hemit
            cases hemit
            refine ⟨_, .single hnext, hd, hgrows, fun hn => ⟨0, rfl, ?_⟩⟩
            rw [emitRaw_bare heff, List.nil_append, blockExit_pos hn]
            exact .nil ..
        | terminal =>
            rw [heff] at hemit
            cases hemit
            exact ⟨_, .single hnext, hd, hgrows, fun _ =>
              ⟨1, rfl, .terminal (.inr ⟨rfl, rfl⟩) heff⟩⟩
        | seq =>
            rw [heff] at hemit
            obtain ⟨⟨⟨rest, m⟩, c₂⟩, hrest, heq⟩ := Option.map_eq_some_iff.mp hemit
            simp only [Prod.mk.injEq] at heq
            obtain ⟨⟨rfl, rfl⟩, rfl⟩ := heq
            rw [emitRaw_size] at hrest
            obtain ⟨w', htrail, hd', hgrows', hgathered⟩ :=
              ih (w := { w with cpu := d, seen := w.remember pc (.ok raw4) }) hd
                Fetching.near_behind hrest
            refine ⟨w', .head hnext htrail, hd', hgrows.trans hgrows', fun hn => ?_⟩
            obtain ⟨i, rfl, hbehind⟩ := hgathered hn
            have hseen : w'.seen pc raw4 := hgrows'.seen _ _ (.inr ⟨rfl, rfl⟩)
            exact ⟨i + 1, by omega, hbehind.seq hseen heff⟩

/-- A cached block: its encodings were fetched, and there is one. -/
def Kept (h : Host) (seen : U64 → U32 → Prop) (pc : U64) (code : Code) : Prop :=
  ∃ raws, raws ≠ [] ∧ AllHandled h pc raws ∧ SeenAlong seen pc raws ∧
    code = emitPrologue ++ emitRaws h pc raws

theorem Kept.mono {seen seen' : U64 → U32 → Prop} (himp : ∀ p raw, seen p raw → seen' p raw)
    (hkept : Kept h seen pc code) : Kept h seen' pc code := by
  obtain ⟨raws, hne, hhandled, halong, hcode⟩ := hkept
  exact ⟨raws, hne, hhandled, halong.mono himp, hcode⟩

/-- Compiling at a place near what was fetched adds a block of fetched encodings, or none. -/
theorem compile_trail (fpu : Fpu) {jit jit' : JitCache} {k : U64} (hw : c = Cpu.sized k w.cpu)
    (hnear : w.Near pc) (hcompile : compile h jit pc c = some (jit', c')) :
    ∃ w', Trail (Next fpu) w (executed 0) w' ∧ c' = Cpu.sized k w'.cpu ∧ w.Grows w' ∧
      (jit' = jit ∨ ∃ code, Kept h w'.seen pc code ∧ jit' = jit.insert pc code) := by
  rw [compile] at hcompile
  split at hcompile
  · cases hcompile
    exact ⟨w, .refl, hw, .refl w, .inl rfl⟩
  · split at hcompile
    · cases hcompile
    · rename_i hfetch
      cases hcompile
      obtain ⟨d, hnext, hd⟩ := fetchRaw_next fpu hw hnear hfetch
      exact ⟨_, .single hnext, hd, .remember .., .inl rfl⟩
    · rename_i raw4 c₁ hfetch
      obtain ⟨d, hnext, hd⟩ := fetchRaw_next fpu hw hnear hfetch
      have hgrows := Fetching.Grows.remember w pc (.ok raw4) d
      split at hcompile
      · cases hcompile
      · rename_i body n c₂ hemit
        have hnear' : Fetching.Near { w with cpu := d, seen := w.remember pc (.ok raw4) } pc := by
          rcases hnear with hlast | ⟨p, raw, hseen, hp⟩
          · exact .inl hlast
          · exact .inr ⟨p, raw, .inl hseen, hp⟩
        obtain ⟨w', htrail, hd', hgrows', hgathered⟩ := emitBlock_trail fpu hd hnear' hemit
        cases hcompile
        refine ⟨w', .head hnext htrail, hd', hgrows.trans hgrows', ?_⟩
        split
        · rename_i hn
          obtain ⟨i, rfl, raws, rfl, hhandled, halong, rfl⟩ := hgathered hn
          refine .inr ⟨_, ⟨raws, ?_, hhandled, halong, rfl⟩, rfl⟩
          rintro rfl
          exact absurd hn (by simp)
        · exact .inl rfl

end RiscvEmu.Jit
