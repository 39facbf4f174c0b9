import RiscvEmu.Execution.Accesses

/-!
# Causes of exceptions

The exceptions a memory operation throws are page faults and access faults, and an instruction
with a memory operation raises no others.
-/

namespace RiscvEmu

open Mmu

/-- The exception of an access to memory: an access fault or a page fault. -/
def Trap.OfMemory (t : Trap) : Prop := t.cause ∈ [(1 : U64), 5, 7, 12, 13, 15]

instance (t : Trap) : Decidable t.OfMemory := inferInstanceAs (Decidable (_ ∈ _))

namespace Cpu

/-! ## Translation -/

theorem translateOrTrap_throws (mode : PrivMode) (va : U64) (access : AccessType) :
    Run.Throws Trap.OfMemory (translateOrTrap mode va access) := by
  intro c t c' h
  obtain ⟨r₀, s, hrun, hr, _⟩ := translateOrTrap_eq_some h
  cases r₀ with
  | ok pa => cases hr
  | error f =>
      cases hr
      change f.cause ∈ _
      rcases translate_error hrun with rfl | rfl
      · change pfCause access ∈ _
        cases access <;> decide
      · change afCause access ∈ _
        cases access <;> decide

/-! ## Accesses -/

section

variable {P : Trap → Prop}

theorem busLoad_throws (pa : U64) (width : Width) {trap : Trap} (h : P trap) :
    Run.Throws P (busLoad pa width trap) := by
  intro c t c' hr
  obtain ⟨r₀, _, _, he, _⟩ := busLoad_eq_some hr
  cases r₀ with
  | ok v => cases he
  | error e =>
      cases he
      exact h

theorem busStore_throws (pa : U64) (width : Width) (val : U64) {trap : Trap} (h : P trap) :
    Run.Throws P (busStore pa width val trap) := by
  intro c t c' hr
  obtain ⟨r₀, _, _, he, _⟩ := busStore_eq_some hr
  cases r₀ with
  | ok v => cases he
  | error e =>
      cases he
      exact h

end

theorem ofMemory_load (va : U64) : Trap.OfMemory ⟨5, va⟩ := by simp [Trap.OfMemory]

theorem ofMemory_store (va : U64) : Trap.OfMemory ⟨7, va⟩ := by simp [Trap.OfMemory]

theorem ofMemory_fetch (va : U64) : Trap.OfMemory ⟨1, va⟩ := by simp [Trap.OfMemory]

theorem loadBytes_throws (pa va : U64) (k : Nat) :
    ∀ (n i : Nat) (v : U64), Run.Throws Trap.OfMemory (loadBytes pa va k n i v)
  | 0, _, _ => .pure _
  | n + 1, i, _ =>
      .bind (busLoad_throws _ _ (ofMemory_load _)) fun _ => loadBytes_throws pa va k n (i + 1) _

theorem storeBytes_throws (pa va : U64) (k : Nat) (val : U64) :
    ∀ n i : Nat, Run.Throws Trap.OfMemory (storeBytes pa va k val n i)
  | 0, _ => .pure _
  | n + 1, i =>
      .bind (busStore_throws _ _ _ (ofMemory_store _)) fun _ =>
        storeBytes_throws pa va k val n (i + 1)

theorem mmuLoad_throws (lsMode : PrivMode) (va : U64) (width : Width) :
    Run.Throws Trap.OfMemory (mmuLoad lsMode va width) := by
  rw [mmuLoad]
  split
  · exact .bind (translateOrTrap_throws _ _ _) fun _ => busLoad_throws _ _ (ofMemory_load _)
  · exact .bind (translateOrTrap_throws _ _ _) fun _ =>
      .bind (translateOrTrap_throws _ _ _) fun _ =>
        .bind (loadBytes_throws _ _ _ _ _ _) fun _ => loadBytes_throws _ _ _ _ _ _

theorem mmuStore_throws (lsMode : PrivMode) (va : U64) (width : Width) (val : U64) :
    Run.Throws Trap.OfMemory (mmuStore lsMode va width val) := by
  rw [mmuStore]
  split
  · exact .bind (translateOrTrap_throws _ _ _) fun _ => busStore_throws _ _ _ (ofMemory_store _)
  · exact .bind (translateOrTrap_throws _ _ _) fun _ =>
      .bind (translateOrTrap_throws _ _ _) fun _ =>
        .bind (storeBytes_throws _ _ _ _ _ _) fun _ => storeBytes_throws _ _ _ _ _ _

theorem fetch_throws (mode : PrivMode) (pc : U64) : Run.Throws Trap.OfMemory (fetch mode pc) := by
  rw [fetch]
  refine .bind (translateOrTrap_throws _ _ _) fun pa =>
    .bind (busLoad_throws _ _ (ofMemory_fetch _)) fun lo => ?_
  dsimp only
  split
  · exact .pure _
  · have hhalf : ∀ paHi, Run.Throws Trap.OfMemory
        (busLoad paHi .b2 ⟨1, pc + 2⟩ >>= fun hi => pure
          ((lo.setWidth 16).setWidth 32 ||| (((hi.setWidth 16 : U16).setWidth 32) <<< 16))) :=
      fun paHi => .bind (busLoad_throws _ _ (ofMemory_fetch _)) fun hi => .pure _
    split
    · exact .bind (translateOrTrap_throws _ _ _) hhalf
    · exact .bind (.pure _) hhalf

/-! ## Instructions -/

/-- The exception an instruction delivers, if it does, satisfies a predicate. -/
def Raises (P : Trap → Prop) (r : Retired) : Prop := ∀ t ∈ r.trap, P t

section

variable {P : Trap → Prop} {c : Cpu} {r : Retired}

theorem Raises.raise {t : Trap} (h : P t) : Raises P (c.raise t) := by
  intro t' ht'
  cases ht'
  exact h

theorem Raises.retire {nextPc : U64} : Raises P (c.retire nextPc) := nofun

/-- An operation with a memory part raises what the memory part throws. -/
theorem orRaise_raises {α : Type} {m : Run Cpu Trap α} {k : α → Cpu → Option Retired}
    (hm : Run.Throws P m)
    (hk : ∀ a c' r, m c = some (.ok a, c') → k a c' = some r → Raises P r)
    (h : orRaise m k c = some r) : Raises P r := by
  rcases orRaise_eq_some h with ⟨t, c', hrun, rfl⟩ | ⟨a, c', hrun, hr⟩
  · exact .raise (hm _ _ _ hrun)
  · exact hk a c' r hrun hr

variable (hP : ∀ t : Trap, t.OfMemory → P t)
include hP

theorem throws_ofMemory {σ α : Type} {m : Run σ Trap α} (hm : Run.Throws Trap.OfMemory m) :
    Run.Throws P m := fun s t s' h => hP t (hm s t s' h)

theorem execLoad_raises {rs1 : Reg} {imm : U64} {width : Width} {dest : U64 → Cpu → Cpu}
    (h : c.execLoad rs1 imm width dest = some r) : Raises P r := by
  refine orRaise_raises (throws_ofMemory hP (mmuLoad_throws _ _ _)) (fun v c' r _ h => ?_) h
  cases h
  exact .retire

theorem execStore_raises {rs1 : Reg} {imm val : U64} {width : Width}
    (h : c.execStore rs1 imm width val = some r) : Raises P r := by
  refine orRaise_raises (throws_ofMemory hP (mmuStore_throws _ _ _ _)) (fun v c' r _ h => ?_) h
  cases h
  exact .retire

theorem execLr_raises {width : AmoWidth} {rd rs1 : Reg}
    (h : c.execLr width rd rs1 = some r) : Raises P r := by
  refine orRaise_raises (throws_ofMemory hP (translateOrTrap_throws _ _ _))
    (fun pa c' r _ h => ?_) h
  refine orRaise_raises (busLoad_throws _ _ (hP _ (ofMemory_load _))) (fun v c' r _ h => ?_) h
  cases h
  exact .retire

theorem execSc_raises {width : AmoWidth} {rd rs1 rs2 : Reg}
    (h : c.execSc width rd rs1 rs2 = some r) : Raises P r := by
  refine orRaise_raises (throws_ofMemory hP (translateOrTrap_throws _ _ _))
    (fun pa c' r _ h => ?_) h
  dsimp only at h
  split at h
  · split at h
    · cases h
    · cases h
      exact .retire
  · cases h
    exact .retire

theorem execAmo_raises {op : AmoOp} {width : AmoWidth} {rd rs1 rs2 : Reg}
    (h : c.execAmo op width rd rs1 rs2 = some r) : Raises P r := by
  refine orRaise_raises (throws_ofMemory hP (translateOrTrap_throws _ _ _))
    (fun pa c' r _ h => ?_) h
  dsimp only at h
  split at h
  · cases h
  · split at h
    · cases h
    · cases h
      exact .retire

end

end Cpu

end RiscvEmu
