import RiscvEmu.Word

/-!
# The platform-level interrupt controller

Context 0 is the M-mode hart and context 1 the S-mode hart.  Priorities exist for 128 sources,
but only the first 64 can be pending, so `bestIrq` ranges over those.  The array indices of the
source are finite types here, and an offset that the source would reject reads as zero.
-/

namespace RiscvEmu

/-- The interrupt controller. -/
structure Plic where
  priority : Fin 128 → U32
  enable : Fin 2 → Fin 4 → U32
  threshold : Fin 2 → U32
  pending : U64

namespace Plic

def base : U64 := 0x0C00_0000#64

def new : Plic where
  priority := fun _ => 0
  enable := fun _ _ => 0
  threshold := fun _ => 0
  pending := 0

def setPending (p : Plic) (irq : U32) (active : Bool) : Plic :=
  if irq.toNat < 64 then
    if active then { p with pending := p.pending ||| (1#64 <<< irq.toNat) }
    else { p with pending := p.pending &&& ~~~(1#64 <<< irq.toNat) }
  else p

/-- One round of the search: a pending and enabled source beats a lower best priority. -/
def bestIrqStep (p : Plic) (ctx : Fin 2) (best : Nat × U32) (irq : Nat) : Nat × U32 :=
  if (p.pending >>> irq) &&& 1 = 0 then best
  else if (p.enable ctx (Fin.ofNat 4 (irq / 32)) >>> (irq % 32)) &&& 1 = 0 then best
  else
    let pri := p.priority (Fin.ofNat 128 irq)
    if best.2 < pri then (irq, pri) else best

/-- The source a claim of the context would return, or zero. -/
def bestIrq (p : Plic) (ctx : Fin 2) : Nat :=
  ((List.range' 1 63).foldl (p.bestIrqStep ctx) (0, p.threshold ctx)).1

/-- Whether the S-mode context has a claimable interrupt. -/
def hasInterrupt (p : Plic) : Bool := p.bestIrq 1 != 0

/-- The context and the word index of an enable register, if the source has them. -/
def enableIndex (off : Nat) : Option (Fin 2 × Fin 4) :=
  let ctx := (off - 0x002000) / 0x80
  let word := ((off - 0x002000) % 0x80) / 4
  if h : ctx < 2 ∧ word < 4 then some (⟨ctx, h.1⟩, ⟨word, h.2⟩) else none

/-- The context of a threshold or claim register, if the source has it. -/
def contextIndex (off : Nat) : Option (Fin 2) :=
  let ctx := (off - 0x200000) / 0x1000
  if h : ctx < 2 then some ⟨ctx, h⟩ else none

/-- Claim: return the best source and clear its pending bit. -/
def claim (p : Plic) (ctx : Fin 2) : U64 × Plic :=
  let irq := p.bestIrq ctx
  let p' := if 0 < irq then { p with pending := p.pending &&& ~~~(1#64 <<< irq) } else p
  (BitVec.ofNat 64 irq, p')

def load (p : Plic) (addr : U64) : U64 × Plic :=
  let off := (addr - base).toNat
  if off ≤ 0x0001FF then ((p.priority (Fin.ofNat 128 (off / 4))).setWidth 64, p)
  else if 0x001000 ≤ off ∧ off ≤ 0x00107F then
    match (off - 0x001000) / 4 with
    | 0 => ((p.pending.setWidth 32).setWidth 64, p)
    | 1 => (p.pending >>> 32, p)
    | _ => (0, p)
  else if 0x002000 ≤ off ∧ off ≤ 0x003FFF then
    match enableIndex off with
    | some (ctx, word) => ((p.enable ctx word).setWidth 64, p)
    | none => (0, p)
  else if 0x200000 ≤ off ∧ off ≤ 0x20FFFF then
    match contextIndex off with
    | none => (0, p)
    | some ctx =>
        match (off - 0x200000) % 0x1000 with
        | 0 => ((p.threshold ctx).setWidth 64, p)
        | 4 => p.claim ctx
        | _ => (0, p)
  else (0, p)

def store (p : Plic) (addr val : U64) : Plic :=
  let off := (addr - base).toNat
  if off ≤ 0x0001FF then
    { p with priority := Function.update p.priority (Fin.ofNat 128 (off / 4)) (val.setWidth 32) }
  else if 0x002000 ≤ off ∧ off ≤ 0x003FFF then
    match enableIndex off with
    | some (ctx, word) =>
        { p with
          enable := Function.update p.enable ctx
            (Function.update (p.enable ctx) word (val.setWidth 32)) }
    | none => p
  else if 0x200000 ≤ off ∧ off ≤ 0x20FFFF then
    match contextIndex off with
    | none => p
    | some ctx =>
        match (off - 0x200000) % 0x1000 with
        | 0 => { p with threshold := Function.update p.threshold ctx (val.setWidth 32) }
        | 4 =>
            -- complete: clear the pending bit of the acknowledged source
            let irq := val.setWidth 32
            if 0 < irq.toNat ∧ irq.toNat < 64 then
              { p with pending := p.pending &&& ~~~(1#64 <<< irq.toNat) }
            else p
        | _ => p
  else p

end Plic

end RiscvEmu
