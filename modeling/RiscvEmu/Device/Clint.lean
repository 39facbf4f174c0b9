import RiscvEmu.Word

/-!
# The core-local interruptor

Two registers, the time counter and its compare value.  The width of an access is ignored.
-/

namespace RiscvEmu

/-- The timer. -/
structure Clint where
  mtime : U64
  mtimecmp : U64
  deriving DecidableEq

namespace Clint

/-- The ticks one call of `tick` adds. -/
def mtimeInc : U64 := 128

def new : Clint where
  mtime := 0
  mtimecmp := u64Max

/-- Advance the counter, and say whether it has reached the compare value. -/
def tick (c : Clint) : Bool × Clint :=
  let mtime := c.mtime + mtimeInc
  (decide (c.mtimecmp ≤ mtime), { c with mtime })

def load (c : Clint) (addr : U64) : U64 :=
  match addr with
  | 0x0200_BFF8#64 => c.mtime
  | 0x0200_4000#64 => c.mtimecmp
  | _ => 0

def store (c : Clint) (addr val : U64) : Clint :=
  if addr = 0x0200_4000#64 then { c with mtimecmp := val } else c

end Clint

end RiscvEmu
