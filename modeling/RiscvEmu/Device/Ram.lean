import RiscvEmu.Lib.Bytes
import RiscvEmu.Word

/-!
# Guest memory

The byte vector that backs guest RAM, addressed by offset.  A slice outside the vector aborts,
so reading and writing are partial.
-/

namespace RiscvEmu

/-- The byte vector behind guest RAM. -/
structure Ram where
  /-- The byte at an offset below the length. -/
  byte : Nat → U8
  len : U64

namespace Ram

/-- The little-endian value of a slice. -/
def read (r : Ram) (o n : Nat) : Option U64 :=
  if o + n ≤ r.len.toNat then some (Bytes.readLe r.byte o n) else none

/-- The memory after a slice is set to the low bytes of a value. -/
def write (r : Ram) (o n : Nat) (v : U64) : Option Ram :=
  if o + n ≤ r.len.toNat then some { r with byte := Bytes.writeLe r.byte o n v } else none

/-- The bytes of a slice. -/
def slice (r : Ram) (o n : Nat) : Option (List U8) :=
  if o + n ≤ r.len.toNat then some ((List.range n).map fun i => r.byte (o + i)) else none

/-- The memory after the bytes of a list are put at an offset. -/
def fill (r : Ram) (o : Nat) (bs : List U8) : Ram :=
  { r with byte := fun a => if o ≤ a then (bs[a - o]?).getD (r.byte a) else r.byte a }

theorem read_of_le {r : Ram} {o n : Nat} (h : o + n ≤ r.len.toNat) :
    r.read o n = some (Bytes.readLe r.byte o n) := if_pos h

theorem write_of_le {r : Ram} {o n : Nat} (v : U64) (h : o + n ≤ r.len.toNat) :
    r.write o n v = some { r with byte := Bytes.writeLe r.byte o n v } := if_pos h

end Ram

end RiscvEmu
