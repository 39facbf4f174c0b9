import RiscvEmu.Bus

/-!
# The ELF loader

The loader copies the loadable segments of an ELF file into zeroed RAM.  The parser of the file is
a library, and a parameter here; a parsed file is what the loader reads of one.  Sums are checked,
as in a build with its default settings: one that overflows aborts the emulator, which is `none`.
-/

namespace RiscvEmu

/-! ## Parsed files -/

structure ProgramHeader where
  pType : U32
  pOffset : U64
  pPaddr : U64
  pFilesz : U64
  deriving DecidableEq

structure Sym where
  stName : Nat
  stValue : U64
  deriving DecidableEq

structure Elf where
  is64 : Bool
  eType : U16
  entry : U64
  programHeaders : List ProgramHeader
  syms : List Sym
  /-- The string table, by offset. -/
  strtab : Nat → Option String

namespace Loader

def etDyn : U16 := 3
def ptLoad : U32 := 1
def ramBase : U64 := 0x8000_0000
def ramSize : U64 := 256 * 1024 * 1024

/-! ## Results -/

structure LoadedElf where
  bus : Bus
  entry : U64
  tohostAddr : Option U64

/-- Why a file was not loaded. -/
inductive LoadError where
  | parse
  | notElf64
  | belowRam (memAddr : U64)
  | outOfFile
  | exceedsRam (memAddr memEnd : U64)
  deriving DecidableEq

/-- An address as the errors print it. -/
def hex (x : U64) : String := "0x" ++ String.ofList (Nat.toDigits 16 x.toNat)

def LoadError.text : LoadError → String
  | .parse => "ELF parse failed"
  | .notElf64 => "expected ELF64, got ELF32"
  | .belowRam memAddr =>
      "PT_LOAD segment at " ++ hex memAddr ++ " is below RAM base " ++ hex ramBase
  | .outOfFile => "PT_LOAD segment out of file bounds"
  | .exceedsRam memAddr memEnd =>
      "PT_LOAD segment [" ++ hex memAddr ++ ".." ++ hex memEnd ++ ") exceeds RAM"

/-! ## Loading -/

/-- A sum that must not overflow. -/
def checkedAdd (a b : U64) : Option U64 :=
  if a.toNat + b.toNat < 2 ^ 64 then some (a + b) else none

/-- The bytes of a range, when it lies in the file. -/
def getRange (bytes : List U8) (start stop : Nat) : Option (List U8) :=
  if start ≤ stop ∧ stop ≤ bytes.length then some ((bytes.drop start).take (stop - start)) else none

/-- Copy one segment into RAM, if it is loadable. -/
def loadSegment (bytes : List U8) (loadOffset : U64) (ph : ProgramHeader) (ram : Ram) :
    Option (Except LoadError Ram) :=
  if ph.pType ≠ ptLoad then some (.ok ram)
  else do
    let fileEnd ← checkedAdd ph.pOffset ph.pFilesz
    let memAddr ← checkedAdd ph.pPaddr loadOffset
    if memAddr < ramBase then some (.error (.belowRam memAddr))
    else
      match getRange bytes ph.pOffset.toNat fileEnd.toNat with
      | none => some (.error .outOfFile)
      | some segment => do
          let off := memAddr - ramBase
          let stop ← checkedAdd off (BitVec.ofNat 64 segment.length)
          if ramSize < stop then do
            -- The end of the range is computed for the message alone.
            let memEnd ← checkedAdd memAddr ph.pFilesz
            some (.error (.exceedsRam memAddr memEnd))
          else some (.ok (ram.fill off.toNat segment))

def loadSegments (bytes : List U8) (loadOffset : U64) :
    List ProgramHeader → Ram → Option (Except LoadError Ram)
  | [], ram => some (.ok ram)
  | ph :: phs, ram =>
      match loadSegment bytes loadOffset ph ram with
      | none => none
      | some (.error e) => some (.error e)
      | some (.ok ram) => loadSegments bytes loadOffset phs ram

/-- What addresses of a position-independent file are relative to. -/
def loadOffset (elf : Elf) : U64 := if elf.eType = etDyn then ramBase else 0

/-- The value of the `tohost` symbol. -/
def tohost (elf : Elf) : Option U64 :=
  (elf.syms.find? fun s => elf.strtab s.stName = some "tohost").map Sym.stValue

/-- Load a parsed file. -/
def loadParsed (bytes : List U8) (elf : Elf) : Option (Except LoadError LoadedElf) :=
  if elf.is64 = false then some (.error .notElf64)
  else
    let bus := Bus.new ramSize ramBase
    match loadSegments bytes (loadOffset elf) elf.programHeaders bus.ram with
    | none => none
    | some (.error e) => some (.error e)
    | some (.ok ram) => do
        let entry ← checkedAdd elf.entry (loadOffset elf)
        some (.ok { bus := { bus with ram := ram }, entry := entry, tohostAddr := tohost elf })

def loadElf (parse : List U8 → Option Elf) (bytes : List U8) :
    Option (Except LoadError LoadedElf) :=
  match parse bytes with
  | none => some (.error .parse)
  | some elf => loadParsed bytes elf

end Loader

end RiscvEmu
