import RiscvEmu.Word

/-!
# The serial port

The transmitter watches the guest's byte stream with two matchers.  One holds back the bytes of
a partial `ESC [ 6 n` and answers a complete one on the receive queue instead of printing it.
The other only waits for `ESC [ ? 2004 h`.  What reaches the host terminal is kept as the byte
list `stdout`.  A printed character is its UTF-8 encoding, so a byte from `0x80` up takes two.
-/

namespace RiscvEmu

/-- The serial port, with the bytes it has printed. -/
structure Uart16550 where
  ier : U8
  rxBuf : List U8
  /-- Matched prefix of `ESC [ 6 n`: 0 idle, 1 after `ESC`, 2 after `[`, 3 after `6`. -/
  dsrState : U8
  /-- Matched length of `ESC [ ? 2004 h`. -/
  bpmState : U8
  stdinReady : Bool
  txBytes : U64
  rxBytes : U64
  rxDrained : U64
  /-- The bytes printed so far, oldest first. -/
  stdout : List U8
  deriving DecidableEq

namespace Uart16550

def new : Uart16550 where
  ier := 0
  rxBuf := []
  dsrState := 0
  bpmState := 0
  stdinReady := false
  txBytes := 0
  rxBytes := 0
  rxDrained := 0
  stdout := []

def pushRx (u : Uart16550) (byte : U8) : Uart16550 :=
  { u with rxBuf := u.rxBuf ++ [byte], rxBytes := u.rxBytes + 1 }

def dataReady (u : Uart16550) : Bool := !u.rxBuf.isEmpty

def irqPending (u : Uart16550) : Bool :=
  decide (u.ier &&& 0x02 ≠ 0) || (decide (u.ier &&& 0x01 ≠ 0) && u.dataReady)

/-- Take the oldest received byte, or zero.  The drain counter moves unless the queue is empty
afterwards and the byte is zero. -/
def popRx (u : Uart16550) : U64 × Uart16550 :=
  let b := u.rxBuf.headD 0
  let rest := u.rxBuf.tail
  let drained := if rest ≠ [] ∨ b ≠ 0 then u.rxDrained + 1 else u.rxDrained
  (b.setWidth 64, { u with rxBuf := rest, rxDrained := drained })

def load (u : Uart16550) (addr : U64) : U64 × Uart16550 :=
  match addr &&& 0xFF#64 with
  | 0#64 => u.popRx
  | 1#64 => (u.ier.setWidth 64, u)
  | 2#64 =>
      if u.ier &&& 0x01 ≠ 0 ∧ u.dataReady then (0x04, u)
      else if u.ier &&& 0x02 ≠ 0 then (0x02, u)
      else (0x01, u)
  | 5#64 => (if u.dataReady then 0x61 else 0x60, u)
  | 6#64 => (0x30, u)
  | _ => (0, u)

/-- The UTF-8 encoding of the character with the given code. -/
def utf8 (b : U8) : List U8 :=
  if b < 0x80 then [b] else [0xC0 ||| (b >>> 6), 0x80 ||| (b &&& 0x3F)]

/-- Print one character. -/
def print (u : Uart16550) (b : U8) : Uart16550 := { u with stdout := u.stdout ++ utf8 b }

/-- The bytes held back in a matcher state. -/
def heldPrefix (dsrState : U8) : List U8 :=
  match dsrState with
  | 1#8 => [0x1B]
  | 2#8 => [0x1B, 0x5B]
  | 3#8 => [0x1B, 0x5B, 0x36]
  | _ => []

/-- Print the bytes held while matching `ESC [ 6 n`, and return to the idle state. -/
def flushPrefix (u : Uart16550) : Uart16550 :=
  match heldPrefix u.dsrState with
  | [] => u
  | held =>
      let u := held.foldl print u
      { u with txBytes := u.txBytes + BitVec.ofNat 64 held.length, dsrState := 0 }

/-- The bytes of `ESC [ ? 2004 h`. -/
def bpmTarget : List U8 := [0x1B, 0x5B, 0x3F, 0x32, 0x30, 0x30, 0x34, 0x68]

/-- The reply `ESC [ 1 ; 1 R`. -/
def dsrReply : List U8 := [0x1B, 0x5B, 0x31, 0x3B, 0x31, 0x52]

/-- One byte of the bracketed-paste matcher. -/
def bpmStep (u : Uart16550) (byte : U8) : Uart16550 :=
  if bpmTarget[u.bpmState.toNat]? = some byte then
    let u := { u with bpmState := u.bpmState + 1 }
    if u.bpmState.toNat = bpmTarget.length then { u with stdinReady := true, bpmState := 0 }
    else u
  else { u with bpmState := if byte = 0x1B then 1 else 0 }

/-- One byte of the cursor-query matcher. -/
def dsrStep (u : Uart16550) (byte : U8) : Uart16550 :=
  if byte = 0x1B then { u.flushPrefix with dsrState := 1 }
  else if u.dsrState = 1 ∧ byte = 0x5B then { u with dsrState := 2 }
  else if u.dsrState = 2 ∧ byte = 0x36 then { u with dsrState := 3 }
  else if u.dsrState = 3 ∧ byte = 0x6E then
    { u with rxBuf := u.rxBuf ++ dsrReply, stdinReady := true, dsrState := 0 }
  else
    let u := u.flushPrefix.print byte
    { u with txBytes := u.txBytes + 1 }

def store (u : Uart16550) (addr val : U64) : Uart16550 :=
  if addr &&& 0xFF#64 ≠ 0 then
    if addr &&& 0xFF#64 = 1 then { u with ier := val.setWidth 8 } else u
  else (u.bpmStep (val.setWidth 8)).dsrStep (val.setWidth 8)

end Uart16550

end RiscvEmu
