import AppleTalk.Wire.Ddp
import Mathlib.Logic.Function.Iterate

/-!
# TashTalk

A LocalTalk link over a serial port (`tashtalk.rs`). Frames go out behind a command byte with their
frame check sequence appended, and come in as a stream of bytes in which 0 starts an escape: a
literal zero, the end of a good frame, or the end of one to discard.
-/

namespace AppleTalk

/-- A 3-byte header, 600 bytes of data and the frame check sequence. -/
def MAX_FRAME : ℕ := 605

/-! ### The frame check sequence -/

/-- One bit of `crcUpdate`. -/
def crcShift (crc : UInt16) : UInt16 :=
  if crc &&& 1 ≠ 0 then (crc >>> 1) ^^^ 0x8408 else crc >>> 1

/-- CRC-CCITT with the polynomial reflected, a byte at a time. -/
def crcUpdate (crc : UInt16) (byte : UInt8) : UInt16 := crcShift^[8] (crc ^^^ byte.toUInt16)

/-- The register after some bytes. -/
def crcOver (bytes : Bytes) : UInt16 := bytes.foldl crcUpdate 0xffff

/-- The frame check sequence over a header and data, low byte first. -/
def fcs (frame : Bytes) : Bytes :=
  let crc := crcOver frame
  [(crc &&& 0xff).toUInt8 ^^^ 0xff, (crc >>> 8).toUInt8 ^^^ 0xff]

@[simp] theorem length_fcs (frame : Bytes) : (fcs frame).length = 2 := rfl

/-- Whether a frame with its trailing FCS checks out. -/
def fcsResidueOk (frameWithFcs : Bytes) : Bool := crcOver frameWithFcs = 0xf0b8

/-! ### Commands to the firmware -/

/-- A transmit command: the frame with its FCS. -/
def frameCommand (l : Llap) : Bytes :=
  let frame := l.toBytes
  0x01 :: (frame ++ fcs frame)

/-- The bitmap of a set-node-IDs command: bit `n` is in byte `n / 8`, and there the bit for `n % 8`
counting up from the least significant. -/
def nodeMap : Option UInt8 → Bytes
  | none => List.replicate 32 0
  | some n => (List.replicate 32 0).set (n.toNat / 8) (1 <<< (n % 8))

/-- A set-node-IDs command. -/
def nodeCommand (node : Option UInt8) : Bytes := 0x02 :: nodeMap node

/-- What to send the moment the port opens: no-ops, an empty node bitmap, and no features. -/
def initSequence : Bytes := List.replicate 1024 0 ++ nodeCommand none ++ [0x03, 0x00]

/-! ### What the firmware sends -/

/-- Reassembles the firmware's escaped byte stream into frames. -/
structure Decoder where
  buf : Bytes
  /-- Set by a 0; the next byte is the second half of an escape. -/
  escaped : Bool
  fits : buf.length ≤ MAX_FRAME

namespace Decoder

def new : Decoder := { buf := [], escaped := false, fits := Nat.zero_le _ }

/-- Put a byte into the buffer; over-long frames drop the excess. -/
def push (d : Decoder) (byte : UInt8) : Decoder :=
  if h : d.buf.length < MAX_FRAME then
    { buf := d.buf ++ [byte], escaped := false, fits := by simpa [Nat.succ_le_iff] using h }
  else { d with escaped := false }

/-- The frame in the buffer at its good end: its FCS checks and it parses. -/
def frame (buf : Bytes) : Option Llap :=
  if 5 ≤ buf.length ∧ fcsResidueOk buf then Llap.parse (buf.take (buf.length - 2)) else none

/-- Feed one byte, and the frame that it completes. -/
def feed (d : Decoder) (byte : UInt8) : Decoder × Option Llap :=
  if !d.escaped then
    if byte = 0x00 then ({ d with escaped := true }, none)
    else (d.push byte, none)
  else if byte = 0xff then (d.push 0, none)
  -- Behind any other second half the buffer is cleared: the end of a good frame, a framing error,
  -- an abort, a bad CRC, or a lost sync.
  else (new, if byte = 0xfd then frame d.buf else none)

end Decoder

end AppleTalk
