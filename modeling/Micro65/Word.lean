/-!
# Bytes and addresses

The machine computes with bytes and with sixteen-bit addresses. This module holds the passages
between them: the parts of a word, a word from its two bytes, and the two's-complement reading of a
byte, which is the distance a branch jumps.
-/

namespace Micro65

namespace Word

/-- The lowest eight bits of a number. -/
def lowByte (n : UInt32) : UInt8 :=
  n.toUInt8

/-- The lowest sixteen bits of a number. -/
def lowWord (n : UInt32) : UInt16 :=
  n.toUInt16

/-- The less significant byte of an address. -/
def low (w : UInt16) : UInt8 :=
  w.toUInt8

/-- The more significant byte of an address. -/
def high (w : UInt16) : UInt8 :=
  (w >>> 8).toUInt8

/-- The address with these two bytes. -/
def ofBytes (low high : UInt8) : UInt16 :=
  (high.toUInt16 <<< 8) ||| low.toUInt16

/-- The two's-complement reading of a byte, from -128 to 127. -/
def signed (b : UInt8) : Int :=
  if b.toNat < 128 then b.toNat else b.toNat - 256

/-- The sign of a byte in its two's-complement reading: its most significant bit. -/
def isNegative (b : UInt8) : Bool :=
  128 ≤ b.toNat

/-- The address at a signed distance, modulo the size of the address space. -/
def offset (w : UInt16) (distance : Int) : UInt16 :=
  w + UInt16.ofInt distance

end Word

end Micro65
