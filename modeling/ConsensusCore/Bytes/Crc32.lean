import ConsensusCore.Bytes.Basic

/-!
# Checksums

The 32-bit cyclic redundancy check of IEEE 802.3, with the bits of each byte
taken from the least significant on: a register that starts with all bits set,
is shifted once per bit of the input, and complemented at the end.
-/

namespace ConsensusCore.Crc32

/-- The generator polynomial, its highest coefficients in the lowest bits. -/
def polynomial : UInt32 := 0xEDB88320

/-- The register shifted by one bit. -/
def shift (r : UInt32) : UInt32 :=
  if r &&& 1 = 0 then r >>> 1 else (r >>> 1) ^^^ polynomial

/-- The register after one more byte. -/
def absorb (r : UInt32) (b : UInt8) : UInt32 :=
  shift (shift (shift (shift (shift (shift (shift (shift (r ^^^ b.toUInt32))))))))

/-- The register after all bytes. -/
def register (bs : Bytes) : UInt32 := bs.foldl absorb 0xFFFFFFFF

/-- The checksum of a byte string. -/
def checksum (bs : Bytes) : UInt32 := register bs ^^^ 0xFFFFFFFF

end ConsensusCore.Crc32
