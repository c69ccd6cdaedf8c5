import ConsensusCore.Bytes.Utf8

/-!
# Faults of encoded bytes

The ways in which bytes fail to be the encoding of a value. Decoding goes field
by field and reports the first fault; bytes left over after the last field are
the last thing looked for.
-/

namespace ConsensusCore

/-- Why bytes are not the encoding of a value. -/
inductive Fault where
  /-- The bytes end inside a field. -/
  | endOfInput
  /-- A text claims to be longer than the bytes that follow. -/
  | textOverrun
  /-- Bytes follow the last field. -/
  | trailingBytes
  /-- A truth value is neither 0 nor 1. -/
  | badBool (found : UInt8)
  /-- The tag of an optional field is neither 0 nor 1. -/
  | badTag (found : UInt8)
  /-- A choice among `count` alternatives is not below `count`. -/
  | badChoice (found : Nat) (count : Nat)
  /-- A text is not UTF-8. -/
  | badText (fault : Utf8.Fault)
  /-- The seconds of a duration do not fit 64 bits. -/
  | durationOverflow
deriving DecidableEq, Repr

/-- The fault in words. -/
def Fault.message : Fault → String
  | .endOfInput => "io error: unexpected end of file"
  | .textOverrun => "io error: "
  | .trailingBytes => "Slice had bytes remaining after deserialization"
  | .badBool found => s!"invalid u8 while decoding bool, expected 0 or 1, found {found}"
  | .badTag found => s!"tag for enum is not valid, found {found}"
  | .badChoice found count =>
    s!"invalid value: integer `{found}`, expected variant index 0 <= i < {count}"
  | .badText fault => "string is not valid utf8: " ++ fault.message
  | .durationOverflow => "overflow deserializing Duration"

end ConsensusCore
