import ConsensusCore.Codec.Field

/-!
# Registries

A message leaves the process as an *envelope*: the code of its variant, and its
payload, with nothing before, between or after them. A registry is the table
that says, for each code in use, under which name and how payloads are written
and read (`Codec`). It is built by registering one codec after the other under
codes of which none is used twice, and does not change afterwards, so that disk
and network agree on what the bytes of a message are.

Nothing ties a codec to the code that its variant has. A message is encoded with
the codec found under its own code, which may turn out to be one for another
variant and then refuses it.
-/

namespace ConsensusCore

/-- What makes bytes no envelope of a registered message. -/
inductive EnvelopeFault where
  /-- They are not a code and a payload. -/
  | layout (fault : Fault)
  /-- The code is not registered. -/
  | unknownCode (code : UInt8)
deriving DecidableEq, Repr

/-- The envelope's fault in words. -/
def EnvelopeFault.message : EnvelopeFault → String
  | .layout fault => fault.message
  | .unknownCode code => s!"unknown message code {code}"

/-- Why a registry cannot be built, or a message not be encoded or decoded. -/
inductive CodecError where
  /-- A second codec for a code that `existing` has. -/
  | duplicateCode (code : UInt8) (existing : String)
  /-- Nothing is registered under the code of the message. -/
  | unknownVariant (code : UInt8)
  /-- The bytes are no envelope of a registered message. -/
  | malformedEnvelope (fault : EnvelopeFault)
  /-- The payload is not one of the variant `name`. -/
  | payload (name : String) (fault : Fault)
  /-- The codec registered for `expected` was given a message with another code. -/
  | variantMismatch (expected : String) (code : UInt8)
deriving DecidableEq, Repr

/-- The error in words. -/
def CodecError.message : CodecError → String
  | .duplicateCode code existing =>
    s!"duplicate message code {code}: already registered as {existing}"
  | .unknownVariant code => s!"no codec registered for message code {code}"
  | .malformedEnvelope fault => "malformed envelope: " ++ fault.message
  | .payload name fault => s!"payload codec error for {name}: " ++ fault.message
  | .variantMismatch expected code =>
    s!"codec for {expected} received a different variant (code {code})"

/-- Messages of which each has the code of its variant. -/
class Coded (μ : Type) where
  code : μ → UInt8

/-- How payloads of one variant of the messages `μ` are written and read. -/
structure Codec (μ : Type) where
  /-- The name of the variant. -/
  name : String
  /-- The payload of a message. -/
  encode : μ → Except CodecError Bytes
  /-- The message with a payload. -/
  decode : Bytes → Except CodecError μ

namespace Codec

variable {μ π : Type} [Coded μ]

/-- The payload `a` of the variant `name`, read as a whole. -/
def decodePayload (name : String) (f : Field π) (bs : Bytes) : Except CodecError π :=
  (f.decode bs).mapError (.payload name)

/-- The codec of a variant whose payload is a field: `project` takes the payload
    out of a message, unless it is of another variant, and `wrap` puts it back. -/
def ofVariant (name : String) (f : Field π) (project : μ → Option π) (wrap : π → μ) :
    Codec μ where
  name
  encode m :=
    match project m with
    | some a => .ok (f.put a)
    | none => .error (.variantMismatch name (Coded.code m))
  decode bs := (decodePayload name f bs).map wrap

end Codec

/-- A table of codecs by code, in the order in which they were registered. -/
structure Registry (μ : Type) where
  entries : List (UInt8 × Codec μ)

namespace Registry

variable {μ : Type}

/-- The layout of an envelope. -/
def envelope : Field (UInt8 × Bytes) := Field.word8.pair Field.bytes

/-- The registry without codecs. -/
def empty : Registry μ := ⟨[]⟩

/-- The codec registered under a code. -/
def find? (r : Registry μ) (code : UInt8) : Option (Codec μ) := r.entries.lookup code

/-- Adds a codec under a code that is not in use. -/
def register (r : Registry μ) (code : UInt8) (codec : Codec μ) : Except CodecError (Registry μ) :=
  match r.find? code with
  | some existing => .error (.duplicateCode code existing.name)
  | none => .ok ⟨r.entries ++ [(code, codec)]⟩

/-- The registry with the codecs of a list, registered in its order. -/
def ofList (codecs : List (UInt8 × Codec μ)) : Except CodecError (Registry μ) :=
  codecs.foldlM (fun r c => r.register c.1 c.2) empty

/-- The envelope of a message. -/
def encode [Coded μ] (r : Registry μ) (m : μ) : Except CodecError Bytes :=
  match r.find? (Coded.code m) with
  | none => .error (.unknownVariant (Coded.code m))
  | some codec => (codec.encode m).map fun payload => envelope.put (Coded.code m, payload)

/-- The message in an envelope. -/
def decode (r : Registry μ) (bs : Bytes) : Except CodecError μ :=
  match envelope.decode bs with
  | .error fault => .error (.malformedEnvelope (.layout fault))
  | .ok (code, payload) =>
    match r.find? code with
    | none => .error (.malformedEnvelope (.unknownCode code))
    | some codec => codec.decode payload

/-- Whether a code is in use. -/
def contains (r : Registry μ) (code : UInt8) : Bool := (r.find? code).isSome

/-- The name registered under a code. -/
def nameOf? (r : Registry μ) (code : UInt8) : Option String := (r.find? code).map (·.name)

/-- The codecs in the order of their codes. -/
def sorted (r : Registry μ) : List (UInt8 × Codec μ) :=
  r.entries.mergeSort fun a b => decide (a.1 ≤ b.1)

/-- The codes in use, in order. -/
def codes (r : Registry μ) : List UInt8 := r.sorted.map (·.1)

/-- The number of codes in use. -/
def size (r : Registry μ) : Nat := r.entries.length

/-- Whether no code is in use. -/
def isEmpty (r : Registry μ) : Bool := r.entries.isEmpty

/-- The codes with the names registered under them, between braces. -/
def toText (r : Registry μ) : String :=
  "\x7b" ++ ", ".intercalate (r.sorted.map fun (code, codec) => s!"{code}: \"" ++ codec.name ++ "\"")
    ++ "\x7d"

end Registry

end ConsensusCore
