import EditGate.Digest.Sha256
import EditGate.Json.Print

/-!
# Digests of values

Two values that differ in the order of members only have one digest.
-/

namespace EditGate.Json

/-- The bytes that a value is written with in canonical form. -/
def bytes (v : Json) : List UInt8 := (String.ofList v.canonical.print).toUTF8.toList

/-- The SHA-256 digest of a value in canonical form. -/
def digest (v : Json) : String := Sha256.hexDigest v.bytes

end EditGate.Json
