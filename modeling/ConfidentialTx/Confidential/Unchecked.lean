import ConfidentialTx.Confidential.Wire
import ConfidentialTx.RingSignature

/-! Reading signatures, ring signatures and confidential ones, with no check beforehand that enough
bytes are left for them. -/
namespace ConfidentialTx

open Wire

/-- Reads the signature of a ring of known size, whatever number of bytes is left. -/
def RingSignature.parseUnchecked (ringSize : Nat) : Parser RingSignature := do
  let elements ← RingElement.parse.times ringSize
  pure ⟨elements⟩

namespace Confidential

/-- Reads a signature field by field, whatever number of bytes is left. -/
def Signature.parseUnchecked (inputs outputs mixin : Nat) : Parser Signature := do
  let kind ← kindParser
  if kind = .null then pure .null
  else fieldsParser kind inputs outputs (saturate (mixin + 1))

end Confidential
end ConfidentialTx
