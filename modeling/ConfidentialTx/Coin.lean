import ConfidentialTx.Key

/-! An output as the chain records it. -/
namespace ConfidentialTx

/-- The key that an output pays to and the commitment to its amount. -/
structure Coin where
  destination : Key
  commitment : Key
  deriving DecidableEq, Inhabited

end ConfidentialTx
