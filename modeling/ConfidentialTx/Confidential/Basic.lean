import ConfidentialTx.Coin
import ConfidentialTx.MaskedAmount
import ConfidentialTx.Mlsag.Basic
import ConfidentialTx.RangeProof

/-! Signatures of transactions whose amounts are hidden. Each new output comes with a commitment,
a range proof and a masked amount. A full signature has one spend proof for all inputs, which
also shows that the amounts balance. A simple signature has one for each input and commits to
the input's amount anew; these pseudo outputs balance with the outputs in the open. -/
namespace ConfidentialTx.Confidential

inductive Kind where
  /-- No hidden amounts, as in coinbase transactions. -/
  | null
  | full
  | simple
  deriving DecidableEq, Inhabited

namespace Kind

def tag : Kind → UInt8
  | null => 0
  | full => 1
  | simple => 2

def ofTag (tag : UInt8) : Except Error Kind :=
  if tag = 0 then .ok .null
  else if tag = 1 then .ok .full
  else if tag = 2 then .ok .simple
  else .error (.unknownTag "RingCT type" tag)

theorem ofTag_eq_ok_iff {t : UInt8} {k : Kind} : ofTag t = .ok k ↔ t = k.tag := by
  constructor
  · intro h
    simp only [ofTag] at h
    split at h
    · cases h; assumption
    · split at h
      · cases h; assumption
      · split at h
        · cases h; assumption
        · cases h
  · rintro rfl; cases k <;> rfl

def text : Kind → String
  | null => "Null"
  | full => "Full"
  | simple => "Simple"

end Kind

/-- A signature with all that it is about. What is not written to the wire, the message, the
rings, the destinations, the sender's keys and the key images, may be missing; lengths need
not match. -/
structure Signature where
  kind : Kind
  message : Key
  /-- Ring members: by member, then by input, if the kind is full, or else by input, then by
  member. -/
  rings : List (List Coin)
  pseudoOutputs : List Key
  maskedAmounts : List MaskedAmount
  outputs : List Coin
  fee : UInt64
  rangeProofs : List RangeProof
  spendProofs : List Mlsag.Signature
  deriving DecidableEq, Inhabited

def Signature.null : Signature :=
  ⟨.null, .zero, [], [], [], [], 0, [], []⟩

end ConfidentialTx.Confidential
