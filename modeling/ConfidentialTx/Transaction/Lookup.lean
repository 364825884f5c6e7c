import ConfidentialTx.Transaction.Verification

/-! Expanding and deciding about transactions with values that are looked up by number. There is no
outcome if one of them is not there. -/
namespace ConfidentialTx.Transaction

/-- Rings by member, looked up by position; nothing if a position is not there. -/
def byMember? (size : Nat) (rings : List (List Coin)) : Option (List (List Coin)) :=
  (List.range size).mapM fun member => rings.mapM (·[member]?)

/-- The signatures of the inputs from number `i` on, which are looked up by number; nothing if a
number is not there. -/
def checkRingSignaturesAt (C : KeyGroup) (message : Digest) (rings : List (List Key))
    (signatures : List RingSignature) (i : Nat) : List Input → Option (Except Rejection Unit)
  | [] => some (.ok ())
  | input :: inputs =>
    match input.keyImage? with
    | none => checkRingSignaturesAt C message rings signatures (i + 1) inputs
    | some image =>
      match rings[i]?, signatures[i]? with
      | some ring, some s =>
        match RingSignature.check C message image ring s with
        | .error cause => some (.error (.ringSignature i cause))
        | .ok _ => checkRingSignaturesAt C message rings signatures (i + 1) inputs
      | _, _ => none

end ConfidentialTx.Transaction
