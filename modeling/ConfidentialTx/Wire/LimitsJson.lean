import ConfidentialTx.Json
import ConfidentialTx.Wire.Limits

/-! Limits as a part of settings: an object with some of the four fields, or an array of the
first few limits in order. Missing limits keep their standard values. Unknown fields are passed
over, whatever they hold, but need a name as well. -/
namespace ConfidentialTx.Wire.Limits

def ofJson? : Json → Option Limits
  | .object fields => do
    let fields ← Json.named? fields
    let inputs ← Json.amountField? fields "max_inputs" standard.inputs
    let outputs ← Json.amountField? fields "max_outputs" standard.outputs
    let ringSize ← Json.amountField? fields "max_ring_size" standard.ringSize
    let extraLength ← Json.amountField? fields "max_extra_len" standard.extraLength
    pure ⟨inputs, outputs, ringSize, extraLength⟩
  | .array items => do
    let ls ← items.mapM Json.amount?
    if 4 < ls.length then none
    else pure ⟨ls.getD 0 standard.inputs, ls.getD 1 standard.outputs,
      ls.getD 2 standard.ringSize, ls.getD 3 standard.extraLength⟩
  | _ => none

def parse? (text : String) : Option Limits := (Json.parse? text).bind ofJson?

end ConfidentialTx.Wire.Limits
