import ConfidentialTx.Transaction.Wire

/-! Reading transactions whose counts are compared with their limits and with nothing else. -/
namespace ConfidentialTx.Transaction

open Wire

def inputParserUnchecked (limits : Limits) : Parser Input := do
  let tag ← Parser.byte "input tag"
  if tag = coinbaseTag then do
    let height ← Parser.varint "coinbase height"
    pure (.coinbase height)
  else if tag = scriptTag then Parser.fail (.unimplemented "script inputs")
  else if tag = scriptHashTag then Parser.fail (.unimplemented "script hash inputs")
  else if tag = keyTag then do
    let amount ← Parser.varint "input amount"
    let count ← Parser.countUnchecked "key offsets" limits.ringSize
    let offsets ← (Parser.varint "key offset").times count
    let keyImage ← Parser.key "key image"
    pure (.spend amount offsets keyImage)
  else Parser.fail (.unknownTag "input" tag)

def bodyParserUnchecked (limits : Limits) : Parser Body := do
  let version ← Parser.varint "version"
  let unlockTime ← Parser.varint "unlock time"
  let inputCount ← Parser.countUnchecked "inputs" limits.inputs
  let inputs ← (inputParserUnchecked limits).times inputCount
  let outputCount ← Parser.countUnchecked "outputs" limits.outputs
  let outputs ← outputParser.times outputCount
  let extraLength ← Parser.countUnchecked "extra" limits.extraLength
  let extra ← Parser.bytes extraLength "extra"
  pure ⟨version, unlockTime, inputs, outputs, extra⟩

def parserUnchecked (limits : Limits) : Parser Transaction := do
  let body ← bodyParserUnchecked limits
  let signatures ← signaturesParser body
  Parser.finish
  pure ⟨body, signatures, .parsed⟩

def parseUnchecked (limits : Limits) (bytes : List UInt8) : Except Error Transaction :=
  (parserUnchecked limits).run bytes

end ConfidentialTx.Transaction
