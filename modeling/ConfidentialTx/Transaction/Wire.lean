import ConfidentialTx.Transaction.Basic

/-! Bytes and digests of transactions. -/
namespace ConfidentialTx.Transaction

open Wire

/-! ## Writing -/

def coinbaseTag : UInt8 := 0xff
def scriptTag : UInt8 := 0
def scriptHashTag : UInt8 := 1
def keyTag : UInt8 := 2

def counted {α : Type} (item : α → List UInt8) (items : List α) : List UInt8 :=
  Varint.encode items.length ++ items.flatMap item

def amountBytes (v : UInt64) : List UInt8 := Varint.encode v.toNat

def Input.toBytes : Input → List UInt8
  | coinbase height => coinbaseTag :: amountBytes height
  | spend amount offsets keyImage =>
    keyTag :: (amountBytes amount ++ counted amountBytes offsets ++ keyImage.toList)

def Output.toBytes (o : Output) : List UInt8 := amountBytes o.amount ++ keyTag :: o.key.toList

def Body.toBytes (b : Body) : List UInt8 :=
  amountBytes b.version ++ amountBytes b.unlockTime ++ counted Input.toBytes b.inputs ++
    counted Output.toBytes b.outputs ++ counted (fun x => [x]) b.extra

/-- What ring signatures sign, and a part of what spend proofs sign. -/
def Body.hash (b : Body) : Digest := keccak256 b.toBytes

def Signatures.toBytes : Signatures → List UInt8
  | ring signatures => signatures.flatMap RingSignature.toBytes
  | confidential signature => signature.toBytes

def toBytes (t : Transaction) : List UInt8 := t.body.toBytes ++ t.signatures.toBytes

/-- The digest that a transaction is known by. With a confidential signature it only needs the
digest of what may be dropped. -/
def hash (t : Transaction) : Digest :=
  match t.signatures with
  | .ring _ => keccak256 t.toBytes
  | .confidential s =>
    keccak256 (t.body.hash.toList ++ s.baseHash.toList ++ s.prunableHash.toList)

/-! ## Reading -/

def inputParser (limits : Limits) : Parser Input := do
  let tag ← Parser.byte "input tag"
  if tag = coinbaseTag then do
    let height ← Parser.varint "coinbase height"
    pure (.coinbase height)
  else if tag = scriptTag then Parser.fail (.unimplemented "script inputs")
  else if tag = scriptHashTag then Parser.fail (.unimplemented "script hash inputs")
  else if tag = keyTag then do
    let amount ← Parser.varint "input amount"
    let count ← Parser.count "key offsets" limits.ringSize 1
    let offsets ← (Parser.varint "key offset").times count
    let keyImage ← Parser.key "key image"
    pure (.spend amount offsets keyImage)
  else Parser.fail (.unknownTag "input" tag)

def outputParser : Parser Output := do
  let amount ← Parser.varint "output amount"
  let tag ← Parser.byte "output tag"
  if tag = keyTag then do
    let key ← Parser.key "output key"
    pure ⟨amount, key⟩
  else if tag = scriptTag then Parser.fail (.unimplemented "script outputs")
  else if tag = scriptHashTag then Parser.fail (.unimplemented "script hash outputs")
  else Parser.fail (.unknownTag "output" tag)

/-- An input takes two bytes at least, an output two more than its key. -/
def bodyParser (limits : Limits) : Parser Body := do
  let version ← Parser.varint "version"
  let unlockTime ← Parser.varint "unlock time"
  let inputCount ← Parser.count "inputs" limits.inputs 2
  let inputs ← (inputParser limits).times inputCount
  let outputCount ← Parser.count "outputs" limits.outputs (2 + 32)
  let outputs ← outputParser.times outputCount
  let extraLength ← Parser.count "extra" limits.extraLength 1
  let extra ← Parser.bytes extraLength "extra"
  pure ⟨version, unlockTime, inputs, outputs, extra⟩

def ringSignaturesParser : List Input → Parser (List RingSignature)
  | [] => pure []
  | i :: inputs => do
    let s ← RingSignature.parse i.ringSize
    let ss ← ringSignaturesParser inputs
    pure (s :: ss)

def signaturesParser (body : Body) : Parser Signatures :=
  if body.version = 0 then Parser.fail (.unimplemented "transaction version 0")
  else if body.version = 1 then do
    let signatures ← ringSignaturesParser body.inputs
    pure (.ring signatures)
  else do
    let mixin ← Parser.ofExcept (uniformMixin body.inputs)
    let signature ← Confidential.Signature.parse body.inputs.length body.outputs.length mixin
    pure (.confidential signature)

def parser (limits : Limits) : Parser Transaction := do
  let body ← bodyParser limits
  let signatures ← signaturesParser body
  Parser.finish
  pure ⟨body, signatures, .parsed⟩

def parse (limits : Limits) (bytes : List UInt8) : Except Error Transaction :=
  (parser limits).run bytes

def Body.summary (b : Body) : String :=
  s!"parsed prefix: version {b.version}, {b.inputs.length} inputs, {b.outputs.length} outputs, " ++
    s!"{b.extra.length} bytes of extra"

def parseTrace (limits : Limits) (bytes : List UInt8) : List String :=
  match bodyParser limits (.ofBytes bytes) with
  | (.error _, _) => []
  | (.ok body, r) =>
    body.summary ::
      if body.version < 2 then []
      else
        match uniformMixin body.inputs with
        | .ok _ => Confidential.Signature.parseTrace r
        | .error _ => []

end ConfidentialTx.Transaction
