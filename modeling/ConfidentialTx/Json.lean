/-! JSON texts, read as far as settings need them: natural numbers, arrays and objects are
kept, other values are only checked to be well formed. -/
namespace ConfidentialTx

/-- A JSON value. Numbers with a sign, a fraction or an exponent count as other values, and so
do texts and literals. -/
inductive Json where
  | natural (n : Nat)
  | array (items : List Json)
  /-- A field whose name is well formed but no text, because of an escaped surrogate without
  its partner, has no name. -/
  | object (fields : List (Option String × Json))
  | other
  deriving Inhabited

namespace Json

def isBlank (c : Char) : Bool := c = ' ' || c = '\t' || c = '\n' || c = '\r'

def skipBlanks (cs : List Char) : List Char := cs.dropWhile isBlank

def hexValue? (c : Char) : Option Nat :=
  if '0' ≤ c ∧ c ≤ '9' then some (c.toNat - 48)
  else if 'a' ≤ c ∧ c ≤ 'f' then some (c.toNat - 87)
  else if 'A' ≤ c ∧ c ≤ 'F' then some (c.toNat - 55)
  else none

def hex4? : List Char → Option (Nat × List Char)
  | a :: b :: c :: d :: rest => do
    let a ← hexValue? a
    let b ← hexValue? b
    let c ← hexValue? c
    let d ← hexValue? d
    pure (((a * 16 + b) * 16 + c) * 16 + d, rest)
  | _ => none

def escape? : Char → Option Char
  | '"' => some '"'
  | '\\' => some '\\'
  | '/' => some '/'
  | 'b' => some '\x08'
  | 'f' => some '\x0c'
  | 'n' => some '\n'
  | 'r' => some '\r'
  | 't' => some '\t'
  | _ => none

def isHigh (n : Nat) : Bool := 0xd800 ≤ n && n < 0xdc00

def isLow (n : Nat) : Bool := 0xdc00 ≤ n && n < 0xe000

/-- The units of a text after its opening quote, and what follows the closing one. Escapes
with a number stand for that unit of UTF-16, other characters for their code point. -/
def units : List Char → Option (List (Bool × Nat) × List Char)
  | [] => none
  | '"' :: rest => some ([], rest)
  | '\\' :: 'u' :: a :: b :: c :: d :: rest => do
    let (n, _) ← hex4? [a, b, c, d]
    let (us, rest) ← units rest
    pure ((true, n) :: us, rest)
  | '\\' :: c :: rest => do
    let c ← escape? c
    let (us, rest) ← units rest
    pure ((false, c.toNat) :: us, rest)
  | c :: rest =>
    if c.toNat < 32 then none
    else do
      let (us, rest) ← units rest
      pure ((false, c.toNat) :: us, rest)

/-- Joins escaped surrogates, a high one with the low one right after it; `none` for a
surrogate without its partner. -/
def join : List (Bool × Nat) → Option (List Char)
  | [] => some []
  | (false, n) :: us => (join us).map (Char.ofNat n :: ·)
  | (true, n) :: us =>
    if isLow n then none
    else if isHigh n then
      match us with
      | (true, m) :: us =>
        if isLow m then
          (join us).map (Char.ofNat (0x10000 + (n - 0xd800) * 0x400 + (m - 0xdc00)) :: ·)
        else none
      | _ => none
    else (join us).map (Char.ofNat n :: ·)

def name (cs : List Char) : Option (Option String × List Char) :=
  (units cs).map fun r => ((join r.1).map String.ofList, r.2)

def isDigit (c : Char) : Bool := '0' ≤ c && c ≤ '9'

def digitsValue (ds : List Char) : Nat := ds.foldl (fun n c => 10 * n + (c.toNat - 48)) 0

def digits1 (cs : List Char) : Option (List Char × List Char) :=
  match cs.takeWhile isDigit with
  | [] => none
  | ds => some (ds, cs.dropWhile isDigit)

/-- Digits of which the first is zero only if it is the only one. -/
def integer (cs : List Char) : Option (Nat × List Char) :=
  match digits1 cs with
  | none => none
  | some ('0' :: _ :: _, _) => none
  | some (ds, rest) => some (digitsValue ds, rest)

/-- What follows an optional fraction, and whether there was one. -/
def fraction (cs : List Char) : Option (Bool × List Char) :=
  match cs with
  | '.' :: rest => (digits1 rest).map fun r => (true, r.2)
  | _ => some (false, cs)

def dropSign : List Char → List Char
  | '+' :: rest => rest
  | '-' :: rest => rest
  | cs => cs

def exponent (cs : List Char) : Option (Bool × List Char) :=
  match cs with
  | c :: rest =>
    if c = 'e' ∨ c = 'E' then (digits1 (dropSign rest)).map fun r => (true, r.2)
    else some (false, cs)
  | [] => some (false, cs)

def number (cs : List Char) : Option (Json × List Char) := do
  let (n, rest) ← integer cs
  let (f, rest) ← fraction rest
  let (e, rest) ← exponent rest
  pure (if f || e then .other else .natural n, rest)

mutual

/-- A value that begins at the first character; nested values are looked for to the given
depth of calls. -/
def value : Nat → List Char → Option (Json × List Char)
  | 0, _ => none
  | fuel + 1, cs =>
    match cs with
    | '[' :: rest =>
      match skipBlanks rest with
      | ']' :: rest => some (.array [], rest)
      | rest => (items fuel rest).map fun r => (.array r.1, r.2)
    | '{' :: rest =>
      match skipBlanks rest with
      | '}' :: rest => some (.object [], rest)
      | rest => (fields fuel rest).map fun r => (.object r.1, r.2)
    | '"' :: rest => (units rest).map fun r => (.other, r.2)
    | 'n' :: 'u' :: 'l' :: 'l' :: rest => some (.other, rest)
    | 't' :: 'r' :: 'u' :: 'e' :: rest => some (.other, rest)
    | 'f' :: 'a' :: 'l' :: 's' :: 'e' :: rest => some (.other, rest)
    | '-' :: rest => (number rest).map fun r => (.other, r.2)
    | _ => number cs

def items : Nat → List Char → Option (List Json × List Char)
  | 0, _ => none
  | fuel + 1, cs => do
    let (v, rest) ← value fuel (skipBlanks cs)
    match skipBlanks rest with
    | ',' :: rest =>
      let (vs, rest) ← items fuel rest
      pure (v :: vs, rest)
    | ']' :: rest => pure ([v], rest)
    | _ => none

def fields : Nat → List Char → Option (List (Option String × Json) × List Char)
  | 0, _ => none
  | fuel + 1, cs =>
    match skipBlanks cs with
    | '"' :: rest => do
      let (k, rest) ← name rest
      match skipBlanks rest with
      | ':' :: rest =>
        let (v, rest) ← value fuel (skipBlanks rest)
        match skipBlanks rest with
        | ',' :: rest =>
          let (fs, rest) ← fields fuel rest
          pure ((k, v) :: fs, rest)
        | '}' :: rest => pure ([(k, v)], rest)
        | _ => none
      | _ => none
    | _ => none

end

def parse? (text : String) : Option Json := do
  let cs := text.toList
  let (v, rest) ← value (2 * cs.length + 2) (skipBlanks cs)
  match skipBlanks rest with
  | [] => some v
  | _ => none

def amount? : Json → Option UInt64
  | natural n => if n < UInt64.size then some (UInt64.ofNat n) else none
  | _ => none

def named? (fields : List (Option String × Json)) : Option (List (String × Json)) :=
  fields.mapM fun f => f.1.map fun name => (name, f.2)

/-- The amount of a named field that may be left out but not be given twice. -/
def amountField? (fields : List (String × Json)) (name : String) (missing : UInt64) :
    Option UInt64 :=
  match fields.filter (fun f => f.1 = name) with
  | [] => some missing
  | [(_, v)] => v.amount?
  | _ => none

end Json
end ConfidentialTx
