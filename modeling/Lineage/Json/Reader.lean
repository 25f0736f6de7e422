import Lineage.Json.Basic
import Lineage.Json.Focus

/-!
# Reading JSON

A strict reader by recursive descent: no comments, no trailing commas, no leading zeros, no raw
control characters in texts, no half of a surrogate pair, nothing after the value. Arrays and
objects nest at most `depthLimit` deep, and numbers lie within the range of doubles. Where a focus
keeps nothing of a value, the value is skipped, and only its grammar matters.

Each reader takes what it can from the front of the text and answers with the rest. `fuel` bounds
the recursion: no more than two calls are nested between one character taken and the next, so twice
the number of characters is always enough.
-/

namespace Lineage.Json

/-- How deep arrays and objects may nest. -/
def depthLimit : Nat := 127

/-- Skips what may stand between two tokens. -/
def skipBlanks (cs : List Char) : List Char :=
  cs.dropWhile fun c => c == ' ' || c == '\n' || c == '\t' || c == '\r'

/-! ## Texts -/

def hexValue? (c : Char) : Option Nat :=
  if '0' ≤ c ∧ c ≤ '9' then some (c.toNat - '0'.toNat)
  else if 'a' ≤ c ∧ c ≤ 'f' then some (c.toNat - 'a'.toNat + 10)
  else if 'A' ≤ c ∧ c ≤ 'F' then some (c.toNat - 'A'.toNat + 10)
  else none

/-- Reads four hexadecimal digits. -/
def hexUnit? : List Char → Option (Nat × List Char)
  | a :: b :: c :: d :: rest => do
    let a ← hexValue? a
    let b ← hexValue? b
    let c ← hexValue? c
    let d ← hexValue? d
    return (((a * 16 + b) * 16 + c) * 16 + d, rest)
  | _ => none

/-- Reads a character written as one unit of sixteen bits or as a pair of surrogates; the mark `\u`
was taken. -/
def unicodeEscape? (cs : List Char) : Option (Char × List Char) := do
  let (high, rest) ← hexUnit? cs
  if 0xdc00 ≤ high ∧ high ≤ 0xdfff then none
  else if 0xd800 ≤ high ∧ high ≤ 0xdbff then
    match rest with
    | '\\' :: 'u' :: rest => do
      let (low, rest) ← hexUnit? rest
      if 0xdc00 ≤ low ∧ low ≤ 0xdfff then
        return (Char.ofNat (0x10000 + (high - 0xd800) * 0x400 + (low - 0xdc00)), rest)
      else none
    | _ => none
  else return (Char.ofNat high, rest)

/-- The character behind a backslash, where that is a single one. -/
def simpleEscape? (c : Char) : Option Char :=
  if c = '"' then some '"'
  else if c = '\\' then some '\\'
  else if c = '/' then some '/'
  else if c = 'b' then some (Char.ofNat 0x8)
  else if c = 'f' then some (Char.ofNat 0xc)
  else if c = 'n' then some '\n'
  else if c = 'r' then some '\r'
  else if c = 't' then some '\t'
  else none

/-- Reads a text up to its closing quote; the opening one was taken. `done` holds what was read,
latest first. -/
def textBody? : Nat → List Char → List Char → Option (String × List Char)
  | 0, _, _ => none
  | _, _, [] => none
  | fuel + 1, done, c :: rest =>
    if c = '"' then some (String.ofList done.reverse, rest)
    else if c = '\\' then
      match rest with
      | 'u' :: rest => do
        let (c, rest) ← unicodeEscape? rest
        textBody? fuel (c :: done) rest
      | c :: rest => do
        let c ← simpleEscape? c
        textBody? fuel (c :: done) rest
      | [] => none
    else if c.toNat < 0x20 then none
    else textBody? fuel (c :: done) rest

/-! ## Numbers -/

/-- Reads the digits before the point: a zero, or digits that do not start with one. -/
def wholePart? (cs : List Char) : Option (List Char × List Char) :=
  let (digits, rest) := Decimal.spanDigits cs
  match digits with
  | [] => none
  | ['0'] => some (digits, rest)
  | '0' :: _ => none
  | _ => some (digits, rest)

/-- Reads a point and the digits behind it, if there is a point. -/
def fractionPart? : List Char → Option (List Char × List Char)
  | '.' :: cs =>
    let (digits, rest) := Decimal.spanDigits cs
    if digits.isEmpty then none else some (digits, rest)
  | cs => some ([], cs)

/-- Reads the parts of a number. -/
def numeral? (cs : List Char) : Option (Numeral × List Char) := do
  let (negative, cs) := match cs with
    | '-' :: cs => (true, cs)
    | cs => (false, cs)
  let (whole, afterWhole) ← wholePart? cs
  let (fraction, afterFraction) ← fractionPart? afterWhole
  let (exponent, rest) ← Decimal.exponentPart? afterFraction
  let exponent := if Decimal.startsExponent afterFraction then some exponent else none
  return ({ negative, whole, fraction, exponent }, rest)

/-- Reads a number. -/
def number? (cs : List Char) : Option (Number × List Char) := do
  let (numeral, rest) ← numeral? cs
  let n ← Number.ofNumeral? numeral
  return (n, rest)

/-! ## Skipping -/

/-- Skips a text up to its closing quote; the opening one was taken. -/
def skipText? : List Char → Option (List Char)
  | '"' :: rest => some rest
  | '\\' :: 'u' :: a :: b :: c :: d :: rest =>
    if (hexUnit? [a, b, c, d]).isSome then skipText? rest else none
  | '\\' :: c :: rest => if (simpleEscape? c).isSome then skipText? rest else none
  | c :: rest => if c.toNat < 0x20 then none else skipText? rest
  | [] => none

/-- Skips the name of a field and the colon behind it. -/
def skipName? (cs : List Char) : Option (List Char) :=
  match skipBlanks cs with
  | '"' :: rest =>
    match (skipText? rest).map skipBlanks with
    | some (':' :: rest) => some rest
    | _ => none
  | _ => none

/-- Skips a value without parts. -/
def skipScalar? : List Char → Option (List Char)
  | 'n' :: 'u' :: 'l' :: 'l' :: rest => some rest
  | 't' :: 'r' :: 'u' :: 'e' :: rest => some rest
  | 'f' :: 'a' :: 'l' :: 's' :: 'e' :: rest => some rest
  | '"' :: rest => skipText? rest
  | cs => (numeral? cs).map (·.2)

/-- What encloses a place in a text. -/
inductive Bracket where
  | array
  | object
deriving DecidableEq, Repr

/-- Goes from the end of a value to the next one. The answer is what encloses that, or nothing where
all brackets are closed. -/
def nextValue? : List Bracket → List Char → Option (List Bracket × List Char)
  | [], cs => some ([], cs)
  | bracket :: enclosing, cs =>
    match bracket, skipBlanks cs with
    | .array, ',' :: rest => some (.array :: enclosing, rest)
    | .object, ',' :: rest => (skipName? rest).map (.object :: enclosing, ·)
    | .array, ']' :: rest => nextValue? enclosing rest
    | .object, '}' :: rest => nextValue? enclosing rest
    | _, _ => none

/-- Enters the value at the front. The answer is the place of the next value, as in
`nextValue?`. -/
def enter? (enclosing : List Bracket) (cs : List Char) : Option (List Bracket × List Char) :=
  match skipBlanks cs with
  | '[' :: rest =>
    match skipBlanks rest with
    | ']' :: rest => nextValue? enclosing rest
    | rest => some (.array :: enclosing, rest)
  | '{' :: rest =>
    match skipBlanks rest with
    | '}' :: rest => nextValue? enclosing rest
    | rest => (skipName? rest).map (.object :: enclosing, ·)
  | cs => (skipScalar? cs).bind (nextValue? enclosing)

/-- Skips values until no bracket is open. -/
def skipAll? : Nat → List Bracket → List Char → Option (List Char)
  | 0, _, _ => none
  | fuel + 1, enclosing, cs =>
    match enter? enclosing cs with
    | none => none
    | some ([], rest) => some rest
    | some (enclosing, rest) => skipAll? fuel enclosing rest

/-- Skips a value behind optional blanks. -/
def skipValue? (cs : List Char) : Option (List Char) := skipAll? (cs.length + 1) [] cs

/-! ## Values -/

mutual

/-- Reads a value behind optional blanks; null stands for one that was skipped. `depth` is how many
more levels may be opened. -/
def value? : Nat → Nat → Focus → List Char → Option (Json × List Char)
  | 0, _, _, _ => none
  | _ + 1, _, .nothing, cs => (skipValue? cs).map (.null, ·)
  | fuel + 1, depth, focus, cs =>
    match skipBlanks cs with
    | 'n' :: 'u' :: 'l' :: 'l' :: rest => some (.null, rest)
    | 't' :: 'r' :: 'u' :: 'e' :: rest => some (.bool true, rest)
    | 'f' :: 'a' :: 'l' :: 's' :: 'e' :: rest => some (.bool false, rest)
    | '"' :: rest => (textBody? fuel [] rest).map fun (s, rest) => (.str s, rest)
    | '[' :: rest =>
      match depth with
      | 0 => none
      | depth + 1 =>
        match skipBlanks rest with
        | ']' :: rest => some (.arr [], rest)
        | rest => (items? fuel depth focus 0 rest).map fun (items, rest) => (.arr items, rest)
    | '{' :: rest =>
      match depth with
      | 0 => none
      | depth + 1 =>
        match skipBlanks rest with
        | '}' :: rest => some (.obj [], rest)
        | rest => (fields? fuel depth focus rest).map fun (fields, rest) => (.obj fields, rest)
    | cs => (number? cs).map fun (n, rest) => (.num n, rest)

/-- Reads one or more items up to the closing bracket; the first has this place. -/
def items? : Nat → Nat → Focus → Nat → List Char → Option (List Json × List Char)
  | 0, _, _, _, _ => none
  | fuel + 1, depth, focus, place, cs => do
    let (item, rest) ← value? fuel depth (focus.item place) cs
    match skipBlanks rest with
    | ',' :: rest => do
      let (items, rest) ← items? fuel depth focus (place + 1) rest
      return (item :: items, rest)
    | ']' :: rest => return ([item], rest)
    | _ => none

/-- Reads one or more fields up to the closing brace. Fields of which nothing is kept are left
out. -/
def fields? : Nat → Nat → Focus → List Char → Option (List (String × Json) × List Char)
  | 0, _, _, _ => none
  | fuel + 1, depth, focus, cs =>
    match skipBlanks cs with
    | '"' :: rest => do
      let (name, rest) ← textBody? fuel [] rest
      match skipBlanks rest with
      | ':' :: rest => do
        let (value, rest) ← value? fuel depth (focus.field name) rest
        let kept := focus.keep name value
        match skipBlanks rest with
        | ',' :: rest => do
          let (fields, rest) ← fields? fuel depth focus rest
          return (kept ++ fields, rest)
        | '}' :: rest => return (kept, rest)
        | _ => none
      | _ => none
    | _ => none

end

/-- What a focus keeps of the value that a text denotes, as written; none if it is not a JSON
text. -/
def parseFor? (focus : Focus) (s : String) : Option Json :=
  let cs := s.toList
  match value? (2 * cs.length + 2) depthLimit focus cs with
  | some (value, rest) => if (skipBlanks rest).isEmpty then some value else none
  | none => none

/-- The value that a text denotes, as written; none if it is not a JSON text. -/
def parse? (s : String) : Option Json := parseFor? .whole s

end Lineage.Json
