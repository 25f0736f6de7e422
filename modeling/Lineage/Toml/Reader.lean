import Lineage.Toml.Document
import Lineage.Toml.Scalar

/-!
# Reading TOML

A reader for documents of version 1.0. Each reader takes what it can from the front of the text and
answers with the rest. `fuel` bounds the recursion: every call is made after a character was taken
or one level further in, so a little more than the number of characters is always enough. Arrays
and tables between braces nest less than `nestingLimit` deep, and keys have fewer parts than that.
-/

namespace Lineage.Toml

def nestingLimit : Nat := 80

/-! ## Blanks and comments -/

def isSpace (c : Char) : Bool := c == ' ' || c == '\t'

def skipSpaces (cs : List Char) : List Char := cs.dropWhile isSpace

/-- Whether a character may stand in a comment or between single quotes, quotes aside. -/
def isPlain (c : Char) : Bool := c == '\t' || (' ' ≤ c && c.toNat ≠ 0x7f)

/-- Takes the end of a line, if one stands here. -/
def newline? : List Char → Option (List Char)
  | '\n' :: cs => some cs
  | '\r' :: '\n' :: cs => some cs
  | _ => none

/-- Skips blanks and a comment. -/
def skipComment (cs : List Char) : List Char :=
  match skipSpaces cs with
  | '#' :: rest => rest.dropWhile isPlain
  | rest => rest

/-- Takes the rest of a line behind a value or header: only blanks and a comment may stand there. -/
def lineEnd? (cs : List Char) : Option (List Char) :=
  match skipComment cs with
  | [] => some []
  | rest => newline? rest

/-- Skips blanks, comments and line ends, as inside an array. -/
def skipLines : Nat → List Char → List Char
  | 0, cs => cs
  | fuel + 1, cs =>
    let rest := skipComment cs
    match newline? rest with
    | some rest => skipLines fuel rest
    | none => rest

/-! ## Texts -/

/-- The character with this code; none if there is no such character. -/
def charOf? (n : Nat) : Option Char := if n.isValidChar then some (Char.ofNat n) else none

/-- Reads so many hexadecimal digits as the code of a character. -/
def codePoint? (count : Nat) (cs : List Char) : Option (Char × List Char) :=
  let digits := cs.take count
  if digits.length = count ∧ digits.all isHex then
    (charOf? (digits.foldl (fun n c => 16 * n + hexValue c) 0)).map (·, cs.drop count)
  else none

/-- Reads what stands behind a backslash. -/
def escape? : List Char → Option (Char × List Char)
  | 'b' :: cs => some (Char.ofNat 0x8, cs)
  | 't' :: cs => some ('\t', cs)
  | 'n' :: cs => some ('\n', cs)
  | 'f' :: cs => some (Char.ofNat 0xc, cs)
  | 'r' :: cs => some ('\r', cs)
  | '"' :: cs => some ('"', cs)
  | '\\' :: cs => some ('\\', cs)
  | 'u' :: cs => codePoint? 4 cs
  | 'U' :: cs => codePoint? 8 cs
  | _ => none

/-- Reads a text up to its closing double quote. -/
def basicText? : Nat → List Char → Option (List Char × List Char)
  | 0, _ => none
  | _ + 1, [] => none
  | fuel + 1, c :: rest =>
    if c = '"' then some ([], rest)
    else if c = '\\' then do
      let (c, rest) ← escape? rest
      let (cs, rest) ← basicText? fuel rest
      return (c :: cs, rest)
    else if isPlain c then (basicText? fuel rest).map fun (cs, rest) => (c :: cs, rest)
    else none

/-- Reads a text up to its closing single quote. -/
def literalText? (cs : List Char) : Option (List Char × List Char) :=
  match cs.span fun c => isPlain c && c != '\'' with
  | (text, '\'' :: rest) => some (text, rest)
  | _ => none

/-- Takes quotes: fewer than three are text. Three close the text, and up to two more before them
belong to it. The answer is the text among the quotes, and the rest where they close it. -/
def closing? (quote : Char) (cs : List Char) : List Char × Option (List Char) :=
  let quotes := (cs.takeWhile (· == quote)).take 5
  if quotes.length < 3 then (quotes, none) else (quotes.drop 3, some (cs.drop quotes.length))

/-- Skips blanks and line ends. -/
def skipEmptyLines : List Char → List Char
  | '\n' :: cs => skipEmptyLines cs
  | '\r' :: '\n' :: cs => skipEmptyLines cs
  | c :: cs => if isSpace c then skipEmptyLines cs else c :: cs
  | [] => []

/-- Skips the blanks and line ends behind a backslash at the end of a line; none if more stands on
the line. -/
def continuation? (cs : List Char) : Option (List Char) :=
  (newline? (skipSpaces cs)).map skipEmptyLines

/-- Reads a text of several lines up to the quotes that close it. `quote` tells the two forms
apart; only between double quotes does a backslash have a meaning. -/
def longText? (quote : Char) : Nat → List Char → Option (List Char × List Char)
  | 0, _ => none
  | _ + 1, [] => none
  | fuel + 1, c :: rest =>
    if c = quote then
      match closing? quote (c :: rest) with
      | (text, some rest) => some (text, rest)
      | (text, none) =>
        (longText? quote fuel (rest.drop (text.length - 1))).map fun (cs, rest) =>
          (text ++ cs, rest)
    else if c = '\\' ∧ quote = '"' then
      match continuation? rest with
      | some rest => longText? quote fuel rest
      | none => do
        let (c, rest) ← escape? rest
        let (cs, rest) ← longText? quote fuel rest
        return (c :: cs, rest)
    else
      match newline? (c :: rest) with
      | some rest => (longText? quote fuel rest).map fun (cs, rest) => ('\n' :: cs, rest)
      | none =>
        if isPlain c then (longText? quote fuel rest).map fun (cs, rest) => (c :: cs, rest)
        else none

/-- Drops a line end directly behind the opening quotes. -/
def dropFirstNewline (cs : List Char) : List Char := (newline? cs).getD cs

/-- Reads a text in any of its four forms. -/
def text? (fuel : Nat) (cs : List Char) : Option (String × List Char) :=
  let result := match cs with
    | '"' :: '"' :: '"' :: rest => longText? '"' fuel (dropFirstNewline rest)
    | '\'' :: '\'' :: '\'' :: rest => longText? '\'' fuel (dropFirstNewline rest)
    | '"' :: rest => basicText? fuel rest
    | '\'' :: rest => literalText? rest
    | _ => none
  result.map fun (text, rest) => (String.ofList text, rest)

/-! ## Keys -/

def isBareKeyChar (c : Char) : Bool := c.isAlphanum || c == '_' || c == '-'

/-- Reads one part of a key: bare, or a text on one line. -/
def keyPart? (fuel : Nat) (cs : List Char) : Option (String × List Char) :=
  let quoted (result : Option (List Char × List Char)) :=
    result.map fun (text, rest) => (String.ofList text, rest)
  match cs with
  | '"' :: rest => quoted (basicText? fuel rest)
  | '\'' :: rest => quoted (literalText? rest)
  | cs =>
    let (bare, rest) := cs.span isBareKeyChar
    if bare.isEmpty then none else some (String.ofList bare, rest)

/-- Reads the parts of a key with the blanks around them. -/
def keyParts? : Nat → List Char → Option (List String × List Char)
  | 0, _ => none
  | fuel + 1, cs => do
    let (part, rest) ← keyPart? fuel (skipSpaces cs)
    match skipSpaces rest with
    | '.' :: rest => do
      let (parts, rest) ← keyParts? fuel rest
      return (part :: parts, rest)
    | rest => return ([part], rest)

def key? (fuel : Nat) (cs : List Char) : Option (List String × List Char) :=
  (keyParts? fuel cs).filter fun (parts, _) => parts.length < nestingLimit

/-! ## Values -/

mutual

/-- Reads a value. `depth` is how many more levels may be opened. -/
def value? : Nat → Nat → List Char → Option (Toml × List Char)
  | 0, _, _ => none
  | fuel + 1, depth, cs =>
    match cs, depth with
    | '"' :: _, _ | '\'' :: _, _ => (text? fuel cs).map fun (s, rest) => (.string s, rest)
    | '[' :: _, 0 | '{' :: _, 0 => none
    | '[' :: rest, depth + 1 =>
      (items? fuel depth rest).map fun (items, rest) => (.array items, rest)
    | '{' :: rest, depth + 1 =>
      match skipSpaces rest with
      | '}' :: rest => some (.table [], rest)
      | rest => do
        let (pairs, rest) ← pairs? fuel depth rest
        let table ← ofPairs? pairs
        return (table, rest)
    | cs, _ =>
      let (word, rest) := spanWord cs
      (scalar? word).map (·, rest)

/-- Reads the items of an array up to its closing bracket. A comma may stand behind the last. -/
def items? : Nat → Nat → List Char → Option (List Toml × List Char)
  | 0, _, _ => none
  | fuel + 1, depth, cs =>
    match skipLines fuel cs with
    | ']' :: rest => some ([], rest)
    | rest => do
      let (item, rest) ← value? fuel depth rest
      match skipLines fuel rest with
      | ']' :: rest => return ([item], rest)
      | ',' :: rest => do
        let (items, rest) ← items? fuel depth rest
        return (item :: items, rest)
      | _ => none

/-- Reads the pairs of a table up to its closing brace, all on one line. -/
def pairs? : Nat → Nat → List Char → Option (List (List String × Toml) × List Char)
  | 0, _, _ => none
  | fuel + 1, depth, cs => do
    let (key, rest) ← key? fuel cs
    match rest with
    | '=' :: rest => do
      let (value, rest) ← value? fuel depth (skipSpaces rest)
      match skipSpaces rest with
      | '}' :: rest => return ([(key, value)], rest)
      | ',' :: rest => do
        let (pairs, rest) ← pairs? fuel depth rest
        return ((key, value) :: pairs, rest)
      | _ => none
    | _ => none

end

/-! ## Lines -/

/-- What one line of a document says. -/
inductive Line where
  | pair (key : List String) (value : Toml)
  | header (path : List String) (isItem : Bool)
  | blank

/-- Reads one line, up to its end. -/
def line? (fuel : Nat) (cs : List Char) : Option (Line × List Char) :=
  match skipSpaces cs with
  | '[' :: '[' :: rest => do
    let (path, rest) ← key? fuel rest
    match rest with
    | ']' :: ']' :: rest => (lineEnd? rest).map (Line.header path true, ·)
    | _ => none
  | '[' :: rest => do
    let (path, rest) ← key? fuel rest
    match rest with
    | ']' :: rest => (lineEnd? rest).map (Line.header path false, ·)
    | _ => none
  | rest =>
    match lineEnd? rest with
    | some rest => some (.blank, rest)
    | none => do
      let (key, rest) ← key? fuel rest
      match rest with
      | '=' :: rest => do
        let (value, rest) ← value? fuel (nestingLimit - 1) (skipSpaces rest)
        (lineEnd? rest).map (Line.pair key value, ·)
      | _ => none

def lines? : Nat → List Char → Option (List Line)
  | 0, _ => none
  | _ + 1, [] => some []
  | fuel + 1, cs => do
    let (line, rest) ← line? fuel cs
    let lines ← lines? fuel rest
    return line :: lines

/-- Groups lines by the header they stand under: the pairs before the first header, and the sections
from there on. -/
def sectionsOf : List Line → List (List String × Toml) × List Section
  | [] => ([], [])
  | line :: lines =>
    let (pairs, sections) := sectionsOf lines
    match line with
    | .blank => (pairs, sections)
    | .pair key value => ((key, value) :: pairs, sections)
    | .header path isItem => ([], ⟨path, isItem, pairs⟩ :: sections)

/-- The table that a document denotes; none if it is not one. A byte order mark may stand before
it. -/
def parse? (s : String) : Option Toml := do
  let cs := match s.toList with
    | '\ufeff' :: cs => cs
    | cs => cs
  let lines ← lines? (2 * cs.length + nestingLimit) cs
  let (pairs, sections) := sectionsOf lines
  ofSections? pairs sections

end Lineage.Toml
