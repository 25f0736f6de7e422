import Lineage.Decimal.Double
import Lineage.Toml.Basic

/-!
# TOML numbers, dates and times

These values are written without quotes. `scalar?` decides what such a word denotes: a truth value,
a whole number of 64 bits, a real number, or a date or time.
-/

namespace Lineage.Toml

/-! ## Numbers -/

/-- The digits of a number whose digits may be parted by single underscores; none for an underscore
at either end or next to another. -/
def digitRun? (isDigit : Char → Bool) : List Char → Option (List Char)
  | [] => none
  | [c] => if isDigit c then some [c] else none
  | c :: '_' :: rest => if isDigit c then (digitRun? isDigit rest).map (c :: ·) else none
  | c :: rest => if isDigit c then (digitRun? isDigit rest).map (c :: ·) else none

/-- The digits of a whole decimal number, which start with a zero only if that is all. -/
def wholeDigits? (cs : List Char) : Option (List Char) :=
  match digitRun? Char.isDigit cs with
  | some ('0' :: _ :: _) => none
  | digits => digits

/-- Splits off a sign; the answer says whether it is a minus. -/
def splitSign : List Char → Bool × List Char
  | '+' :: cs => (false, cs)
  | '-' :: cs => (true, cs)
  | cs => (false, cs)

/-- A number between `-2 ^ 63` and `2 ^ 63 - 1`. -/
def integerOf? (n : Int) : Option Toml :=
  if -(twoTo 63 : Int) ≤ n ∧ n < twoTo 63 then some (.integer n) else none

def isOctal (c : Char) : Bool := '0' ≤ c && c ≤ '7'

def isBinary (c : Char) : Bool := c == '0' || c == '1'

def isHex (c : Char) : Bool := c.isDigit || ('a' ≤ c && c ≤ 'f') || ('A' ≤ c && c ≤ 'F')

def hexValue (c : Char) : Nat :=
  if c.isDigit then c.toNat - '0'.toNat
  else if 'a' ≤ c && c ≤ 'f' then c.toNat - 'a'.toNat + 10
  else c.toNat - 'A'.toNat + 10

/-- A number written to another base, without a sign. -/
def based? (base : Nat) (isDigit : Char → Bool) (cs : List Char) : Option Toml :=
  (digitRun? isDigit cs).bind fun digits =>
    integerOf? (digits.foldl (fun n c => base * n + hexValue c) 0 : Nat)

def integer? : List Char → Option Toml
  | '0' :: 'x' :: cs => based? 16 isHex cs
  | '0' :: 'o' :: cs => based? 8 isOctal cs
  | '0' :: 'b' :: cs => based? 2 isBinary cs
  | cs =>
    let (negative, cs) := splitSign cs
    (wholeDigits? cs).bind fun digits =>
      let n : Int := Decimal.ofDigits digits
      integerOf? (if negative then -n else n)

/-- The exponent behind its mark. -/
def exponent? (cs : List Char) : Option Int :=
  let (negative, cs) := splitSign cs
  (digitRun? Char.isDigit cs).map fun digits =>
    let n : Int := Decimal.ofDigits digits
    if negative then -n else n

/-- A real number with a point, an exponent or both. Below the range of doubles it is infinite; it
may not lie above. -/
def decimal? (negative : Bool) (cs : List Char) : Option Toml := do
  let isMark (c : Char) : Bool := c == 'e' || c == 'E'
  let (mantissa, scale) := cs.span (!isMark ·)
  let (whole, fraction) := mantissa.span (· != '.')
  let whole ← wholeDigits? whole
  let fraction ← match fraction with
    | [] => if scale.isEmpty then none else some []
    | _ :: digits => digitRun? Char.isDigit digits
  let exponent ← match scale with
    | [] => some 0
    | _ :: digits => exponent? digits
  match Double.ofDecimal (Decimal.ofParts negative whole fraction exponent) with
  | .infinite false => none
  | _ => some .real

def real? (cs : List Char) : Option Toml :=
  let (negative, cs) := splitSign cs
  if cs = ['i', 'n', 'f'] ∨ cs = ['n', 'a', 'n'] then some .real else decimal? negative cs

/-! ## Dates and times -/

/-- The number of so many digits. -/
def fixedDigits? (count : Nat) (cs : List Char) : Option Nat :=
  if cs.length = count ∧ cs.all Char.isDigit then some (Decimal.ofDigits cs) else none

def isLeapYear (year : Nat) : Bool := year % 4 == 0 && (year % 100 != 0 || year % 400 == 0)

def daysInMonth (year month : Nat) : Nat :=
  if month = 2 then if isLeapYear year then 29 else 28
  else if month = 4 ∨ month = 6 ∨ month = 9 ∨ month = 11 then 30
  else 31

/-- Whether a text of ten characters is a date. -/
def isDate (cs : List Char) : Bool :=
  match cs with
  | [y₁, y₂, y₃, y₄, '-', m₁, m₂, '-', d₁, d₂] =>
    match fixedDigits? 4 [y₁, y₂, y₃, y₄], fixedDigits? 2 [m₁, m₂], fixedDigits? 2 [d₁, d₂] with
    | some year, some month, some day =>
      1 ≤ month && month ≤ 12 && 1 ≤ day && day ≤ daysInMonth year month
    | _, _, _ => false
  | _ => false

/-- Whether a text is an hour and a minute. -/
def isClock (cs : List Char) : Bool :=
  match cs with
  | [h₁, h₂, ':', m₁, m₂] =>
    match fixedDigits? 2 [h₁, h₂], fixedDigits? 2 [m₁, m₂] with
    | some hour, some minute => hour ≤ 23 && minute ≤ 59
    | _, _ => false
  | _ => false

/-- Splits off a time of day with seconds and any fraction of them; none if there is none. -/
def timeOfDay? (cs : List Char) : Option (List Char) :=
  match cs.drop 5 with
  | ':' :: s₁ :: s₂ :: rest =>
    if isClock (cs.take 5) && ((fixedDigits? 2 [s₁, s₂]).any (· ≤ 60)) then
      match rest with
      | '.' :: fraction =>
        let (digits, rest) := fraction.span Char.isDigit
        if digits.isEmpty then none else some rest
      | rest => some rest
    else none
  | _ => none

/-- Whether a text is an offset from universal time. -/
def isOffset (cs : List Char) : Bool :=
  match cs with
  | ['z'] | ['Z'] => true
  | '+' :: clock | '-' :: clock => isClock clock
  | _ => false

def isDatetime (cs : List Char) : Bool :=
  if isDate (cs.take 10) then
    match cs.drop 10 with
    | [] => true
    | mark :: time =>
      (mark == 'T' || mark == 't' || mark == ' ')
        && (timeOfDay? time).any fun rest => rest.isEmpty || isOffset rest
  else timeOfDay? cs == some []

/-! ## Words -/

/-- What a word without quotes denotes. -/
def scalar? (word : List Char) : Option Toml :=
  if word = ['t', 'r', 'u', 'e'] then some (.boolean true)
  else if word = ['f', 'a', 'l', 's', 'e'] then some (.boolean false)
  else if isDatetime word then some .datetime
  else (integer? word).or (real? word)

def isWordChar (c : Char) : Bool :=
  c.isAlphanum || c == '+' || c == '-' || c == '_' || c == '.' || c == ':'

/-- Splits off a word. A date and a time of day may be parted by a blank. -/
def spanWord (cs : List Char) : List Char × List Char :=
  let (word, rest) := cs.span isWordChar
  match rest with
  | ' ' :: c :: more =>
    if c.isDigit && isDate word then
      let (time, rest) := (c :: more).span isWordChar
      (word ++ ' ' :: time, rest)
    else (word, rest)
  | _ => (word, rest)

end Lineage.Toml
