/-!
# Options

How the words of a command line divide into options and positional words. An option is written
`--long`, `--long VALUE`, `--long=VALUE`, or with one letter as `-l`, `-l VALUE`, `-lVALUE` and
`-l=VALUE`; several letters may follow one dash. Behind `--` every word is positional. A value that
is a word of its own does not start with a dash, unless it is nothing but one.
-/

namespace Lineage

/-- What may follow an option. -/
inductive Parameter where
  | flag
  | text
  /-- A path is not empty. -/
  | path
deriving DecidableEq, Repr

structure CommandOption where
  long : String
  short : Option Char := none
  parameter : Parameter := .text
  repeatable : Bool := false
deriving DecidableEq, Repr

namespace CommandOption

/-- An option that was given, by its long name; a flag has an empty value. -/
abbrev Given := String × String

/-- Checks a value. -/
def given? (o : CommandOption) (value : String) : Option Given :=
  if o.parameter = .flag ∨ (o.parameter = .path ∧ value.isEmpty) then none
  else some (o.long, value)

/-- What one word of a command line stands for. -/
inductive Word where
  /-- Not an option. -/
  | plain
  /-- Options that are complete. -/
  | complete (given : List Given)
  /-- Options of which the last takes the next word for its value. -/
  | pending (given : List Given) (last : CommandOption)
deriving DecidableEq, Repr

/-- Reads a word that starts with two dashes, which were taken. -/
def longWord? (options : List CommandOption) (cs : List Char) : Option Word := do
  let (name, rest) := cs.span (· != '=')
  let o ← options.find? (·.long == String.ofList name)
  match rest with
  | [] => if o.parameter = .flag then some (.complete [(o.long, "")]) else some (.pending [] o)
  | _ :: value => do
    let given ← o.given? (String.ofList value)
    return .complete [given]

/-- Reads a word that starts with one dash, which was taken. -/
def shortWord? (options : List CommandOption) (given : List Given) : List Char → Option Word
  | [] => some (.complete given)
  | c :: cs => do
    let o ← options.find? (·.short == some c)
    if o.parameter = .flag then shortWord? options (given ++ [(o.long, "")]) cs
    else
      match cs with
      | [] => return .pending given o
      | '=' :: value => return .complete (given ++ [← o.given? (String.ofList value)])
      | value => return .complete (given ++ [← o.given? (String.ofList value)])

/-- Reads one word; none if it is an unknown option. -/
def word? (options : List CommandOption) (s : String) : Option Word :=
  match s.toList with
  | '-' :: '-' :: cs => longWord? options cs
  | ['-'] => some .plain
  | '-' :: cs => shortWord? options [] cs
  | _ => some .plain

/-- Whether a word can be the value of the option before it. -/
def isValue (s : String) : Bool := !s.startsWith "-" || s == "-"

/-- A command line up to some word. -/
structure Scan where
  given : List Given := []
  words : List String := []
  /-- The words that are left. -/
  rest : List String := []
deriving DecidableEq, Repr

/-- Divides words into options and positional ones. With `first`, it stops behind the first
positional word, and `--` may not come before that. -/
def scan? (options : List CommandOption) (first : Bool) (done : Scan) : List String → Option Scan
  | [] => some done
  | s :: ss =>
    if s = "--" then
      if first then none else some { done with words := done.words ++ ss }
    else
      match word? options s with
      | none => none
      | some .plain =>
        let done := { done with words := done.words ++ [s] }
        if first then some { done with rest := ss } else scan? options first done ss
      | some (.complete given) =>
        scan? options first { done with given := done.given ++ given } ss
      | some (.pending given last) =>
        match ss with
        | [] => none
        | value :: ss =>
          if isValue value then
            match last.given? value with
            | some g => scan? options first { done with given := done.given ++ given ++ [g] } ss
            | none => none
          else none

/-- Whether each option that may be given only once is. -/
def once (options : List CommandOption) (given : List Given) : Bool :=
  options.all fun o => o.repeatable || (given.filter (·.1 == o.long)).length ≤ 1

/-- Divides a command line, or the part of it up to the first positional word. -/
def read? (options : List CommandOption) (first : Bool) (ss : List String) : Option Scan :=
  (scan? options first {} ss).filter fun scan => once options scan.given

/-- The value of an option, the last one if there are several. -/
def valueOf? (long : String) (given : List Given) : Option String := given.reverse.lookup long

/-- All values of an option. -/
def valuesOf (long : String) (given : List Given) : List String :=
  (given.filter (·.1 == long)).map (·.2)

def isGiven (long : String) (given : List Given) : Bool := given.any (·.1 == long)

end CommandOption

end Lineage
