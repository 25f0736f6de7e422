import Lineage.Toml.Basic

/-!
# Assembling a TOML document

A document is a list of sections, each with a header and the pairs below it. A table may be written
in several places only as far as the later place adds to what the earlier one left open: a table
that a longer header implied can still get a header of its own, and a table that dotted keys made
can be extended by dotted keys.
-/

namespace Lineage.Toml

/-- How a table came to be. -/
inductive TableOrigin where
  /-- A header names it. -/
  | header
  /-- A header names a table inside it. -/
  | implied
  /-- A dotted key leads through it. -/
  | dotted
deriving DecidableEq, Repr

/-- A part of a document that is still being assembled. -/
inductive Draft where
  | value (v : Toml)
  | table (origin : TableOrigin) (entries : List (String × Draft))
  /-- An array of tables, the latest first; there is at least one. -/
  | tables (entries : List (List (String × Draft)))
deriving Inhabited

abbrev Drafts := List (String × Draft)

/-- Puts an entry in the place of the one of its name, or at the end. -/
def setEntry (name : String) (d : Draft) (entries : Drafts) : Drafts :=
  if (entries.lookup name).isSome then
    entries.map fun entry => if entry.1 == name then (name, d) else entry
  else entries ++ [(name, d)]

/-- Adds a value under a key. No entry is replaced, and dotted keys extend only what dotted keys
made. -/
def insertPair : List String → Toml → Drafts → Option Drafts
  | [], _, _ => none
  | [key], v, entries =>
    match entries.lookup key with
    | none => some (setEntry key (.value v) entries)
    | some _ => none
  | key :: next :: rest, v, entries =>
    match entries.lookup key with
    | none =>
      (insertPair (next :: rest) v []).map fun inner =>
        setEntry key (.table .dotted inner) entries
    | some (.table origin inner) =>
      if origin = .header ∨ (origin = .implied ∧ rest = []) then none
      else (insertPair (next :: rest) v inner).map fun inner =>
        setEntry key (.table origin inner) entries
    | some (.tables (last :: earlier)) =>
      if rest = [] then none
      else (insertPair (next :: rest) v last).map fun last =>
        setEntry key (.tables (last :: earlier)) entries
    | some _ => none

def insertPairs (pairs : List (List String × Toml)) (entries : Drafts) : Option Drafts :=
  pairs.foldlM (fun entries (key, v) => insertPair key v entries) entries

/-- The lines between one header and the next. -/
structure Section where
  /-- The key in the header. -/
  path : List String
  /-- Whether the header adds to an array of tables. -/
  isItem : Bool
  pairs : List (List String × Toml)

/-- Adds a section below its header. -/
def insertSection (isItem : Bool) (pairs : List (List String × Toml)) :
    List String → Drafts → Option Drafts
  | [], _ => none
  | [key], entries =>
    match entries.lookup key, isItem with
    | none, false => (insertPairs pairs []).map fun t => setEntry key (.table .header t) entries
    | some (.table .implied t), false =>
      (insertPairs pairs t).map fun t => setEntry key (.table .header t) entries
    | none, true => (insertPairs pairs []).map fun t => setEntry key (.tables [t]) entries
    | some (.tables ts), true =>
      (insertPairs pairs []).map fun t => setEntry key (.tables (t :: ts)) entries
    | _, _ => none
  | key :: rest, entries =>
    match entries.lookup key with
    | none =>
      (insertSection isItem pairs rest []).map fun inner =>
        setEntry key (.table .implied inner) entries
    | some (.table origin inner) =>
      (insertSection isItem pairs rest inner).map fun inner =>
        setEntry key (.table origin inner) entries
    | some (.tables (last :: earlier)) =>
      (insertSection isItem pairs rest last).map fun last =>
        setEntry key (.tables (last :: earlier)) entries
    | some _ => none

mutual

/-- The value that an assembled part stands for. -/
def Draft.freeze : Draft → Toml
  | .value v => v
  | .table _ entries => .table (freezeEntries entries)
  | .tables ts => .array (freezeTables ts).reverse

def freezeEntries : List (String × Draft) → List (String × Toml)
  | [] => []
  | (name, d) :: entries => (name, d.freeze) :: freezeEntries entries

def freezeTables : List (List (String × Draft)) → List Toml
  | [] => []
  | t :: ts => .table (freezeEntries t) :: freezeTables ts

end

/-- The table of these pairs, as between braces. -/
def ofPairs? (pairs : List (List String × Toml)) : Option Toml :=
  (insertPairs pairs []).map fun entries => .table (freezeEntries entries)

/-- The document with these pairs before the first header and these sections. -/
def ofSections? (pairs : List (List String × Toml)) (sections : List Section) : Option Toml := do
  let entries ← insertPairs pairs []
  let entries ← sections.foldlM (fun entries s => insertSection s.isItem s.pairs s.path entries)
    entries
  return .table (freezeEntries entries)

end Lineage.Toml
