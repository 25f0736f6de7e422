import Lineage.Decimal.Basic
import Lineage.Graph.Selection
import Lineage.Text.Blank

/-!
# Selectors

The written form of a selection around one node: `orders`, `+orders`, `2+orders+1`, `@orders`. A
selector has at most one part before the name and one behind it; a plus sign anywhere else is
refused.
-/

namespace Lineage

/-- How far a selection extends in one direction (`Expansion`). -/
inductive Extent where
  | unbounded
  /-- At most this many edges. -/
  | edges (n : Nat)
deriving DecidableEq, Repr

/-- The bound that an extent puts on a search (`max_depth`). -/
def Extent.bound? : Extent → Option Nat
  | .unbounded => none
  | .edges n => some n

/-- A selection around a node that is given by name or identity (`SelectionExpr`). -/
inductive Selector where
  /-- The node, all that depends on it, and all that any of those depends on. -/
  | family (node : String)
  /-- The node with some of what it depends on and some of what depends on it. -/
  | around (parents : Option Extent) (node : String) (children : Option Extent)
deriving DecidableEq, Repr

/-- Why a text is no selector. Each cause quotes the text it was found in. -/
inductive SelectorError where
  /-- The form with `@` has no name or a plus sign. -/
  | mixedForms (text : String)
  | missingName (text : String)
  /-- A plus sign stands inside the name. -/
  | strayPlus (text : String)
  /-- A number of edges does not fit 64 bits. -/
  | tooDeep (text : String)
deriving DecidableEq, Repr

def SelectorError.message : SelectorError → String
  | .mixedForms text => "Invalid selector '" ++ text ++ "': '@' cannot be combined with '+'"
  | .missingName text => "Invalid selector '" ++ text ++ "': missing node name"
  | .strayPlus text => "Invalid selector '" ++ text ++ "': unexpected '+' in node name"
  | .tooDeep text =>
    "Invalid depth in selector '" ++ text ++ "': number too large to fit in target type"

namespace Selector

def node : Selector → String
  | .family node => node
  | .around _ node _ => node

/-! ## Reading -/

/-- The extent that a run of digits denotes (`parse_depth`); `text` is quoted if it is too large. -/
def extent (digits text : List Char) : Except SelectorError Extent :=
  let n := Decimal.ofDigits digits
  if n < twoTo 64 then .ok (.edges n) else .error (.tooDeep (String.ofList text))

/-- Splits off the part before the name (`split_parents`): a plus sign, behind digits or none.
Digits without a plus sign belong to the name. -/
def takeParents (cs : List Char) : Except SelectorError (Option Extent × List Char) :=
  match Decimal.spanDigits cs with
  | ([], '+' :: rest) => .ok (some .unbounded, rest)
  | (digits, '+' :: rest) => (extent digits cs).map fun e => (some e, rest)
  | _ => .ok (none, cs)

/-- What stands before and behind the last plus sign, if there is one (in `split_children`). -/
def cutAtLastPlus (cs : List Char) : Option (List Char × List Char) :=
  match cs.reverse.span (· != '+') with
  | (behind, _ :: before) => some (before.reverse, behind.reverse)
  | (_, []) => none

/-- Splits off the part behind the name (`split_children`): a plus sign, before digits or none. -/
def takeChildren (cs : List Char) : Except SelectorError (List Char × Option Extent) :=
  match cutAtLastPlus cs with
  | none => .ok (cs, none)
  | some (name, []) => .ok (name, some .unbounded)
  | some (name, digits) =>
    if digits.all Char.isDigit then (extent digits cs).map fun e => (name, some e)
    else .error (.strayPlus (String.ofList cs))

/-- Reads a selector (`parse`); blanks around it do not count. -/
def parse (text : String) : Except SelectorError Selector :=
  let text := Text.trim text
  match text.toList with
  | '@' :: name =>
    if name.isEmpty || name.contains '+' then .error (.mixedForms text)
    else .ok (.family (String.ofList name))
  | cs => do
    let (parents, rest) ← takeParents cs
    let (name, children) ← takeChildren rest
    if name.isEmpty then .error (.missingName text)
    else .ok (.around parents (String.ofList name) children)

/-! ## Writing -/

/-- The part before a name. -/
def parentsText : Option Extent → String
  | none => ""
  | some .unbounded => "+"
  | some (.edges n) => toString n ++ "+"

/-- The part behind a name. -/
def childrenText : Option Extent → String
  | none => ""
  | some .unbounded => "+"
  | some (.edges n) => "+" ++ toString n

/-- The written form of a selector. -/
def toText : Selector → String
  | .family node => "@" ++ node
  | .around parents node children => parentsText parents ++ node ++ childrenText children

/-! ## Selecting -/

/-- The nodes that are selected in one direction (in `expand`). -/
def extend (select : Option Nat → NodeSet) : Option Extent → NodeSet
  | none => ∅
  | some e => select e.bound?

/-- The selected nodes, where `id` is the identity of the node that the selector names
(`expand`). -/
def expand (s : Selector) (g : Graph) (id : NodeId) : NodeSet :=
  match s with
  | .family _ => g.selectChildrensParents [id]
  | .around parents _ children =>
    Std.ExtTreeSet.ofList (id :: ((extend (g.selectParents [id]) parents).toList
      ++ (extend (g.selectChildren [id]) children).toList)) compare

end Selector

end Lineage
