import Lineage.Json.Decode

/-!
# Resource types

The kinds of artifact a project is made of, and what each of them can do.
-/

namespace Lineage

inductive ResourceType where
  | model
  | analysis
  | test
  | snapshot
  | operation
  | seed
  | sqlOperation
  | doc
  | source
  | macroDef
  | exposure
  | metric
  | group
  | selector
  | semanticModel
  | unitTest
  | savedQuery
deriving DecidableEq, Repr

namespace ResourceType

def all : List ResourceType :=
  [model, analysis, test, snapshot, operation, seed, sqlOperation, doc, source, macroDef, exposure,
    metric, group, selector, semanticModel, unitTest, savedQuery]

/-- The written form, as in identities and in the field `resource_type` (`as_str`). -/
def name : ResourceType → String
  | model => "model"
  | analysis => "analysis"
  | test => "test"
  | snapshot => "snapshot"
  | operation => "operation"
  | seed => "seed"
  | sqlOperation => "sql_operation"
  | doc => "doc"
  | source => "source"
  | macroDef => "macro"
  | exposure => "exposure"
  | metric => "metric"
  | group => "group"
  | selector => "selector"
  | semanticModel => "semantic_model"
  | unitTest => "unit_test"
  | savedQuery => "saved_query"

def ofName? (s : String) : Option ResourceType := all.find? (·.name == s)

def ofJson? : Json → Option ResourceType := Json.choice ofName?

def toJson (t : ResourceType) : Json := .str t.name

/-- Whether artifacts of this type are kept among the nodes of a manifest (`is_node`). -/
def isNode : ResourceType → Bool
  | model | analysis | test | snapshot | operation | seed | sqlOperation => true
  | _ => false

/-- Whether artifacts of this type take part in the dependency graph (`has_dependencies`). -/
def hasDependencies (t : ResourceType) : Bool :=
  t.isNode || match t with
    | source | exposure | metric | semanticModel | unitTest | savedQuery => true
    | _ => false

/-- Whether artifacts of this type can belong to a group (`participates_in_groups`). -/
def participatesInGroups (t : ResourceType) : Bool :=
  match t with
  | operation => false
  | metric | semanticModel | savedQuery => true
  | t => t.isNode

/-- Whether `ref()` can name artifacts of this type (`is_refable`). -/
def isRefable : ResourceType → Bool
  | model | seed | snapshot => true
  | _ => false

end ResourceType

end Lineage
