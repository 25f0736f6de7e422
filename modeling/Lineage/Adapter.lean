import Std.Data.ExtTreeMap

/-!
# Adapters

Adapter types inherit from each other: `redshift` extends `postgres`, `databricks` extends `spark`.
The chain of types above an adapter decides which packages count as internal to it, and in which
order macros are looked for in them.
-/

namespace Lineage

/-- The type that every chain ends with (`DEFAULT_ADAPTER_TYPE`). -/
def defaultAdapterType : String := "default"

/-- The package with the macros that every adapter falls back to (`FALLBACK_PACKAGE`). -/
def fallbackPackage : String := "dbt"

/-- An adapter type and the package that holds its macros (`AdapterPlugin`). -/
structure Plugin where
  adapterType : String
  packageName : String
  /-- The type it inherits from. -/
  parent : Option String := none
deriving DecidableEq, Repr

/-- A plugin that inherits from a type nobody registered (in `from_config`). -/
structure UnknownParent where
  adapter : String
  parent : String
deriving DecidableEq, Repr

def UnknownParent.message (e : UnknownParent) : String :=
  "Adapter '" ++ e.adapter ++ "' declares unknown parent adapter '" ++ e.parent ++ "'"

/-- Plugins by adapter type (`AdapterRegistry`). -/
structure Registry where
  plugins : Std.ExtTreeMap String Plugin compare := ∅
deriving DecidableEq

/-- The order in which a run comes to the plugins of a registry (in `from_config`). The registry
itself has none, so the next run may come to them in another order. -/
structure Lineup where
  order : Registry → List Plugin
  perm : ∀ r, (order r).Perm r.plugins.values

/-- By adapter type, where no lineup is given. -/
def Lineup.byType : Lineup := ⟨fun r => r.plugins.values, fun _ => .refl _⟩

namespace Registry

def empty : Registry := {}

/-- Adds a plugin, or replaces the one of its type (`register`). -/
def register (r : Registry) (p : Plugin) : Registry := ⟨r.plugins.insert p.adapterType p⟩

def registerAll (r : Registry) (plugins : List Plugin) : Registry := plugins.foldl register r

/-- The adapters that every project knows (`builtin`). -/
def builtin : Registry :=
  empty.registerAll
    [⟨"postgres", "dbt_postgres", none⟩,
      ⟨"redshift", "dbt_redshift", some "postgres"⟩,
      ⟨"snowflake", "dbt_snowflake", none⟩,
      ⟨"bigquery", "dbt_bigquery", none⟩,
      ⟨"duckdb", "dbt_duckdb", none⟩,
      ⟨"spark", "dbt_spark", none⟩,
      ⟨"databricks", "dbt_databricks", some "spark"⟩]

def get? (r : Registry) (type : String) : Option Plugin := r.plugins[type]?

/-- The type that a type inherits from, if it is registered with one. -/
def parent? (r : Registry) (type : String) : Option String := (r.get? type).bind (·.parent)

/-- The first plugin of the lineup whose parent is neither registered nor the default type
(in `from_config`). -/
def unknownParent? (r : Registry) (lineup : Lineup := .byType) : Option UnknownParent :=
  (lineup.order r).findSome? fun p =>
    match p.parent with
    | some parent =>
      if parent = defaultAdapterType ∨ r.plugins.contains parent then none
      else some ⟨p.adapterType, parent⟩
    | none => none

/-- Follows parents from a type until there is none, it is the default type or it was met before
(in `type_chain`). `fuel` bounds the length of the path. -/
def ascend (r : Registry) : Nat → List String → Option String → List String
  | 0, _, _ => []
  | _ + 1, _, none => []
  | fuel + 1, met, some type =>
    if type = defaultAdapterType ∨ met.contains type then []
    else type :: r.ascend fuel (type :: met) (r.parent? type)

/-- A type and the types it inherits from, most specific first, ending with the default type
(`type_chain`). A cycle of parents is cut where it closes. Only the last of these types need not be
registered, so the path is at most one longer than the registry is large. -/
def typeChain (r : Registry) (type : String) : List String :=
  r.ascend (r.plugins.size + 1) [] (some type) ++ [defaultAdapterType]

/-- The packages internal to an adapter, in the order they are searched, ending with the fallback
(`internal_packages`). -/
def internalPackages (r : Registry) (type : String) : List String :=
  (r.typeChain type).filterMap (fun t => (r.get? t).map (·.packageName)) ++ [fallbackPackage]

end Registry

/-- The name of the macro that implements a materialization for an adapter type
(`materialization_macro_name`). -/
def materializationName (materialization type : String) : String :=
  "materialization_" ++ materialization ++ "_" ++ type

end Lineage
