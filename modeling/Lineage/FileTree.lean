import Std.Data.ExtTreeMap
import Lineage.Host

/-!
# Files in memory

A tree of directories and files, and the directory that relative paths start from. A path is
followed one component at a time, and every place that it leaves has to be a directory: `walk`.
-/

namespace Lineage

/-! ## Paths -/

/-- A path, taken apart at its slashes. -/
structure Path where
  /-- Whether the path starts at the root. -/
  absolute : Bool
  /-- The components; empty ones do not count. -/
  parts : List String
  /-- Whether a slash stands behind the last component. -/
  slash : Bool
deriving DecidableEq, Repr

namespace Path

/-- The most bytes that a path can have. -/
def maxBytes : Nat := 4095

/-- The most bytes that a component can have. -/
def maxNameBytes : Nat := 255

/-- Takes a path apart. -/
def parse (path : String) : Except FileError Path :=
  if path.contains '\x00' then .error .nulInName
  else if path.isEmpty then .error .notFound
  else if maxBytes < path.utf8ByteSize then .error .nameTooLong
  else .ok {
    absolute := path.startsWith "/"
    parts := (path.splitOn "/").filter (· != "")
    slash := path.endsWith "/" }

/-- Drops what says nothing at the end of a list of components: empty ones and single dots. -/
def dropIdle (parts : List String) : List String :=
  (parts.reverse.dropWhile fun part => part == "" || part == ".").reverse

/-- The directory of a file, as the path writes it. -/
def parent (path : String) : String :=
  let folder := dropIdle (dropIdle (path.splitOn "/")).dropLast
  if folder.isEmpty && path.startsWith "/" then "/" else "/".intercalate folder

end Path

/-! ## Trees -/

/-- The names on the way from the root. -/
abbrev Place := List String

/-- What lies at a place. -/
inductive Entry where
  | directory
  | file (bytes : ByteArray)
  /-- A file that is always empty, whatever is written to it. -/
  | sink

structure FileTree where
  /-- What lies below the root. -/
  entries : Std.ExtTreeMap Place Entry compare := ∅
  /-- The directory that relative paths start from. -/
  home : Place := []

namespace FileTree

def entry? (t : FileTree) (place : Place) : Option Entry :=
  if place.isEmpty then some .directory else t.entries[place]?

def set (t : FileTree) (place : Place) (entry : Entry) : FileTree :=
  { t with entries := t.entries.insert place entry }

/-- Where a path starts. -/
def start (t : FileTree) (path : Path) : Place := if path.absolute then [] else t.home

/-! ## Building -/

/-- Follows components, and makes a directory wherever there is nothing. -/
def makeDirectories (t : FileTree) (place : Place) : List String → FileTree × Place
  | [] => (t, place)
  | "." :: parts => makeDirectories t place parts
  | ".." :: parts => makeDirectories t place.dropLast parts
  | part :: parts =>
    let next := place ++ [part]
    let t := if (t.entry? next).isSome then t else t.set next .directory
    makeDirectories t next parts

/-- Puts a directory into the tree, with those around it. -/
def insertDirectory (t : FileTree) (path : String) : FileTree :=
  match Path.parse path with
  | .error _ => t
  | .ok p => (t.makeDirectories (t.start p) p.parts).1

/-- Puts a file into the tree, with the directories around it. -/
def insert (t : FileTree) (path : String) (entry : Entry) : FileTree :=
  match Path.parse path with
  | .error _ => t
  | .ok p =>
    match p.parts.getLast? with
    | none => t
    | some name =>
      let (t, folder) := t.makeDirectories (t.start p) p.parts.dropLast
      t.set (folder ++ [name]) entry

/-! ## Following paths -/

/-- Refuses what is not a directory. -/
def directory (t : FileTree) (place : Place) : Except FileError Unit :=
  match t.entry? place with
  | some .directory => .ok ()
  | some _ => .error .notDirectory
  | none => .error .notFound

/-- Takes one step out of a directory. The place that it leads to need not exist. -/
def step (t : FileTree) (place : Place) (part : String) : Except FileError Place := do
  t.directory place
  if part = "." then return place
  else if part = ".." then return place.dropLast
  else if Path.maxNameBytes < part.utf8ByteSize then throw .nameTooLong
  else return place ++ [part]

/-- Follows components from a place. -/
def walk (t : FileTree) (place : Place) (parts : List String) : Except FileError Place :=
  parts.foldlM t.step place

/-! ## Reading and writing -/

/-- The bytes of a file. -/
def read (t : FileTree) (path : String) : Except FileError ByteArray := do
  let p ← Path.parse path
  match t.entry? (← t.walk (t.start p) p.parts) with
  | none => throw .notFound
  | some .directory => throw .isDirectory
  | some (.file bytes) => if p.slash then throw .notDirectory else return bytes
  | some .sink => if p.slash then throw .notDirectory else return ByteArray.empty

/-- Whether a path leads to anything. -/
def present (t : FileTree) (path : String) : Bool :=
  match t.read path with
  | .ok _ | .error .isDirectory => true
  | .error _ => false

/-- Makes bytes the content of a file, in a directory that has to be there. A path that ends in a
slash can only be a directory. -/
def write (t : FileTree) (path : String) (bytes : ByteArray) : Except FileError FileTree := do
  let p ← Path.parse path
  let folder ← t.walk (t.start p) p.parts.dropLast
  t.directory folder
  if p.slash then throw .isDirectory
  let place ← t.walk folder (p.parts.drop (p.parts.length - 1))
  match t.entry? place with
  | some .directory => throw .isDirectory
  | some .sink => return t
  | _ => return t.set place (.file bytes)

end FileTree

/-! ## A host in memory -/

/-- Files, and what was printed so far. -/
structure Transcript where
  files : FileTree := {}
  output : String := ""
  errors : String := ""

/-- A host in memory, where the time stands still. -/
def Transcript.host (now : String) : Host (StateM Transcript) where
  read path := return (← get).files.read path
  present path := return (← get).files.present path
  write path text := do
    match (← get).files.write path text.toUTF8 with
    | .ok files =>
      modify fun t => { t with files }
      return .ok ()
    | .error e => return .error e
  print text := modify fun t => { t with output := t.output ++ text }
  printError text := modify fun t => { t with errors := t.errors ++ text }
  now := return now

end Lineage
