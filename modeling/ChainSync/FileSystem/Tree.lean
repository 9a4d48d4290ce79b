import ChainSync.Bytes
import Std.Data.ExtTreeMap

/-!
# File systems and trees of files

A file system keeps the contents of files under paths. A path is a text; which paths lead to the same
file is for the file system to say.

One file system is a tree of files and directories, with one directory from which relative paths
begin. A path is followed name by name: every name but the last has to lead to a directory, two points
lead to the directory above, and an empty name or a lone point leads nowhere else, but from a directory
only.
-/

namespace ChainSync

/-- Why there is nothing to read at a path. -/
inductive FileFault where
  | missing
  /-- The path leads to something else than a file, or through something else than a directory. -/
  | unusable
deriving DecidableEq

/-- File systems, by the state that holds the files and the monad in which they are used. -/
class FileSystem (φ : Type) (m : Type → Type) where
  read : (path : String) → StateT φ m (Except FileFault Bytes)
  /-- Puts a content into a file, which is made if it is missing. Returns whether it is there. -/
  write : (path : String) → (content : Bytes) → StateT φ m Bool
  /-- Makes a directory, after those on the way to it. Returns whether it is there. -/
  makeDirectories : (path : String) → StateT φ m Bool

/-! ## Trees -/

/-- A place in a tree: the names on the way to it from the root, the last one first. -/
abbrev Place := List String

/-- What is at a place. -/
inductive FileEntry where
  | file (content : Bytes)
  | directory
deriving DecidableEq

/-- A tree of files and directories. -/
structure FileTree where
  /-- What is below the root, which is always there. -/
  entries : Std.ExtTreeMap Place FileEntry := ∅
  /-- The directory from which relative paths begin. -/
  current : Place := []

namespace FileTree

def maxName : Nat := 255

def maxPath : Nat := 4095

def lookup? (t : FileTree) (place : Place) : Option FileEntry :=
  if place = [] then some .directory else t.entries[place]?

/-- The place that a name leads to from a directory. Nothing has to be there. -/
def next (t : FileTree) (place : Place) (name : String) : Except FileFault Place :=
  match t.lookup? place with
  | none => .error .missing
  | some (.file _) => .error .unusable
  | some .directory =>
    if name = "" ∨ name = "." then .ok place
    else if name = ".." then .ok place.tail
    else if maxName < name.utf8ByteSize then .error .unusable
    else .ok (name :: place)

/-- The place where a path begins, and the names along it. -/
def steps (t : FileTree) (path : String) : Except FileFault (Place × List String) :=
  if path = "" then .error .missing
  else if maxPath < path.utf8ByteSize then .error .unusable
  else .ok (if path.startsWith "/" then [] else t.current, path.splitOn "/")

/-- The place that a path leads to. Nothing has to be there. -/
def locate (t : FileTree) (path : String) : Except FileFault Place := do
  let (place, names) ← t.steps path
  names.foldlM t.next place

/-- Makes a directory at a place where nothing is. -/
def withDirectory (t : FileTree) (place : Place) : FileTree :=
  match t.lookup? place with
  | none => { t with entries := t.entries.insert place .directory }
  | some _ => t

/-- Follows names from a place and makes a directory wherever they lead to nothing. Returns whether
the last one led to a directory. -/
def makeAlong (t : FileTree) (place : Place) : List String → Bool × FileTree
  | [] => (t.lookup? place = some .directory, t)
  | name :: names =>
    match t.next place name with
    | .error _ => (false, t)
    | .ok place => makeAlong (t.withDirectory place) place names

def contentOf : Option FileEntry → Except FileFault Bytes
  | none => .error .missing
  | some .directory => .error .unusable
  | some (.file content) => .ok content

def read (t : FileTree) (path : String) : Except FileFault Bytes := do
  contentOf (t.lookup? (← t.locate path))

def put (t : FileTree) (place : Place) (content : Bytes) : FileTree where
  entries := t.entries.insert place (.file content)
  current := t.current

def write (t : FileTree) (path : String) (content : Bytes) : Bool × FileTree :=
  match t.locate path with
  | .error _ => (false, t)
  | .ok place =>
    if t.lookup? place = some .directory then (false, t) else (true, t.put place content)

/-- Makes a directory, after those on the way to it. -/
def makeDirectories (t : FileTree) (path : String) : Bool × FileTree :=
  match t.steps path with
  | .error _ => (false, t)
  | .ok (place, names) => t.makeAlong place names

end FileTree

instance : FileSystem FileTree Id where
  read path t := (t.read path, t)
  write path content t := t.write path content
  makeDirectories path t := t.makeDirectories path

end ChainSync
