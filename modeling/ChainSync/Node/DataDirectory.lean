import ChainSync.FileSystem.Tree
import ChainSync.Node.Snapshot
import ChainSync.Text.Utf8

/-!
# Data directories

A node is kept in a directory: one file says how the node is kept, another one holds its snapshot.
Both are there as soon as the directory has been opened.
-/

namespace ChainSync.Node.DataDirectory

/-- The path of a data directory. The empty one is the directory from which relative paths begin. -/
def directory (dataDir : String) : String := if dataDir = "" then "." else dataDir

def file (dataDir name : String) : String := s!"{directory dataDir}/{name}"

/-- The name of the file that says how a node is kept. -/
def formatName : String := "conf"

/-- The name of the file with the snapshot of a node. -/
def snapshotName : String := "db"

def format : Bytes := Utf8.encode "chain-sync: 1\n"

variable {m : Type → Type} [Monad m] {φ : Type} [FileSystem φ m]

/-- The content of a file, which is made with some content if it is missing. -/
def readOrMake? (path : String) (fresh : Bytes) : StateT φ m (Option Bytes) := do
  match ← FileSystem.read path with
  | .ok content => return some content
  | .error .unusable => return none
  | .error .missing => return if ← FileSystem.write path fresh then some fresh else none

/-- Opens a data directory, which is made if it is missing. Returns what it holds, unless it cannot
be used. What is no snapshot counts as one of an empty node. -/
def open? (dataDir : String) : StateT φ m (Option Database) := do
  if ← FileSystem.makeDirectories (directory dataDir) then
    let found ← readOrMake? (file dataDir formatName) format
    if found ≠ some format then return none
    let snapshot ← readOrMake? (file dataDir snapshotName) ({} : Database).snapshot
    return snapshot.map fun bytes => (Database.ofSnapshot? bytes).getD {}
  else return none

/-- Keeps a node in a data directory. Returns whether that was possible. -/
def keep (dataDir : String) (db : Database) : StateT φ m Bool :=
  FileSystem.write (file dataDir snapshotName) db.snapshot

end ChainSync.Node.DataDirectory
