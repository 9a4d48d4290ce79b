import ChainSync.Node.Database

/-!
# Snapshots of a node

A snapshot is one byte string that holds all tables of a node, so that a node can be kept in a file
between two commands. The rows of a table stand in the order of their keys, after their number.
-/

namespace ChainSync.Node

def snapshotTable (table : ByteMap) : Bytes :=
  Bytes.le64 (UInt64.ofNat table.size)
    ++ table.toList.flatMap fun (key, value) => Stored.counted key ++ Stored.counted value

def rowReader : Stored.Reader (Bytes × Bytes) := do
  let key ← Stored.bytes
  return (key, ← Stored.bytes)

def tableReader : Stored.Reader ByteMap := do
  return .ofList (← Stored.list rowReader)

def Database.snapshot (db : Database) : Bytes :=
  [db.chain.blocks, db.chain.index, db.chain.markers, db.headers, db.blocks, db.links].flatMap
    snapshotTable

def Database.reader : Stored.Reader Database := do
  return {
    chain := {
      blocks := ← tableReader
      index := ← tableReader
      markers := ← tableReader }
    headers := ← tableReader
    blocks := ← tableReader
    links := ← tableReader }

/-- The node whose snapshot a byte string is; nothing follows a snapshot. -/
def Database.ofSnapshot? (bs : Bytes) : Option Database :=
  match Database.reader bs with
  | .ok (db, []) => some db
  | _ => none

end ChainSync.Node
