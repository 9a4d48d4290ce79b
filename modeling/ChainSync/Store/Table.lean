import ChainSync.Store.KeyValue

/-!
# Typed tables

A table keeps values of one type under hashes, in a store of bytes. A value that is there but
cannot be decoded is an error and never counts as missing.
-/

namespace ChainSync

/-- A store whose rows are read as values of type `α`. -/
structure Table (κ α : Type) where
  rows : κ

namespace Table

variable {κ α β : Type}

/-- Acts on the rows of the table. -/
def onRows (act : StoreM κ β) : StoreM (Table κ α) β :=
  act.onPart (·.rows) (fun rows _ => ⟨rows⟩) id

variable [KeyValue κ] [Stored α]

/-- The table without rows. -/
def empty : Table κ α := ⟨KeyValue.empty⟩

/-- The value under a hash. -/
def get (key : Hash) : StoreM (Table κ α) (Option α) := do
  match ← onRows (KeyValue.get key.bytes) with
  | none => return none
  | some bs =>
    match Stored.ofBytes bs with
    | .ok v => return some v
    | .error fault => throw (.corrupt key.bytes fault)

/-- Puts a value under a hash, in place of an earlier one. -/
def put (key : Hash) (value : α) : StoreM (Table κ α) Unit :=
  onRows (KeyValue.put key.bytes (Stored.toBytes value))

/-- Removes the value under a hash, if there is one. -/
def remove (key : Hash) : StoreM (Table κ α) Unit := onRows (KeyValue.remove key.bytes)

/-- Whether anything stands under a hash; it is not decoded. -/
def contains (key : Hash) : StoreM (Table κ α) Bool := onRows (KeyValue.contains key.bytes)

/-- Removes all rows. -/
def clear : StoreM (Table κ α) Unit := onRows KeyValue.clear

/-- The number of rows. -/
def size (t : Table κ α) : Nat := KeyValue.size t.rows

end Table
end ChainSync
