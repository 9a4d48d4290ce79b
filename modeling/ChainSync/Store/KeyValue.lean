import ChainSync.Operation
import ChainSync.Stored
import ChainSync.Text.Hex
import Std.Data.ExtTreeMap

/-!
# Key-value stores

A store keeps byte strings under byte strings. `ByteMap` is the store that keeps them in a finite
map and never fails; two such maps with the same content are equal.
-/

namespace ChainSync

/-- Why a store did not do what it was asked for. -/
inductive StoreError where
  | encode (reason : String)
  /-- Bytes stand under the key, but they are no value of the table. -/
  | corrupt (key : Bytes) (fault : Stored.Fault)
deriving DecidableEq

def Stored.Fault.decodeMessage (fault : Stored.Fault) : String :=
  s!"failed to decode value: {fault.message}"

def StoreError.message : StoreError → String
  | .encode reason => s!"failed to encode value: {reason}"
  | .corrupt key fault => s!"corrupt value under key {Hex.encode key}: {fault.decodeMessage}"

abbrev StoreM (κ : Type) : Type → Type := Operation StoreError κ

/-- Stores of byte strings under byte strings. -/
class KeyValue (κ : Type) where
  empty : κ
  get : Bytes → StoreM κ (Option Bytes)
  /-- Puts a value under a key, in place of an earlier one. -/
  put : Bytes → Bytes → StoreM κ Unit
  /-- Removes the value under a key, if there is one. -/
  remove : Bytes → StoreM κ Unit
  contains : Bytes → StoreM κ Bool
  clear : StoreM κ Unit
  size : κ → Nat

/-- A finite map from byte strings to byte strings. -/
abbrev ByteMap := Std.ExtTreeMap Bytes Bytes

instance : KeyValue ByteMap where
  empty := ∅
  get k := return (← get)[k]?
  put k v := modify (·.insert k v)
  remove k := modify (·.erase k)
  contains k := return (← get).contains k
  clear := set (∅ : ByteMap)
  size m := m.size

namespace ByteMap

/-! What each call does to a map. -/

/-- A look-up leaves the map. -/
@[simp]
theorem exec_get (k : Bytes) (m : ByteMap) :
    (KeyValue.get k : StoreM ByteMap _).exec m = (.ok m[k]?, m) := rfl

/-- A put replaces what stands under its key. -/
@[simp]
theorem exec_put (k v : Bytes) (m : ByteMap) :
    (KeyValue.put k v : StoreM ByteMap _).exec m = (.ok (), m.insert k v) := rfl

/-- A removal never fails. -/
@[simp]
theorem exec_remove (k : Bytes) (m : ByteMap) :
    (KeyValue.remove k : StoreM ByteMap _).exec m = (.ok (), m.erase k) := rfl

/-- Whether a key is there can be asked of any map. -/
@[simp]
theorem exec_contains (k : Bytes) (m : ByteMap) :
    (KeyValue.contains k : StoreM ByteMap _).exec m = (.ok (m.contains k), m) := rfl

/-- Clearing leaves the empty map. -/
@[simp]
theorem exec_clear (m : ByteMap) :
    (KeyValue.clear : StoreM ByteMap _).exec m = (.ok (), ∅) := rfl

end ByteMap
end ChainSync
