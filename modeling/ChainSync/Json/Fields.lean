import ChainSync.Json.Text
import ChainSync.Hash

/-!
# Typed readings of JSON values

What a value says as a number of a width, a text, a list, a hash or a record. A record is an object
whose known members occur at most once, among members of other names, or an array with the fields
in order, where the last ones may be missing.
-/

namespace ChainSync.Json

/-- The number below `bound` that a value writes, without sign, fraction or exponent. -/
def natBelow? (bound : Nat) : Json → Option Nat
  | .number text => (Decimal.decode? text).filter (· < bound)
  | _ => none

def byte? (v : Json) : Option UInt8 := (v.natBelow? UInt8.size).map UInt8.ofNat

def word32? (v : Json) : Option UInt32 := (v.natBelow? UInt32.size).map UInt32.ofNat

def word64? (v : Json) : Option UInt64 := (v.natBelow? UInt64.size).map UInt64.ofNat

def text? : Json → Option String
  | .string content => unescape? content
  | _ => none

/-- The list that an array writes, if every item can be read. -/
def list? {α : Type} (item : Json → Option α) : Json → Option (List α)
  | .array items => items.mapM item
  | _ => none

def bytes? (v : Json) : Option Bytes := v.list? byte?

def hash? (v : Json) : Option Hash := v.bytes?.bind Hash.ofBytes?

/-- The value that writes bytes as an array of numbers. -/
def ofBytes (bs : Bytes) : Json := .array (bs.map fun b => nat b.toNat)

/-- The value that writes a hash as an array of numbers. -/
def ofHash (h : Hash) : Json := ofBytes h.bytes

/-- The one value of a field, if the field occurs at most once. -/
def atMostOne {α : Type} : List α → Option (Option α)
  | [] => some none
  | [v] => some (some v)
  | _ => none

/-- The values of the fields with these names, `none` for a missing one. -/
def fields? (names : List String) : Json → Option (List (Option Json))
  | .object members => do
    let members ← members.mapM fun (name, v) => (unescape? name).map fun name => (name, v)
    names.mapM fun name => atMostOne ((members.filter (·.1 = name)).map (·.2))
  | .array items =>
    if items.length ≤ names.length then
      some (items.map some ++ List.replicate (names.length - items.length) none)
    else none
  | _ => none

def record (members : List (String × Json)) : Json :=
  .object (members.map fun (name, v) => (escape name, v))

end ChainSync.Json
