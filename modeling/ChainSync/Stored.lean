import ChainSync.Text.Utf8
import ChainSync.Hash

/-!
# Stored values

How values are written in the tables of a store, and read back. A number is eight bytes, least
significant first, and a string stands after the number of its bytes. Reading ignores bytes that
follow a value, except after a hash, and its faults say where the bytes did not suffice.
-/

namespace ChainSync.Stored

/-- Why stored bytes are not a value. -/
inductive Fault where
  /-- The bytes end inside a number, a hash or a row of bytes. -/
  | endOfInput
  | textCutShort
  | notText (fault : Utf8.Fault)
  /-- A value of a fixed number of bytes has another number of them. -/
  | width (expected got : Nat)
deriving DecidableEq

def Fault.message : Fault → String
  | .endOfInput => "io error: unexpected end of file"
  | .textCutShort => "io error: "
  | .notText fault => s!"string is not valid utf8: {fault.message}"
  | .width expected got => s!"expected {expected} bytes, got {got}"

abbrev Reader (α : Type) := StateT Bytes (Except Fault) α

def take (n : Nat) : Reader Bytes := fun bs =>
  let front := bs.take n
  if front.length = n then .ok (front, bs.drop n) else .error .endOfInput

def word64 : Reader UInt64 := do
  return UInt64.ofNat (Bytes.ofLE (← take 8))

def hash : Reader Hash := fun bs =>
  if h : (bs.take 32).length = 32 then .ok (⟨bs.take 32, h⟩, bs.drop 32)
  else .error .endOfInput

/-- Reads a row of bytes that stands after their number. -/
def bytes : Reader Bytes := do
  take (← word64).toNat

/-- Reads a text that stands after the number of its bytes. -/
def text : Reader String := do
  let n := (← word64).toNat
  let bs ← get
  let front := bs.take n
  if front.length = n then
    match Utf8.decode front with
    | .ok s =>
      set (bs.drop n)
      return s
    | .error fault => throw (.notText fault)
  else throw .textCutShort

def times {α : Type} (item : Reader α) : Nat → Reader (List α)
  | 0 => return []
  | n + 1 => do
    let x ← item
    let xs ← times item n
    return x :: xs

/-- Reads the values that stand after their number. -/
def list {α : Type} (item : Reader α) : Reader (List α) := do
  times item (← word64).toNat

def counted (bs : Bytes) : Bytes := Bytes.le64 (UInt64.ofNat bs.length) ++ bs

def countedText (s : String) : Bytes := counted (Utf8.encode s)

end ChainSync.Stored

namespace ChainSync

/-- Values with a stored form. -/
class Stored (α : Type) where
  toBytes : α → Bytes
  ofBytes : Bytes → Except Stored.Fault α

instance : Stored Hash where
  toBytes h := h.bytes
  ofBytes bs :=
    match Hash.ofBytes? bs with
    | some h => .ok h
    | none => .error (.width 32 bs.length)

end ChainSync
