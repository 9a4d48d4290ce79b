import ChainSync.Text.Ascii

/-!
# Decimal numbers

`encode` writes a number in as few digits as it has. `decode?` reads any row of digits. `word`
reads a number below a bound from left to right, as people type it: a plus sign and zeros may come
first, and the first fault is named.
-/

namespace ChainSync.Decimal

def encode (n : Nat) : Bytes :=
  (Nat.toDigits 10 n).map fun c => UInt8.ofNat c.toNat

def isDigit (b : UInt8) : Bool := 48 ≤ b && b ≤ 57

def digitValue (b : UInt8) : Nat := b.toNat - 48

def value (ds : Bytes) : Nat := ds.foldl (fun n b => n * 10 + digitValue b) 0

/-- The number that a text writes, if it is a row of at least one digit. -/
def decode? (ds : Bytes) : Option Nat :=
  if ds ≠ [] ∧ ds.all isDigit then some (value ds) else none

/-- Why a text is not a number below a bound. -/
inductive WordError where
  | empty
  | invalidDigit
  /-- The digits write a number that reaches the bound. -/
  | tooLarge
deriving DecidableEq

def WordError.message : WordError → String
  | .empty => "cannot parse integer from empty string"
  | .invalidDigit => "invalid digit found in string"
  | .tooLarge => "number too large to fit in target type"

/-- Reads digits after a number `n`, which they extend. -/
def extend (bound n : Nat) : Bytes → Except WordError Nat
  | [] => .ok n
  | b :: rest =>
    if isDigit b then
      let next := n * 10 + digitValue b
      if next < bound then extend bound next rest else .error .tooLarge
    else .error .invalidDigit

def word (bound : Nat) : Bytes → Except WordError Nat
  | [] => .error .empty
  | Ascii.plus :: rest => if rest = [] then .error .invalidDigit else extend bound 0 rest
  | text => extend bound 0 text

end ChainSync.Decimal
