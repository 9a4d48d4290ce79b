import ChainSync.Hash
import ChainSync.Text.Ascii
import ChainSync.Text.Hex
import ChainSync.Text.Utf8

/-!
# Hashes as text

A hash is written as 64 lowercase hexadecimal digits. It is read from 64 digits of either case,
which one `0x` may precede.
-/

namespace ChainSync.Hash

/-- The 64 lowercase hexadecimal digits of a hash. -/
def hex (h : Hash) : String := Hex.encode h.bytes

instance : ToString Hash := ⟨hex⟩

/-- Why a text is not a hash. -/
inductive ParseError where
  /-- The text has this many bytes, not 64. -/
  | length (got : Nat)
  | digit (bad : Hex.BadDigit)
deriving DecidableEq

def stripMark : Bytes → Bytes
  | Ascii.zero :: Ascii.letterX :: rest => rest
  | text => text

def parse (s : String) : Except ParseError Hash :=
  let text := stripMark (Utf8.encode s)
  if hlen : text.length = 64 then
    match h : Hex.decode text with
    | .error bad => .error (.digit bad)
    | .ok bs => .ok ⟨bs, by have := Hex.length_of_decodeFrom h; omega⟩
  else .error (.length text.length)

/-- A byte as a character in single quotes, with escapes for what does not print. -/
def quoteByte (b : UInt8) : String :=
  let inner : String :=
    if b = 0 then "\\0"
    else if b = 9 then "\\t"
    else if b = 10 then "\\n"
    else if b = 13 then "\\r"
    else if b = 39 then "\\'"
    else if b = 92 then "\\\\"
    else if b < 0x20 || (0x7F ≤ b && b ≤ 0xA0) || b = 0xAD then
      "\\u\x7b" ++ String.ofList (Nat.toDigits 16 b.toNat) ++ "\x7d"
    else String.singleton (Char.ofNat b.toNat)
  "'" ++ inner ++ "'"

def ParseError.message : ParseError → String
  | .length got => s!"expected 64 hex characters, got {got}"
  | .digit bad => s!"invalid hex: Invalid character {quoteByte bad.byte} at position {bad.index}"

end ChainSync.Hash
