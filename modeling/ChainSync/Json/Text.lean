import ChainSync.Json
import ChainSync.Text.Hex

/-!
# Strings in JSON

`escape` writes a text as the content of a JSON string; `unescape?` reads such content back. Only
the quote, the backslash and the control characters below the blank are escaped. Reading takes
every escape of the format, but no half of a surrogate pair and no bytes that are not a text.
-/

namespace ChainSync.Json
open Ascii

/-- The letter that follows the backslash in the short escape of a character. -/
def shortEscape? (c : Char) : Option UInt8 :=
  if c = '"' then some quote
  else if c = '\\' then some backslash
  else if c = '\x08' then some letterB
  else if c = '\x0c' then some letterF
  else if c = '\n' then some letterN
  else if c = '\r' then some letterR
  else if c = '\t' then some letterT
  else none

/-- The bytes that stand for a character between quotes. -/
def escapeChar (c : Char) : Bytes :=
  match shortEscape? c with
  | some letter => [backslash, letter]
  | none =>
    if c.toNat < 0x20 then
      [backslash, letterU, zero, zero]
        ++ (Hex.digits [UInt8.ofNat c.toNat]).map fun d => UInt8.ofNat d.toNat
    else String.utf8EncodeChar c

/-- The bytes that stand for a text between quotes. -/
def escape (s : String) : Bytes := s.toList.flatMap escapeChar

def text (s : String) : Json := .string (escape s)

/-- The byte for which an escape of one letter stands. -/
def unescapeShort? (letter : UInt8) : Option UInt8 :=
  if letter = quote ∨ letter = backslash ∨ letter = slash then some letter
  else if letter = letterB then some backspace
  else if letter = letterF then some formFeed
  else if letter = letterN then some lineFeed
  else if letter = letterR then some carriageReturn
  else if letter = letterT then some tab
  else none

/-- The number that four hexadecimal digits write. -/
def hex4? (a b c d : UInt8) : Option Nat := do
  let a ← Hex.value? a
  let b ← Hex.value? b
  let c ← Hex.value? c
  let d ← Hex.value? d
  return ((a * 16 + b) * 16 + c) * 16 + d

def isLeading (n : Nat) : Bool := 0xD800 ≤ n && n < 0xDC00

def isTrailing (n : Nat) : Bool := 0xDC00 ≤ n && n < 0xE000

/-- Resolves the escapes of a string's content; `done` holds the bytes before, the latest first. -/
def resolve (done : Bytes) : Bytes → Option Bytes
  | [] => some done.reverse
  | backslash :: letterU :: a :: b :: c :: d :: rest =>
    match hex4? a b c d with
    | none => none
    | some n =>
      if isTrailing n then none
      else if isLeading n then
        match rest with
        | backslash :: letterU :: a :: b :: c :: d :: rest =>
          match hex4? a b c d with
          | none => none
          | some m =>
            if isTrailing m then
              let c := Char.ofNat (0x10000 + (n - 0xD800) * 0x400 + (m - 0xDC00))
              resolve ((String.utf8EncodeChar c).reverse ++ done) rest
            else none
        | _ => none
      else resolve ((String.utf8EncodeChar (Char.ofNat n)).reverse ++ done) rest
  | backslash :: letter :: rest =>
    match unescapeShort? letter with
    | none => none
    | some b => resolve (b :: done) rest
  | b :: rest => if b = backslash then none else resolve (b :: done) rest

def unescape? (content : Bytes) : Option String :=
  (resolve [] content).bind fun bs => (Utf8.decode bs).toOption

end ChainSync.Json
