import ChainSync.Text.Ascii
import ChainSync.Text.Utf8
import ChainSync.Text.Decimal

/-!
# JSON values

A value keeps the text of its numbers and strings as it was written, escapes included: whether a
number fits a field, or a string is a text at all, is asked only where the value is used. `print`
writes a value without blanks.
-/

namespace ChainSync

/-- A JSON value. -/
inductive Json where
  | null
  | bool (b : Bool)
  | number (text : Bytes)
  /-- The string between whose quotes stands `content`. -/
  | string (content : Bytes)
  | array (items : List Json)
  /-- The members in order, each with the text between the quotes of its name. -/
  | object (members : List (Bytes × Json))

namespace Json
open Ascii

/-- The word for the null value, and what follows it. -/
@[match_pattern] abbrev nullThen (rest : Bytes) : Bytes :=
  letterN :: letterU :: 0x6C :: 0x6C :: rest

@[match_pattern] abbrev trueThen (rest : Bytes) : Bytes :=
  letterT :: letterR :: letterU :: letterE :: rest

@[match_pattern] abbrev falseThen (rest : Bytes) : Bytes :=
  letterF :: 0x61 :: 0x6C :: 0x73 :: letterE :: rest

mutual

def print : Json → Bytes
  | .null => nullThen []
  | .bool true => trueThen []
  | .bool false => falseThen []
  | .number text => text
  | .string content => quote :: (content ++ [quote])
  | .array [] => [openBracket, closeBracket]
  | .array (v :: vs) => openBracket :: (v.print ++ printItems vs)
  | .object [] => [openBrace, closeBrace]
  | .object ((k, v) :: ms) => openBrace :: quote :: (k ++ quote :: colon :: (v.print ++ printMembers ms))

/-- The text of the items that follow the first one, and the bracket that closes the array. -/
def printItems : List Json → Bytes
  | [] => [closeBracket]
  | v :: vs => comma :: (v.print ++ printItems vs)

/-- The text of the members that follow the first one, and the brace that closes the object. -/
def printMembers : List (Bytes × Json) → Bytes
  | [] => [closeBrace]
  | (k, v) :: ms => comma :: quote :: (k ++ quote :: colon :: (v.print ++ printMembers ms))

end

def nat (n : Nat) : Json := .number (Decimal.encode n)

end Json
end ChainSync
