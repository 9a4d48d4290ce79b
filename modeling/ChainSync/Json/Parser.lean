import ChainSync.Json.Text

/-!
# Reading JSON

`parse?` reads a whole text as one value, by the strict grammar: no byte may be left over, blanks
are the space, the tab and the two line breaks, numbers have no needless zeros, and strings hold no
raw control characters. Strings are only scanned here; `unescape?` reads them.
-/

namespace ChainSync.Json
open Ascii

def isBlank (b : UInt8) : Bool := b = blank || b = tab || b = lineFeed || b = carriageReturn

/-- What follows the blanks at the head of a text. -/
def skipBlanks (bs : Bytes) : Bytes := bs.dropWhile isBlank

/-- Reads the rest of a string after its opening quote: the content, and what follows the closing
quote. `done` holds the content before, the latest byte first. -/
def scanString (done : Bytes) : Bytes → Option (Bytes × Bytes)
  | quote :: rest => some (done.reverse, rest)
  | backslash :: letterU :: a :: b :: c :: d :: rest =>
    match hex4? a b c d with
    | none => none
    | some _ => scanString (d :: c :: b :: a :: letterU :: backslash :: done) rest
  | backslash :: letter :: rest =>
    match unescapeShort? letter with
    | none => none
    | some _ => scanString (letter :: backslash :: done) rest
  | b :: rest => if b = backslash ∨ b < blank then none else scanString (b :: done) rest
  | [] => none

/-- Reads the whole part of a number: a lone zero, or digits that do not begin with one. -/
def scanWhole : Bytes → Option (Bytes × Bytes)
  | zero :: rest => some ([zero], rest)
  | bs =>
    match bs.span Decimal.isDigit with
    | ([], _) => none
    | found => some found

/-- Reads a point and at least one digit, if there is a point. -/
def scanFraction : Bytes → Option (Bytes × Bytes)
  | point :: rest =>
    match rest.span Decimal.isDigit with
    | ([], _) => none
    | (ds, rest) => some (point :: ds, rest)
  | bs => some ([], bs)

/-- Reads the sign of an exponent, if there is one. -/
def scanSign : Bytes → Bytes × Bytes
  | b :: rest => if b = plus ∨ b = minus then ([b], rest) else ([], b :: rest)
  | [] => ([], [])

def scanExponent : Bytes → Option (Bytes × Bytes)
  | b :: rest =>
    if b = letterE ∨ b = capitalE then
      let (sign, rest) := scanSign rest
      match rest.span Decimal.isDigit with
      | ([], _) => none
      | (ds, rest) => some (b :: sign ++ ds, rest)
    else some ([], b :: rest)
  | [] => some ([], [])

def scanUnsigned (bs : Bytes) : Option (Bytes × Bytes) := do
  let (whole, bs) ← scanWhole bs
  let (fraction, bs) ← scanFraction bs
  let (exponent, bs) ← scanExponent bs
  return (whole ++ fraction ++ exponent, bs)

def scanNumber : Bytes → Option (Bytes × Bytes)
  | minus :: rest => (scanUnsigned rest).map fun (text, rest) => (minus :: text, rest)
  | bs => scanUnsigned bs

mutual

/-- Reads a value, after blanks, and returns what follows it. -/
def value : (fuel : Nat) → Bytes → Option (Json × Bytes)
  | 0, _ => none
  | fuel + 1, bs =>
    match skipBlanks bs with
    | quote :: rest => (scanString [] rest).map fun (content, rest) => (.string content, rest)
    | openBracket :: rest =>
      match skipBlanks rest with
      | closeBracket :: rest => some (.array [], rest)
      | rest => items fuel [] rest
    | openBrace :: rest =>
      match skipBlanks rest with
      | closeBrace :: rest => some (.object [], rest)
      | rest => members fuel [] rest
    | nullThen rest => some (.null, rest)
    | trueThen rest => some (.bool true, rest)
    | falseThen rest => some (.bool false, rest)
    | bs => (scanNumber bs).map fun (text, rest) => (.number text, rest)

/-- Reads the items of an array from one of them on; `done` holds those before, the latest first. -/
def items : (fuel : Nat) → (done : List Json) → Bytes → Option (Json × Bytes)
  | 0, _, _ => none
  | fuel + 1, done, bs =>
    match value fuel bs with
    | none => none
    | some (v, rest) =>
      match skipBlanks rest with
      | comma :: rest => items fuel (v :: done) rest
      | closeBracket :: rest => some (.array (v :: done).reverse, rest)
      | _ => none

/-- Reads the members of an object from one of them on; `done` holds those before, the latest
first. -/
def members : (fuel : Nat) → (done : List (Bytes × Json)) → Bytes → Option (Json × Bytes)
  | 0, _, _ => none
  | fuel + 1, done, bs =>
    match skipBlanks bs with
    | quote :: rest =>
      match scanString [] rest with
      | none => none
      | some (name, rest) =>
        match skipBlanks rest with
        | colon :: rest =>
          match value fuel rest with
          | none => none
          | some (v, rest) =>
            match skipBlanks rest with
            | comma :: rest => members fuel ((name, v) :: done) rest
            | closeBrace :: rest => some (.object ((name, v) :: done).reverse, rest)
            | _ => none
        | _ => none
    | _ => none

end

/-- The value that a whole text writes. Every step of the reader takes a byte or leads to one that
does, so twice the length is fuel enough. -/
def parse? (bs : Bytes) : Option Json :=
  match value (2 * bs.length + 2) bs with
  | some (v, rest) => if skipBlanks rest = [] then some v else none
  | none => none

end ChainSync.Json
