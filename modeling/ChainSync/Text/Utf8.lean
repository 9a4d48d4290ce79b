import ChainSync.Bytes

/-!
# UTF-8

`encode` writes a text as bytes. `decode` reads bytes back and names the first fault: a sequence
that no continuation can mend (`invalid`), with the number of its bytes that did begin a character,
or a string that ends inside a character (`incomplete`). `decodeLossy` goes on after a fault and
puts the replacement character in its place.
-/

namespace ChainSync.Utf8

def encode (s : String) : Bytes := s.toList.flatMap String.utf8EncodeChar

/-- Why bytes are not a text. -/
inductive Fault where
  /-- From `index` on, `length` bytes begin no character. -/
  | invalid (length index : Nat)
  /-- The bytes end inside the character that begins at `index`. -/
  | incomplete (index : Nat)
deriving DecidableEq

def Fault.message : Fault → String
  | .invalid length index => s!"invalid utf-8 sequence of {length} bytes from index {index}"
  | .incomplete index => s!"incomplete utf-8 byte sequence from index {index}"

/-- What stands at the head of a byte string. -/
inductive Head where
  /-- Nothing: the string is empty. -/
  | done
  | char (c : Char) (rest : Bytes)
  /-- `length` bytes that begin no character, and what follows them. -/
  | invalid (length : Nat) (rest : Bytes)
  /-- The beginning of a character, and then the end of the string. -/
  | incomplete

def isContinuation (b : UInt8) : Bool := 0x80 ≤ b && b ≤ 0xBF

/-- The second bytes that may follow the first byte of a character of three bytes: they leave out
longer spellings than needed and the surrogates. -/
def isSecondOfThree (first b : UInt8) : Bool :=
  (if first = 0xE0 then 0xA0 else 0x80) ≤ b && b ≤ (if first = 0xED then 0x9F else 0xBF)

/-- The second bytes that may follow the first byte of a character of four bytes: they leave out
longer spellings than needed and numbers above the last code point. -/
def isSecondOfFour (first b : UInt8) : Bool :=
  (if first = 0xF0 then 0x90 else 0x80) ≤ b && b ≤ (if first = 0xF4 then 0x8F else 0xBF)

/-- The six bits that a continuation byte carries. -/
def payload (b : UInt8) : Nat := b.toNat % 64

def head : Bytes → Head
  | [] => .done
  | a :: rest =>
    if a < 0x80 then .char (Char.ofNat a.toNat) rest
    else if a < 0xC2 then .invalid 1 rest
    else if a < 0xE0 then
      match rest with
      | [] => .incomplete
      | b :: rest =>
        if isContinuation b then .char (Char.ofNat (a.toNat % 32 * 64 + payload b)) rest
        else .invalid 1 (b :: rest)
    else if a < 0xF0 then
      match rest with
      | [] => .incomplete
      | b :: rest =>
        if isSecondOfThree a b then
          match rest with
          | [] => .incomplete
          | c :: rest =>
            if isContinuation c then
              .char (Char.ofNat ((a.toNat % 16 * 64 + payload b) * 64 + payload c)) rest
            else .invalid 2 (c :: rest)
        else .invalid 1 (b :: rest)
    else if a < 0xF5 then
      match rest with
      | [] => .incomplete
      | b :: rest =>
        if isSecondOfFour a b then
          match rest with
          | [] => .incomplete
          | c :: rest =>
            if isContinuation c then
              match rest with
              | [] => .incomplete
              | d :: rest =>
                if isContinuation d then
                  .char (Char.ofNat
                    (((a.toNat % 8 * 64 + payload b) * 64 + payload c) * 64 + payload d)) rest
                else .invalid 3 (d :: rest)
            else .invalid 2 (c :: rest)
        else .invalid 1 (b :: rest)
    else .invalid 1 rest

/-- Reads at most `fuel` characters from the byte with number `index` on; `read` holds the
characters before it, the latest first. -/
def decodeFrom : (fuel index : Nat) → (read : List Char) → Bytes → Except Fault String
  | 0, _, read, _ => .ok (String.ofList read.reverse)
  | fuel + 1, index, read, bs =>
    match head bs with
    | .done => .ok (String.ofList read.reverse)
    | .char c rest => decodeFrom fuel (index + c.utf8Size) (c :: read) rest
    | .invalid length _ => .error (.invalid length index)
    | .incomplete => .error (.incomplete index)

/-- The text that bytes encode, or the first fault. -/
def decode (bs : Bytes) : Except Fault String := decodeFrom bs.length 0 [] bs

/-- Reads at most `fuel` characters or faults; `read` holds the characters before, the latest
first. -/
def decodeLossyFrom : (fuel : Nat) → (read : List Char) → Bytes → String
  | 0, read, _ => String.ofList read.reverse
  | fuel + 1, read, bs =>
    match head bs with
    | .done => String.ofList read.reverse
    | .char c rest => decodeLossyFrom fuel (c :: read) rest
    | .invalid _ rest => decodeLossyFrom fuel ('\uFFFD' :: read) rest
    | .incomplete => String.ofList ('\uFFFD' :: read).reverse

/-- The text that bytes encode, with a replacement character for every fault. -/
def decodeLossy (bs : Bytes) : String := decodeLossyFrom bs.length [] bs

end ChainSync.Utf8
