import ChainSync.Text.Ascii
import ChainSync.Text.Decimal
import ChainSync.Text.Hex
import ChainSync.Text.Utf8

/-!
# Socket addresses

A socket address is an IP address with a port: four decimal numbers with points between them, or,
in brackets, eight groups of hexadecimal digits with colons between them, where `::` stands for a
run of zero groups and the last two groups may be written as four decimal numbers.
-/

namespace ChainSync.SocketAddress

/-- Reads at most `most` digits, by the value of a digit. -/
def digits (value? : UInt8 → Option Nat) : (most : Nat) → Bytes → List Nat × Bytes
  | most + 1, b :: rest =>
    match value? b with
    | some d =>
      let (ds, rest) := digits value? most rest
      (d :: ds, rest)
    | none => ([], b :: rest)
  | _, bs => ([], bs)

def number (base : Nat) (ds : List Nat) : Nat := ds.foldl (fun n d => n * base + d) 0

def decimal? (b : UInt8) : Option Nat :=
  if Decimal.isDigit b then some (Decimal.digitValue b) else none

/-- Reads a number below 256 without needless zeros. -/
def octet (bs : Bytes) : Option (Nat × Bytes) :=
  match digits decimal? 3 bs with
  | ([], _) => none
  | ([d], rest) => some (d, rest)
  | (0 :: _, _) => none
  | (ds, rest) => if number 10 ds < 256 then some (number 10 ds, rest) else none

def expect (b : UInt8) : Bytes → Option Bytes
  | a :: rest => if a = b then some rest else none
  | [] => none

/-- Reads four decimal numbers with points between them, as two groups of 16 bits. -/
def ipv4 (bs : Bytes) : Option ((Nat × Nat) × Bytes) := do
  let (a, bs) ← octet bs
  let (b, bs) ← octet (← expect Ascii.point bs)
  let (c, bs) ← octet (← expect Ascii.point bs)
  let (d, bs) ← octet (← expect Ascii.point bs)
  return ((a * 256 + b, c * 256 + d), bs)

/-- Reads one group of one to four hexadecimal digits. -/
def group (bs : Bytes) : Option (Nat × Bytes) :=
  match digits Hex.value? 4 bs with
  | ([], _) => none
  | (ds, rest) => some (number 16 ds, rest)

/-- Reads at most `most` groups with colons between them, where the last two may be written as four
decimal numbers; also says whether they were. `first` holds before the first group. -/
def groups : (most : Nat) → (first : Bool) → Bytes → List Nat × Bool × Bytes
  | 0, _, bs => ([], false, bs)
  | most + 1, first, bs =>
    match (if first then some bs else expect Ascii.colon bs) with
    | none => ([], false, bs)
    | some start =>
      match (if most = 0 then none else ipv4 start) with
      | some ((a, b), rest) => ([a, b], true, rest)
      | none =>
        match group start with
        | none => ([], false, bs)
        | some (g, rest) =>
          let (gs, decimal, rest) := groups most false rest
          (g :: gs, decimal, rest)

/-- Reads eight groups, or fewer with `::` for the missing zero groups. -/
def ipv6 (bs : Bytes) : Option (List Nat × Bytes) :=
  let (front, decimal, rest) := groups 8 true bs
  if front.length = 8 then some (front, rest)
  else if decimal then none
  else do
    let rest ← expect Ascii.colon rest
    let rest ← expect Ascii.colon rest
    let (back, _, rest) := groups (7 - front.length) true rest
    return (front ++ List.replicate (8 - front.length - back.length) 0 ++ back, rest)

/-- Reads a number below a bound to the end of the text. -/
def lastNumber (bound : Nat) (bs : Bytes) : Option Nat := (Decimal.decode? bs).filter (· < bound)

/-- Skips the scope of an address, if there is one: a percent sign and a 32-bit number. -/
def skipScope : Bytes → Option Bytes
  | Ascii.percent :: rest =>
    match rest.span Decimal.isDigit with
    | (ds, rest) => (lastNumber UInt32.size ds).map fun _ => rest
  | bs => some bs

/-- An address and a port. -/
inductive Address where
  | v4 (high low port : Nat)
  | v6 (groups : List Nat) (port : Nat)

def parse? (text : String) : Option Address :=
  match Utf8.encode text with
  | Ascii.openBracket :: bs => do
    let (gs, bs) ← ipv6 bs
    let bs ← skipScope bs
    let bs ← expect Ascii.closeBracket bs
    let bs ← expect Ascii.colon bs
    return .v6 gs (← lastNumber UInt16.size bs)
  | bs => do
    let ((high, low), bs) ← ipv4 bs
    let bs ← expect Ascii.colon bs
    return .v4 high low (← lastNumber UInt16.size bs)

end ChainSync.SocketAddress
