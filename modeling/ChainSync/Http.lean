import ChainSync.Text.Ascii
import ChainSync.Text.Hex
import ChainSync.Text.Utf8

/-!
# Requests and responses

The part of HTTP that nodes use among each other: requests without a body, and responses with a
status, at most one content type and a body.

The target of a request is a path and, after a question mark, a query; what follows a hash sign does
not count. It may be a whole address, with a scheme and an authority before the path. A path has
segments between slashes, a query has fields between ampersands. Bytes may be written as a percent
sign and two hexadecimal digits; where the digits are missing, the percent sign stands for itself.
-/

namespace ChainSync.Http

/-- A request. -/
structure Request where
  method : String
  target : Bytes

/-- A response. -/
structure Response where
  status : Nat
  contentType : Option String := none
  body : Bytes := []
deriving DecidableEq

def isSuccess (status : Nat) : Bool := 200 ≤ status && status < 300

def Response.text (status : Nat) (message : String) : Response where
  status
  contentType := some "text/plain; charset=utf-8"
  body := Utf8.encode message

def Response.json (body : Bytes) : Response where
  status := 200
  contentType := some "application/json"
  body

/-! ## Paths and queries -/

/-- Splits a byte string at every occurrence of a byte. -/
def splitAtEach (separator : UInt8) (bs : Bytes) : List Bytes := bs.splitOn separator

/-- Splits a byte string at the first occurrence of a byte: what is before it and, if it occurs,
what is after it. -/
def splitAtFirst (separator : UInt8) (bs : Bytes) : Bytes × Option Bytes :=
  match bs.span (· ≠ separator) with
  | (before, []) => (before, none)
  | (before, _ :: after) => (before, some after)

/-- Replaces escapes by the bytes that they stand for; `done` holds the bytes before, the latest
first. -/
def percentDecodeOnto (done : Bytes) : Bytes → Bytes
  | [] => done.reverse
  | Ascii.percent :: a :: b :: rest =>
    match Hex.value? a, Hex.value? b with
    | some high, some low => percentDecodeOnto (UInt8.ofNat (high * 16 + low) :: done) rest
    | _, _ => percentDecodeOnto (Ascii.percent :: done) (a :: b :: rest)
  | b :: rest => percentDecodeOnto (b :: done) rest

/-- The bytes that a text with escapes stands for. -/
def percentDecode (bs : Bytes) : Bytes := percentDecodeOnto [] bs

/-- The text that a name or a value of a query stands for: a plus sign is a blank, and bytes that
are no text are replaced. -/
def formDecode (bs : Bytes) : String :=
  Utf8.decodeLossy (percentDecode (bs.map fun b => if b = Ascii.plus then Ascii.blank else b))

/-- The names and values of a query; a field without an equals sign has an empty value. -/
def queryFields (query : Bytes) : List (String × String) :=
  ((splitAtEach Ascii.ampersand query).filter (· ≠ [])).map fun field =>
    let (name, value) := splitAtFirst Ascii.equals field
    (formDecode name, formDecode (value.getD []))

def pathSegments (path : Bytes) : List Bytes :=
  match path with
  | Ascii.slash :: rest => splitAtEach Ascii.slash rest
  | _ => []

def isSchemeByte (b : UInt8) : Bool :=
  (Char.ofNat b.toNat).isAlphanum || b = Ascii.plus || b = Ascii.minus || b = Ascii.point

/-- What follows the scheme and the authority of an address; a target that is no address is a path
already. The authority ends before the first slash or question mark. -/
def withoutAuthority (target : Bytes) : Bytes :=
  match target.dropWhile isSchemeByte with
  | Ascii.colon :: Ascii.slash :: Ascii.slash :: rest =>
    rest.dropWhile fun b => b ≠ Ascii.slash && b ≠ Ascii.question
  | _ => target

def splitTarget (target : Bytes) : Bytes × Bytes :=
  let (target, _) := splitAtFirst Ascii.hash target
  let (path, query) := splitAtFirst Ascii.question (withoutAuthority target)
  (path, query.getD [])

end ChainSync.Http
