import ChainSync.Http
import ChainSync.Text.Decimal

/-!
# Messages on a connection

A connection carries one request and one response. A message is a head, a blank line and a body;
a head is a first line and fields with a name and a value. The body of a response is as long as its
head says, or ends with the connection.
-/

namespace ChainSync.Http

/-- Splits at the first blank line; `done` holds the bytes before, the latest first. -/
def splitHeadOnto (done : Bytes) : Bytes → Option (Bytes × Bytes)
  | [] => none
  | Ascii.carriageReturn :: Ascii.lineFeed :: Ascii.carriageReturn :: Ascii.lineFeed :: rest =>
    some (done.reverse, rest)
  | b :: rest => splitHeadOnto (b :: done) rest

/-- Splits at the first blank line: the head of a message and what follows the blank line. -/
def splitHead? (bs : Bytes) : Option (Bytes × Bytes) := splitHeadOnto [] bs

def headLines (head : Bytes) : List Bytes :=
  (splitAtEach Ascii.lineFeed head).map fun line => line.filter (· ≠ Ascii.carriageReturn)

/-- The lower case of an ASCII letter; other bytes stay. -/
def lowerCase (b : UInt8) : UInt8 := if 65 ≤ b && b ≤ 90 then b + 32 else b

/-- The value of the first field with a name, which is given in lower case. -/
def fieldValue? (name : String) (fields : List Bytes) : Option Bytes :=
  fields.findSome? fun field =>
    match splitAtFirst Ascii.colon field with
    | (found, some value) =>
      if found.map lowerCase = Utf8.encode name then
        some (value.filter fun b => b ≠ Ascii.blank && b ≠ Ascii.tab)
      else none
    | (_, none) => none

def statusOf? (line : Bytes) : Option Nat :=
  match splitAtEach Ascii.blank line with
  | version :: status :: _ =>
    if (Utf8.encode "HTTP/1.").isPrefixOf version ∧ status.length = 3 then Decimal.decode? status
    else none
  | _ => none

/-- The response that a connection carried until it was closed. -/
def Response.ofWire? (bs : Bytes) : Option Response := do
  let (head, body) ← splitHead? bs
  match headLines head with
  | [] => none
  | first :: fields =>
    let status ← statusOf? first
    match fieldValue? "content-length" fields with
    | none => return { status, body }
    | some text =>
      let length ← Decimal.decode? text
      if length ≤ body.length then return { status, body := body.take length } else none

def reasonOf : Nat → String
  | 200 => "OK"
  | 400 => "Bad Request"
  | 404 => "Not Found"
  | 405 => "Method Not Allowed"
  | 500 => "Internal Server Error"
  | _ => "Unknown"

/-- A response as it is sent, after which the connection is closed. -/
def Response.toWire (r : Response) : Bytes :=
  let kind := r.contentType.elim "" fun kind => s!"content-type: {kind}\r\n"
  let reason := reasonOf r.status
  let length := r.body.length
  Utf8.encode s!"HTTP/1.1 {r.status} {reason}\r\n{kind}content-length: {length}\r\n"
    ++ Utf8.encode "connection: close\r\n\r\n" ++ r.body

/-- A request as it is sent to a host; by its version the response has no parts. -/
def Request.toWire (host : String) (r : Request) : Bytes :=
  Utf8.encode s!"{r.method} " ++ r.target
    ++ Utf8.encode s!" HTTP/1.0\r\nhost: {host}\r\naccept: */*\r\n\r\n"

def Request.ofHead? (head : Bytes) : Option Request :=
  match (headLines head).map (splitAtEach Ascii.blank) with
  | [method, target, _] :: _ => some { method := Utf8.decodeLossy method, target }
  | _ => none

/-- Where an address leads. -/
structure Destination where
  host : String
  port : UInt16
  target : Bytes

def defaultPort : UInt16 := 80

def portOf? : Bytes → Option UInt16
  | [] => some defaultPort
  | [Ascii.colon] => some defaultPort
  | Ascii.colon :: digits =>
    ((Decimal.decode? digits).filter (· < UInt16.size)).map UInt16.ofNat
  | _ => none

/-- The host and the port of an authority; a host in brackets may contain colons. -/
def hostAndPort? (authority : Bytes) : Option (String × UInt16) := do
  let (host, rest) ←
    match authority with
    | Ascii.openBracket :: bs =>
      match bs.span (· ≠ Ascii.closeBracket) with
      | (host, _ :: rest) => some (host, rest)
      | (_, []) => none
    | bs => some (bs.span (· ≠ Ascii.colon))
  if host = [] then none else return (Utf8.decodeLossy host, ← portOf? rest)

/-- Writes a byte that is no visible ASCII character as an escape. -/
def escapeHidden (b : UInt8) : Bytes :=
  if 0x20 < b && b < 0x7F then [b] else Ascii.percent :: Utf8.encode (Hex.encode [b])

/-- The destination of an address, which begins with `http://`. -/
def Destination.ofAddress? (address : Bytes) : Option Destination := do
  let scheme := Utf8.encode "http://"
  if (address.take scheme.length).map lowerCase ≠ scheme then none
  else
    let (address, _) := splitAtFirst Ascii.hash (address.drop scheme.length)
    let (authority, target) := address.span fun b => b ≠ Ascii.slash && b ≠ Ascii.question
    let (host, port) ← hostAndPort? authority
    let target := target.flatMap escapeHidden
    let target := if target.head? = some Ascii.slash then target else Ascii.slash :: target
    return { host, port, target }

end ChainSync.Http
