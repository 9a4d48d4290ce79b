import ChainSync.Block.Json
import ChainSync.Chain
import ChainSync.Config
import ChainSync.Hash.Text
import ChainSync.Http

/-!
# What a node serves

A node answers requests for its health, for the head of its chain, for headers from a hash
downward and for single blocks.
-/

namespace ChainSync.Http

def maxHeaders : Nat := 1024

/-- What a path asks for. -/
inductive Route where
  | health
  | head
  /-- Headers from the hash in this segment downward. -/
  | headers (segment : Bytes)
  | block (segment : Bytes)

/-- The route of a path, if there is one; a segment for a hash is not empty. -/
def Route.ofPath? (path : Bytes) : Option Route :=
  match pathSegments path with
  | [only] =>
    if only = Utf8.encode "health" ∨ only = Utf8.encode "healthz" then some .health else none
  | [first, second] =>
    if first = Utf8.encode "chain" ∧ second = Utf8.encode "head" then some .head
    else if second = [] then none
    else if first = Utf8.encode "headers" then some (.headers second)
    else if first = Utf8.encode "blocks" then some (.block second)
    else none
  | _ => none

abbrev Answer (α : Type) := Except Response α

def segmentText (segment : Bytes) : Answer String :=
  match Utf8.decode (percentDecode segment) with
  | .ok s => .ok s
  | .error _ => .error (.text 400 "Invalid URL: Invalid UTF-8 in \x60hash\x60")

def hashOf (text : String) : Answer Hash :=
  (Hash.parse text).mapError fun e => .text 400 e.message

def intact {α : Type} (found : Except ChainError α) : Answer α :=
  found.mapError fun e => .text 500 e.message

def badQuery (message : String) : Response :=
  .text 400 s!"Failed to deserialize query string: {message}"

/-- The limit among the fields of a query, after `found`. -/
def limitAmong (found : Option Nat) : List (String × String) → Answer (Option Nat)
  | [] => .ok found
  | (name, value) :: rest =>
    if name ≠ "limit" then limitAmong found rest
    else if found.isSome then .error (badQuery "duplicate field \x60limit\x60")
    else
      match Decimal.word UInt32.size (Utf8.encode value) with
      | .ok n => limitAmong (some n) rest
      | .error e => .error (badQuery s!"limit: {e.message}")

def limitOf (query : Bytes) : Answer (Option Nat) := limitAmong none (queryFields query)

/-- The number of headers that are sent for a limit. -/
def clampLimit (limit : Option Nat) : Nat :=
  min (max (limit.getD ({} : Config).batchSize.toNat) 1) maxHeaders

def answerHead (c : Chain) : Answer Response := do
  let (height, hash) ← intact c.tip
  return .json (Json.record
    [("height", Json.nat height.toNat),
      ("hash", hash.elim .null fun h => Json.text h.hex)]).print

def answerHeaders (c : Chain) (segment query : Bytes) : Answer Response := do
  let text ← segmentText segment
  let limit ← limitOf query
  let hash ← hashOf text
  let headers ← intact (c.headersDescending hash (clampLimit limit))
  return .json (Header.listToJson headers).print

def answerBlock (c : Chain) (segment : Bytes) : Answer Response := do
  let text ← segmentText segment
  let hash ← hashOf text
  match ← intact (c.blockByHash? hash) with
  | some block => return .json block.toJson.print
  | none => throw (.text 404 s!"unknown block {text}")

def Route.respond (c : Chain) (query : Bytes) (route : Route) : Response :=
  let answer : Answer Response :=
    match route with
    | .health => .ok (.json (Json.record [("status", Json.text "ok")]).print)
    | .head => answerHead c
    | .headers segment => answerHeaders c segment query
    | .block segment => answerBlock c segment
  match answer with
  | .ok response => response
  | .error refusal => refusal

/-- The response of a node with this chain. A HEAD request is answered like a GET request, without
the body. -/
def respond (c : Chain) (request : Request) : Response :=
  let (path, query) := splitTarget request.target
  match Route.ofPath? path with
  | none => { status := 404 }
  | some route =>
    if request.method = "GET" then route.respond c query
    else if request.method = "HEAD" then { route.respond c query with body := [] }
    else { status := 405 }

end ChainSync.Http
