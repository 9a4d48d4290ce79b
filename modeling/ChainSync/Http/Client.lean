import ChainSync.Block.Json
import ChainSync.Http.Exchange
import ChainSync.Peer

/-!
# Peers over HTTP

A peer that is asked over HTTP, at a base address and through an exchange. What it answers is read
from the body of a successful response; no response, or one of another status, is a failure.
-/

namespace ChainSync.Http

/-- A peer at a base address. -/
structure HttpPeer (τ : Type) where
  base : Bytes
  exchange : τ

namespace HttpPeer

variable {τ : Type} {m : Type → Type}

/-- The peer at an address; slashes at its end do not count. -/
def ofAddress (address : String) (exchange : τ) : HttpPeer τ where
  base := ((Utf8.encode address).reverse.dropWhile (· = Ascii.slash)).reverse
  exchange

def headersPath (hash : Hash) (limit : UInt32) : Bytes :=
  Utf8.encode s!"/headers/{hash.hex}?limit={limit}"

def blockPath (hash : Hash) : Bytes := Utf8.encode s!"/blocks/{hash.hex}"

def onExchange {α : Type} [Monad m] (act : StateT τ m α) : StateT (HttpPeer τ) m α := fun peer => do
  let (answer, exchange) ← act.run peer.exchange
  return (answer, { peer with exchange })

def ask [Monad m] [Exchange τ m] (path : Bytes) : StateT (HttpPeer τ) m (Option Response) := do
  onExchange (Exchange.get ((← get).base ++ path))

def readBody {α : Type} (read : Json → Option α) (body : Bytes) : Except PeerError α :=
  match (Json.parse? body).bind read with
  | some value => .ok value
  | none => .error .undecodable

/-- What a response to a request for headers says. -/
def readHeaders : Option Response → Except PeerError (List Header)
  | none => .error .transport
  | some r =>
    if isSuccess r.status then readBody Header.listOfJson? r.body else .error (.status r.status)

/-- What a response to a request for a block says; a block that is not found is no failure. -/
def readBlock : Option Response → Except PeerError (Option Block)
  | none => .error .transport
  | some r =>
    if r.status = 404 then .ok none
    else if isSuccess r.status then (readBody Block.ofJson? r.body).map some
    else .error (.status r.status)

instance [Monad m] [Exchange τ m] : Peer (HttpPeer τ) m where
  headers hash limit := return readHeaders (← ask (headersPath hash limit))
  block hash := return readBlock (← ask (blockPath hash))
  pause milliseconds := onExchange (Exchange.pause milliseconds)

end HttpPeer
end ChainSync.Http
