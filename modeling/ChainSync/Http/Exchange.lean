import ChainSync.Http.Router

/-!
# Exchanges

An exchange carries GET requests to an address and brings back responses. `Loopback` asks the
router of a chain directly, `Canned` always brings the same response, and a missing exchange brings
none.
-/

namespace ChainSync.Http

/-- Ways for GET requests to travel, by the state that the responses depend on and the monad in
which they come. -/
class Exchange (τ : Type) (m : Type → Type) where
  /-- The response to a request for an address, `none` if there is none. -/
  get : (address : Bytes) → StateT τ m (Option Response)
  pause : (milliseconds : UInt64) → StateT τ m Unit

instance {τ : Type} {m : Type → Type} [Monad m] [Exchange τ m] : Exchange (Option τ) m where
  get address
    | none => pure (none, none)
    | some exchange => do
      let (response, exchange) ← (Exchange.get address : StateT τ m _).run exchange
      return (response, some exchange)
  pause milliseconds
    | none => pure ((), none)
    | some exchange => do
      let ((), exchange) ← (Exchange.pause milliseconds : StateT τ m _).run exchange
      return ((), some exchange)

def afterOrigin? (origin address : Bytes) : Option Bytes :=
  if origin.isPrefixOf address then some (address.drop origin.length) else none

/-- The exchange with one node. -/
structure Loopback where
  origin : Bytes
  chain : Chain
  /-- Statuses that are answered to the coming requests instead; zero lets a request pass. -/
  faults : List Nat := []
  /-- The paths and queries that were asked for, the latest first. -/
  seen : List Bytes := []

instance : Exchange Loopback Id where
  get address := do
    let node ← get
    match afterOrigin? node.origin address with
    | none => return none
    | some target =>
      set { node with faults := node.faults.tail, seen := target :: node.seen }
      match node.faults.headD 0 with
      | 0 => return some (respond node.chain { method := "GET", target })
      | status => return some { status }
  pause _ := pure ()

/-- The exchange in which every request has the same response. -/
structure Canned where
  origin : Bytes
  response : Response
  /-- The paths and queries that were asked for, the latest first. -/
  seen : List Bytes := []

instance : Exchange Canned Id where
  get address := do
    let canned ← get
    match afterOrigin? canned.origin address with
    | none => return none
    | some target =>
      set { canned with seen := target :: canned.seen }
      return some canned.response
  pause _ := pure ()

end ChainSync.Http
