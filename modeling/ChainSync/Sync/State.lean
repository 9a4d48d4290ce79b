import ChainSync.Chain
import ChainSync.Config
import ChainSync.Peer
import ChainSync.Segment

/-!
# The state of a sync

A sync works on a segment, a local chain and a peer under given settings. It notes what it does
outside the segment's tables: every request, every pause, every block that it hands on.
-/

namespace ChainSync

/-- What a sync does outside its tables. -/
inductive SyncEvent where
  /-- The network is taken, once for everything that has to be fetched. -/
  | network
  | headers (hash : Hash) (limit : UInt32)
  | block (hash : Hash)
  | pause (milliseconds : UInt64)
  /-- The block with this number is handed to the local chain. -/
  | handOver (number : UInt64)
deriving DecidableEq

/-- What a sync works on, and what it has done. -/
structure SyncState (κ σ π : Type) where
  segment : Segment κ
  chain : σ
  peer : π
  config : Config := {}
  events : Array SyncEvent := #[]

/-- An operation of a sync whose peer answers in the monad `m`. What it changed before it failed
stays changed. -/
abbrev SyncT (m : Type → Type) (κ σ π : Type) : Type → Type :=
  ExceptT SyncError (StateT (SyncState κ σ π) m)

namespace Sync

variable {m : Type → Type} [Monad m] {κ σ π α : Type}

/-- Runs an operation: its result and the state after it. -/
def exec (act : SyncT m κ σ π α) (s : SyncState κ σ π) : m (Except SyncError α × SyncState κ σ π) :=
  act s

/-- Does without the peer. -/
def offline (act : Operation SyncError (SyncState κ σ π) α) : SyncT m κ σ π α :=
  fun s => pure (act.exec s)

/-- Acts on the segment. -/
def onSegment (act : SegmentM κ α) : SyncT m κ σ π α :=
  offline (act.onPart (·.segment) (fun segment s => { s with segment }) id)

/-- Notes an event. -/
def note (event : SyncEvent) : SyncT m κ σ π Unit :=
  modify fun s => { s with events := s.events.push event }

/-- Takes the network, before the first request of a fetch. -/
def takeNetwork : SyncT m κ σ π Unit := note .network

/-- Asks the peer. -/
def onPeer (act : StateT π m α) : SyncT m κ σ π α := fun s => do
  let (answer, peer) ← act.run s.peer
  return (.ok answer, { s with peer })

/-- Asks the peer for headers, and notes it. -/
def askHeaders [Peer π m] (hash : Hash) (limit : UInt32) :
    SyncT m κ σ π (Except PeerError (List Header)) := do
  note (.headers hash limit)
  onPeer (Peer.headers hash limit)

/-- Asks the peer for a block, and notes it. -/
def askBlock [Peer π m] (hash : Hash) : SyncT m κ σ π (Except PeerError (Option Block)) := do
  note (.block hash)
  onPeer (Peer.block hash)

/-- Waits, and notes it. -/
def pause [Peer π m] (milliseconds : UInt64) : SyncT m κ σ π Unit := do
  note (.pause milliseconds)
  onPeer (Peer.pause milliseconds)

/-- The header that the local chain has under a hash. -/
def localHeader? [LocalChain σ] (hash : Hash) : SyncT m κ σ π (Option Header) :=
  offline (.reading fun s => (LocalChain.header? s.chain hash).mapError .localChain)

/-- Hands a block to the local chain, and notes it. -/
def handOver [LocalChain σ] (block : Block) : SyncT m κ σ π Unit := do
  note (.handOver block.number)
  offline (.changing fun s =>
    match LocalChain.append s.chain block with
    | .ok chain => .ok { s with chain }
    | .error cause => .error (.importing cause))

/-! A peer without effects makes a sync an operation on its state. -/

/-- With a peer that answers without effects a sync is an operation on its state. -/
theorem exec_eq (act : SyncT Id κ σ π α) (s : SyncState κ σ π) :
    exec act s = Operation.exec act s := rfl

/-- A note changes nothing but the events. -/
@[simp]
theorem exec_note (event : SyncEvent) (s : SyncState κ σ π) :
    Operation.exec (note event : SyncT Id κ σ π Unit) s =
      (.ok (), { s with events := s.events.push event }) := rfl

/-- A request changes nothing but the peer. -/
@[simp]
theorem exec_onPeer (act : StateT π Id α) (s : SyncState κ σ π) :
    Operation.exec (onPeer act : SyncT Id κ σ π α) s =
      (.ok (act.run s.peer).1, { s with peer := (act.run s.peer).2 }) := rfl

/-- An operation on the segment changes nothing else. -/
@[simp]
theorem exec_onSegment (act : SegmentM κ α) (s : SyncState κ σ π) :
    Operation.exec (onSegment act : SyncT Id κ σ π α) s =
      ((act.exec s.segment).1.mapError id, { s with segment := (act.exec s.segment).2 }) := rfl

end Sync
end ChainSync
