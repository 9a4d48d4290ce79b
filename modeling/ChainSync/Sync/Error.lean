import ChainSync.Chain
import ChainSync.Store.KeyValue

/-!
# Failures of a sync

What can end an operation on a segment or a sync, and what can end one request to a peer.
-/

namespace ChainSync

/-- Why one request to a peer failed. -/
inductive PeerError where
  | transport
  /-- The peer answered with a status that means no success. -/
  | status (code : Nat)
  /-- The answer is not of the form that was asked for. -/
  | undecodable
deriving DecidableEq

/-- Why an operation of a sync failed. -/
inductive SyncError where
  /-- No attempt to fetch what has this hash succeeded. -/
  | maxRetriesReached (hash : Hash) (attempts : UInt32)
  /-- A header with hash `actual` stands where the segment goes on with `expected`. -/
  | linkage (expected actual : Hash)
  /-- A header is the frontier's parent by hash, but not the height below it. -/
  | heightGap (frontier actual : UInt64)
  | hashMismatch (key actual : Hash)
  | store (cause : StoreError)
  | localChain (cause : ChainError)
  | importing (cause : ChainError)
  | emptyChain
  /-- The segment reaches down to height zero, with a block that the local chain does not have. -/
  | genesisMismatch (hash : Hash)
  | notConnected (hash : Hash)
  /-- No successor is known for a header of the segment. -/
  | missingSuccessor (hash : Hash)
  /-- A walk along stored rows came to `hash` after more steps than there are rows: it would go in
  a circle for ever. -/
  | endless (hash : Hash)
deriving DecidableEq

def SyncError.message : SyncError → String
  | .maxRetriesReached hash attempts => s!"max retries reached: {attempts} attempts for {hash}"
  | .linkage expected actual =>
    s!"header {actual} does not link to the frontier, expected {expected}"
  | .heightGap frontier actual =>
    s!"ancestor at height {actual} cannot precede frontier at height {frontier}"
  | .hashMismatch key actual => s!"entry stored under {key} hashes to {actual}"
  | .store cause => cause.message
  | .localChain cause => s!"local chain lookup failed: {cause.message}"
  | .importing cause => s!"block import failed: {cause.message}"
  | .emptyChain => "backward chain is empty"
  | .genesisMismatch hash => s!"reached genesis {hash} without connecting to the local chain"
  | .notConnected hash => s!"frontier {hash} is not part of the local chain yet"
  | .missingSuccessor hash => s!"no successor recorded for {hash}"
  | .endless hash => s!"the walk through {hash} does not end"

end ChainSync
