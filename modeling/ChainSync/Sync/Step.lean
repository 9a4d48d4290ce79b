import ChainSync.Segment
import ChainSync.Sync.Fetch

/-!
# One step backward

A step finds the next ancestor that is not stored yet, gets it from the local chain or else from
the peer, and prepends it to the segment. It has two parts, between which it may wait for the
peer: `begin` ends with the header if the local chain has it, and with the missing hash if not.
-/

namespace ChainSync

/-- Where a header was found. -/
inductive HeaderSource where
  /-- In the local chain: the segment has connected to it. -/
  | localChain
  | network
deriving DecidableEq

/-- A header and where it was found. -/
structure FoundHeader where
  header : Header
  source : HeaderSource
deriving DecidableEq

def FoundHeader.isLocal (f : FoundHeader) : Bool := f.source = .localChain

namespace Sync

variable {m : Type → Type} [Monad m] {κ σ π : Type} [KeyValue κ] [LocalChain σ]

/-- Stores a header and prepends it to the segment. -/
def save (header : Header) : SyncT m κ σ π Unit := onSegment (Segment.prepend header)

/-- The first part of a step from a header of the segment: stored ancestors are restored, and the
next one is saved if the local chain has it; else its hash is returned. -/
def beginStep (start : Header) : SyncT m κ σ π (FoundHeader ⊕ Hash) := do
  let hash ← onSegment (Segment.restore start)
  match ← localHeader? hash with
  | some header =>
    save header
    return .inl { header, source := .localChain }
  | none => return .inr hash

/-- The second part of a step that waited for the network. -/
def endStep (header : Header) : SyncT m κ σ π FoundHeader := do
  save header
  return { header, source := .network }

variable [Peer π m]

/-- The header with a hash, from the local chain or else from the peer. -/
def request (hash : Hash) : SyncT m κ σ π FoundHeader := do
  match ← localHeader? hash with
  | some header => return { header, source := .localChain }
  | none =>
    takeNetwork
    return { header := ← fetchHeader hash, source := .network }

/-- Extends the segment backward by one header that was not stored. -/
def execute (start : Header) : SyncT m κ σ π FoundHeader := do
  match ← beginStep start with
  | .inl found => return found
  | .inr hash =>
    takeNetwork
    endStep (← fetchHeader hash)

end Sync
end ChainSync
