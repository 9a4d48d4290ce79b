import ChainSync.Sync.Walk

/-!
# Stitching a segment to the local chain

The blocks of a connected segment are handed to the local chain from the frontier's successor up to
the pivot; blocks that the local chain has are skipped, blocks that are not stored are fetched. Then
the segment is cleared.
-/

namespace ChainSync.Sync

variable {m : Type → Type} [Monad m] {κ σ π : Type} [KeyValue κ] [LocalChain σ] [Peer π m]

/-- The stored block with a hash, or else the fetched one, which is stored then. -/
def bodyOf (hash : Hash) : SyncT m κ σ π Block := do
  match ← onSegment (Segment.block? hash) with
  | some block => return block
  | none =>
    takeNetwork
    let block ← fetchBlock hash
    onSegment (Segment.storeBlock block)
    return block

/-- Goes up to the successor of a header and hands its block over, unless the local chain has it.
Returns the successor and whether its block was handed over. -/
def advance (current : Hash) : SyncT m κ σ π (Hash × Bool) := do
  match ← onSegment (Segment.successor? current) with
  | none => throw (.missingSuccessor current)
  | some next =>
    let block ← bodyOf next
    match ← localHeader? next with
    | some _ => return (next, false)
    | none =>
      handOver block
      return (next, true)

/-- Goes up to the pivot by at most `steps` successors, with `done` blocks handed over before, and
returns how many there are at the end; `none` if the steps do not suffice. -/
def climbWithin (pivot : Hash) : (steps : Nat) → (current : Hash) → (done : UInt64) →
    SyncT m κ σ π (Option UInt64)
  | 0, current, done => return if current = pivot then some done else none
  | steps + 1, current, done => do
    if current = pivot then return some done
    else
      let (next, handedOver) ← advance current
      climbWithin pivot steps next (if handedOver then done + 1 else done)

/-- Stitches with at most `steps` successors; `none` if they do not suffice. -/
def stitchWithin (steps : Nat) : SyncT m κ σ π (Option UInt64) := do
  match (← get).segment.anchors with
  | none => throw .emptyChain
  | some anchors =>
    let connection := anchors.frontier.hash
    match ← localHeader? connection with
    | none => throw (.notConnected connection)
    | some _ =>
      match ← climbWithin anchors.pivot.hash steps connection 0 with
      | none => return none
      | some count =>
        onSegment Segment.clear
        return some count

/-- Hands the blocks above the frontier up to the pivot over to the local chain, clears the segment
and returns the number of blocks handed over. Every successor needs another row of links, unless
they run in a circle, so one step more than there are rows is enough. -/
def stitch : SyncT m κ σ π UInt64 := do
  let s ← get
  match ← stitchWithin (s.segment.links.size + 1) with
  | some count => return count
  | none => throw (.endless (s.segment.frontier?.elim Hash.zero (·.hash)))

/-- Walks back to the local chain and stitches the segment to it. -/
def run : SyncT m κ σ π UInt64 := do
  let _ ← syncToLocal
  stitch

end ChainSync.Sync
