import ChainSync.Block.Stored
import ChainSync.Store.Table
import ChainSync.Sync.Error

/-!
# Segments

A segment is a run of headers, each the parent of the next, between a trusted block on top (the
pivot) and the lowest header known so far (the frontier). Headers, blocks and links from a header to
its successor are kept in tables; the two ends are kept beside them and move only after the writes
that belong to the move have succeeded.

A segment grows forward by trusted blocks and backward by the parents of its frontier.
-/

namespace ChainSync

/-- The two ends of a segment. -/
structure Anchors where
  frontier : Header
  pivot : Header
deriving DecidableEq

/-- The tables of a segment and its ends; without ends it is empty. -/
structure Segment (κ : Type) where
  headers : Table κ Header
  blocks : Table κ Block
  /-- The hash of the successor under the hash of a header. -/
  links : Table κ Hash
  anchors : Option Anchors := none

/-- An operation on a segment. -/
abbrev SegmentM (κ : Type) : Type → Type := Operation SyncError (Segment κ)

namespace Segment

variable {κ α : Type}

/-- Acts on the table of headers. -/
def onHeaders (act : StoreM (Table κ Header) α) : SegmentM κ α :=
  act.onPart (·.headers) (fun headers s => { s with headers }) .store

/-- Acts on the table of blocks. -/
def onBlocks (act : StoreM (Table κ Block) α) : SegmentM κ α :=
  act.onPart (·.blocks) (fun blocks s => { s with blocks }) .store

/-- Acts on the table of links. -/
def onLinks (act : StoreM (Table κ Hash) α) : SegmentM κ α :=
  act.onPart (·.links) (fun links s => { s with links }) .store

/-- Moves the ends. -/
def setAnchors (anchors : Option Anchors) : SegmentM κ Unit := modify ({ · with anchors })

/-- The lowest header of the segment. -/
def frontier? (s : Segment κ) : Option Header := s.anchors.map (·.frontier)

/-- The highest header of the segment. -/
def pivot? (s : Segment κ) : Option Header := s.anchors.map (·.pivot)

/-- A segment over the same tables that has no ends yet. -/
def detached (s : Segment κ) : Segment κ := { s with anchors := none }

variable [KeyValue κ]

/-- A segment over empty tables. -/
def empty : Segment κ where
  headers := Table.empty
  blocks := Table.empty
  links := Table.empty

/-- Anchors an empty segment at a trusted block, or extends the segment forward by a child of its
pivot. -/
def trust (block : Block) : SegmentM κ Unit := do
  let hash := block.hash
  match (← get).anchors with
  | none =>
    onHeaders (Table.put hash block.header)
    onBlocks (Table.put hash block)
    setAnchors (some { frontier := block.header, pivot := block.header })
  | some anchors =>
    let pivotHash := anchors.pivot.hash
    if block.header.parent = pivotHash then
      onHeaders (Table.put hash block.header)
      onBlocks (Table.put hash block)
      onLinks (Table.put pivotHash hash)
      setAnchors (some { anchors with pivot := block.header })
    else throw (.linkage pivotHash block.header.parent)

/-- Extends the segment backward by the parent of its frontier, which stands one height lower.
`keep` says how the header comes into its table. -/
def prependWith (keep : Hash → SegmentM κ Unit) (header : Header) : SegmentM κ Unit := do
  match (← get).anchors with
  | none => throw .emptyChain
  | some anchors =>
    let hash := header.hash
    let frontier := anchors.frontier
    if frontier.parent ≠ hash then
      throw (.linkage frontier.parent hash)
    if header.number.toNat + 1 ≠ frontier.number.toNat then
      throw (.heightGap frontier.number header.number)
    keep hash
    onLinks (Table.put hash frontier.hash)
    setAnchors (some { anchors with frontier := header })

/-- Extends the segment backward and stores the header. -/
def prepend (header : Header) : SegmentM κ Unit :=
  prependWith (fun hash => onHeaders (Table.put hash header)) header

/-- Extends the segment backward by a header that is in its table already. -/
def prependStored (header : Header) : SegmentM κ Unit := prependWith (fun _ => pure ()) header

/-- The stored header with a hash. A stored header with another hash is an error. -/
def header? (hash : Hash) : SegmentM κ (Option Header) := do
  match ← onHeaders (Table.get hash) with
  | none => return none
  | some header =>
    let actual := header.hash
    if actual = hash then return some header else throw (.hashMismatch hash actual)

/-- The stored block with a hash. A stored block with another hash is an error. -/
def block? (hash : Hash) : SegmentM κ (Option Block) := do
  match ← onBlocks (Table.get hash) with
  | none => return none
  | some block =>
    let actual := block.hash
    if actual = hash then return some block else throw (.hashMismatch hash actual)

/-- The block of the pivot. -/
def trustedBlock? : SegmentM κ (Option Block) := do
  match (← get).pivot? with
  | none => return none
  | some pivot => block? pivot.hash

/-- Stores a block under its hash, wherever it stands. -/
def storeBlock (block : Block) : SegmentM κ Unit := onBlocks (Table.put block.hash block)

/-- The hash of the header above the one with a hash. -/
def successor? (hash : Hash) : SegmentM κ (Option Hash) := onLinks (Table.get hash)

/-- Empties the tables, then drops the ends. -/
def clear : SegmentM κ Unit := do
  onHeaders Table.clear
  onBlocks Table.clear
  onLinks Table.clear
  setAnchors none

/-! ## Restoring stored ancestors

Headers that an earlier session stored below the frontier are taken back into the segment before
anything is fetched. The walk goes from a header of the segment down along parents as long as they
are stored; where it meets the frontier's parent, the frontier moves down with it. -/

/-- Walks down from `hash` for at most `steps` stored headers, and returns the first hash without a
stored header; `none` if the steps do not suffice. -/
def restoreWithin : (steps : Nat) → (hash : Hash) → SegmentM κ (Option Hash)
  | 0, _ => return none
  | steps + 1, hash => do
    match ← header? hash with
    | none => return some hash
    | some header =>
      if (← get).frontier?.map (·.parent) = some hash then
        prependStored header
      restoreWithin steps header.parent

/-- Takes back the stored headers below `start` and returns the first hash without a stored header.
Every step needs another row, unless parents run in a circle, so one step more than there are rows
is enough. -/
def restore (start : Header) : SegmentM κ Hash := do
  match ← restoreWithin ((← get).headers.size + 1) start.parent with
  | some hash => return hash
  | none => throw (.endless start.parent)

end Segment
end ChainSync
