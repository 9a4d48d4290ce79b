import ChainSync.Http.Client
import ChainSync.Merkle
import ChainSync.Sync.Stitch

/-!
# A node, its syncs and its seeding

A node keeps its canonical chain and the tables of one segment. A sync fetches a trusted block,
anchors a segment over the kept tables at it and runs; what it stored before a failure is there for
the next sync. Seeding appends generated blocks instead, each with one transfer from a faucet to an
account of its own; a salt makes the blocks of different nodes differ.
-/

namespace ChainSync.Node

/-- What a node keeps. -/
structure Database where
  chain : Chain := {}
  headers : ByteMap := ∅
  blocks : ByteMap := ∅
  links : ByteMap := ∅

namespace Database

def segment (db : Database) : Segment ByteMap where
  headers := ⟨db.headers⟩
  blocks := ⟨db.blocks⟩
  links := ⟨db.links⟩

def ofParts (chain : Chain) (segment : Segment ByteMap) : Database where
  chain
  headers := segment.headers.rows
  blocks := segment.blocks.rows
  links := segment.links.rows

end Database

/-- Why a sync of a node failed. -/
inductive SyncFailure where
  | trusted (cause : Hash.ParseError)
  | sync (cause : SyncError)
deriving DecidableEq

def SyncFailure.message : SyncFailure → String
  | .trusted cause => cause.message
  | .sync cause => cause.message

variable {m : Type → Type} [Monad m] {π : Type} [Peer π m]

/-- Fetches a trusted block, anchors the segment at it and runs. -/
def syncTo {κ σ : Type} [KeyValue κ] [LocalChain σ] (trusted : Hash) : SyncT m κ σ π UInt64 := do
  let block ← Sync.fetchBlock trusted
  Sync.onSegment (Segment.trust block)
  Sync.run

/-- Syncs a node to the block with a hash that is given as text. Returns the result, what the node
keeps then, and the peer. -/
def sync (db : Database) (peer : π) (trusted : String) (config : Config) :
    m (Except SyncFailure UInt64 × Database × π) := do
  match Hash.parse trusted with
  | .error cause => return (.error (.trusted cause), db, peer)
  | .ok hash =>
    let (result, s) ← Sync.exec (syncTo hash)
      { segment := db.segment, chain := db.chain, peer, config }
    return (result.mapError .sync, .ofParts s.chain s.segment, s.peer)

/-! ## Seeding -/

def seedBlock (height : UInt64) (parent : Hash) (salt : Bytes) (now : UInt64) : Block :=
  let transfer : Transaction :=
    { sender := "faucet", receiver := s!"acct-{height}", amount := height, timestamp := now }
  Block.ofTransactions height parent [transfer] now salt

/-- Appends `count` generated blocks above a tip and returns the new height. -/
def seedAbove (salt : Bytes) (now : UInt64) :
    (count : Nat) → (height : UInt64) → (tip : Hash) → Operation ChainError Chain UInt64
  | 0, height, _ => return height
  | count + 1, height, tip => do
    let block := seedBlock (height + 1) tip salt now
    Operation.changing (·.append block)
    seedAbove salt now count (height + 1) block.hash

/-- Appends `count` generated blocks and returns the new height. -/
def seed (count : UInt64) (salt : Bytes) (now : UInt64) : Operation ChainError Chain UInt64 := do
  let (height, tip) ← Operation.reading Chain.tip
  match tip with
  | none => throw .noGenesis
  | some hash => seedAbove salt now count.toNat height hash

end ChainSync.Node
