import ChainSync.Block.Stored
import ChainSync.Hash.Text
import ChainSync.Store.KeyValue

/-!
# The canonical chain

Blocks are kept by number, a second table leads from hashes to numbers, and two markers name the
tip. A block put under a number replaces the one before; the entry of the replaced block stays in
the second table, so a lookup by hash checks the hash of the block that it finds.

Putting a block takes four writes, one after the other. A chain begins with the genesis block and
grows by blocks whose parent is the tip and whose number is the next one. Its headers are listed from
a hash downward, each the parent of the one before.

A sync asks the local chain for headers by hash and hands it blocks to append. The canonical chain is
the instance of a node; `Refusing` is a chain that refuses the block of one number, to rehearse what a
failing import leaves behind.
-/

namespace ChainSync

/-- Why the canonical chain did not do what it was asked for. -/
inductive ChainError where
  | notOnTip (number : UInt64) (tip parent : Hash)
  /-- The block's parent is the tip, but its number is not the next one. -/
  | unexpectedNumber (expected actual : UInt64)
  /-- The bytes stored under a number are not a block. -/
  | brokenBlock (fault : Stored.Fault)
  | brokenNumber (width : Nat)
  | brokenTip (width : Nat)
  | noGenesis
  /-- The block was refused for a reason outside the chain. -/
  | refused (reason : String)
deriving DecidableEq

/-- The text of an error. -/
def ChainError.message : ChainError → String
  | .notOnTip number tip parent => s!"block {number} does not extend tip {tip}: parent {parent}"
  | .unexpectedNumber expected actual => s!"expected block number {expected}, got {actual}"
  | .brokenBlock fault => s!"decoding stored block: {fault.message}"
  | .brokenNumber width => s!"expected 8 bytes for block number, got {width}"
  | .brokenTip width => s!"expected 32 bytes for tip hash, got {width}"
  | .noGenesis => "chain has no genesis"
  | .refused reason => s!"refused: {reason}"

/-- The tables of the canonical chain. -/
structure Chain where
  /-- Stored blocks under their numbers, most significant byte first. -/
  blocks : ByteMap := ∅
  /-- Numbers, most significant byte first, under the hashes of blocks. -/
  index : ByteMap := ∅
  /-- The height and the hash of the tip, under a name each. -/
  markers : ByteMap := ∅
deriving DecidableEq

namespace Chain

/-- The name under which the tip's height is kept. -/
def tipHeightKey : Bytes := Utf8.encode "tip_height"

/-- The name under which the tip's hash is kept. -/
def tipHashKey : Bytes := Utf8.encode "tip_hash"

/-- The chain without blocks. -/
def empty : Chain := {}

/-- A number of eight bytes, most significant byte first. -/
def readNumber (bs : Bytes) : Except ChainError UInt64 :=
  if bs.length = 8 then .ok (UInt64.ofNat (Bytes.ofBE bs)) else .error (.brokenNumber bs.length)

/-- The block under a number. -/
def block? (c : Chain) (number : UInt64) : Except ChainError (Option Block) :=
  match c.blocks[Bytes.be64 number]? with
  | none => .ok none
  | some bs =>
    match Stored.ofBytes bs with
    | .ok b => .ok (some b)
    | .error fault => .error (.brokenBlock fault)

/-- The block with a hash. An entry that leads to another block finds nothing. -/
def blockByHash? (c : Chain) (hash : Hash) : Except ChainError (Option Block) :=
  match c.index[hash.bytes]? with
  | none => .ok none
  | some bs => do
    let found ← c.block? (← readNumber bs)
    return found.filter (·.hash = hash)

/-- The header with a hash. -/
def header? (c : Chain) (hash : Hash) : Except ChainError (Option Header) := do
  return (← c.blockByHash? hash).map (·.header)

/-- The hash of the block under a number. -/
def hashAt? (c : Chain) (number : UInt64) : Except ChainError (Option Hash) := do
  return (← c.block? number).map (·.hash)

/-- The height of the tip; a chain without blocks has height zero. -/
def tipHeight (c : Chain) : Except ChainError UInt64 :=
  match c.markers[tipHeightKey]? with
  | none => .ok 0
  | some bs => readNumber bs

/-- The hash of the tip. -/
def tipHash? (c : Chain) : Except ChainError (Option Hash) :=
  match c.markers[tipHashKey]? with
  | none => .ok none
  | some bs =>
    match Hash.ofBytes? bs with
    | some h => .ok (some h)
    | none => .error (.brokenTip bs.length)

/-- One write of the four that put a block. -/
inductive Write where
  | block (b : Block)
  | index (hash : Hash) (number : UInt64)
  | tipHeight (height : UInt64)
  | tipHash (hash : Hash)

/-- The chain after one write. -/
def write (c : Chain) : Write → Chain
  | .block b => { c with blocks := c.blocks.insert (Bytes.be64 b.number) (Stored.toBytes b) }
  | .index hash number => { c with index := c.index.insert hash.bytes (Bytes.be64 number) }
  | .tipHeight height => { c with markers := c.markers.insert tipHeightKey (Bytes.be64 height) }
  | .tipHash hash => { c with markers := c.markers.insert tipHashKey hash.bytes }

/-- The writes that put a block and make it the tip, in order. -/
def writes (b : Block) : List Write :=
  [.block b, .index b.hash b.number, .tipHeight b.number, .tipHash b.hash]

/-- Puts a block under its number and makes it the tip, whatever stands there. -/
def put (c : Chain) (b : Block) : Chain := (writes b).foldl write c

/-- Removes all blocks and the tip; other markers stay. -/
def clear (c : Chain) : Chain where
  blocks := ∅
  index := ∅
  markers := (c.markers.erase tipHeightKey).erase tipHashKey

/-! ## Growth -/

/-- Puts the genesis block, unless the chain has a block of number zero or a higher tip. -/
def ensureGenesis (c : Chain) : Except ChainError Chain := do
  let height ← c.tipHeight
  if height = 0 then
    match ← c.block? 0 with
    | none => return c.put Block.genesis
    | some _ => return c
  else return c

/-- The height and the hash of the tip. -/
def tip (c : Chain) : Except ChainError (UInt64 × Option Hash) := do
  return (← c.tipHeight, ← c.tipHash?)

/-- Puts a block on top of the tip. A chain without a tip takes a block whose parent is the zero
hash. -/
def append (c : Chain) (b : Block) : Except ChainError Chain := do
  let (height, tipHash) ← c.tip
  let tipHash := tipHash.getD Hash.zero
  if b.header.parent ≠ tipHash then
    throw (.notOnTip b.number tipHash b.header.parent)
  if b.number ≠ height + 1 then
    throw (.unexpectedNumber (height + 1) b.number)
  return c.put b

/-! ## Headers toward genesis -/

/-- The header below a header; nothing is below number zero. -/
def below? (c : Chain) (h : Header) : Except ChainError (Option Header) :=
  if h.number = 0 then .ok none else c.header? h.parent

/-- At most `limit` headers downward. A header is looked up before the limit is asked, so that a damaged
row just beyond the limit is still an error. -/
def descend (c : Chain) : (limit : Nat) → (next : Option Header) → Except ChainError (List Header)
  | _, none => .ok []
  | 0, some _ => .ok []
  | limit + 1, some h => do
    let next ← c.below? h
    return h :: (← c.descend limit next)

/-- At most `limit` headers from the one with a hash downward; none if the hash is unknown. -/
def headersDescending (c : Chain) (hash : Hash) (limit : Nat) : Except ChainError (List Header) := do
  c.descend limit (← c.header? hash)

end Chain

/-! ## The local chain as a sync sees it -/

/-- Chains that a sync can connect to. -/
class LocalChain (σ : Type) where
  header? : σ → Hash → Except ChainError (Option Header)
  append : σ → Block → Except ChainError σ

instance : LocalChain Chain where
  header? := Chain.header?
  append := Chain.append

/-- A chain that refuses the block of one number. -/
structure Refusing (σ : Type) where
  chain : σ
  refused : Option UInt64 := none

instance {σ : Type} [LocalChain σ] : LocalChain (Refusing σ) where
  header? r := LocalChain.header? r.chain
  append r b :=
    if r.refused = some b.number then .error (.refused "disk full")
    else (LocalChain.append r.chain b).map fun chain => { r with chain }

end ChainSync
