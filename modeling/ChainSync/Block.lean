import ChainSync.Digest

/-!
# Transactions, headers and blocks

A header names its parent by hash and commits to the transactions of its block by their Merkle
root. Its own hash is the digest of its fields in a fixed layout, and is also the block's hash.
-/

namespace ChainSync

/-- A transfer of an amount between two accounts. -/
structure Transaction where
  sender : String
  receiver : String
  amount : UInt64
  timestamp : UInt64
deriving DecidableEq, Inhabited

/-- What names a block, its place in the chain and its content. -/
structure Header where
  /-- The height of the block: zero for the first block of a chain. -/
  number : UInt64
  parent : Hash
  merkleRoot : Hash
  timestamp : UInt64
  /-- Bytes without a meaning for the chain. -/
  extra : Bytes := []
deriving DecidableEq, Inhabited

/-- A header with its transactions. -/
structure Block where
  header : Header
  transactions : List Transaction := []
deriving DecidableEq, Inhabited

/-- The bytes whose digest is the header's hash: number, parent, Merkle root, timestamp, and the
extra bytes after their count. -/
def Header.hashedBytes (h : Header) : Bytes :=
  Bytes.le64 h.number ++ h.parent.bytes ++ h.merkleRoot.bytes ++ Bytes.le64 h.timestamp
    ++ Bytes.le64 (UInt64.ofNat h.extra.length) ++ h.extra

/-- The hash of a header: the digest of its fields. -/
def Header.hash (h : Header) : Hash := Digest.sha256 h.hashedBytes

/-- A block has the hash of its header. -/
def Block.hash (b : Block) : Hash := b.header.hash

/-- A block has the height of its header. -/
def Block.number (b : Block) : UInt64 := b.header.number

/-- The first block of every chain. -/
def Block.genesis : Block where
  header := { number := 0, parent := Hash.zero, merkleRoot := Hash.zero, timestamp := 0 }

end ChainSync
