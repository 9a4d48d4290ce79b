import ChainSync.Block.Json

/-!
# Merkle roots

The root of a list of transactions: the digests of their JSON texts are paired with their
neighbours, the pairs are digested, and so on until one hash is left. The last hash of an odd level
is paired with itself. No transactions have the zero hash for a root.
-/

namespace ChainSync.Merkle

/-- The bytes that stand for a transaction: its JSON text. -/
def leafBytes (t : Transaction) : Bytes := t.toJson.print

/-- The hash of a transaction. -/
def leaf (t : Transaction) : Hash := Digest.sha256 (leafBytes t)

/-- The hash of two neighbours. -/
def join (left right : Hash) : Hash := Digest.sha256 (left.bytes ++ right.bytes)

/-- The level above a level of hashes. -/
def pairUp : List Hash → List Hash
  | [] => []
  | [a] => [join a a]
  | a :: b :: rest => join a b :: pairUp rest

/-- The hash that is left after at most `levels` levels above this one. -/
def top : (levels : Nat) → List Hash → Hash
  | _, [] => Hash.zero
  | _, [a] => a
  | 0, a :: _ => a
  | levels + 1, hashes => top levels (pairUp hashes)

/-- The Merkle root of a list of transactions. A level is at most as long as the one below, so
their number is levels enough. -/
def root (ts : List Transaction) : Hash := top ts.length (ts.map leaf)

end ChainSync.Merkle

namespace ChainSync

/-- The block with these transactions, to whose Merkle root its header commits. -/
def Block.ofTransactions (number : UInt64) (parent : Hash) (transactions : List Transaction)
    (timestamp : UInt64) (extra : Bytes) : Block where
  header := { number, parent, merkleRoot := Merkle.root transactions, timestamp, extra }
  transactions

end ChainSync
