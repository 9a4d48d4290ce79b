import ChainSync.Block
import ChainSync.Stored

/-!
# Stored headers and blocks

The fields stand in the order of their declaration; a block's transactions stand after their
number.
-/

namespace ChainSync

def Transaction.stored (t : Transaction) : Bytes :=
  Stored.countedText t.sender ++ Stored.countedText t.receiver ++ Bytes.le64 t.amount
    ++ Bytes.le64 t.timestamp

def Transaction.reader : Stored.Reader Transaction := do
  return {
    sender := ← Stored.text
    receiver := ← Stored.text
    amount := ← Stored.word64
    timestamp := ← Stored.word64 }

def Header.stored (h : Header) : Bytes :=
  Bytes.le64 h.number ++ (Stored.toBytes h.parent ++ (Stored.toBytes h.merkleRoot
    ++ (Bytes.le64 h.timestamp ++ Stored.counted h.extra)))

def Header.reader : Stored.Reader Header := do
  return {
    number := ← Stored.word64
    parent := ← Stored.hash
    merkleRoot := ← Stored.hash
    timestamp := ← Stored.word64
    extra := ← Stored.bytes }

def Block.stored (b : Block) : Bytes :=
  b.header.stored ++ (Bytes.le64 (UInt64.ofNat b.transactions.length)
    ++ b.transactions.flatMap Transaction.stored)

def Block.reader : Stored.Reader Block := do
  return {
    header := ← Header.reader
    transactions := ← Stored.list Transaction.reader }

instance : Stored Header where
  toBytes := Header.stored
  ofBytes bs := (Header.reader bs).map (·.1)

instance : Stored Block where
  toBytes := Block.stored
  ofBytes bs := (Block.reader bs).map (·.1)

end ChainSync
