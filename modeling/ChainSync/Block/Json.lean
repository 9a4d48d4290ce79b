import ChainSync.Block
import ChainSync.Json.Parser
import ChainSync.Json.Fields

/-!
# Transactions, headers and blocks as JSON

`toJson` gives the value that is written for a transaction, a header or a block, and `ofJson?`
reads such a value back. A header may leave out its extra bytes; every other field must be there.
-/

namespace ChainSync

namespace Transaction

def toJson (t : Transaction) : Json :=
  Json.record
    [("from", Json.text t.sender), ("to", Json.text t.receiver),
      ("amount", Json.nat t.amount.toNat), ("timestamp", Json.nat t.timestamp.toNat)]

def ofJson? (v : Json) : Option Transaction := do
  match ← v.fields? ["from", "to", "amount", "timestamp"] with
  | [some sender, some receiver, some amount, some timestamp] =>
    return {
      sender := ← sender.text?
      receiver := ← receiver.text?
      amount := ← amount.word64?
      timestamp := ← timestamp.word64? }
  | _ => none

end Transaction

namespace Header

def toJson (h : Header) : Json :=
  Json.record
    [("number", Json.nat h.number.toNat), ("parent_hash", Json.ofHash h.parent),
      ("merkle_root", Json.ofHash h.merkleRoot), ("timestamp", Json.nat h.timestamp.toNat),
      ("extra_data", Json.ofBytes h.extra)]

def ofJson? (v : Json) : Option Header := do
  match ← v.fields? ["number", "parent_hash", "merkle_root", "timestamp", "extra_data"] with
  | [some number, some parent, some merkleRoot, some timestamp, extra] =>
    return {
      number := ← number.word64?
      parent := ← parent.hash?
      merkleRoot := ← merkleRoot.hash?
      timestamp := ← timestamp.word64?
      extra := ← (extra.map Json.bytes?).getD (some []) }
  | _ => none

end Header

namespace Block

def toJson (b : Block) : Json :=
  Json.record
    [("header", b.header.toJson), ("txs", .array (b.transactions.map Transaction.toJson))]

def ofJson? (v : Json) : Option Block := do
  match ← v.fields? ["header", "txs"] with
  | [some header, some transactions] =>
    return {
      header := ← Header.ofJson? header
      transactions := ← transactions.list? Transaction.ofJson? }
  | _ => none

end Block

def Header.listToJson (hs : List Header) : Json := .array (hs.map Header.toJson)

def Header.listOfJson? (v : Json) : Option (List Header) := v.list? Header.ofJson?

end ChainSync
