import Mathlib
import ChainSync.Merkle
import ChainSync.Proofs.Json.Fields

/-!
# Transactions, headers and blocks read back from their JSON texts

`RoundTrips write read` says of a written form that the printed text is read as what was written, and
that two things have two texts. It holds of transactions, headers, lists of headers and blocks
(`roundTrips_wireForms`), for every number, every text and every row of extra bytes; so the hash of a
header and the Merkle root of a block's transactions survive being written and read, and the bytes of
a Merkle leaf determine the transaction.
-/

namespace ChainSync

namespace Json

/-- The printed text is read as what was written, and two things have two texts. -/
structure RoundTrips {α : Type} (write : α → Json) (read : Json → Option α) : Prop where
  read_print : ∀ a, (parse? (write a).print).bind read = some a
  print_injective : Function.Injective fun a => (write a).print

/-- A well-formed value that is read back is read back from its text. -/
lemma RoundTrips.of_wellFormed {α : Type} {write : α → Json} {read : Json → Option α}
    (hread : ∀ a, read (write a) = some a) (wf : ∀ a, WellFormed (write a)) :
    RoundTrips write read := by
  have hprint : ∀ a, (parse? (write a).print).bind read = some a := by
    intro a
    rw [parse?_print (wf a), Option.bind_some, hread]
  constructor
  · exact hprint
  · intro a b h
    have ha := hprint a
    rw [show (write a).print = (write b).print from h, hprint b] at ha
    exact (Option.some.inj ha).symm

end Json

namespace Transaction

/-- A transaction is read back from what it is written as. -/
@[simp]
lemma ofJson?_toJson (t : Transaction) : ofJson? t.toJson = some t := by
  have hfields : t.toJson.fields? ["from", "to", "amount", "timestamp"] = some
      [some (Json.text t.sender), some (Json.text t.receiver), some (Json.nat t.amount.toNat),
        some (Json.nat t.timestamp.toNat)] := Json.fields?_record (by simp)
  simp [ofJson?, hfields]

/-- A transaction is written as a well-formed value. -/
lemma wellFormed_toJson (t : Transaction) : t.toJson.WellFormed := by
  apply Json.wellFormed_record
  simp [Json.WellFormed.nat, Json.WellFormed.text]

/-- A transaction is read back from its text. -/
lemma roundTrips : Json.RoundTrips toJson ofJson? :=
  .of_wellFormed ofJson?_toJson wellFormed_toJson

end Transaction

namespace Header

/-- A header is read back from what it is written as. -/
@[simp]
lemma ofJson?_toJson (h : Header) : ofJson? h.toJson = some h := by
  have hfields : h.toJson.fields? ["number", "parent_hash", "merkle_root", "timestamp",
      "extra_data"] = some
      [some (Json.nat h.number.toNat), some (Json.ofHash h.parent),
        some (Json.ofHash h.merkleRoot), some (Json.nat h.timestamp.toNat),
        some (Json.ofBytes h.extra)] := Json.fields?_record (by simp)
  simp [ofJson?, hfields]

/-- A header is written as a well-formed value. -/
lemma wellFormed_toJson (h : Header) : h.toJson.WellFormed := by
  apply Json.wellFormed_record
  simp [Json.WellFormed.nat, Json.wellFormed_ofHash, Json.wellFormed_ofBytes]

/-- A header is read back from its text. -/
lemma roundTrips : Json.RoundTrips toJson ofJson? :=
  .of_wellFormed ofJson?_toJson wellFormed_toJson

/-- A list of headers is read back from what it is written as. -/
lemma listOfJson?_listToJson (hs : List Header) : listOfJson? (listToJson hs) = some hs :=
  Json.list?_map hs fun h _ => ofJson?_toJson h

/-- A list of headers is written as a well-formed value. -/
lemma wellFormed_listToJson (hs : List Header) : (listToJson hs).WellFormed :=
  Json.wellFormed_list wellFormed_toJson hs

/-- A list of headers is read back from its text. -/
lemma roundTrips_list : Json.RoundTrips listToJson listOfJson? :=
  .of_wellFormed listOfJson?_listToJson wellFormed_listToJson

end Header

namespace Block

/-- A block is read back from what it is written as. -/
@[simp]
lemma ofJson?_toJson (b : Block) : ofJson? b.toJson = some b := by
  have hfields : b.toJson.fields? ["header", "txs"] = some
      [some b.header.toJson, some (.array (b.transactions.map Transaction.toJson))] :=
    Json.fields?_record (by simp)
  have htxs : (Json.array (b.transactions.map Transaction.toJson)).list? Transaction.ofJson? =
      some b.transactions := Json.list?_map b.transactions fun t _ => t.ofJson?_toJson
  simp [ofJson?, hfields, htxs]

/-- A block is written as a well-formed value. -/
lemma wellFormed_toJson (b : Block) : b.toJson.WellFormed := by
  apply Json.wellFormed_record
  simp [Header.wellFormed_toJson, Json.wellFormed_list Transaction.wellFormed_toJson]

/-- A block is read back from its text. -/
lemma roundTrips : Json.RoundTrips toJson ofJson? :=
  .of_wellFormed ofJson?_toJson wellFormed_toJson

end Block

/-- Transactions, headers, lists of headers and blocks are read back from their texts as they were
written, and no text is that of two of them; what is read has the hash and the Merkle root of what
was written. -/
theorem roundTrips_wireForms :
    Json.RoundTrips Transaction.toJson Transaction.ofJson? ∧
    Json.RoundTrips Header.toJson Header.ofJson? ∧
    Json.RoundTrips Header.listToJson Header.listOfJson? ∧
    Json.RoundTrips Block.toJson Block.ofJson? ∧
    Function.Injective Merkle.leafBytes ∧
    (∀ h : Header,
      ((Json.parse? h.toJson.print).bind Header.ofJson?).map Header.hash = some h.hash) ∧
    (∀ b : Block,
      ((Json.parse? b.toJson.print).bind Block.ofJson?).map Block.hash = some b.hash ∧
      ((Json.parse? b.toJson.print).bind Block.ofJson?).map (fun read => Merkle.root read.transactions) =
        some (Merkle.root b.transactions)) := by
  refine ⟨Transaction.roundTrips, Header.roundTrips, Header.roundTrips_list, Block.roundTrips,
    Transaction.roundTrips.print_injective, ?_, ?_⟩
  · intro h
    rw [Header.roundTrips.read_print h]
    rfl
  · intro b
    rw [Block.roundTrips.read_print b]
    exact ⟨rfl, rfl⟩

end ChainSync
