import Mathlib
import ChainSync.Block.Stored
import ChainSync.Proofs.Utf8

/-!
# Stored values read back what was written

`Reads r write P` says that the reader `r` succeeds exactly where a written value with `P` stands, and
takes no more than it. Every reader of the stored form is described in this way, and so are its
compositions; `P` only says that lengths are words (`Header.Sized`, `Block.Sized`). A table that reads
a row therefore finds a value exactly where the row begins with its stored form.
-/

namespace ChainSync

namespace Bytes

/-- A number that is read from bytes has no more digits than there are bytes. -/
lemma ofLE_lt (bs : Bytes) : ofLE bs < 256 ^ bs.length := by
  induction bs with
  | nil => simp [ofLE]
  | cons b bs ih =>
    have hb := b.toNat_lt
    rw [ofLE, List.length_cons, Nat.pow_succ]
    omega

/-- Eight bytes are the word that they are read as. -/
lemma le64_ofLE {bs : Bytes} (h : bs.length = 8) : le64 (UInt64.ofNat (ofLE bs)) = bs := by
  have hlt := ofLE_lt bs
  rw [h] at hlt
  have hn : (UInt64.ofNat (ofLE bs)).toNat = ofLE bs := by
    rw [UInt64.toNat_ofNat']
    omega
  rw [le64, hn, ← h, le_ofLE]

end Bytes

namespace Stored

variable {α β : Type}

/-- A reader succeeds exactly where a value with `P` stands as it is written. -/
abbrev Reads (r : Reader α) (write : α → Bytes) (P : α → Prop) : Prop :=
  ∀ {bs : Bytes} {v : α} {rest : Bytes}, r bs = .ok (v, rest) ↔ bs = write v ++ rest ∧ P v

/-- A word is a length that can be written. -/
abbrev IsLength (n : Nat) : Prop := n < 2 ^ 64

/-- A length is kept by the word that it is written as. -/
lemma IsLength.toNat {n : Nat} (h : IsLength n) : (UInt64.ofNat n).toNat = n := by
  rw [UInt64.toNat_ofNat']
  exact Nat.mod_eq_of_lt h

/-- Two readers in a row succeed where the second one does behind the first. -/
@[simp]
lemma bind_eq_ok {r : Reader α} {f : α → Reader β} {bs : Bytes} {p : β × Bytes} :
    (r >>= f) bs = .ok p ↔ ∃ v mid, r bs = .ok (v, mid) ∧ f v mid = .ok p := by
  change (r bs >>= fun q => f q.1 q.2) = _ ↔ _
  cases h : r bs with
  | error fault => simp [bind, Except.bind]
  | ok q =>
    constructor
    · intro hf
      exact ⟨q.1, q.2, rfl, hf⟩
    · rintro ⟨_, _, hq, hf⟩
      cases hq
      exact hf

/-- A value without bytes is read anywhere, and nothing is consumed. -/
@[simp]
lemma pure_eq_ok {v w : α} {bs rest : Bytes} :
    (pure v : Reader α) bs = .ok (w, rest) ↔ v = w ∧ bs = rest := by
  change Except.ok (v, bs) = _ ↔ _
  simp

/-- So many bytes are read where they stand in front. -/
lemma take_eq_ok {n : Nat} {bs front rest : Bytes} :
    take n bs = .ok (front, rest) ↔ bs = front ++ rest ∧ front.length = n := by
  unfold take
  constructor
  · intro h
    simp only at h
    split at h
    · cases h
      exact ⟨(List.take_append_drop n bs).symm, ‹_›⟩
    · cases h
  · rintro ⟨rfl, rfl⟩
    simp

/-- A word is read where its eight bytes stand. -/
lemma reads_word64 : Reads word64 Bytes.le64 fun _ => True := by
  intro bs v rest
  simp only [word64, bind_eq_ok, pure_eq_ok, take_eq_ok]
  constructor
  · rintro ⟨front, _, ⟨rfl, h⟩, rfl, rfl⟩
    rw [Bytes.le64_ofLE h]
    exact ⟨rfl, trivial⟩
  · rintro ⟨rfl, -⟩
    exact ⟨_, _, ⟨rfl, Bytes.length_le64 v⟩, by rw [Bytes.ofLE_le64, UInt64.ofNat_toNat], rfl⟩

/-- A hash is read where its bytes stand. -/
lemma reads_hash : Reads hash Hash.bytes fun _ => True := by
  intro bs v rest
  unfold hash
  constructor
  · intro h
    split at h
    · cases h
      exact ⟨(List.take_append_drop 32 bs).symm, trivial⟩
    · cases h
  · rintro ⟨rfl, -⟩
    have h : ((v.bytes ++ rest).take 32) = v.bytes := by
      rw [← v.length_bytes, List.take_left]
    rw [dif_pos (by rw [h, v.length_bytes])]
    congr 2
    · exact Hash.ext h
    · rw [← v.length_bytes, List.drop_left]

/-- Counted bytes are read where they stand behind their number. -/
lemma reads_bytes : Reads bytes counted fun bs => IsLength bs.length := by
  intro bs v rest
  simp only [bytes, bind_eq_ok, take_eq_ok, reads_word64, counted]
  constructor
  · rintro ⟨n, _, ⟨rfl, -⟩, rfl, hn⟩
    rw [hn, UInt64.ofNat_toNat, List.append_assoc]
    exact ⟨rfl, n.toNat_lt⟩
  · rintro ⟨rfl, hlen⟩
    exact ⟨_, _, ⟨List.append_assoc .., trivial⟩, rfl, hlen.toNat.symm⟩

/-- A text is read where its counted bytes stand. -/
lemma reads_text : Reads text countedText fun s => IsLength (Utf8.encode s).length := by
  intro bs v rest
  simp only [text, bind_eq_ok, reads_word64]
  constructor
  · rintro ⟨n, mid, ⟨rfl, -⟩, _, _, hget, h⟩
    cases hget
    -- the length is checked before the bytes are decoded
    by_cases hlen : (mid.take n.toNat).length = n.toNat
    · rw [if_pos hlen] at h
      cases hs : Utf8.decode (mid.take n.toNat) with
      | ok s =>
        rw [hs] at h
        obtain ⟨⟨⟩, _, hset, hpure⟩ := bind_eq_ok.1 h
        cases hset
        obtain ⟨rfl, rfl⟩ := pure_eq_ok.1 hpure
        have hfront := Utf8.decode_eq_ok_iff.1 hs
        refine ⟨?_, ?_⟩
        · rw [countedText, counted, ← hfront, hlen, UInt64.ofNat_toNat, List.append_assoc,
            List.take_append_drop]
        · rw [← hfront, hlen]
          exact n.toNat_lt
      | error fault =>
        rw [hs] at h
        cases h
    · rw [if_neg hlen] at h
      cases h
  · rintro ⟨rfl, hlen⟩
    refine ⟨_, _, ⟨List.append_assoc .., trivial⟩, _, _, rfl, ?_⟩
    have htake : (Utf8.encode v ++ rest).take (Utf8.encode v).length = Utf8.encode v :=
      List.take_left
    rw [hlen.toNat, htake, if_pos rfl, Utf8.decode_eq_ok_iff.2 rfl, List.drop_left]
    rfl

/-- As many values as are written are read, if each of them is. -/
lemma times_eq_ok {item : Reader α} {write : α → Bytes} {P : α → Prop} (hr : Reads item write P)
    (n : Nat) {bs : Bytes} {vs : List α} {rest : Bytes} :
    times item n bs = .ok (vs, rest) ↔
      bs = vs.flatMap write ++ rest ∧ (∀ v ∈ vs, P v) ∧ vs.length = n := by
  induction n generalizing bs vs rest with
  | zero =>
    simp only [times, pure_eq_ok]
    constructor
    · rintro ⟨rfl, rfl⟩
      simp
    · rintro ⟨rfl, -, hlen⟩
      obtain rfl := List.length_eq_zero_iff.1 hlen
      exact ⟨rfl, rfl⟩
  | succ n ih =>
    simp only [times, bind_eq_ok, pure_eq_ok, hr, ih]
    constructor
    · rintro ⟨v, _, ⟨rfl, hv⟩, ws, _, ⟨rfl, hws, rfl⟩, rfl, rfl⟩
      refine ⟨by simp, ?_, rfl⟩
      rintro w (_ | ⟨_, hw⟩)
      · exact hv
      · exact hws w hw
    · rintro ⟨rfl, hvs, hlen⟩
      cases vs with
      | nil => cases hlen
      | cons v vs =>
        have hv := hvs v List.mem_cons_self
        have hvs : ∀ w ∈ vs, P w := fun w hw => hvs w (List.mem_cons_of_mem v hw)
        exact ⟨v, _, ⟨by simp, hv⟩, vs, _, ⟨rfl, hvs, Nat.succ.inj hlen⟩, rfl, rfl⟩

/-- A list is read where its items stand behind their number. -/
lemma reads_list {item : Reader α} {write : α → Bytes} {P : α → Prop} (hr : Reads item write P) :
    Reads (list item) (fun vs => Bytes.le64 (UInt64.ofNat vs.length) ++ vs.flatMap write)
      fun vs => IsLength vs.length ∧ ∀ v ∈ vs, P v := by
  intro bs vs rest
  simp only [list, bind_eq_ok, reads_word64, times_eq_ok hr]
  constructor
  · rintro ⟨n, _, ⟨rfl, -⟩, rfl, hvs, hlen⟩
    rw [hlen, UInt64.ofNat_toNat, List.append_assoc]
    exact ⟨rfl, n.toNat_lt, hvs⟩
  · rintro ⟨rfl, hlen, hvs⟩
    exact ⟨_, _, ⟨List.append_assoc .., trivial⟩, rfl, hvs, hlen.toNat.symm⟩

end Stored

/-- The texts of a transaction have lengths that can be written. -/
structure Transaction.Sized (t : Transaction) : Prop where
  sender : Stored.IsLength (Utf8.encode t.sender).length
  receiver : Stored.IsLength (Utf8.encode t.receiver).length

/-- The extra bytes of a header have a length that can be written. -/
def Header.Sized (h : Header) : Prop := Stored.IsLength h.extra.length

/-- All lengths of a block can be written. -/
structure Block.Sized (b : Block) : Prop where
  header : b.header.Sized
  length : Stored.IsLength b.transactions.length
  transactions : ∀ t ∈ b.transactions, t.Sized

/-- A block without texts and bytes can be written. -/
lemma Block.sized_of_nil {b : Block} (hextra : b.header.extra = []) (hts : b.transactions = []) :
    b.Sized := by
  refine ⟨?_, ?_, ?_⟩
  · simp [Header.Sized, hextra]
  · simp [hts]
  · simp [hts]

namespace Stored

/-- A transaction is read where its stored form stands. -/
lemma reads_transaction : Reads Transaction.reader Transaction.stored Transaction.Sized := by
  intro bs t rest
  simp only [Transaction.reader, bind_eq_ok, pure_eq_ok, reads_text, reads_word64,
    Transaction.stored]
  constructor
  · rintro ⟨s, _, ⟨rfl, hs⟩, r, _, ⟨rfl, hr⟩, a, _, ⟨rfl, -⟩, time, _, ⟨rfl, -⟩, rfl, rfl⟩
    exact ⟨by simp only [List.append_assoc], hs, hr⟩
  · rintro ⟨rfl, hs, hr⟩
    exact ⟨t.sender, _, ⟨by simp only [List.append_assoc], hs⟩, t.receiver, _, ⟨rfl, hr⟩,
      t.amount, _, ⟨rfl, trivial⟩, t.timestamp, _, ⟨rfl, trivial⟩, rfl, rfl⟩

/-- A header is read where its stored form stands. -/
lemma reads_header : Reads Header.reader Header.stored Header.Sized := by
  intro bs h rest
  simp only [Header.reader, bind_eq_ok, pure_eq_ok, reads_hash, reads_word64, reads_bytes,
    Header.stored]
  constructor
  · rintro ⟨n, _, ⟨rfl, -⟩, p, _, ⟨rfl, -⟩, m, _, ⟨rfl, -⟩, time, _, ⟨rfl, -⟩, x, _, ⟨rfl, hx⟩, rfl,
      rfl⟩
    exact ⟨by simp only [List.append_assoc, toBytes], hx⟩
  · rintro ⟨rfl, hx⟩
    exact ⟨h.number, _, ⟨by simp only [List.append_assoc]; rfl, trivial⟩, h.parent, _,
      ⟨rfl, trivial⟩, h.merkleRoot, _, ⟨rfl, trivial⟩, h.timestamp, _, ⟨rfl, trivial⟩, h.extra, _,
      ⟨rfl, hx⟩, rfl, rfl⟩

/-- A block is read where its stored form stands. -/
lemma reads_block : Reads Block.reader Block.stored Block.Sized := by
  intro bs b rest
  simp only [Block.reader, bind_eq_ok, pure_eq_ok, reads_header, reads_list reads_transaction,
    Block.stored]
  constructor
  · rintro ⟨h, _, ⟨rfl, hh⟩, ts, _, ⟨rfl, hlen, hts⟩, rfl, rfl⟩
    exact ⟨by simp only [List.append_assoc], hh, hlen, hts⟩
  · rintro ⟨rfl, hh, hlen, hts⟩
    exact ⟨b.header, _, ⟨List.append_assoc .., hh⟩, b.transactions, _, ⟨rfl, hlen, hts⟩, rfl, rfl⟩

end Stored

open Stored

/-- A reading that keeps the value only. -/
lemma Stored.map_fst_eq_ok {α : Type} {r : Reader α} {write : α → Bytes} {P : α → Prop}
    (hr : Reads r write P) {bs : Bytes} {v : α} :
    (r bs).map (·.1) = .ok v ↔ ∃ rest, bs = write v ++ rest ∧ P v := by
  constructor
  · intro h
    cases hb : r bs with
    | error fault => rw [hb] at h; cases h
    | ok q =>
      rw [hb] at h
      cases h
      exact ⟨q.2, hr.1 hb⟩
  · rintro ⟨rest, hbs⟩
    rw [hr.2 hbs]
    rfl

/-- A row is a header exactly when it begins with the stored form of the header. -/
theorem Header.ofBytes_eq_ok_iff {bs : Bytes} {h : Header} :
    ofBytes bs = .ok h ↔ ∃ rest, bs = toBytes h ++ rest ∧ h.Sized :=
  map_fst_eq_ok reads_header

/-- A row is a block exactly when it begins with the stored form of the block. -/
theorem Block.ofBytes_eq_ok_iff {bs : Bytes} {b : Block} :
    ofBytes bs = .ok b ↔ ∃ rest, bs = toBytes b ++ rest ∧ b.Sized :=
  map_fst_eq_ok reads_block

/-- A row is a hash exactly when it is its bytes. -/
theorem Hash.ofBytes_eq_ok_iff {bs : Bytes} {h : Hash} : ofBytes bs = .ok h ↔ bs = toBytes h := by
  constructor
  · intro hok
    simp only [ofBytes, Hash.ofBytes?] at hok
    split_ifs at hok with hlen
    cases hok
    rfl
  · rintro rfl
    simp only [ofBytes, toBytes, Hash.ofBytes?_bytes]

/-- A header is read back from its stored form. -/
@[simp]
lemma Header.ofBytes_toBytes {h : Header} (hh : h.Sized) : ofBytes (toBytes h) = .ok h :=
  ofBytes_eq_ok_iff.2 ⟨[], by simp, hh⟩

/-- A block is read back from its stored form. -/
@[simp]
lemma Block.ofBytes_toBytes {b : Block} (hb : b.Sized) : ofBytes (toBytes b) = .ok b :=
  ofBytes_eq_ok_iff.2 ⟨[], by simp, hb⟩

/-- A hash is read back from its stored form. -/
@[simp]
lemma Hash.ofBytes_toBytes (h : Hash) : ofBytes (toBytes h) = .ok h :=
  ofBytes_eq_ok_iff.2 rfl

/-- A block that was read has lengths that can be written. -/
lemma Block.sized_of_ofBytes {bs : Bytes} {b : Block} (hb : ofBytes bs = .ok b) : b.Sized := by
  obtain ⟨_, -, hb⟩ := ofBytes_eq_ok_iff.1 hb
  exact hb

/-! ## Stored forms end themselves -/

/-- Where a stored value ends can be read off its own bytes, for the values with `P`. -/
structure Stored.Delimits (α : Type) [Stored α] (P : α → Prop) : Prop where
  /-- Bytes are a value exactly when they begin with its stored form. -/
  ofBytes_eq_ok_iff : ∀ {bs : Bytes} {v : α}, P v → (ofBytes bs = .ok v ↔ toBytes v <+: bs)
  ofBytes_toBytes : ∀ {v : α}, P v → ofBytes (toBytes v) = .ok v
  injOn : {v : α | P v}.InjOn toBytes
  /-- No stored form begins with another one. -/
  eq_of_prefix : ∀ {v w : α}, P v → P w → toBytes v <+: toBytes w → v = w
  /-- A stored form that was cut short is no value. -/
  ofBytes_take : ∀ {v : α} {n : Nat}, P v → n < (toBytes v).length →
    ∃ fault, (ofBytes ((toBytes v).take n) : Except Fault α) = .error fault
  /-- What is read is the front of the bytes. -/
  toBytes_prefix : ∀ {bs : Bytes} {v : α}, ofBytes bs = .ok v → P v ∧ toBytes v <+: bs

/-- All of this follows from where a reading succeeds. -/
lemma Stored.delimits_of_iff {α : Type} [Stored α] {P : α → Prop}
    (hiff : ∀ {bs : Bytes} {v : α}, ofBytes bs = .ok v ↔ ∃ rest, bs = toBytes v ++ rest ∧ P v) :
    Delimits α P := by
  have hread : ∀ {bs : Bytes} {v : α}, ofBytes bs = .ok v → P v ∧ toBytes v <+: bs := by
    intro bs v h
    obtain ⟨rest, rfl, hv⟩ := hiff.1 h
    exact ⟨hv, List.prefix_append (toBytes v) rest⟩
  have hof : ∀ {bs : Bytes} {v : α}, P v → toBytes v <+: bs → ofBytes bs = .ok v := by
    rintro _ v hv ⟨rest, rfl⟩
    exact hiff.2 ⟨rest, rfl, hv⟩
  have hself : ∀ {v : α}, P v → ofBytes (toBytes v) = .ok v := fun hv =>
    hof hv (List.prefix_refl _)
  have heq : ∀ {v w : α}, P v → P w → toBytes v <+: toBytes w → v = w := by
    intro v w hv hw hpre
    -- the longer form reads as both values
    have hboth : Except.ok v = Except.ok w := (hof hv hpre).symm.trans (hself hw)
    exact Except.ok.inj hboth
  exact {
    ofBytes_eq_ok_iff := fun hv => ⟨fun h => (hread h).2, hof hv⟩
    ofBytes_toBytes := hself
    injOn := by
      intro v hv w hw e
      exact heq hv hw ⟨[], by rw [List.append_nil, e]⟩
    eq_of_prefix := heq
    ofBytes_take := by
      intro v n hv hn
      cases hcut : (ofBytes ((toBytes v).take n) : Except Fault α) with
      | error fault => exact ⟨fault, rfl⟩
      | ok w =>
        -- the part that is left would begin with the whole
        obtain ⟨hw, hpre⟩ := hread hcut
        have hlen := hpre.length_le
        rw [heq hw hv (hpre.trans (List.take_prefix n (toBytes v))), List.length_take] at hlen
        omega
    toBytes_prefix := hread }

/-- Bytes are a header or a block exactly when they begin with its stored form, which no other one begins
with, and they are a hash exactly when there are 32 of them. -/
theorem delimits_stored :
    Delimits Header Header.Sized ∧ Delimits Block Block.Sized ∧
      (∀ bs : Bytes, (∃ h : Hash, ofBytes bs = .ok h) ↔ bs.length = 32) ∧
      ∀ (bs : Bytes) (h : Hash), ofBytes bs = .ok h ↔ bs = toBytes h := by
  refine ⟨delimits_of_iff Header.ofBytes_eq_ok_iff, delimits_of_iff Block.ofBytes_eq_ok_iff, ?_,
    fun _ _ => Hash.ofBytes_eq_ok_iff⟩
  intro bs
  constructor
  · rintro ⟨h, hok⟩
    rw [Hash.ofBytes_eq_ok_iff.1 hok]
    exact h.length_bytes
  · intro hlen
    exact ⟨⟨bs, hlen⟩, Hash.ofBytes_eq_ok_iff.2 rfl⟩

end ChainSync
