import ChainSync.Proofs.Segment.Rows

/-!
# Headers are named by what is stored

The bytes that are digested for the hash of a header are those that are stored for it, and its block is
stored with them in front. All fields but the last one take a fixed number of bytes, so the bytes
determine the header, and headers that share a hash are the same or make two strings collide.

A segment therefore takes a row for the header with a hash exactly if the row begins with a header whose
bytes have that digest, whatever stands behind them (`Header.named_by_stored`).
-/

namespace ChainSync

/-- Two words have two spellings. -/
lemma Bytes.le64_injective : Function.Injective le64 := by
  intro m n h
  have e := congrArg ofLE h
  rw [ofLE_le64, ofLE_le64] at e
  exact UInt64.toNat_inj.1 e

namespace Header

variable {h h' : Header}

/-- The digested layout is the stored one. -/
lemma hashedBytes_eq_toBytes (h : Header) : h.hashedBytes = Stored.toBytes h := by
  simp only [hashedBytes, Stored.toBytes, stored, Stored.counted, List.append_assoc]

/-- A block is stored with the digested bytes of its header in front. -/
lemma hashedBytes_prefix (b : Block) : b.header.hashedBytes <+: Stored.toBytes b := by
  rw [hashedBytes_eq_toBytes]
  exact List.prefix_append ..

/-- The fields can be read off the digested bytes. -/
lemma hashedBytes_injective : Function.Injective hashedBytes := by
  intro h h' e
  -- the extra bytes come last, and the fields before them have fixed widths
  obtain ⟨e, hextra⟩ := List.append_inj e (by simp [Hash.length_bytes])
  obtain ⟨e, -⟩ := List.append_inj e (by simp [Hash.length_bytes])
  obtain ⟨e, htimestamp⟩ := List.append_inj e (by simp [Hash.length_bytes])
  obtain ⟨e, hroot⟩ := List.append_inj e (by simp [Hash.length_bytes])
  obtain ⟨hnumber, hparent⟩ := List.append_inj e (by simp)
  obtain ⟨n, p, m, time, x⟩ := h
  obtain ⟨n', p', m', time', x'⟩ := h'
  cases Bytes.le64_injective hnumber
  cases Hash.ext hparent
  cases Hash.ext hroot
  cases Bytes.le64_injective htimestamp
  cases hextra
  rfl

/-- Headers that share a hash are the same, or two different strings have the same digest. -/
lemma eq_or_collide (e : h.hash = h'.hash) :
    h = h' ∨ h.hashedBytes ≠ h'.hashedBytes ∧
      Digest.sha256 h.hashedBytes = Digest.sha256 h'.hashedBytes := by
  by_cases same : h.hashedBytes = h'.hashedBytes
  · exact .inl (hashedBytes_injective same)
  · exact .inr ⟨same, e⟩

/-- Bytes are read as a header to their end exactly if they are digested for it. -/
lemma reader_eq_ok_nil_iff {bs : Bytes} :
    reader bs = .ok (h, []) ↔ bs = h.hashedBytes ∧ h.Sized := by
  rw [Stored.reads_header, List.append_nil, hashedBytes_eq_toBytes]
  rfl

/-- A segment takes a row for the header with a hash exactly if a header stands in front of it whose bytes
have this digest. -/
lemma exec_header?_eq_some_iff {s : Segment ByteMap} {key : Hash} :
    (Segment.header? key).exec s = (.ok (some h), s) ↔
      ∃ row front, s.headers.rows[key.bytes]? = some row ∧ front <+: row ∧
        reader front = .ok (h, []) ∧ Digest.sha256 front = key := by
  rw [Segment.exec_header?, Prod.mk.injEq, and_iff_left rfl, Segment.headerAt_eq_some_iff]
  constructor
  · rintro ⟨⟨row, hrow, hread⟩, rfl⟩
    obtain ⟨rest, rfl, hsized⟩ := ofBytes_eq_ok_iff.1 hread
    refine ⟨_, h.hashedBytes, hrow, ?_, reader_eq_ok_nil_iff.2 ⟨rfl, hsized⟩, rfl⟩
    rw [hashedBytes_eq_toBytes]
    exact List.prefix_append _ rest
  · rintro ⟨row, front, hrow, ⟨rest, rfl⟩, hread, rfl⟩
    obtain ⟨rfl, hsized⟩ := reader_eq_ok_nil_iff.1 hread
    refine ⟨⟨_, hrow, ?_⟩, rfl⟩
    exact ofBytes_eq_ok_iff.2 ⟨rest, by rw [hashedBytes_eq_toBytes], hsized⟩

/-- The digested bytes of a header are its stored form, and stand in front of that of its block. They
determine the header; so does its hash, unless two different strings collide; and a stored row counts
as the header with a hash exactly if it begins with a header whose bytes have this digest. -/
theorem named_by_stored :
    (∀ h : Header, h.hashedBytes = Stored.toBytes h) ∧
    (∀ b : Block, b.header.hashedBytes <+: Stored.toBytes b) ∧
    (∀ h h' : Header, h.hashedBytes = h'.hashedBytes → h = h') ∧
    (∀ h h' : Header, h.hash = h'.hash → h = h' ∨ h.hashedBytes ≠ h'.hashedBytes ∧
      Digest.sha256 h.hashedBytes = Digest.sha256 h'.hashedBytes) ∧
    ∀ (s : Segment ByteMap) (key : Hash) (h : Header),
      (Segment.header? key).exec s = (.ok (some h), s) ↔
        ∃ row front, s.headers.rows[key.bytes]? = some row ∧ front <+: row ∧
          reader front = .ok (h, []) ∧ Digest.sha256 front = key := by
  refine ⟨hashedBytes_eq_toBytes, hashedBytes_prefix, fun h h' e => hashedBytes_injective e,
    fun h h' e => eq_or_collide e, fun s key h => exec_header?_eq_some_iff⟩

end Header
end ChainSync
