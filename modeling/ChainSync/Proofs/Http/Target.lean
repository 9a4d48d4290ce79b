import Mathlib
import ChainSync.Http.Client
import ChainSync.Proofs.Decimal
import ChainSync.Proofs.Hex

/-!
# Targets are taken apart as they were put together

The targets that a peer asks for are made of words of lowercase letters and digits (`Plain`), with
separators between them. No separator and no escape occurs in such a word, so splitting finds the
words again (`splitTarget_headersPath`, `splitTarget_blockPath`), decoding leaves them as they are
(`segmentText_hex`), and the limit is read as the number that was written (`limitOf_encode`).
-/

namespace ChainSync.Http

/-- The bytes of a word: lowercase letters and digits. -/
abbrev IsPlain (b : UInt8) : Prop := 48 ≤ b.toNat ∧ b.toNat ≤ 57 ∨ 97 ≤ b.toNat ∧ b.toNat ≤ 122

/-- A word. -/
abbrev Plain (word : Bytes) : Prop := ∀ b ∈ word, IsPlain b

/-- A word has none of the bytes that structure a target. -/
lemma Plain.not_mem {word : Bytes} (hw : Plain word) {b : UInt8} (hb : ¬ IsPlain b) : b ∉ word :=
  fun h => hb (hw b h)

/-- A decimal number is a word. -/
lemma plain_decimal (n : Nat) : Plain (Decimal.encode n) := fun _ hb =>
  .inl (Decimal.isDigit_iff.1 (Decimal.isDigit_of_mem_encode hb))

/-- A digit may stand in a word. -/
lemma isPlain_digit {n : Nat} (hn : n < 16) : IsPlain (UInt8.ofNat (Hex.digit n).toNat) := by
  decide +revert

/-- The text of a hash is a word. -/
lemma plain_hex (h : Hash) : Plain (Utf8.encode h.hex) := by
  intro b hb
  rw [Hash.hex, Hex.utf8_encode] at hb
  obtain ⟨c, hc, rfl⟩ := List.mem_map.1 hb
  obtain ⟨n, hn, rfl⟩ := Hex.mem_digits hc
  exact isPlain_digit hn

/-! ## Splitting -/

/-- Bytes without the separator are not split. -/
lemma splitAtFirst_of_not_mem {separator : UInt8} {bs : Bytes} (h : separator ∉ bs) :
    splitAtFirst separator bs = (bs, none) := by
  have hall : ∀ b ∈ bs, decide (b ≠ separator) = true := by
    intro b hb
    apply decide_eq_true
    rintro rfl
    exact h hb
  rw [splitAtFirst, List.span_eq_takeWhile_dropWhile, List.takeWhile_eq_self_iff.2 hall,
    List.dropWhile_eq_nil_iff.2 hall]

/-- Bytes are split at the first separator. -/
lemma splitAtFirst_append {separator : UInt8} {before : Bytes} (h : separator ∉ before)
    (after : Bytes) :
    splitAtFirst separator (before ++ separator :: after) = (before, some after) := by
  have hall : ∀ b ∈ before, decide (b ≠ separator) = true := by
    intro b hb
    apply decide_eq_true
    rintro rfl
    exact h hb
  rw [splitAtFirst, List.span_eq_takeWhile_dropWhile, List.takeWhile_append_of_pos hall,
    List.dropWhile_append_of_pos hall]
  simp

/-- A path of two words has them for segments. -/
lemma pathSegments_two {first second : Bytes} (hf : Plain first) (hs : Plain second) :
    pathSegments (Ascii.slash :: (first ++ Ascii.slash :: second)) = [first, second] := by
  change (first ++ Ascii.slash :: second).splitOn Ascii.slash = _
  rw [List.splitOn_append_cons_self_of_not_mem (hf.not_mem (by decide)),
    List.splitOn_eq_singleton (hs.not_mem (by decide))]

/-- A target that begins with a slash is a path already. -/
lemma withoutAuthority_slash (rest : Bytes) :
    withoutAuthority (Ascii.slash :: rest) = Ascii.slash :: rest := by
  have hslash : isSchemeByte Ascii.slash = false := by decide
  rw [withoutAuthority, List.dropWhile_cons_of_neg (by simp [hslash])]
  rfl

/-! ## Decoding -/

/-- Bytes without a percent sign stand for themselves. -/
lemma percentDecodeOnto_of_not_mem {bs : Bytes} (h : Ascii.percent ∉ bs) (done : Bytes) :
    percentDecodeOnto done bs = done.reverse ++ bs := by
  induction bs generalizing done with
  | nil => simp [percentDecodeOnto]
  | cons b bs ih =>
    have hb : b ≠ Ascii.percent := fun heq => h (heq ▸ List.mem_cons_self)
    rw [percentDecodeOnto, ih fun hb => h (List.mem_cons_of_mem b hb)]
    · simp
    · exact fun _ _ _ heq => absurd heq hb

/-- A word has no escapes. -/
lemma Plain.percentDecode {word : Bytes} (hw : Plain word) : percentDecode word = word :=
  percentDecodeOnto_of_not_mem (hw.not_mem (by decide)) []

/-- A text that is a word is read as it is written. -/
lemma formDecode_encode {s : String} (hw : Plain (Utf8.encode s)) :
    formDecode (Utf8.encode s) = s := by
  have hplus : (Utf8.encode s).map (fun b => if b = Ascii.plus then Ascii.blank else b) =
      Utf8.encode s := by
    rw [List.map_congr_left (g := id), List.map_id]
    intro b hb
    apply if_neg
    rintro rfl
    exact hw.not_mem (by decide) hb
  rw [formDecode, hplus, hw.percentDecode, Utf8.decodeLossy_encode]

/-- The text of a hash stands for itself in a path. -/
lemma segmentText_hex (h : Hash) : segmentText (Utf8.encode h.hex) = .ok h.hex := by
  rw [segmentText, (plain_hex h).percentDecode, Utf8.decode_eq_ok_iff.2 rfl]

/-- A word is written by the digits of a number. -/
lemma utf8_encode_toString (n : UInt32) : Utf8.encode (toString n) = Decimal.encode n.toNat := by
  change Utf8.encode (toString n.toNat) = _
  rw [Nat.toString_eq_ofList_toDigits, Utf8.encode_ofList]
  · rfl
  · intro c hc
    have := Decimal.toNat_of_mem_toDigits hc
    omega

/-- The query that asks for a limit has the limit as its one field. -/
lemma queryFields_limit (limit : UInt32) :
    queryFields (Utf8.encode "limit" ++ Ascii.equals :: Decimal.encode limit.toNat) =
      [("limit", toString limit)] := by
  have hname : Plain (Utf8.encode "limit") := by decide +kernel
  have hvalue := plain_decimal limit.toNat
  have hamp : Ascii.ampersand ∉
      Utf8.encode "limit" ++ Ascii.equals :: Decimal.encode limit.toNat :=
    List.not_mem_append (hname.not_mem (by decide))
      (List.not_mem_cons_of_ne_of_not_mem (by decide) (hvalue.not_mem (by decide)))
  have hequals : Ascii.equals ∉ Utf8.encode "limit" := hname.not_mem (by decide)
  have hdecode : formDecode (Decimal.encode limit.toNat) = toString limit := by
    rw [← utf8_encode_toString] at hvalue ⊢
    exact formDecode_encode hvalue
  rw [queryFields, splitAtEach, List.splitOn_eq_singleton hamp]
  simp [splitAtFirst_append hequals, formDecode_encode hname, hdecode]

/-- The limit of a query is read as it was written. -/
lemma limitOf_encode (limit : UInt32) :
    limitOf (Utf8.encode "limit" ++ Ascii.equals :: Decimal.encode limit.toNat) =
      .ok (some limit.toNat) := by
  rw [limitOf, queryFields_limit]
  simp [limitAmong, utf8_encode_toString, Decimal.word_encode limit.toNat_lt]

/-! ## The targets of a peer -/

namespace HttpPeer

/-- The parts of a target that asks for headers. -/
lemma headersPath_eq (hash : Hash) (limit : UInt32) :
    headersPath hash limit = Ascii.slash :: (Utf8.encode "headers" ++ Ascii.slash ::
      (Utf8.encode hash.hex ++ Ascii.question ::
        (Utf8.encode "limit" ++ Ascii.equals :: Decimal.encode limit.toNat))) := by
  have hfront : Utf8.encode "/headers/" =
      Ascii.slash :: (Utf8.encode "headers" ++ [Ascii.slash]) := by decide +kernel
  have hback : Utf8.encode "?limit=" =
      Ascii.question :: (Utf8.encode "limit" ++ [Ascii.equals]) := by decide +kernel
  have htexts : headersPath hash limit = Utf8.encode "/headers/" ++ Utf8.encode hash.hex ++
      Utf8.encode "?limit=" ++ Utf8.encode (toString limit) := by
    simp only [← Utf8.encode_append]
    rfl
  rw [htexts, hfront, hback, utf8_encode_toString]
  simp

/-- The parts of a target that asks for a block. -/
lemma blockPath_eq (hash : Hash) :
    blockPath hash =
      Ascii.slash :: (Utf8.encode "blocks" ++ Ascii.slash :: Utf8.encode hash.hex) := by
  have hfront : Utf8.encode "/blocks/" =
      Ascii.slash :: (Utf8.encode "blocks" ++ [Ascii.slash]) := by decide +kernel
  have htexts : blockPath hash = Utf8.encode "/blocks/" ++ Utf8.encode hash.hex := by
    rw [← Utf8.encode_append]
    rfl
  rw [htexts, hfront]
  simp

/-- A target that asks for headers is split into its path and its query. -/
lemma splitTarget_headersPath (hash : Hash) (limit : UInt32) :
    splitTarget (headersPath hash limit) =
      (Ascii.slash :: (Utf8.encode "headers" ++ Ascii.slash :: Utf8.encode hash.hex),
        Utf8.encode "limit" ++ Ascii.equals :: Decimal.encode limit.toNat) := by
  have hword : Plain (Utf8.encode "headers") := by decide +kernel
  have hname : Plain (Utf8.encode "limit") := by decide +kernel
  have hhex := plain_hex hash
  have hvalue := plain_decimal limit.toNat
  have hhash : Ascii.hash ∉ headersPath hash limit := by
    rw [headersPath_eq]
    simp only [List.mem_cons, List.mem_append, not_or]
    exact ⟨by decide, hword.not_mem (by decide), by decide, hhex.not_mem (by decide), by decide,
      hname.not_mem (by decide), by decide, hvalue.not_mem (by decide)⟩
  have hquestion : Ascii.question ∉
      Ascii.slash :: (Utf8.encode "headers" ++ Ascii.slash :: Utf8.encode hash.hex) := by
    simp only [List.mem_cons, List.mem_append, not_or]
    exact ⟨by decide, hword.not_mem (by decide), by decide, hhex.not_mem (by decide)⟩
  have hsplit := splitAtFirst_append hquestion
    (Utf8.encode "limit" ++ Ascii.equals :: Decimal.encode limit.toNat)
  rw [splitTarget, splitAtFirst_of_not_mem hhash]
  dsimp only
  rw [headersPath_eq, withoutAuthority_slash]
  simp only [List.cons_append, List.append_assoc] at hsplit ⊢
  rw [hsplit]
  rfl

/-- A target that asks for a block has no query. -/
lemma splitTarget_blockPath (hash : Hash) :
    splitTarget (blockPath hash) =
      (Ascii.slash :: (Utf8.encode "blocks" ++ Ascii.slash :: Utf8.encode hash.hex), []) := by
  have hword : Plain (Utf8.encode "blocks") := by decide +kernel
  have hhex := plain_hex hash
  have hmem : ∀ {b : UInt8}, b ≠ Ascii.slash → ¬ IsPlain b → b ∉ blockPath hash := by
    intro b hb hplain
    rw [blockPath_eq]
    simp only [List.mem_cons, List.mem_append, not_or]
    exact ⟨hb, hword.not_mem hplain, hb, hhex.not_mem hplain⟩
  rw [splitTarget, splitAtFirst_of_not_mem (hmem (by decide) (by decide))]
  dsimp only
  rw [blockPath_eq, withoutAuthority_slash, ← blockPath_eq,
    splitAtFirst_of_not_mem (hmem (by decide) (by decide))]
  rfl

end HttpPeer
end ChainSync.Http
