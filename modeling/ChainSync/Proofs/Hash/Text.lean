import ChainSync.Proofs.Hex

/-!
# Which texts are hashes

A text is read as a hash exactly when it spells the digits of that hash in letters of either case, with or
without one mark `0x` before them. Any other text is refused: for the number of its bytes if they are
not 64, and else for the first of them that is no digit (`Hash.parse_exact`).
-/

namespace ChainSync

namespace Utf8

/-! ## Texts that begin with an ASCII byte, or hold nothing else -/

/-- A text whose first byte is ASCII begins with that character. -/
lemma exists_cons_of_ascii {cs : List Char} {b : UInt8} {rest : Bytes}
    (h : cs.flatMap String.utf8EncodeChar = b :: rest) (hb : b.toNat < 128) :
    ∃ cs', cs = Char.ofNat b.toNat :: cs' ∧ cs'.flatMap String.utf8EncodeChar = rest := by
  have hchar : head (b :: rest) = .char (Char.ofNat b.toNat) rest := (Spelling.one hb).head rest
  rw [← h, head_flatMap] at hchar
  cases cs with
  | nil => cases hchar
  | cons c cs =>
    cases hchar
    exact ⟨cs, rfl, rfl⟩

/-- Two texts have different bytes. -/
lemma encode_injective : Function.Injective encode := by
  intro s t h
  have hs : decode (encode t) = .ok s := decode_eq_ok_iff.2 h.symm
  have ht : decode (encode t) = .ok t := decode_eq_ok_iff.2 rfl
  exact Except.ok.inj (hs.symm.trans ht)

/-- A text of ASCII bytes has a character a byte. -/
lemma toList_of_ascii {s : String} (h : ∀ b ∈ encode s, b.toNat < 128) :
    s.toList = (encode s).map fun b => Char.ofNat b.toNat := by
  have hcode : ∀ b ∈ encode s, (Char.ofNat b.toNat).toNat = b.toNat := fun b hb =>
    toNat_ofNat (.inl (by have := h b hb; omega))
  have hsame : encode (String.ofList ((encode s).map fun b => Char.ofNat b.toNat)) = encode s := by
    rw [encode_ofList]
    · rw [List.map_map]
      conv_rhs => rw [← List.map_id (encode s)]
      apply List.map_congr_left
      intro b hb
      exact ofNat_eq (hcode b hb)
    · intro c hc
      obtain ⟨b, hb, rfl⟩ := List.mem_map.1 hc
      rw [hcode b hb]
      exact h b hb
  conv_lhs => rw [← encode_injective hsame]
  exact String.toList_ofList

end Utf8

namespace Hex

variable {i n : Nat} {b : UInt8} {bs text : Bytes} {bad : BadDigit}

/-- The bytes that are digits, of either case. -/
def IsDigit (b : UInt8) : Prop := b ∈ Utf8.encode "0123456789abcdefABCDEF"

instance : DecidablePred IsDigit := fun b =>
  inferInstanceAs (Decidable (b ∈ Utf8.encode "0123456789abcdefABCDEF"))

/-- The lowercase form of an ASCII character. -/
def lowered (b : UInt8) : Char := (Char.ofNat b.toNat).toLower

/-! ## Digits and their values -/

/-- Lowering moves capitals only. -/
lemma toNat_toLower (c : Char) :
    c.toLower.toNat = if 65 ≤ c.toNat ∧ c.toNat ≤ 90 then c.toNat + 32 else c.toNat := by
  unfold Char.toLower
  split_ifs with hupper hrange hrange
  · obtain ⟨-, hhigh⟩ := hrange
    change (c.val + 32).toNat = c.toNat + 32
    rw [UInt32.toNat_add]
    change (c.toNat + 32) % 2 ^ 32 = c.toNat + 32
    omega
  · exact absurd hupper (by simpa [UInt32.le_iff_toNat_le] using hrange)
  · exact absurd hrange (by simpa [UInt32.le_iff_toNat_le] using hupper)
  · rfl

/-- Lowering a byte moves capitals only. -/
lemma toNat_lowered (b : UInt8) :
    (lowered b).toNat = if 65 ≤ b.toNat ∧ b.toNat ≤ 90 then b.toNat + 32 else b.toNat := by
  have hb := b.toNat_lt
  rw [lowered, toNat_toLower, Utf8.toNat_ofNat (.inl (by omega))]

/-- The digits are `0` to `9` and then `a` to `f`. -/
lemma toNat_digit (hn : n < 16) : (digit n).toNat = if n < 10 then 48 + n else 87 + n := by
  decide +revert

/-- A byte has the value whose lowercase digit it is, up to the case. -/
lemma value?_eq_some_iff : value? b = some n ↔ n < 16 ∧ lowered b = digit n := by
  constructor
  · intro h
    have hn : n < 16 := by
      unfold value? at h
      split_ifs at h <;> cases h <;> omega
    refine ⟨hn, ?_⟩
    rw [← Char.toNat_inj, toNat_lowered, toNat_digit hn]
    unfold value? at h
    split_ifs at h <;> cases h <;> split_ifs <;> omega
  · rintro ⟨hn, h⟩
    rw [← Char.toNat_inj, toNat_lowered, toNat_digit hn] at h
    unfold value?
    grind

/-- The digits are the bytes that have a value. -/
lemma isDigit_iff : IsDigit b ↔ ∃ n, value? b = some n := by
  have hall : Utf8.encode "0123456789abcdefABCDEF" =
      [48, 49, 50, 51, 52, 53, 54, 55, 56, 57, 97, 98, 99, 100, 101, 102, 65, 66, 67, 68, 69, 70] := by
    decide
  simp only [IsDigit, hall, value?, ← Option.isSome_iff_exists, List.mem_cons, ← UInt8.toNat_inj]
  split_ifs <;> simp <;> omega

/-- A byte with a value is a digit. -/
lemma isDigit_of_value? (h : value? b = some n) : IsDigit b := isDigit_iff.2 ⟨n, h⟩

/-- A byte without a value is no digit. -/
lemma not_isDigit_of_value? (h : value? b = none) : ¬ IsDigit b := by
  intro hdigit
  obtain ⟨n, hn⟩ := isDigit_iff.1 hdigit
  cases h.symm.trans hn

/-- Digits are ASCII. -/
lemma IsDigit.toNat_lt (h : IsDigit b) : b.toNat < 128 := by
  obtain ⟨n, hn⟩ := isDigit_iff.1 h
  unfold value? at hn
  split_ifs at hn <;> omega

/-- A byte whose lowercase form is among printed digits is a digit. -/
lemma isDigit_of_lowered_mem (h : lowered b ∈ digits bs) : IsDigit b := by
  obtain ⟨n, hn, hdigit⟩ := mem_digits h
  exact isDigit_of_value? (value?_eq_some_iff.2 ⟨hn, hdigit⟩)

/-- A byte is written by the digits of its two halves. -/
lemma digits_cons_halves {high low : Nat} (hhigh : high < 16) (hlow : low < 16) (bs : Bytes) :
    digits (UInt8.ofNat (high * 16 + low) :: bs) = digit high :: digit low :: digits bs := by
  have hbyte : (UInt8.ofNat (high * 16 + low)).toNat = high * 16 + low :=
    Utf8.toNat_ofNat_byte (by omega)
  have hdiv : (high * 16 + low) / 16 = high := by omega
  have hmod : (high * 16 + low) % 16 = low := by omega
  simp only [digits, List.flatMap_cons, hbyte, hdiv, hmod, List.cons_append, List.nil_append]

/-- Different bytes are printed as different digits. -/
lemma digits_injective : Function.Injective digits := by
  intro bs cs h
  have hbs := decodeFrom_digits 0 bs
  rw [h, decodeFrom_digits 0 cs] at hbs
  exact (Except.ok.inj hbs).symm

/-! ## What a row of digits reads as -/

/-- Bytes are read exactly from the digits that write them, in letters of either case. -/
lemma decodeFrom_eq_ok_iff : decodeFrom i text = .ok bs ↔ text.map lowered = digits bs := by
  fun_induction decodeFrom i text generalizing bs with
  | case1 => cases bs <;> simp [digits]
  | case2 i a => cases bs <;> simp [digits]
  | case3 i a b rest ha =>
    constructor
    · intro h
      cases h
    · intro h
      have hmem : lowered a ∈ digits bs := by simp [← h]
      exact absurd (isDigit_of_lowered_mem hmem) (not_isDigit_of_value? ha)
  | case4 i a b rest high hb ha =>
    constructor
    · intro h
      cases h
    · intro h
      have hmem : lowered b ∈ digits bs := by simp [← h]
      exact absurd (isDigit_of_lowered_mem hmem) (not_isDigit_of_value? hb)
  | case5 i a b rest high low hb ha ih =>
    obtain ⟨hhigh, hda⟩ := value?_eq_some_iff.1 ha
    obtain ⟨hlow, hdb⟩ := value?_eq_some_iff.1 hb
    constructor
    · intro h
      cases hr : decodeFrom (i + 2) rest with
      | error bad => rw [hr] at h; cases h
      | ok out =>
        rw [hr] at h
        cases h
        rw [digits_cons_halves hhigh hlow, ← ih.1 hr, List.map_cons, List.map_cons, hda, hdb]
    · intro h
      cases bs with
      | nil => cases h
      | cons c bs =>
        have hrest : rest.map lowered = digits bs := (List.cons.inj (List.cons.inj h).2).2
        have hsame : digits (UInt8.ofNat (high * 16 + low) :: bs) = digits (c :: bs) := by
          rw [digits_cons_halves hhigh hlow, ← h, List.map_cons, List.map_cons, hda, hdb, hrest]
        rw [ih.2 hrest, ← digits_injective hsame]
        rfl

/-- An even number of bytes is refused exactly for the first one that is no digit. -/
lemma decodeFrom_eq_error_iff (heven : Even text.length) :
    decodeFrom i text = .error bad ↔
      (text.zipIdx i).find? (fun (b, _) => ¬ IsDigit b) = some (bad.byte, bad.index) := by
  obtain ⟨byte, index⟩ := bad
  fun_induction decodeFrom i text with
  | case1 => simp
  | case2 i a => simp at heven
  | case3 i a b rest ha => simp [List.zipIdx_cons, not_isDigit_of_value? ha]
  | case4 i a b rest high hb ha =>
    simp [List.zipIdx_cons, isDigit_of_value? ha, not_isDigit_of_value? hb]
  | case5 i a b rest high low hb ha ih =>
    have hrest : Even rest.length := by
      simpa [Nat.even_add_one] using heven
    have hskip : ((a :: b :: rest).zipIdx i).find? (fun (b, _) => ¬ IsDigit b) =
        (rest.zipIdx (i + 2)).find? (fun (b, _) => ¬ IsDigit b) := by
      simp [List.zipIdx_cons, isDigit_of_value? ha, isDigit_of_value? hb]
    rw [hskip, ← ih hrest]
    cases decodeFrom (i + 2) rest <;> simp [Except.map]

end Hex

namespace Hash

variable {s t : String} {h : Hash} {bad : Hex.BadDigit}

/-- A text without the mark `0x` that may precede it. -/
def unmarked (s : String) : String :=
  match s.toList with
  | '0' :: 'x' :: rest => String.ofList rest
  | _ => s

/-- One mark is taken off, and nothing behind it. -/
@[simp]
lemma unmarked_mark (s : String) : unmarked ("0x" ++ s) = s := by
  simp [unmarked]

/-- The mark comes off the bytes of a text as it comes off its characters. -/
lemma stripMark_encode (s : String) : stripMark (Utf8.encode s) = Utf8.encode (unmarked s) := by
  unfold unmarked
  split
  · rename_i rest hmark
    have hsplit : Utf8.encode s = 0x30 :: 0x78 :: Utf8.encode (String.ofList rest) := by
      simp only [Utf8.encode, hmark, String.toList_ofList]
      rfl
    rw [hsplit]
    rfl
  · rename_i hplain
    unfold stripMark
    split
    · -- bytes of a mark are those of its two characters
      rename_i rest hbytes
      obtain ⟨cs, hzero, hrest⟩ := Utf8.exists_cons_of_ascii hbytes (by decide)
      obtain ⟨cs', rfl, -⟩ := Utf8.exists_cons_of_ascii hrest (by decide)
      exact absurd hzero (hplain cs')
    · rfl

/-- A text of digits is the text of a hash, up to the case, if its digits are those of the hash. -/
lemma toLower_eq_hex_iff (hdigits : ∀ b ∈ Utf8.encode t, Hex.IsDigit b) :
    t.toLower = h.hex ↔ (Utf8.encode t).map Hex.lowered = Hex.digits h.bytes := by
  have htext : t.toLower.toList = (Utf8.encode t).map Hex.lowered := by
    rw [String.toLower, String.toList_map, Utf8.toList_of_ascii fun b hb => (hdigits b hb).toNat_lt,
      List.map_map]
    rfl
  rw [← String.toList_inj, htext, hex, Hex.encode, String.toList_ofList]

/-! ## Reading -/

/-- A text of another length is refused by its length. -/
lemma parse_of_length_ne (hlen : (Utf8.encode (unmarked s)).length ≠ 64) :
    parse s = .error (.length (Utf8.encode (unmarked s)).length) := by
  rw [parse, dif_neg (by rwa [stripMark_encode]), stripMark_encode]

/-- A text of 64 bytes is a hash or not as its digits are read. -/
lemma parse_of_length (hlen : (Utf8.encode (unmarked s)).length = 64) :
    (∀ h, parse s = .ok h ↔ Hex.decode (Utf8.encode (unmarked s)) = .ok h.bytes) ∧
    (∀ n, parse s ≠ .error (.length n)) ∧
    ∀ bad, parse s = .error (.digit bad) ↔ Hex.decode (Utf8.encode (unmarked s)) = .error bad := by
  rw [← stripMark_encode] at hlen ⊢
  unfold parse
  simp only [dif_pos hlen]
  split
  · rename_i bad hbad
    simp [hbad]
  · rename_i bs hbs
    refine ⟨fun h => ?_, by simp, by simp [hbs]⟩
    constructor
    · rintro ⟨⟩
      exact hbs
    · intro hdecode
      cases hbs.symm.trans hdecode
      rfl

/-- Exactly the texts of 64 digits are read, as the hash that is printed with those digits. -/
lemma parse_eq_ok_iff :
    parse s = .ok h ↔ (Utf8.encode (unmarked s)).length = 64 ∧
      (∀ b ∈ Utf8.encode (unmarked s), Hex.IsDigit b) ∧ (unmarked s).toLower = h.hex := by
  by_cases hlen : (Utf8.encode (unmarked s)).length = 64
  · obtain ⟨hok, -, -⟩ := parse_of_length hlen
    rw [hok, Hex.decode, Hex.decodeFrom_eq_ok_iff]
    constructor
    · intro hsame
      have hdigits : ∀ b ∈ Utf8.encode (unmarked s), Hex.IsDigit b := fun b hb =>
        Hex.isDigit_of_lowered_mem (hsame ▸ List.mem_map_of_mem hb)
      exact ⟨hlen, hdigits, (toLower_eq_hex_iff hdigits).2 hsame⟩
    · rintro ⟨-, hdigits, hlower⟩
      exact (toLower_eq_hex_iff hdigits).1 hlower
  · simp [parse_of_length_ne hlen, hlen]

/-- A wrong length is told exactly where it is wrong. -/
lemma parse_eq_length_iff {n : Nat} :
    parse s = .error (.length n) ↔ n = (Utf8.encode (unmarked s)).length ∧ n ≠ 64 := by
  by_cases hlen : (Utf8.encode (unmarked s)).length = 64
  · obtain ⟨-, hlength, -⟩ := parse_of_length hlen
    constructor
    · intro hparse
      exact absurd hparse (hlength n)
    · rintro ⟨rfl, hne⟩
      exact absurd hlen hne
  · simp only [parse_of_length_ne hlen, Except.error.injEq, ParseError.length.injEq]
    constructor
    · rintro rfl
      exact ⟨rfl, hlen⟩
    · rintro ⟨rfl, -⟩
      rfl

/-- The byte that is told is the first one that is no digit. -/
lemma parse_eq_digit_iff :
    parse s = .error (.digit bad) ↔ (Utf8.encode (unmarked s)).length = 64 ∧
      (Utf8.encode (unmarked s)).zipIdx.find? (fun (b, _) => ¬ Hex.IsDigit b) =
        some (bad.byte, bad.index) := by
  by_cases hlen : (Utf8.encode (unmarked s)).length = 64
  · obtain ⟨-, -, hbad⟩ := parse_of_length hlen
    have heven : Even (Utf8.encode (unmarked s)).length := by
      rw [hlen]
      decide
    rw [hbad, Hex.decode, Hex.decodeFrom_eq_error_iff heven]
    exact (and_iff_right hlen).symm
  · simp [parse_of_length_ne hlen, hlen]

/-- The text of a hash has no mark. -/
lemma unmarked_hex (h : Hash) : unmarked h.hex = h.hex := by
  apply Utf8.encode_injective
  rw [← stripMark_encode, hex, Hex.utf8_encode, stripMark_digits]

/-- The text of a hash is read as that hash behind a mark, too. -/
lemma parse_mark_hex (h : Hash) : parse ("0x" ++ h.hex) = .ok h := by
  have hparse := parse_eq_ok_iff.1 (parse_hex h)
  rw [unmarked_hex] at hparse
  rw [parse_eq_ok_iff, unmarked_mark]
  exact hparse

/-- A text without its mark is a hash exactly if it has 64 bytes, all of them digits, and is in lowercase the
text of that hash. It is refused for the number of its bytes if this is not 64, and else for the first
of its bytes that is no digit. -/
theorem parse_exact :
    (∀ s : String, let t := unmarked s
      (∀ h, parse s = .ok h ↔
        (Utf8.encode t).length = 64 ∧ (∀ b ∈ Utf8.encode t, Hex.IsDigit b) ∧ t.toLower = h.hex) ∧
      (∀ n, parse s = .error (.length n) ↔ n = (Utf8.encode t).length ∧ n ≠ 64) ∧
      ∀ bad, parse s = .error (.digit bad) ↔
        (Utf8.encode t).length = 64 ∧
          (Utf8.encode t).zipIdx.find? (fun (b, _) => ¬ Hex.IsDigit b) =
            some (bad.byte, bad.index)) ∧
    ∀ h : Hash, parse h.hex = .ok h ∧ parse ("0x" ++ h.hex) = .ok h := by
  constructor
  · intro s t
    exact ⟨fun h => parse_eq_ok_iff, fun n => parse_eq_length_iff, fun bad => parse_eq_digit_iff⟩
  · intro h
    exact ⟨parse_hex h, parse_mark_hex h⟩

end Hash
end ChainSync
