import Mathlib
import ChainSync.Text.Utf8

/-!
# UTF-8 reads back what it writes

`Spelling c s` says that the bytes `s` are a spelling of the character `c`, one rule for each number
of bytes. Reading the head of a byte string finds a character exactly where the string begins with a
spelling (`Spelling.head`, `Spelling.of_head`), and a character has one spelling, the one that is
written (`Spelling.encodeChar`, `Spelling.eq_encodeChar`). So a byte string decodes to a text exactly
when it is the encoding of that text (`decode_eq_ok_iff`).
-/

namespace ChainSync.Utf8

/-- The code points of characters: no surrogates, and nothing above the last one. -/
def IsCodePoint (n : Nat) : Prop := n < 0xD800 ∨ 0xDFFF < n ∧ n < 0x110000

/-- A byte that continues a character. -/
def IsTail (b : UInt8) : Prop := 0x80 ≤ b.toNat ∧ b.toNat ≤ 0xBF

/-- The spellings of characters. -/
inductive Spelling : Char → Bytes → Prop where
  | one {a : UInt8} :
    a.toNat < 0x80 →
    Spelling (Char.ofNat a.toNat) [a]
  | two {a b : UInt8} :
    0xC2 ≤ a.toNat ∧ a.toNat < 0xE0 → IsTail b →
    Spelling (Char.ofNat (a.toNat % 32 * 64 + b.toNat % 64)) [a, b]
  | three {a b c : UInt8} :
    0xE0 ≤ a.toNat ∧ a.toNat < 0xF0 → IsTail b → IsTail c →
    (a.toNat = 0xE0 → 0xA0 ≤ b.toNat) → (a.toNat = 0xED → b.toNat ≤ 0x9F) →
    Spelling (Char.ofNat ((a.toNat % 16 * 64 + b.toNat % 64) * 64 + c.toNat % 64)) [a, b, c]
  | four {a b c d : UInt8} :
    0xF0 ≤ a.toNat ∧ a.toNat < 0xF5 → IsTail b → IsTail c → IsTail d →
    (a.toNat = 0xF0 → 0x90 ≤ b.toNat) → (a.toNat = 0xF4 → b.toNat ≤ 0x8F) →
    Spelling
      (Char.ofNat (((a.toNat % 8 * 64 + b.toNat % 64) * 64 + c.toNat % 64) * 64 + d.toNat % 64))
      [a, b, c, d]

/-- A code point is that of its character. -/
lemma toNat_ofNat {n : Nat} (hn : IsCodePoint n) : (Char.ofNat n).toNat = n := by
  have hv : n.isValidChar := hn
  simp [Char.ofNat, hv, Char.ofNatAux, Char.toNat]

/-- A character is written by the digits of its code point in base 64. -/
lemma encodeChar_eq (c : Char) :
    String.utf8EncodeChar c =
      if c.toNat ≤ 127 then [UInt8.ofNat c.toNat]
      else if c.toNat ≤ 2047 then
        [UInt8.ofNat (c.toNat / 64 % 32 + 192), UInt8.ofNat (c.toNat % 64 + 128)]
      else if c.toNat ≤ 65535 then
        [UInt8.ofNat (c.toNat / 4096 % 16 + 224), UInt8.ofNat (c.toNat / 64 % 64 + 128),
          UInt8.ofNat (c.toNat % 64 + 128)]
      else
        [UInt8.ofNat (c.toNat / 262144 % 8 + 240), UInt8.ofNat (c.toNat / 4096 % 64 + 128),
          UInt8.ofNat (c.toNat / 64 % 64 + 128), UInt8.ofNat (c.toNat % 64 + 128)] :=
  rfl

/-- A byte is given by its number. -/
lemma ofNat_eq {b : UInt8} {n : Nat} (h : n = b.toNat) : UInt8.ofNat n = b := by
  rw [h, UInt8.ofNat_toNat]

/-- A number below 256 is that of its byte. -/
lemma toNat_ofNat_byte {n : Nat} (h : n < 256) : (UInt8.ofNat n).toNat = n := by
  rw [UInt8.toNat_ofNat']
  omega

/-- What the reader tests for a byte that continues a character. -/
lemma isContinuation_iff {b : UInt8} : isContinuation b = true ↔ IsTail b := by
  simp [isContinuation, IsTail, UInt8.le_iff_toNat_le]

/-- The second of three bytes is a tail that makes the spelling neither too long nor a surrogate. -/
lemma isSecondOfThree_iff {a b : UInt8} :
    isSecondOfThree a b = true ↔
      IsTail b ∧ (a.toNat = 0xE0 → 0xA0 ≤ b.toNat) ∧ (a.toNat = 0xED → b.toNat ≤ 0x9F) := by
  simp only [isSecondOfThree, IsTail, ← UInt8.toNat_inj, Bool.and_eq_true, decide_eq_true_eq,
    UInt8.le_iff_toNat_le, UInt8.reduceToNat]
  split_ifs <;> simp only [UInt8.reduceToNat] <;> omega

/-- The second of four bytes is a tail that makes the spelling neither too long nor too high. -/
lemma isSecondOfFour_iff {a b : UInt8} :
    isSecondOfFour a b = true ↔
      IsTail b ∧ (a.toNat = 0xF0 → 0x90 ≤ b.toNat) ∧ (a.toNat = 0xF4 → b.toNat ≤ 0x8F) := by
  simp only [isSecondOfFour, IsTail, ← UInt8.toNat_inj, Bool.and_eq_true, decide_eq_true_eq,
    UInt8.le_iff_toNat_le, UInt8.reduceToNat]
  split_ifs <;> simp only [UInt8.reduceToNat] <;> omega

namespace Spelling

/-- A spelling at the head of a byte string is read as its character. -/
lemma head {c : Char} {s : Bytes} (sp : Spelling c s) (rest : Bytes) :
    head (s ++ rest) = .char c rest := by
  cases sp with
  | one ha => simp [Utf8.head, UInt8.lt_iff_toNat_lt, ha]
  | @two a b ha hb =>
    have h1 : ¬ a.toNat < 0x80 := by omega
    have h2 : ¬ a.toNat < 0xC2 := by omega
    simp [Utf8.head, payload, UInt8.lt_iff_toNat_lt, isContinuation_iff, ha, hb, h1, h2]
  | @three a b c ha hb hc hlow hhigh =>
    have h1 : ¬ a.toNat < 0x80 := by omega
    have h2 : ¬ a.toNat < 0xC2 := by omega
    have h3 : ¬ a.toNat < 0xE0 := by omega
    have hsecond := isSecondOfThree_iff.2 ⟨hb, hlow, hhigh⟩
    simp [Utf8.head, payload, UInt8.lt_iff_toNat_lt, isContinuation_iff, ha, hc, hsecond,
      h1, h2, h3]
  | @four a b c d ha hb hc hd hlow hhigh =>
    have h1 : ¬ a.toNat < 0x80 := by omega
    have h2 : ¬ a.toNat < 0xC2 := by omega
    have h3 : ¬ a.toNat < 0xE0 := by omega
    have h4 : ¬ a.toNat < 0xF0 := by omega
    have hsecond := isSecondOfFour_iff.2 ⟨hb, hlow, hhigh⟩
    simp [Utf8.head, payload, UInt8.lt_iff_toNat_lt, isContinuation_iff, ha, hc, hd, hsecond,
      h1, h2, h3, h4]

/-- Where a character is read, a spelling of it stands. -/
lemma of_head {bs : Bytes} {c : Char} {rest : Bytes} (h : Utf8.head bs = .char c rest) :
    ∃ s, Spelling c s ∧ bs = s ++ rest := by
  unfold Utf8.head at h
  -- the branches that read a character are left, one for each number of bytes
  repeat' split at h
  all_goals cases h
  all_goals simp only [UInt8.lt_iff_toNat_lt, UInt8.reduceToNat, Nat.not_lt, isContinuation_iff,
    isSecondOfThree_iff, isSecondOfFour_iff] at *
  · exact ⟨_, .one ‹_›, rfl⟩
  · exact ⟨_, .two ⟨‹_›, ‹_›⟩ ‹_›, rfl⟩
  · rename_i hb hc
    obtain ⟨hb, hlow, hhigh⟩ := hb
    exact ⟨_, .three ⟨‹_›, ‹_›⟩ hb hc hlow hhigh, rfl⟩
  · rename_i hb hc hd
    obtain ⟨hb, hlow, hhigh⟩ := hb
    exact ⟨_, .four ⟨‹_›, ‹_›⟩ hb hc hd hlow hhigh, rfl⟩

/-- A character is written as one of the spellings. -/
lemma encodeChar (c : Char) : Spelling c (String.utf8EncodeChar c) := by
  have hc : IsCodePoint c.toNat := c.valid
  have hback : Char.ofNat c.toNat = c := Char.ofNat_toNat c
  rw [encodeChar_eq c]
  -- only the code point matters from here on
  generalize c.toNat = n at hc hback
  unfold IsCodePoint at hc
  subst hback
  split_ifs with h1 h2 h3
  · have ha := toNat_ofNat_byte (n := n) (by omega)
    have sp := Spelling.one (a := UInt8.ofNat n) (by omega)
    rwa [ha] at sp
  · have ha := toNat_ofNat_byte (n := n / 64 % 32 + 192) (by omega)
    have hb := toNat_ofNat_byte (n := n % 64 + 128) (by omega)
    have sp := Spelling.two (a := UInt8.ofNat (n / 64 % 32 + 192)) (b := UInt8.ofNat (n % 64 + 128))
      (by omega) (by unfold IsTail; omega)
    rw [ha, hb] at sp
    have hn : (n / 64 % 32 + 192) % 32 * 64 + (n % 64 + 128) % 64 = n := by omega
    rwa [hn] at sp
  · have ha := toNat_ofNat_byte (n := n / 4096 % 16 + 224) (by omega)
    have hb := toNat_ofNat_byte (n := n / 64 % 64 + 128) (by omega)
    have hc := toNat_ofNat_byte (n := n % 64 + 128) (by omega)
    have sp := Spelling.three (a := UInt8.ofNat (n / 4096 % 16 + 224))
      (b := UInt8.ofNat (n / 64 % 64 + 128)) (c := UInt8.ofNat (n % 64 + 128))
      (by omega) (by unfold IsTail; omega) (by unfold IsTail; omega) (by omega) (by omega)
    rw [ha, hb, hc] at sp
    have hn : ((n / 4096 % 16 + 224) % 16 * 64 + (n / 64 % 64 + 128) % 64) * 64
        + (n % 64 + 128) % 64 = n := by omega
    rwa [hn] at sp
  · have ha := toNat_ofNat_byte (n := n / 262144 % 8 + 240) (by omega)
    have hb := toNat_ofNat_byte (n := n / 4096 % 64 + 128) (by omega)
    have hc := toNat_ofNat_byte (n := n / 64 % 64 + 128) (by omega)
    have hd := toNat_ofNat_byte (n := n % 64 + 128) (by omega)
    have sp := Spelling.four (a := UInt8.ofNat (n / 262144 % 8 + 240))
      (b := UInt8.ofNat (n / 4096 % 64 + 128)) (c := UInt8.ofNat (n / 64 % 64 + 128))
      (d := UInt8.ofNat (n % 64 + 128)) (by omega) (by unfold IsTail; omega)
      (by unfold IsTail; omega) (by unfold IsTail; omega) (by omega) (by omega)
    rw [ha, hb, hc, hd] at sp
    have hn : (((n / 262144 % 8 + 240) % 8 * 64 + (n / 4096 % 64 + 128) % 64) * 64
        + (n / 64 % 64 + 128) % 64) * 64 + (n % 64 + 128) % 64 = n := by omega
    rwa [hn] at sp

/-- A spelling is what is written for its character. -/
lemma eq_encodeChar {c : Char} {s : Bytes} (sp : Spelling c s) : s = String.utf8EncodeChar c := by
  cases sp with
  | @one a ha =>
    rw [encodeChar_eq, toNat_ofNat (by left; omega), if_pos (by omega), UInt8.ofNat_toNat]
  | @two a b ha hb =>
    obtain ⟨hb1, hb2⟩ := hb
    rw [encodeChar_eq, toNat_ofNat (by left; omega), if_neg (by omega), if_pos (by omega),
      ofNat_eq (b := a) (by omega), ofNat_eq (b := b) (by omega)]
  | @three a b c ha hb hc hlow hhigh =>
    obtain ⟨hb1, hb2⟩ := hb
    obtain ⟨hc1, hc2⟩ := hc
    rw [encodeChar_eq, toNat_ofNat (by unfold IsCodePoint; omega), if_neg (by omega),
      if_neg (by omega), if_pos (by omega), ofNat_eq (b := a) (by omega),
      ofNat_eq (b := b) (by omega), ofNat_eq (b := c) (by omega)]
  | @four a b c d ha hb hc hd hlow hhigh =>
    obtain ⟨hb1, hb2⟩ := hb
    obtain ⟨hc1, hc2⟩ := hc
    obtain ⟨hd1, hd2⟩ := hd
    rw [encodeChar_eq, toNat_ofNat (by unfold IsCodePoint; omega), if_neg (by omega),
      if_neg (by omega), if_neg (by omega), ofNat_eq (b := a) (by omega),
      ofNat_eq (b := b) (by omega), ofNat_eq (b := c) (by omega), ofNat_eq (b := d) (by omega)]

end Spelling

/-- A character is read exactly where its encoding stands. -/
theorem head_eq_char_iff {bs : Bytes} {c : Char} {rest : Bytes} :
    head bs = .char c rest ↔ bs = String.utf8EncodeChar c ++ rest := by
  constructor
  · intro h
    obtain ⟨s, sp, rfl⟩ := Spelling.of_head h
    rw [sp.eq_encodeChar]
  · rintro rfl
    exact (Spelling.encodeChar c).head rest

/-- Nothing is read only where nothing stands. -/
lemma head_eq_done_iff {bs : Bytes} : head bs = .done ↔ bs = [] := by
  constructor
  · intro h
    unfold head at h
    repeat' split at h
    all_goals first | rfl | cases h
  · rintro rfl
    rfl

/-- The first character of a written text is found at its front. -/
lemma head_flatMap (cs : List Char) :
    head (cs.flatMap String.utf8EncodeChar) =
      match cs with
      | [] => .done
      | c :: cs => .char c (cs.flatMap String.utf8EncodeChar) := by
  cases cs with
  | nil => rfl
  | cons c cs => exact head_eq_char_iff.2 List.flatMap_cons

/-- Reading goes on from the characters before, and ends well exactly on an encoding. -/
lemma decodeFrom_eq_ok_iff {fuel : Nat} {bs : Bytes} (hf : bs.length ≤ fuel) (index : Nat)
    (read : List Char) (s : String) :
    decodeFrom fuel index read bs = .ok s ↔
      ∃ cs, s = String.ofList (read.reverse ++ cs) ∧ bs = cs.flatMap String.utf8EncodeChar := by
  induction fuel generalizing bs index read with
  | zero =>
    obtain rfl : bs = [] := List.length_eq_zero_iff.1 (by omega)
    constructor
    · intro h
      cases h
      exact ⟨[], by simp, rfl⟩
    · rintro ⟨cs, rfl, hcs⟩
      have hh := head_flatMap cs
      rw [← hcs] at hh
      cases cs with
      | nil => simp [decodeFrom]
      | cons c cs => cases hh
  | succ fuel ih =>
    rw [decodeFrom]
    cases hh : head bs with
    | done =>
      obtain rfl := head_eq_done_iff.1 hh
      constructor
      · intro h
        cases h
        exact ⟨[], by simp, rfl⟩
      · rintro ⟨cs, rfl, hcs⟩
        rw [hcs, head_flatMap] at hh
        cases cs with
        | nil => simp
        | cons c cs => cases hh
    | char c rest =>
      obtain rfl := head_eq_char_iff.1 hh
      have hc := c.utf8Size_pos
      simp only [List.length_append, String.length_utf8EncodeChar] at hf
      have ih := @ih rest (by omega) (index + c.utf8Size) (c :: read)
      simp only [ih, List.reverse_cons, List.append_assoc, List.singleton_append]
      constructor
      · rintro ⟨cs, rfl, rfl⟩
        exact ⟨c :: cs, rfl, rfl⟩
      · rintro ⟨cs, rfl, hcs⟩
        rw [hcs, head_flatMap] at hh
        cases cs with
        | nil => cases hh
        | cons c' cs =>
          cases hh
          exact ⟨cs, rfl, rfl⟩
    | invalid length rest =>
      constructor
      · nofun
      · rintro ⟨cs, rfl, rfl⟩
        rw [head_flatMap] at hh
        cases cs <;> cases hh
    | incomplete =>
      constructor
      · nofun
      · rintro ⟨cs, rfl, rfl⟩
        rw [head_flatMap] at hh
        cases cs <;> cases hh

/-- Bytes decode to a text exactly when they are its encoding. -/
theorem decode_eq_ok_iff {bs : Bytes} {s : String} : decode bs = .ok s ↔ bs = encode s := by
  rw [decode, decodeFrom_eq_ok_iff (Nat.le_refl _)]
  constructor
  · rintro ⟨cs, rfl, rfl⟩
    simp [encode]
  · rintro rfl
    exact ⟨s.toList, by simp, rfl⟩

/-- Reading goes through the characters of a written text and loses none. -/
lemma decodeLossyFrom_flatMap {cs : List Char} {fuel : Nat}
    (hf : (cs.flatMap String.utf8EncodeChar).length ≤ fuel) (read : List Char) :
    decodeLossyFrom fuel read (cs.flatMap String.utf8EncodeChar) =
      String.ofList (read.reverse ++ cs) := by
  induction cs generalizing fuel read with
  | nil => cases fuel <;> simp [decodeLossyFrom, head]
  | cons c cs ih =>
    have hc := c.utf8Size_pos
    simp only [List.flatMap_cons, List.length_append, String.length_utf8EncodeChar] at hf
    cases fuel with
    | zero => omega
    | succ fuel =>
      rw [decodeLossyFrom, head_flatMap]
      simp [@ih fuel (by omega)]

/-- Reading with replacements changes nothing about a text. -/
theorem decodeLossy_encode (s : String) : decodeLossy (encode s) = s := by
  rw [decodeLossy, encode, decodeLossyFrom_flatMap (Nat.le_refl _)]
  simp

/-- The bytes of two texts in a row are those of each. -/
lemma encode_append (s t : String) : encode (s ++ t) = encode s ++ encode t := by
  simp [encode]

/-- An ASCII character is one byte. -/
lemma encodeChar_of_lt {c : Char} (h : c.toNat < 128) :
    String.utf8EncodeChar c = [UInt8.ofNat c.toNat] := by
  rw [encodeChar_eq, if_pos (by omega)]

/-- A text of ASCII characters takes a byte a character. -/
lemma encode_ofList {cs : List Char} (h : ∀ c ∈ cs, c.toNat < 128) :
    encode (String.ofList cs) = cs.map fun c => UInt8.ofNat c.toNat := by
  rw [encode, String.toList_ofList]
  induction cs with
  | nil => rfl
  | cons c cs ih =>
    rw [List.flatMap_cons, encodeChar_of_lt (h c List.mem_cons_self),
      ih fun d hd => h d (List.mem_cons_of_mem c hd)]
    rfl

end ChainSync.Utf8
