import Mathlib
import ChainSync.Json.Parser
import ChainSync.Proofs.Hex

/-!
# Strings in JSON read back what was escaped

`Escapes c s` says that the bytes `s` stand for the character `c` between quotes, one rule for each
way to write a character. What is written for a character stands for it (`Escapes.escapeChar`), and
both readers of strings, the one that finds the closing quote and the one that resolves the escapes,
pass over such bytes as a whole. So an escaped text ends at the quote behind it
(`scanString_escape`) and is read as the text (`unescape?_escape`).
-/

namespace ChainSync.Json
open Ascii

/-- The bytes that may stand for a character between quotes. -/
inductive Escapes : Char → Bytes → Prop where
  | short {c : Char} {letter b : UInt8} :
    unescapeShort? letter = some b → letter ≠ letterU → String.utf8EncodeChar c = [b] →
    Escapes c [backslash, letter]
  | code {c : Char} {x y z w : UInt8} :
    hex4? x y z w = some c.toNat →
    Escapes c [backslash, letterU, x, y, z, w]
  | plain {c : Char} :
    (∀ b ∈ String.utf8EncodeChar c, b ≠ quote ∧ b ≠ backslash ∧ blank ≤ b) →
    Escapes c (String.utf8EncodeChar c)

/-- A byte of a character above the control characters, other than the quote and the backslash, is
none of them either. -/
lemma plain_of_mem_encodeChar {c : Char} {b : UInt8} (hb : b ∈ String.utf8EncodeChar c)
    (hlow : ¬ c.toNat < 0x20) (hquote : c ≠ '"') (hback : c ≠ '\\') :
    b ≠ quote ∧ b ≠ backslash ∧ blank ≤ b := by
  have hc : c.toNat < 0x110000 := by
    have hv : Utf8.IsCodePoint c.toNat := c.valid
    unfold Utf8.IsCodePoint at hv
    omega
  have hquote : c.toNat ≠ 0x22 := fun h => hquote (Char.toNat_inj.1 h)
  have hback : c.toNat ≠ 0x5C := fun h => hback (Char.toNat_inj.1 h)
  rw [Utf8.encodeChar_eq] at hb
  rw [Ne, Ne, ← UInt8.toNat_inj, ← UInt8.toNat_inj, UInt8.le_iff_toNat_le]
  change b.toNat ≠ 0x22 ∧ b.toNat ≠ 0x5C ∧ 0x20 ≤ b.toNat
  generalize c.toNat = n at *
  split_ifs at hb with h1 h2 h3
  all_goals
    simp only [List.mem_cons, List.not_mem_nil, or_false] at hb
    rcases hb with rfl | rfl | rfl | rfl
  all_goals
    rw [UInt8.toNat_ofNat']
    omega

/-- The short escapes stand for the characters that have one. -/
lemma Escapes.of_shortEscape {c : Char} {letter : UInt8} (h : shortEscape? c = some letter) :
    Escapes c [backslash, letter] := by
  unfold shortEscape? at h
  split_ifs at h
  all_goals
    subst c
    cases h
    exact .short rfl (by decide) (by decide)

/-- A control character is read back from its code. -/
lemma hex4?_control {n : Nat} (hn : n < 0x20) :
    hex4? zero zero (UInt8.ofNat (Hex.digit (n / 16)).toNat)
      (UInt8.ofNat (Hex.digit (n % 16)).toNat) = some n := by
  have hv : Hex.value? zero = some 0 := rfl
  simp only [hex4?, hv, Hex.value?_digit (n := n / 16) (by omega),
    Hex.value?_digit (n := n % 16) (by omega), Option.bind_eq_bind, Option.bind_some,
    Option.pure_def, Option.some.injEq]
  omega

/-- What is written for a character stands for it. -/
lemma Escapes.escapeChar (c : Char) : Escapes c (escapeChar c) := by
  unfold Json.escapeChar
  cases hs : shortEscape? c with
  | some letter => exact of_shortEscape hs
  | none =>
    by_cases hlow : c.toNat < 0x20
    · have hb : (UInt8.ofNat c.toNat).toNat = c.toNat := Utf8.toNat_ofNat_byte (by omega)
      have hcode := hex4?_control hlow
      rw [← hb] at hcode
      simp only [if_pos hlow]
      apply Escapes.code
      rw [hcode, hb]
    · simp only [if_neg hlow]
      apply Escapes.plain
      intro b hb
      apply plain_of_mem_encodeChar hb hlow
      · rintro rfl
        cases hs
      · rintro rfl
        cases hs

/-- Bytes that need no escape are passed over. -/
lemma scanString_plain {bs : Bytes} (h : ∀ b ∈ bs, b ≠ quote ∧ b ≠ backslash ∧ blank ≤ b)
    (done rest : Bytes) : scanString done (bs ++ rest) = scanString (bs.reverse ++ done) rest := by
  induction bs generalizing done with
  | nil => rfl
  | cons b bs ih =>
    obtain ⟨hquote, hback, hlow⟩ := h b List.mem_cons_self
    have hlow : ¬ b < blank := UInt8.not_lt.2 hlow
    rw [List.cons_append, scanString, if_neg (by simp [hback, hlow])]
    · rw [ih (fun c hc => h c (List.mem_cons_of_mem b hc)), List.reverse_cons, List.append_assoc]
      rfl
    · exact fun hq => hquote hq
    · exact fun _ _ _ _ _ hb => absurd hb hback
    · exact fun _ _ hb => absurd hb hback

/-- Bytes that need no escape stand for themselves. -/
lemma resolve_plain {bs : Bytes} (h : ∀ b ∈ bs, b ≠ quote ∧ b ≠ backslash ∧ blank ≤ b)
    (done rest : Bytes) : resolve done (bs ++ rest) = resolve (bs.reverse ++ done) rest := by
  induction bs generalizing done with
  | nil => rfl
  | cons b bs ih =>
    have hback := (h b List.mem_cons_self).2.1
    rw [List.cons_append, resolve, if_neg hback]
    · rw [ih (fun c hc => h c (List.mem_cons_of_mem b hc)), List.reverse_cons, List.append_assoc]
      rfl
    · exact fun _ _ _ _ _ hb => absurd hb hback
    · exact fun _ _ hb => absurd hb hback

/-- A code point is no half of a surrogate pair. -/
lemma not_surrogate (c : Char) : isTrailing c.toNat = false ∧ isLeading c.toNat = false := by
  have hc : Utf8.IsCodePoint c.toNat := c.valid
  unfold Utf8.IsCodePoint at hc
  simp only [isTrailing, isLeading, Bool.and_eq_false_iff, decide_eq_false_iff_not]
  omega

namespace Escapes

/-- The end of a string is not looked for inside a character. -/
lemma scanString {c : Char} {s : Bytes} (es : Escapes c s) (done rest : Bytes) :
    scanString done (s ++ rest) = scanString (s.reverse ++ done) rest := by
  cases es with
  | @short letter b hb hu _ =>
    apply (scanString.eq_3 done letter rest fun _ _ _ _ _ h _ => hu h).trans
    rw [hb]
    rfl
  | @code x y z w hn =>
    apply (scanString.eq_2 done x y z w rest).trans
    rw [hn]
    rfl
  | plain h => exact scanString_plain h done rest

/-- What stands for a character is resolved to its bytes. -/
lemma resolve {c : Char} {s : Bytes} (es : Escapes c s) (done rest : Bytes) :
    resolve done (s ++ rest) = resolve ((String.utf8EncodeChar c).reverse ++ done) rest := by
  cases es with
  | @short letter b hb hu hc =>
    apply (resolve.eq_3 done letter rest fun _ _ _ _ _ h _ => hu h).trans
    rw [hb, hc]
    rfl
  | @code x y z w hn =>
    obtain ⟨ht, hl⟩ := not_surrogate c
    apply (resolve.eq_2 done x y z w rest).trans
    simp [hn, ht, hl]
  | plain h => exact resolve_plain h done rest

end Escapes

/-- An escaped text ends at the quote behind it. -/
lemma scanString_flatMap (cs : List Char) (done rest : Bytes) :
    scanString done (cs.flatMap escapeChar ++ quote :: rest) =
      some (done.reverse ++ cs.flatMap escapeChar, rest) := by
  induction cs generalizing done with
  | nil =>
    rw [List.flatMap_nil, List.append_nil]
    rfl
  | cons c cs ih =>
    rw [List.flatMap_cons, List.append_assoc, (Escapes.escapeChar c).scanString, ih]
    simp

/-- An escaped string ends at the quote behind it. -/
theorem scanString_escape (s : String) (rest : Bytes) :
    scanString [] (escape s ++ quote :: rest) = some (escape s, rest) :=
  scanString_flatMap s.toList [] rest

/-- Escaped characters are resolved to their bytes. -/
lemma resolve_flatMap (cs : List Char) (done : Bytes) :
    resolve done (cs.flatMap escapeChar) =
      some (done.reverse ++ cs.flatMap String.utf8EncodeChar) := by
  induction cs generalizing done with
  | nil => simp [resolve]
  | cons c cs ih =>
    rw [List.flatMap_cons, (Escapes.escapeChar c).resolve, ih]
    simp

/-- An escaped text is read as the text. -/
@[simp]
theorem unescape?_escape (s : String) : unescape? (escape s) = some s := by
  have hbytes : resolve [] (escape s) = some (Utf8.encode s) := resolve_flatMap s.toList []
  rw [unescape?, hbytes, Option.bind_some, Utf8.decode_eq_ok_iff.2 rfl]
  rfl

end ChainSync.Json
