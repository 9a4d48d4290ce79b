import Mathlib
import ChainSync.Hash.Text
import ChainSync.Proofs.Utf8

/-!
# Hexadecimal text reads back what it writes

The digits of a byte have the values that make it up again, so decoding the digits of bytes gives the
bytes (`decodeFrom_digits`), and the text of a hash is read as that hash (`Hash.parse_hex`).
-/

namespace ChainSync

namespace Hex

/-- A digit is an ASCII character. -/
lemma toNat_digit_lt {n : Nat} (hn : n < 16) : (digit n).toNat < 103 := by
  decide +revert

/-- A digit has the value that it was written for. -/
@[simp]
lemma value?_digit {n : Nat} (hn : n < 16) : value? (UInt8.ofNat (digit n).toNat) = some n := by
  decide +revert

/-- Bytes are written by digits alone. -/
lemma mem_digits {bs : Bytes} {c : Char} : c ∈ digits bs → ∃ n, n < 16 ∧ c = digit n := by
  intro hc
  obtain ⟨b, -, hc⟩ := List.mem_flatMap.1 hc
  have hb := b.toNat_lt
  simp only [List.mem_cons, List.not_mem_nil, or_false] at hc
  cases hc with
  | inl h => exact ⟨_, by omega, h⟩
  | inr h => exact ⟨_, by omega, h⟩

/-- A byte takes two digits. -/
lemma length_digits (bs : Bytes) : (digits bs).length = 2 * bs.length := by
  rw [digits, List.length_flatMap]
  simp [Nat.mul_comm]

/-- The bytes of the text that writes bytes. -/
lemma utf8_encode (bs : Bytes) :
    Utf8.encode (encode bs) = (digits bs).map fun c => UInt8.ofNat c.toNat := by
  apply Utf8.encode_ofList
  intro c hc
  obtain ⟨n, hn, rfl⟩ := mem_digits hc
  have := toNat_digit_lt hn
  omega

/-- Bytes are read back from their digits. -/
theorem decodeFrom_digits (i : Nat) (bs : Bytes) :
    decodeFrom i ((digits bs).map fun c => UInt8.ofNat c.toNat) = .ok bs := by
  induction bs generalizing i with
  | nil => rfl
  | cons b bs ih =>
    have hb := b.toNat_lt
    have hback : UInt8.ofNat (b.toNat / 16 * 16 + b.toNat % 16) = b := by
      apply Utf8.ofNat_eq
      omega
    have hhigh : value? (UInt8.ofNat (digit (b.toNat / 16)).toNat) = some (b.toNat / 16) :=
      value?_digit (by omega)
    have hlow : value? (UInt8.ofNat (digit (b.toNat % 16)).toNat) = some (b.toNat % 16) :=
      value?_digit (by omega)
    have hsplit : ((digits (b :: bs)).map fun c => UInt8.ofNat c.toNat) =
        UInt8.ofNat (digit (b.toNat / 16)).toNat :: UInt8.ofNat (digit (b.toNat % 16)).toNat ::
          (digits bs).map fun c => UInt8.ofNat c.toNat := rfl
    rw [hsplit, decodeFrom, hhigh, hlow]
    simp only [ih, hback, Except.map]

end Hex

namespace Hash

/-- Digits have no mark before them: an `x` is no digit. -/
lemma stripMark_digits (bs : Bytes) :
    stripMark ((Hex.digits bs).map fun c => UInt8.ofNat c.toNat) =
      (Hex.digits bs).map fun c => UInt8.ofNat c.toNat := by
  unfold stripMark
  split
  · rename_i rest h
    have hx : Ascii.letterX ∈ (Hex.digits bs).map fun c => UInt8.ofNat c.toNat := by simp [h]
    obtain ⟨c, hc, hx⟩ := List.mem_map.1 hx
    obtain ⟨n, hn, rfl⟩ := Hex.mem_digits hc
    have hv := Hex.value?_digit hn
    rw [hx] at hv
    cases hv
  · rfl

/-- The text of a hash is read as that hash. -/
theorem parse_hex (h : Hash) : parse h.hex = .ok h := by
  have htext : stripMark (Utf8.encode h.hex) =
      (Hex.digits h.bytes).map fun c => UInt8.ofNat c.toNat := by
    rw [hex, Hex.utf8_encode, stripMark_digits]
  have hlen : (stripMark (Utf8.encode h.hex)).length = 64 := by
    rw [htext, List.length_map, Hex.length_digits, h.length_bytes]
  have hdec : Hex.decode (stripMark (Utf8.encode h.hex)) = .ok h.bytes := by
    rw [htext]
    exact Hex.decodeFrom_digits 0 h.bytes
  unfold parse
  simp only [dif_pos hlen]
  split
  · rename_i hbad
    rw [hbad] at hdec
    cases hdec
  · rename_i bs hbs
    rw [hbs] at hdec
    cases hdec
    rfl

end Hash
end ChainSync
