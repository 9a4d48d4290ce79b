import Mathlib
import ChainSync.Text.Decimal

/-!
# Decimal numbers read back what they write

The digits of a number are digits (`isDigit_of_mem_encode`) and begin with a zero only where they
are a lone zero (`eq_nil_of_encode_eq_zero`). Both readers give the number back
(`decode?_encode`, `word_encode`).
-/

namespace ChainSync.Decimal
open Ascii

/-- The digits are the bytes from zero to nine. -/
lemma isDigit_iff {b : UInt8} : isDigit b = true ↔ 48 ≤ b.toNat ∧ b.toNat ≤ 57 := by
  simp [isDigit, UInt8.le_iff_toNat_le]

/-- The characters that write a number are digits. -/
lemma toNat_of_mem_toDigits {n : Nat} {c : Char} (hc : c ∈ Nat.toDigits 10 n) :
    48 ≤ c.toNat ∧ c.toNat ≤ 57 :=
  Char.isDigit_iff_toNat.1 (Nat.isDigit_of_mem_toDigits (by omega) (by omega) hc)

/-- No number is written without a digit. -/
lemma encode_ne_nil (n : Nat) : encode n ≠ [] := by
  simp [encode, Nat.toDigits_ne_nil]

/-- A number is written by digits alone. -/
lemma isDigit_of_mem_encode {n : Nat} {b : UInt8} (hb : b ∈ encode n) : isDigit b = true := by
  obtain ⟨c, hc, rfl⟩ := List.mem_map.1 hb
  have := toNat_of_mem_toDigits hc
  rw [isDigit_iff, UInt8.toNat_ofNat']
  omega

/-- The digits of a number have its value. -/
lemma value_encode (n : Nat) : value (encode n) = n := by
  have hstep : ∀ m, ∀ c ∈ Nat.toDigits 10 n,
      m * 10 + digitValue (UInt8.ofNat c.toNat) = 10 * m + (c.toNat - '0'.toNat) := by
    intro m c hc
    have := toNat_of_mem_toDigits hc
    rw [digitValue, UInt8.toNat_ofNat', Nat.mod_eq_of_lt (by omega), Nat.mul_comm]
    rfl
  rw [value, encode, List.foldl_map, List.foldl_ext _ _ 0 hstep, ← Nat.ofDigitChars_eq_foldl]
  exact Nat.ofDigitChars_ten_toDigits

/-- Digits that begin with a zero are no others. -/
lemma eq_nil_of_encode_eq_zero {n : Nat} {ds : Bytes} (h : encode n = zero :: ds) : ds = [] := by
  induction n using Nat.strong_induction_on generalizing ds with
  | h n ih =>
    by_cases hn : n < 10
    · rw [encode, Nat.toDigits_of_lt_base hn] at h
      simpa using (List.cons.inj h).2.symm
    · rw [encode, Nat.toDigits_of_base_le (by omega) (by omega), List.map_append] at h
      change encode (n / 10) ++ _ = _ at h
      cases hf : encode (n / 10) with
      | nil => exact absurd hf (encode_ne_nil _)
      | cons b front =>
        rw [hf] at h
        obtain rfl := (List.cons.inj h).1
        -- then the front digits are a lone zero, so there is no front
        obtain rfl := ih (n / 10) (by omega) hf
        have hv := value_encode (n / 10)
        rw [hf] at hv
        change 0 = n / 10 at hv
        omega

/-- A number is read back from its digits. -/
theorem decode?_encode (n : Nat) : decode? (encode n) = some n := by
  have hd : (encode n).all isDigit = true := List.all_eq_true.2 fun _ => isDigit_of_mem_encode
  rw [decode?, if_pos ⟨encode_ne_nil n, hd⟩, value_encode]

/-- Digits that are read after a number do not make it smaller. -/
lemma le_foldl (n : Nat) (ds : Bytes) :
    n ≤ ds.foldl (fun n b => n * 10 + digitValue b) n := by
  induction ds generalizing n with
  | nil => exact Nat.le_refl n
  | cons b ds ih =>
    have := ih (n * 10 + digitValue b)
    rw [List.foldl_cons]
    omega

/-- Digits extend a number as long as the whole stays below the bound. -/
lemma extend_eq_ok {bound n : Nat} {ds : Bytes} (hd : ∀ b ∈ ds, isDigit b = true)
    (hlt : ds.foldl (fun n b => n * 10 + digitValue b) n < bound) :
    extend bound n ds = .ok (ds.foldl (fun n b => n * 10 + digitValue b) n) := by
  induction ds generalizing n with
  | nil => rfl
  | cons b ds ih =>
    rw [List.foldl_cons] at hlt
    have := le_foldl (n * 10 + digitValue b) ds
    rw [extend, if_pos (hd b List.mem_cons_self), if_pos (by omega)]
    exact ih (fun c hc => hd c (List.mem_cons_of_mem b hc)) hlt

/-- A number below a bound is read back as a word of that size. -/
theorem word_encode {bound n : Nat} (h : n < bound) : word bound (encode n) = .ok n := by
  have hv := value_encode n
  rw [value] at hv
  have hext := extend_eq_ok (n := 0) (fun b => isDigit_of_mem_encode (n := n)) (hv.symm ▸ h)
  rw [hv] at hext
  unfold word
  split
  · exact absurd ‹_› (encode_ne_nil n)
  · -- a plus sign is no digit
    rename_i rest hplus
    have hd := isDigit_of_mem_encode (n := n) (b := plus) (by rw [hplus]; exact List.mem_cons_self)
    cases hd
  · exact hext

end ChainSync.Decimal
