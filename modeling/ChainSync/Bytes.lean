/-!
# Byte strings and machine words

A byte string is a list of bytes. `le k n` writes the number `n` in `k` bytes, least significant
first, and `ofLE` reads such a string back; `be` and `ofBE` do the same with the most significant
byte first. A 64-bit word takes eight bytes.
-/

namespace ChainSync

abbrev Bytes := List UInt8

namespace Bytes

/-- The last `k` digits of `n` in base 256, least significant first. -/
def le : Nat → Nat → Bytes
  | 0, _ => []
  | k + 1, n => UInt8.ofNat n :: le k (n / 256)

/-- The last `k` digits of `n` in base 256, most significant first. -/
def be (k n : Nat) : Bytes := (le k n).reverse

/-- The number whose digits in base 256 these are, least significant first. -/
def ofLE : Bytes → Nat
  | [] => 0
  | b :: bs => b.toNat + 256 * ofLE bs

/-- The number whose digits in base 256 these are, most significant first. -/
def ofBE (bs : Bytes) : Nat := ofLE bs.reverse

/-- The eight bytes of a word, least significant first. -/
def le64 (x : UInt64) : Bytes := le 8 x.toNat

/-- The eight bytes of a word, most significant first. -/
def be64 (x : UInt64) : Bytes := be 8 x.toNat

/-- A number is written in as many bytes as it is given. -/
@[simp]
theorem length_le (k n : Nat) : (le k n).length = k := by
  induction k generalizing n with
  | zero => rfl
  | succ k ih => simp [le, ih]

/-- The order of the bytes does not change their number. -/
@[simp]
theorem length_be (k n : Nat) : (be k n).length = k := by simp [be]

/-- A word takes eight bytes. -/
@[simp]
theorem length_le64 (x : UInt64) : (le64 x).length = 8 := by simp [le64]

/-- A word takes eight bytes in the other order, too. -/
@[simp]
theorem length_be64 (x : UInt64) : (be64 x).length = 8 := by simp [be64]

/-- A string of digits is what `le` writes for the number that it reads as. -/
theorem le_ofLE (bs : Bytes) : le bs.length (ofLE bs) = bs := by
  induction bs with
  | nil => rfl
  | cons b bs ih =>
    have hb := b.toNat_lt
    have hdiv : (b.toNat + 256 * ofLE bs) / 256 = ofLE bs := by omega
    have hmod : UInt8.ofNat (b.toNat + 256 * ofLE bs) = b := by
      apply UInt8.toNat_inj.1
      rw [UInt8.toNat_ofNat']
      omega
    simp only [List.length_cons, ofLE, le, hdiv, hmod, ih]

/-- A word is read back from its bytes, least significant first. -/
@[simp]
theorem ofLE_le64 (x : UInt64) : ofLE (le64 x) = x.toNat := by
  have h := x.toNat_lt
  simp only [le64, le, ofLE, UInt8.toNat_ofNat']
  omega

/-- A word is read back from its bytes, most significant first. -/
@[simp]
theorem ofBE_be64 (x : UInt64) : ofBE (be64 x) = x.toNat := by
  rw [be64, be, ofBE, List.reverse_reverse]
  exact ofLE_le64 x

end Bytes
end ChainSync
