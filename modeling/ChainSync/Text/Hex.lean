import ChainSync.Bytes

/-!
# Hexadecimal text

`encode` writes two lowercase digits a byte. `decode` reads digits of either case and names the
first byte that is no digit.
-/

namespace ChainSync.Hex

def digit (n : Nat) : Char :=
  if n < 10 then Char.ofNat (48 + n) else Char.ofNat (87 + n)

/-- Two digits a byte. -/
def digits (bs : Bytes) : List Char :=
  bs.flatMap fun b => [digit (b.toNat / 16), digit (b.toNat % 16)]

def encode (bs : Bytes) : String := String.ofList (digits bs)

def value? (b : UInt8) : Option Nat :=
  if 48 ≤ b.toNat ∧ b.toNat ≤ 57 then some (b.toNat - 48)
  else if 97 ≤ b.toNat ∧ b.toNat ≤ 102 then some (b.toNat - 87)
  else if 65 ≤ b.toNat ∧ b.toNat ≤ 70 then some (b.toNat - 55)
  else none

/-- A byte where a digit was due. -/
structure BadDigit where
  byte : UInt8
  index : Nat
deriving DecidableEq

/-- Reads digits in pairs from the byte with number `index` on; a last digit without a partner is
refused. -/
def decodeFrom (index : Nat) : Bytes → Except BadDigit Bytes
  | [] => .ok []
  | [a] => .error ⟨a, index⟩
  | a :: b :: rest =>
    match value? a, value? b with
    | none, _ => .error ⟨a, index⟩
    | some _, none => .error ⟨b, index + 1⟩
    | some high, some low =>
      (decodeFrom (index + 2) rest).map (UInt8.ofNat (high * 16 + low) :: ·)

def decode (text : Bytes) : Except BadDigit Bytes := decodeFrom 0 text

/-- There are two digits for every byte that is read. -/
theorem length_of_decodeFrom {i : Nat} {text bs : Bytes} (h : decodeFrom i text = .ok bs) :
    text.length = 2 * bs.length := by
  fun_induction decodeFrom i text generalizing bs with
  | case1 => cases h; rfl
  | case2 => cases h
  | case3 => cases h
  | case4 => cases h
  | case5 i a b rest high low _ _ ih =>
    cases hr : decodeFrom (i + 2) rest with
    | error e => rw [hr] at h; cases h
    | ok out =>
      rw [hr] at h
      cases h
      have := ih hr
      simp only [List.length_cons]
      omega

end ChainSync.Hex
