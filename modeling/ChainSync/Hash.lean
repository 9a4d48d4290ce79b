import ChainSync.Bytes

/-!
# Hashes

A hash is 32 bytes. It names a header, and through the header a block.
-/

namespace ChainSync

/-- A 32-byte content hash. -/
structure Hash where
  /-- The bytes, in the order in which they are written. -/
  bytes : Bytes
  length_bytes : bytes.length = 32
deriving DecidableEq

namespace Hash

/-- The hash whose bytes are all zero, which stands for "no block". -/
def zero : Hash where
  bytes := List.replicate 32 0
  length_bytes := by simp

instance : Inhabited Hash := ⟨zero⟩

/-- The hash with these bytes, if there are 32 of them. -/
def ofBytes? (bs : Bytes) : Option Hash :=
  if h : bs.length = 32 then some ⟨bs, h⟩ else none

/-- The bytes of a hash are those of that hash. -/
@[simp]
theorem ofBytes?_bytes (h : Hash) : ofBytes? h.bytes = some h := by
  simp [ofBytes?, h.length_bytes]

/-- Two hashes with the same bytes are the same hash. -/
theorem ext {a b : Hash} (h : a.bytes = b.bytes) : a = b := by
  cases a; cases b; cases h; rfl

end Hash
end ChainSync
