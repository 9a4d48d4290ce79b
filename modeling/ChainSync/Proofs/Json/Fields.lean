import Mathlib
import ChainSync.Json.Fields
import ChainSync.Proofs.Json.Reading

/-!
# Typed readings read back what was written

Each way to write a number, a text, a list, bytes, a hash or a record as a JSON value has a reading
that gives the thing written. A record is read field by field: fields of different names are found
each under its own name (`fields?_record`).
-/

namespace ChainSync.Json

/-- A list is read as a whole when every item of it is read. -/
lemma mapM_eq_some {α β : Type} {f : α → Option β} {g : α → β} {as : List α}
    (h : ∀ a ∈ as, f a = some (g a)) : as.mapM f = some (as.map g) := by
  induction as with
  | nil => rfl
  | cons a as ih =>
    rw [List.mapM_cons, h a List.mem_cons_self, ih fun b hb => h b (List.mem_cons_of_mem a hb)]
    rfl

/-- A number is read as a field that is large enough for it. -/
lemma natBelow?_nat {bound n : Nat} (h : n < bound) : (nat n).natBelow? bound = some n := by
  simp [natBelow?, nat, Decimal.decode?_encode, h]

/-- A byte is read back from its number. -/
@[simp]
lemma byte?_nat (b : UInt8) : (nat b.toNat).byte? = some b := by
  simp [byte?, natBelow?_nat b.toNat_lt]

/-- A word is read back from its number. -/
@[simp]
lemma word64?_nat (w : UInt64) : (nat w.toNat).word64? = some w := by
  simp [word64?, natBelow?_nat w.toNat_lt]

/-- A string is read back from its field. -/
@[simp]
lemma text?_text (s : String) : (text s).text? = some s :=
  unescape?_escape s

/-- Items that are read back make up a list that is read back. -/
lemma list?_map {α : Type} {write : α → Json} {read : Json → Option α} (as : List α)
    (h : ∀ a ∈ as, read (write a) = some a) : (array (as.map write)).list? read = some as := by
  rw [list?, List.mapM_map, mapM_eq_some (f := read ∘ write) (g := id) h, List.map_id]

/-- Bytes are read back from the list of their numbers. -/
@[simp]
lemma bytes?_ofBytes (bs : Bytes) : (ofBytes bs).bytes? = some bs :=
  list?_map bs fun b _ => byte?_nat b

/-- A hash is read back from the list of its bytes. -/
@[simp]
lemma hash?_ofHash (h : Hash) : (ofHash h).hash? = some h := by
  simp [hash?, ofHash, Hash.ofBytes?, h.length_bytes]

/-- The members of a name that occurs once are the one member. -/
lemma filter_eq_singleton {ms : List (String × Json)} (hnodup : (ms.map (·.1)).Nodup)
    {m : String × Json} (hm : m ∈ ms) : ms.filter (fun m' => decide (m'.1 = m.1)) = [m] := by
  induction ms with
  | nil => cases hm
  | cons m' ms ih =>
    rw [List.map_cons, List.nodup_cons] at hnodup
    cases hm with
    | head =>
      have hrest : ms.filter (fun m' => decide (m'.1 = m.1)) = [] := by
        rw [List.filter_eq_nil_iff]
        intro m' hm' heq
        exact hnodup.1 (of_decide_eq_true heq ▸ List.mem_map_of_mem hm')
      rw [List.filter_cons_of_pos (by simp), hrest]
    | tail _ hm =>
      have hne : m'.1 ≠ m.1 := fun heq => hnodup.1 (heq ▸ List.mem_map_of_mem hm)
      rw [List.filter_cons_of_neg (by simp [hne]), ih hnodup.2 hm]

/-- A record of different names has under each of them the value that was written there. -/
theorem fields?_record {ms : List (String × Json)} (hnodup : (ms.map (·.1)).Nodup) :
    (record ms).fields? (ms.map (·.1)) = some (ms.map fun m => some m.2) := by
  have hmembers : (ms.map fun m => (escape m.1, m.2)).mapM
      (fun m => (unescape? m.1).map fun name => (name, m.2)) = some ms := by
    rw [List.mapM_map, mapM_eq_some (g := id) (by simp), List.map_id]
  change ((ms.map fun m => (escape m.1, m.2)).mapM
    (fun m => (unescape? m.1).map fun name => (name, m.2))).bind _ = _
  rw [hmembers, Option.bind_some, List.mapM_map]
  apply mapM_eq_some
  intro m hm
  rw [Function.comp_apply, filter_eq_singleton hnodup hm]
  rfl

/-! ## What is written is well formed -/

/-- A list is well-formed where its items are. -/
lemma wellFormed_list {α : Type} {write : α → Json} (h : ∀ a, WellFormed (write a)) (as : List α) :
    WellFormed (.array (as.map write)) := by
  apply WellFormed.array
  intro v hv
  obtain ⟨a, -, rfl⟩ := List.mem_map.1 hv
  exact h a

/-- Bytes are written as a well-formed value. -/
lemma wellFormed_ofBytes (bs : Bytes) : WellFormed (ofBytes bs) := by
  rw [ofBytes]
  apply wellFormed_list
  exact fun b => .nat b.toNat

/-- A hash is written as a well-formed value. -/
lemma wellFormed_ofHash (h : Hash) : WellFormed (ofHash h) :=
  wellFormed_ofBytes h.bytes

/-- A record is well-formed where its fields are. -/
lemma wellFormed_record {ms : List (String × Json)} (h : ∀ m ∈ ms, WellFormed m.2) :
    WellFormed (record ms) := by
  apply WellFormed.object
  · intro m hm
    obtain ⟨m, -, rfl⟩ := List.mem_map.1 hm
    exact ⟨m.1, rfl⟩
  · intro m hm
    obtain ⟨m', hm', rfl⟩ := List.mem_map.1 hm
    exact h m' hm'

end ChainSync.Json
