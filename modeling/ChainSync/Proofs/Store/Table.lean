import ChainSync.Block.Stored
import ChainSync.Hash.Text
import ChainSync.Proofs.StoredForm
import ChainSync.Store.Table

/-!
# What a table shows of its history

A table is written through its own calls and, behind its back, through its rows. Under a hash it shows
what the last call that touches the hash left there (`standing`): the value of a put, or a row of bytes,
which is a value exactly if it spells one and else an error that names the hash. It shows nothing exactly
where nothing stands, and what is done under other hashes does not matter.

`tells_run` says this of tables of headers, blocks and hashes.
-/

namespace ChainSync.Table

variable {α : Type} {key : Hash}

/-- The calls that write to a table, and to the rows behind it. -/
inductive WriteCall (α : Type) where
  | put (key : Hash) (value : α)
  | remove (key : Hash)
  | clear
  | putRow (key row : Bytes)
  | removeRow (key : Bytes)

/-- What stands under a hash. -/
inductive Entry (α : Type) where
  | value (v : α)
  /-- Bytes that were not put as a value. -/
  | row (bs : Bytes)

/-- A call writes where a hash stands. -/
def WriteCall.touches (key : Hash) : WriteCall α → Bool
  | put key' _ => key' = key
  | remove key' => key' = key
  | clear => true
  | putRow key' _ => key' = key.bytes
  | removeRow key' => key' = key.bytes

/-- What a call leaves where it writes. -/
def WriteCall.leaves : WriteCall α → Option (Entry α)
  | put _ v => some (.value v)
  | putRow _ bs => some (.row bs)
  | _ => none

/-- What the last call that touches a hash left there. -/
def standing (calls : List (WriteCall α)) (key : Hash) : Option (Entry α) :=
  (calls.reverse.find? (·.touches key)).bind WriteCall.leaves

/-- The last call decides what stands where it writes. -/
lemma standing_concat (calls : List (WriteCall α)) (call : WriteCall α) (key : Hash) :
    standing (calls ++ [call]) key =
      if call.touches key then call.leaves else standing calls key := by
  rw [standing, List.reverse_concat, List.find?_cons]
  cases call.touches key <;> rfl

variable [Stored α] {t : Table ByteMap α} {calls : List (WriteCall α)}

/-- The bytes that an entry keeps. -/
def Entry.bytes : Entry α → Bytes
  | value v => Stored.toBytes v
  | row bs => bs

namespace WriteCall

/-- The operation that is called. -/
def act : WriteCall α → StoreM (Table ByteMap α) Unit
  | put key v => Table.put key v
  | remove key => Table.remove key
  | clear => Table.clear
  | putRow key row => onRows (KeyValue.put key row)
  | removeRow key => onRows (KeyValue.remove key)

/-- The table after a call. -/
def after (t : Table ByteMap α) (call : WriteCall α) : Table ByteMap α := (call.act.exec t).2

/-- No call fails. -/
lemma exec_act (call : WriteCall α) (t : Table ByteMap α) : call.act.exec t = (.ok (), call.after t) := by
  cases call <;> rfl

/-- A call changes the rows that it touches and no other one. -/
lemma rows_after (call : WriteCall α) (t : Table ByteMap α) (key : Hash) :
    (call.after t).rows[key.bytes]? =
      if call.touches key then call.leaves.map Entry.bytes else t.rows[key.bytes]? := by
  cases call with
  | put key' v =>
    have hrows : ((put key' v).after t).rows = t.rows.insert key'.bytes (Stored.toBytes v) := rfl
    rw [hrows, Std.ExtTreeMap.getElem?_insert]
    by_cases e : key' = key
    · simp [touches, leaves, Entry.bytes, e]
    · have hne : key'.bytes ≠ key.bytes := fun h => e (Hash.ext h)
      simp [touches, e, hne]
  | remove key' =>
    have hrows : ((remove key' : WriteCall α).after t).rows = t.rows.erase key'.bytes := rfl
    rw [hrows, Std.ExtTreeMap.getElem?_erase]
    by_cases e : key' = key
    · simp [touches, leaves, e]
    · have hne : key'.bytes ≠ key.bytes := fun h => e (Hash.ext h)
      simp [touches, e, hne]
  | clear =>
    have hrows : ((clear : WriteCall α).after t).rows = ∅ := rfl
    simp [hrows, touches, leaves]
  | putRow key' row =>
    have hrows : ((putRow key' row : WriteCall α).after t).rows = t.rows.insert key' row := rfl
    rw [hrows, Std.ExtTreeMap.getElem?_insert]
    by_cases e : key' = key.bytes <;> simp [touches, leaves, Entry.bytes, e]
  | removeRow key' =>
    have hrows : ((removeRow key' : WriteCall α).after t).rows = t.rows.erase key' := rfl
    rw [hrows, Std.ExtTreeMap.getElem?_erase]
    by_cases e : key' = key.bytes <;> simp [touches, leaves, e]

end WriteCall

/-! ## Some calls on an empty table -/

/-- Some calls, one after the other. -/
def run (calls : List (WriteCall α)) : StoreM (Table ByteMap α) Unit := calls.forM WriteCall.act

/-- The table after some calls on an empty one. -/
def written (calls : List (WriteCall α)) : Table ByteMap α := calls.foldl WriteCall.after empty

/-- Calls that write do not fail. -/
lemma exec_run (calls : List (WriteCall α)) : (run calls).exec empty = (.ok (), written calls) := by
  rw [run, written]
  generalize (empty : Table ByteMap α) = t
  induction calls generalizing t with
  | nil => rfl
  | cons call calls ih =>
    rw [List.forM_eq_forM, List.forM_cons, Operation.exec_bind, call.exec_act]
    exact ih (call.after t)

/-- The row under a hash is what stands there. -/
lemma rows_written (calls : List (WriteCall α)) (key : Hash) :
    (written calls).rows[key.bytes]? = (standing calls key).map Entry.bytes := by
  induction calls using List.reverseRecOn with
  | nil => simp [written, standing, empty, KeyValue.empty]
  | append_singleton calls call ih =>
    have hlast : written (calls ++ [call]) = call.after (written calls) := by
      simp [written]
    rw [hlast, WriteCall.rows_after, standing_concat, ih]
    split <;> rfl

/-! ## What look-ups find -/

/-- What the look-ups in a table come to after some calls. `Fits` are the values that can be written, and
`Spells` says which value bytes are. -/
structure Tells (Fits : α → Prop) (Spells : Bytes → α → Prop) (calls : List (WriteCall α))
    (t : Table ByteMap α) : Prop where
  /-- A look-up finds nothing exactly where nothing stands. -/
  get_eq_none_iff : ∀ key, (get key).exec t = (.ok none, t) ↔ standing calls key = none
  get_of_value : ∀ key v, standing calls key = some (.value v) → Fits v →
    (get key).exec t = (.ok (some v), t)
  get_of_row : ∀ key bs, standing calls key = some (.row bs) →
    ∀ v, (get key).exec t = (.ok (some v), t) ↔ Spells bs v
  /-- A row that is no value is an error that names the hash. -/
  get_of_damaged : ∀ key bs, standing calls key = some (.row bs) → (∀ v, ¬ Spells bs v) →
    ∃ fault, (get key).exec t = (.error (.corrupt key.bytes fault), t) ∧
      (StoreError.corrupt key.bytes fault).message =
        s!"corrupt value under key {key.hex}: {fault.decodeMessage}"
  /-- A hash counts as there exactly if a look-up does not find nothing. -/
  contains : ∀ key, ∃ there, (contains key).exec t = (.ok there, t) ∧
    (there = true ↔ (get key).exec t ≠ (.ok none, t))

/-- A look-up reads the row under the hash. -/
lemma exec_get (key : Hash) :
    (get key).exec t =
      (match t.rows[key.bytes]? with
        | none => .ok none
        | some row =>
          match Stored.ofBytes row with
          | .ok v => .ok (some v)
          | .error fault => .error (.corrupt key.bytes fault), t) := by
  simp only [get, onRows, Operation.exec_bind, Operation.exec_onPart, ByteMap.exec_get]
  cases t.rows[key.bytes]? with
  | none => rfl
  | some row => cases hread : Stored.ofBytes (α := α) row <;> simp [Except.mapError, hread]

/-- A look-up finds nothing exactly where there is no row. -/
lemma exec_get_eq_none_iff (key : Hash) :
    (get key).exec t = (.ok none, t) ↔ t.rows[key.bytes]? = none := by
  rw [exec_get]
  cases t.rows[key.bytes]? with
  | none => simp
  | some row => cases hread : Stored.ofBytes (α := α) row <;> simp [hread]

/-- A table whose values are read where they are spelled, and spelled as they are written. -/
lemma tells_written {Fits : α → Prop} {Spells : Bytes → α → Prop}
    (hread : ∀ bs v, Stored.ofBytes bs = .ok v ↔ Spells bs v)
    (hwrite : ∀ v, Fits v → Stored.ofBytes (Stored.toBytes v) = .ok v) (calls : List (WriteCall α)) :
    Tells Fits Spells calls (written calls) where
  get_eq_none_iff := by
    intro key
    rw [exec_get_eq_none_iff, rows_written, Option.map_eq_none_iff]
  get_of_value := by
    intro key v hstanding hfits
    rw [exec_get, rows_written, hstanding]
    simp [Entry.bytes, hwrite v hfits]
  get_of_row := by
    intro key bs hstanding v
    rw [exec_get, rows_written, hstanding, ← hread]
    cases h : Stored.ofBytes (α := α) bs <;> simp [Entry.bytes, h]
  get_of_damaged := by
    intro key bs hstanding hnone
    cases h : Stored.ofBytes (α := α) bs with
    | ok v => exact absurd ((hread bs v).1 h) (hnone v)
    | error fault =>
      refine ⟨fault, ?_, rfl⟩
      rw [exec_get, rows_written, hstanding]
      simp [Entry.bytes, h]
  contains := by
    intro key
    refine ⟨(written calls).rows.contains key.bytes, rfl, ?_⟩
    rw [Ne, exec_get_eq_none_iff, Std.ExtTreeMap.contains_eq_isSome_getElem?, Option.isSome_iff_ne_none]

/-- A table of values whose stored forms end themselves. -/
lemma tells_of_delimits {P : α → Prop} (delimits : Stored.Delimits α P) (calls : List (WriteCall α)) :
    Tells P (fun bs v => Stored.toBytes v <+: bs ∧ P v) calls (written calls) := by
  apply tells_written
  · intro bs v
    constructor
    · intro hread
      obtain ⟨hv, hfront⟩ := delimits.toBytes_prefix hread
      exact ⟨hfront, hv⟩
    · rintro ⟨hfront, hv⟩
      exact (delimits.ofBytes_eq_ok_iff hv).2 hfront
  · intro v hv
    exact delimits.ofBytes_toBytes hv

/-- Whatever is done to an empty table, through its calls and behind its back, no call fails, and its look-ups
tell what the last call that touches a hash left there. A row is a header or a block if it begins with
its stored form, and a hash if it is its bytes. -/
theorem tells_run :
    (∀ calls : List (WriteCall Header), ∃ t, (run calls).exec empty = (.ok (), t) ∧
      Tells Header.Sized (fun bs h => Stored.toBytes h <+: bs ∧ h.Sized) calls t) ∧
    (∀ calls : List (WriteCall Block), ∃ t, (run calls).exec empty = (.ok (), t) ∧
      Tells Block.Sized (fun bs b => Stored.toBytes b <+: bs ∧ b.Sized) calls t) ∧
    ∀ calls : List (WriteCall Hash), ∃ t, (run calls).exec empty = (.ok (), t) ∧
      Tells (fun _ => True) (fun bs h => bs = Stored.toBytes h) calls t := by
  refine ⟨fun calls => ⟨_, exec_run calls, ?_⟩, fun calls => ⟨_, exec_run calls, ?_⟩,
    fun calls => ⟨_, exec_run calls, ?_⟩⟩
  · exact tells_of_delimits (Stored.delimits_of_iff Header.ofBytes_eq_ok_iff) calls
  · exact tells_of_delimits (Stored.delimits_of_iff Block.ofBytes_eq_ok_iff) calls
  · apply tells_written
    · intro bs h
      exact Hash.ofBytes_eq_ok_iff
    · intro h _
      exact Hash.ofBytes_toBytes h

/-- A value put over damaged bytes, bytes that damage a value, and a stored form with a byte behind it. -/
theorem tells_run_damaged :
    let g := Block.genesis.header
    let key := fun b : UInt8 => (⟨List.replicate 32 b, List.length_replicate⟩ : Hash)
    ∃ t, (run [.putRow (key 0).bytes [0xde, 0xad], .put (key 0) g, .put (key 1) g,
        .putRow (key 1).bytes [0xde, 0xad],
        .putRow (key 2).bytes (Stored.toBytes g ++ [7])]).exec empty = (.ok (), t) ∧
      (get (key 0)).exec t = (.ok (some g), t) ∧
      (∃ fault, (get (key 1)).exec t = (.error (.corrupt (key 1).bytes fault), t)) ∧
      (get (key 2)).exec t = (.ok (some g), t) ∧
      (get (key 3)).exec t = (.ok none, t) := by
  intro g key
  have hsized : g.Sized := by
    unfold Header.Sized
    decide
  obtain ⟨t, hrun, tells⟩ := tells_run.1 [.putRow (key 0).bytes [0xde, 0xad], .put (key 0) g,
    .put (key 1) g, .putRow (key 1).bytes [0xde, 0xad], .putRow (key 2).bytes (Stored.toBytes g ++ [7])]
  refine ⟨t, hrun, tells.get_of_value _ _ rfl hsized, ?_, ?_, ?_⟩
  · have hshort : ∀ h : Header, ¬ (Stored.toBytes h <+: [0xde, 0xad] ∧ h.Sized) := by
      rintro h ⟨hfront, -⟩
      have hlen := hfront.length_le
      simp [Stored.toBytes, Header.stored, h.parent.length_bytes] at hlen
      omega
    obtain ⟨fault, hget, -⟩ := tells.get_of_damaged (key 1) _ rfl hshort
    exact ⟨fault, hget⟩
  · exact (tells.get_of_row _ _ rfl g).2 ⟨List.prefix_append _ _, hsized⟩
  · exact (tells.get_eq_none_iff _).2 rfl

end ChainSync.Table
