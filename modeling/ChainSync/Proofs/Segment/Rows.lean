import ChainSync.Segment
import ChainSync.Proofs.Ancestry
import ChainSync.Proofs.StoredForm

/-!
# Rows of a segment

What the operations of a segment read and write when its tables are maps. A header or a block is there
if the row under its hash begins with its stored form; a link is the hash of the successor. Every
operation is a few of the changes `putHeader`, `putBlock`, `putLink`, and a move of the ends.
-/

namespace ChainSync.Segment

variable {α : Type} {s : Segment ByteMap} {h h' : Header} {b b' : Block} {hash a a' : Hash}

/-- The segment with a header under its hash. -/
def putHeader (s : Segment ByteMap) (h : Header) : Segment ByteMap :=
  { s with headers := ⟨s.headers.rows.insert h.hash.bytes (Stored.toBytes h)⟩ }

/-- The segment with a block under its hash. -/
def putBlock (s : Segment ByteMap) (b : Block) : Segment ByteMap :=
  { s with blocks := ⟨s.blocks.rows.insert b.hash.bytes (Stored.toBytes b)⟩ }

/-- The segment with a link from one hash up to another. -/
def putLink (s : Segment ByteMap) (lower upper : Hash) : Segment ByteMap :=
  { s with links := ⟨s.links.rows.insert lower.bytes upper.bytes⟩ }

/-- The segment with other ends. -/
def moved (s : Segment ByteMap) (frontier pivot : Header) : Segment ByteMap :=
  { s with anchors := some { frontier, pivot } }

/-- The row under a hash reads as a value. -/
def HasRow [Stored α] (rows : ByteMap) (hash : Hash) (v : α) : Prop :=
  ∃ row, rows[hash.bytes]? = some row ∧ Stored.ofBytes row = .ok v

/-- The row under the hash of a header reads as the header. -/
def HasHeader (s : Segment ByteMap) (h : Header) : Prop := HasRow s.headers.rows h.hash h

/-- The row under the hash of a block reads as the block. -/
def HasBlock (s : Segment ByteMap) (b : Block) : Prop := HasRow s.blocks.rows b.hash b

/-- The link of a header leads to another one. -/
def Links (s : Segment ByteMap) (lower upper : Header) : Prop :=
  s.links.rows[lower.hash.bytes]? = some upper.hash.bytes

/-! ## What a change leaves as it was -/

/-- Putting a block leaves the headers. -/
@[simp]
lemma putBlock_headers : (s.putBlock b).headers = s.headers := rfl

/-- Putting a link leaves the headers. -/
@[simp]
lemma putLink_headers : (s.putLink a a').headers = s.headers := rfl

/-- Putting a link leaves the blocks. -/
@[simp]
lemma putLink_blocks : (s.putLink a a').blocks = s.blocks := rfl

/-- Moving the ends leaves the headers. -/
@[simp]
lemma moved_headers : (s.moved h h').headers = s.headers := rfl

/-- Moving the ends leaves the blocks. -/
@[simp]
lemma moved_blocks : (s.moved h h').blocks = s.blocks := rfl

/-- Moving the ends leaves the links. -/
@[simp]
lemma moved_links : (s.moved h h').links = s.links := rfl

/-- Putting a header writes the row under its hash only. -/
lemma putHeader_rows (key : Bytes) :
    (s.putHeader h).headers.rows[key]? =
      if h.hash.bytes = key then some (Stored.toBytes h) else s.headers.rows[key]? := by
  simp [putHeader, Std.ExtTreeMap.getElem?_insert]

/-- Putting a block writes the row under its hash only. -/
lemma putBlock_rows (key : Bytes) :
    (s.putBlock b).blocks.rows[key]? =
      if b.hash.bytes = key then some (Stored.toBytes b) else s.blocks.rows[key]? := by
  simp [putBlock, Std.ExtTreeMap.getElem?_insert]

/-- Putting a link writes the row under the lower hash only. -/
lemma putLink_rows (key : Bytes) :
    (s.putLink a a').links.rows[key]? =
      if a.bytes = key then some a'.bytes else s.links.rows[key]? := by
  simp [putLink, Std.ExtTreeMap.getElem?_insert]

/-- A header that was put has its row. -/
lemma hasHeader_put (hs : h.Sized) : (s.putHeader h).HasHeader h :=
  ⟨_, by rw [putHeader_rows, if_pos rfl], Header.ofBytes_toBytes hs⟩

/-- A block that is read has lengths that can be written. -/
lemma HasBlock.sized (has : s.HasBlock b) : b.Sized := by
  obtain ⟨row, -, hread⟩ := has
  exact Block.sized_of_ofBytes hread

/-- A block that was put has its row. -/
lemma hasBlock_put (hs : b.Sized) : (s.putBlock b).HasBlock b :=
  ⟨_, by rw [putBlock_rows, if_pos rfl], Block.ofBytes_toBytes hs⟩

/-- A header stays when another one with another hash, or itself, is written. -/
lemma HasHeader.put (has : s.HasHeader h) (hs : h'.Sized) (known : h'.hash = h.hash → h' = h) :
    (s.putHeader h').HasHeader h := by
  by_cases e : h'.hash = h.hash
  · have same := known e
    subst same
    exact hasHeader_put hs
  · obtain ⟨row, hrow, hread⟩ := has
    refine ⟨row, ?_, hread⟩
    rw [putHeader_rows, if_neg (fun same => e (Hash.ext same)), hrow]

/-- A block keeps its row where one with another hash is put. -/
lemma HasBlock.put (has : s.HasBlock b) (e : b'.hash ≠ b.hash) : (s.putBlock b').HasBlock b := by
  obtain ⟨row, hrow, hread⟩ := has
  refine ⟨row, ?_, hread⟩
  rw [putBlock_rows, if_neg (fun same => e (Hash.ext same)), hrow]

/-- A link that was put leads where it was put to. -/
lemma links_put : (s.putLink h.hash h'.hash).Links h h' := by
  rw [Links, putLink_rows, if_pos rfl]

/-- A link is kept where one from another hash is put. -/
lemma Links.put (link : s.Links h h') (e : a ≠ h.hash) : (s.putLink a a').Links h h' := by
  rw [Links, putLink_rows, if_neg (fun same => e (Hash.ext same))]
  exact link

/-! ## What the operations do -/

/-- What a look-up of a value that has the hash of its key comes to. -/
def valueAt [Stored α] (hashOf : α → Hash) (rows : ByteMap) (hash : Hash) :
    Except SyncError (Option α) :=
  match rows[hash.bytes]? with
  | none => .ok none
  | some row =>
    match Stored.ofBytes row with
    | .error fault => .error (.store (.corrupt hash.bytes fault))
    | .ok v => if hashOf v = hash then .ok (some v) else .error (.hashMismatch hash (hashOf v))

/-- What a look-up of a header comes to. -/
def headerAt (s : Segment ByteMap) : Hash → Except SyncError (Option Header) :=
  valueAt Header.hash s.headers.rows

/-- What a look-up of a block comes to. -/
def blockAt (s : Segment ByteMap) : Hash → Except SyncError (Option Block) :=
  valueAt Block.hash s.blocks.rows

/-- What a look-up of a successor comes to. -/
def linkAt (s : Segment ByteMap) (hash : Hash) : Except SyncError (Option Hash) :=
  match s.links.rows[hash.bytes]? with
  | none => .ok none
  | some row =>
    match Stored.ofBytes row with
    | .error fault => .error (.store (.corrupt hash.bytes fault))
    | .ok upper => .ok (some upper)

/-- Looking up a header reads its row and changes nothing. -/
@[simp]
lemma exec_header? (hash : Hash) : (header? hash).exec s = (s.headerAt hash, s) := by
  simp only [header?, onHeaders, Table.get, Table.onRows, headerAt, valueAt,
    Operation.exec_bind, Operation.exec_onPart, ByteMap.exec_get]
  cases s.headers.rows[hash.bytes]? with
  | none => rfl
  | some row =>
    cases hread : Stored.ofBytes (α := Header) row with
    | error fault => simp [Except.mapError, hread]
    | ok h => by_cases e : h.hash = hash <;> simp [Except.mapError, hread, e]

/-- Looking up a block reads its row and changes nothing. -/
@[simp]
lemma exec_block? (hash : Hash) : (block? hash).exec s = (s.blockAt hash, s) := by
  simp only [block?, onBlocks, Table.get, Table.onRows, blockAt, valueAt, Operation.exec_bind,
    Operation.exec_onPart, ByteMap.exec_get]
  cases s.blocks.rows[hash.bytes]? with
  | none => rfl
  | some row =>
    cases hread : Stored.ofBytes (α := Block) row with
    | error fault => simp [Except.mapError, hread]
    | ok b => by_cases e : b.hash = hash <;> simp [Except.mapError, hread, e]

/-- Looking up a successor reads the link and changes nothing. -/
@[simp]
lemma exec_successor? (hash : Hash) : (successor? hash).exec s = (s.linkAt hash, s) := by
  simp only [successor?, onLinks, Table.get, Table.onRows, linkAt, Operation.exec_bind,
    Operation.exec_onPart, ByteMap.exec_get]
  cases s.links.rows[hash.bytes]? with
  | none => rfl
  | some row =>
    cases hread : Stored.ofBytes (α := Hash) row <;> simp [Except.mapError, hread]

/-- Storing a block puts it and does not fail. -/
@[simp]
lemma exec_storeBlock (b : Block) : (storeBlock b).exec s = (.ok (), s.putBlock b) := rfl

/-- Clearing leaves the empty segment. -/
@[simp]
lemma exec_clear : clear.exec s = (.ok (), Segment.empty) := rfl

/-- The trusted block is the one under the pivot's hash. -/
@[simp]
lemma exec_trustedBlock? :
    trustedBlock?.exec s = (s.pivot?.elim (.ok none) fun p => s.blockAt p.hash, s) := by
  simp only [trustedBlock?, Operation.exec_bind, Operation.exec_get]
  cases s.pivot? <;> simp

/-- Trusting a block anchors an empty segment, and extends one whose pivot is the block's parent. -/
lemma exec_trust (b : Block) :
    (trust b).exec s =
      match s.anchors with
      | none => (.ok (), ((s.putHeader b.header).putBlock b).moved b.header b.header)
      | some ends =>
        if b.header.parent = ends.pivot.hash then
          (.ok (), (((s.putHeader b.header).putBlock b).putLink ends.pivot.hash b.hash).moved
            ends.frontier b.header)
        else (.error (.linkage ends.pivot.hash b.header.parent), s) := by
  simp only [trust, Operation.exec_bind, Operation.exec_get]
  cases s.anchors with
  | none => rfl
  | some ends =>
    by_cases e : b.header.parent = ends.pivot.hash <;> simp only [e, if_true, if_false] <;> rfl

/-- A block on top of the pivot is put and becomes the pivot. -/
lemma exec_trust_of_parent {ends : Anchors} (hends : s.anchors = some ends)
    (hparent : b.header.parent = ends.pivot.hash) :
    (trust b).exec s =
      (.ok (), (((s.putHeader b.header).putBlock b).putLink ends.pivot.hash b.header.hash).moved
        ends.frontier b.header) := by
  simp only [exec_trust, hends, hparent, if_true]
  rfl

/-- The header that a segment with this frontier takes below it. -/
structure Precedes (h frontier : Header) : Prop where
  parent : h.IsParent frontier
  number : h.number.toNat + 1 = frontier.number.toNat

/-- Prepending a header either writes it and its link, or fails and changes nothing. `kept` is what
comes of the rows when the header comes into its table. -/
lemma exec_prependWith {keep : Hash → SegmentM ByteMap Unit} {kept : Segment ByteMap}
    (hkeep : (keep h.hash).exec s = (.ok (), kept)) :
    (∃ ends, s.anchors = some ends ∧ Precedes h ends.frontier ∧
      (prependWith keep h).exec s =
        (.ok (), (kept.putLink h.hash ends.frontier.hash).moved h ends.pivot)) ∨
    (∀ ends, s.anchors = some ends → ¬ Precedes h ends.frontier) ∧
      ∃ e, (prependWith keep h).exec s = (.error e, s) := by
  simp only [prependWith, Operation.exec_bind, Operation.exec_get]
  cases hends : s.anchors with
  | none => exact .inr ⟨nofun, _, rfl⟩
  | some ends =>
    -- the hash is checked first, the height second
    by_cases hp : ends.frontier.parent = h.hash
    · by_cases hn : h.number.toNat + 1 = ends.frontier.number.toNat
      · refine .inl ⟨ends, rfl, ⟨hp, hn⟩, ?_⟩
        simp only [hp, hn, hkeep, ne_eq, not_true_eq_false, if_false, Operation.exec_bind]
        rfl
      · refine .inr ⟨?_, .heightGap ends.frontier.number h.number, ?_⟩
        · rintro _ ⟨⟩ pre
          exact hn pre.number
        · simp [hp, hn]
    · refine .inr ⟨?_, .linkage ends.frontier.parent h.hash, ?_⟩
      · rintro _ ⟨⟩ pre
        exact hp pre.parent
      · simp [hp]

/-- A header that precedes the frontier is put in front, and any other one is refused without a change.
-/
lemma exec_prepend (s : Segment ByteMap) (h : Header) :
    (∃ ends, s.anchors = some ends ∧ Precedes h ends.frontier ∧
      (prepend h).exec s =
        (.ok (), ((s.putHeader h).putLink h.hash ends.frontier.hash).moved h ends.pivot)) ∨
    (∀ ends, s.anchors = some ends → ¬ Precedes h ends.frontier) ∧
      ∃ e, (prepend h).exec s = (.error e, s) :=
  exec_prependWith rfl

/-- A stored header that precedes the frontier is linked in front, and any other one is refused without
a change. -/
lemma exec_prependStored (s : Segment ByteMap) (h : Header) :
    (∃ ends, s.anchors = some ends ∧ Precedes h ends.frontier ∧
      (prependStored h).exec s =
        (.ok (), (s.putLink h.hash ends.frontier.hash).moved h ends.pivot)) ∨
    (∀ ends, s.anchors = some ends → ¬ Precedes h ends.frontier) ∧
      ∃ e, (prependStored h).exec s = (.error e, s) :=
  exec_prependWith rfl

/-! ## What the look-ups find -/

/-- A value is found under a hash exactly if it is there and has the hash. -/
lemma valueAt_eq_some_iff [Stored α] {hashOf : α → Hash} {rows : ByteMap} {v : α} :
    valueAt hashOf rows hash = .ok (some v) ↔ HasRow rows (hashOf v) v ∧ hashOf v = hash := by
  unfold valueAt HasRow
  cases hrow : rows[hash.bytes]? with
  | none =>
    constructor
    · nofun
    · rintro ⟨⟨row, hrow', -⟩, rfl⟩
      cases hrow.symm.trans hrow'
  | some row =>
    constructor
    · intro hfound
      cases hread : Stored.ofBytes (α := α) row with
      | error fault => simp [hread] at hfound
      | ok w =>
        simp only [hread] at hfound
        split_ifs at hfound with e
        cases hfound
        exact ⟨⟨row, e ▸ hrow, hread⟩, e⟩
    · rintro ⟨⟨row', hrow', hread⟩, rfl⟩
      cases hrow.symm.trans hrow'
      simp [hread]

/-- Nothing is found exactly where there is no row. -/
lemma valueAt_eq_none_iff [Stored α] {hashOf : α → Hash} {rows : ByteMap} :
    valueAt hashOf rows hash = .ok none ↔ rows[hash.bytes]? = none := by
  unfold valueAt
  cases rows[hash.bytes]? with
  | none => simp
  | some row =>
    cases hread : Stored.ofBytes (α := α) row with
    | error fault => simp [hread]
    | ok v => by_cases e : hashOf v = hash <;> simp [hread, e]

/-- A header is found exactly under its hash and where it has its row. -/
lemma headerAt_eq_some_iff : s.headerAt hash = .ok (some h) ↔ s.HasHeader h ∧ h.hash = hash :=
  valueAt_eq_some_iff

/-- A block is found exactly under its hash and where it has its row. -/
lemma blockAt_eq_some_iff : s.blockAt hash = .ok (some b) ↔ s.HasBlock b ∧ b.hash = hash :=
  valueAt_eq_some_iff

/-- No block is found in the empty segment. -/
lemma blockAt_empty (hash : Hash) : Segment.empty.blockAt hash = .ok none :=
  valueAt_eq_none_iff.2 (by simp [Segment.empty, Table.empty, KeyValue.empty])

/-- A link is read as it was put. -/
lemma Links.linkAt_eq (link : s.Links h h') : s.linkAt h.hash = .ok (some h'.hash) := by
  have hread : Stored.ofBytes h'.hash.bytes = .ok h'.hash := Hash.ofBytes_toBytes h'.hash
  unfold linkAt
  rw [link]
  simp only [hread]

end ChainSync.Segment
