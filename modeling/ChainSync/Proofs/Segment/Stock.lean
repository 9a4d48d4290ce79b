import ChainSync.Segment
import ChainSync.Proofs.Segment.Listing

/-!
# What a segment has in stock

Rows that no call of the segment wrote may be read all the same: ancestors are restored and bodies are
taken from them. If what reads under its own hash is from a set of coherent headers (`Known`), it is
what the list means by that hash. `Stocked` adds this and a bound on the heights to `Lists`; restoring
keeps it (`Stocked.restore`).
-/

namespace ChainSync.Segment

variable {base origin s : Segment ByteMap} {U : Set Header} {hs : List Header} {h f p : Header}
  {b : Block} {hash : Hash} {calls : List Call}

/-- What reads as a header or a block under its own hash is from a set. -/
structure Known (U : Set Header) (s : Segment ByteMap) : Prop where
  headers : ∀ h, s.HasHeader h → h ∈ U
  blocks : ∀ b, s.HasBlock b → b.header ∈ U

namespace Known

/-- The empty segment holds nothing that is unknown. -/
lemma empty : Known U Segment.empty where
  headers := by
    rintro h ⟨row, hrow, -⟩
    simp [Segment.empty, Table.empty, KeyValue.empty] at hrow
  blocks := by
    rintro b ⟨row, hrow, -⟩
    simp [Segment.empty, Table.empty, KeyValue.empty] at hrow

/-- A known header may be put. -/
lemma putHeader (known : Known U s) (hsized : h.Sized) (hh : h ∈ U) : Known U (s.putHeader h) where
  headers := by
    rintro h' ⟨row, hrow, hread⟩
    rw [putHeader_rows] at hrow
    split_ifs at hrow
    · cases hrow
      rw [Header.ofBytes_toBytes hsized] at hread
      cases hread
      exact hh
    · exact known.headers h' ⟨row, hrow, hread⟩
  blocks := known.blocks

/-- A block with a known header may be put. -/
lemma putBlock (known : Known U s) (hsized : b.Sized) (hb : b.header ∈ U) :
    Known U (s.putBlock b) where
  headers := known.headers
  blocks := by
    rintro b' ⟨row, hrow, hread⟩
    rw [putBlock_rows] at hrow
    split_ifs at hrow
    · cases hrow
      rw [Block.ofBytes_toBytes hsized] at hread
      cases hread
      exact hb
    · exact known.blocks b' ⟨row, hrow, hread⟩

/-- What is known depends on the headers and the blocks only. -/
lemma of_eq {t : Segment ByteMap} (known : Known U s) (hheaders : t.headers = s.headers)
    (hblocks : t.blocks = s.blocks) : Known U t where
  headers := by
    intro h has
    rw [HasHeader, hheaders] at has
    exact known.headers h has
  blocks := by
    intro b has
    rw [HasBlock, hblocks] at has
    exact known.blocks b has

/-- A call about a known header leaves everything known. -/
lemma after {call : Call} (known : Known U s) (hsized : call.Sized)
    (hcall : ∀ h, call.header? = some h → h ∈ U) : Known U (call.after s) := by
  cases call with
  | trust b =>
    have hb := hcall b.header rfl
    -- if the block is refused, nothing is written
    have put := (known.putHeader hsized.header hb).putBlock hsized hb
    simp only [Call.after, Call.act, exec_trust]
    cases s.anchors with
    | none => exact put.of_eq rfl rfl
    | some ends =>
      by_cases hparent : b.header.parent = ends.pivot.hash
      · simp only [hparent, if_true]
        exact put.of_eq rfl rfl
      · simp only [hparent, if_false]
        exact known
  | prepend h =>
    simp only [Call.after, Call.act]
    rcases exec_prepend s h with ⟨ends, -, -, hexec⟩ | ⟨-, e, hexec⟩ <;> rw [hexec]
    · exact (known.putHeader hsized (hcall h rfl)).of_eq rfl rfl
    · exact known
  | prependStored h =>
    simp only [Call.after, Call.act]
    rcases exec_prependStored s h with ⟨ends, -, -, hexec⟩ | ⟨-, e, hexec⟩ <;> rw [hexec]
    · exact known.of_eq rfl rfl
    · exact known
  | storeBlock b => exact known.putBlock hsized (hcall b.header rfl)
  | clear => exact empty

/-- Calls about known headers leave everything known. -/
lemma ran (known : Known U base) (hsized : ∀ call ∈ calls, call.Sized)
    (hcalls : involved calls ⊆ U) : Known U (ran base calls) := by
  induction calls using List.reverseRecOn with
  | nil => exact known
  | append_singleton calls call ih =>
    have hpre := List.prefix_append calls [call]
    rw [ran_concat]
    apply (ih (fun c hc => hsized c (hpre.subset hc)) ((involved_mono hpre).trans hcalls)).after
    · exact hsized call (by simp)
    · exact fun h hh => hcalls ⟨call, by simp, hh⟩

end Known

section Restoring

variable {P : Segment ByteMap → Prop}
  (step : ∀ s h, P s → s.HasHeader h → P ((prependStored h).exec s).2)

include step

/-- Walking down stored headers keeps what is kept when one of them is prepended. -/
lemma restoreWithin_keeps (steps : Nat) (hash : Hash) (hs : P s) :
    P ((restoreWithin steps hash).exec s).2 := by
  induction steps generalizing s hash with
  | zero => exact hs
  | succ steps ih =>
    simp only [restoreWithin, Operation.exec_bind, exec_header?]
    cases hfound : s.headerAt hash with
    | error e => exact hs
    | ok found =>
      cases found with
      | none => exact hs
      | some h =>
        obtain ⟨has, -⟩ := headerAt_eq_some_iff.1 hfound
        simp only [Operation.exec_bind, Operation.exec_get]
        -- only at the parent of the frontier does the walk prepend anything
        by_cases hnext : s.frontier?.map (·.parent) = some hash
        · have hs' := step s h hs has
          simp only [hnext, if_true, Operation.exec_bind]
          cases hexec : (prependStored h).exec s with
          | mk r t =>
            rw [hexec] at hs'
            cases r with
            | error e => exact hs'
            | ok _ => exact ih h.parent hs'
        · simp only [hnext, if_false]
          exact ih h.parent hs

/-- Restoring keeps what is kept when a stored header is prepended. -/
lemma restore_keeps (start : Header) (hs : P s) : P ((restore start).exec s).2 := by
  have hs' := restoreWithin_keeps step (s.headers.size + 1) start.parent hs
  simp only [restore, Operation.exec_bind, Operation.exec_get]
  cases hexec : (restoreWithin (s.headers.size + 1) start.parent).exec s with
  | mk r t =>
    rw [hexec] at hs'
    cases r with
    | error e => exact hs'
    | ok hash => cases hash <;> exact hs'

end Restoring

/-- Prepending leaves the blocks. -/
lemma blocks_prepend (h : Header) (s : Segment ByteMap) : ((prepend h).exec s).2.blocks = s.blocks := by
  rcases exec_prepend s h with ⟨ends, -, -, hexec⟩ | ⟨-, e, hexec⟩ <;> rw [hexec]
  rfl

/-- Restoring leaves the blocks. -/
lemma blocks_restore (start : Header) (s : Segment ByteMap) :
    ((restore start).exec s).2.blocks = s.blocks := by
  apply restore_keeps (P := fun t => t.blocks = s.blocks) _ start rfl
  intro t h hblocks _
  rcases exec_prependStored t h with ⟨ends, -, -, hexec⟩ | ⟨-, e, hexec⟩ <;> rw [hexec] <;> exact hblocks

/-- A segment that lists headers below the largest height, with rows that are known. -/
structure Stocked (origin s : Segment ByteMap) (U : Set Header) (hs : List Header) : Prop
    extends Lists origin s U hs where
  rows : Known U s
  height_lt : ∀ h ∈ hs, h.number.toNat < 2 ^ 64 - 1

/-- A segment without ends is anchored at a trusted block. -/
lemma stocked_trust (hnew : base.anchors = none) (rows : Known U base) (hb : b.Sized)
    (hU : b.header ∈ U) (hlt : b.number.toNat < 2 ^ 64 - 1) :
    Stocked base ((trust b).exec base).2 U [b.header] := by
  have hexec := exec_trust (s := base) b
  rw [hnew] at hexec
  rw [hexec]
  exact { (Lists.nil hnew).anchor hb hU with
    rows := ((rows.putHeader hb.header hU).putBlock hb hU).of_eq rfl rfl
    height_lt := by
      rintro h (_ | ⟨_, ⟨⟩⟩)
      exact hlt }

/-- How a segment came about: calls over any rows, which together are about headers of a set, and trust no
block of the largest height. -/
structure Begun (U : Set Header) (base : Segment ByteMap) (calls : List Call) : Prop where
  unanchored : base.anchors = none
  sized : ∀ call ∈ calls, call.Sized
  promised : Promised base calls
  involved : involved calls ⊆ U
  rows : Known U base
  height_lt : ∀ b, .trust b ∈ calls → b.number.toNat < 2 ^ 64 - 1

/-- A new segment over empty tables that is anchored at the first block has begun. -/
lemma begun_first :
    Begun {Block.genesis.header, Block.first.header} Segment.empty [.trust Block.first] where
  unanchored := rfl
  sized := by
    rintro call (_ | ⟨_, ⟨⟩⟩)
    exact Block.sized_of_nil rfl rfl
  promised := by
    rintro (_ | ⟨c, pre⟩) h ⟨rest, e⟩
    · simp at e
    · simp at e
  involved := by
    rintro h ⟨call, _ | ⟨_, ⟨⟩⟩, ⟨⟩⟩
    exact .inr rfl
  rows := .empty
  height_lt := by
    rintro b (_ | ⟨_, ⟨⟩⟩)
    decide

/-- A segment that has begun is stocked. -/
lemma Begun.stocked (begun : Begun U base calls) (co : Coherent U) :
    ∃ hs, Stocked (underlying base calls) (ran base calls) U hs := by
  obtain ⟨hs, lists, hheight⟩ :=
    exists_lists_ran begun.unanchored begun.sized begun.promised co begun.involved
  refine ⟨hs, { lists with rows := begun.rows.ran begun.sized begun.involved, height_lt := ?_ }⟩
  intro h hh
  obtain ⟨b, hb, hle⟩ := hheight h hh
  have hlt := begun.height_lt b hb
  omega

namespace Stocked

/-- A header that precedes the frontier is below the largest height, too. -/
lemma height_cons (stock : Stocked origin s U hs) (hf : hs.head? = some f) (pre : Precedes h f) :
    ∀ h' ∈ h :: hs, h'.number.toNat < 2 ^ 64 - 1 := by
  rintro h' (_ | ⟨_, hh'⟩)
  · have hlt := stock.height_lt f (List.mem_of_head? hf)
    have hnum := pre.number
    omega
  · exact stock.height_lt h' hh'

/-- A known header that precedes the frontier is prepended. -/
lemma lower (stock : Stocked origin s U hs) (co : Coherent U) (hsized : h.Sized) (hh : h ∈ U)
    (hf : hs.head? = some f) (pre : Precedes h f) :
    ∃ t, (Segment.prepend h).exec s = (.ok (), t) ∧ Stocked origin t U (h :: hs) ∧
      t.headers = (s.putHeader h).headers ∧ t.blocks = s.blocks := by
  obtain ⟨ends, hends, hfrontier, hp⟩ := stock.exists_ends hf
  rcases exec_prepend s h with ⟨ends', hends', -, hexec⟩ | ⟨hnot, -⟩
  · cases hends.symm.trans hends'
    rw [hfrontier] at hexec
    have lists := stock.toLists.prepend co hsized hh hf hp pre.parent
    refine ⟨_, hexec, ?_, rfl, rfl⟩
    exact { lists with
      rows := (stock.rows.putHeader hsized hh).of_eq rfl rfl
      height_lt := stock.height_cons hf pre }
  · exact absurd (hfrontier ▸ pre) (hnot ends hends)

/-- A stored header that precedes the frontier is taken back, and the tables of headers and blocks are
left. -/
lemma lowerStored (stock : Stocked origin s U hs) (co : Coherent U) (has : s.HasHeader h)
    (hf : hs.head? = some f) (pre : Precedes h f) :
    ∃ t, (Segment.prependStored h).exec s = (.ok (), t) ∧ Stocked origin t U (h :: hs) ∧
      t.headers = s.headers ∧ t.blocks = s.blocks := by
  obtain ⟨ends, hends, hfrontier, hp⟩ := stock.exists_ends hf
  rcases exec_prependStored s h with ⟨ends', hends', -, hexec⟩ | ⟨hnot, -⟩
  · cases hends.symm.trans hends'
    rw [hfrontier] at hexec
    have lists := stock.toLists.prependStored co has (stock.rows.headers h has) hf hp pre.parent
    refine ⟨_, hexec, ?_, rfl, rfl⟩
    exact { lists with
      rows := stock.rows.of_eq rfl rfl
      height_lt := stock.height_cons hf pre }
  · exact absurd (hfrontier ▸ pre) (hnot ends hends)

/-- A header in front of a list that is not empty leaves its last one. -/
lemma getLast?_cons_of_head? {a : Header} (hf : hs.head? = some f) :
    (a :: hs).getLast? = hs.getLast? :=
  List.getLast?_cons_of_ne_nil (List.ne_nil_of_mem (List.mem_of_head? hf))

/-- Whether a known header is prepended or refused, the pivot stays. -/
lemma prepend (stock : Stocked origin s U hs) (co : Coherent U) (hsized : h.Sized) (hh : h ∈ U) :
    ∃ hs', Stocked origin ((Segment.prepend h).exec s).2 U hs' ∧ hs'.getLast? = hs.getLast? := by
  rcases exec_prepend s h with ⟨ends, hends, pre, -⟩ | ⟨-, e, hexec⟩
  · have hf := (stock.ends hends).1
    obtain ⟨t, hexec, stock', -⟩ := stock.lower co hsized hh hf pre
    rw [hexec]
    exact ⟨h :: hs, stock', getLast?_cons_of_head? hf⟩
  · rw [hexec]
    exact ⟨hs, stock, rfl⟩

/-- Whether a stored header is prepended or refused, the pivot stays. -/
lemma prependStored (stock : Stocked origin s U hs) (co : Coherent U) (has : s.HasHeader h) :
    ∃ hs', Stocked origin ((Segment.prependStored h).exec s).2 U hs' ∧
      hs'.getLast? = hs.getLast? := by
  rcases exec_prependStored s h with ⟨ends, hends, pre, -⟩ | ⟨-, e, hexec⟩
  · have hf := (stock.ends hends).1
    obtain ⟨t, hexec, stock', -⟩ := stock.lowerStored co has hf pre
    rw [hexec]
    exact ⟨h :: hs, stock', getLast?_cons_of_head? hf⟩
  · rw [hexec]
    exact ⟨hs, stock, rfl⟩

/-- Storing a block leaves a segment stocked with the same list. -/
lemma storeBlock (stock : Stocked origin s U hs) (co : Coherent U) (hb : b.Sized)
    (known : b.header ∈ U) : Stocked origin (s.putBlock b) U hs :=
  { stock.toLists.storeBlock co hb known with
    rows := stock.rows.putBlock hb known
    height_lt := stock.height_lt }

/-- The list may grow downward below a pivot. -/
lemma prependStored_below {top : Option Header} (co : Coherent U) (s : Segment ByteMap) (h : Header)
    (stocked : ∃ hs, Stocked origin s U hs ∧ hs.getLast? = top) (has : s.HasHeader h) :
    ∃ hs, Stocked origin ((Segment.prependStored h).exec s).2 U hs ∧ hs.getLast? = top := by
  obtain ⟨hs, stock, rfl⟩ := stocked
  exact stock.prependStored co has

/-- Walking down stored headers leaves a segment stocked, with the same pivot. -/
lemma restoreWithin (stock : Stocked origin s U hs) (co : Coherent U) (steps : Nat) (hash : Hash) :
    ∃ hs', Stocked origin ((restoreWithin steps hash).exec s).2 U hs' ∧
      hs'.getLast? = hs.getLast? :=
  restoreWithin_keeps (prependStored_below co) steps hash ⟨hs, stock, rfl⟩

/-- Stored ancestors are restored. -/
lemma restore (stock : Stocked origin s U hs) (co : Coherent U) (start : Header) :
    ∃ hs', Stocked origin ((restore start).exec s).2 U hs' ∧ hs'.getLast? = hs.getLast? :=
  restore_keeps (prependStored_below co) start ⟨hs, stock, rfl⟩

/-- No look-up of a block fails, if none failed at the origin. -/
lemma exists_blockAt (stock : Stocked origin s U hs)
    (sound : ∀ hash, ∃ found, origin.blockAt hash = .ok found) (hash : Hash) :
    ∃ found, s.blockAt hash = .ok found := by
  rcases stock.blocks_frame hash.bytes with hrow | ⟨b, hb, hkey, hrow⟩
  · obtain ⟨found, hfound⟩ := sound hash
    refine ⟨found, ?_⟩
    rw [← hfound, blockAt, blockAt, valueAt, valueAt, hrow]
  · obtain rfl := Hash.ext hkey
    exact ⟨some b, blockAt_eq_some_iff.2 ⟨⟨_, hrow, Block.ofBytes_toBytes hb⟩, rfl⟩⟩

end Stocked
end ChainSync.Segment
