import ChainSync.Proofs.Sync.Ascending

/-!
# Completeness

A sync that sets out over empty tables from a block of the chain that its peer serves comes down to the
highest ancestor of the block that the local chain has, whatever else the local chain has beside it. From
there a run brings the block in if the ancestor is the tip, has nothing to do if the block is there, and is
refused by the local chain otherwise (`run_of_setsOut`).
-/

namespace ChainSync

/-- The headers of some blocks. -/
def headersOf (bs : List Block) : Set Header := {h | ∃ b ∈ bs, b.header = h}

/-- More blocks have more headers. -/
lemma headersOf_mono {bs bs' : List Block} (sub : bs ⊆ bs') : headersOf bs ⊆ headersOf bs' := by
  rintro _ ⟨b, hb, rfl⟩
  exact ⟨b, sub hb, rfl⟩

/-- The header of a block is among those of more blocks. -/
lemma header_mem_headersOf {bs bs' : List Block} (sub : bs ⊆ bs') : ∀ b ∈ bs, b.header ∈ headersOf bs' :=
  fun b hb => ⟨b, sub hb, rfl⟩

/-- The highest proper ancestor of a block in its chain that another chain has, by hash. -/
structure IsConnection (R L : List Block) (P C : Block) : Prop where
  mem : C ∈ R
  ancestor : Relation.TransGen (ParentIn (headersOf R)) C.header P.header
  shared : C.hash ∈ L.map Block.hash
  highest : ∀ B ∈ R, Relation.TransGen (ParentIn (headersOf R)) B.header P.header →
    B.hash ∈ L.map Block.hash → B.number ≤ C.number

namespace Chain.Holds

variable {c r : Chain} {L R : List Block} {U : Set Header} {a : Header} {b P C B : Block} {k : Nat}

/-- The parent of a block of the chain has a lower number. -/
lemma number_lt (hold : c.Holds L) (hL : ∀ b ∈ L, b.header ∈ U) (hinj : U.InjOn Header.hash)
    (hzero : ∀ h ∈ U, h.hash ≠ Hash.zero) (ha : a ∈ U) (hb : b ∈ L) (parent : a.IsParent b.header) :
    a.number < b.number := by
  rcases hold.parent_mem hb with rfl | ⟨p, hp, hparent, hlt⟩
  · exact absurd parent.symm (hzero a ha)
  · have same : a = p.header := hinj ha (hL p hp) (parent.symm.trans hparent)
    rw [same]
    exact hlt

/-- The headers of two valid chains are coherent where their hashes are. -/
lemma coherent (hold : c.Holds L) (honest : r.Holds R)
    (hinj : (headersOf (R ++ L)).InjOn Header.hash)
    (hzero : ∀ h ∈ headersOf (R ++ L), h.hash ≠ Hash.zero) : Coherent (headersOf (R ++ L)) := by
  have hR := header_mem_headersOf (List.subset_append_left R L)
  have hL := header_mem_headersOf (List.subset_append_right R L)
  apply Coherent.of_number_lt hinj
  rintro a ha _ ⟨b, hb, rfl⟩ parent
  rcases List.mem_append.1 hb with hb | hb
  · exact honest.number_lt hR hinj hzero ha hb parent
  · exact hold.number_lt hL hinj hzero ha hb parent

/-- In a chain the ancestors of a block are the blocks with lower numbers. -/
lemma ancestor_iff (hold : r.Holds R) (hinj : (headersOf R).InjOn Header.hash)
    (hzero : ∀ h ∈ headersOf R, h.hash ≠ Hash.zero) (hB : B ∈ R) (hP : P ∈ R) :
    Relation.TransGen (ParentIn (headersOf R)) B.header P.header ↔ B.number < P.number := by
  have known : ∀ b ∈ R, b.header ∈ headersOf R := fun b hb => ⟨b, hb, rfl⟩
  constructor
  · intro desc
    refine number_lt_of_ancestor ?_ desc
    rintro a ha _ ⟨b, hb, rfl⟩ parent
    exact hold.number_lt known hinj hzero ha hb parent
  · intro hlt
    rw [UInt64.lt_iff_toNat_lt] at hlt
    have way := hold.path known P
    have low := hold.getElem?_path hB (Nat.le_of_lt hlt)
    have high := hold.getElem?_path hP (Nat.le_refl _)
    obtain ⟨hi, hlow⟩ := List.getElem?_eq_some_iff.1 low
    obtain ⟨hj, hhigh⟩ := List.getElem?_eq_some_iff.1 high
    have desc := List.pairwise_iff_getElem.1 (way.lineage.pairwise_ancestor way.known) _ _ hi hj hlt
    rwa [hlow, hhigh] at desc

/-- Where the shared part of the path ends, or right below the block, is the connection. -/
lemma exists_connection (hold : c.Holds L) (honest : r.Holds R)
    (hinj : (headersOf R).InjOn Header.hash) (hzero : ∀ h ∈ headersOf R, h.hash ≠ Hash.zero)
    (hP : P ∈ R) (hpos : 0 < P.number) (shares : c.Shares (pathTo R P) k) :
    ∃ C, IsConnection R L P C ∧ C.number.toNat = min (k - 1) (P.number.toNat - 1) := by
  rw [UInt64.lt_iff_toNat_lt, UInt64.toNat_zero] at hpos
  have hlen := (List.getElem?_eq_some_iff.1 (honest.getElem?_number hP)).1
  obtain ⟨C, hC⟩ : ∃ C, R[min (k - 1) (P.number.toNat - 1)]? = some C :=
    ⟨_, List.getElem?_eq_getElem (by omega)⟩
  have hmem := List.mem_of_getElem? hC
  have hnum := honest.number hC
  have hk := shares.pos
  refine ⟨C, ⟨hmem, ?_, ?_, ?_⟩, hnum⟩
  · rw [honest.ancestor_iff hinj hzero hmem hP, UInt64.lt_iff_toNat_lt]
    omega
  · have hfound := shares.found (honest.getElem?_path hmem (by omega)) (by omega)
    obtain ⟨b, hb, -, hhash⟩ := hold.of_header?_eq_some hfound
    exact List.mem_map.2 ⟨b, hb, hhash⟩
  · intro B hB desc hshared
    have hlt := (honest.ancestor_iff hinj hzero hB hP).1 desc
    rw [UInt64.lt_iff_toNat_lt] at hlt
    rw [UInt64.le_iff_toNat_le]
    by_contra hhigher
    -- above the connection, and below the block, nothing is shared
    have habsent := shares.absent (honest.getElem?_path hB (by omega)) (by omega)
    obtain ⟨b, hb, hhash⟩ := List.mem_map.1 hshared
    exact hold.header?_eq_none_iff.1 habsent b hb hhash

end Chain.Holds

namespace Sync

open Chain (pathTo)
open Segment (OnPath Path)

variable {π : Type} [Peer π Id] {r : Chain} {R L : List Block} {P C : Block} {k : Nat}
  {s t : SyncState ByteMap Chain π}

/-- A sync sets out with an honest peer: over empty tables, from a block above genesis of the chain that
the peer serves. -/
structure SetsOut (r : Chain) (R L : List Block) (P : Block) (s : SyncState ByteMap Chain π) : Prop where
  honest : r.Holds R
  hold : s.chain.Holds L
  injOn : (headersOf (R ++ L)).InjOn Header.hash
  ne_zero : ∀ h ∈ headersOf (R ++ L), h.hash ≠ Hash.zero
  serves : Peer.Serves r s.peer
  mem : P ∈ R
  pos : 0 < P.number
  segment : s.segment = ((Segment.trust P).exec Segment.empty).2

/-- A sync that set out has come down to the connection: to the highest place below the end of the path
that the local chain shares. -/
structure Arrived (r : Chain) (R L : List Block) (P C : Block) (k : Nat)
    (s t : SyncState ByteMap Chain π) : Prop where
  walk : Operation.exec syncToLocal s = (.ok C.header, t)
  connection : IsConnection R L P C
  shares : s.chain.Shares (pathTo R P) k
  number : C.number.toNat = min (k - 1) (P.number.toNat - 1)
  below : C.number.toNat < P.number.toNat
  lowered : Lowered Segment.empty (headersOf (R ++ L)) (pathTo R P) r C.number.toNat s t
  requested : Requested s t (P.number.toNat - C.number.toNat - 1) 0

/-- A run is complete after so many requests for headers and as many for blocks: the block is in the
canonical chain. -/
structure Completed (P : Block) (requests : Nat) (s t : SyncState ByteMap Chain π) : Prop where
  requested : Requested s t requests requests
  found : t.chain.header? P.hash = .ok (some P.header)

/-- Of the headers up to a trusted block only the last one has a body. -/
lemma unstored_of_trusted {seg : Segment ByteMap} {hs : List Header}
    (hblocks : seg.blocks = ((Segment.trust P).exec Segment.empty).2.blocks)
    (nodup : (hs.map Header.hash).Nodup) (hp : hs.getLast? = some P.header) :
    unstored seg hs = hs.length - 1 := by
  have hrows : ∀ h : Header, seg.blocks.rows[h.hash.bytes]?.isNone ↔ P.hash ≠ h.hash := by
    intro h
    have hput : seg.blocks = (Segment.empty.putBlock P).blocks := hblocks
    rw [hput, Segment.putBlock_rows]
    split_ifs with e
    · simp [Hash.ext e]
    · have hne : P.hash ≠ h.hash := fun same => e (congrArg Hash.bytes same)
      simp [hne, Segment.empty, Table.empty, KeyValue.empty]
  have hlow : ∀ h ∈ hs.dropLast, P.hash ≠ h.hash := fun h hh => Segment.hash_ne_getLast nodup hp hh
  obtain ⟨init, rfl⟩ := List.getLast?_eq_some_iff.1 hp
  rw [List.dropLast_concat] at hlow
  have hinit : unstored seg init = init.length :=
    List.countP_eq_length.2 fun h hh => (hrows h).2 (hlow h hh)
  have hlast : unstored seg [P.header] = 0 :=
    List.countP_eq_zero.2 fun h hh => by simp [hrows, List.mem_singleton.1 hh, Block.hash]
  have both : unstored seg (init ++ [P.header]) = unstored seg init + unstored seg [P.header] :=
    List.countP_append
  rw [both, hinit, hlast, List.length_append, List.length_singleton, Nat.add_sub_cancel, Nat.add_zero]

namespace SetsOut

variable (start : SetsOut r R L P s)
include start

/-- The headers of both chains are coherent. -/
lemma coherent : Coherent (headersOf (R ++ L)) :=
  start.hold.coherent start.honest start.injOn start.ne_zero

/-- The headers up to the block are a path. -/
lemma path : Path (headersOf (R ++ L)) (pathTo R P) :=
  start.honest.path (header_mem_headersOf (List.subset_append_left R L)) P

/-- By hash the two chains share headers only. -/
lemma header_eq {b : Block} (hb : b ∈ L) (hC : C ∈ R) (hhash : b.hash = C.hash) : b.header = C.header :=
  start.coherent.eq_of_hash (header_mem_headersOf (List.subset_append_right R L) b hb)
    (header_mem_headersOf (List.subset_append_left R L) C hC) hhash

/-- The path ends with the header of the block. -/
lemma getElem?_end : (pathTo R P)[P.number.toNat]? = some P.header :=
  start.honest.getElem?_path start.mem (Nat.le_refl _)

/-- The segment is the end of the path. -/
lemma on : OnPath Segment.empty (headersOf (R ++ L)) (pathTo R P) P.number.toNat P.number.toNat
    s.segment := by
  rw [start.segment]
  exact start.honest.onPath_trust (header_mem_headersOf (List.subset_append_left R L)) start.coherent
    start.mem

/-- The walk comes down to the connection. -/
lemma exists_arrived : ∃ C k t, Arrived r R L P C k s t := by
  have co := start.coherent
  have hR := header_mem_headersOf (List.subset_append_left R L)
  have hL := header_mem_headersOf (List.subset_append_right R L)
  have hsub := headersOf_mono (List.subset_append_left R L)
  obtain ⟨k, shares⟩ := start.hold.exists_shares hL start.path co start.honest.head_path
  obtain ⟨C, connection, hnum⟩ := start.hold.exists_connection start.honest (start.injOn.mono hsub)
    (fun h hh => start.ne_zero h (hsub hh)) start.mem start.pos shares
  have hpos := UInt64.lt_iff_toNat_lt.1 start.pos
  rw [UInt64.toNat_zero] at hpos
  have hC := start.honest.getElem?_path (P := P) connection.mem (by omega)
  rw [hnum] at hC
  obtain ⟨t, hwalk, lowered, requested⟩ := exec_syncToLocal_of_shares start.path co start.ne_zero start.on
    shares start.serves start.honest (fun h => Chain.Holds.mem_of_mem_path) (.inl hpos) hC
  rw [← hnum] at lowered requested
  rw [Nat.sub_right_comm] at requested
  exact ⟨C, k, t, hwalk, connection, shares, hnum, by omega, lowered, requested⟩

end SetsOut

/-! ## From the connection up -/

section

variable (start : SetsOut r R L P s) (arrived : Arrived r R L P C k s t)
include start arrived

/-- The connection is on the path at its own height. -/
lemma Arrived.getElem?_connection : (pathTo R P)[C.number.toNat]? = some C.header :=
  start.honest.getElem?_path arrived.connection.mem (Nat.le_of_lt arrived.below)

/-- The local chain has the connection. -/
lemma Arrived.header?_connection : t.chain.header? C.hash = .ok (some C.header) := by
  have hk := arrived.shares.pos
  have hnum := arrived.number
  rw [arrived.lowered.chain]
  exact arrived.shares.found (arrived.getElem?_connection start) (by omega)

/-- The connection is another block than the one at the end. -/
lemma Arrived.hash_ne : C.header.hash ≠ P.header.hash := by
  have hlt := arrived.below
  have hlen := start.honest.length_path start.mem
  exact start.path.hash_ne_last start.coherent (arrived.getElem?_connection start)
    (start.honest.getLast?_path start.mem) (by omega)

/-- All bodies above the connection but the one of the trusted block are missing. -/
lemma Arrived.unstored_eq : unstored t.segment ((pathTo R P).drop (C.number.toNat + 1)) =
    P.number.toNat - C.number.toNat - 1 := by
  have hlt := arrived.below
  have hlen := start.honest.length_path start.mem
  have nodup := (start.path.lineage.nodup_hash start.coherent start.path.known).sublist
    ((List.drop_sublist (C.number.toNat + 1) (pathTo R P)).map _)
  have hblocks : t.segment.blocks = ((Segment.trust P).exec Segment.empty).2.blocks := by
    rw [arrived.lowered.blocks, start.segment]
  have hlast : ((pathTo R P).drop (C.number.toNat + 1)).getLast? = some P.header := by
    rw [List.getLast?_drop, if_neg (by omega), start.honest.getLast?_path start.mem]
  rw [unstored_of_trusted hblocks nodup hlast, List.length_drop, hlen]
  omega

/-- What the local chain has of the end of the path it has up to the end. -/
lemma mem_iff_lt : P.hash ∈ L.map Block.hash ↔ P.number.toNat < k := by
  have hend := start.getElem?_end
  constructor
  · intro hP
    by_contra hle
    obtain ⟨b, hb, hhash⟩ := List.mem_map.1 hP
    exact start.hold.header?_eq_none_iff.1 (arrived.shares.absent hend (by omega)) b hb hhash
  · intro hlt
    obtain ⟨b, hb, -, hhash⟩ := start.hold.of_header?_eq_some (arrived.shares.found hend hlt)
    exact List.mem_map.2 ⟨b, hb, hhash⟩

/-- If the local chain has the block, there is nothing to hand over. -/
lemma exec_run_of_mem (hP : P.hash ∈ L.map Block.hash) :
    ∃ u, Operation.exec (run : SyncT Id ByteMap Chain π _) s = (.ok 0, u) ∧
      Completed P (P.number.toNat - C.number.toNat - 1) s u := by
  have hlt := arrived.below
  have hnum := arrived.number
  have hend := start.getElem?_end
  have hk := (mem_iff_lt start arrived).1 hP
  have hfound : t.chain.header? P.header.hash = .ok (some P.header) := by
    rw [arrived.lowered.chain]
    exact arrived.shares.found hend hk
  -- the connection is the parent of the block
  have hnext : P.number.toNat = C.number.toNat + 1 := by omega
  have hlen := start.honest.length_path start.mem
  rw [hnext] at hend hlen
  obtain ⟨u, hstitch, hchain, requested⟩ := exec_stitch_of_found start.coherent start.honest
    (fun h => Chain.Holds.mem_of_mem_path) (fun hash => ⟨none, Segment.blockAt_empty hash⟩)
    arrived.lowered.segment.stock arrived.lowered.serves (arrived.getElem?_connection start) hend hlen
    (arrived.hash_ne start) (arrived.header?_connection start) hfound
  rw [arrived.unstored_eq start] at requested
  refine ⟨u, ?_, ?_, ?_⟩
  · simp only [run, Operation.exec_bind, arrived.walk, hstitch]
  · simpa using arrived.requested.trans requested
  · rw [hchain]
    exact hfound

/-- The tip is the connection exactly if the local chain ends there. -/
lemma tip_eq_iff : s.chain.tip = .ok (C.number, some C.hash) ↔ L.getLast?.map Block.hash = some C.hash := by
  obtain ⟨b, hb⟩ := Option.ne_none_iff_exists'.1 (List.getLast?_eq_none_iff.not.2 start.hold.ne_nil)
  rw [(start.hold.inStep hb).tip, hb, Option.map_some, Option.some.injEq, Except.ok.injEq, Prod.mk.injEq,
    Option.some.injEq, and_iff_right_iff_imp]
  intro hhash
  have hheader := start.header_eq (List.mem_of_getLast? hb) arrived.connection.mem hhash
  exact congrArg Header.number hheader

/-- If the connection is the tip, all blocks above it are handed over. -/
lemma exec_run_of_tip (htip : s.chain.tip = .ok (C.number, some C.hash)) :
    ∃ u, Operation.exec (run : SyncT Id ByteMap Chain π _) s = (.ok (P.number - C.number), u) ∧
      Completed P (P.number.toNat - C.number.toNat - 1) s u := by
  have hlt := arrived.below
  have hR := header_mem_headersOf (List.subset_append_left R L)
  have hL := header_mem_headersOf (List.subset_append_right R L)
  rw [tip_eq_iff start arrived, Option.map_eq_some_iff] at htip
  obtain ⟨b, hb, hhash⟩ := htip
  have hheader := start.header_eq (List.mem_of_getLast? hb) arrived.connection.mem hhash
  -- the local chain is the path up to the connection
  have hall := start.hold.header_mem_path hL start.honest hR start.coherent start.ne_zero hb
    arrived.connection.mem hhash.symm (UInt64.le_iff_toNat_le.2 (Nat.le_of_lt hlt))
  have hlength : L.length = C.number.toNat + 1 := by
    have hpos := List.length_pos_of_ne_nil start.hold.ne_nil
    rw [List.getLast?_eq_getElem?] at hb
    have hnum : b.number.toNat = L.length - 1 := start.hold.number hb
    have hsame : b.number = C.number := congrArg Header.number hheader
    rw [hsame] at hnum
    omega
  have along : t.chain.Along (pathTo R P) (C.number.toNat + 1) := by
    rw [arrived.lowered.chain, ← hlength]
    exact start.hold.along start.path hall
  obtain ⟨n, u, hstitch, hn, hend, requested⟩ := exec_stitch_of_along start.coherent start.honest
    (fun h => Chain.Holds.mem_of_mem_path) (fun hash => ⟨none, Segment.blockAt_empty hash⟩) start.path
    arrived.lowered.segment.stock along arrived.lowered.serves (arrived.getElem?_connection start)
    (Nat.lt_succ_self _)
  rw [arrived.unstored_eq start] at requested
  rw [start.honest.length_path start.mem] at hn hend
  have hcount : n = P.number - C.number := by
    rw [← UInt64.toNat_inj, UInt64.toNat_sub_of_le _ _ (UInt64.le_iff_toNat_le.2 (Nat.le_of_lt hlt))]
    omega
  refine ⟨u, ?_, ?_, hend.header?_of_lt start.getElem?_end (Nat.lt_succ_self _)⟩
  · simp only [run, Operation.exec_bind, arrived.walk, hstitch, hcount]
  · simpa using arrived.requested.trans requested

/-- A local chain that does not end at the connection refuses a block right above it. -/
lemma exists_append_error {b : Block} (htip : s.chain.tip ≠ .ok (C.number, some C.hash))
    (hb : (pathTo R P)[C.number.toNat + 1]? = some b.header) : ∃ e, s.chain.append b = .error e := by
  have parent : b.header.parent = C.hash :=
    (start.path.precedes (arrived.getElem?_connection start) hb).parent
  cases happ : s.chain.append b with
  | error e => exact ⟨e, rfl⟩
  | ok c =>
    -- a block that is taken has the tip as its parent
    obtain ⟨next, -⟩ := start.hold.append_eq_ok_iff.1 happ
    obtain ⟨tip, ht⟩ :=
      Option.ne_none_iff_exists'.1 (List.getLast?_eq_none_iff.not.2 start.hold.ne_nil)
    rw [Ne, tip_eq_iff start arrived, ht, Option.map_some, Option.some.injEq] at htip
    exact absurd ((next.parent tip ht).symm.trans parent) htip

/-- If the local chain neither has the block nor ends at the connection, it refuses the next block. -/
lemma exec_run_of_fork (hP : P.hash ∉ L.map Block.hash)
    (htip : s.chain.tip ≠ .ok (C.number, some C.hash)) :
    ∃ e u, Operation.exec (run : SyncT Id ByteMap Chain π _) s = (.error (.importing e), u) ∧
      u.chain = s.chain := by
  have hlt := arrived.below
  have hnum := arrived.number
  have hpos := arrived.shares.pos
  have hle := mt (mem_iff_lt start arrived).2 hP
  have hlen := start.honest.length_path start.mem
  have hg : (pathTo R P)[C.number.toNat + 1]? = some (pathTo R P)[C.number.toNat + 1] :=
    List.getElem?_eq_getElem (by omega)
  have habsent : t.chain.header? (pathTo R P)[C.number.toNat + 1].hash = .ok none := by
    rw [arrived.lowered.chain]
    exact arrived.shares.absent hg (by omega)
  have refused : ∀ b : Block, b.header = (pathTo R P)[C.number.toNat + 1] →
      ∃ e, t.chain.append b = .error e := by
    intro b hheader
    rw [arrived.lowered.chain]
    exact exists_append_error start arrived htip (hheader ▸ hg)
  obtain ⟨e, u, hstitch, hchain⟩ := exec_stitch_of_refused start.coherent start.honest
    (fun h => Chain.Holds.mem_of_mem_path) (fun hash => ⟨none, Segment.blockAt_empty hash⟩)
    arrived.lowered.segment.stock arrived.lowered.serves (arrived.getElem?_connection start) hg
    (start.honest.getLast?_path start.mem) (arrived.hash_ne start) (arrived.header?_connection start)
    habsent refused
  refine ⟨e, u, ?_, hchain.trans arrived.lowered.chain⟩
  simp only [run, Operation.exec_bind, arrived.walk, hstitch]

end

/-- With an honest peer a sync comes down to the highest proper ancestor that the local chain has, with one
request for each header between. A run succeeds exactly if the local chain has the block or ends at that
ancestor, and hands over nothing or all blocks above the ancestor, with one request for each body between;
otherwise the local chain refuses a block and is left as it was. -/
theorem run_of_setsOut (start : SetsOut r R L P s) :
    ∃ C, IsConnection R L P C ∧
      (∃ t, Operation.exec syncToLocal s = (.ok C.header, t) ∧
        Requested s t (P.number.toNat - C.number.toNat - 1) 0) ∧
      ((∃ n t, Operation.exec run s = (.ok n, t)) ↔
        P.hash ∈ L.map Block.hash ∨ s.chain.tip = .ok (C.number, some C.hash)) ∧
      (P.hash ∈ L.map Block.hash → ∃ t, Operation.exec run s = (.ok 0, t) ∧
        Completed P (P.number.toNat - C.number.toNat - 1) s t) ∧
      (s.chain.tip = .ok (C.number, some C.hash) →
        ∃ t, Operation.exec run s = (.ok (P.number - C.number), t) ∧
          Completed P (P.number.toNat - C.number.toNat - 1) s t) ∧
      (P.hash ∉ L.map Block.hash → s.chain.tip ≠ .ok (C.number, some C.hash) →
        ∃ e t, Operation.exec run s = (.error (.importing e), t) ∧ t.chain = s.chain) := by
  obtain ⟨C, k, t, arrived⟩ := start.exists_arrived
  have mem := exec_run_of_mem start arrived
  have tip := exec_run_of_tip start arrived
  have fork := exec_run_of_fork start arrived
  refine ⟨C, arrived.connection, ⟨t, arrived.walk, arrived.requested⟩, ⟨?_, ?_⟩, mem, tip, fork⟩
  · rintro ⟨n, u, hrun⟩
    by_contra hnot
    obtain ⟨hP, htip⟩ := not_or.1 hnot
    obtain ⟨e, u', hfail, -⟩ := fork hP htip
    cases hrun.symm.trans hfail
  · rintro (hP | htip)
    · obtain ⟨u, hrun, -⟩ := mem hP
      exact ⟨_, u, hrun⟩
    · obtain ⟨u, hrun, -⟩ := tip htip
      exact ⟨_, u, hrun⟩

/-- A sync that sets out two blocks above a local chain that has only genesis. -/
def outFromSecond : SyncState ByteMap Chain ScriptedPeer where
  segment := ((Segment.trust Block.second).exec Segment.empty).2
  chain := Chain.ofBlocks [Block.genesis]
  peer := { served := BlockMap.ofBlocks [Block.genesis, Block.first, Block.second] }

/-- The sync sets out from the second block of the peer's chain. -/
lemma setsOut_second :
    SetsOut (Chain.ofBlocks [Block.genesis, Block.first, Block.second])
      [Block.genesis, Block.first, Block.second] [Block.genesis] Block.second outFromSecond := by
  have hsub : headersOf ([Block.genesis, Block.first, Block.second] ++ [Block.genesis]) ⊆
      insert Block.second.header {Block.genesis.header, Block.first.header} := by
    rintro _ ⟨b, hb, rfl⟩
    simp only [List.cons_append, List.nil_append, List.mem_cons, List.not_mem_nil, or_false] at hb
    rcases hb with rfl | rfl | rfl | rfl <;> simp
  refine ⟨Chain.holds_second, Chain.holds_genesis, Set.InjOn.mono hsub ?_, ?_,
    Peer.serves_ofBlocks Chain.holds_second, by simp, by decide, rfl⟩
  · rw [Set.injOn_insert (by decide +kernel)]
    refine ⟨coherent_first.injOn, ?_⟩
    rintro ⟨_, rfl | rfl, e⟩
    · exact Block.second_hash_ne_genesis e.symm
    · exact Block.second_hash_ne e.symm
  · intro h hh
    rcases hsub hh with rfl | hh
    · exact Block.second_hash_ne_zero
    · exact hash_ne_zero_first h hh

/-- Two blocks are handed over, with one request for a header and one for a block. -/
theorem run_of_setsOut_second :
    ∃ t, Operation.exec run outFromSecond = (.ok 2, t) ∧ Completed Block.second 1 outFromSecond t := by
  obtain ⟨C, connection, -, -, -, tip, -⟩ := run_of_setsOut setsOut_second
  have hhash : C.hash = Block.genesis.hash := List.mem_singleton.1 connection.shared
  have hgenesis : C = Block.genesis :=
    Chain.holds_second.eq_of_hash connection.mem (by simp) hhash
  rw [hgenesis] at tip
  exact tip rfl

end Sync
end ChainSync
