import ChainSync.Proofs.Sync.Resuming
import ChainSync.Proofs.Sync.Session

/-!
# Resumption after a restart

A session is stopped somewhere; its tables and the local chain are all that is left of it. A new session
that is anchored at the same block and has an honest peer goes on from there, and brings the local chain
up to the block, unless the first session stored genesis: restoring then goes on below genesis, and the
new session asks in vain for the parent of genesis (`run_resumed_iff`).
-/

namespace ChainSync.Sync

open Chain (pathTo)
open Segment (OnPath Path)

/-- A session begins over empty tables: it is anchored at a block of an honest chain, above a local chain
whose tip is the block or an ancestor of it. -/
structure Begins {π : Type} (r : Chain) (R L : List Block) (U : Set Header) (P : Block)
    (s : SyncState ByteMap Chain π) : Prop where
  honest : r.Holds R
  honest_known : ∀ b ∈ R, b.header ∈ U
  hold : s.chain.Holds L
  known : ∀ b ∈ L, b.header ∈ U
  mem : P ∈ R
  tip : ∀ t ∈ L.getLast?, ∃ b ∈ R, b.hash = t.hash ∧ b.number ≤ P.number
  segment : s.segment = ((Segment.trust P).exec Segment.empty).2

/-- A session begins over what another one left, anchored at the same block, with an honest peer. -/
structure Resumes {π π' : Type} [Peer π' Id] (r : Chain) (P : Block)
    (stopped : SyncState ByteMap Chain π) (s : SyncState ByteMap Chain π') : Prop where
  segment : s.segment = ((Segment.trust P).exec stopped.segment.detached).2
  chain : s.chain = stopped.chain
  serves : Peer.Serves r s.peer

/-- A session over empty tables that is anchored at the child of genesis; its peer serves nothing. -/
def begunFirst : SyncState ByteMap Chain ScriptedPeer where
  segment := ((Segment.trust Block.first).exec Segment.empty).2
  chain := Chain.ofBlocks [Block.genesis]
  peer := {}

/-- A session over what calls of that session left; its peer has the child of genesis. -/
def resumedFirst (calls : List SessionCall) : SyncState ByteMap Chain ScriptedPeer where
  segment := ((Segment.trust Block.first).exec (session begunFirst calls).segment.detached).2
  chain := (session begunFirst calls).chain
  peer := { served := BlockMap.ofBlocks [Block.genesis, Block.first] }

/-- The session begins from the first block, over a chain that has only genesis. -/
lemma begins_first :
    Begins (Chain.ofBlocks [Block.genesis, Block.first]) [Block.genesis, Block.first] [Block.genesis]
      {Block.genesis.header, Block.first.header} Block.first begunFirst where
  honest := Chain.holds_first
  honest_known := by
    rintro b (_ | ⟨_, _ | ⟨_, ⟨⟩⟩⟩)
    · exact .inl rfl
    · exact .inr rfl
  hold := Chain.holds_genesis
  known := by
    rintro b (_ | ⟨_, ⟨⟩⟩)
    exact .inl rfl
  mem := by simp
  tip := by
    rintro t ⟨⟩
    exact ⟨Block.genesis, by simp, rfl, by decide⟩
  segment := rfl

/-- The session is resumed with a peer that has the block. -/
lemma resumes_first (calls : List SessionCall) :
    Resumes (Chain.ofBlocks [Block.genesis, Block.first]) Block.first (session begunFirst calls)
      (resumedFirst calls) where
  segment := rfl
  chain := rfl
  serves := Peer.serves_ofBlocks Chain.holds_first

section

variable {π π' : Type} [Peer π Id] [Peer π' Id] {r : Chain} {R L : List Block} {U : Set Header}
  {P : Block} {s : SyncState ByteMap Chain π} {s' : SyncState ByteMap Chain π'}

omit [Peer π Id] in
/-- What begins is under way on the path to its block. -/
lemma Begins.underway (begins : Begins r R L U P s) (co : Coherent U)
    (hzero : ∀ h ∈ U, h.hash ≠ Hash.zero) : Underway U (pathTo R P) s.segment s.chain := by
  obtain ⟨t, ht⟩ := Option.ne_none_iff_exists'.1 (List.getLast?_eq_none_iff.not.2 begins.hold.ne_nil)
  obtain ⟨b, hb, hhash, hle⟩ := begins.tip t ht
  have hsized := begins.honest.sized P begins.mem
  have hP := begins.honest_known P begins.mem
  have hnum := (List.getElem?_eq_some_iff.1 (begins.honest.getElem?_number begins.mem)).1
  have hlt := begins.honest.length_lt
  have hlast := begins.honest.getLast?_path begins.mem
  obtain ⟨init, hinit⟩ := List.getLast?_eq_some_iff.1 hlast
  refine ⟨init.length, L, ?_, begins.hold, ?_⟩
  · rw [hinit, List.drop_left, begins.segment]
    exact Segment.stocked_trust rfl .empty hsized hP (by omega)
  · exact begins.hold.header_mem_path begins.known begins.honest begins.honest_known co hzero ht hb
      hhash hle

omit [Peer π Id] in
/-- What resumes a session under way stands on the path, over the headers that are left. -/
lemma Resumes.exists_onWay {stopped : SyncState ByteMap Chain π} (resumes : Resumes r P stopped s')
    (under : Underway U (pathTo R P) stopped.segment stopped.chain) (hold : r.Holds R)
    (hR : ∀ b ∈ R, b.header ∈ U) (hP : P ∈ R) (co : Coherent U) :
    ∃ i k, OnWay stopped.segment.detached U (pathTo R P) r i P.number.toNat k s' ∧
      ∀ hash, ∃ found, stopped.segment.detached.blockAt hash = .ok found := by
  obtain ⟨i, bs, stock, hchain, hbs⟩ := under
  have way := hold.path hR P
  have hlast := hold.getLast?_path hP
  have on := OnPath.trust way co stock hlast (hold.sized P hP)
  have hlen : (pathTo R P).length - 1 = P.number.toNat := by
    have hnum := (List.getElem?_eq_some_iff.1 (hold.getElem?_number hP)).1
    rw [List.length_map, List.length_take]
    omega
  rw [hlen, ← resumes.segment] at on
  refine ⟨min i P.number.toNat, bs.length, ⟨on, ?_, resumes.serves⟩, ?_⟩
  · rw [resumes.chain]
    exact hchain.along way hbs
  · apply stock.exists_blockAt
    exact fun hash => ⟨none, Segment.blockAt_empty hash⟩

omit [Peer π Id] in
/-- A session that resumes finds the rows that were left, but for that of its block. -/
lemma Resumes.header_row {stopped : SyncState ByteMap Chain π} (resumes : Resumes r P stopped s')
    {hash : Hash} (hne : P.hash ≠ hash) :
    s'.segment.headers.rows[hash.bytes]? = stopped.segment.headers.rows[hash.bytes]? := by
  have hheaders : s'.segment.headers = (stopped.segment.putHeader P.header).headers := by
    rw [resumes.segment]
    rfl
  rw [hheaders, Segment.putHeader_rows, if_neg]
  exact fun e => hne (Hash.ext e)

/-- Wherever a session was stopped, a new one over what it left brings the local chain up to its block,
exactly if the block is genesis or the stopped session has not stored genesis. -/
theorem run_resumed_iff {calls : List SessionCall} (co : Coherent U)
    (hzero : ∀ h ∈ U, h.hash ≠ Hash.zero) (begins : Begins r R L U P s)
    (brings : ∀ log, (session s calls).events.toList = s.events.toList ++ log →
      Peer.Brings U s.peer log)
    (resumes : Resumes r P (session s calls) s') :
    (∃ n t, Operation.exec run s' = (.ok n, t) ∧ t.chain.tip = .ok (P.number, some P.hash)) ↔
      P.number = 0 ∨
        (session s calls).segment.headers.rows[Block.genesis.hash.bytes]? = none := by
  have honest := begins.honest
  have hR := begins.honest_known
  have way := honest.path hR P
  have hlast := honest.getLast?_path begins.mem
  have under := underway_session way co hzero (begins.underway co hzero) calls brings
  obtain ⟨i, k, on, sound⟩ := resumes.exists_onWay under honest hR begins.mem co
  have hmem : ∀ h ∈ pathTo R P, ∃ b ∈ R, b.header = h := by
    intro h hh
    obtain ⟨b, hb, rfl⟩ := List.mem_map.1 hh
    exact ⟨b, List.mem_of_mem_take hb, rfl⟩
  have succeeds : 0 < i ∨ P.number.toNat = 0 → ∃ n t, Operation.exec run s' = (.ok n, t) ∧
      t.chain.tip = .ok (P.number, some P.hash) := by
    intro hi
    obtain ⟨n, t, hrun, hall⟩ := exec_run_of_onWay way co hzero on hi honest hmem sound
    have hlt := on.segment.lt
    obtain ⟨len, hlen⟩ := Nat.exists_eq_add_of_le' (Nat.zero_lt_of_lt hlt)
    rw [hlen] at hall
    refine ⟨n, t, hrun, hall.tip ?_⟩
    rwa [List.getLast?_eq_getElem?, hlen] at hlast
  have hbegin : (pathTo R P)[0]? = some Block.genesis.header := honest.head_path
  rcases Nat.eq_zero_or_pos P.number.toNat with hnum | hpos
  · have hfirst : P.number = 0 := UInt64.toNat_inj.1 hnum
    exact ⟨fun _ => .inl hfirst, fun _ => succeeds (.inr hnum)⟩
  · have hne : P.number ≠ 0 := by
      intro hfirst
      rw [hfirst, UInt64.toNat_zero] at hpos
      exact absurd hpos (Nat.lt_irrefl 0)
    have hhash : P.hash ≠ Block.genesis.hash := by
      intro e
      have same := co.eq_of_hash (hR P begins.mem) (way.known _ (List.mem_of_getElem? hbegin)) e
      exact hne (congrArg Header.number same)
    -- genesis is stored exactly if restoring comes down to the beginning of the path
    have hrow : (session s calls).segment.headers.rows[Block.genesis.hash.bytes]? = none ↔ 0 < i := by
      rw [← resumes.header_row hhash]
      exact on.segment.row_eq_none_iff way co hbegin
    constructor
    · rintro ⟨n, t, hrun, -⟩
      right
      by_contra hstored
      obtain rfl : i = 0 := Nat.eq_zero_of_not_pos (mt hrow.2 hstored)
      obtain ⟨e, u, hfail⟩ := exec_run_of_stored way co hzero on hpos honest hR
      cases hrun.symm.trans hfail
    · rintro (hfirst | hnone)
      · exact absurd hfirst hne
      · exact succeeds (.inl (hrow.1 hnone))

end

/-- A session that could not stitch is resumed: the child of genesis becomes the tip. -/
theorem run_resumed_iff_stitch :
    ∃ n t, Operation.exec run (resumedFirst [.stitch]) = (.ok n, t) ∧
      t.chain.tip = .ok (1, some Block.first.hash) := by
  have absent :
      (session begunFirst [.stitch]).segment.headers.rows[Block.genesis.hash.bytes]? = none := by
    decide +kernel
  exact (run_resumed_iff coherent_first hash_ne_zero_first begins_first
    (fun log _ => brings_of_scripted_empty _ log) (resumes_first [.stitch])).2 (.inr absent)

/-- A session that walked back to genesis is resumed in vain. -/
theorem not_run_resumed_syncToLocal :
    Begins (Chain.ofBlocks [Block.genesis, Block.first]) [Block.genesis, Block.first] [Block.genesis]
        {Block.genesis.header, Block.first.header} Block.first begunFirst ∧
      Resumes (Chain.ofBlocks [Block.genesis, Block.first]) Block.first
        (session begunFirst [.syncToLocal]) (resumedFirst [.syncToLocal]) ∧
      ∀ n t, Operation.exec run (resumedFirst [.syncToLocal]) ≠ (.ok n, t) := by
  refine ⟨begins_first, resumes_first _, ?_⟩
  intro n t hrun
  have hfail : (Operation.exec run (resumedFirst [.syncToLocal])).1 =
      .error (.maxRetriesReached Hash.zero 4) := by
    decide +kernel
  rw [hrun] at hfail
  cases hfail

end ChainSync.Sync
