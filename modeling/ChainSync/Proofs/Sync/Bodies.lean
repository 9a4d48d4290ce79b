import ChainSync.Proofs.Sync.Circling
import ChainSync.Proofs.Sync.Retrying
import ChainSync.Proofs.Sync.Stitching

/-!
# The bodies that a stitch asks for

On its way up a stitch waits for the peer where no body is stored (`Wait`), and it does so before it
looks whether the local chain has the block. What it waits for is `awaited`, and it asks for nothing
else. So it asks only for blocks that the chain misses as long as the segment has kept the bodies of
those that the chain has (`BodiesKept`). Where the segment lists known headers, this is what decides
(`stitch_asks_for_awaited`): the first body that was not kept is asked for, as nothing happens before.

A walk that is made twice goes one block further down, below blocks that the chain has and the segment
never had a body of. A peer that does not serve these makes the run fail, though all that it would hand
over is there (`asks_for_known_rewalked`).
-/

namespace ChainSync

/-! ## A block that is put -/

namespace Chain

variable {c c' : Chain} {b : Block} {hash : Hash}

/-- A block that is appended is put. -/
lemma eq_put_of_append (happend : c.append b = .ok c') : c' = c.put b := by
  simp only [append, bind, Except.bind] at happend
  cases htip : c.tip with
  | error cause =>
    rw [htip] at happend
    cases happend
  | ok tip =>
    simp only [htip] at happend
    split_ifs at happend
    exact (Except.ok.inj happend).symm

/-- A put changes what is found under the number of the block only. -/
lemma block?_put (hb : b.Sized) (n : UInt64) :
    (c.put b).block? n = if b.number = n then .ok (some b) else c.block? n := by
  rw [block?, put_blocks, Std.ExtTreeMap.getElem?_insert]
  by_cases hn : b.number = n
  · simp [hn, Block.ofBytes_toBytes hb]
  · have hkey : Bytes.be64 b.number ≠ Bytes.be64 n := fun e => hn (Bytes.be64_inj.1 e)
    rw [if_neg (by simpa using hkey), if_neg hn]
    rfl

/-- A chain has no header under a hash exactly where it has no block under it. -/
lemma header?_eq_none_iff : c.header? hash = .ok none ↔ c.blockByHash? hash = .ok none := by
  simp only [header?, bind, Except.bind]
  cases c.blockByHash? hash with
  | error cause => simp
  | ok found => cases found <;> simp [pure, Except.pure]

/-- A block that is put makes no other one known. -/
lemma header?_put_of_ne (hb : b.Sized) (hne : b.hash ≠ hash) (hnone : c.header? hash = .ok none) :
    (c.put b).header? hash = .ok none := by
  rw [header?_eq_none_iff] at hnone ⊢
  have hrow : (c.put b).index[hash.bytes]? = c.index[hash.bytes]? := by
    have hkey : b.hash.bytes ≠ hash.bytes := fun e => hne (Hash.ext e)
    rw [put_index, Std.ExtTreeMap.getElem?_insert, if_neg (by simpa using hkey)]
  rw [blockByHash?, hrow]
  rw [blockByHash?] at hnone
  cases hindex : c.index[hash.bytes]? with
  | none => rfl
  | some row =>
    simp only [hindex, bind, Except.bind] at hnone ⊢
    cases hnum : readNumber row with
    | error cause => simp [hnum] at hnone
    | ok n =>
      simp only [hnum, block?_put hb] at hnone ⊢
      -- under the number of the new block stands one with another hash now
      split_ifs with hn
      · simp [hne, pure, Except.pure]
      · exact hnone

end Chain

/-! ## Bodies that are waited for -/

/-- Whether an event hands a block to the local chain. -/
def SyncEvent.isHandOver : SyncEvent → Bool
  | .handOver _ => true
  | _ => false

namespace Sync

open Segment

/-- A body that has to be fetched: the state in which it is missing, and its hash. -/
structure Wait (π : Type) where
  state : SyncState ByteMap Chain π
  hash : Hash

variable {π α β : Type} [Peer π Id] {s t u : SyncState ByteMap Chain π} {pivot current a b hash : Hash}
  {w : Wait π} {waits waits' : List (Wait π)}

/-- How the wait ends: the network is taken, and the block is fetched. -/
def Wait.outcome (w : Wait π) : Except SyncError Block × SyncState ByteMap Chain π :=
  let fetch : SyncT Id ByteMap Chain π Block := do
    takeNetwork
    fetchBlock w.hash
  Operation.exec fetch w.state

/-- What is done until the wait ends. -/
def Wait.log (w : Wait π) : List SyncEvent :=
  w.outcome.2.events.toList.drop w.state.events.size

/-- The body that `bodyOf` waits for. -/
def awaitedBody (hash : Hash) (s : SyncState ByteMap Chain π) : List (Wait π) :=
  match s.segment.blockAt hash with
  | .ok none => [{ state := s, hash }]
  | _ => []

/-- The body that `advance` waits for. -/
def awaitedAt (current : Hash) (s : SyncState ByteMap Chain π) : List (Wait π) :=
  match s.segment.linkAt current with
  | .ok (some next) => awaitedBody next s
  | _ => []

/-- The bodies that `climbWithin` waits for. -/
def awaitedWithin (pivot : Hash) : (steps : Nat) → (current : Hash) → SyncState ByteMap Chain π →
    List (Wait π)
  | 0, _, _ => []
  | steps + 1, current, s =>
    if current = pivot then []
    else
      awaitedAt current s ++
        match Operation.exec (advance current) s with
        | (.ok (next, _), t) => awaitedWithin pivot steps next t
        | _ => []

/-- The bodies that `stitch` waits for. -/
def awaited (s : SyncState ByteMap Chain π) : List (Wait π) :=
  match Operation.exec (connection : SyncT Id ByteMap Chain π _) s with
  | (.ok ends, t) =>
    awaitedWithin ends.pivot.hash (s.segment.links.size + 1) ends.frontier.hash t
  | _ => []

/-! ## What is asked for -/

/-- From a state to the one after it, besides the blocks that are handed over, there is only what is done
for some bodies, one after the other; and only a fetch of one of these is given up. -/
structure AsksFor (s : SyncState ByteMap Chain π) (y : Except SyncError α × SyncState ByteMap Chain π)
    (waits : List (Wait π)) : Prop where
  asked : ∃ log, Follows s y.2 log ∧ log.filter (!·.isHandOver) = waits.flatMap Wait.log
  givenUp : ∀ hash n, y.1 = .error (.maxRetriesReached hash n) → ∃ w ∈ waits, w.hash = hash

/-- A wait takes the network first, and then fetches the block. -/
lemma Wait.outcome_eq (w : Wait π) :
    w.outcome = Operation.exec (fetchBlock w.hash : SyncT Id ByteMap Chain π _)
      { w.state with events := w.state.events.push .network } := rfl

/-- For a body the network is taken once and some tries are made; if they are given up, nothing else has
happened. -/
lemma Wait.exists_tries (w : Wait π) :
    (∃ n, w.log = .network :: tries (.block w.hash) w.state.config.retryDelay (n + 1)) ∧
      w.outcome.2 = w.state.having w.log ∧
      ∀ e, w.outcome.1 = .error e → e = .maxRetriesReached w.hash w.state.config.attempts := by
  have houtcome : w.outcome =
      Operation.exec (fetchBlock w.hash : SyncT Id ByteMap Chain π _) (w.state.having [.network]) := by
    rw [SyncState.having_singleton, w.outcome_eq]
    rfl
  have hlog : ∀ {log}, w.outcome.2 = w.state.having log → w.log = log := by
    intro log h
    rw [Wait.log, h, SyncState.having]
    simp
  obtain ⟨n, ⟨b, -, hends⟩ | hends⟩ :=
    (endsByMatches_fetchBlock (w.state.having [.network]) w.hash).exists_tries <;>
    rw [← houtcome, SyncState.having_having] at hends
  all_goals
    rw [hlog (congrArg Prod.snd hends), hends]
    refine ⟨⟨n, rfl⟩, rfl, ?_⟩
  · rintro e ⟨⟩
  · rintro e ⟨⟩
    rfl

namespace AsksFor

variable {y : Except SyncError α × SyncState ByteMap Chain π}

/-- What only hands blocks over asks for nothing, unless it fails for a fetch that is given up. -/
lemma nothing {r : Except SyncError α} {log : List SyncEvent} (follows : Follows s t log)
    (hlog : log.filter (!·.isHandOver) = []) (hr : ∀ hash n, r ≠ .error (.maxRetriesReached hash n)) :
    AsksFor s (r, t) [] where
  asked := ⟨log, follows, hlog⟩
  givenUp hash n h := absurd h (hr hash n)

/-- An operation that does nothing asks for no body. -/
lemma done {v : α} (follows : Follows s t []) : AsksFor s ((.ok v : Except SyncError α), t) [] := by
  apply nothing follows rfl
  rintro hash n ⟨⟩

/-- An operation that fails at once, without giving up, asks for no body. -/
lemma fails {e : SyncError} (he : ∀ hash n, e ≠ .maxRetriesReached hash n) :
    AsksFor s ((.error e : Except SyncError α), s) [] :=
  nothing .refl rfl fun hash n h => he hash n (Except.error.inj h)

/-- Two operations in a row ask for the bodies of each. -/
lemma trans {x : Except SyncError β × SyncState ByteMap Chain π} (first : AsksFor s x waits)
    (second : AsksFor x.2 y waits') : AsksFor s y (waits ++ waits') where
  asked := by
    obtain ⟨log, follows, hlog⟩ := first.asked
    obtain ⟨log', follows', hlog'⟩ := second.asked
    refine ⟨log ++ log', follows.trans follows', ?_⟩
    rw [List.filter_append, List.flatMap_append, hlog, hlog']
  givenUp hash n h := by
    obtain ⟨w, hw, hhash⟩ := second.givenUp hash n h
    exact ⟨w, List.mem_append_right _ hw, hhash⟩

/-- What a wait is for is asked for, whether it is got or given up. -/
lemma wait (w : Wait π) {r : Except SyncError α} (follows : Follows (w.state.having w.log) t [])
    (hr : ∀ hash n, r = .error (.maxRetriesReached hash n) → hash = w.hash) :
    AsksFor w.state (r, t) [w] where
  asked := by
    obtain ⟨⟨n, hlog⟩, -⟩ := w.exists_tries
    have first : Follows w.state (w.state.having w.log) w.log := ⟨by simp [SyncState.having], rfl⟩
    refine ⟨w.log ++ [], first.trans follows, ?_⟩
    rw [List.append_nil, List.flatMap_singleton, List.filter_eq_self, hlog]
    rintro e (_ | ⟨_, he⟩)
    · rfl
    · rcases mem_tries he with rfl | rfl <;> rfl
  givenUp hash n h := ⟨w, List.mem_singleton_self w, (hr hash n h).symm⟩

/-- A failure ends what it is a part of. -/
lemma error {e : SyncError} (h : AsksFor s ((.error e : Except SyncError α), t) waits) :
    AsksFor s ((.error e : Except SyncError β), t) waits where
  asked := h.asked
  givenUp hash n he := by
    cases he
    exact h.givenUp hash n rfl

end AsksFor

omit [Peer π Id] in
/-- A look-up of a body does not give up. -/
lemma ne_maxRetries_of_blockAt {seg : Segment ByteMap} {e : SyncError} (h : seg.blockAt hash = .error e) :
    ∀ hash n, e ≠ .maxRetriesReached hash n := by
  rintro hash' n rfl
  rw [blockAt, valueAt] at h
  split at h
  · cases h
  · split at h
    · cases h
    · split_ifs at h
      cases h

omit [Peer π Id] in
/-- A look-up of a link does not give up. -/
lemma ne_maxRetries_of_linkAt {seg : Segment ByteMap} {e : SyncError} (h : seg.linkAt hash = .error e) :
    ∀ hash n, e ≠ .maxRetriesReached hash n := by
  rintro hash' n rfl
  rw [linkAt] at h
  split at h
  · cases h
  · split at h <;> cases h

/-- What is waited for is stored if it is got. -/
lemma Wait.exec_bodyOf (hnone : w.state.segment.blockAt w.hash = .ok none) :
    Operation.exec (bodyOf w.hash) w.state =
      match w.outcome with
      | (.error e, t) => (.error e, t)
      | (.ok b, t) => (.ok b, { t with segment := t.segment.putBlock b }) := by
  simp only [Sync.exec_bodyOf, hnone, w.outcome_eq]
  rcases Operation.exec (fetchBlock w.hash) _ with ⟨e | b, t⟩ <;> rfl

/-- The body is asked for where it is missing. -/
lemma asksFor_bodyOf (hash : Hash) (s : SyncState ByteMap Chain π) :
    AsksFor s (Operation.exec (bodyOf hash) s) (awaitedBody hash s) := by
  rcases hfound : s.segment.blockAt hash with e | _ | b
  · simp only [exec_bodyOf, awaitedBody, hfound]
    exact .fails (ne_maxRetries_of_blockAt hfound)
  · simp only [awaitedBody, hfound]
    let w : Wait π := { state := s, hash }
    obtain ⟨-, hstate, hgivenUp⟩ := w.exists_tries
    have hexec : Operation.exec (bodyOf hash) s = _ := w.exec_bodyOf hfound
    rw [hexec]
    rcases houtcome : w.outcome with ⟨e | b, t⟩ <;> rw [houtcome] at hstate hgivenUp <;>
      obtain rfl : t = _ := hstate
    · apply AsksFor.wait w .refl
      rintro hash' n ⟨⟩
      cases hgivenUp _ rfl
      rfl
    · refine AsksFor.wait w ⟨(List.append_nil _).symm, rfl⟩ ?_
      rintro hash' n ⟨⟩
  · simp only [exec_bodyOf, awaitedBody, hfound]
    exact .done .refl

/-- One way up asks for the body of the block that the link leads to. -/
lemma asksFor_advance (current : Hash) (s : SyncState ByteMap Chain π) :
    AsksFor s (Operation.exec (advance current) s) (awaitedAt current s) := by
  rw [exec_advance, awaitedAt]
  rcases hlink : s.segment.linkAt current with e | _ | next <;> simp only
  · exact .fails (ne_maxRetries_of_linkAt hlink)
  · apply AsksFor.fails
    rintro hash n ⟨⟩
  have body := asksFor_bodyOf next s
  rcases hbody : Operation.exec (bodyOf next) s with ⟨e | b, t⟩ <;> rw [hbody] at body
  · exact body.error
  rw [← List.append_nil (awaitedBody next s)]
  apply body.trans
  simp only
  have handed : ∀ c, Follows t { t with chain := c, events := t.events.push (.handOver b.number) }
      [.handOver b.number] := fun c => ⟨Array.toList_push, rfl⟩
  rcases LocalChain.header? t.chain next with e | _ | h
  · apply AsksFor.fails
    rintro hash n ⟨⟩
  · rcases LocalChain.append t.chain b with e | c
    · apply AsksFor.nothing (handed t.chain) rfl
      rintro hash n ⟨⟩
    · apply AsksFor.nothing (handed c) rfl
      rintro hash n ⟨⟩
  · exact .done .refl

/-- A climb asks for the missing bodies on its way. -/
lemma asksFor_climbWithin (pivot : Hash) (steps : Nat) (current : Hash) (done : UInt64)
    (s : SyncState ByteMap Chain π) :
    AsksFor s (Operation.exec (climbWithin pivot steps current done) s)
      (awaitedWithin pivot steps current s) := by
  induction steps generalizing current done s with
  | zero => exact .done .refl
  | succ steps ih =>
    rw [climbWithin, awaitedWithin]
    by_cases hpivot : current = pivot
    · simp only [hpivot, if_true]
      exact .done .refl
    simp only [hpivot, if_false, Operation.exec_bind]
    have round := asksFor_advance current s
    rcases hround : Operation.exec (advance current) s with ⟨e | ⟨next, handedOver⟩, t⟩ <;>
      rw [hround] at round
    · rw [List.append_nil]
      exact round.error
    · exact round.trans (ih next _ t)

/-- The connection is found without the peer. -/
lemma asksFor_connection (s : SyncState ByteMap Chain π) :
    AsksFor s (Operation.exec connection s) [] := by
  rw [connection, Operation.exec_bind, Operation.exec_get]
  rcases hends : s.segment.anchors with _ | ends <;> simp only [hends]
  · apply AsksFor.fails (e := .emptyChain)
    rintro hash n ⟨⟩
  rw [Operation.exec_bind, exec_localHeader?]
  rcases LocalChain.header? s.chain ends.frontier.hash with e | _ | h
  · apply AsksFor.fails (e := .localChain e)
    rintro hash n ⟨⟩
  · apply AsksFor.fails (e := .notConnected ends.frontier.hash)
    rintro hash n ⟨⟩
  · exact AsksFor.done (v := ends) .refl

/-- A stitch asks for the bodies that it waits for, and for nothing else. -/
lemma asksFor_stitch (s : SyncState ByteMap Chain π) :
    AsksFor s (Operation.exec stitch s) (awaited s) := by
  simp only [stitch, Operation.exec_bind, Operation.exec_get, exec_stitchWithin, awaited]
  rcases hconnection : Operation.exec connection s with ⟨e | ends, t⟩
  · have apart := asksFor_connection s
    rw [hconnection] at apart
    exact apart.error
  obtain ⟨-, rfl⟩ := of_exec_connection hconnection
  have climb := asksFor_climbWithin ends.pivot.hash (t.segment.links.size + 1) ends.frontier.hash 0 t
  simp only
  rcases hclimb : Operation.exec (climbWithin ends.pivot.hash (t.segment.links.size + 1)
    ends.frontier.hash 0) t with ⟨e | _ | count, u⟩ <;> rw [hclimb] at climb
  · exact climb.error
  all_goals rw [← List.append_nil (awaitedWithin ..)]
  · apply climb.trans (AsksFor.fails _)
    rintro hash n ⟨⟩
  · exact climb.trans (.done ⟨(List.append_nil _).symm, rfl⟩)

/-! ## What is missing -/

omit [Peer π Id] in
/-- After a body is stored, the others are missing as before. -/
lemma blockAt_putBlock_eq_none_iff {seg : Segment ByteMap} {block : Block} :
    (seg.putBlock block).blockAt hash = .ok none ↔ block.hash ≠ hash ∧ seg.blockAt hash = .ok none := by
  simp only [blockAt, valueAt_eq_none_iff, putBlock_rows]
  split_ifs with e
  · simp [Hash.ext e]
  · have hne : block.hash ≠ hash := fun h => e (congrArg Hash.bytes h)
    simp [hne]

/-- On the way up from one state to another no body is lost, and what the chain knows in the end it knew
before, or the body is stored. -/
structure Gains (s t : SyncState ByteMap Chain π) : Prop where
  bodies : ∀ hash, t.segment.blockAt hash = .ok none → s.segment.blockAt hash = .ok none
  known : ∀ hash, t.segment.blockAt hash = .ok none → s.chain.header? hash = .ok none →
    t.chain.header? hash = .ok none

omit [Peer π Id] in
/-- Nothing is lost where nothing is done. -/
lemma Gains.refl : Gains s s := ⟨fun _ => id, fun _ _ => id⟩

omit [Peer π Id] in
/-- Nothing is lost on two ways up in a row. -/
lemma Gains.trans (h : Gains s t) (h' : Gains t u) : Gains s u where
  bodies hash hnone := h.bodies hash (h'.bodies hash hnone)
  known hash hnone habsent := h'.known hash hnone (h.known hash (h'.bodies hash hnone) habsent)

/-- Nothing is lost where a body is fetched. -/
lemma gains_bodyOf {block : Block} (hexec : Operation.exec (bodyOf b) s = (.ok block, t)) :
    Gains s t := by
  rcases of_exec_bodyOf hexec with ⟨-, rfl⟩ | ⟨-, -, -, hseg, hchain⟩
  · exact .refl
  · refine ⟨fun hash hnone => ?_, fun hash _ habsent => by rwa [hchain]⟩
    rw [hseg] at hnone
    exact (blockAt_putBlock_eq_none_iff.1 hnone).2

/-- Nothing is lost on one way up. -/
lemma gains_advance {handedOver : Bool} (sized : Peer.SendsSized s.peer)
    (hexec : Operation.exec (advance a) s = (.ok (b, handedOver), t)) : Gains s t := by
  obtain ⟨-, block, u, hbody, hseg, taken⟩ := of_exec_advance hexec
  obtain ⟨hfound, -⟩ := stored_of_bodyOf sized hbody
  obtain ⟨has, hhash⟩ := blockAt_eq_some_iff.1 hfound
  apply (gains_bodyOf hbody).trans
  refine ⟨fun hash hnone => by rwa [← hseg], ?_⟩
  intro hash hnone habsent
  rcases taken with ⟨-, hchain⟩ | ⟨-, happend⟩
  · rwa [hchain]
  · rw [Chain.eq_put_of_append happend]
    apply Chain.header?_put_of_ne has.sized _ habsent
    rintro rfl
    rw [hseg, hhash, hfound] at hnone
    cases hnone

omit [Peer π Id] in
/-- What stands above a hash depends on the links only. -/
lemma above_of_links_eq {seg seg' : Segment ByteMap} (e : seg'.links = seg.links) (n : Nat) :
    seg'.above pivot a n = seg.above pivot a n := by
  induction n with
  | zero => rfl
  | succ n ih =>
    have hup : seg'.up pivot = seg.up pivot := funext fun _ => up_of_links_eq e
    rw [Segment.above, Segment.above, ih, hup]

omit [Peer π Id] in
/-- The body that a way up waits for is that of the linked block, and it is missing. -/
lemma of_mem_awaitedAt (hw : w ∈ awaitedAt current s) :
    w.state = s ∧ s.segment.linkAt current = .ok (some w.hash) ∧
      s.segment.blockAt w.hash = .ok none := by
  rw [awaitedAt] at hw
  rcases hlink : s.segment.linkAt current with e | _ | next <;> simp only [hlink] at hw
  · cases hw
  · cases hw
  rw [awaitedBody] at hw
  rcases hnone : s.segment.blockAt next with e | _ | b <;> simp only [hnone] at hw
  · cases hw
  · rw [List.mem_singleton.1 hw]
    exact ⟨rfl, rfl, hnone⟩
  · cases hw

/-- A wait on the way up is for a hash above, in a state in which its body is missing. -/
lemma of_mem_awaitedWithin {steps : Nat} (sized : Peer.SendsSized s.peer)
    (hw : w ∈ awaitedWithin pivot steps current s) :
    w.state.segment.blockAt w.hash = .ok none ∧ Gains s w.state ∧
      ∃ n, s.segment.above pivot current (n + 1) = some w.hash := by
  induction steps generalizing current s with
  | zero => cases hw
  | succ steps ih =>
    rw [awaitedWithin] at hw
    split_ifs at hw with hpivot
    · cases hw
    rcases List.mem_append.1 hw with hw | hw
    · obtain ⟨hstate, hlink, hnone⟩ := of_mem_awaitedAt hw
      rw [hstate]
      exact ⟨hnone, .refl, 0, up_eq_some_iff.2 ⟨hpivot, hlink⟩⟩
    · rcases hround : Operation.exec (advance current) s with ⟨e | ⟨next, handedOver⟩, t⟩ <;>
        simp only [hround] at hw
      · cases hw
      obtain ⟨log, follows⟩ := Traced.advance current s
      have kept := keeps_advance (k := (·.links)) (fun _ _ => rfl) current s
      rw [hround] at follows kept
      obtain ⟨hnone, gains, n, habove⟩ := ih (sendsSized_of_follows sized follows) hw
      refine ⟨hnone, (gains_advance sized hround).trans gains, n + 1, ?_⟩
      have hup : s.segment.above pivot current 1 = some next :=
        up_eq_some_iff.2 ⟨hpivot, (of_exec_advance hround).1⟩
      rw [Nat.add_comm (n + 1), above_add hup, ← above_of_links_eq kept, habove]

/-- As long as nothing is missing for the hashes below, a stitch comes to a hash in the state in which it
begins. -/
lemma mem_awaitedWithin {n steps : Nat} (hn : n < steps)
    (familiar : ∀ i < n, ∀ a, s.segment.above pivot current (i + 1) = some a → Familiar s a)
    (habove : s.segment.above pivot current (n + 1) = some hash)
    (hnone : s.segment.blockAt hash = .ok none) :
    { state := s, hash } ∈ awaitedWithin pivot steps current s := by
  induction n generalizing current steps with
  | zero =>
    obtain ⟨steps, rfl⟩ := Nat.exists_eq_add_one.2 hn
    obtain ⟨hpivot, hlink⟩ := up_eq_some_iff.1 habove
    rw [awaitedWithin, if_neg hpivot, awaitedAt, hlink]
    simp [awaitedBody, hnone]
  | succ n ih =>
    obtain ⟨steps, rfl⟩ := Nat.exists_eq_add_one.2 (Nat.zero_lt_of_lt hn)
    have hone : s.segment.above pivot current 1 ≠ none := fun h => by
      cases (above_eq_none_of_le h (Nat.le_add_left 1 (n + 1))).symm.trans habove
    obtain ⟨a, ha⟩ := Option.ne_none_iff_exists'.1 hone
    have hup : ∀ i, s.segment.above pivot current (i + 1) = s.segment.above pivot a i := by
      intro i
      rw [Nat.add_comm, above_add ha]
    obtain ⟨hpivot, hlink⟩ := up_eq_some_iff.1 ha
    have rest := ih (Nat.lt_of_succ_lt_succ hn)
      (fun i hi b hb => familiar (i + 1) (Nat.succ_lt_succ hi) b (by rw [hup, hb]))
      (by rw [← hup, habove])
    rw [awaitedWithin, if_neg hpivot, (familiar 0 (Nat.succ_pos n) a ha).exec_advance hlink]
    exact List.mem_append_right _ rest

/-! ## When nothing is asked for that the chain has -/

/-- The local chain misses the block of the body when it is asked for. -/
def Wait.Missing (w : Wait π) : Prop := w.state.chain.header? w.hash = .ok none

/-- The segment has the bodies of all blocks above its frontier that the local chain has. -/
def BodiesKept (s : SyncState ByteMap Chain π) : Prop :=
  ∀ ends, s.segment.anchors = some ends → ∀ n hash,
    s.segment.above ends.pivot.hash ends.frontier.hash (n + 1) = some hash →
      s.segment.blockAt hash = .ok none → s.chain.header? hash = .ok none

/-- A body that a stitch waits for is missing, and belongs to a hash above the frontier. -/
lemma of_mem_awaited (sized : Peer.SendsSized s.peer) (hw : w ∈ awaited s) :
    w.state.segment.blockAt w.hash = .ok none ∧ Gains s w.state ∧
      ∃ ends n, s.segment.anchors = some ends ∧
        s.segment.above ends.pivot.hash ends.frontier.hash (n + 1) = some w.hash := by
  rw [awaited] at hw
  rcases hconnection : Operation.exec connection s with ⟨e | ends, t⟩ <;> rw [hconnection] at hw
  · cases hw
  obtain ⟨hends, rfl⟩ := of_exec_connection hconnection
  obtain ⟨hnone, gains, n, habove⟩ := of_mem_awaitedWithin sized hw
  exact ⟨hnone, gains, ends, n, hends, habove⟩

/-- Whatever the tables hold, nothing is asked for that the chain has if no body of it is missing. -/
lemma BodiesKept.missing (kept : BodiesKept s) (sized : Peer.SendsSized s.peer) (hw : w ∈ awaited s) :
    w.Missing := by
  obtain ⟨hnone, gains, ends, n, hends, habove⟩ := of_mem_awaited sized hw
  exact gains.known w.hash hnone (kept ends hends n w.hash habove (gains.bodies w.hash hnone))

/-- A segment that lists known headers, the lowest of which a valid chain has, and bodies that can be
read. -/
structure Joined (U : Set Header) (s : SyncState ByteMap Chain π) (ends : Anchors) : Prop where
  coherent : Coherent U
  nonzero : ∀ h ∈ U, h.hash ≠ Hash.zero
  anchors : s.segment.anchors = some ends
  lists : ∃ origin hs, Lists origin s.segment U hs
  chain : ∃ L, s.chain.Holds L ∧ ∀ b ∈ L, b.header ∈ U
  connected : s.chain.header? ends.frontier.hash ≠ .ok none
  readable : ∀ hash, ∃ found, s.segment.blockAt hash = .ok found

omit [Peer π Id] in
/-- The hashes above the frontier are those of the listed headers. -/
lemma above_of_lists {origin seg : Segment ByteMap} {U : Set Header} {hs : List Header} {ends : Anchors}
    (lists : Lists origin seg U hs) (co : Coherent U) (hends : seg.anchors = some ends) (n : Nat) :
    seg.above ends.pivot.hash ends.frontier.hash n = hs[n]?.map (·.hash) := by
  obtain ⟨hf, hp⟩ := lists.ends hends
  induction n with
  | zero => rw [Segment.above, ← List.head?_eq_getElem?, hf, Option.map_some]
  | succ n ih =>
    rw [Segment.above, ih]
    rcases hn : hs[n]? with _ | h
    · rw [List.getElem?_eq_none (Nat.le_succ_of_le (List.getElem?_eq_none_iff.1 hn))]
      rfl
    rw [Option.map_some, Option.bind_some]
    rw [List.getLast?_eq_getElem?] at hp
    rcases hn' : hs[n + 1]? with _ | h'
    · -- the list ends at the pivot
      have hlast : hs.length - 1 = n := by
        have hlt := (List.getElem?_eq_some_iff.1 hn).1
        have hle := List.getElem?_eq_none_iff.1 hn'
        omega
      rw [hlast, hn] at hp
      rw [Option.some.inj hp, up, if_pos rfl]
      rfl
    · have link : seg.Links h h' := rel_of_isChain lists.linked hn hn'
      refine up_eq_some_iff.2 ⟨fun e => ?_, link.linkAt_eq⟩
      have hlt := (List.getElem?_eq_some_iff.1 hn').1
      apply List.nodup_iff_getElem?_ne_getElem?.1 (lists.nodup_hash co) n (hs.length - 1) (by omega)
      · rw [List.length_map]
        omega
      · rw [List.getElem?_map, List.getElem?_map, hn, hp, Option.map_some, Option.map_some, e]

omit [Peer π Id] in
/-- A chain that has a listed header has all below it. -/
lemma Joined.exists_header? {U : Set Header} {ends : Anchors} {m n : Nat} (joined : Joined U s ends)
    (hle : m ≤ n) (ha : s.segment.above ends.pivot.hash ends.frontier.hash m = some a)
    (hb : s.segment.above ends.pivot.hash ends.frontier.hash n = some b)
    (hknown : s.chain.header? b ≠ .ok none) : ∃ h, s.chain.header? a = .ok (some h) := by
  obtain ⟨origin, hs, lists⟩ := joined.lists
  obtain ⟨L, hold, hL⟩ := joined.chain
  rw [above_of_lists lists joined.coherent joined.anchors, Option.map_eq_some_iff] at ha hb
  obtain ⟨g, hg, rfl⟩ := ha
  obtain ⟨h, hh, rfl⟩ := hb
  have hmem : h.hash ∈ L.map Block.hash := by
    by_contra hnot
    apply hknown
    rw [hold.header?_eq_none_iff]
    intro b hb e
    exact hnot (e ▸ List.mem_map_of_mem hb)
  have hlast : (hs.take (n + 1)).getLast? = some h := by
    rw [List.getLast?_take, if_neg (Nat.succ_ne_zero n), Nat.add_sub_cancel, hh]
    rfl
  have hbelow : g ∈ hs.take (n + 1) := by
    obtain ⟨hlt, rfl⟩ := List.getElem?_eq_some_iff.1 hg
    rw [List.mem_take_iff_getElem]
    exact ⟨m, by omega, rfl⟩
  have hall := mem_of_getLast?_mem joined.coherent joined.nonzero hold hL (lists.lineage.take (n + 1))
    (fun h hh => lists.known h (List.mem_of_mem_take hh)) hlast hmem
  obtain ⟨b, hb, hhash⟩ := List.mem_map.1 (hall g hbelow)
  exact ⟨b.header, hhash ▸ hold.header?_of_mem hb⟩

/-- A joined segment that waits for missing blocks only has kept the bodies of the others. -/
lemma Joined.bodiesKept {U : Set Header} {ends : Anchors} (joined : Joined U s ends)
    (hall : ∀ w ∈ awaited s, w.Missing) : BodiesKept s := by
  classical
  by_contra hnot
  -- the first hash on the way up that the chain knows and no body is stored for
  have hgap : ∃ n hash, s.segment.above ends.pivot.hash ends.frontier.hash (n + 1) = some hash ∧
      s.segment.blockAt hash = .ok none ∧ s.chain.header? hash ≠ .ok none := by
    rw [BodiesKept] at hnot
    push Not at hnot
    obtain ⟨ends', hends, gap⟩ := hnot
    cases joined.anchors.symm.trans hends
    exact gap
  obtain ⟨hash, habove, hnone, hknown⟩ := Nat.find_spec hgap
  have familiar : ∀ i < Nat.find hgap, ∀ a,
      s.segment.above ends.pivot.hash ends.frontier.hash (i + 1) = some a → Familiar s a := by
    intro i hi a ha
    obtain ⟨h, hheader⟩ := joined.exists_header? (Nat.succ_le_succ hi.le) ha habove hknown
    obtain ⟨_ | block, hblock⟩ := joined.readable a
    · exact absurd ⟨a, ha, hblock, by simp [hheader]⟩ (Nat.find_min hgap hi)
    · exact ⟨⟨block, hblock⟩, ⟨h, hheader⟩⟩
  have hlt : Nat.find hgap < s.segment.links.size + 1 := by
    obtain ⟨origin, hs, lists⟩ := joined.lists
    have hle := lists.length_le_links joined.coherent
    rw [above_of_lists lists joined.coherent joined.anchors, Option.map_eq_some_iff] at habove
    obtain ⟨h, hh, -⟩ := habove
    have hlen := (List.getElem?_eq_some_iff.1 hh).1
    omega
  have hconnection : Operation.exec (connection : SyncT Id ByteMap Chain π _) s = (.ok ends, s) := by
    obtain ⟨h, hheader⟩ := joined.exists_header? (Nat.zero_le 0) rfl rfl joined.connected
    have hlocal : LocalChain.header? s.chain ends.frontier.hash = .ok (some h) := hheader
    simp only [connection, Operation.exec_bind, Operation.exec_get, joined.anchors, exec_localHeader?,
      hlocal]
    rfl
  apply hknown
  apply hall { state := s, hash }
  rw [awaited, hconnection]
  exact mem_awaitedWithin hlt familiar habove hnone

/-- Besides the blocks that it hands over a stitch does nothing but to wait for bodies of which none is
stored. It takes the network for each of them, asks for it, and only such a fetch is given up. If the
segment has kept the bodies of the blocks that the chain has, each of these is missing in the chain, too;
and where the segment lists known headers above a block of the chain, only then. -/
theorem stitch_asks_for_awaited (sized : Peer.SendsSized s.peer) :
    AsksFor s (Operation.exec stitch s) (awaited s) ∧
    (∀ w ∈ awaited s, w.state.segment.blocks.rows[w.hash.bytes]? = none ∧
      ∃ n, w.log = .network :: tries (.block w.hash) w.state.config.retryDelay (n + 1)) ∧
    (BodiesKept s → ∀ w ∈ awaited s, w.Missing) ∧
    ∀ U ends, Joined U s ends → (∀ w ∈ awaited s, w.Missing) → BodiesKept s := by
  refine ⟨asksFor_stitch s, ?_, fun kept w hw => kept.missing sized hw,
    fun U ends joined hall => joined.bodiesKept hall⟩
  intro w hw
  exact ⟨valueAt_eq_none_iff.1 (of_mem_awaited sized hw).1, w.exists_tries.1⟩

/-- A segment from genesis to the block `second` that has only the body of `second`, over a chain that
has the block `first`. -/
def rewalked : SyncState ByteMap Chain ScriptedPeer where
  segment :=
    ((Segment.prepend Block.genesis.header).exec
      ((Segment.prepend Block.first.header).exec
        ((Segment.trust Block.second).exec Segment.empty).2).2).2
  chain := Chain.ofBlocks [Block.genesis, Block.first]
  peer := {}

/-- The headers of the small chain. -/
abbrev smallHeaders : Set Header :=
  {h | h ∈ [Block.genesis.header, Block.first.header, Block.second.header]}

/-- The segment lists the three headers of the small chain. -/
lemma stocked_rewalked :
    Stocked Segment.empty rewalked.segment smallHeaders
      [Block.genesis.header, Block.first.header, Block.second.header] := by
  have sized : ∀ b ∈ [Block.genesis, Block.first, Block.second], b.Sized := by
    simp only [List.forall_mem_cons, List.not_mem_nil, false_imp_iff, implies_true, and_true]
    exact ⟨Block.sized_of_nil rfl rfl, Block.sized_of_nil rfl rfl, Block.sized_of_nil rfl rfl⟩
  have trusted : Stocked Segment.empty ((Segment.trust Block.second).exec Segment.empty).2 smallHeaders
      [Block.second.header] :=
    stocked_trust rfl Known.empty (sized Block.second (by simp)) (by simp) (by decide)
  obtain ⟨t, hexec, stock, -⟩ := trusted.lower (h := Block.first.header) coherent_second
    (sized Block.first (by simp)).header (by simp) rfl ⟨rfl, rfl⟩
  obtain ⟨t', hexec', stock', -⟩ := stock.lower (h := Block.genesis.header) coherent_second
    (sized Block.genesis (by simp)).header (by simp) rfl ⟨rfl, rfl⟩
  rw [rewalked, hexec, hexec']
  exact stock'

/-- The segment and the chain have the small chain in common. -/
lemma joined_rewalked :
    Joined smallHeaders rewalked ⟨Block.genesis.header, Block.second.header⟩ where
  coherent := coherent_second
  nonzero := by
    rintro h hh
    simp only [Set.mem_ofPred_eq, List.mem_cons, List.not_mem_nil, or_false] at hh
    rcases hh with rfl | rfl | rfl
    · exact Block.genesis_hash_ne_zero
    · exact Block.first_hash_ne_zero
    · exact Block.second_hash_ne_zero
  anchors := by
    obtain ⟨ends, hends, hf, hp⟩ := stocked_rewalked.exists_ends rfl
    have hpivot : Block.second.header = ends.pivot := Option.some.inj hp
    rw [hends, ← hf, hpivot]
  lists := ⟨_, _, stocked_rewalked.toLists⟩
  chain := by
    refine ⟨_, Chain.holds_first, ?_⟩
    simp
  connected := by
    have hfound : rewalked.chain.header? Block.genesis.header.hash = .ok (some Block.genesis.header) :=
      Chain.holds_first.header?_of_mem (by simp)
    rw [hfound]
    nofun
  readable := stocked_rewalked.exists_blockAt fun hash => ⟨none, blockAt_empty hash⟩

/-- A body is asked for though the local chain has the block. -/
theorem stitch_asks_for_awaited_rewalked : ∃ w ∈ awaited rewalked, ¬ w.Missing := by
  have sized : Peer.SendsSized rewalked.peer := by
    intro log e b hb
    exact ((Peer.brings_append.1 (brings_of_scripted_empty Set.univ (log ++ [e]))).2.2.1 b hb).2
  obtain ⟨-, -, -, needed⟩ := stitch_asks_for_awaited sized
  by_contra hnone
  push Not at hnone
  have kept := needed _ _ joined_rewalked hnone
  have hknown := kept _ joined_rewalked.anchors 0 Block.first.hash
    (above_of_lists stocked_rewalked.toLists coherent_second joined_rewalked.anchors 1)
    (by decide +kernel)
  cases hknown.symm.trans (Chain.holds_first.header?_of_mem (b := Block.first) (by simp))

/-- Going down leaves the local chain. -/
lemma chain_syncToLocal (s : SyncState ByteMap Chain π) :
    (Operation.exec syncToLocal s).2.chain = s.chain :=
  Keeps.syncToLocal (f := fun _ (c : Chain) => c) (fun _ _ _ => rfl) (fun _ _ _ => rfl) s

/-- A segment that trusts the block `second`, over a chain that has the block `first`, without a peer
that serves anything. -/
def walking : SyncState ByteMap Chain ScriptedPeer where
  segment := ((Segment.trust Block.second).exec Segment.empty).2
  chain := Chain.ofBlocks [Block.genesis, Block.first]
  peer := {}

/-- A walk ends at the block `first`, and another one goes down to genesis. The stitch after it is given
up for want of the body of `first`, which the chain has. -/
theorem asks_for_known_rewalked :
    let s := (Operation.exec syncToLocal walking).2
    let t := (Operation.exec syncToLocal s).2
    (Operation.exec syncToLocal walking).1 = .ok Block.first.header ∧
      (Operation.exec syncToLocal s).1 = .ok Block.genesis.header ∧
      t.chain.Holds [Block.genesis, Block.first] ∧
      t.chain.header? Block.first.hash = .ok (some Block.first.header) ∧
      (Operation.exec stitch t).1 = .error (.maxRetriesReached Block.first.hash 4) := by
  dsimp only
  rw [chain_syncToLocal, chain_syncToLocal]
  refine ⟨?_, ?_, Chain.holds_first, Chain.holds_first.header?_of_mem (b := Block.first) (by simp), ?_⟩
  all_goals decide +kernel

end Sync
end ChainSync
