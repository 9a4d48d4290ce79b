import ChainSync.Merkle
import ChainSync.Proofs.Sync.Honest

/-!
# Where the blocks of a run come from

A block is identified by the hash of its header, and nothing compares its transactions with the Merkle
root in the header: a peer that is asked for a block may answer with other transactions under the same
header, and they end in the chain (`exists_handed_forged`). What holds is that nobody else gets a say.
Every block that is fetched, and every block that a run hands to the chain, is one that the peer `Sent`
when it was asked for the block of that hash (`sent_of_reached`).

The invariant is that the table of blocks holds only such blocks (`Provided`). The blocks handed over are
`handed`, as far as the operations on the way succeed; what they do to the chain is `Imports`.
-/

namespace ChainSync

namespace Peer

variable {π : Type} [Peer π Id] {p : π} {l l' : List SyncEvent} {b : Block}

/-- In the course of some events the peer has answered a request for the hash of a block with it. -/
def Sent (p : π) (log : List SyncEvent) (b : Block) : Prop :=
  ∃ before, before ++ [.block b.hash] <+: log ∧ b ∈ sentBlocks (after p before) (.block b.hash)

/-- Whatever a peer is asked, the blocks that it sends can be written. -/
def SendsSized (p : π) : Prop := ∀ log e, ∀ b ∈ sentBlocks (after p log) e, b.Sized

/-- What was sent by some events was sent by more. -/
lemma Sent.mono (sent : Sent p l b) (hpre : l <+: l') : Sent p l' b := by
  obtain ⟨before, hbefore, hb⟩ := sent
  exact ⟨before, hbefore.trans hpre, hb⟩

/-- What was sent after some events was sent in the course of all. -/
lemma Sent.after (sent : Sent (after p l) l' b) : Sent p (l ++ l') b := by
  obtain ⟨before, hbefore, hb⟩ := sent
  refine ⟨l ++ before, ?_, by rwa [after_append]⟩
  rw [List.append_assoc]
  exact (List.prefix_append_right_inj l).2 hbefore

/-- What was sent can be written. -/
lemma Sent.sized (sent : Sent p l b) (sized : SendsSized p) : b.Sized := by
  obtain ⟨before, -, hb⟩ := sent
  exact sized before _ b hb

end Peer

namespace Sync

variable {κ σ π α : Type} [Peer π Id]

/-! ## What is fetched -/

/-- What an operation returns is known by the events in its course. -/
def Tells (V : π → List SyncEvent → α → Prop) (act : SyncT Id κ σ π α) : Prop :=
  ∀ {s x t log}, Operation.exec act s = (.ok x, t) → Follows s t log → V s.peer log x

/-- What fetching with retries returns is what one of its attempts found, and is known by the events of
this attempt. -/
lemma tells_retry {hash : Hash} {attempt : SyncT Id κ σ π (Option α)} {V : π → List SyncEvent → α → Prop}
    (traced : Traced attempt) (tells : Tells (fun p log found => ∀ x, found = some x → V p log x) attempt)
    (later : ∀ p l l' x, V (Peer.after p l) l' x → V p (l ++ l') x) (left : Nat) :
    Tells V (retry hash attempt left) := by
  induction left with
  | zero =>
    rintro s x t log hexec -
    rw [retry, Operation.exec_bind, Operation.exec_get] at hexec
    cases hexec
  | succ left ih =>
    intro s x t log hexec follows
    obtain ⟨log₁, first⟩ := traced s
    rw [retry, Operation.exec_bind] at hexec
    rcases hattempt : Operation.exec attempt s with ⟨e | _ | y, u⟩ <;> rw [hattempt] at hexec first
    · cases hexec
    · -- after a failed attempt, and perhaps a pause, the value is found by the attempts that are left
      have rest : ∀ {v log₂}, Follows u v log₂ →
          Operation.exec (retry hash attempt left) v = (.ok x, t) → V s.peer log x := by
        intro v log₂ second hrest
        have retries : Traced (Sync.retry hash attempt left) := traced.retry left
        obtain ⟨log₃, third⟩ := retries v
        rw [hrest] at third
        obtain rfl := (first.trans (second.trans third)).unique follows
        have found := ih hrest third
        rw [second.peer, first.peer] at found
        exact later _ _ _ _ (later _ _ _ _ found)
      simp only at hexec
      by_cases hleft : left ≠ 0
      · simp only [hleft, ne_eq, not_false_eq_true, if_true, Operation.exec_bind,
          Operation.exec_get] at hexec
        obtain ⟨log₂, second⟩ := Traced.pause u.config.retryDelay u
        exact rest second hexec
      · simp only [hleft, if_false] at hexec
        exact rest .refl hexec
    · cases hexec
      exact tells hattempt follows x rfl

/-- The block that an attempt finds has the hash that was asked for, and the peer has sent it for this
hash. -/
lemma tells_attemptBlock (hash : Hash) :
    Tells (fun p log found => ∀ b, found = some b → b.hash = hash ∧ Peer.Sent p log b)
      (attemptBlock hash : SyncT Id κ σ π (Option Block)) := by
  intro s found t log hexec follows b hfound
  rw [attemptBlock, Operation.exec_bind, exec_askBlock] at hexec
  cases hanswer : ((Peer.block hash : StateT π Id _).run s.peer).1 with
  | error cause =>
    simp only [hanswer, Operation.exec_pure, Prod.mk.injEq, Except.ok.injEq] at hexec
    rw [hfound] at hexec
    cases hexec.1
  | ok answer =>
    simp only [hanswer, Operation.exec_pure, Prod.mk.injEq, Except.ok.injEq] at hexec
    obtain ⟨hfilter, rfl⟩ := hexec
    obtain ⟨hb, hhash⟩ := Option.filter_eq_some_iff.1 (hfilter.trans hfound)
    obtain rfl : b.hash = hash := by simpa using hhash
    obtain rfl : log = [.block b.hash] := follows.unique ⟨Array.toList_push, rfl⟩
    refine ⟨rfl, [], List.prefix_rfl, ?_⟩
    change b ∈ Peer.sentBlocks s.peer (.block b.hash)
    simp only [Peer.sentBlocks, hanswer, hb, Option.toList_some, List.mem_singleton]

/-- The block that is fetched has the hash that was asked for, and the peer has sent it for this hash. -/
lemma tells_fetchBlock (hash : Hash) :
    Tells (fun p log b => b.hash = hash ∧ Peer.Sent p log b)
      (fetchBlock hash : SyncT Id κ σ π Block) := by
  intro s b t log hexec follows
  rw [fetchBlock, Operation.exec_bind, Operation.exec_get] at hexec
  have later : ∀ (p : π) l l' b, b.hash = hash ∧ Peer.Sent (Peer.after p l) l' b →
      b.hash = hash ∧ Peer.Sent p (l ++ l') b := by
    rintro p l l' b ⟨hhash, sent⟩
    exact ⟨hhash, sent.after⟩
  exact tells_retry (V := fun p log b => b.hash = hash ∧ Peer.Sent p log b) (.attemptBlock hash)
    (tells_attemptBlock hash) later _ hexec follows

/-! ## What is handed over -/

section Handing

variable [KeyValue κ] [LocalChain σ]

/-- The block that `advance` hands over, if it gets so far. -/
def handedAt (current : Hash) (s : SyncState κ σ π) : List Block :=
  match Operation.exec (onSegment (Segment.successor? current) : SyncT Id κ σ π _) s with
  | (.ok (some next), t) =>
    match Operation.exec (bodyOf next) t with
    | (.ok b, u) =>
      match Operation.exec (localHeader? next) u with
      | (.ok none, _) => [b]
      | _ => []
    | _ => []
  | _ => []

/-- The blocks that `climbWithin` hands over. -/
def handedWithin (pivot : Hash) : (steps : Nat) → (current : Hash) → SyncState κ σ π → List Block
  | 0, _, _ => []
  | steps + 1, current, s =>
    if current = pivot then []
    else
      handedAt current s ++
        match Operation.exec (advance current) s with
        | (.ok (next, _), t) => handedWithin pivot steps next t
        | _ => []

/-- The blocks that `stitch` hands over. -/
def handedByStitch (s : SyncState κ σ π) : List Block :=
  match s.segment.anchors with
  | none => []
  | some anchors =>
    match Operation.exec (localHeader? anchors.frontier.hash) s with
    | (.ok (some _), t) =>
      handedWithin anchors.pivot.hash (s.segment.links.size + 1) anchors.frontier.hash t
    | _ => []

/-- The blocks that `run` hands over. -/
def handed (s : SyncState κ σ π) : List Block :=
  match Operation.exec syncToLocal s with
  | (.ok _, t) => handedByStitch t
  | _ => []

end Handing

section Providing

variable [LocalChain σ] {s₀ s t : SyncState ByteMap σ π} {b : Block} {bs : List Block}
  {r : Except SyncError (Hash × Bool)}

omit [LocalChain σ] in
/-- A body is the stored one, or it is fetched and stored. -/
lemma exec_bodyOf (hash : Hash) (s : SyncState ByteMap σ π) :
    Operation.exec (bodyOf hash : SyncT Id ByteMap σ π _) s =
      match s.segment.blockAt hash with
      | .error e => (.error e, s)
      | .ok (some b) => (.ok b, s)
      | .ok none =>
        match Operation.exec (fetchBlock hash : SyncT Id ByteMap σ π _)
          { s with events := s.events.push .network } with
        | (.error e, t) => (.error e, t)
        | (.ok b, t) => (.ok b, { t with segment := t.segment.putBlock b }) := by
  rw [bodyOf, Operation.exec_bind, exec_onSegment, Segment.exec_block?]
  rcases s.segment.blockAt hash with e | _ | b
  · rfl
  · simp only [Except.mapError, Operation.exec_bind, takeNetwork, exec_note]
    rcases Operation.exec (fetchBlock hash : SyncT Id ByteMap σ π _)
      { s with events := s.events.push .network } with ⟨e | b, t⟩ <;> rfl
  · rfl

/-- A way up finds the link and the body, and hands over the block that the local chain misses. -/
lemma exec_advance (current : Hash) (s : SyncState ByteMap σ π) :
    Operation.exec (advance current : SyncT Id ByteMap σ π _) s =
      match s.segment.linkAt current with
      | .error e => (.error e, s)
      | .ok none => (.error (.missingSuccessor current), s)
      | .ok (some next) =>
        match Operation.exec (bodyOf next : SyncT Id ByteMap σ π _) s with
        | (.error e, t) => (.error e, t)
        | (.ok b, t) =>
          match LocalChain.header? t.chain next with
          | .error cause => (.error (.localChain cause), t)
          | .ok (some _) => (.ok (next, false), t)
          | .ok none =>
            match LocalChain.append t.chain b with
            | .error cause =>
              (.error (.importing cause), { t with events := t.events.push (.handOver b.number) })
            | .ok c =>
              (.ok (next, true), { t with chain := c, events := t.events.push (.handOver b.number) }) := by
  rw [advance, Operation.exec_bind, exec_onSegment, Segment.exec_successor?]
  rcases s.segment.linkAt current with e | _ | next
  · rfl
  · rfl
  simp only [Except.mapError, Operation.exec_bind]
  rcases Operation.exec (bodyOf next : SyncT Id ByteMap σ π _) s with ⟨e | b, t⟩
  · rfl
  simp only [exec_localHeader?]
  rcases LocalChain.header? t.chain next with e | _ | header
  · rfl
  · simp only [Except.mapError, Operation.exec_bind, exec_handOver]
    cases LocalChain.append t.chain b <;> rfl
  · rfl

/-- What can come of `advance`: its result, the state after it and the blocks handed over. -/
inductive Advances (s : SyncState ByteMap σ π) :
    Except SyncError (Hash × Bool) → SyncState ByteMap σ π → List Block → Prop where
  /-- There is no successor to go to. -/
  | astray {e : SyncError} : Advances s (.error e) s []
  /-- The body is looked for, and nothing is handed over. -/
  | idle {next : Hash} {r' : Except SyncError Block} {r : Except SyncError (Hash × Bool)}
      {t : SyncState ByteMap σ π} : Operation.exec (bodyOf next) s = (r', t) → Advances s r t []
  | taken {next : Hash} {b : Block} {t : SyncState ByteMap σ π} {c : σ} {x : Hash × Bool} :
      Operation.exec (bodyOf next) s = (.ok b, t) → LocalChain.append t.chain b = .ok c →
      Advances s (.ok x) { t with chain := c, events := t.events.push (.handOver b.number) } [b]
  | refused {next : Hash} {b : Block} {t : SyncState ByteMap σ π} {cause : ChainError} {e : SyncError} :
      Operation.exec (bodyOf next) s = (.ok b, t) → LocalChain.append t.chain b = .error cause →
      Advances s (.error e) { t with events := t.events.push (.handOver b.number) } [b]

/-- A way up comes to one of the cases, with the block that it hands over. -/
lemma advances (current : Hash) (s : SyncState ByteMap σ π) :
    Advances s (Operation.exec (advance current) s).1 (Operation.exec (advance current) s).2
      (handedAt current s) := by
  rw [exec_advance, handedAt, exec_onSegment, Segment.exec_successor?]
  rcases s.segment.linkAt current with e | _ | next
  · exact .astray
  · exact .astray
  simp only [Except.mapError]
  rcases hbody : Operation.exec (bodyOf next) s with ⟨e | b, t⟩
  · exact .idle hbody
  simp only [exec_localHeader?]
  rcases LocalChain.header? t.chain next with e | _ | header
  · exact .idle hbody
  · simp only [Except.mapError]
    cases happend : LocalChain.append t.chain b with
    | ok c => exact .taken hbody happend
    | error cause => exact .refused hbody happend
  · exact .idle hbody

/-! ## What comes of it for the chain -/

omit [Peer π Id] in
/-- A chain takes some blocks one after the other; only the last one may be refused. -/
inductive Imports : σ → List Block → σ → Prop where
  | done {c : σ} : Imports c [] c
  | refused {c : σ} {b : Block} {cause : ChainError} :
      LocalChain.append c b = .error cause → Imports c [b] c
  | taken {c c' d : σ} {b : Block} {bs : List Block} :
      LocalChain.append c b = .ok c' → Imports c' bs d → Imports c (b :: bs) d

omit [LocalChain σ] in
/-- Looking for a body keeps what storing a block keeps. -/
lemma keeps_bodyOf {γ : Type} {f : Segment ByteMap → σ → γ}
    (hput : ∀ seg c b, f (Segment.putBlock seg b) c = f seg c) (hash : Hash) :
    Keeps f (bodyOf hash : SyncT Id ByteMap σ π _) := by
  refine Keeps.bind (.onSegment fun seg c => ?_) fun found => ?_
  · rw [Segment.exec_block?]
  · cases found with
    | some b => exact .pure _
    | none =>
      refine Keeps.takeNetwork.bind fun _ => (Keeps.fetchBlock hash).bind fun b => ?_
      exact (Keeps.onSegment fun seg c => hput seg c b).bind fun _ => .pure _

/-- Going up stores blocks and hands them over, and changes nothing else. -/
lemma keeps_advance {γ : Type} {k : Segment ByteMap → γ} (hput : ∀ seg b, k (Segment.putBlock seg b) = k seg)
    (current : Hash) : Keeps (fun seg _ => k seg) (advance current : SyncT Id ByteMap σ π _) := by
  refine Keeps.bind (.onSegment fun seg c => ?_) fun found => ?_
  · rw [Segment.exec_successor?]
  · cases found with
    | none => exact .throw _
    | some next =>
      refine (keeps_bodyOf (fun seg _ b => hput seg b) next).bind fun b =>
        (Keeps.localHeader? next).bind fun known => ?_
      cases known with
      | some header => exact .pure _
      | none =>
        refine Keeps.bind (fun s => ?_) fun _ => .pure _
        rw [exec_handOver]
        cases LocalChain.append s.chain b <;> rfl

/-- A climb keeps what storing a block keeps. -/
lemma keeps_climbWithin {γ : Type} {k : Segment ByteMap → γ}
    (hput : ∀ seg b, k (Segment.putBlock seg b) = k seg) (pivot : Hash) (steps : Nat) (current : Hash)
    (done : UInt64) :
    Keeps (fun seg _ => k seg) (climbWithin pivot steps current done : SyncT Id ByteMap σ π _) := by
  induction steps generalizing current done with
  | zero => exact .pure _
  | succ steps ih =>
    rw [climbWithin]
    by_cases hpivot : current = pivot
    · simp only [hpivot, if_true]
      exact .pure _
    · simp only [hpivot, if_false]
      exact (keeps_advance hput current).bind fun x => ih x.1 _

/-- Going up hands at most one block to the chain, and goes on only if it was taken. -/
lemma Advances.imports (adv : Advances s r t bs) {d : σ} {rest : List Block}
    (next : ∀ x, r = .ok x → Imports t.chain rest d) (stop : ∀ e, r = .error e → rest = [] ∧ t.chain = d) :
    Imports s.chain (bs ++ rest) d := by
  have kept : ∀ {next r t}, Operation.exec (bodyOf next) s = (r, t) → t.chain = s.chain := by
    intro next r t hexec
    have kept := keeps_bodyOf (f := fun _ c => c) (fun _ _ _ => rfl) next s
    rwa [hexec] at kept
  cases adv with
  | @astray e =>
    obtain ⟨rfl, rfl⟩ := stop e rfl
    exact .done
  | @idle hash r' r t hbody =>
    rw [← kept hbody]
    rcases r with e | x
    · obtain ⟨rfl, rfl⟩ := stop e rfl
      exact .done
    · exact next x rfl
  | @taken hash b t c x hbody happend =>
    rw [← kept hbody]
    exact .taken happend (next x rfl)
  | @refused hash b t cause e hbody happend =>
    obtain ⟨rfl, rfl⟩ := stop e rfl
    rw [← kept hbody]
    exact .refused happend

/-- The local chain takes the blocks that a climb hands over. -/
lemma imports_climbWithin (pivot : Hash) (steps : Nat) (current : Hash) (done : UInt64)
    (s : SyncState ByteMap σ π) :
    Imports s.chain (handedWithin pivot steps current s)
      (Operation.exec (climbWithin pivot steps current done) s).2.chain := by
  induction steps generalizing current done s with
  | zero => exact .done
  | succ steps ih =>
    rw [climbWithin, handedWithin]
    by_cases hpivot : current = pivot
    · simp only [hpivot, if_true]
      exact .done
    · simp only [hpivot, if_false, Operation.exec_bind]
      have adv := advances current s
      rcases hadvance : Operation.exec (advance current) s with ⟨e | ⟨next, handedOver⟩, t⟩ <;>
        rw [hadvance] at adv
      · exact adv.imports (by rintro _ ⟨⟩) fun _ _ => ⟨rfl, rfl⟩
      · apply adv.imports _ (by rintro _ ⟨⟩)
        rintro _ ⟨⟩
        exact ih next _ t

/-- The local chain takes the blocks that a stitch hands over. -/
lemma imports_stitch (s : SyncState ByteMap σ π) :
    Imports s.chain (handedByStitch s) (Operation.exec stitch s).2.chain := by
  simp only [stitch, stitchWithin, handedByStitch, Operation.exec_bind, Operation.exec_get]
  cases s.segment.anchors with
  | none => exact .done
  | some anchors =>
    simp only [Operation.exec_bind, exec_localHeader?]
    rcases LocalChain.header? s.chain anchors.frontier.hash with e | _ | header
    · exact .done
    · exact .done
    have imports := imports_climbWithin anchors.pivot.hash (s.segment.links.size + 1)
      anchors.frontier.hash 0 s
    simp only [Except.mapError, Operation.exec_bind]
    rcases hclimb : Operation.exec (climbWithin anchors.pivot.hash (s.segment.links.size + 1)
      anchors.frontier.hash 0) s with ⟨e | _ | count, t⟩ <;> rw [hclimb] at imports <;> exact imports

/-- A run hands its blocks to the chain one after the other, and does nothing else to it. -/
lemma imports_run (s : SyncState ByteMap σ π) :
    Imports s.chain (handed s) (Operation.exec run s).2.chain := by
  have kept := Keeps.syncToLocal (κ := ByteMap) (π := π) (f := fun _ (c : σ) => c) (fun _ _ _ => rfl)
    (fun _ _ _ => rfl) s
  rw [run, handed, Operation.exec_bind]
  rcases hsync : Operation.exec syncToLocal s with ⟨e | header, t⟩ <;> simp only [hsync] at kept <;>
    rw [← kept]
  · exact .done
  · exact imports_stitch t

/-! ## Where blocks come from -/

/-- Since a sync began with no events, the peer has sent all blocks of its table and all blocks of a set
when it was asked for them. -/
structure Provided (s₀ : SyncState ByteMap σ π) (F : Set Block) (s : SyncState ByteMap σ π) : Prop where
  follows : Follows s₀ s s.events.toList
  sent : ∀ b ∈ F, Peer.Sent s₀.peer s.events.toList b
  stored : ∀ (key : Bytes) row, s.segment.blocks.rows[key]? = some row →
    ∃ b, Peer.Sent s₀.peer s.events.toList b ∧ b.hash.bytes = key ∧ Stored.toBytes b = row

namespace Provided

variable {F G : Set Block} {hash : Hash} {log : List SyncEvent}

omit [LocalChain σ]

/-- At the beginning nothing has to have been sent. -/
lemma start (hempty : s.segment = Segment.empty) (hevents : s.events = #[]) : Provided s ∅ s where
  follows := by
    rw [hevents]
    exact ⟨by rw [hevents]; rfl, rfl⟩
  sent b hb := absurd hb (Set.notMem_empty b)
  stored := by
    intro key row hrow
    simp [hempty, Segment.empty, Table.empty, KeyValue.empty] at hrow

/-- What was provided for some blocks is so for fewer. -/
lemma mono (provided : Provided s₀ F s) (hsub : G ⊆ F) : Provided s₀ G s where
  follows := provided.follows
  sent b hb := provided.sent b (hsub hb)
  stored := provided.stored

/-- Blocks that were sent may be added. -/
lemma union (provided : Provided s₀ F s) (more : ∀ b ∈ G, Peer.Sent s₀.peer s.events.toList b) :
    Provided s₀ (F ∪ G) s where
  follows := provided.follows
  sent := by
    rintro b (hb | hb)
    · exact provided.sent b hb
    · exact more b hb
  stored := provided.stored

/-- Where no blocks are added, nothing has to be shown. -/
lemma idle (provided : Provided s₀ F s) : Provided s₀ (F ∪ {b | b ∈ []}) s :=
  provided.union (by simp)

/-- More happens, and the table of blocks stays. -/
lemma later {l : List SyncEvent} (provided : Provided s₀ F s) (follows : Follows s t l)
    (hblocks : t.segment.blocks = s.segment.blocks) : Provided s₀ F t where
  follows := by
    rw [follows.events]
    exact provided.follows.trans follows
  sent b hb := (provided.sent b hb).mono ⟨l, follows.events.symm⟩
  stored := by
    intro key row hrow
    rw [hblocks] at hrow
    obtain ⟨b, sent, hkey, hbytes⟩ := provided.stored key row hrow
    exact ⟨b, sent.mono ⟨l, follows.events.symm⟩, hkey, hbytes⟩

/-- Clearing the tables loses nothing that was sent. -/
lemma clear (provided : Provided s₀ F s) : Provided s₀ F { s with segment := Segment.empty } where
  follows := ⟨provided.follows.events, provided.follows.peer⟩
  sent := provided.sent
  stored := by
    intro key row hrow
    simp [Segment.empty, Table.empty, KeyValue.empty] at hrow

/-- A block that was sent may be stored. -/
lemma putBlock (provided : Provided s₀ F s) (hb : b ∈ F) :
    Provided s₀ F { s with segment := s.segment.putBlock b } where
  follows := ⟨provided.follows.events, provided.follows.peer⟩
  sent := provided.sent
  stored := by
    intro key row hrow
    rw [Segment.putBlock_rows] at hrow
    split_ifs at hrow with hkey
    · cases hrow
      exact ⟨b, provided.sent b hb, hkey, rfl⟩
    · exact provided.stored key row hrow

/-- A block that was sent may be trusted. -/
lemma trust (provided : Provided s₀ F s) (hb : b ∈ F) :
    Provided s₀ F (Operation.exec (onSegment (Segment.trust b) : SyncT Id ByteMap σ π _) s).2 := by
  have put := provided.putBlock hb
  have nothing : ∀ t : SyncState ByteMap σ π, t.events.toList = t.events.toList ++ [] :=
    fun t => (List.append_nil _).symm
  rw [exec_onSegment, Segment.exec_trust]
  cases s.segment.anchors with
  | none => exact put.later (l := []) ⟨nothing s, rfl⟩ rfl
  | some ends =>
    by_cases hparent : b.header.parent = ends.pivot.hash
    · simp only [hparent, if_true]
      exact put.later (l := []) ⟨nothing s, rfl⟩ rfl
    · simp only [hparent, if_false]
      exact provided

/-- The block that is found in the table is one that was sent, not only one with the same hash. -/
lemma sent_of_blockAt (provided : Provided s₀ F s) (sized : Peer.SendsSized s₀.peer)
    (hfound : s.segment.blockAt hash = .ok (some b)) : Peer.Sent s₀.peer s.events.toList b := by
  obtain ⟨⟨row, hrow, hread⟩, -⟩ := Segment.blockAt_eq_some_iff.1 hfound
  obtain ⟨b', sent, -, rfl⟩ := provided.stored _ row hrow
  rw [Block.ofBytes_toBytes (sent.sized sized)] at hread
  cases hread
  exact sent

/-- A block that is fetched was sent. -/
lemma fetchBlock (provided : Provided s₀ F s) {r : Except SyncError Block}
    (hexec : Operation.exec (fetchBlock hash) s = (r, t)) : Provided s₀ (F ∪ {b | r = .ok b}) t := by
  obtain ⟨log, follows⟩ := Traced.fetchBlock hash s
  have kept := Keeps.fetchBlock (f := fun seg _ => seg.blocks) hash s
  rw [hexec] at follows kept
  apply (provided.later follows kept).union
  rintro b rfl
  obtain ⟨-, sent⟩ := tells_fetchBlock hash hexec follows
  rw [provided.follows.peer] at sent
  rw [follows.events]
  exact sent.after

/-- A body that is found was sent, then or before. -/
lemma bodyOf (provided : Provided s₀ F s) (sized : Peer.SendsSized s₀.peer) {r : Except SyncError Block}
    (hexec : Operation.exec (bodyOf hash) s = (r, t)) : Provided s₀ (F ∪ {b | r = .ok b}) t := by
  rw [exec_bodyOf] at hexec
  rcases hfound : s.segment.blockAt hash with e | _ | b <;> rw [hfound] at hexec
  · cases hexec
    exact provided.union (by simp)
  · -- the body is fetched and stored
    let s' := { s with events := s.events.push .network }
    have took : Provided s₀ F s' := provided.later (l := [.network]) ⟨Array.toList_push, rfl⟩ rfl
    rcases hfetch : Operation.exec (Sync.fetchBlock hash) s' with ⟨e | b, u⟩ <;>
      simp only [s'] at hfetch <;> rw [hfetch] at hexec
    · cases hexec
      exact took.fetchBlock hfetch
    · cases hexec
      exact (took.fetchBlock hfetch).putBlock (.inr rfl)
  · cases hexec
    apply provided.union
    rintro _ ⟨⟩
    exact provided.sent_of_blockAt sized hfound

end Provided

/-- Going up hands over a block that was sent. -/
lemma Advances.provided {F : Set Block} (adv : Advances s r t bs) (provided : Provided s₀ F s)
    (sized : Peer.SendsSized s₀.peer) : Provided s₀ (F ∪ {b | b ∈ bs}) t := by
  have handsOver : ∀ {next b u c}, Operation.exec (bodyOf next) s = (.ok b, u) →
      Provided s₀ (F ∪ {b' | b' ∈ [b]})
        { u with chain := c, events := u.events.push (.handOver b.number) } := by
    intro next b u c hbody
    have found := (provided.bodyOf sized hbody).mono (G := F ∪ {b' | b' ∈ [b]}) (by simp)
    exact found.later (l := [.handOver b.number]) ⟨Array.toList_push, rfl⟩ rfl
  cases adv with
  | astray => exact provided.mono (by simp)
  | idle hbody => exact (provided.bodyOf sized hbody).mono (by simp)
  | taken hbody happend => exact handsOver hbody
  | refused hbody happend => exact handsOver hbody

/-- The blocks that a climb hands over were sent. -/
lemma provided_climbWithin {F : Set Block} (sized : Peer.SendsSized s₀.peer) (pivot : Hash) (steps : Nat)
    (current : Hash) (done : UInt64) (provided : Provided s₀ F s) :
    Provided s₀ (F ∪ {b | b ∈ handedWithin pivot steps current s})
      (Operation.exec (climbWithin pivot steps current done) s).2 := by
  induction steps generalizing F current done s with
  | zero => exact provided.idle
  | succ steps ih =>
    rw [climbWithin, handedWithin]
    by_cases hpivot : current = pivot
    · simp only [hpivot, if_true]
      exact provided.idle
    · simp only [hpivot, if_false, Operation.exec_bind]
      have went := (advances current s).provided provided sized
      rcases hadvance : Operation.exec (advance current) s with ⟨e | ⟨next, handedOver⟩, t⟩ <;>
        rw [hadvance] at went
      · simpa using went
      · have rest := ih next (if handedOver then done + 1 else done) went
        simpa [Set.union_assoc, Set.ofPred_or] using rest

/-- After some events that leave nothing new in the table of blocks, a run hands over what was sent. -/
lemma provided_stitch {F : Set Block} (sized : Peer.SendsSized s₀.peer) (provided : Provided s₀ F s) :
    Provided s₀ (F ∪ {b | b ∈ handedByStitch s}) (Operation.exec stitch s).2 := by
  simp only [stitch, stitchWithin, handedByStitch, Operation.exec_bind, Operation.exec_get]
  cases s.segment.anchors with
  | none => exact provided.idle
  | some anchors =>
    simp only [Operation.exec_bind, exec_localHeader?]
    rcases LocalChain.header? s.chain anchors.frontier.hash with e | _ | header
    · exact provided.idle
    · exact provided.idle
    have climbed := provided_climbWithin sized anchors.pivot.hash (s.segment.links.size + 1)
      anchors.frontier.hash 0 provided
    simp only [Except.mapError, Operation.exec_bind]
    rcases hclimb : Operation.exec (climbWithin anchors.pivot.hash (s.segment.links.size + 1)
      anchors.frontier.hash 0) s with ⟨e | _ | count, t⟩ <;> rw [hclimb] at climbed
    · exact climbed
    · exact climbed
    · exact climbed.clear

/-- The blocks that a run hands over were sent. -/
lemma provided_run {F : Set Block} (sized : Peer.SendsSized s₀.peer) (provided : Provided s₀ F s) :
    Provided s₀ (F ∪ {b | b ∈ handed s}) (Operation.exec run s).2 := by
  have kept := Keeps.syncToLocal (π := π) (f := fun seg (_ : σ) => seg.blocks)
    (fun start seg _ => Segment.blocks_restore start seg)
    (fun h seg _ => Segment.blocks_prepend h seg) s
  obtain ⟨log, follows⟩ := Traced.syncToLocal s
  rw [run, handed, Operation.exec_bind]
  rcases hsync : Operation.exec syncToLocal s with ⟨e | header, t⟩ <;> rw [hsync] at kept follows
  · exact (provided.later follows kept).idle
  · exact provided_stitch sized (provided.later follows kept)

/-! ## Sessions -/

/-- The states that are reached from one by fetching blocks, trusting what was fetched, running, and
starting over with the same tables; with the blocks that were fetched on the way. -/
inductive Reached (s₀ : SyncState ByteMap σ π) : Set Block → SyncState ByteMap σ π → Prop where
  | start : Reached s₀ ∅ s₀
  | fetch {F : Set Block} {s : SyncState ByteMap σ π} (hash : Hash) : Reached s₀ F s →
      Reached s₀ (F ∪ {b | (Operation.exec (fetchBlock hash) s).1 = .ok b})
        (Operation.exec (fetchBlock hash) s).2
  | trust {F : Set Block} {s : SyncState ByteMap σ π} {b : Block} : Reached s₀ F s → b ∈ F →
      Reached s₀ F (Operation.exec (onSegment (Segment.trust b) : SyncT Id ByteMap σ π _) s).2
  | run {F : Set Block} {s : SyncState ByteMap σ π} : Reached s₀ F s →
      Reached s₀ F (Operation.exec run s).2
  | restart {F : Set Block} {s : SyncState ByteMap σ π} : Reached s₀ F s →
      Reached s₀ F { s with segment := s.segment.detached }

/-- In a reached state the blocks of the table and those that were fetched were sent. -/
lemma Reached.provided {F : Set Block} (reached : Reached s₀ F s) (hempty : s₀.segment = Segment.empty)
    (hevents : s₀.events = #[]) (sized : Peer.SendsSized s₀.peer) : Provided s₀ F s := by
  induction reached with
  | start => exact .start hempty hevents
  | fetch hash _ ih => exact ih.fetchBlock rfl
  | trust _ hb ih => exact ih.trust hb
  | run _ ih => exact (provided_run sized ih).mono Set.subset_union_left
  | restart _ ih => exact ih.later (l := []) ⟨(List.append_nil _).symm, rfl⟩ rfl

/-- No block comes from anywhere but from the peer, when it was asked for just this block. In every state
that is reached from empty tables, a block that is fetched has the hash that was asked for and was sent for
it, and so was every block that a run hands to the chain, which changes by these blocks only. -/
theorem sent_of_reached {F : Set Block} (hempty : s₀.segment = Segment.empty) (hevents : s₀.events = #[])
    (sized : Peer.SendsSized s₀.peer) (reached : Reached s₀ F s) :
    (∀ hash b t, Operation.exec (fetchBlock hash) s = (.ok b, t) →
      b.hash = hash ∧ Peer.Sent s₀.peer t.events.toList b) ∧
    (∀ b ∈ handed s, Peer.Sent s₀.peer (Operation.exec run s).2.events.toList b) ∧
    Imports s.chain (handed s) (Operation.exec run s).2.chain := by
  have provided := reached.provided hempty hevents sized
  refine ⟨?_, ?_, imports_run s⟩
  · intro hash b t hexec
    obtain ⟨log, follows⟩ := Traced.fetchBlock hash s
    rw [hexec] at follows
    exact ⟨(tells_fetchBlock hash hexec follows).1, (provided.fetchBlock hexec).sent b (.inr rfl)⟩
  · exact fun b hb => (provided_run sized provided).sent b (.inr hb)

end Providing

/-! ## A forged body -/

/-- A sync over a chain that has only genesis, with a peer that serves one block. -/
def asking (b : Block) : SyncState ByteMap Chain ScriptedPeer where
  segment := Segment.empty
  chain := Chain.ofBlocks [Block.genesis]
  peer := { served := BlockMap.ofBlocks [b] }

/-- The same sync after it has fetched the block and trusts it. -/
def trusting (b : Block) : SyncState ByteMap Chain ScriptedPeer :=
  (Operation.exec (onSegment (Segment.trust b) : SyncT Id ByteMap Chain ScriptedPeer _)
    (Operation.exec (fetchBlock b.hash) (asking b)).2).2

/-- The served block is fetched. -/
lemma fetchBlock_asking (b : Block) :
    (Operation.exec (fetchBlock b.hash) (asking b)).1 = .ok b := by
  have hserved : (BlockMap.ofBlocks [b])[b.hash.bytes]? = some b := by
    rw [BlockMap.getElem?_ofBlocks]
    simp
  have answer : ((Peer.block b.hash : StateT ScriptedPeer Id _).run (asking b).peer).1 = .ok (some b) :=
    congrArg Except.ok hserved
  have hask := exec_askBlock (κ := ByteMap) (σ := Chain) b.hash (asking b)
  rw [answer] at hask
  rw [exec_fetchBlock_of_sent hask]

/-- The sync that trusts the block is reached. -/
lemma reached_trusting (b : Block) : ∃ F, Reached (asking b) F (trusting b) := by
  have begun : Reached (asking b) ∅ (asking b) := .start
  have fetched := begun.fetch b.hash
  exact ⟨_, fetched.trust (.inr (fetchBlock_asking b))⟩

/-- The served block can be written. -/
lemma sendsSized_asking {b : Block} (hb : b.Sized) : Peer.SendsSized (asking b).peer := by
  intro log e b' hb'
  have only : ∀ b' ∈ [b], b'.header ∈ (Set.univ : Set Header) ∧ b'.Sized := by simpa using hb
  have brings := Peer.brings_ofBlocks only (log ++ [e])
  exact ((Peer.brings_append.1 brings).2.2.1 b' hb').2

/-- A run from the first block hands over that block. -/
theorem sent_of_reached_first :
    let s := trusting Block.first
    (∀ hash b t, Operation.exec (fetchBlock hash) s = (.ok b, t) →
      b.hash = hash ∧ Peer.Sent (asking Block.first).peer t.events.toList b) ∧
    (∀ b ∈ handed s, Peer.Sent (asking Block.first).peer (Operation.exec run s).2.events.toList b) ∧
    Imports s.chain (handed s) (Operation.exec run s).2.chain := by
  obtain ⟨F, reached⟩ := reached_trusting Block.first
  exact sent_of_reached rfl rfl (sendsSized_asking (Block.sized_of_nil rfl rfl)) reached

/-- A block with the header of `first`, whose Merkle root is that of no transactions, and a transaction. -/
def forged : Block where
  header := Block.first.header
  transactions := [{ sender := "alice", receiver := "mallory", amount := 1, timestamp := 1 }]

/-- The Merkle root of a block is not checked: a peer answers a request for the block `first` with a
transaction that its header does not commit to. The block is fetched, and a run hands it to the chain. -/
theorem exists_handed_forged :
    ∃ F, Reached (asking forged) F (trusting forged) ∧ Peer.SendsSized (asking forged).peer ∧
      (Operation.exec (fetchBlock forged.hash) (asking forged)).1 = .ok forged ∧
      handed (trusting forged) = [forged] ∧
      Merkle.root forged.transactions ≠ forged.header.merkleRoot := by
  obtain ⟨F, reached⟩ := reached_trusting forged
  have sized : forged.Sized := by
    refine ⟨(Block.sized_of_nil (b := Block.first) rfl rfl).header, by simp [forged], ?_⟩
    rintro t (_ | ⟨_, ⟨⟩⟩)
    constructor <;> decide +kernel
  refine ⟨F, reached, sendsSized_asking sized, fetchBlock_asking forged, ?_, ?_⟩
  · decide +kernel
  · decide +kernel

end Sync
end ChainSync
