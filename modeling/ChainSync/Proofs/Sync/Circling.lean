import ChainSync.Proofs.Segment.Restoring
import ChainSync.Proofs.Sync.Provenance

/-!
# Stitches that go in a circle

A stitch goes up along the stored links until it comes to the pivot, and nothing but the links says where
it goes. `Stitches` is the stitch without a bound on its rounds. Where the links lead into a circle short
of the pivot (`Segment.Circles`), the first way round stores every body on it, and after it the local
chain has every block, so nothing is missing (`Familiar`) and to go round once more changes nothing. The
stitch does not end then, unless one of its first rounds fails. In all other cases it ends, after no more
rounds than there are links, or one more if that finds no successor (`stitch_ends_iff`).

The invariant on the way up is `Ascent`. Links that lead from genesis to its child and back to genesis
are all it takes (`not_stitches_circling`).
-/

namespace ChainSync

namespace Segment

variable {s t : Segment ByteMap} {pivot start a : Hash}

/-- The hash that a link leads up to: none from the pivot, and none where no link can be read. -/
def up (s : Segment ByteMap) (pivot hash : Hash) : Option Hash :=
  if hash = pivot then none
  else
    match s.linkAt hash with
    | .ok next => next
    | .error _ => none

/-- The hash some links above another one. -/
def above (s : Segment ByteMap) (pivot start : Hash) : Nat → Option Hash
  | 0 => some start
  | n + 1 => (s.above pivot start n).bind (s.up pivot)

/-- The links above the frontier come back to a hash before they come to the pivot. -/
def Circles (s : Segment ByteMap) (ends : Anchors) : Prop :=
  ∃ i j hash, i < j ∧ s.above ends.pivot.hash ends.frontier.hash i = some hash ∧
    s.above ends.pivot.hash ends.frontier.hash j = some hash

/-- A link leads up from any hash but the pivot's. -/
lemma up_eq_some_iff {b : Hash} : s.up pivot a = some b ↔ a ≠ pivot ∧ s.linkAt a = .ok (some b) := by
  unfold up
  by_cases ha : a = pivot
  · simp [ha]
  · rcases s.linkAt a with e | next <;> simp [ha]

/-- Where a hash leads depends on the links only. -/
lemma up_of_links_eq (e : t.links = s.links) : t.up pivot a = s.up pivot a := by
  simp only [up, linkAt, e]

/-- A link that leads up has a row. -/
lemma row_of_up {b : Hash} (h : s.up pivot a = some b) : s.links.rows[a.bytes]? ≠ none := by
  intro hrow
  have hlink := (up_eq_some_iff.1 h).2
  simp only [linkAt, hrow] at hlink
  cases hlink

/-- Some links above a hash are counted on from it. -/
lemma above_add {i : Nat} (h : s.above pivot start i = some a) (n : Nat) :
    s.above pivot start (i + n) = s.above pivot a n := by
  induction n with
  | zero => exact h
  | succ n ih => rw [← Nat.add_assoc, above, ih, above]

/-- Nothing stands above where the links end. -/
lemma above_eq_none_of_le {m n : Nat} (h : s.above pivot start m = none) (hle : m ≤ n) :
    s.above pivot start n = none := by
  induction hle with
  | refl => exact h
  | step _ ih => rw [above, ih, Option.bind_none]

/-- Links that circle lead on for ever. -/
lemma Circles.above_ne_none {ends : Anchors} (circles : s.Circles ends) (n : Nat) :
    s.above ends.pivot.hash ends.frontier.hash n ≠ none := by
  obtain ⟨i, j, a, hlt, hi, hj⟩ := circles
  obtain ⟨p, rfl⟩ := Nat.exists_eq_add_of_lt hlt
  have round : s.above ends.pivot.hash a (p + 1) = some a := by
    rw [← above_add hi, ← Nat.add_assoc, hj]
  have turns : ∀ k, s.above ends.pivot.hash ends.frontier.hash (i + (p + 1) * k) = some a := by
    intro k
    induction k with
    | zero => exact hi
    | succ k ih => rw [Nat.mul_succ, ← Nat.add_assoc, above_add ih, round]
  intro hnone
  have hle : n ≤ i + (p + 1) * n :=
    Nat.le_add_left_of_le (Nat.le_mul_of_pos_left n (Nat.succ_pos p))
  cases (above_eq_none_of_le hnone hle).symm.trans (turns n)

end Segment

namespace Sync

open Segment

variable {π : Type} [Peer π Id] {s t : SyncState ByteMap Chain π} {pivot a b : Hash} {done : UInt64}

/-! ## The rounds of a stitch -/

/-- Where a stitch stands: at a hash, with the number of blocks handed over so far. -/
structure Place (κ σ π : Type) where
  current : Hash
  done : UInt64
  state : SyncState κ σ π

/-- One round of a stitch: nothing at the pivot, and else the way to the next hash. What is counted are the
ways. -/
def climbRound {κ σ π : Type} [KeyValue κ] [LocalChain σ] [Peer π Id] (pivot : Hash)
    (x : Place κ σ π) : Nat × ((Except SyncError UInt64 × SyncState κ σ π) ⊕ Place κ σ π) :=
  if x.current = pivot then (0, .inl (.ok x.done, x.state))
  else
    match Operation.exec (advance x.current : SyncT Id κ σ π _) x.state with
    | (.error e, t) => (1, .inl (.error e, t))
    | (.ok (next, handedOver), t) =>
      (1, .inr { current := next, done := if handedOver then x.done + 1 else x.done, state := t })

/-- The way up to the pivot, without a bound on its rounds. -/
abbrev Climbs {κ σ π : Type} [KeyValue κ] [LocalChain σ] [Peer π Id] (pivot : Hash) :
    Place κ σ π → Nat → Except SyncError UInt64 × SyncState κ σ π → Prop :=
  Loops fun x n y => climbRound pivot x = (n, y)

/-- What a stitch does before it goes up: the local chain must have the frontier. -/
def connection {κ σ π : Type} [LocalChain σ] : SyncT Id κ σ π Anchors := do
  match (← get).segment.anchors with
  | none => throw .emptyChain
  | some anchors =>
    match ← localHeader? anchors.frontier.hash with
    | none => throw (.notConnected anchors.frontier.hash)
    | some _ => return anchors

/-- What a stitch does when it has come to the pivot. -/
def conclude {κ σ π : Type} [KeyValue κ] (count : UInt64) : SyncT Id κ σ π UInt64 := do
  onSegment Segment.clear
  return count

/-- A stitch without a bound on its rounds, with their number. -/
inductive Stitches {κ σ π : Type} [KeyValue κ] [LocalChain σ] [Peer π Id] (s : SyncState κ σ π) :
    Nat → Except SyncError UInt64 × SyncState κ σ π → Prop where
  | apart {t : SyncState κ σ π} {e : SyncError} :
    Operation.exec connection s = (.error e, t) →
    Stitches s 0 (.error e, t)
  | stopped {t u : SyncState κ σ π} {ends : Anchors} {n : Nat} {e : SyncError} :
    Operation.exec connection s = (.ok ends, t) →
    Climbs ends.pivot.hash { current := ends.frontier.hash, done := 0, state := t } n (.error e, u) →
    Stitches s n (.error e, u)
  | arrived {t u : SyncState κ σ π} {ends : Anchors} {n : Nat} {count : UInt64} :
    Operation.exec connection s = (.ok ends, t) →
    Climbs ends.pivot.hash { current := ends.frontier.hash, done := 0, state := t } n (.ok count, u) →
    Stitches s n (Operation.exec (conclude count) u)

omit [Peer π Id] in
/-- The connection is found at the ends of the segment, and nothing is changed. -/
lemma of_exec_connection {ends : Anchors}
    (hexec : Operation.exec (connection : SyncT Id ByteMap Chain π _) s = (.ok ends, t)) :
    s.segment.anchors = some ends ∧ t = s := by
  rw [connection, Operation.exec_bind, Operation.exec_get] at hexec
  rcases hends : s.segment.anchors with _ | found <;> simp only [hends] at hexec
  · cases hexec
  · rw [Operation.exec_bind, exec_localHeader?] at hexec
    rcases hknown : LocalChain.header? s.chain found.frontier.hash with e | _ | h <;>
      rw [hknown] at hexec <;> cases hexec
    exact ⟨rfl, rfl⟩

/-- A stitch with a bound makes the same rounds. -/
lemma exec_stitchWithin (steps : Nat) (s : SyncState ByteMap Chain π) :
    Operation.exec (stitchWithin steps : SyncT Id ByteMap Chain π _) s =
      match Operation.exec (connection : SyncT Id ByteMap Chain π _) s with
      | (.error e, t) => (.error e, t)
      | (.ok ends, t) =>
        match Operation.exec (climbWithin ends.pivot.hash steps ends.frontier.hash 0 :
          SyncT Id ByteMap Chain π _) t with
        | (.error e, u) => (.error e, u)
        | (.ok none, u) => (.ok none, u)
        | (.ok (some count), u) =>
          match Operation.exec (conclude count : SyncT Id ByteMap Chain π _) u with
          | (r, v) => (r.map some, v) := by
  simp only [stitchWithin, connection, Operation.exec_bind, Operation.exec_get]
  cases s.segment.anchors with
  | none => rfl
  | some ends =>
    simp only [Operation.exec_bind, exec_localHeader?]
    rcases LocalChain.header? s.chain ends.frontier.hash with e | _ | known
    · rfl
    · rfl
    simp only [Except.mapError, Operation.exec_bind, Operation.exec_pure]
    rcases Operation.exec (climbWithin ends.pivot.hash steps ends.frontier.hash 0 :
      SyncT Id ByteMap Chain π _) s with ⟨e | _ | count, u⟩ <;> rfl

/-- A round ends at the pivot, fails, or goes one way up. -/
lemma climbRound_cases (pivot : Hash) (x : Place ByteMap Chain π) :
    x.current = pivot ∧ climbRound pivot x = (0, .inl (.ok x.done, x.state)) ∨
      x.current ≠ pivot ∧
        ((∃ e t, climbRound pivot x = (1, .inl (.error e, t))) ∨
          ∃ z handedOver, climbRound pivot x = (1, .inr z) ∧
            Operation.exec (advance x.current : SyncT Id ByteMap Chain π _) x.state =
              (.ok (z.current, handedOver), z.state)) := by
  unfold climbRound
  by_cases hpivot : x.current = pivot
  · exact .inl ⟨hpivot, by rw [if_pos hpivot]⟩
  · refine .inr ⟨hpivot, ?_⟩
    rw [if_neg hpivot]
    rcases Operation.exec (advance x.current : SyncT Id ByteMap Chain π _) x.state with
      ⟨e | ⟨next, handedOver⟩, t⟩
    · exact .inl ⟨e, t, rfl⟩
    · exact .inr ⟨_, handedOver, rfl, rfl⟩

/-- The way with a bound makes the same rounds. -/
lemma exec_climbWithin_succ (steps : Nat) (x : Place ByteMap Chain π) :
    Operation.exec (climbWithin pivot (steps + 1) x.current x.done : SyncT Id ByteMap Chain π _)
        x.state =
      match climbRound pivot x with
      | (_, .inl (r, t)) => (r.map some, t)
      | (_, .inr z) => Operation.exec (climbWithin pivot steps z.current z.done) z.state := by
  rw [climbWithin, climbRound]
  by_cases hpivot : x.current = pivot
  · simp only [hpivot, if_true]
    rfl
  · simp only [hpivot, if_false, Operation.exec_bind]
    rcases Operation.exec (advance x.current : SyncT Id ByteMap Chain π _) x.state with
      ⟨e | ⟨next, handedOver⟩, t⟩ <;> rfl

/-! ## What a way up takes -/

/-- The peer sends blocks that can be written, after any requests. -/
lemma sendsSized_of_follows {log : List SyncEvent} (sized : Peer.SendsSized s.peer)
    (follows : Follows s t log) : Peer.SendsSized t.peer := by
  intro log' e b hb
  rw [follows.peer, ← Peer.after_append] at hb
  exact sized (log ++ log') e b hb

/-- What looking for a body takes: it is stored, or the peer sends it and it is stored then. -/
lemma of_exec_bodyOf {block : Block}
    (hexec : Operation.exec (bodyOf b : SyncT Id ByteMap Chain π _) s = (.ok block, t)) :
    s.segment.blockAt b = .ok (some block) ∧ t = s ∨
      s.segment.blockAt b = .ok none ∧ block.hash = b ∧ (∃ log, Peer.Sent s.peer log block) ∧
        t.segment = s.segment.putBlock block ∧ t.chain = s.chain := by
  rw [exec_bodyOf] at hexec
  rcases hfound : s.segment.blockAt b with e | _ | found <;> rw [hfound] at hexec
  · cases hexec
  · let s' := { s with events := s.events.push .network }
    obtain ⟨log, follows⟩ := Traced.fetchBlock b s'
    have kept := Keeps.fetchBlock (f := Prod.mk) b s'
    rcases hfetch : Operation.exec (fetchBlock b) s' with ⟨e | fetched, u⟩ <;>
      rw [hfetch] at hexec follows kept <;> cases hexec
    obtain ⟨hhash, sent⟩ := tells_fetchBlock b hfetch follows
    obtain ⟨hseg, hchain⟩ := Prod.mk.inj kept
    exact .inr ⟨rfl, hhash, ⟨log, sent⟩, congrArg (putBlock · block) hseg, hchain⟩
  · cases hexec
    exact .inl ⟨rfl, rfl⟩

/-- The body that is looked for is there afterwards, and so are all bodies that were there before. -/
lemma stored_of_bodyOf {block : Block} (sized : Peer.SendsSized s.peer)
    (hexec : Operation.exec (bodyOf b : SyncT Id ByteMap Chain π _) s = (.ok block, t)) :
    t.segment.blockAt b = .ok (some block) ∧
      ∀ hash kept, s.segment.blockAt hash = .ok (some kept) →
        t.segment.blockAt hash = .ok (some kept) := by
  rcases of_exec_bodyOf hexec with ⟨hfound, rfl⟩ | ⟨hnone, rfl, ⟨log, sent⟩, hseg, -⟩
  · exact ⟨hfound, fun _ _ => id⟩
  rw [hseg]
  refine ⟨blockAt_eq_some_iff.2 ⟨hasBlock_put (sent.sized sized), rfl⟩, ?_⟩
  intro hash kept hkept
  have other : block.hash ≠ hash := by
    rintro rfl
    cases hnone.symm.trans hkept
  obtain ⟨has, rfl⟩ := blockAt_eq_some_iff.1 hkept
  exact blockAt_eq_some_iff.2 ⟨has.put other, rfl⟩

/-- What going up takes: a link, a body, and a chain that has the block or takes it. -/
lemma of_exec_advance {handedOver : Bool}
    (hexec : Operation.exec (advance a : SyncT Id ByteMap Chain π _) s = (.ok (b, handedOver), t)) :
    s.segment.linkAt a = .ok (some b) ∧ ∃ block u,
      Operation.exec (bodyOf b : SyncT Id ByteMap Chain π _) s = (.ok block, u) ∧
        t.segment = u.segment ∧
        ((∃ h, u.chain.header? b = .ok (some h)) ∧ t.chain = u.chain ∨
          u.chain.header? b = .ok none ∧ u.chain.append block = .ok t.chain) := by
  rw [exec_advance] at hexec
  rcases hlink : s.segment.linkAt a with e | _ | next <;> simp only [hlink] at hexec
  · cases hexec
  · cases hexec
  rcases hbody : Operation.exec (bodyOf next) s with ⟨e | block, u⟩ <;> simp only [hbody] at hexec
  · cases hexec
  rcases hknown : LocalChain.header? u.chain next with e | _ | h <;> simp only [hknown] at hexec
  · cases hexec
  · rcases happend : LocalChain.append u.chain block with cause | c <;> rw [happend] at hexec <;>
      cases hexec
    exact ⟨rfl, block, u, hbody, rfl, .inr ⟨hknown, happend⟩⟩
  · cases hexec
    exact ⟨rfl, block, t, hbody, rfl, .inl ⟨⟨h, hknown⟩, rfl⟩⟩

/-- Nothing is missing for a hash: its body is stored, and the local chain has the block. -/
structure Familiar (s : SyncState ByteMap Chain π) (hash : Hash) : Prop where
  body : ∃ block, s.segment.blockAt hash = .ok (some block)
  known : ∃ h, s.chain.header? hash = .ok (some h)

/-- To go up to a hash for which nothing is missing changes nothing. -/
lemma Familiar.exec_advance (familiar : Familiar s b) (hlink : s.segment.linkAt a = .ok (some b)) :
    Operation.exec (advance a : SyncT Id ByteMap Chain π _) s = (.ok (b, false), s) := by
  obtain ⟨block, hbody⟩ := familiar.body
  obtain ⟨h, hknown⟩ := familiar.known
  have hlocal : LocalChain.header? s.chain b = .ok (some h) := hknown
  rw [Sync.exec_advance, hlink]
  simp only [exec_bodyOf, hbody, hlocal]

/-! ## Some rounds -/

/-- Some rounds lead from one place to another, up along the links of the hashes in the list. -/
inductive Rises (pivot : Hash) (x : Place ByteMap Chain π) : List Hash → Place ByteMap Chain π → Prop where
  | stay :
    Rises pivot x [] x
  | step {as : List Hash} {y z : Place ByteMap Chain π} :
    Rises pivot x as y → climbRound pivot y = (1, .inr z) →
    Rises pivot x (as ++ [y.current]) z

/-- A round that goes on is a way up from another hash than the pivot's. -/
lemma advance_of_climbRound {y z : Place ByteMap Chain π} (round : climbRound pivot y = (1, .inr z)) :
    y.current ≠ pivot ∧ ∃ handedOver,
      Operation.exec (advance y.current : SyncT Id ByteMap Chain π _) y.state =
        (.ok (z.current, handedOver), z.state) := by
  rcases climbRound_cases pivot y with ⟨-, h⟩ | ⟨hpivot, ⟨e, t, h⟩ | ⟨z', handedOver, h, hadvance⟩⟩ <;>
    cases h.symm.trans round
  exact ⟨hpivot, handedOver, hadvance⟩

/-- A round that leads on goes along a link, and keeps the links. -/
lemma link_of_climbRound {y z : Place ByteMap Chain π} (round : climbRound pivot y = (1, .inr z)) :
    y.state.segment.up pivot y.current = some z.current ∧
      z.state.segment.links = y.state.segment.links := by
  obtain ⟨hpivot, handedOver, hadvance⟩ := advance_of_climbRound round
  have kept := keeps_advance (σ := Chain) (π := π) (k := fun seg => seg.links) (fun _ _ => rfl) y.current
    y.state
  rw [hadvance] at kept
  exact ⟨up_eq_some_iff.2 ⟨hpivot, (of_exec_advance hadvance).1⟩, kept⟩

/-- A round that fails has found no successor, or else there is a row to go along. -/
lemma row_of_climbRound {y : Place ByteMap Chain π} {e : SyncError}
    (round : climbRound pivot y = (1, .inl (.error e, t))) :
    e = .missingSuccessor y.current ∨ y.state.segment.links.rows[y.current.bytes]? ≠ none := by
  by_cases hrow : y.state.segment.links.rows[y.current.bytes]? = none
  · have hlink : y.state.segment.linkAt y.current = .ok none := by
      simp only [linkAt, hrow]
    rw [climbRound] at round
    split_ifs at round
    · cases round
    · rw [exec_advance, hlink] at round
      cases round
      exact .inl rfl
  · exact .inr hrow

namespace Rises

variable {x y z : Place ByteMap Chain π} {as : List Hash}

/-- A round may come before some others. -/
lemma cons (round : climbRound pivot x = (1, .inr y)) (rises : Rises pivot y as z) :
    Rises pivot x (x.current :: as) z := by
  induction rises with
  | stay => exact .step .stay round
  | step _ next ih => exact .step ih next

/-- Going up leaves the links. -/
lemma links (rises : Rises pivot x as z) : z.state.segment.links = x.state.segment.links := by
  induction rises with
  | stay => rfl
  | step _ round ih => exact (link_of_climbRound round).2.trans ih

/-- The way goes through the hashes above the one where it begins. -/
lemma above (rises : Rises pivot x as z) : ∀ i a, (as ++ [z.current])[i]? = some a →
    x.state.segment.above pivot x.current i = some a := by
  induction rises with
  | stay =>
    intro i a ha
    obtain ⟨hlt, rfl⟩ := List.getElem?_eq_some_iff.1 ha
    obtain rfl : i = 0 := by simpa using hlt
    rfl
  | @step as y z rises round ih =>
    intro i a ha
    have hup := (link_of_climbRound round).1
    rw [up_of_links_eq rises.links] at hup
    rcases Nat.lt_or_ge i (as ++ [y.current]).length with hlt | hge
    · rw [List.getElem?_append_left hlt] at ha
      exact ih i a ha
    · rw [List.getElem?_append_right hge] at ha
      obtain ⟨hlt, rfl⟩ := List.getElem?_eq_some_iff.1 ha
      obtain rfl : i = as.length + 1 := by
        rw [List.length_append, List.length_singleton] at hge hlt
        rw [List.length_singleton] at hlt
        omega
      have hlast := ih as.length y.current (by simp)
      rw [Segment.above, hlast, Option.bind_some, hup]
      simp

/-- From every hash on the way the links lead to another one on the way or to where it ends. -/
lemma up (rises : Rises pivot x as z) : ∀ a ∈ as, ∃ b, z.state.segment.up pivot a = some b ∧
    (b ∈ as ∨ b = z.current) := by
  induction rises with
  | stay => exact nofun
  | @step as y z rises round ih =>
    obtain ⟨hup, hlinks⟩ := link_of_climbRound round
    intro a ha
    rw [up_of_links_eq hlinks]
    rcases List.mem_append.1 ha with ha | ha
    · obtain ⟨b, hb, hmem⟩ := ih a ha
      exact ⟨b, hb, .inl (by simpa using hmem)⟩
    · rw [List.mem_singleton.1 ha]
      exact ⟨_, hup, .inr rfl⟩

/-- Each hash that was gone up from has a link. -/
lemma rows (rises : Rises pivot x as z) :
    ∀ a ∈ as, x.state.segment.links.rows[a.bytes]? ≠ none := by
  intro a ha
  obtain ⟨b, hup, -⟩ := rises.up a ha
  rw [up_of_links_eq rises.links] at hup
  exact row_of_up hup

/-- A way through different hashes is no longer than there are links. -/
lemma length_le (rises : Rises pivot x as z) (nodup : as.Nodup) :
    as.length ≤ x.state.segment.links.size :=
  length_le_size nodup rises.rows

/-- Where a way through different hashes ends at one that links lead up from, there is another link. -/
lemma length_lt (rises : Rises pivot x as z) (nodup : (as ++ [z.current]).Nodup)
    (hrow : x.state.segment.links.rows[z.current.bytes]? ≠ none) :
    as.length < x.state.segment.links.size := by
  have has : ∀ a ∈ as ++ [z.current], x.state.segment.links.rows[a.bytes]? ≠ none := by
    intro a ha
    rcases List.mem_append.1 ha with ha | ha
    · exact rises.rows a ha
    · rwa [List.mem_singleton.1 ha]
  have hle := length_le_size nodup has
  rwa [List.length_append, List.length_singleton] at hle

/-- A way that comes to a hash twice goes along links that do. -/
lemma exists_above (rises : Rises pivot x as z) (hback : ¬ (as ++ [z.current]).Nodup) :
    ∃ i j a, i < j ∧ x.state.segment.above pivot x.current i = some a ∧
      x.state.segment.above pivot x.current j = some a := by
  rw [List.nodup_iff_getElem?_ne_getElem?] at hback
  push Not at hback
  obtain ⟨i, j, hlt, hj, e⟩ := hback
  have hget := List.getElem?_eq_getElem hj
  exact ⟨i, j, _, hlt, rises.above i _ (e.trans hget), rises.above j _ hget⟩

/-- A way that comes to a hash twice comes back to one the first time after different ones. -/
lemma exists_back (rises : Rises pivot x as z) (hback : ¬ (as ++ [z.current]).Nodup) :
    ∃ as w, Rises pivot x as w ∧ as.Nodup ∧ w.current ∈ as := by
  induction rises with
  | stay => exact absurd (List.nodup_singleton _) hback
  | @step as y z rises round ih =>
    by_cases nodup : (as ++ [y.current]).Nodup
    · refine ⟨_, z, .step rises round, nodup, ?_⟩
      by_contra hmem
      rw [← List.concat_eq_append] at hback
      exact hback (nodup.concat hmem)
    · exact ih nodup

/-- The way goes on from where some rounds have led. -/
lemma climbs_iff {n : Nat} {r : Except SyncError UInt64 × SyncState ByteMap Chain π}
    (rises : Rises pivot x as z) :
    Climbs pivot x n r ↔ ∃ m, n = as.length + m ∧ Climbs pivot z m r := by
  induction rises generalizing n with
  | stay => simp
  | @step as y z rises round ih =>
    rw [ih, List.length_append, List.length_singleton]
    constructor
    · rintro ⟨m, rfl, rest⟩
      cases rest with
      | ends last => cases round.symm.trans last
      | goesOn next rest =>
        cases round.symm.trans next
        exact ⟨_, (Nat.add_assoc ..).symm, rest⟩
    · rintro ⟨m, rfl, rest⟩
      exact ⟨1 + m, Nat.add_assoc .., .goesOn round rest⟩

end Rises

/-! ## Going round -/

/-- What carries a way up: the chain is valid and has room for some more blocks, the peer sends blocks
that can be written, and nothing is missing for the hashes that the way has gone up to. -/
structure Ascent (pivot : Hash) (room : Nat) (s : SyncState ByteMap Chain π) (as : List Hash) : Prop where
  chain : ∃ L, s.chain.Holds L ∧ L.length + room < 2 ^ 64
  peer : Peer.SendsSized s.peer
  familiar : ∀ a ∈ as, ∀ b, s.segment.up pivot a = some b → Familiar s b

/-- A chain that has a block, or takes it, has it afterwards and all blocks that it had. -/
lemma exists_holds_of_taken {L : List Block} {c c' : Chain} {block : Block} {room : Nat}
    (hold : c.Holds L) (hroom : L.length + (room + 1) < 2 ^ 64) (hsized : block.Sized)
    (taken : (∃ h, c.header? block.hash = .ok (some h)) ∧ c' = c ∨
      c.header? block.hash = .ok none ∧ c.append block = .ok c') :
    (∃ L', c'.Holds L' ∧ L'.length + room < 2 ^ 64) ∧
      (∃ h, c'.header? block.hash = .ok (some h)) ∧
      ∀ hash h, c.header? hash = .ok (some h) → c'.header? hash = .ok (some h) := by
  rcases taken with ⟨known, rfl⟩ | ⟨absent, happend⟩
  · exact ⟨⟨L, hold, by omega⟩, known, fun _ _ => id⟩
  obtain ⟨next, rfl⟩ := hold.append_eq_ok_iff.1 happend
  have hold' := hold.put next hsized (by omega) fun b hb e =>
    absurd e (hold.header?_eq_none_iff.1 absent b hb)
  refine ⟨⟨_, hold', ?_⟩, ⟨_, hold'.header?_of_mem (by simp)⟩, ?_⟩
  · rw [List.length_append, List.length_singleton]
    omega
  · intro hash h hknown
    obtain ⟨b, hb, rfl, rfl⟩ := hold.of_header?_eq_some hknown
    exact hold'.header?_of_mem (List.mem_append_left _ hb)

/-- A round takes one block of the room, and nothing is missing for the hash it comes to. -/
lemma Ascent.step {room : Nat} {as : List Hash} {y z : Place ByteMap Chain π}
    (ascent : Ascent pivot (room + 1) y.state as) (round : climbRound pivot y = (1, .inr z)) :
    Ascent pivot room z.state (as ++ [y.current]) := by
  obtain ⟨hup, hlinks⟩ := link_of_climbRound round
  obtain ⟨-, handedOver, hadvance⟩ := advance_of_climbRound round
  obtain ⟨-, block, u, hbody, hseg, taken⟩ := of_exec_advance hadvance
  obtain ⟨hfound, hstored⟩ := stored_of_bodyOf ascent.peer hbody
  obtain ⟨has, hhash⟩ := blockAt_eq_some_iff.1 hfound
  have kept := keeps_bodyOf (f := fun _ (c : Chain) => c) (fun _ _ _ => rfl) z.current y.state
  simp only [hbody] at kept
  obtain ⟨L, hold, hroom⟩ := ascent.chain
  rw [kept, ← hhash] at taken
  obtain ⟨chain, known, hstays⟩ := exists_holds_of_taken hold hroom has.sized taken
  refine ⟨chain, ?_, ?_⟩
  · obtain ⟨log, follows⟩ := Traced.advance (κ := ByteMap) (σ := Chain) (π := π) y.current y.state
    rw [hadvance] at follows
    exact sendsSized_of_follows ascent.peer follows
  · intro a ha b hb
    rw [up_of_links_eq hlinks] at hb
    rcases List.mem_append.1 ha with ha | ha
    · obtain ⟨⟨body, hbody⟩, ⟨h, hknown⟩⟩ := ascent.familiar a ha b hb
      exact ⟨⟨body, by rw [hseg, hstored b body hbody]⟩, ⟨h, hstays b h hknown⟩⟩
    · cases List.mem_singleton.1 ha
      cases hup.symm.trans hb
      exact ⟨⟨block, by rw [hseg, hfound]⟩, by rwa [← hhash]⟩

/-- Nothing is missing for the hashes that some rounds have gone up to. -/
lemma Rises.ascent {room : Nat} {as : List Hash} {x z : Place ByteMap Chain π}
    (rises : Rises pivot x as z) (begun : Ascent pivot (room + as.length) x.state []) :
    Ascent pivot room z.state as := by
  induction rises generalizing room with
  | stay => exact begun
  | @step as y z _ round ih =>
    have hroom : room + (as ++ [y.current]).length = room + 1 + as.length := by
      rw [List.length_append, List.length_singleton]
      omega
    rw [hroom] at begun
    exact (ih begun).step round

/-- Where links lead in a circle and nothing is missing on it, a way up does not end. -/
lemma not_climbs_of_familiar {as : List Hash}
    (circle : ∀ a ∈ as, ∃ b ∈ as, s.segment.up pivot a = some b ∧ Familiar s b) {n : Nat}
    {x : Place ByteMap Chain π} {r : Except SyncError UInt64 × SyncState ByteMap Chain π}
    (hstate : x.state = s) (hcurrent : x.current ∈ as) : ¬ Climbs pivot x n r := by
  intro climbs
  -- each round comes to another hash of the circle, in the same state
  have round : ∀ {x : Place ByteMap Chain π} {n z}, x.state = s → x.current ∈ as →
      climbRound pivot x = (n, z) → ∃ w : Place ByteMap Chain π, z = .inr w ∧ w.state = s ∧
        w.current ∈ as := by
    intro x n z hstate hcurrent hround
    obtain ⟨b, hb, hup, familiar⟩ := circle x.current hcurrent
    obtain ⟨hpivot, hlink⟩ := up_eq_some_iff.1 hup
    rw [climbRound, if_neg hpivot, hstate, familiar.exec_advance hlink] at hround
    cases hround
    exact ⟨_, rfl, rfl, hb⟩
  induction climbs with
  | ends last =>
    obtain ⟨w, h, -⟩ := round hstate hcurrent last
    cases h
  | goesOn next rest ih =>
    obtain ⟨w, h, hw, hmem⟩ := round hstate hcurrent next
    cases h
    exact ih hw hmem

section Bounding

variable {x z : Place ByteMap Chain π} {as : List Hash} {n : Nat} {r : Except SyncError UInt64}

/-- A way that comes to a hash twice does not end. -/
lemma Rises.not_climbs (rises : Rises pivot x as z)
    (begun : Ascent pivot x.state.segment.links.size x.state []) (hback : ¬ (as ++ [z.current]).Nodup) :
    ¬ Climbs pivot x n (r, t) := by
  obtain ⟨cs, w, rises, nodup, hmem⟩ := rises.exists_back hback
  have hle := rises.length_le nodup
  have ascent : Ascent pivot (x.state.segment.links.size - cs.length) w.state cs :=
    rises.ascent (by rwa [Nat.sub_add_cancel hle])
  intro climbs
  obtain ⟨m, -, rest⟩ := rises.climbs_iff.1 climbs
  apply not_climbs_of_familiar _ rfl hmem rest
  intro a ha
  obtain ⟨b, hup, hb⟩ := rises.up a ha
  refine ⟨b, ?_, hup, ascent.familiar a ha b hup⟩
  rcases hb with hb | rfl
  · exact hb
  · exact hmem

/-- A way up that ends is some rounds that lead on and a last one. -/
lemma Climbs.exists_rises {y : Except SyncError UInt64 × SyncState ByteMap Chain π}
    (climbs : Climbs pivot x n y) :
    ∃ as z m, Rises pivot x as z ∧ climbRound pivot z = (m, .inl y) ∧ n = as.length + m := by
  induction climbs with
  | ends last => exact ⟨[], _, _, .stay, last, (Nat.zero_add _).symm⟩
  | @goesOn x _ _ _ _ next rest ih =>
    obtain ⟨as, z, m, rises, last, rfl⟩ := ih
    rcases climbRound_cases pivot x with ⟨-, h⟩ | ⟨-, ⟨e, t, h⟩ | ⟨w, handedOver, h, -⟩⟩ <;>
      cases h.symm.trans next
    refine ⟨_, z, m, rises.cons h, last, ?_⟩
    rw [List.length_cons]
    omega

/-- A way up that ends goes through different hashes. -/
lemma Climbs.exists_nodup {y : Except SyncError UInt64 × SyncState ByteMap Chain π}
    (climbs : Climbs pivot x n y) (begun : Ascent pivot x.state.segment.links.size x.state []) :
    ∃ as z m, Rises pivot x as z ∧ (as ++ [z.current]).Nodup ∧ climbRound pivot z = (m, .inl y) ∧
      n = as.length + m := by
  obtain ⟨as, z, m, rises, last, hn⟩ := climbs.exists_rises
  refine ⟨as, z, m, rises, ?_, last, hn⟩
  by_contra hback
  exact rises.not_climbs begun hback climbs

/-- A way up that ends goes along different links; only one that finds no successor makes one more round
than there are links. -/
lemma Climbs.le_size (climbs : Climbs pivot x n (r, t))
    (begun : Ascent pivot x.state.segment.links.size x.state []) :
    n ≤ x.state.segment.links.size ∨
      n = x.state.segment.links.size + 1 ∧ ∃ hash, r = .error (.missingSuccessor hash) := by
  obtain ⟨as, z, m, rises, nodup, last, rfl⟩ := climbs.exists_nodup begun
  have hle := rises.length_le (List.nodup_append.1 nodup).1
  rcases climbRound_cases pivot z with ⟨-, h⟩ | ⟨-, ⟨e, u, h⟩ | ⟨w, handedOver, h, -⟩⟩ <;>
    cases h.symm.trans last
  · exact .inl hle
  · rcases row_of_climbRound h with rfl | hrow
    · rcases Nat.lt_or_ge as.length x.state.segment.links.size with hlt | hge
      · exact .inl hlt
      · exact .inr ⟨by omega, _, rfl⟩
    · rw [rises.links] at hrow
      exact .inl (rises.length_lt nodup hrow)

/-- So many rounds suffice for a way up that ends after them. -/
lemma Climbs.exec_climbWithin {steps : Nat} {y : Except SyncError UInt64 × SyncState ByteMap Chain π}
    (climbs : Climbs pivot x n y) (hle : n ≤ steps) :
    Operation.exec (climbWithin pivot steps x.current x.done : SyncT Id ByteMap Chain π _) x.state =
      (y.1.map some, y.2) := by
  induction climbs generalizing steps with
  | @ends x n y last =>
    cases steps with
    | succ steps => rw [exec_climbWithin_succ, last]
    | zero =>
      rcases climbRound_cases pivot x with ⟨hpivot, h⟩ | ⟨-, ⟨e, t, h⟩ | ⟨w, handedOver, h, -⟩⟩ <;>
        cases h.symm.trans last
      · rw [climbWithin, if_pos hpivot]
        rfl
      · omega
  | @goesOn x z _ _ y next rest ih =>
    rcases climbRound_cases pivot x with ⟨-, h⟩ | ⟨-, ⟨e, t, h⟩ | ⟨w, handedOver, h, -⟩⟩ <;>
      cases h.symm.trans next
    obtain ⟨steps, rfl⟩ := Nat.exists_eq_add_of_le' (Nat.le_of_add_right_le hle)
    rw [exec_climbWithin_succ, h]
    exact ih (by omega)

/-- A way up ends within so many rounds, or it has made them and stands short of the pivot. -/
lemma climbs_or_rises (steps : Nat) (x : Place ByteMap Chain π) :
    (∃ n y, Climbs pivot x n y) ∨
      ∃ as z, Rises pivot x as z ∧ as.length = steps ∧ z.current ≠ pivot ∧
        Operation.exec (climbWithin pivot steps x.current x.done : SyncT Id ByteMap Chain π _) x.state =
          (.ok none, z.state) := by
  induction steps generalizing x with
  | zero =>
    by_cases hpivot : x.current = pivot
    · exact .inl ⟨0, _, .ends (by rw [climbRound, if_pos hpivot])⟩
    · refine .inr ⟨[], x, .stay, rfl, hpivot, ?_⟩
      rw [climbWithin, if_neg hpivot]
      rfl
  | succ steps ih =>
    rw [exec_climbWithin_succ]
    rcases climbRound_cases pivot x with ⟨-, h⟩ | ⟨-, ⟨e, t, h⟩ | ⟨z, handedOver, h, -⟩⟩
    · exact .inl ⟨0, _, .ends h⟩
    · exact .inl ⟨1, _, .ends h⟩
    · rcases ih z with ⟨n, y, climbs⟩ | ⟨as, w, rises, hlen, hpivot, hexec⟩
      · exact .inl ⟨_, y, .goesOn h climbs⟩
      · refine .inr ⟨_, w, rises.cons h, by rw [List.length_cons, hlen], hpivot, ?_⟩
        rw [h]
        exact hexec

end Bounding

/-! ## Which stitches end -/

section Ending

variable {L : List Block} {ends : Anchors} {n : Nat}
  {y : Except SyncError UInt64 × SyncState ByteMap Chain π}

/-- The place from which a stitch goes up. -/
abbrev atFrontier (ends : Anchors) (s : SyncState ByteMap Chain π) : Place ByteMap Chain π where
  current := ends.frontier.hash
  done := 0
  state := s

/-- Links that circle make a way up circle too, or one of its first rounds fails. -/
lemma exists_error_of_circles (circles : s.segment.Circles ends)
    (begun : Ascent ends.pivot.hash s.segment.links.size s [])
    (climbs : Climbs ends.pivot.hash (atFrontier ends s) n y) :
    ∃ e, (Operation.exec (climbWithin ends.pivot.hash s.segment.links.size ends.frontier.hash 0 :
      SyncT Id ByteMap Chain π _) s).1 = .error e := by
  obtain ⟨as, z, m, rises, nodup, last, rfl⟩ := climbs.exists_nodup begun
  -- the links lead on from where the last round stands
  have hlast := rises.above as.length z.current (by simp)
  have hnext := circles.above_ne_none (as.length + 1)
  rw [above, hlast, Option.bind_some] at hnext
  obtain ⟨b, hup⟩ := Option.ne_none_iff_exists'.1 hnext
  have hlt := rises.length_lt nodup (row_of_up hup)
  rcases climbRound_cases ends.pivot.hash z with ⟨hpivot, -⟩ | ⟨-, ⟨e, t, h⟩ | ⟨w, handedOver, h, -⟩⟩
  · exact absurd hpivot (up_eq_some_iff.1 hup).1
  · cases h.symm.trans last
    exact ⟨e, by rw [climbs.exec_climbWithin hlt]; rfl⟩
  · cases h.symm.trans last

/-- A way up ends that does not come to a hash twice. -/
lemma exists_climbs_of_not_circles (hcircles : ¬ s.segment.Circles ends) :
    ∃ n y, Climbs ends.pivot.hash (atFrontier ends s) n y := by
  rcases climbs_or_rises s.segment.links.size (atFrontier ends s) with
    climbs | ⟨as, z, rises, hlen, hpivot, -⟩
  · exact climbs
  have nodup : (as ++ [z.current]).Nodup := by
    by_contra hback
    exact hcircles (rises.exists_above hback)
  -- all links are used up
  have hrow : z.state.segment.links.rows[z.current.bytes]? = none := by
    by_contra hrow
    rw [rises.links] at hrow
    exact absurd hlen (Nat.ne_of_lt (rises.length_lt nodup hrow))
  have last : climbRound ends.pivot.hash z =
      (1, .inl (.error (.missingSuccessor z.current), z.state)) := by
    have hlink : z.state.segment.linkAt z.current = .ok none := by
      simp only [linkAt, hrow]
    rw [climbRound, if_neg hpivot, exec_advance, hlink]
  exact ⟨_, _, rises.climbs_iff.2 ⟨1, rfl, .ends last⟩⟩

/-- So many rounds suffice for a stitch that ends after them. -/
lemma Stitches.exec_stitchWithin {steps : Nat} (stitches : Stitches s n y) (hle : n ≤ steps) :
    Operation.exec (stitchWithin steps : SyncT Id ByteMap Chain π _) s = (y.1.map some, y.2) := by
  rw [Sync.exec_stitchWithin]
  cases stitches with
  | apart hconnection =>
    rw [hconnection]
    rfl
  | stopped hconnection climbs =>
    rw [hconnection]
    simp only [climbs.exec_climbWithin hle]
    rfl
  | arrived hconnection climbs =>
    rw [hconnection]
    simp only [climbs.exec_climbWithin hle]
    rfl

/-- A stitch that ends within the bound is the one of the model. -/
lemma Stitches.exec_stitch (stitches : Stitches s n y) (hle : n ≤ s.segment.links.size + 1) :
    Operation.exec (stitch : SyncT Id ByteMap Chain π _) s = y := by
  simp only [stitch, Operation.exec_bind, Operation.exec_get, stitches.exec_stitchWithin hle]
  rcases y with ⟨e | count, t⟩ <;> rfl

/-- A stitch that goes up at all ends as its way up ends. -/
lemma Stitches.of_connection (stitches : Stitches s n y) (hends : s.segment.anchors = some ends) :
    (n = 0 ∧ ∃ e t, Operation.exec (connection : SyncT Id ByteMap Chain π _) s = (.error e, t)) ∨
      Operation.exec (connection : SyncT Id ByteMap Chain π _) s = (.ok ends, s) ∧
        ∃ t, Climbs ends.pivot.hash (atFrontier ends s) n (y.1, t) := by
  cases stitches with
  | apart hconnection => exact .inl ⟨rfl, _, _, hconnection⟩
  | stopped hconnection climbs =>
    obtain ⟨hends', rfl⟩ := of_exec_connection hconnection
    cases hends.symm.trans hends'
    exact .inr ⟨hconnection, _, climbs⟩
  | arrived hconnection climbs =>
    obtain ⟨hends', rfl⟩ := of_exec_connection hconnection
    cases hends.symm.trans hends'
    exact .inr ⟨hconnection, _, climbs⟩

/-- A stitch ends where its climb does. -/
lemma exists_stitches_of_climbs
    (hconnection : Operation.exec (connection : SyncT Id ByteMap Chain π _) s = (.ok ends, s))
    (climbs : ∃ n y, Climbs ends.pivot.hash (atFrontier ends s) n y) : ∃ n y, Stitches s n y := by
  obtain ⟨n, ⟨e | count, t⟩, climbs⟩ := climbs
  · exact ⟨n, _, .stopped hconnection climbs⟩
  · exact ⟨n, _, .arrived hconnection climbs⟩

/-- A stitch ends, or it goes up and so many rounds do not suffice. -/
lemma stitches_or_gives_up (steps : Nat) (hends : s.segment.anchors = some ends) :
    (∃ n y, Stitches s n y) ∨
      Operation.exec (connection : SyncT Id ByteMap Chain π _) s = (.ok ends, s) ∧
        ∃ t, Operation.exec (stitchWithin steps : SyncT Id ByteMap Chain π _) s = (.ok none, t) := by
  rcases hconnection : Operation.exec (connection : SyncT Id ByteMap Chain π _) s with ⟨e | found, t⟩
  · exact .inl ⟨0, _, .apart hconnection⟩
  obtain ⟨hends', ht⟩ := of_exec_connection hconnection
  cases hends.symm.trans hends'
  rw [ht] at hconnection ⊢
  rcases climbs_or_rises steps (atFrontier ends s) with climbs | ⟨as, z, -, -, -, hexec⟩
  · exact .inl (exists_stitches_of_climbs hconnection climbs)
  · dsimp only [atFrontier] at hexec
    exact .inr ⟨rfl, z.state, by simp only [exec_stitchWithin, hconnection, hexec]⟩

/-- A stitch that does not end is one that the bounded stitch calls endless. -/
lemma stitches_or_endless (hends : s.segment.anchors = some ends) :
    (∃ n y, Stitches s n y) ∨
      (Operation.exec (stitch : SyncT Id ByteMap Chain π _) s).1 =
        .error (.endless ends.frontier.hash) := by
  rcases stitches_or_gives_up (s.segment.links.size + 1) hends with stitches | ⟨-, t, hexec⟩
  · exact .inl stitches
  · have hfrontier : s.segment.frontier? = some ends.frontier := by
      rw [frontier?, hends, Option.map_some]
    simp only [stitch, Operation.exec_bind, Operation.exec_get, hexec]
    rw [hfrontier]
    exact .inr rfl

/-- A stitch along links that circle does not end unless one of its first rounds fails. -/
lemma not_stitches_of_circles (hold : s.chain.Holds L)
    (hroom : L.length + s.segment.links.size < 2 ^ 64) (sized : Peer.SendsSized s.peer)
    (hends : s.segment.anchors = some ends) (circles : s.segment.Circles ends)
    (hgoes : ∀ e, (Operation.exec (stitchWithin s.segment.links.size : SyncT Id ByteMap Chain π _) s).1 ≠
      .error e) : ¬ ∃ n y, Stitches s n y := by
  rintro ⟨n, y, stitches⟩
  rw [exec_stitchWithin] at hgoes
  rcases stitches.of_connection hends with ⟨-, e, t, hconnection⟩ | ⟨hconnection, t, climbs⟩ <;>
    rw [hconnection] at hgoes
  · exact hgoes e rfl
  · obtain ⟨e, hfails⟩ := exists_error_of_circles circles ⟨⟨L, hold, hroom⟩, sized, nofun⟩ climbs
    simp only at hgoes
    rcases hclimb : Operation.exec (climbWithin ends.pivot.hash s.segment.links.size
      ends.frontier.hash 0) s with ⟨e' | count, u⟩ <;> rw [hclimb] at hfails hgoes
    · exact hgoes e' rfl
    · cases hfails

/-- A stitch ends where the links do not circle, and where it fails within the bound. -/
lemma exists_stitches (hends : s.segment.anchors = some ends)
    (hnot : ¬ (s.segment.Circles ends ∧
      ∀ e, (Operation.exec (stitchWithin s.segment.links.size : SyncT Id ByteMap Chain π _) s).1 ≠
        .error e)) : ∃ n y, Stitches s n y := by
  rcases stitches_or_gives_up s.segment.links.size hends with stitches | ⟨hconnection, t, hexec⟩
  · exact stitches
  · rw [hexec] at hnot
    exact exists_stitches_of_climbs hconnection
      (exists_climbs_of_not_circles fun circles => hnot ⟨circles, nofun⟩)

/-- Which stitches end: all but those that go along links that circle and come round once. A stitch that
ends makes at most as many rounds as there are links, or one more if that finds no successor, and is what
the bounded stitch does; one that does not end is given up as endless. -/
theorem stitch_ends_iff (hold : s.chain.Holds L) (hroom : L.length + s.segment.links.size < 2 ^ 64)
    (sized : Peer.SendsSized s.peer) (hends : s.segment.anchors = some ends) :
    (∀ n y, Stitches s n y →
      (n ≤ s.segment.links.size ∨
        n = s.segment.links.size + 1 ∧ ∃ hash, y.1 = .error (.missingSuccessor hash)) ∧
      Operation.exec (stitch : SyncT Id ByteMap Chain π _) s = y) ∧
    ((∃ n y, Stitches s n y) ↔
      ¬ (s.segment.Circles ends ∧
        ∀ e, (Operation.exec (stitchWithin s.segment.links.size : SyncT Id ByteMap Chain π _) s).1 ≠
          .error e)) ∧
    ((∃ n y, Stitches s n y) ∨
      (Operation.exec (stitch : SyncT Id ByteMap Chain π _) s).1 =
        .error (.endless ends.frontier.hash)) := by
  refine ⟨?_, ⟨?_, exists_stitches hends⟩, stitches_or_endless hends⟩
  · intro n y stitches
    have hle : n ≤ s.segment.links.size ∨
        n = s.segment.links.size + 1 ∧ ∃ hash, y.1 = .error (.missingSuccessor hash) := by
      rcases stitches.of_connection hends with ⟨rfl, -⟩ | ⟨-, t, climbs⟩
      · exact .inl (Nat.zero_le _)
      · exact climbs.le_size ⟨⟨L, hold, hroom⟩, sized, nofun⟩
    refine ⟨hle, stitches.exec_stitch ?_⟩
    omega
  · rintro stitches ⟨circles, hgoes⟩
    exact not_stitches_of_circles hold hroom sized hends circles hgoes stitches

end Ending

/-- A segment from genesis to the block `first`, over a chain that has only genesis. -/
def rising : SyncState ByteMap Chain ScriptedPeer :=
  { asking Block.first with
    segment := (Segment.empty.putLink Block.genesis.hash Block.first.hash).moved Block.genesis.header
      Block.first.header }

/-- The links from genesis to the first block do not circle. -/
lemma not_circles_rising :
    ¬ rising.segment.Circles ⟨Block.genesis.header, Block.first.header⟩ := by
  have link : rising.segment.Links Block.genesis.header Block.first.header := by
    rw [rising, Links, moved_links]
    exact links_put
  have hup : rising.segment.up Block.first.header.hash Block.genesis.header.hash =
      some Block.first.header.hash := up_eq_some_iff.2 ⟨Block.first_hash_ne.symm, link.linkAt_eq⟩
  have htwo : rising.segment.above Block.first.header.hash Block.genesis.header.hash 2 = none := by
    rw [above, above, above, Option.bind_some, hup, Option.bind_some, up, if_pos rfl]
  rintro ⟨i, j, a, hlt, hi, hj⟩
  have hj' : j < 2 := by
    by_contra hle
    cases (above_eq_none_of_le htwo (Nat.le_of_not_lt hle)).symm.trans hj
  obtain rfl : i = 0 := by omega
  obtain rfl : j = 1 := by omega
  rw [above, above, Option.bind_some, hup, ← hi, above, Option.some.injEq] at hj
  exact Block.first_hash_ne hj

/-- The stitch from genesis to the first block ends within the bound. -/
theorem stitch_ends_iff_first :
    ∃ n y, Stitches rising n y ∧ n ≤ rising.segment.links.size + 1 ∧
      Operation.exec (stitch : SyncT Id ByteMap Chain ScriptedPeer _) rising = y := by
  obtain ⟨bounded, ends, -⟩ := stitch_ends_iff (s := rising) (L := [Block.genesis])
    Chain.holds_genesis (by decide +kernel) (sendsSized_asking (Block.sized_of_nil rfl rfl)) rfl
  obtain ⟨n, y, stitches⟩ := ends.2 fun h => not_circles_rising h.1
  obtain ⟨hle, hexec⟩ := bounded n y stitches
  exact ⟨n, y, stitches, by omega, hexec⟩

/-- A segment from genesis to the block `second` whose links lead from the block `first` back to genesis. -/
def circling : SyncState ByteMap Chain ScriptedPeer :=
  { asking Block.first with
    segment :=
      ((((Segment.empty.putBlock Block.genesis).putBlock Block.first).putLink Block.genesis.hash
        Block.first.hash).putLink Block.first.hash Block.genesis.hash).moved Block.genesis.header
        Block.second.header }

/-- The links between genesis and the first block circle. -/
lemma circles_circling :
    circling.segment.Circles ⟨Block.genesis.header, Block.second.header⟩ := by
  have link : circling.segment.Links Block.genesis.header Block.first.header := by
    rw [circling, Links, moved_links]
    exact links_put.put Block.first_hash_ne
  have back : circling.segment.Links Block.first.header Block.genesis.header := by
    rw [circling, Links, moved_links]
    exact links_put
  have hup : circling.segment.up Block.second.header.hash Block.genesis.header.hash =
      some Block.first.header.hash :=
    up_eq_some_iff.2 ⟨Block.second_hash_ne_genesis.symm, link.linkAt_eq⟩
  have hback : circling.segment.up Block.second.header.hash Block.first.header.hash =
      some Block.genesis.header.hash := up_eq_some_iff.2 ⟨Block.second_hash_ne.symm, back.linkAt_eq⟩
  refine ⟨0, 2, Block.genesis.header.hash, Nat.two_pos, rfl, ?_⟩
  rw [above, above, above, Option.bind_some, hup, Option.bind_some, hback]

/-- Nothing stops a stitch that is led back to genesis: it hands over the block `first`, and goes round
from then on. -/
theorem not_stitches_circling :
    circling.chain.Holds [Block.genesis] ∧
      circling.segment.anchors = some ⟨Block.genesis.header, Block.second.header⟩ ∧
      circling.chain.header? Block.genesis.hash = .ok (some Block.genesis.header) ∧
      ¬ ∃ n y, Stitches circling n y := by
  refine ⟨Chain.holds_genesis, rfl, Chain.holds_genesis.header?_of_mem (by simp), ?_⟩
  have hgoes : (Operation.exec (stitchWithin circling.segment.links.size :
      SyncT Id ByteMap Chain ScriptedPeer _) circling).1 = .ok none := by decide +kernel
  have hroom : [Block.genesis].length + circling.segment.links.size < 2 ^ 64 := by decide +kernel
  apply not_stitches_of_circles Chain.holds_genesis hroom
    (sendsSized_asking (b := Block.first) (Block.sized_of_nil rfl rfl)) rfl circles_circling
  rw [hgoes]
  exact nofun

end Sync
end ChainSync
