import ChainSync.Proofs.Segment.Heights
import ChainSync.Proofs.Sync.Resolving

/-!
# Headers that are held are not asked for

A walk back asks for a header only where its restoring found no row and the local chain has nothing. What
it asks for is therefore told by its fetches, one for each step that waits for the peer (`fetched`), and
every fetch begins in a state without a row for its hash (`Sparing`). A header that is saved leaves a row
(`Retains`), so no hash is asked for in two fetches.

Rows outlive a session. Whatever is done to the tables but for clearing them, a later sync over them asks
for no header that was saved before (`asks_only_for_missing`).
-/

namespace ChainSync

namespace Segment

variable {s t u : Segment ByteMap} {h : Header} {b : Block}

/-- Where one segment has a row for a header, the other one has a row too. -/
def Retains (s t : Segment ByteMap) : Prop :=
  ∀ key : Bytes, s.headers.rows[key]? ≠ none → t.headers.rows[key]? ≠ none

namespace Retains

/-- The same headers have the same rows. -/
lemma of_headers_eq (e : t.headers = s.headers) : Retains s t := by
  intro key hrow
  rwa [e]

/-- Rows that stay twice stay. -/
lemma trans (first : Retains s t) (second : Retains t u) : Retains s u :=
  fun key hrow => second key (first key hrow)

/-- Putting a header leaves the rows of the others. -/
lemma putHeader : Retains s (s.putHeader h) := by
  intro key hrow
  rw [putHeader_rows]
  split_ifs
  · exact Option.some_ne_none _
  · exact hrow

/-- Lowering the frontier leaves the rows. -/
lemma of_lowers (lowers : Lowers s t h) : Retains s t := by
  obtain ⟨ends, -, -, rfl⟩ := lowers
  exact putHeader.trans (of_headers_eq rfl)

/-- A header that is saved has a row. -/
lemma row_of_lowers (lowers : Lowers s t h) : t.headers.rows[h.hash.bytes]? ≠ none := by
  obtain ⟨ends, -, -, rfl⟩ := lowers
  rw [moved_headers, putLink_headers, putHeader_rows, if_pos rfl]
  exact Option.some_ne_none _

/-- Prepending leaves the rows. -/
lemma prepend : Retains s ((Segment.prepend h).exec s).2 := by
  rcases lowers_or_refuses s h with ⟨t, hexec, lowers⟩ | ⟨e, hexec, -⟩ <;> rw [hexec]
  · exact of_lowers lowers
  · exact of_headers_eq rfl

/-- Prepending a stored header leaves the rows. -/
lemma prependStored : Retains s ((Segment.prependStored h).exec s).2 := by
  rcases exec_prependStored s h with ⟨ends, -, -, hexec⟩ | ⟨-, e, hexec⟩ <;> rw [hexec] <;>
    exact of_headers_eq rfl

/-- Trusting a block leaves the rows. -/
lemma trust : Retains s ((Segment.trust b).exec s).2 := by
  rw [exec_trust]
  cases s.anchors with
  | none => exact putHeader.trans (of_headers_eq rfl)
  | some ends =>
    by_cases hparent : b.header.parent = ends.pivot.hash
    · simp only [hparent, if_true]
      exact putHeader.trans (of_headers_eq rfl)
    · simp only [hparent, if_false]
      exact of_headers_eq rfl

/-- Restoring leaves the rows. -/
lemma restore (start : Header) : Retains s ((Segment.restore start).exec s).2 := by
  apply restore_keeps (P := Retains s) _ start (of_headers_eq rfl)
  intro t h retains _
  exact retains.trans prependStored

/-- Only clearing loses rows. -/
lemma after {move : Move} (hclear : move ≠ .call .clear) : Retains s (move.after s) := by
  cases move with
  | call c =>
    cases c with
    | trust b => exact trust
    | prepend h => exact prepend
    | prependStored h => exact prependStored
    | storeBlock b => exact of_headers_eq rfl
    | clear => exact absurd rfl hclear
  | create b => exact (of_headers_eq rfl).trans (trust (s := s.detached))
  | restore start => exact restore start

end Retains
end Segment

/-- The hash of the header that is asked for. -/
def SyncEvent.header? : SyncEvent → Option Hash
  | .headers hash _ => some hash
  | _ => none

namespace Sync

open Segment

variable {σ π α β : Type}

/-! ## What is noted -/

section Noting

variable {E : SyncEvent → Prop}

/-- An operation notes only events of a kind. -/
def Notes (E : SyncEvent → Prop) (act : SyncT Id ByteMap σ π α) : Prop :=
  ∀ s, ∃ log, (Operation.exec act s).2.events.toList = s.events.toList ++ log ∧ ∀ e ∈ log, E e

namespace Notes

/-- An operation without events notes only those of a kind. -/
lemma of_events_eq {act : SyncT Id ByteMap σ π α}
    (h : ∀ s, (Operation.exec act s).2.events = s.events) : Notes E act :=
  fun s => ⟨[], by rw [h, List.append_nil], nofun⟩

/-- An operation with one event notes that event. -/
lemma of_push {act : SyncT Id ByteMap σ π α} {e : SyncEvent} (he : E e)
    (h : ∀ s, (Operation.exec act s).2.events = s.events.push e) : Notes E act :=
  fun s => ⟨[e], by rw [h, Array.toList_push], by simpa using he⟩

/-- Returning notes nothing. -/
lemma pure (x : α) : Notes E (pure x : SyncT Id ByteMap σ π α) := of_events_eq fun _ => rfl

/-- Failing notes nothing. -/
lemma throw (e : SyncError) : Notes E (throw e : SyncT Id ByteMap σ π α) := of_events_eq fun _ => rfl

/-- Two operations in a row note what each does. -/
lemma bind {act : SyncT Id ByteMap σ π α} {next : α → SyncT Id ByteMap σ π β} (h : Notes E act)
    (hnext : ∀ x, Notes E (next x)) : Notes E (act >>= next) := by
  intro s
  obtain ⟨log, hlog, hE⟩ := h s
  rw [Operation.exec_bind]
  rcases hexec : Operation.exec act s with ⟨e | x, t⟩ <;> rw [hexec] at hlog
  · exact ⟨log, hlog, hE⟩
  · obtain ⟨log', hlog', hE'⟩ := hnext x t
    refine ⟨log ++ log', by rw [hlog', hlog, List.append_assoc], ?_⟩
    intro e he
    rcases List.mem_append.1 he with he | he
    · exact hE e he
    · exact hE' e he

/-- Reading the state notes nothing. -/
lemma get_bind {next : SyncState ByteMap σ π → SyncT Id ByteMap σ π α} (h : ∀ s, Notes E (next s)) :
    Notes E (MonadState.get >>= next) :=
  bind (of_events_eq fun _ => rfl) h

/-- An operation on the segment notes nothing. -/
lemma onSegment (act : SegmentM ByteMap α) : Notes E (onSegment act : SyncT Id ByteMap σ π α) :=
  of_events_eq fun _ => rfl

/-- Asking the local chain notes nothing. -/
lemma localHeader? [LocalChain σ] (hash : Hash) :
    Notes E (localHeader? hash : SyncT Id ByteMap σ π _) :=
  of_events_eq fun _ => rfl

/-- Taking the network is noted. -/
lemma takeNetwork (he : E .network) : Notes E (takeNetwork : SyncT Id ByteMap σ π Unit) :=
  of_push he fun _ => rfl

/-- Handing over a block is noted. -/
lemma handOver [LocalChain σ] {b : Block} (he : E (.handOver b.number)) :
    Notes E (handOver b : SyncT Id ByteMap σ π Unit) := by
  refine of_push he fun s => ?_
  rw [exec_handOver]
  cases LocalChain.append s.chain b <;> rfl

variable [Peer π Id]

/-- Retrying notes the attempts and the pauses. -/
lemma retry {hash : Hash} {attempt : SyncT Id ByteMap σ π (Option α)} (h : Notes E attempt)
    (he : ∀ milliseconds, E (.pause milliseconds)) (left : Nat) :
    Notes E (retry hash attempt left) := by
  induction left with
  | zero => exact get_bind fun _ => throw _
  | succ left ih =>
    refine h.bind fun found => ?_
    cases found with
    | some v => exact pure v
    | none =>
      by_cases hleft : left ≠ 0
      · simp only [hleft, ne_eq, not_false_eq_true, if_true]
        exact get_bind fun _ => (of_push (he _) fun _ => rfl).bind fun _ => ih
      · simp only [hleft, if_false]
        exact ih

/-- A header is fetched by requests for its hash, with pauses between them. -/
lemma fetchHeader {hash : Hash} (hheaders : ∀ limit, E (.headers hash limit))
    (hpause : ∀ milliseconds, E (.pause milliseconds)) :
    Notes E (fetchHeader hash : SyncT Id ByteMap σ π _) := by
  refine get_bind fun s => retry (get_bind fun _ => ?_) hpause _
  refine bind (of_push (hheaders _) fun _ => rfl) fun answer => ?_
  cases answer <;> exact pure _

/-- Fetching a block notes the requests for it and the pauses. -/
lemma fetchBlock {hash : Hash} (hblock : E (.block hash))
    (hpause : ∀ milliseconds, E (.pause milliseconds)) :
    Notes E (fetchBlock hash : SyncT Id ByteMap σ π _) := by
  refine get_bind fun s => retry (bind (of_push hblock fun _ => rfl) fun answer => ?_) hpause _
  cases answer <;> exact pure _

end Notes

variable [LocalChain σ] [Peer π Id]

/-- A stitch asks for no header. -/
lemma notes_stitch : Notes (·.header? = none) (stitch : SyncT Id ByteMap σ π _) := by
  have body : ∀ hash, Notes (·.header? = none) (bodyOf hash : SyncT Id ByteMap σ π _) := by
    intro hash
    refine (Notes.onSegment _).bind fun found => ?_
    cases found with
    | some b => exact .pure b
    | none =>
      refine .bind (.takeNetwork rfl) fun _ => .bind (.fetchBlock rfl fun _ => rfl) fun b => ?_
      exact (Notes.onSegment _).bind fun _ => .pure b
  have climb : ∀ pivot steps current done, Notes (·.header? = none)
      (climbWithin pivot steps current done : SyncT Id ByteMap σ π _) := by
    intro pivot steps
    induction steps with
    | zero => exact fun _ _ => .pure _
    | succ steps ih =>
      intro current done
      rw [climbWithin]
      by_cases hpivot : current = pivot
      · simp only [hpivot, if_true]
        exact .pure _
      · simp only [hpivot, if_false]
        refine Notes.bind ?_ fun x => ih x.1 _
        refine (Notes.onSegment _).bind fun found => ?_
        cases found with
        | none => exact .throw _
        | some next =>
          refine (body next).bind fun b => (Notes.localHeader? next).bind fun known => ?_
          cases known with
          | some header => exact .pure _
          | none => exact .bind (.handOver rfl) fun _ => .pure _
  refine Notes.get_bind fun s => Notes.bind ?_ fun count => ?_
  · refine Notes.get_bind fun s' => ?_
    cases s'.segment.anchors with
    | none => exact .throw _
    | some ends =>
      refine (Notes.localHeader? _).bind fun known => ?_
      cases known with
      | none => exact .throw _
      | some header =>
        refine (climb _ _ _ _).bind fun count => ?_
        cases count with
        | none => exact .pure _
        | some count => exact (Notes.onSegment _).bind fun _ => .pure _
  · cases count with
    | none => exact .throw _
    | some count => exact .pure _

end Noting

/-! ## Fetches -/

/-- A step waits for a header: the state in which it takes the network, and the hash. -/
structure Fetch (σ π : Type) where
  state : SyncState ByteMap σ π
  hash : Hash

variable [Peer π Id]

namespace Fetch

/-- What the step does while it waits. -/
def act (fetch : Fetch σ π) : SyncT Id ByteMap σ π Header := do
  takeNetwork
  fetchHeader fetch.hash

/-- The state in which the step waits no more. -/
def ended (fetch : Fetch σ π) : SyncState ByteMap σ π := (Operation.exec fetch.act fetch.state).2

/-- What happens while the step waits. -/
def log (fetch : Fetch σ π) : List SyncEvent :=
  fetch.ended.events.toList.drop fetch.state.events.size

/-- While a step waits, the network is taken and the header is asked for, and nothing else changes. -/
lemma exists_log (fetch : Fetch σ π) :
    (∃ asked, fetch.log = .network :: asked ∧
      ∀ e ∈ asked, e.header? = some fetch.hash ∨ ∃ milliseconds, e = .pause milliseconds) ∧
    fetch.ended.events.toList = fetch.state.events.toList ++ fetch.log ∧
    fetch.ended.segment = fetch.state.segment ∧ fetch.ended.chain = fetch.state.chain := by
  have kept := Keeps.takeNetwork.bind (fun _ => Keeps.fetchHeader (f := Prod.mk) fetch.hash) fetch.state
  have notes : Notes (fun e => e.header? = some fetch.hash ∨ ∃ milliseconds, e = .pause milliseconds)
      (fetchHeader fetch.hash : SyncT Id ByteMap σ π _) :=
    .fetchHeader (fun _ => .inl rfl) fun _ => .inr ⟨_, rfl⟩
  obtain ⟨asked, hasked, hall⟩ :=
    notes { fetch.state with events := fetch.state.events.push .network }
  have hended : fetch.ended.events.toList = fetch.state.events.toList ++ .network :: asked := by
    rw [Array.toList_push, List.append_assoc] at hasked
    exact hasked
  have hlog : fetch.log = .network :: asked := by
    rw [Fetch.log, hended, ← Array.length_toList, List.drop_left]
  exact ⟨⟨asked, hlog, hall⟩, by rw [hlog, hended], congrArg Prod.fst kept, congrArg Prod.snd kept⟩

end Fetch

section

variable [LocalChain σ]

/-- The fetch of a step, if it comes so far. -/
def fetchedAt (start : Header) (s : SyncState ByteMap σ π) : List (Fetch σ π) :=
  match Operation.exec (beginStep start : SyncT Id ByteMap σ π _) s with
  | (.ok (.inr hash), state) => [{ state, hash }]
  | _ => []

/-- The fetches of a walk back by at most some steps. -/
def fetchedWithin : (steps : Nat) → SyncState ByteMap σ π → List (Fetch σ π)
  | 0, _ => []
  | steps + 1, s =>
    match Operation.exec (outlook : SyncT Id ByteMap σ π _) s with
    | (.ok (.inr frontier), t) =>
      fetchedAt frontier t ++
        match Operation.exec (execute frontier : SyncT Id ByteMap σ π _) t with
        | (.ok found, u) => if found.isLocal then [] else fetchedWithin steps u
        | _ => []
    | _ => []

/-- The fetches of a walk back to the local chain. -/
def fetched (s : SyncState ByteMap σ π) : List (Fetch σ π) :=
  match s.segment.frontier? with
  | none => []
  | some frontier => fetchedWithin frontier.number.toNat s

end

/-- From `s` to `t` nothing is asked for but in some fetches, and there only what is missing. -/
structure Sparing [LocalChain σ] (s t : SyncState ByteMap σ π) (fetches : List (Fetch σ π)) :
    Prop where
  /-- All events are those of the fetches. -/
  events : t.events.toList = s.events.toList ++ fetches.flatMap Fetch.log
  /-- A fetch begins when those before it have ended. -/
  moment : ∀ i fetch, fetches[i]? = some fetch →
    fetch.state.events.toList = s.events.toList ++ (fetches.take i).flatMap Fetch.log
  /-- The network is taken once, and all requests are for the same hash. -/
  asks : ∀ fetch ∈ fetches, ∃ asked, fetch.log = .network :: asked ∧
    ∀ e ∈ asked, e.header? = some fetch.hash ∨ ∃ milliseconds, e = .pause milliseconds
  /-- When a fetch begins, there is neither a row for its hash nor a header in the local chain. -/
  missing : ∀ fetch ∈ fetches, fetch.state.segment.headers.rows[fetch.hash.bytes]? = none ∧
    LocalChain.header? fetch.state.chain fetch.hash = .ok none
  /-- Nothing changes while a step waits. -/
  waits : ∀ fetch ∈ fetches, fetch.ended.segment = fetch.state.segment ∧
    fetch.ended.chain = fetch.state.chain
  /-- No two fetches are for the same hash. -/
  once : (fetches.map (·.hash)).Nodup
  /-- Rows stay, so what had one at the beginning is not fetched. -/
  retained : ∀ fetch ∈ fetches, Retains s.segment fetch.state.segment
  retains : Retains s.segment t.segment

namespace Sparing

variable [LocalChain σ] {s t u : SyncState ByteMap σ π} {fetches later : List (Fetch σ π)}

/-- Where nothing is noted, nothing is fetched. -/
lemma of_events_eq (hevents : t.events = s.events) (retains : Retains s.segment t.segment) :
    Sparing s t [] where
  events := by rw [hevents]; simp
  moment := nofun
  asks := nofun
  missing := nofun
  waits := nofun
  once := List.nodup_nil
  retained := nofun
  retains := retains

/-- A fetch of what is missing spares all else. -/
lemma single {fetch : Fetch σ π} (hevents : fetch.state.events = s.events)
    (retained : Retains s.segment fetch.state.segment)
    (missing : fetch.state.segment.headers.rows[fetch.hash.bytes]? = none ∧
      LocalChain.header? fetch.state.chain fetch.hash = .ok none)
    (hended : t.events = fetch.ended.events) (retains : Retains s.segment t.segment) :
    Sparing s t [fetch] where
  events := by
    rw [hended, fetch.exists_log.2.1, hevents]
    simp
  moment := by
    rintro i _ hfetch
    obtain ⟨hlt, rfl⟩ := List.getElem?_eq_some_iff.1 hfetch
    obtain rfl : i = 0 := by simpa using hlt
    simp [hevents]
  asks := by simpa using fetch.exists_log.1
  missing := by simpa using missing
  waits := by simpa using fetch.exists_log.2.2
  once := by simp
  retained := by simpa using retained
  retains := retains

/-- What was fetched and has left a row is not fetched later. -/
lemma trans (first : Sparing s t fetches) (second : Sparing t u later)
    (saved : ∀ fetch ∈ fetches, t.segment.headers.rows[fetch.hash.bytes]? ≠ none) :
    Sparing s u (fetches ++ later) where
  events := by rw [second.events, first.events, List.flatMap_append, List.append_assoc]
  moment := by
    intro i fetch hfetch
    rw [List.take_append, List.flatMap_append]
    rcases Nat.lt_or_ge i fetches.length with hlt | hge
    · rw [List.getElem?_append_left hlt] at hfetch
      rw [first.moment i fetch hfetch, Nat.sub_eq_zero_of_le (Nat.le_of_lt hlt)]
      simp
    · rw [List.getElem?_append_right hge] at hfetch
      rw [second.moment _ fetch hfetch, first.events, List.take_of_length_le hge, List.append_assoc]
  asks := List.forall_mem_append.2 ⟨first.asks, second.asks⟩
  missing := List.forall_mem_append.2 ⟨first.missing, second.missing⟩
  waits := List.forall_mem_append.2 ⟨first.waits, second.waits⟩
  once := by
    rw [List.map_append, List.nodup_append]
    refine ⟨first.once, second.once, ?_⟩
    intro hash hmem hash' hmem' e
    obtain ⟨fetch, hfetch, rfl⟩ := List.mem_map.1 hmem
    obtain ⟨fetch', hfetch', rfl⟩ := List.mem_map.1 hmem'
    apply second.retained fetch' hfetch' _ (saved fetch hfetch)
    rw [e]
    exact (second.missing fetch' hfetch').1
  retained := List.forall_mem_append.2
    ⟨first.retained, fun fetch hfetch => first.retains.trans (second.retained fetch hfetch)⟩
  retains := first.retains.trans second.retains

/-- What has a row at the beginning is not asked for. -/
lemma not_mem {hash : Hash} {log : List SyncEvent} (sparing : Sparing s t fetches)
    (hrow : s.segment.headers.rows[hash.bytes]? ≠ none)
    (hlog : t.events.toList = s.events.toList ++ log) : ∀ e ∈ log, e.header? ≠ some hash := by
  intro e he hhash
  rw [List.append_cancel_left (hlog.symm.trans sparing.events), List.mem_flatMap] at he
  obtain ⟨fetch, hfetch, he⟩ := he
  obtain ⟨asked, hasked, hall⟩ := sparing.asks fetch hfetch
  rw [hasked] at he
  rcases List.mem_cons.1 he with rfl | he
  · cases hhash
  · rcases hall e he with h | ⟨milliseconds, rfl⟩
    · obtain rfl := Option.some.inj (h.symm.trans hhash)
      exact sparing.retained fetch hfetch _ hrow (sparing.missing fetch hfetch).1
    · cases hhash

end Sparing

variable [LocalChain σ] {f : Header} {x s : SyncState ByteMap σ π} {h : Header}

/-! ## A step and a walk -/

omit [Peer π Id] [LocalChain σ] in
/-- The end of a step lowers the frontier, or is refused without a change. -/
lemma exec_endStep (s : SyncState ByteMap σ π) (h : Header) :
    (∃ seg, Operation.exec (endStep h : SyncT Id ByteMap σ π _) s =
        (.ok { header := h, source := .network }, { s with segment := seg }) ∧
        Lowers s.segment seg h) ∨
      ∃ e, Operation.exec (endStep h : SyncT Id ByteMap σ π _) s = (.error e, s) := by
  rw [endStep, Operation.exec_bind]
  rcases exec_save s h with ⟨seg, hsave, lowers⟩ | ⟨e, hsave, -⟩ <;> rw [hsave]
  · exact .inl ⟨seg, rfl, lowers⟩
  · exact .inr ⟨e, rfl⟩

omit [Peer π Id] in
/-- A step that waits does so for the parent of its frontier, which is missing. -/
lemma missing_of_beginStep {t : SyncState ByteMap σ π} {hash : Hash}
    (hf : s.segment.frontier? = some f)
    (hexec : Operation.exec (beginStep f : SyncT Id ByteMap σ π _) s = (.ok (.inr hash), t)) :
    (∃ g, t.segment.frontier? = some g ∧ g.parent = hash) ∧
      t.segment.headers.rows[hash.bytes]? = none ∧ LocalChain.header? t.chain hash = .ok none := by
  obtain ⟨hs, g, r, run, ends⟩ := exists_runs s.segment f
  obtain ⟨seg, taken, -, hwithin⟩ := exists_takesBack run ends hf
  obtain ⟨rfl, rfl, hlocal⟩ := eq_of_beginStep
    (exec_restore_eq (hwithin _ (Nat.lt_succ_of_le run.length_le))) hexec
  cases ends with
  | absent habsent => exact ⟨⟨g, taken.frontier, rfl⟩, by rwa [taken.headers], hlocal⟩

/-- A step asks only for what is missing, and if it succeeds, that has a row then. -/
lemma sparing_execute (hf : s.segment.frontier? = some f) :
    Sparing s (Operation.exec (execute f) s).2 (fetchedAt f s) ∧
      ∀ found, (Operation.exec (execute f) s).1 = .ok found → ∀ fetch ∈ fetchedAt f s,
        (Operation.exec (execute f) s).2.segment.headers.rows[fetch.hash.bytes]? ≠ none := by
  rw [execute, Operation.exec_bind, fetchedAt]
  rcases exec_beginStep s f with ⟨hash, h, seg, hbegin, -, lowers⟩ | ⟨e | found | hash, hbegin, hr⟩ <;>
    rw [hbegin]
  · exact ⟨.of_events_eq rfl ((Retains.restore f).trans (.of_lowers lowers)), by simp⟩
  · exact ⟨.of_events_eq rfl (.restore f), by simp⟩
  · exact absurd rfl (hr found)
  obtain ⟨⟨g, hg, hparent⟩, hmissing⟩ := missing_of_beginStep hf hbegin
  generalize hstate : { s with segment := ((restore f).exec s.segment).2 } = state at hg hmissing ⊢
  have hevents : state.events = s.events := by rw [← hstate]
  have retained : Retains s.segment state.segment := by
    rw [← hstate]
    exact .restore f
  -- the header is fetched, and then saved
  have hfetch : ((do takeNetwork; endStep (← fetchHeader hash)) : SyncT Id ByteMap σ π _) =
      Fetch.act { state, hash } >>= endStep := by
    simp only [Fetch.act, bind_assoc]
  have hkept := (Fetch.exists_log { state, hash }).2.2.1
  simp only [hfetch, Operation.exec_bind]
  rcases hact : Operation.exec (Fetch.act { state, hash }) state with ⟨e | h, u⟩ <;>
    rw [Fetch.ended, hact] at hkept
  · refine ⟨.single hevents retained hmissing (by rw [Fetch.ended, hact]) ?_, by rintro _ ⟨⟩⟩
    rwa [hkept]
  · simp only
    rcases exec_endStep u h with ⟨seg, hend, lowers⟩ | ⟨e, hend⟩ <;> rw [hend]
    · rw [hkept] at lowers
      refine ⟨.single hevents retained hmissing (by rw [Fetch.ended, hact])
        (retained.trans (.of_lowers lowers)), ?_⟩
      have hrow := Retains.row_of_lowers lowers
      obtain ⟨ends, hends, pre, -⟩ := lowers
      rw [frontier?, hends] at hg
      cases hg
      simpa [← hparent, pre.parent.symm] using hrow
    · refine ⟨.single hevents retained hmissing (by rw [Fetch.ended, hact]) ?_, by rintro _ ⟨⟩⟩
      rwa [hkept]

omit [Peer π Id] in
/-- To look where the walk stands changes nothing, and what it goes on from is the frontier. -/
lemma outlook_cases (s : SyncState ByteMap σ π) :
    (∃ f, Operation.exec (outlook : SyncT Id ByteMap σ π _) s = (.ok (.inr f), s) ∧
        s.segment.frontier? = some f) ∨
      ∃ r : Except SyncError Header,
        Operation.exec (outlook : SyncT Id ByteMap σ π _) s = (r.map .inl, s) := by
  cases hf : s.segment.frontier? with
  | none =>
    refine .inr ⟨.error .emptyChain, ?_⟩
    simp only [outlook, Operation.exec_bind, Operation.exec_get, hf]
    rfl
  | some f =>
    rw [exec_outlook s hf]
    by_cases hzero : f.number = 0
    · right
      simp only [hzero, if_true]
      rcases LocalChain.header? s.chain f.hash with e | _ | h
      · exact ⟨.error _, rfl⟩
      · exact ⟨.error _, rfl⟩
      · exact ⟨.ok h, rfl⟩
    · exact .inl ⟨f, by rw [if_neg hzero], rfl⟩

/-- A walk asks only for what is missing: each step does, and leaves a row for what it asked for. -/
lemma sparing_walkWithin (steps : Nat) (s : SyncState ByteMap σ π) :
    Sparing s (Operation.exec (walkWithin steps) s).2 (fetchedWithin steps s) := by
  induction steps generalizing s with
  | zero =>
    rw [fetchedWithin, walkWithin, Operation.exec_bind]
    rcases outlook_cases s with ⟨f, hlook, -⟩ | ⟨r, hlook⟩ <;> rw [hlook]
    · exact .of_events_eq rfl (.of_headers_eq rfl)
    · cases r <;> exact .of_events_eq rfl (.of_headers_eq rfl)
  | succ steps ih =>
    rw [fetchedWithin]
    rcases outlook_cases s with ⟨f, hlook, hf⟩ | ⟨r, hlook⟩
    · rw [exec_walkWithin_succ hlook, hlook]
      obtain ⟨sparing, saved⟩ := sparing_execute hf
      rcases hstep : Operation.exec (execute f : SyncT Id ByteMap σ π _) s with ⟨e | found, u⟩ <;>
        rw [hstep] at sparing saved
      · simpa [hstep] using sparing
      · by_cases hlocal : found.isLocal = true
        · simpa [hstep, hlocal] using sparing
        · simpa [hstep, hlocal] using sparing.trans (ih u) (saved found rfl)
    · rw [exec_walkWithin_of_outlook hlook, hlook]
      cases r <;> exact .of_events_eq rfl (.of_headers_eq rfl)

/-- A walk to the local chain fetches only what is missing. -/
lemma sparing_syncToLocal (s : SyncState ByteMap σ π) :
    Sparing s (Operation.exec syncToLocal s).2 (fetched s) := by
  simp only [syncToLocal, fetched, Operation.exec_bind, Operation.exec_get]
  cases hf : s.segment.frontier? with
  | none => exact .of_events_eq rfl (.of_headers_eq rfl)
  | some f =>
    have sparing := sparing_walkWithin f.number.toNat s
    simp only [Operation.exec_bind]
    rcases hwalk : Operation.exec (walkWithin f.number.toNat : SyncT Id ByteMap σ π _) s with
      ⟨e | _ | header, t⟩ <;> rw [hwalk] at sparing <;> exact sparing

/-! ## A later sync -/

/-- In the course of an operation no header with a hash is asked for. -/
def NeverAsks (act : SyncT Id ByteMap σ π α) (s : SyncState ByteMap σ π) (hash : Hash) : Prop :=
  ∀ log, (Operation.exec act s).2.events.toList = s.events.toList ++ log →
    ∀ e ∈ log, e.header? ≠ some hash

omit [LocalChain σ] [Peer π Id] in
/-- Where no request for headers is noted, no header is asked for. -/
lemma Notes.neverAsks {act : SyncT Id ByteMap σ π α} (notes : Notes (·.header? = none) act)
    (s : SyncState ByteMap σ π) (hash : Hash) : NeverAsks act s hash := by
  intro log hlog e he hhash
  obtain ⟨log', hlog', hnone⟩ := notes s
  obtain rfl := List.append_cancel_left (hlog.symm.trans hlog')
  cases (hnone e he).symm.trans hhash

/-- Where there is a row for a hash, no call asks for a header with this hash. -/
lemma neverAsks_of_row {hash : Hash} (hrow : s.segment.headers.rows[hash.bytes]? ≠ none) :
    NeverAsks (syncToLocal : SyncT Id ByteMap σ π _) s hash ∧
      NeverAsks (stitch : SyncT Id ByteMap σ π _) s hash ∧
      NeverAsks (run : SyncT Id ByteMap σ π _) s hash := by
  have walk : NeverAsks (syncToLocal : SyncT Id ByteMap σ π _) s hash :=
    fun log hlog => (sparing_syncToLocal s).not_mem hrow hlog
  refine ⟨walk, notes_stitch.neverAsks s hash, ?_⟩
  intro log hlog
  rw [run, Operation.exec_bind] at hlog
  obtain ⟨first, hfirst⟩ := Traced.syncToLocal (κ := ByteMap) (σ := σ) (π := π) s
  have hwalk := walk first hfirst.events
  rcases hsync : Operation.exec (syncToLocal : SyncT Id ByteMap σ π _) s with ⟨e | header, t⟩ <;>
    rw [hsync] at hlog hfirst
  · rwa [List.append_cancel_left (hlog.symm.trans hfirst.events)]
  · obtain ⟨second, hsecond⟩ := Traced.stitch (κ := ByteMap) (σ := σ) (π := π) t
    have hstitch := notes_stitch.neverAsks t hash second hsecond.events
    obtain rfl := List.append_cancel_left (hlog.symm.trans (hfirst.trans hsecond).events)
    exact List.forall_mem_append.2 ⟨hwalk, hstitch⟩

/-- How tables are carried on: by whatever changes them but does not clear them, among it new sessions over
them, by walks, and by stitches that fail. -/
inductive CarriedOn (σ π : Type) [LocalChain σ] [Peer π Id] (s : Segment ByteMap) :
    Segment ByteMap → Prop where
  | refl :
    CarriedOn σ π s s
  | move {t : Segment ByteMap} {move : Move} :
    CarriedOn σ π s t → move ≠ .call .clear →
    CarriedOn σ π s (move.after t)
  | walk {x y : SyncState ByteMap σ π} {r : Except SyncError Header} :
    CarriedOn σ π s x.segment → Operation.exec syncToLocal x = (r, y) →
    CarriedOn σ π s y.segment
  | stitch {x y : SyncState ByteMap σ π} {e : SyncError} :
    CarriedOn σ π s x.segment → Operation.exec stitch x = (.error e, y) →
    CarriedOn σ π s y.segment

/-- A stitch that does not succeed leaves the headers. -/
lemma headers_stitch (x : SyncState ByteMap σ π) :
    (∃ n, (Operation.exec stitch x).1 = .ok n) ∨
      (Operation.exec stitch x).2.segment.headers = x.segment.headers := by
  simp only [stitch, stitchWithin, Operation.exec_bind, Operation.exec_get]
  cases x.segment.anchors with
  | none => exact .inr rfl
  | some ends =>
    simp only [Operation.exec_bind, exec_localHeader?]
    rcases LocalChain.header? x.chain ends.frontier.hash with e | _ | known
    · exact .inr rfl
    · exact .inr rfl
    have kept := keeps_climbWithin (σ := σ) (π := π) (k := fun seg => seg.headers) (fun _ _ => rfl)
      ends.pivot.hash (x.segment.links.size + 1) ends.frontier.hash 0 x
    simp only [Except.mapError, Operation.exec_bind]
    rcases hclimb : Operation.exec (climbWithin ends.pivot.hash (x.segment.links.size + 1)
      ends.frontier.hash 0 : SyncT Id ByteMap σ π _) x with ⟨e | _ | count, t⟩ <;> rw [hclimb] at kept
    · exact .inr kept
    · exact .inr kept
    · exact .inl ⟨count, rfl⟩

/-- Tables that are carried on keep their rows. -/
lemma CarriedOn.retains {s t : Segment ByteMap} (carried : CarriedOn σ π s t) : Retains s t := by
  induction carried with
  | refl => exact .of_headers_eq rfl
  | move _ hclear ih => exact ih.trans (.after hclear)
  | @walk x y r _ hexec ih =>
    have sparing := sparing_syncToLocal x
    rw [hexec] at sparing
    exact ih.trans sparing.retains
  | @stitch x y e _ hexec ih =>
    have left := headers_stitch x
    rw [hexec] at left
    rcases left with ⟨n, hok⟩ | left
    · cases hok
    · exact ih.trans (.of_headers_eq left)

/-- The header that a step ends with has a row. -/
lemma row_of_execute {t : SyncState ByteMap σ π} {found : FoundHeader}
    (hexec : Operation.exec (execute f) x = (.ok found, t)) :
    t.segment.headers.rows[found.header.hash.bytes]? ≠ none := by
  rw [exec_execute] at hexec
  rcases hrestore : (Segment.restore f).exec x.segment with ⟨e | hash, seg⟩ <;>
    rw [hrestore] at hexec
  · cases hexec
  · rcases exec_extend hash { x with segment := seg } with
      ⟨found', t', hextend, lowers, -⟩ | ⟨e, t', hextend, -⟩ <;> cases hextend.symm.trans hexec
    exact Retains.row_of_lowers lowers

/-- A walk back takes the network and asks for a header only where the tables and the local chain have
none, and for no hash twice. As long as the tables are not cleared, no later call over them asks for a
header that a step has saved. -/
theorem asks_only_for_missing :
    (∀ s : SyncState ByteMap σ π, Sparing s (Operation.exec syncToLocal s).2 (fetched s)) ∧
      ∀ (x t y : SyncState ByteMap σ π) (f : Header) (found : FoundHeader),
        Operation.exec (execute f) x = (.ok found, t) → CarriedOn σ π t.segment y.segment →
          NeverAsks (syncToLocal : SyncT Id ByteMap σ π _) y found.header.hash ∧
            NeverAsks (stitch : SyncT Id ByteMap σ π _) y found.header.hash ∧
            NeverAsks (run : SyncT Id ByteMap σ π _) y found.header.hash := by
  refine ⟨sparing_syncToLocal, ?_⟩
  intro x t y f found hexec carried
  exact neverAsks_of_row (carried.retains _ (row_of_execute hexec))

/-- A step from the second block fetches the first one; a new session that is anchored at the second block
does not ask for it. -/
theorem asks_only_for_missing_first :
    let x : SyncState ByteMap Chain ScriptedPeer :=
      { segment := ((Segment.trust Block.second).exec Segment.empty).2
        chain := Chain.ofBlocks [Block.genesis]
        peer := { served := BlockMap.ofBlocks [Block.genesis, Block.first, Block.second] } }
    let found : FoundHeader := { header := Block.first.header, source := .network }
    ∃ t, Operation.exec (execute Block.second.header) x = (.ok found, t) ∧
      NeverAsks (syncToLocal : SyncT Id ByteMap Chain ScriptedPeer _)
        { x with segment := (Move.create Block.second).after t.segment } Block.first.hash := by
  intro x found
  have hfound : (Operation.exec (execute Block.second.header) x).1 = .ok found := by
    decide +kernel
  rcases hexec : Operation.exec (execute Block.second.header) x with ⟨r, t⟩
  simp only [hexec] at hfound
  rw [hfound] at hexec
  have carried : CarriedOn Chain ScriptedPeer t.segment
      ((Move.create Block.second).after t.segment) := .move .refl nofun
  refine ⟨t, by rw [hfound], ?_⟩
  exact (asks_only_for_missing.2 x t { x with segment := (Move.create Block.second).after t.segment }
    Block.second.header found hexec carried).1

end Sync
end ChainSync
