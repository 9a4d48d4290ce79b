import ChainSync.Proofs.Segment.Runs
import ChainSync.Proofs.Sync.Interleaving
import ChainSync.Proofs.Sync.Termination

/-!
# A step resolves one ancestor or can be made again

A step restores what is stored below the frontier, asks for the header that the restoring ended at, and
saves it. It may fail at a damaged row, at the local chain, at the peer or because the header does not
fit, and it may be given up while it waits for the peer. Only the restoring has written anything by then,
and nothing but links of stored headers. So a segment is either `Resolved` or `LeftOff`, where the next
step goes on from the frontier to the same header (`execute_resolves_or_leavesOff`).
-/

namespace ChainSync.Sync

open Segment

variable {σ π : Type} [LocalChain σ] {s t seg : Segment ByteMap} {f g : Header} {hs : List Header}
  {r : Except SyncError Hash}

/-- A step from the frontier of `s` has saved the header that it found below `g`, the header that its
restoring came down to with the result `r`. -/
structure Resolved (s t : Segment ByteMap) (c : σ) (g : Header) (r : Except SyncError Hash)
    (found : FoundHeader) : Prop where
  target : r = .ok found.header.hash
  frontier : t.frontier? = some found.header
  number : found.header.number.toNat + 1 = g.number.toNat
  absent : s.headers.rows[found.header.hash.bytes]? = none
  /-- One row is written. -/
  headers : t.headers = (s.putHeader found.header).headers
  blocks : t.blocks = s.blocks
  /-- The local chain has the header exactly if it is marked so. -/
  source : LocalChain.header? c found.header.hash =
    .ok (if found.isLocal then some found.header else none)

/-- A step from the frontier `f` of `s` has saved nothing. Its restoring took back the headers `hs` down
to `g` with the result `r`, and the next one comes to the same. -/
structure LeftOff (s t : Segment ByteMap) (f : Header) (hs : List Header) (g : Header)
    (r : Except SyncError Hash) : Prop where
  headers : t.headers = s.headers
  blocks : t.blocks = s.blocks
  frontier : t.frontier? = some g
  stored : g = f ∨ s.HasHeader g
  /-- Only links of headers that were taken back are written. -/
  links : ∀ key : Bytes, (∀ h ∈ hs, h.hash.bytes ≠ key) → t.links.rows[key]? = s.links.rows[key]?
  again : (restore g).exec t = (r, t)

omit [LocalChain σ] in
/-- A step that has only taken back the longest run is left off there. -/
lemma leftOff_of_takesBack (taken : TakesBack s t f hs g) (ends : EndsRun s g r) :
    LeftOff s t f hs g r where
  headers := taken.headers
  blocks := taken.blocks
  frontier := taken.frontier
  stored := by
    have hlast := List.mem_of_getLast? taken.run.getLast?
    rcases List.mem_cons.1 hlast with rfl | hg
    · exact .inl rfl
    · exact .inr (taken.run.has g hg)
  links := taken.links
  again := exec_restore_of_endsRun (ends.of_headers_eq taken.headers) taken.frontier

variable [Peer π Id] {x y u : SyncState ByteMap σ π} {hash : Hash}

/-- A step that is given up: it has taken the network and made some attempts to get the header that it
waits for. -/
def waitFor {m : Type → Type} [Monad m] {κ σ π : Type} [Peer π m] (hash : Hash) (attempts : Nat) :
    SyncT m κ σ π Unit := do
  takeNetwork
  let _ ← retry hash (attemptHeader hash) attempts

omit [LocalChain σ] in
/-- To wait changes nothing that a sync works on. -/
lemma keeps_waitFor {γ : Type} {k : Segment ByteMap → σ → γ} (hash : Hash) (attempts : Nat) :
    Keeps k (waitFor hash attempts : SyncT Id ByteMap σ π Unit) := by
  have attempt : Keeps k (attemptHeader hash : SyncT Id ByteMap σ π _) := by
    refine Keeps.get.bind fun _ => (Keeps.askHeaders _ _).bind fun answer => ?_
    cases answer <;> exact .pure _
  exact Keeps.takeNetwork.bind fun _ => (Keeps.retry attempt attempts).bind fun _ => .pure _

/-- The second half of a step saves a header below the frontier, or changes nothing. -/
lemma exec_extend (hash : Hash) (y : SyncState ByteMap σ π) :
    (∃ found t, Operation.exec (extend hash : SyncT Id ByteMap σ π _) y = (.ok found, t) ∧
        Lowers y.segment t.segment found.header ∧
        LocalChain.header? y.chain hash = .ok (if found.isLocal then some found.header else none)) ∨
      ∃ e t, Operation.exec (extend hash : SyncT Id ByteMap σ π _) y = (.error e, t) ∧
        t.segment = y.segment := by
  have answered := answered_request hash y
  rw [extend, Operation.exec_bind]
  rcases hasked : Operation.exec (request hash : SyncT Id ByteMap σ π _) y with ⟨e | found, t⟩ <;>
    rw [hasked] at answered
  · exact .inr ⟨e, t, rfl, answered.segment⟩
  · simp only [Operation.exec_bind]
    rcases exec_save t found.header with ⟨seg, hsave, lowers⟩ | ⟨e, hsave, -⟩ <;> rw [hsave]
    · rw [answered.segment] at lowers
      refine .inl ⟨found, _, rfl, lowers, ?_⟩
      cases hlocal : found.isLocal with
      | true => exact answered.known found rfl hlocal
      | false => exact answered.unknown found rfl hlocal
    · exact .inr ⟨e, t, rfl, answered.segment⟩

/-- A step is its second half, after restoring. -/
lemma exec_execute (f : Header) (x : SyncState ByteMap σ π) :
    Operation.exec (execute f : SyncT Id ByteMap σ π _) x =
      match (restore f).exec x.segment with
      | (.ok hash, seg) =>
        Operation.exec (extend hash : SyncT Id ByteMap σ π _) { x with segment := seg }
      | (.error e, seg) => (.error e, { x with segment := seg }) := by
  rw [execute_eq, Operation.exec_bind, exec_onSegment]
  rcases (restore f).exec x.segment with ⟨e | hash, seg⟩ <;> rfl

omit [Peer π Id] in
/-- A step waits for what its restoring ended at and the local chain does not have, and nothing else has
been done. -/
lemma eq_of_beginStep (hrestore : (restore f).exec x.segment = (r, seg))
    (hexec : Operation.exec (beginStep f : SyncT Id ByteMap σ π _) x = (.ok (.inr hash), u)) :
    r = .ok hash ∧ u = { x with segment := seg } ∧ LocalChain.header? x.chain hash = .ok none := by
  rw [beginStep, Operation.exec_bind, exec_onSegment, hrestore] at hexec
  rcases r with e | target
  · cases hexec
  · simp only [Except.mapError, Operation.exec_bind, exec_localHeader?] at hexec
    rcases hfound : LocalChain.header? x.chain target with e | _ | h <;> rw [hfound] at hexec
    · cases hexec
    · cases hexec
      exact ⟨rfl, rfl, hfound⟩
    · simp only [Operation.exec_bind] at hexec
      rcases exec_save { x with segment := seg } h with ⟨_, hsave, -⟩ | ⟨_, hsave, -⟩ <;>
        · rw [hsave] at hexec
          cases hexec

/-- A step from the frontier saves the one header that its restoring ended at, from the local chain
exactly if that has it; or it fails, or is given up while it waits for the peer, and then no table of
headers or blocks has changed and the next step aims at the same header. -/
theorem execute_resolves_or_leavesOff (x : SyncState ByteMap σ π)
    (hf : x.segment.frontier? = some f) :
    ∃ hs g r seg, (restore f).exec x.segment = (r, seg) ∧ TakesBack x.segment seg f hs g ∧
      (∀ found t, Operation.exec (execute f : SyncT Id ByteMap σ π _) x = (.ok found, t) →
        Resolved x.segment t.segment x.chain g r found) ∧
      (∀ e t, Operation.exec (execute f : SyncT Id ByteMap σ π _) x = (.error e, t) →
        LeftOff x.segment t.segment f hs g r) ∧
      ∀ hash u, Operation.exec (beginStep f : SyncT Id ByteMap σ π _) x = (.ok (.inr hash), u) →
        r = .ok hash ∧ ∀ attempts, LeftOff x.segment
          (Operation.exec (waitFor hash attempts : SyncT Id ByteMap σ π _) u).2.segment f hs g r := by
  obtain ⟨hs, g, r, run, ends⟩ := exists_runs x.segment f
  obtain ⟨seg, taken, -, hexec⟩ := exists_takesBack run ends hf
  have hrestore : (restore f).exec x.segment = (r, seg) :=
    exec_restore_eq (hexec _ (Nat.lt_succ_of_le run.length_le))
  have left := leftOff_of_takesBack taken ends
  refine ⟨hs, g, r, seg, hrestore, taken, ?_, ?_, ?_⟩
  · intro found t hexec
    rw [exec_execute, hrestore] at hexec
    cases ends with
    | absent habsent =>
      rcases exec_extend g.parent { x with segment := seg } with
        ⟨found', t', hextend, ⟨anchors, hanchors, pre, hlowered⟩, hsource⟩ | ⟨e, t', hextend, -⟩
      · cases hextend.symm.trans hexec
        have hg : anchors.frontier = g := by
          have hfrontier := taken.frontier
          rw [frontier?, hanchors] at hfrontier
          exact Option.some.inj hfrontier
        have hparent : g.parent = found.header.hash := hg ▸ pre.parent
        rw [hparent] at habsent hsource
        exact {
          target := by rw [hparent]
          frontier := by rw [hlowered]; rfl
          number := hg ▸ pre.number
          absent := habsent
          headers := by
            rw [hlowered, moved_headers, putLink_headers, putHeader, putHeader, taken.headers]
          blocks := by rw [hlowered]; exact taken.blocks
          source := hsource }
      · cases hextend.symm.trans hexec
    | corrupt | mismatched | gap => cases hexec
  · intro e t hexec
    rw [exec_execute, hrestore] at hexec
    cases r with
    | error e' =>
      cases hexec
      exact left
    | ok hash =>
      rcases exec_extend hash { x with segment := seg } with
        ⟨found', t', hextend, -⟩ | ⟨e', t', hextend, hsame⟩
      · cases hextend.symm.trans hexec
      · cases hextend.symm.trans hexec
        rw [hsame]
        exact left
  · intro hash u hbegin
    obtain ⟨htarget, rfl, -⟩ := eq_of_beginStep hrestore hbegin
    refine ⟨htarget, fun attempts => ?_⟩
    have kept : (Operation.exec (waitFor hash attempts : SyncT Id ByteMap σ π _)
        { x with segment := seg }).2.segment = seg :=
      keeps_waitFor (k := fun seg _ => seg) hash attempts _
    rw [kept]
    exact left

/-- A step from the second block restores the first one and finds genesis in the local chain. -/
theorem execute_resolves_or_leavesOff_second :
    let x : SyncState ByteMap Chain ScriptedPeer :=
      { segment := ((Segment.trust Block.second).exec (Segment.empty.putHeader Block.first.header)).2
        chain := Chain.ofBlocks [Block.genesis]
        peer := {} }
    x.segment.frontier? = some Block.second.header ∧
      ∃ g r t, Operation.exec (execute Block.second.header) x =
          (.ok { header := Block.genesis.header, source := .localChain }, t) ∧
        Resolved x.segment t.segment x.chain g r
          { header := Block.genesis.header, source := .localChain } := by
  intro x
  obtain ⟨hs, g, r, seg, -, -, resolved, -, -⟩ :=
    execute_resolves_or_leavesOff (f := Block.second.header) x rfl
  have found : (Operation.exec (execute Block.second.header) x).1 =
      .ok { header := Block.genesis.header, source := .localChain } := by
    decide +kernel
  rcases hexec : Operation.exec (execute Block.second.header) x with ⟨r', t⟩
  simp only [hexec] at found
  rw [found] at hexec
  exact ⟨rfl, g, r, t, by rw [found], resolved _ _ hexec⟩

end ChainSync.Sync
