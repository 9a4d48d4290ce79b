import ChainSync.Proofs.Sync.Descending

/-!
# Up to the end of a path

A segment lists the end of a path of a chain that the peer serves. A stitch goes up the path, header by
header: a body that is not stored takes one request (`unstored`), a header that the local chain has is
skipped, and the body of any other is for the local chain to take or to refuse. A local chain along the
path takes all that is left of it (`exec_stitch_of_along`).
-/

namespace ChainSync.Sync

open Segment (Path Stocked)

variable {π : Type} [Peer π Id] {s t : SyncState ByteMap Chain π} {origin : Segment ByteMap}
  {U : Set Header} {hs path : List Header} {r : Chain} {R : List Block} {f g h p : Header}
  {j k n : Nat}

/-! ## Bodies -/

/-- How many of some headers have no stored body. -/
def unstored (s : Segment ByteMap) (hs : List Header) : Nat :=
  hs.countP fun h => s.blocks.rows[h.hash.bytes]?.isNone

/-- A sync has got the body of a header, and all else is as it was. -/
structure Furnished (origin : Segment ByteMap) (U : Set Header) (hs : List Header) (r : Chain)
    (h : Header) (s t : SyncState ByteMap Chain π) : Prop where
  stock : Stocked origin t.segment U hs
  chain : t.chain = s.chain
  serves : Peer.Serves r t.peer
  requested : Requested s t 0 (unstored s.segment [h])
  others : ∀ hash : Hash, hash ≠ h.hash →
    t.segment.blocks.rows[hash.bytes]? = s.segment.blocks.rows[hash.bytes]?

/-- One body counts once. -/
lemma Furnished.unstored_cons {hs' : List Header} (furnished : Furnished origin U hs r h s t)
    (hne : ∀ h' ∈ hs', h'.hash ≠ h.hash) :
    unstored s.segment (h :: hs') = unstored s.segment [h] + unstored t.segment hs' := by
  have rest : unstored s.segment hs' = unstored t.segment hs' := by
    apply List.countP_congr
    intro h' hh'
    rw [furnished.others h'.hash (hne h' hh')]
  rw [← rest]
  change unstored s.segment ([h] ++ hs') = _
  exact List.countP_append

/-- To hand a block over is no request. -/
lemma Furnished.handOver (furnished : Furnished origin U hs r h s t) (number : UInt64) :
    Furnished origin U hs r h s { t with events := t.events.push (.handOver number) } where
  stock := furnished.stock
  chain := furnished.chain
  serves := furnished.serves
  requested := by
    have noted : Requested t { t with events := t.events.push (.handOver number) } 0 0 :=
      .of_note (e := .handOver number) rfl rfl
    exact furnished.requested.trans noted
  others := furnished.others

/-- A listed header's body is stored or can be fetched. -/
lemma exec_bodyOf_of_serves (co : Coherent U) (stock : Stocked origin s.segment U hs)
    (serves : Peer.Serves r s.peer) (hold : r.Holds R) (hh : h ∈ hs) (hR : ∃ b ∈ R, b.header = h)
    (sound : ∀ hash, ∃ found, origin.blockAt hash = .ok found) :
    ∃ b t, Operation.exec (bodyOf h.hash : SyncT Id ByteMap Chain π _) s = (.ok b, t) ∧
      b.header = h ∧ b.Sized ∧ Furnished origin U hs r h s t := by
  obtain ⟨found, hfound⟩ := stock.exists_blockAt sound h.hash
  cases found with
  | some b =>
    obtain ⟨has, hhash⟩ := Segment.blockAt_eq_some_iff.1 hfound
    have hheader : b.header = h := co.eq_of_hash (stock.rows.blocks b has) (stock.known h hh) hhash
    have hsized := has.sized
    obtain ⟨row, hrow, -⟩ := has
    rw [hhash] at hrow
    have hcount : unstored s.segment [h] = 0 := by simp [unstored, hrow]
    refine ⟨b, s, ?_, hheader, hsized, stock, rfl, serves, ?_, fun _ _ => rfl⟩
    · simp only [bodyOf, Operation.exec_bind, exec_onSegment, Segment.exec_block?, hfound,
        Except.mapError, Operation.exec_pure]
    · rw [hcount]
      exact .refl
  | none =>
    obtain ⟨b, hb, hheader⟩ := hR
    obtain ⟨t, hfetch, asked, follows⟩ := exec_fetchBlock_of_serves
      (s := { s with events := s.events.push .network }) serves hold hb
    have hhash : b.hash = h.hash := congrArg Header.hash hheader
    have hsized := hold.sized b hb
    have hknown : b.header ∈ U := hheader ▸ stock.known h hh
    have hrow : s.segment.blocks.rows[h.hash.bytes]? = none := Segment.valueAt_eq_none_iff.1 hfound
    have hcount : unstored s.segment [h] = 1 := by simp [unstored, hrow]
    rw [hhash] at hfetch
    refine ⟨b, { t with segment := t.segment.putBlock b }, ?_, hheader, hsized, ?_⟩
    · simp only [bodyOf, Operation.exec_bind, exec_onSegment, Segment.exec_block?, hfound,
        Except.mapError, takeNetwork, exec_note, hfetch, Segment.exec_storeBlock, Operation.exec_pure]
    rw [asked.segment]
    have took : Requested s { s with events := s.events.push .network } 0 0 :=
      .of_note (e := .network) rfl rfl
    have fetched : Requested { s with events := s.events.push .network } t 0 1 :=
      ⟨_, follows, rfl, rfl⟩
    have stored : Requested t { t with segment := s.segment.putBlock b } 0 0 := .of_eq rfl rfl
    refine ⟨stock.storeBlock co hsized hknown, asked.chain, asked.serves, ?_, ?_⟩
    · rw [hcount]
      exact (took.trans fetched).trans stored
    · intro hash hne
      rw [Segment.putBlock_rows, if_neg]
      exact fun e => hne ((Hash.ext e).symm.trans hhash)

/-! ## The climb -/

/-- A climb is done at the end of the path. -/
lemma exec_climbWithin_of_end (steps : Nat) (count : UInt64) (along : s.chain.Along path k)
    (hp : path.getLast? = some p) (hk : n < k) (hf : path[n]? = some f) (hn : path.length ≤ n + 1) :
    Operation.exec (climbWithin p.hash steps f.hash count : SyncT Id ByteMap Chain π _) s =
      (.ok (some count), s) ∧ k = path.length := by
  have hlt := (List.getElem?_eq_some_iff.1 hf).1
  have hle := along.le
  have e : path.length - 1 = n := by omega
  rw [List.getLast?_eq_getElem?, e, hf] at hp
  cases hp
  refine ⟨?_, by omega⟩
  cases steps <;> simp only [climbWithin, if_true, Operation.exec_pure]

/-- A stitch is a climb from the frontier to the pivot, if the local chain has the frontier. -/
lemma exec_stitch_of_climb {result : Except SyncError (Option UInt64)}
    (stock : Stocked origin s.segment U (path.drop j)) (hf : path[j]? = some f)
    (hp : path.getLast? = some p) (hfound : s.chain.header? f.hash = .ok (some f))
    (hclimb : Operation.exec (climbWithin p.hash (s.segment.links.size + 1) f.hash 0) s = (result, t)) :
    Operation.exec (stitch : SyncT Id ByteMap Chain π _) s =
      match result with
      | .ok (some n) => (.ok n, { t with segment := Segment.empty })
      | .ok none => (.error (.endless f.hash), t)
      | .error e => (.error e, t) := by
  have hlt := (List.getElem?_eq_some_iff.1 hf).1
  obtain ⟨ends, hends, rfl, hpivot⟩ := stock.exists_ends (Segment.OnPath.head?_drop hf)
  rw [List.getLast?_drop, if_neg (by omega), hp] at hpivot
  cases hpivot
  have hlocal : LocalChain.header? s.chain ends.frontier.hash = .ok (some ends.frontier) := hfound
  have hfrontier : s.segment.frontier? = some ends.frontier := by
    rw [stock.frontier, Segment.OnPath.head?_drop hf]
  simp only [stitch, stitchWithin, Operation.exec_bind, Operation.exec_get, hends, exec_localHeader?,
    hlocal, Except.mapError, hclimb, hfrontier]
  rcases result with e | ⟨_ | n⟩
  · rfl
  · rfl
  · simp only [exec_onSegment, Operation.exec_bind, Segment.exec_clear, Except.mapError,
      Operation.exec_pure]

section

variable (co : Coherent U) (hold : r.Holds R) (hR : ∀ h ∈ path, ∃ b ∈ R, b.header = h)
  (sound : ∀ hash, ∃ found, origin.blockAt hash = .ok found)
include co hold hR sound

/-- Going up from a listed header, what the local chain has is skipped. -/
lemma exec_advance_of_found (stock : Stocked origin s.segment U (path.drop j))
    (serves : Peer.Serves r s.peer) (hj : j ≤ n) (hf : path[n]? = some f) (hg : path[n + 1]? = some g)
    (hfound : s.chain.header? g.hash = .ok (some g)) :
    ∃ t, Operation.exec (advance f.hash : SyncT Id ByteMap Chain π _) s = (.ok (g.hash, false), t) ∧
      Furnished origin U (path.drop j) r g s t := by
  have link := stock.links_of_drop hj hf hg
  have hmem := Segment.OnPath.mem_drop (i := j) hg (by omega)
  obtain ⟨b, t, hbody, -, -, furnished⟩ := exec_bodyOf_of_serves co stock serves hold hmem
    (hR g (List.mem_of_getElem? hg)) sound
  have hlocal : LocalChain.header? t.chain g.hash = .ok (some g) := by
    rw [furnished.chain]
    exact hfound
  refine ⟨t, ?_, furnished⟩
  simp only [advance, Operation.exec_bind, exec_onSegment, Segment.exec_successor?, link.linkAt_eq,
    Except.mapError, hbody, exec_localHeader?, hlocal, Operation.exec_pure]

/-- Going up from a listed header, what the local chain does not have is for it to take or to refuse. -/
lemma exec_advance_of_absent (stock : Stocked origin s.segment U (path.drop j))
    (serves : Peer.Serves r s.peer) (hj : j ≤ n) (hf : path[n]? = some f) (hg : path[n + 1]? = some g)
    (habsent : s.chain.header? g.hash = .ok none) :
    ∃ b t, b.header = g ∧ b.Sized ∧ Furnished origin U (path.drop j) r g s t ∧
      Operation.exec (advance f.hash : SyncT Id ByteMap Chain π _) s =
        match s.chain.append b with
        | .ok c => (.ok (g.hash, true), { t with chain := c })
        | .error e => (.error (.importing e), t) := by
  have link := stock.links_of_drop hj hf hg
  have hmem := Segment.OnPath.mem_drop (i := j) hg (by omega)
  obtain ⟨b, t, hbody, hheader, hsized, furnished⟩ := exec_bodyOf_of_serves co stock serves hold hmem
    (hR g (List.mem_of_getElem? hg)) sound
  have hlocal : LocalChain.header? t.chain g.hash = .ok none := by
    rw [furnished.chain]
    exact habsent
  have happ : LocalChain.append t.chain b = s.chain.append b := by
    rw [furnished.chain]
    rfl
  refine ⟨b, _, hheader, hsized, furnished.handOver b.number, ?_⟩
  simp only [advance, Operation.exec_bind, exec_onSegment, Segment.exec_successor?, link.linkAt_eq,
    Except.mapError, hbody, exec_localHeader?, hlocal, exec_handOver, happ]
  cases s.chain.append b <;> rfl

/-- A stitch has nothing to hand over if the local chain has the end of the path, right above the
frontier. -/
lemma exec_stitch_of_found (stock : Stocked origin s.segment U (path.drop j))
    (serves : Peer.Serves r s.peer) (hf : path[j]? = some f) (hg : path[j + 1]? = some g)
    (hlen : path.length = j + 1 + 1) (hne : f.hash ≠ g.hash)
    (hfound : s.chain.header? f.hash = .ok (some f)) (hfound' : s.chain.header? g.hash = .ok (some g)) :
    ∃ t, Operation.exec (stitch : SyncT Id ByteMap Chain π _) s = (.ok 0, t) ∧ t.chain = s.chain ∧
      Requested s t 0 (unstored s.segment (path.drop (j + 1))) := by
  have hlast : path.getLast? = some g := by
    rw [List.getLast?_eq_getElem?, hlen]
    exact hg
  obtain ⟨t, hadvance, furnished⟩ := exec_advance_of_found co hold hR sound stock serves (Nat.le_refl j)
    hf hg hfound'
  have hclimb : Operation.exec (climbWithin g.hash (s.segment.links.size + 1) f.hash 0 :
      SyncT Id ByteMap Chain π _) s = (.ok (some 0), t) := by
    simp only [climbWithin, hne, if_false, Operation.exec_bind, hadvance, Bool.false_eq_true]
    cases s.segment.links.size <;> simp only [climbWithin, if_true, Operation.exec_pure]
  refine ⟨_, exec_stitch_of_climb stock hf hlast hfound hclimb, furnished.chain, ?_⟩
  rw [Segment.OnPath.drop_eq hg, List.drop_eq_nil_of_le (by omega)]
  have cleared : Requested t { t with segment := Segment.empty } 0 0 := .of_eq rfl rfl
  exact furnished.requested.trans cleared

/-- A stitch fails at the first header that the local chain does not have and takes no body of. -/
lemma exec_stitch_of_refused (stock : Stocked origin s.segment U (path.drop j))
    (serves : Peer.Serves r s.peer) (hf : path[j]? = some f) (hg : path[j + 1]? = some g)
    (hlast : path.getLast? = some p) (hne : f.hash ≠ p.hash)
    (hfound : s.chain.header? f.hash = .ok (some f)) (habsent : s.chain.header? g.hash = .ok none)
    (refused : ∀ b, b.header = g → ∃ e, s.chain.append b = .error e) :
    ∃ e t, Operation.exec (stitch : SyncT Id ByteMap Chain π _) s = (.error (.importing e), t) ∧
      t.chain = s.chain := by
  obtain ⟨b, t, hheader, -, furnished, hadvance⟩ := exec_advance_of_absent co hold hR sound stock serves
    (Nat.le_refl j) hf hg habsent
  obtain ⟨e, happ⟩ := refused b hheader
  rw [happ] at hadvance
  have hclimb : Operation.exec (climbWithin p.hash (s.segment.links.size + 1) f.hash 0 :
      SyncT Id ByteMap Chain π _) s = (.error (.importing e), t) := by
    simp only [climbWithin, hne, if_false, Operation.exec_bind, hadvance]
  exact ⟨e, _, exec_stitch_of_climb stock hf hlast hfound hclimb, furnished.chain⟩

/-- A climb passes what is left of the path: what the local chain lacks is handed over. -/
lemma exec_climbWithin_of_along (way : Path U path) (steps : Nat) (count : UInt64)
    (stock : Stocked origin s.segment U (path.drop j)) (along : s.chain.Along path k)
    (serves : Peer.Serves r s.peer) (hp : path.getLast? = some p) (hj : j ≤ n) (hk : n < k)
    (hf : path[n]? = some f) (hsteps : path.length ≤ n + 1 + steps)
    (hcount : count.toNat + (path.length - k) < 2 ^ 64) :
    ∃ done t, Operation.exec (climbWithin p.hash steps f.hash count : SyncT Id ByteMap Chain π _) s =
        (.ok (some done), t) ∧ done.toNat = count.toNat + (path.length - k) ∧
      t.chain.Along path path.length ∧ Requested s t 0 (unstored s.segment (path.drop (n + 1))) := by
  induction steps generalizing n k f s count with
  | zero =>
    obtain ⟨hclimb, rfl⟩ := exec_climbWithin_of_end 0 count along hp hk hf (by omega)
    rw [List.drop_eq_nil_of_le (by omega)]
    exact ⟨count, s, hclimb, by omega, along, .refl⟩
  | succ steps ih =>
    by_cases hn : path.length ≤ n + 1
    · obtain ⟨hclimb, rfl⟩ := exec_climbWithin_of_end (steps + 1) count along hp hk hf hn
      rw [List.drop_eq_nil_of_le hn]
      exact ⟨count, s, hclimb, by omega, along, .refl⟩
    · have hg : path[n + 1]? = some path[n + 1] := List.getElem?_eq_getElem (by omega)
      have hne := way.hash_ne_last co hf hp (by omega)
      have hnext : path.drop (n + 1) = path[n + 1] :: path.drop (n + 1 + 1) :=
        Segment.OnPath.drop_eq hg
      have higher : ∀ h ∈ path.drop (n + 1 + 1), h.hash ≠ path[n + 1].hash := by
        intro h hh
        exact way.hash_ne co (List.mem_take_iff_getElem.2 ⟨n + 1, by omega, rfl⟩) hh
      simp only [climbWithin, hne, if_false, Operation.exec_bind]
      by_cases hlow : n + 1 < k
      -- the local chain has the next header
      · obtain ⟨t, hadvance, furnished⟩ := exec_advance_of_found co hold hR sound stock serves hj hf hg
          (along.header?_of_lt hg hlow)
        obtain ⟨done, u, hclimb, hdone, hall, requested⟩ := ih count furnished.stock
          (by rwa [furnished.chain]) furnished.serves (by omega) hlow hg (by omega) hcount
        rw [hadvance, hnext, furnished.unstored_cons higher]
        exact ⟨done, u, hclimb, hdone, hall, furnished.requested.trans requested⟩
      -- the local chain ends here, and takes the next body
      · obtain rfl : k = n + 1 := by omega
        obtain ⟨b, t, hheader, hsized, furnished, hadvance⟩ := exec_advance_of_absent co hold hR sound
          stock serves hj hf hg (along.header?_of_le way co hg (Nat.le_refl _))
        obtain ⟨c, happ, along'⟩ := along.append way co (by rw [hg, hheader]) hsized
        rw [happ] at hadvance
        have hcount' : (count + 1).toNat = count.toNat + 1 := by
          rw [UInt64.toNat_add, UInt64.toNat_one]
          omega
        have taken : Requested t { t with chain := c } 0 0 := .of_eq rfl rfl
        obtain ⟨done, u, hclimb, hdone, hall, requested⟩ := ih (s := { t with chain := c }) (count + 1)
          furnished.stock along' furnished.serves (by omega) (Nat.lt_succ_self _) hg (by omega) (by omega)
        rw [hadvance, hnext, furnished.unstored_cons higher]
        refine ⟨done, u, hclimb, by omega, hall, ?_⟩
        exact (furnished.requested.trans taken).trans requested

/-- A stitch takes a local chain along the path to its end. -/
lemma exec_stitch_of_along (way : Path U path) (stock : Stocked origin s.segment U (path.drop j))
    (along : s.chain.Along path k) (serves : Peer.Serves r s.peer) (hf : path[j]? = some f) (hj : j < k) :
    ∃ n t, Operation.exec (stitch : SyncT Id ByteMap Chain π _) s = (.ok n, t) ∧
      n.toNat = path.length - k ∧ t.chain.Along path path.length ∧
      Requested s t 0 (unstored s.segment (path.drop (j + 1))) := by
  have hlt := (List.getElem?_eq_some_iff.1 hf).1
  have hp : path.getLast? = some path[path.length - 1] := by
    rw [List.getLast?_eq_getElem?]
    exact List.getElem?_eq_getElem (by omega)
  have hsize := stock.length_le_links co
  have hbound := way.length_lt
  rw [List.length_drop] at hsize
  obtain ⟨done, t, hclimb, hdone, hall, requested⟩ := exec_climbWithin_of_along co hold hR
    sound way (s.segment.links.size + 1) 0 stock along serves hp (Nat.le_refl j) hj hf (by omega)
    (by rw [UInt64.toNat_zero]; omega)
  rw [UInt64.toNat_zero, Nat.zero_add] at hdone
  refine ⟨done, _, exec_stitch_of_climb stock hf hp (along.header?_of_lt hf hj) hclimb, hdone, hall, ?_⟩
  have cleared : Requested t { t with segment := Segment.empty } 0 0 := .of_eq rfl rfl
  exact requested.trans cleared

end

end ChainSync.Sync
