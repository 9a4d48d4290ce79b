import ChainSync.Sync.State
import ChainSync.Proofs.Segment.Restoring

/-!
# What restoring takes back

Below a header there may be a run of stored headers, each under the hash that the one before names as its
parent, and one lower. `Runs s f hs g` says that a run leads from `f` through `hs` to `g`, and
`EndsRun s g r` why no run goes on below `g` and what is told of it.

Restoring from the frontier takes back the longest run and nothing else (`restore_exact`). From a header
that was the frontier once it does the same: the walk comes through the segment's own headers first,
which are not prepended again, and no header of them is found below the frontier as parents do not run
in a circle.
-/

namespace ChainSync

namespace Segment

variable {s t : Segment ByteMap} {f g h : Header} {hs own : List Header}
  {r : Except SyncError Hash}

/-! ## Runs -/

/-- Stored headers lead down from a header, each the parent of the one before and one lower. -/
inductive Runs (s : Segment ByteMap) : Header → List Header → Header → Prop where
  | stay {f : Header} :
    Runs s f [] f
  | down {f g h : Header} {hs : List Header} :
    s.HasHeader h → Precedes h f →
    Runs s h hs g →
    Runs s f (h :: hs) g

/-- Why no run goes on below a header, and what is told of it. -/
inductive EndsRun (s : Segment ByteMap) (g : Header) : Except SyncError Hash → Prop where
  | absent :
    s.headers.rows[g.parent.bytes]? = none →
    EndsRun s g (.ok g.parent)
  | corrupt {row : Bytes} {fault : Stored.Fault} :
    s.headers.rows[g.parent.bytes]? = some row → Stored.ofBytes (α := Header) row = .error fault →
    EndsRun s g (.error (.store (.corrupt g.parent.bytes fault)))
  | mismatched {h : Header} :
    HasRow s.headers.rows g.parent h → h.hash ≠ g.parent →
    EndsRun s g (.error (.hashMismatch g.parent h.hash))
  | gap {h : Header} :
    HasRow s.headers.rows g.parent h → h.hash = g.parent → h.number.toNat + 1 ≠ g.number.toNat →
    EndsRun s g (.error (.heightGap g.number h.number))

namespace Runs

/-- A run depends on the headers only. -/
lemma of_headers_eq (run : Runs s f hs g) (e : t.headers = s.headers) : Runs t f hs g := by
  induction run with
  | stay => exact .stay
  | down has pre _ ih => exact .down (by rwa [HasHeader, e]) pre ih

/-- The headers of a run have their rows. -/
lemma has (run : Runs s f hs g) : ∀ h ∈ hs, s.HasHeader h := by
  induction run with
  | stay => exact nofun
  | down has _ _ ih =>
    rintro h' (_ | ⟨_, hh'⟩)
    · exact has
    · exact ih h' hh'

/-- Each header of a run precedes the one before. -/
lemma descends (run : Runs s f hs g) : (f :: hs).IsChain fun a b => Precedes b a := by
  induction run with
  | stay => exact .singleton _
  | down _ pre _ ih => exact .cons_cons pre ih

/-- A run ends with its last header. -/
lemma getLast? (run : Runs s f hs g) : (f :: hs).getLast? = some g := by
  induction run with
  | stay => rfl
  | down _ _ _ ih => exact ih

/-- Below a header everything in a run is lower. -/
lemma number_lt (run : Runs s f hs g) :
    (f :: hs).Pairwise fun a b => b.number.toNat < a.number.toNat := by
  have steps : (f :: hs).IsChain fun a b => b.number.toNat < a.number.toNat := by
    apply run.descends.imp
    intro a b pre
    have := pre.number
    omega
  exact steps.pairwise

/-- A run is no longer than the table. -/
lemma length_le (run : Runs s f hs g) : hs.length ≤ s.headers.size := by
  apply length_le_headers run.has
  rw [List.Nodup, List.pairwise_map]
  apply (List.pairwise_cons.1 run.number_lt).2.imp
  intro a b hlt e
  exact absurd (congrArg UInt64.toNat e) (Nat.ne_of_gt hlt)

/-- A run goes on below a lineage whose lowest header it begins at. -/
lemma lineage (run : Runs s f hs g) (lin : Lineage own) (hf : own.head? = some f) :
    Lineage (hs.reverse ++ own) := by
  induction run generalizing own with
  | stay => exact lin
  | @down f g h hs _ pre _ ih =>
    rw [List.reverse_cons, List.append_assoc]
    refine ih (lin.cons fun f' hf' => ?_) rfl
    cases hf.symm.trans hf'
    exact pre.parent

end Runs

/-- Below a header stands another one of a run, or none. -/
lemma precedes_or_endsRun (s : Segment ByteMap) (f : Header) :
    (∃ h, s.HasHeader h ∧ Precedes h f) ∨ ∃ r, EndsRun s f r := by
  cases hrow : s.headers.rows[f.parent.bytes]? with
  | none => exact .inr ⟨_, .absent hrow⟩
  | some row =>
    cases hread : Stored.ofBytes (α := Header) row with
    | error fault => exact .inr ⟨_, .corrupt hrow hread⟩
    | ok h =>
      by_cases hhash : h.hash = f.parent
      · by_cases hnumber : h.number.toNat + 1 = f.number.toNat
        · exact .inl ⟨h, ⟨row, by rwa [hhash], hread⟩, hhash.symm, hnumber⟩
        · exact .inr ⟨_, .gap ⟨row, hrow, hread⟩ hhash hnumber⟩
      · exact .inr ⟨_, .mismatched ⟨row, hrow, hread⟩ hhash⟩

/-- A run that goes as far as it can. -/
lemma exists_runs (s : Segment ByteMap) (f : Header) :
    ∃ hs g r, Runs s f hs g ∧ EndsRun s g r := by
  induction hn : f.number.toNat generalizing f with
  | zero =>
    rcases precedes_or_endsRun s f with ⟨h, -, pre⟩ | ⟨r, ends⟩
    · have := pre.number
      omega
    · exact ⟨[], f, r, .stay, ends⟩
  | succ n ih =>
    rcases precedes_or_endsRun s f with ⟨h, has, pre⟩ | ⟨r, ends⟩
    · have hlower := pre.number
      obtain ⟨hs, g, r, run, ends⟩ := ih h (by omega)
      exact ⟨h :: hs, g, r, .down has pre run, ends⟩
    · exact ⟨[], f, r, .stay, ends⟩

namespace EndsRun

/-- Whether a run goes on depends on the headers only. -/
lemma of_headers_eq (ends : EndsRun s g r) (e : t.headers = s.headers) : EndsRun t g r := by
  cases ends with
  | absent hrow => exact .absent (by rwa [e])
  | corrupt hrow hread => exact .corrupt (by rwa [e]) hread
  | mismatched has hne => exact .mismatched (by rwa [e]) hne
  | gap has hhash hnumber => exact .gap (by rwa [e]) hhash hnumber

/-- Below the end of a run no stored header precedes it. -/
lemma not_precedes (ends : EndsRun s g r) (has : s.HasHeader h) : ¬ Precedes h g := by
  rintro ⟨hparent, hnumber⟩
  obtain ⟨row, hrow, hread⟩ := has
  rw [Header.IsParent] at hparent
  rw [← hparent] at hrow
  cases ends with
  | absent hrow' => cases hrow.symm.trans hrow'
  | corrupt hrow' hread' =>
    cases hrow.symm.trans hrow'
    cases hread.symm.trans hread'
  | mismatched has' hne =>
    obtain ⟨row', hrow', hread'⟩ := has'
    cases hrow.symm.trans hrow'
    cases hread.symm.trans hread'
    exact hne hparent.symm
  | gap has' _ hne =>
    obtain ⟨row', hrow', hread'⟩ := has'
    cases hrow.symm.trans hrow'
    cases hread.symm.trans hread'
    exact hne hnumber

/-- Every run from the same header is a part of one that goes as far as it can. -/
lemma longest {hs' : List Header} {g' : Header} (ends : EndsRun s g r) (run : Runs s f hs g)
    (run' : Runs s f hs' g') : hs' <+: hs := by
  induction run' generalizing hs with
  | stay => exact List.nil_prefix
  | @down f g' h' hs' has' pre' _ ih =>
    cases run with
    | stay => exact absurd pre' (ends.not_precedes has')
    | @down _ _ h hs has pre rest =>
      obtain rfl : h = h' := has.unique has' (pre.parent.symm.trans pre'.parent)
      exact (List.prefix_cons_inj h).2 (ih rest)

end EndsRun

/-! ## The walk from the frontier -/

/-- The segment `t` is `s` with the longest run below its frontier `f` taken back. -/
structure TakesBack (s t : Segment ByteMap) (f : Header) (hs : List Header) (g : Header) : Prop where
  run : Runs s f hs g
  longest : ∀ hs' g', Runs s f hs' g' → hs' <+: hs
  frontier : t.frontier? = some g
  pivot : t.pivot? = s.pivot?
  headers : t.headers = s.headers
  blocks : t.blocks = s.blocks
  linked : (f :: hs).IsChain fun upper lower => t.Links lower upper
  /-- No other link is written. -/
  links : ∀ key : Bytes, (∀ h ∈ hs, h.hash.bytes ≠ key) → t.links.rows[key]? = s.links.rows[key]?

/-- The round at the end of a run tells why it ends. -/
lemma restoreRound_of_endsRun (ends : EndsRun s f r) (hf : s.frontier? = some f) :
    restoreRound f.parent s = (0, .inl (r, s)) := by
  simp only [restoreRound, exec_header?, headerAt, valueAt]
  cases ends with
  | absent hrow => simp only [hrow]
  | corrupt hrow hread => simp only [hrow, hread]
  | mismatched has hne =>
    obtain ⟨row, hrow, hread⟩ := has
    simp only [hrow, hread, hne, if_false]
  | @gap h has hhash hnumber =>
    obtain ⟨row, hrow, hread⟩ := has
    obtain ⟨ends, hends, rfl⟩ := Option.map_eq_some_iff.1 hf
    simp [hrow, hread, hhash, frontier?, hends, prependStored, prependWith, hnumber]

/-- A run ends for one reason. -/
lemma EndsRun.unique {r' : Except SyncError Hash} (ends : EndsRun s g r) (ends' : EndsRun s g r') :
    r = r' := by
  have round : ∀ {r}, EndsRun s g r → restoreRound g.parent (s.moved g g) = _ := fun ends =>
    restoreRound_of_endsRun (ends.of_headers_eq rfl) rfl
  cases (round ends).symm.trans (round ends')
  rfl

/-- What is left of a segment when a stored header is prepended. -/
lemma restoreRound_of_precedes {p : Header} (has : s.HasHeader h) (pre : Precedes h f)
    (hends : s.anchors = some { frontier := f, pivot := p }) :
    restoreRound f.parent s = (1, .inr (h.parent, (s.putLink h.hash f.hash).moved h p)) := by
  have hfound : s.headerAt f.parent = .ok (some h) := headerAt_eq_some_iff.2 ⟨has, pre.parent.symm⟩
  have hnext : s.frontier?.map (·.parent) = some f.parent := by rw [frontier?, hends]; rfl
  simp only [restoreRound, exec_header?, hfound, hnext, if_true]
  rcases exec_prependStored s h with ⟨ends, hends', -, hexec⟩ | ⟨hnot, -⟩
  · cases hends.symm.trans hends'
    rw [hexec]
  · exact absurd pre (hnot _ hends)

/-- At the end of a run, one step is enough to tell why it ends. -/
lemma exec_restoreWithin_of_endsRun (ends : EndsRun s f r) (hf : s.frontier? = some f) (steps : Nat) :
    (restoreWithin (steps + 1) f.parent).exec s = (r.map some, s) := by
  rw [exec_restoreWithin_succ, restoreRound_of_endsRun ends hf]

/-- From the frontier on the longest run is taken back, one header a round. -/
lemma exists_takesBack (run : Runs s f hs g) (ends : EndsRun s g r) (hf : s.frontier? = some f) :
    ∃ t, TakesBack s t f hs g ∧ Restores (f.parent, s) hs.length (r, t) ∧
      ∀ steps, hs.length < steps → (restoreWithin steps f.parent).exec s = (r.map some, t) := by
  induction hs generalizing s f with
  | nil =>
    obtain rfl : f = g := Option.some.inj run.getLast?
    refine ⟨s, ⟨run, fun _ _ => ends.longest run, hf, rfl, rfl, rfl, .singleton _, fun _ _ => rfl⟩,
      .ends (restoreRound_of_endsRun ends hf), ?_⟩
    intro steps hsteps
    obtain ⟨steps, rfl⟩ := Nat.exists_eq_succ_of_ne_zero (Nat.ne_of_gt hsteps)
    exact exec_restoreWithin_of_endsRun ends hf steps
  | cons h hs ih =>
    obtain ⟨⟨_, p⟩, hends, rfl⟩ := Option.map_eq_some_iff.1 hf
    cases run with
    | down has pre rest =>
      have round := restoreRound_of_precedes has pre hends
      generalize hlowered : (s.putLink h.hash _).moved h p = lowered at round
      have hheaders : lowered.headers = s.headers := by rw [← hlowered]; rfl
      have hfrontier : lowered.frontier? = some h := by rw [← hlowered]; rfl
      obtain ⟨t, taken, walk, hexec⟩ :=
        ih (rest.of_headers_eq hheaders) (ends.of_headers_eq hheaders) hfrontier
      -- the hashes below are those of other heights, so the new link stays
      have hne : ∀ h' ∈ hs, h'.hash ≠ h.hash := by
        intro h' hh' e
        have hlt := (List.pairwise_cons.1 rest.number_lt).1 h' hh'
        rw [(rest.has h' hh').unique has e] at hlt
        exact Nat.lt_irrefl _ hlt
      refine ⟨t, ?_, ?_, ?_⟩
      · exact {
          run := .down has pre rest
          longest := fun _ _ => ends.longest (.down has pre rest)
          frontier := taken.frontier
          pivot := by rw [taken.pivot, ← hlowered, pivot?, pivot?, hends]; rfl
          headers := taken.headers.trans hheaders
          blocks := by rw [taken.blocks, ← hlowered]; rfl
          linked := by
            refine .cons_cons ?_ taken.linked
            rw [Links, taken.links _ fun h' hh' e => hne h' hh' (Hash.ext e), ← hlowered]
            exact links_put
          links := by
            intro key hkey
            rw [List.forall_mem_cons] at hkey
            rw [taken.links key hkey.2, ← hlowered, moved_links, putLink_rows, if_neg hkey.1] }
      · rw [List.length_cons, Nat.add_comm]
        exact .goesOn round walk
      · intro steps hsteps
        obtain ⟨steps, rfl⟩ := Nat.exists_eq_succ_of_ne_zero (Nat.ne_zero_of_lt hsteps)
        rw [exec_restoreWithin_succ, round]
        exact hexec steps (Nat.lt_of_succ_lt_succ hsteps)

/-- Restoring is walking down with as many steps as suffice. -/
lemma exec_restore_eq {start : Header}
    (hexec : (restoreWithin (s.headers.size + 1) start.parent).exec s = (r.map some, t)) :
    (restore start).exec s = (r, t) := by
  simp only [restore, Operation.exec_bind, Operation.exec_get, hexec]
  cases r <;> rfl

/-- Where no run goes on below the frontier, nothing is restored. -/
lemma exec_restore_of_endsRun (ends : EndsRun s f r) (hf : s.frontier? = some f) :
    (restore f).exec s = (r, s) :=
  exec_restore_eq (exec_restoreWithin_of_endsRun ends hf _)

/-! ## The walk from another header of the segment -/

/-- The headers of a segment from the frontier up to the pivot, with their rows. -/
structure Owns (s : Segment ByteMap) (own : List Header) : Prop where
  lineage : Lineage own
  has : ∀ h ∈ own, s.HasHeader h
  frontier : s.frontier? = own.head?
  pivot : s.pivot? = own.getLast?

/-- The headers that a segment lists are its own. -/
lemma Lists.owns {origin : Segment ByteMap} {U : Set Header} (lists : Lists origin s U own) :
    s.Owns own where
  lineage := lists.lineage
  has := lists.stored
  frontier := lists.frontier
  pivot := lists.pivot

namespace Owns

variable {i : Nat} {start : Header}

/-- No header of the segment stands below its frontier once more. -/
lemma parent_ne (owns : s.Owns own) (co : Coherent {h | s.HasHeader h})
    (hf : s.frontier? = some f) : ∀ h ∈ own, f.parent ≠ h.hash := by
  intro h hh e
  have lin : Lineage (h :: own) := by
    apply owns.lineage.cons
    intro f' hf'
    cases (owns.frontier.symm.trans hf).symm.trans hf'
    exact e
  have nodup := lin.nodup_hash co (List.forall_mem_cons.2 ⟨owns.has h hh, owns.has⟩)
  rw [List.map_cons, List.nodup_cons] at nodup
  exact nodup.1 (List.mem_map_of_mem hh)

/-- From a header of the segment the walk comes down to the frontier's parent first, and changes nothing
on the way. -/
lemma walk (owns : s.Owns own) (co : Coherent {h | s.HasHeader h}) (hf : s.frontier? = some f)
    (hstart : own[i]? = some start) :
    (∀ steps, (restoreWithin (steps + i) start.parent).exec s = (restoreWithin steps f.parent).exec s) ∧
      ∀ n y, Restores (f.parent, s) n y → Restores (start.parent, s) n y := by
  induction i generalizing start with
  | zero =>
    rw [← List.head?_eq_getElem?, ← owns.frontier, hf] at hstart
    cases hstart
    exact ⟨fun _ => rfl, fun _ _ => id⟩
  | succ i ih =>
    have hlt : i < own.length := by
      have := (List.getElem?_eq_some_iff.1 hstart).1
      omega
    have hbelow : own[i]? = some own[i] := List.getElem?_eq_getElem hlt
    have hparent : own[i].IsParent start := rel_of_isChain owns.lineage hbelow hstart
    rw [Header.IsParent] at hparent
    have hmem : own[i] ∈ own := List.getElem_mem hlt
    have hfound : s.headerAt start.parent = .ok (some own[i]) :=
      headerAt_eq_some_iff.2 ⟨owns.has _ hmem, hparent.symm⟩
    have hnext : s.frontier?.map (·.parent) ≠ some start.parent := by
      rw [hf, hparent]
      exact fun e => owns.parent_ne co hf _ hmem (Option.some.inj e)
    have round : restoreRound start.parent s = (0, .inr (own[i].parent, s)) := by
      simp only [restoreRound, exec_header?, hfound, hnext, if_false]
    obtain ⟨hexec, walks⟩ := ih hbelow
    refine ⟨?_, ?_⟩
    · intro steps
      rw [← Nat.add_assoc, exec_restoreWithin_succ, round]
      exact hexec steps
    · intro n y walk
      rw [← Nat.zero_add n]
      exact .goesOn round (walks n y walk)

/-- There are rows for the headers of a segment and for a run below them. -/
lemma length_le (owns : s.Owns own) (co : Coherent {h | s.HasHeader h}) (hf : s.frontier? = some f)
    (run : Runs s f hs g) : hs.length + own.length ≤ s.headers.size := by
  have has : ∀ h ∈ hs.reverse ++ own, s.HasHeader h := by
    intro h hh
    rcases List.mem_append.1 hh with hh | hh
    · exact run.has h (List.mem_reverse.1 hh)
    · exact owns.has h hh
  have lin := run.lineage owns.lineage (owns.frontier.symm.trans hf)
  have hle := length_le_of_nodup_hash has (lin.nodup_hash co has)
  rwa [List.length_append, List.length_reverse] at hle

/-- From any header of the segment the walk comes to what it comes to from the frontier. -/
lemma restore (owns : s.Owns own) (co : Coherent {h | s.HasHeader h}) (hf : s.frontier? = some f)
    (run : Runs s f hs g) (hstart : start ∈ own)
    (hexec : ∀ steps, hs.length < steps → (restoreWithin steps f.parent).exec s = (r.map some, t)) :
    (Segment.restore start).exec s = (r, t) := by
  obtain ⟨i, hi⟩ := List.mem_iff_getElem?.1 hstart
  have hlt := (List.getElem?_eq_some_iff.1 hi).1
  have hle := owns.length_le co hf run
  obtain ⟨steps, hsteps⟩ := Nat.exists_eq_add_of_le' (show i ≤ s.headers.size + 1 by omega)
  apply exec_restore_eq
  rw [hsteps, (owns.walk co hf hi).1 steps]
  exact hexec steps (by omega)

end Owns
end Segment

namespace Sync

open Segment

variable {m : Type → Type} [Monad m] {σ π : Type} {f : Header}

/-- Restoring from the frontier takes back the longest run of stored headers below it and tells why the
run ends, whatever the rows hold. Nothing else of a sync changes, and no peer is asked. If parents do not
run in a circle, it does the same from every header of the segment. -/
theorem restore_exact (x : SyncState ByteMap σ π) (hf : x.segment.frontier? = some f) :
    ∃ hs g r t, TakesBack x.segment t f hs g ∧ EndsRun x.segment g r ∧
      exec (onSegment (restore f) : SyncT m ByteMap σ π Hash) x =
        pure (r, { x with segment := t }) ∧
      Restores (f.parent, x.segment) hs.length (r, t) ∧
      (Coherent {h | x.segment.HasHeader h} → ∀ own, x.segment.Owns own → ∀ start ∈ own,
        exec (onSegment (restore start) : SyncT m ByteMap σ π Hash) x =
          pure (r, { x with segment := t }) ∧
        Restores (start.parent, x.segment) hs.length (r, t)) := by
  obtain ⟨hs, g, r, run, ends⟩ := exists_runs x.segment f
  obtain ⟨t, taken, walk, hexec⟩ := exists_takesBack run ends hf
  have hrun : ∀ start, (restore start).exec x.segment = (r, t) →
      exec (onSegment (restore start) : SyncT m ByteMap σ π Hash) x =
        pure (r, { x with segment := t }) := by
    intro start hrestore
    have hid : r.mapError id = r := by cases r <;> rfl
    simp only [exec, onSegment, offline, Operation.exec_onPart, hrestore, hid]
  refine ⟨hs, g, r, t, taken, ends, hrun f ?_, walk, ?_⟩
  · exact exec_restore_eq (hexec _ (Nat.lt_succ_of_le run.length_le))
  · intro co own owns start hstart
    obtain ⟨i, hi⟩ := List.mem_iff_getElem?.1 hstart
    obtain ⟨-, walks⟩ := owns.walk co hf hi
    exact ⟨hrun start (owns.restore co hf run hstart hexec), walks _ _ walk⟩

/-- A segment of two blocks over a table that has genesis: restoring from its upper block takes genesis
back, and comes to the hash that stands for no block. -/
theorem restore_exact_first :
    let s : Segment ByteMap := (((Segment.empty.putHeader Block.genesis.header).putHeader
      Block.second.header).putHeader Block.first.header).moved Block.first.header Block.second.header
    let x : SyncState ByteMap Unit Unit := { segment := s, chain := (), peer := () }
    s.frontier? = some Block.first.header ∧ Coherent {h | s.HasHeader h} ∧
      s.Owns [Block.first.header, Block.second.header] ∧
      ∃ t, TakesBack s t Block.first.header [Block.genesis.header] Block.genesis.header ∧
        exec (onSegment (restore Block.second.header) : SyncT Id ByteMap Unit Unit Hash) x =
          pure (.ok Hash.zero, { x with segment := t }) := by
  intro s x
  have co : Coherent {h | s.HasHeader h} := by
    apply coherent_second.mono
    rintro h ⟨row, hrow, hread⟩
    simp only [s, moved_headers, putHeader_rows] at hrow
    split_ifs at hrow
    case neg => simp [Segment.empty, Table.empty, KeyValue.empty] at hrow
    all_goals
      cases hrow
      rw [Header.ofBytes_toBytes (Block.sized_of_nil rfl rfl).header] at hread
      cases hread
      simp
  have put : ∀ (t : Segment ByteMap), ∀ a ∈ [Block.genesis, Block.first, Block.second],
      (t.putHeader a.header).HasHeader a.header ∧
        ∀ b ∈ [Block.genesis, Block.first, Block.second], t.HasHeader b.header →
          (t.putHeader a.header).HasHeader b.header := by
    intro t a ha
    have hsized : a.header.Sized := by
      rcases ha with _ | ⟨_, _ | ⟨_, _ | ⟨_, ⟨⟩⟩⟩⟩ <;> exact (Block.sized_of_nil rfl rfl).header
    refine ⟨hasHeader_put hsized, fun b hb has => has.put hsized fun e => ?_⟩
    exact coherent_second.eq_of_hash (List.mem_map_of_mem ha) (List.mem_map_of_mem hb) e
  have below := (put _ Block.second (by simp)).2 Block.genesis (by simp)
    (put Segment.empty Block.genesis (by simp)).1
  have has : ∀ b ∈ [Block.genesis, Block.first, Block.second], s.HasHeader b.header := by
    intro b hb
    rw [HasHeader, moved_headers]
    rcases hb with _ | ⟨_, _ | ⟨_, _ | ⟨_, ⟨⟩⟩⟩⟩
    · exact (put _ Block.first (by simp)).2 Block.genesis (by simp) below
    · exact (put _ Block.first (by simp)).1
    · exact (put _ Block.first (by simp)).2 Block.second (by simp) (put _ Block.second (by simp)).1
  have owns : s.Owns [Block.first.header, Block.second.header] :=
    ⟨List.isChain_pair.2 rfl, by simp [has Block.first, has Block.second], rfl, rfl⟩
  have run : Runs s Block.first.header [Block.genesis.header] Block.genesis.header :=
    .down (has Block.genesis (by simp)) ⟨rfl, by decide⟩ .stay
  have absent : EndsRun s Block.genesis.header (.ok Hash.zero) := by
    apply EndsRun.absent
    simp only [s, moved_headers, putHeader_rows]
    split_ifs with e e e
    · exact absurd (Hash.ext e) Block.first_hash_ne_zero
    · exact absurd (Hash.ext e) Block.second_hash_ne_zero
    · exact absurd (Hash.ext e) Block.genesis_hash_ne_zero
    · simp [Segment.empty, Table.empty, KeyValue.empty]
  obtain ⟨hs, g, r, t, taken, ends, -, -, stale⟩ := restore_exact (m := Id) x rfl
  obtain rfl : hs = [Block.genesis.header] :=
    (absent.longest run taken.run).eq_of_length_le (taken.longest _ _ run).length_le
  obtain rfl : Block.genesis.header = g := Option.some.inj taken.run.getLast?
  obtain rfl := ends.unique absent
  exact ⟨rfl, co, owns, t, taken, (stale co _ owns _ (by simp)).1⟩

end Sync
end ChainSync
