import ChainSync.Proofs.Segment.Descent
import ChainSync.Proofs.Sync.Provenance

/-!
# Calls that share a segment

Several calls may extend one segment backward. A call has the segment to itself while it begins its step,
and once more when the header comes that it waits for. In between other calls begin, complete and are given
up, blocks are trusted and stored, and everything is cleared. A run is a list of such turns in any order; a
call that nothing interrupts is two of them in a row (`exists_took_execute`).

What a call found when it began is not trusted later: a header is saved only below the frontier of that
moment (`Segment.Lowers`), and else refused without a change (`Segment.Refuses`). So the segment lists
headers after every turn, and while nothing is cleared the list grows only at its ends (`Listed`). Hence no
header is saved twice (`consistent_took`).
-/

namespace ChainSync

namespace Segment

variable {s t : Segment ByteMap} {U : Set Header} {hs : List Header} {h : Header} {b : Block}

/-- Why a header does not go below the frontier of a segment. -/
inductive Refuses : Option Header → Header → SyncError → Prop where
  | empty {h : Header} : Refuses none h .emptyChain
  | unlinked {f h : Header} : ¬ h.IsParent f → Refuses (some f) h (.linkage f.parent h.hash)
  | gap {f h : Header} : h.IsParent f → h.number.toNat + 1 ≠ f.number.toNat →
    Refuses (some f) h (.heightGap f.number h.number)

/-- A header that precedes the frontier is stored, linked to it and becomes the frontier. -/
def Lowers (s t : Segment ByteMap) (h : Header) : Prop :=
  ∃ ends, s.anchors = some ends ∧ Precedes h ends.frontier ∧
    t = ((s.putHeader h).putLink h.hash ends.frontier.hash).moved h ends.pivot

/-- Prepending lowers the frontier, or is refused without a change. -/
lemma lowers_or_refuses (s : Segment ByteMap) (h : Header) :
    (∃ t, (prepend h).exec s = (.ok (), t) ∧ Lowers s t h) ∨
      ∃ e, (prepend h).exec s = (.error e, s) ∧ Refuses s.frontier? h e := by
  rcases exec_prepend s h with ⟨ends, hends, pre, hexec⟩ | ⟨hnot, -⟩
  · exact .inl ⟨_, hexec, ends, hends, pre, rfl⟩
  · right
    simp only [prepend, prependWith, Operation.exec_bind, Operation.exec_get, frontier?]
    cases hends : s.anchors with
    | none => exact ⟨_, rfl, .empty⟩
    | some ends =>
      by_cases hparent : h.IsParent ends.frontier
      · have hnumber : h.number.toNat + 1 ≠ ends.frontier.number.toNat := fun e =>
          hnot ends hends ⟨hparent, e⟩
        refine ⟨.heightGap ends.frontier.number h.number, ?_, .gap hparent hnumber⟩
        rw [Header.IsParent] at hparent
        simp [hparent, hnumber]
      · refine ⟨.linkage ends.frontier.parent h.hash, ?_, .unlinked hparent⟩
        rw [Header.IsParent] at hparent
        simp [hparent]

/-- A segment lists headers over some rows, and its rows are known. -/
structure Listed (U : Set Header) (s : Segment ByteMap) (hs : List Header) : Prop where
  lists : ∃ origin, Lists origin s U hs
  rows : Known U s

namespace Listed

/-- The empty segment lists nothing. -/
lemma empty : Listed U Segment.empty [] := ⟨⟨_, Lists.empty⟩, .empty⟩

/-- A segment spans what it lists. -/
lemma spans (listed : Listed U s hs) : s.Spans hs := by
  obtain ⟨origin, lists⟩ := listed.lists
  exact lists.spans

/-- A header that lowers the frontier comes first in the list. -/
lemma lower (listed : Listed U s hs) (co : Coherent U) (hsized : h.Sized) (hh : h ∈ U)
    (lowers : Lowers s t h) : Listed U t (h :: hs) := by
  obtain ⟨origin, lists⟩ := listed.lists
  obtain ⟨ends, hends, pre, rfl⟩ := lowers
  obtain ⟨hf, hp⟩ := lists.ends hends
  exact ⟨⟨origin, lists.prepend co hsized hh hf hp pre.parent⟩,
    (listed.rows.putHeader hsized hh).of_eq rfl rfl⟩

/-- Stored ancestors join the list at its lower end. -/
lemma restore (listed : Listed U s hs) (co : Coherent U) (start : Header) :
    ∃ hs', Listed U ((restore start).exec s).2 hs' ∧ hs <:+: hs' := by
  apply restore_keeps (P := fun t => ∃ hs', Listed U t hs' ∧ hs <:+: hs') _ start
    ⟨hs, listed, List.infix_rfl⟩
  rintro t h ⟨hs', listed', grown⟩ has
  rcases exec_prependStored t h with ⟨ends, hends, pre, hexec⟩ | ⟨-, e, hexec⟩ <;> rw [hexec]
  · obtain ⟨origin, lists⟩ := listed'.lists
    obtain ⟨hf, hp⟩ := lists.ends hends
    have hh := listed'.rows.headers h has
    exact ⟨h :: hs', ⟨⟨origin, lists.prependStored co has hh hf hp pre.parent⟩,
      listed'.rows.of_eq rfl rfl⟩, List.infix_cons grown⟩
  · exact ⟨hs', listed', grown⟩

/-- A trusted block joins the list at its upper end, or is refused. -/
lemma trust (listed : Listed U s hs) (co : Coherent U) (hsized : b.Sized) (hb : b.header ∈ U) :
    ∃ hs', Listed U ((trust b).exec s).2 hs' ∧ hs <:+: hs' := by
  obtain ⟨origin, lists⟩ := listed.lists
  have put := (listed.rows.putHeader hsized.header hb).putBlock hsized hb
  rw [exec_trust]
  cases hends : s.anchors with
  | none =>
    obtain rfl := lists.eq_nil hends
    exact ⟨_, ⟨⟨origin, lists.anchor hsized hb⟩, put.of_eq rfl rfl⟩, List.nil_infix⟩
  | some ends =>
    obtain ⟨hf, hp⟩ := lists.ends hends
    by_cases hparent : b.header.parent = ends.pivot.hash
    · simp only [hparent, if_true]
      exact ⟨_, ⟨⟨origin, lists.extend co hsized hb hf hp hparent⟩, put.of_eq rfl rfl⟩,
        (List.prefix_append hs [b.header]).isInfix⟩
    · simp only [hparent, if_false]
      exact ⟨hs, listed, List.infix_rfl⟩

/-- Storing a block leaves the list. -/
lemma storeBlock (listed : Listed U s hs) (co : Coherent U) (hsized : b.Sized) (hb : b.header ∈ U) :
    Listed U (s.putBlock b) hs := by
  obtain ⟨origin, lists⟩ := listed.lists
  exact ⟨⟨origin, lists.storeBlock co hsized hb⟩, listed.rows.putBlock hsized hb⟩

/-- What is listed already does not go below the frontier once more. -/
lemma hash_ne_of_lowers (listed : Listed U t (h :: hs)) (co : Coherent U) :
    ∀ h' ∈ hs, h'.hash ≠ h.hash := by
  obtain ⟨origin, lists⟩ := listed.lists
  have nodup := lists.nodup_hash co
  rw [List.map_cons, List.nodup_cons] at nodup
  intro h' hh' e
  exact nodup.1 (e ▸ List.mem_map_of_mem hh')

end Listed
end Segment

namespace Sync

open Segment

/-- A segment that calls share, some of which wait for a header. -/
structure Shared (σ π : Type) where
  state : SyncState ByteMap σ π
  /-- The hash of the header that a call waits for. -/
  waiting : Nat → Option Hash := fun _ => none

/-- What happens to a shared segment at a time. -/
inductive Turn where
  /-- A call begins a step from a header, which may have been the frontier long ago. -/
  | begin (call : Nat) (start : Header)
  /-- A header comes for a call. -/
  | complete (call : Nat) (h : Header)
  /-- A call is given up, by its caller or because its fetch failed. -/
  | drop (call : Nat)
  | trust (b : Block)
  | storeBlock (b : Block)
  | clear

variable {σ π : Type}

namespace Shared

/-- A call leaves a state behind and waits for the header with a hash, or for none. -/
def next (s : Shared σ π) (call : Nat) (hash? : Option Hash) (state : SyncState ByteMap σ π) :
    Shared σ π where
  state
  waiting := Function.update s.waiting call hash?

/-- An operation on the segment that is no part of a call. -/
def apart (s : Shared σ π) (act : SegmentM ByteMap Unit) :
    Except SyncError (Option Header) × Shared σ π :=
  match Operation.exec (onSegment act) s.state with
  | (r, state) => (r.map fun _ => none, { s with state })

end Shared

namespace Turn

variable [LocalChain σ]

/-- Takes a turn: the header that it saved, if any, and what it leaves behind. -/
def exec (s : Shared σ π) : Turn → Except SyncError (Option Header) × Shared σ π
  | begin call start =>
    match Operation.exec (beginStep start) s.state with
    | (.ok (.inl found), state) => (.ok (some found.header), s.next call none state)
    | (.ok (.inr hash), state) => (.ok none, s.next call (some hash) state)
    | (.error e, state) => (.error e, s.next call none state)
  | complete call h =>
    if s.waiting call = some h.hash then
      match Operation.exec (endStep h) s.state with
      | (.ok found, state) => (.ok (some found.header), s.next call none state)
      | (.error e, state) => (.error e, s.next call none state)
    else (.ok none, s)
  | drop call => (.ok none, s.next call none s.state)
  | trust b => s.apart (Segment.trust b)
  | storeBlock b => s.apart (Segment.storeBlock b)
  | clear => s.apart Segment.clear

/-- What a turn leaves behind. -/
def after (s : Shared σ π) (turn : Turn) : Shared σ π := (turn.exec s).2

/-- The segment to which a turn may add a header: beginning restores stored ancestors first. -/
def ready (s : Shared σ π) : Turn → Segment ByteMap
  | begin _ start => ((Segment.restore start).exec s.state.segment).2
  | _ => s.state.segment

/-- What a turn brings can be written, and its header is from a set. -/
def Brings (U : Set Header) : Turn → Prop
  | complete _ h => h ∈ U ∧ h.Sized
  | trust b | storeBlock b => b.header ∈ U ∧ b.Sized
  | begin _ _ | drop _ | clear => True

end Turn

variable [LocalChain σ] {U : Set Header} {hs : List Header} {s : Shared σ π} {turn : Turn}
  {turns : List Turn} {call : Nat} {h : Header}

/-- What some turns leave behind. -/
def Shared.took (s : Shared σ π) (turns : List Turn) : Shared σ π := turns.foldl Turn.after s

/-- After some turns another one saves a header. -/
def Shared.Saves (s : Shared σ π) (pre : List Turn) (turn : Turn) (h : Header) : Prop :=
  (turn.exec (s.took pre)).1 = .ok (some h)

/-- No order of turns corrupts a shared segment. -/
structure Consistent (s : Shared σ π) (turns : List Turn) : Prop where
  /-- Beginning a step takes stored ancestors below the frontier one after the other, and then saves a
  header or leaves it at that. -/
  begun : ∀ pre call start, pre ++ [.begin call start] <+: turns →
    (∃ hs, Descends (s.took pre).state.segment ((Turn.begin call start).ready (s.took pre)) hs) ∧
      ((∃ h, s.Saves pre (.begin call start) h) ∨
        (s.took (pre ++ [.begin call start])).state.segment =
          (Turn.begin call start).ready (s.took pre))
  /-- Whatever is saved goes below the frontier of that moment. -/
  saved : ∀ pre turn h, pre ++ [turn] <+: turns → s.Saves pre turn h →
    Lowers (turn.ready (s.took pre)) (s.took (pre ++ [turn])).state.segment h
  /-- The header that a call waits for is saved, or refused without a change. -/
  completed : ∀ pre call h, pre ++ [.complete call h] <+: turns →
    (s.took pre).waiting call = some h.hash →
      s.Saves pre (.complete call h) h ∨
        ∃ e, ((Turn.complete call h).exec (s.took pre)).1 = .error e ∧
          Refuses (s.took pre).state.segment.frontier? h e ∧
          (s.took (pre ++ [.complete call h])).state = (s.took pre).state
  /-- No header is saved twice, unless everything was cleared in between. -/
  once : ∀ pre turn mid turn' h h', pre ++ turn :: mid ++ [turn'] <+: turns → s.Saves pre turn h →
    s.Saves (pre ++ turn :: mid) turn' h' → h.hash = h'.hash → .clear ∈ mid
  /-- The links lead from the frontier to the pivot, and while nothing is cleared the list of headers on
  this way grows only at its ends. -/
  spans : ∀ pre mid, pre ++ mid <+: turns → .clear ∉ mid →
    ∃ hs hs', (s.took pre).state.segment.Spans hs ∧ (s.took (pre ++ mid)).state.segment.Spans hs' ∧
      hs <:+: hs'

/-! ## One turn -/

/-- Turns are taken one after the other. -/
lemma took_append (pre mid : List Turn) : s.took (pre ++ mid) = (s.took pre).took mid :=
  List.foldl_append

/-- The last turn is taken after the others. -/
lemma took_concat (pre : List Turn) (turn : Turn) : s.took (pre ++ [turn]) = turn.after (s.took pre) :=
  took_append pre [turn]

omit [LocalChain σ] in
/-- To save a header is to lower the frontier, or nothing. -/
lemma exec_save (s : SyncState ByteMap σ π) (h : Header) :
    (∃ seg, Operation.exec (save h : SyncT Id ByteMap σ π Unit) s = (.ok (), { s with segment := seg }) ∧
        Lowers s.segment seg h) ∨
      ∃ e, Operation.exec (save h : SyncT Id ByteMap σ π Unit) s = (.error e, s) ∧
        Refuses s.segment.frontier? h e := by
  rw [save, exec_onSegment]
  rcases lowers_or_refuses s.segment h with ⟨seg, hexec, lowers⟩ | ⟨e, hexec, refuses⟩ <;> rw [hexec]
  · exact .inl ⟨seg, rfl, lowers⟩
  · exact .inr ⟨e, rfl, refuses⟩

/-- A step that begins may save a header of the local chain below what it restored. -/
lemma exec_beginStep (s : SyncState ByteMap σ π) (start : Header) :
    (∃ hash h seg, Operation.exec (beginStep start : SyncT Id ByteMap σ π _) s =
          (.ok (.inl { header := h, source := .localChain }), { s with segment := seg }) ∧
        LocalChain.header? s.chain hash = .ok (some h) ∧
        Lowers ((Segment.restore start).exec s.segment).2 seg h) ∨
      ∃ r, Operation.exec (beginStep start : SyncT Id ByteMap σ π _) s =
          (r, { s with segment := ((Segment.restore start).exec s.segment).2 }) ∧
        ∀ found, r ≠ .ok (.inl found) := by
  rw [beginStep, Operation.exec_bind, exec_onSegment]
  rcases (Segment.restore start).exec s.segment with ⟨e | hash, seg⟩
  · exact .inr ⟨_, rfl, nofun⟩
  · simp only [Except.mapError, Operation.exec_bind, exec_localHeader?]
    rcases hfound : LocalChain.header? s.chain hash with e | _ | h
    · exact .inr ⟨_, rfl, nofun⟩
    · exact .inr ⟨_, rfl, nofun⟩
    · simp only [Operation.exec_bind]
      rcases exec_save { s with segment := seg } h with ⟨seg', hsave, lowers⟩ | ⟨e, hsave, -⟩ <;>
        rw [hsave]
      · exact .inl ⟨hash, h, seg', rfl, hfound, lowers⟩
      · exact .inr ⟨_, rfl, nofun⟩

/-- Beginning a step saves a header of the local chain, or leaves it at restoring. -/
lemma exec_begin (s : Shared σ π) (call : Nat) (start : Header) :
    (∃ hash h seg, (Turn.begin call start).exec s =
          (.ok (some h), s.next call none { s.state with segment := seg }) ∧
        LocalChain.header? s.state.chain hash = .ok (some h) ∧
        Lowers ((Turn.begin call start).ready s) seg h) ∨
      ∃ r hash?, (Turn.begin call start).exec s =
          (r, s.next call hash? { s.state with segment := (Turn.begin call start).ready s }) ∧
        ∀ h, r ≠ .ok (some h) := by
  rw [Turn.exec, Turn.ready]
  rcases exec_beginStep s.state start with ⟨hash, h, seg, hexec, hfound, lowers⟩ | ⟨r, hexec, hr⟩ <;>
    rw [hexec]
  · exact .inl ⟨hash, h, seg, rfl, hfound, lowers⟩
  · rcases r with e | found | hash
    · exact .inr ⟨_, none, rfl, nofun⟩
    · exact absurd rfl (hr found)
    · exact .inr ⟨_, some hash, rfl, nofun⟩

/-- The header that a call waits for lowers the frontier, or is refused. -/
lemma exec_complete (hwaits : s.waiting call = some h.hash) :
    (∃ seg, (Turn.complete call h).exec s =
          (.ok (some h), s.next call none { s.state with segment := seg }) ∧
        Lowers s.state.segment seg h) ∨
      ∃ e, (Turn.complete call h).exec s = (.error e, s.next call none s.state) ∧
        Refuses s.state.segment.frontier? h e := by
  rw [Turn.exec, if_pos hwaits, endStep, Operation.exec_bind]
  rcases exec_save s.state h with ⟨seg, hexec, lowers⟩ | ⟨e, hexec, refuses⟩ <;> rw [hexec]
  · exact .inl ⟨seg, rfl, lowers⟩
  · exact .inr ⟨e, rfl, refuses⟩

/-- A header that a call does not wait for changes nothing. -/
lemma exec_complete_of_ne (hwaits : s.waiting call ≠ some h.hash) :
    (Turn.complete call h).exec s = (.ok none, s) := by
  rw [Turn.exec, if_neg hwaits]

omit [LocalChain σ] in
/-- An operation that is no part of a call saves no header. -/
lemma apart_ne (s : Shared σ π) (act : SegmentM ByteMap Unit) (h : Header) :
    (s.apart act).1 ≠ .ok (some h) := by
  rw [Shared.apart, exec_onSegment]
  rcases (act.exec s.state.segment).1 with e | u <;> nofun

/-- A turn that saves a header is one of a call. -/
lemma saves_cases (hsaves : (turn.exec s).1 = .ok (some h)) :
    (∃ seg, (turn.after s).state = { s.state with segment := seg } ∧ Lowers (turn.ready s) seg h) ∧
      ((∃ call, turn = .complete call h) ∨
        ∃ hash, LocalChain.header? s.state.chain hash = .ok (some h)) := by
  cases turn with
  | begin call start =>
    rcases exec_begin s call start with ⟨hash, h', seg, hexec, hfound, lowers⟩ | ⟨r, hash?, hexec, hr⟩ <;>
      rw [hexec] at hsaves
    · cases hsaves
      exact ⟨⟨seg, by rw [Turn.after, hexec, Shared.next], lowers⟩, .inr ⟨hash, hfound⟩⟩
    · exact absurd hsaves (hr h)
  | complete call h' =>
    by_cases hwaits : s.waiting call = some h'.hash
    · rcases exec_complete hwaits with ⟨seg, hexec, lowers⟩ | ⟨e, hexec, -⟩ <;> rw [hexec] at hsaves <;>
        cases hsaves
      exact ⟨⟨seg, by rw [Turn.after, hexec, Shared.next], lowers⟩, .inl ⟨call, rfl⟩⟩
    · rw [exec_complete_of_ne hwaits] at hsaves
      cases hsaves
  | drop call => cases hsaves
  | trust b => exact absurd hsaves (apart_ne s _ h)
  | storeBlock b => exact absurd hsaves (apart_ne s _ h)
  | clear => exact absurd hsaves (apart_ne s _ h)

/-! ## What turns keep -/

/-- A shared segment lists headers, and the local chain has known ones. -/
structure Shared.Sound (U : Set Header) (s : Shared σ π) (hs : List Header) : Prop where
  listed : Listed U s.state.segment hs
  found : ∀ hash h, LocalChain.header? s.state.chain hash = .ok (some h) → h ∈ U ∧ h.Sized

namespace Shared.Sound

/-- The segment to which a turn may add a header lists what was listed before. -/
lemma ready (sound : s.Sound U hs) (co : Coherent U) (turn : Turn) :
    ∃ hs', Listed U (turn.ready s) hs' ∧ hs <:+: hs' := by
  cases turn with
  | begin call start => exact sound.listed.restore co start
  | _ => exact ⟨hs, sound.listed, List.infix_rfl⟩

/-- A header that is saved is put before what is listed. -/
lemma saves (sound : s.Sound U hs) (co : Coherent U) (brings : turn.Brings U)
    (hsaves : (turn.exec s).1 = .ok (some h)) :
    ∃ hs', (turn.after s).Sound U (h :: hs') ∧ hs <:+: hs' := by
  obtain ⟨⟨seg, hafter, lowers⟩, hfrom⟩ := saves_cases hsaves
  obtain ⟨hs', listed, grown⟩ := sound.ready co turn
  have hh : h ∈ U ∧ h.Sized := by
    rcases hfrom with ⟨call, rfl⟩ | ⟨hash, hfound⟩
    · exact brings
    · exact sound.found hash h hfound
  refine ⟨hs', ⟨?_, ?_⟩, grown⟩
  · rw [hafter]
    exact listed.lower co hh.2 hh.1 lowers
  · rw [hafter]
    exact sound.found

/-- An operation that leaves the segment listed leaves all sound. -/
lemma apart {act : SegmentM ByteMap Unit} (sound : s.Sound U hs) {hs' : List Header}
    (listed : Listed U (act.exec s.state.segment).2 hs') : (s.apart act).2.Sound U hs' where
  listed := listed
  found := sound.found

/-- Every turn keeps the list, unless it clears it. -/
lemma after (sound : s.Sound U hs) (co : Coherent U) (brings : turn.Brings U) :
    ∃ hs', (turn.after s).Sound U hs' ∧ (turn ≠ .clear → hs <:+: hs') := by
  cases turn with
  | begin call start =>
    rcases exec_begin s call start with ⟨hash, h, seg, hexec, -⟩ | ⟨r, hash?, hexec, -⟩
    · obtain ⟨hs', sound', grown⟩ := sound.saves co brings (by rw [hexec])
      exact ⟨h :: hs', sound', fun _ => List.infix_cons grown⟩
    · obtain ⟨hs', listed, grown⟩ := sound.ready co (.begin call start)
      rw [Turn.after, hexec]
      exact ⟨hs', ⟨listed, sound.found⟩, fun _ => grown⟩
  | complete call h =>
    by_cases hwaits : s.waiting call = some h.hash
    · rcases exec_complete hwaits with ⟨seg, hexec, -⟩ | ⟨e, hexec, -⟩
      · obtain ⟨hs', sound', grown⟩ := sound.saves co brings (by rw [hexec])
        exact ⟨h :: hs', sound', fun _ => List.infix_cons grown⟩
      · rw [Turn.after, hexec]
        exact ⟨hs, ⟨sound.listed, sound.found⟩, fun _ => List.infix_rfl⟩
    · rw [Turn.after, exec_complete_of_ne hwaits]
      exact ⟨hs, sound, fun _ => List.infix_rfl⟩
  | drop call => exact ⟨hs, ⟨sound.listed, sound.found⟩, fun _ => List.infix_rfl⟩
  | trust b =>
    obtain ⟨hs', listed, grown⟩ := sound.listed.trust co brings.2 brings.1
    exact ⟨hs', sound.apart listed, fun _ => grown⟩
  | storeBlock b =>
    exact ⟨hs, sound.apart (sound.listed.storeBlock co brings.2 brings.1), fun _ => List.infix_rfl⟩
  | clear => exact ⟨[], sound.apart Listed.empty, fun h => absurd rfl h⟩

/-- Turns keep the list, unless one of them clears it. -/
lemma took (sound : s.Sound U hs) (co : Coherent U) (brings : ∀ turn ∈ turns, turn.Brings U) :
    ∃ hs', (s.took turns).Sound U hs' ∧ (.clear ∉ turns → hs <:+: hs') := by
  induction turns generalizing s hs with
  | nil => exact ⟨hs, sound, fun _ => List.infix_rfl⟩
  | cons turn turns ih =>
    obtain ⟨hs', sound', grown⟩ := sound.after co (brings turn List.mem_cons_self)
    obtain ⟨hs'', sound'', grown'⟩ := ih sound' fun turn h => brings turn (List.mem_cons_of_mem _ h)
    refine ⟨hs'', sound'', fun hclear => ?_⟩
    rw [List.mem_cons, not_or] at hclear
    exact (grown (Ne.symm hclear.1)).trans (grown' hclear.2)

end Shared.Sound

/-- A header that is saved stays listed until everything is cleared, so it is not saved again. -/
lemma hash_ne_of_saves {mid : List Turn} {turn' : Turn} {h' : Header} (sound : s.Sound U hs)
    (co : Coherent U) (brings : ∀ t ∈ turn :: mid ++ [turn'], t.Brings U)
    (hclear : .clear ∉ mid) (hsaves : (turn.exec s).1 = .ok (some h))
    (hsaves' : (turn'.exec (s.took (turn :: mid))).1 = .ok (some h')) : h.hash ≠ h'.hash := by
  have hmid : ∀ t ∈ mid, t.Brings U := fun t ht => brings t (by simp [ht])
  obtain ⟨hs₁, sound₁, -⟩ := sound.saves co (brings turn (by simp)) hsaves
  obtain ⟨hs₂, sound₂, grown⟩ := sound₁.took co hmid
  obtain ⟨hs₃, sound₃, grown'⟩ := sound₂.saves co (brings turn' (by simp)) hsaves'
  have hmem : h ∈ hs₃ := grown'.subset ((grown hclear).subset List.mem_cons_self)
  exact sound₃.listed.hash_ne_of_lowers co h hmem

/-- Calls that share a segment may begin, complete and be given up in any order, from any header, and
whatever the peers answer and wherever blocks are trusted and stored and everything is cleared: what is
saved precedes the frontier, no header twice, and the segment goes on listing headers. -/
theorem consistent_took (hnew : s.state.segment.anchors = none) (rows : Known U s.state.segment)
    (found : ∀ hash h, LocalChain.header? s.state.chain hash = .ok (some h) → h ∈ U ∧ h.Sized)
    (brings : ∀ turn ∈ turns, turn.Brings U) (co : Coherent U) : Consistent s turns := by
  have initial : s.Sound U [] := ⟨⟨⟨_, Lists.nil hnew⟩, rows⟩, found⟩
  have sound : ∀ pre, pre <+: turns → ∃ hs, (s.took pre).Sound U hs := by
    intro pre hpre
    obtain ⟨hs, sound, -⟩ := initial.took co fun turn h => brings turn (hpre.subset h)
    exact ⟨hs, sound⟩
  exact {
    begun := by
      rintro pre call start -
      refine ⟨⟨_, descends_restore start _⟩, ?_⟩
      rcases exec_begin (s.took pre) call start with ⟨hash, h, seg, hexec, -⟩ | ⟨r, hash?, hexec, -⟩
      · exact .inl ⟨h, by rw [Shared.Saves, hexec]⟩
      · right
        rw [took_concat, Turn.after, hexec, Shared.next]
    saved := by
      rintro pre turn h - hsaves
      obtain ⟨⟨seg, hafter, lowers⟩, -⟩ := saves_cases hsaves
      rw [took_concat, hafter]
      exact lowers
    completed := by
      rintro pre call h - hwaits
      rcases exec_complete hwaits with ⟨seg, hexec, -⟩ | ⟨e, hexec, refuses⟩
      · exact .inl (by rw [Shared.Saves, hexec])
      · refine .inr ⟨e, by rw [hexec], refuses, ?_⟩
        rw [took_concat, Turn.after, hexec, Shared.next]
    once := by
      intro pre turn mid turn' h h' hpre hsaves hsaves' hhash
      by_contra hclear
      rw [List.append_assoc] at hpre
      obtain ⟨hs, sound⟩ := sound pre ((List.prefix_append pre _).trans hpre)
      rw [Shared.Saves, took_append] at hsaves'
      refine hash_ne_of_saves sound co (fun t ht => ?_) hclear hsaves hsaves' hhash
      exact brings t (hpre.subset (List.mem_append_right pre ht))
    spans := by
      intro pre mid hpre hclear
      obtain ⟨hs, sound⟩ := sound pre ((List.prefix_append pre mid).trans hpre)
      obtain ⟨hs', sound', grown⟩ := sound.took co fun turn h =>
        brings turn (hpre.subset (List.mem_append_right pre h))
      rw [took_append]
      exact ⟨hs, hs', sound.listed.spans, sound'.listed.spans, grown hclear⟩ }

/-- Two calls wait for genesis, and the second one is refused. A third one begins from a header that is the
frontier no more and is given up. When everything has been cleared, genesis is saved again. -/
theorem consistent_took_first :
    let s : Shared Chain Unit :=
      { state := { segment := Segment.empty, chain := Chain.empty, peer := () } }
    let waiting : List Turn :=
      [.trust Block.first, .begin 0 Block.first.header, .begin 1 Block.first.header]
    let again : List Turn :=
      [.begin 2 Block.first.header, .drop 2, .clear, .trust Block.first, .begin 3 Block.first.header]
    let first := Turn.complete 0 Block.genesis.header
    let second := Turn.complete 1 Block.genesis.header
    let third := Turn.complete 3 Block.genesis.header
    Consistent s (waiting ++ first :: second :: again ++ [third]) ∧
      s.Saves waiting first Block.genesis.header ∧
      (second.exec (s.took (waiting ++ [first]))).1 =
        .error (.linkage Block.genesis.header.parent Block.genesis.hash) ∧
      s.Saves (waiting ++ first :: second :: again) third Block.genesis.header := by
  intro s waiting again first second third
  have genesis : Block.genesis.header ∈ ({Block.genesis.header, Block.first.header} : Set Header) ∧
      Block.genesis.header.Sized := ⟨.inl rfl, (Block.sized_of_nil rfl rfl).header⟩
  have trusted : Block.first.header ∈ ({Block.genesis.header, Block.first.header} : Set Header) ∧
      Block.first.Sized := ⟨.inr rfl, Block.sized_of_nil rfl rfl⟩
  refine ⟨consistent_took (U := {Block.genesis.header, Block.first.header}) rfl Known.empty ?_ ?_
    coherent_first, ?_, ?_, ?_⟩
  · intro hash h hfound
    simp [s, LocalChain.header?, Chain.header?, Chain.blockByHash?, Chain.empty] at hfound
  · simp [waiting, again, first, second, third, Turn.Brings, genesis, trusted]
  · unfold Shared.Saves
    decide +kernel
  · decide +kernel
  · unfold Shared.Saves
    decide +kernel

/-! ## A call without interruption -/

section Alone

variable [Peer π Id]

omit [LocalChain σ] in
/-- An attempt brings a header with the hash, if any. -/
lemma tells_attemptHeader (hash : Hash) :
    Tells (fun _ _ found => ∀ h, found = some h → h.hash = hash)
      (attemptHeader hash : SyncT Id ByteMap σ π (Option Header)) := by
  rintro s found t log hexec - h hfound
  rw [attemptHeader, Operation.exec_bind, Operation.exec_get] at hexec
  simp only [Operation.exec_bind, exec_askHeaders] at hexec
  cases hanswer : ((Peer.headers hash s.config.headersPerRequest : StateT π Id _).run s.peer).1 with
  | error cause =>
    simp only [hanswer, Operation.exec_pure, Prod.mk.injEq, Except.ok.injEq] at hexec
    rw [hfound] at hexec
    cases hexec.1
  | ok headers =>
    simp only [hanswer, Operation.exec_pure, Prod.mk.injEq, Except.ok.injEq] at hexec
    simpa using List.find?_some (hexec.1.trans hfound)

omit [LocalChain σ] in
/-- The header that is fetched has the hash that was asked for. -/
lemma tells_fetchHeader (hash : Hash) :
    Tells (fun _ _ h => h.hash = hash) (fetchHeader hash : SyncT Id ByteMap σ π Header) := by
  intro s h t log hexec follows
  rw [fetchHeader, Operation.exec_bind, Operation.exec_get] at hexec
  exact tells_retry (V := fun _ _ h => h.hash = hash) (.attemptHeader hash) (tells_attemptHeader hash)
    (fun _ _ _ _ => id) _ hexec follows

omit [Peer π Id] [LocalChain σ] in
/-- The end of a step prepends its header. -/
lemma segment_endStep (s : SyncState ByteMap σ π) (h : Header) :
    (Operation.exec (endStep h : SyncT Id ByteMap σ π _) s).2.segment =
      ((Segment.prepend h).exec s.segment).2 := by
  rw [endStep, Operation.exec_bind, save, exec_onSegment]
  rcases (Segment.prepend h).exec s.segment with ⟨e | u, seg⟩ <;> rfl

omit [Peer π Id] in
/-- Completing a call prepends its header. -/
lemma segment_complete (hwaits : s.waiting call = some h.hash) :
    ((Turn.complete call h).after s).state.segment =
      ((Segment.prepend h).exec s.state.segment).2 := by
  rw [← segment_endStep, Turn.after, Turn.exec, if_pos hwaits]
  rcases Operation.exec (endStep h : SyncT Id ByteMap σ π _) s.state with ⟨e | found, t⟩ <;> rfl

/-- A call that is not interrupted begins, and then completes or is given up. -/
theorem exists_took_execute (s : Shared σ π) (call : Nat) (start : Header) :
    ∃ last, (last = .drop call ∨ ∃ h, last = .complete call h) ∧
      (s.took [.begin call start, last]).state.segment =
        (Operation.exec (execute start) s.state).2.segment := by
  have htook : ∀ last, s.took [.begin call start, last] =
      last.after ((Turn.begin call start).after s) := fun _ => rfl
  rw [execute, Operation.exec_bind]
  rcases hbegin : Operation.exec (beginStep start : SyncT Id ByteMap σ π _) s.state with
    ⟨e | found | hash, t⟩
  · refine ⟨.drop call, .inl rfl, ?_⟩
    rw [htook, Turn.after, Turn.exec, Turn.after, Turn.exec, hbegin]
    rfl
  · refine ⟨.drop call, .inl rfl, ?_⟩
    rw [htook, Turn.after, Turn.exec, Turn.after, Turn.exec, hbegin]
    rfl
  have hafter : (Turn.begin call start).after s = s.next call (some hash) t := by
    rw [Turn.after, Turn.exec, hbegin]
  -- the fetch keeps the segment
  simp only [Operation.exec_bind, takeNetwork, exec_note]
  have kept := Keeps.fetchHeader (f := fun seg _ => seg) hash { t with events := t.events.push .network }
  obtain ⟨log, follows⟩ := Traced.fetchHeader hash { t with events := t.events.push .network }
  rcases hfetch : Operation.exec (fetchHeader hash) { t with events := t.events.push .network } with
    ⟨e | h, u⟩ <;> simp only [hfetch] at kept follows
  · refine ⟨.drop call, .inl rfl, ?_⟩
    rw [htook, hafter, kept]
    rfl
  · obtain rfl : h.hash = hash := tells_fetchHeader hash hfetch follows
    refine ⟨.complete call h, .inr ⟨h, rfl⟩, ?_⟩
    have hwaits : (s.next call (some h.hash) t).waiting call = some h.hash := Function.update_self ..
    rw [htook, hafter, segment_complete hwaits, segment_endStep, kept]
    rfl

end Alone

end Sync
end ChainSync
