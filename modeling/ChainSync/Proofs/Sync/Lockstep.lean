import ChainSync.Proofs.Canonical
import ChainSync.Proofs.Segment.Descent
import ChainSync.Proofs.Sync.Trace

/-!
# Two walks in lockstep

Two syncs on the same segment and the same local chain, each with a peer and settings of its own, are
told the same story as far as they get: what a peer decides is whether a request succeeds, not what it
brings, as the header that is fetched is the only one with the hash that was asked for.

`Agree U act act'` says so of two operations: if both succeed and the peers bring nothing but headers
from `U`, they return the same and leave the same. From it comes that the `frontiers` of one walk are
the first ones of the other (`syncToLocal_agrees`).
-/

namespace ChainSync.Sync

variable {κ σ π π' α β : Type} [Peer π Id] [Peer π' Id] {U : Set Header}

/-! ## Operations that agree -/

/-- Two syncs work on the same segment and the same chain. -/
structure Alike (s : SyncState κ σ π) (s' : SyncState κ σ π') : Prop where
  segment : s.segment = s'.segment
  chain : s.chain = s'.chain

/-- While an operation runs the peer brings nothing but headers from a set. -/
def Supplied (U : Set Header) (act : SyncT Id κ σ π α) (s : SyncState κ σ π) : Prop :=
  ∃ log, Follows s (Operation.exec act s).2 log ∧ Peer.Brings U s.peer log

/-- A peer that supplies two operations in a row supplies each. -/
lemma Supplied.bind {act : SyncT Id κ σ π α} {next : α → SyncT Id κ σ π β} {s : SyncState κ σ π}
    (supplied : Supplied U (act >>= next) s) (traced : Traced act) (htraced : ∀ x, Traced (next x)) :
    Supplied U act s ∧ ∀ x t, Operation.exec act s = (.ok x, t) → Supplied U (next x) t := by
  obtain ⟨log, follows, brings⟩ := supplied
  obtain ⟨log₁, first⟩ := traced s
  rw [Operation.exec_bind] at follows
  rcases hexec : Operation.exec act s with ⟨e | x, t⟩ <;> rw [hexec] at first follows
  · obtain rfl := first.unique follows
    refine ⟨⟨log₁, by rwa [hexec], brings⟩, ?_⟩
    rintro x t ⟨⟩
  · obtain ⟨log₂, second⟩ := htraced x t
    obtain rfl := (first.trans second).unique follows
    obtain ⟨brings₁, brings₂⟩ := Peer.brings_append.1 brings
    rw [← first.peer] at brings₂
    refine ⟨⟨log₁, by rwa [hexec], brings₁⟩, ?_⟩
    rintro x t ⟨⟩
    exact ⟨log₂, second, brings₂⟩

/-- From like states two operations return the same and end in like states, if both succeed and their
peers bring nothing but headers from `U`. -/
structure Agree (U : Set Header) (act : SyncT Id κ σ π α) (act' : SyncT Id κ σ π' α) : Prop where
  traced : Traced act
  traced' : Traced act'
  agrees : ∀ {s s' x x' t t'}, Alike s s' → Supplied U act s → Supplied U act' s' →
    Operation.exec act s = (.ok x, t) → Operation.exec act' s' = (.ok x', t') → x = x' ∧ Alike t t'

namespace Agree

/-- Returning the same agrees. -/
lemma pure (x : α) : Agree U (pure x : SyncT Id κ σ π α) (pure x : SyncT Id κ σ π' α) where
  traced := .pure x
  traced' := .pure x
  agrees := by
    rintro s s' _ _ _ _ alike - - ⟨⟩ ⟨⟩
    exact ⟨rfl, alike⟩

/-- Failing with the same agrees. -/
lemma throw (e : SyncError) :
    Agree U (throw e : SyncT Id κ σ π α) (throw e : SyncT Id κ σ π' α) where
  traced := .throw e
  traced' := .throw e
  agrees := by rintro s s' _ _ _ _ - - - ⟨⟩

/-- Operations that agree do so in a row. -/
lemma bind {act : SyncT Id κ σ π α} {act' : SyncT Id κ σ π' α} {next : α → SyncT Id κ σ π β}
    {next' : α → SyncT Id κ σ π' β} (h : Agree U act act') (hnext : ∀ x, Agree U (next x) (next' x)) :
    Agree U (act >>= next) (act' >>= next') where
  traced := h.traced.bind fun x => (hnext x).traced
  traced' := h.traced'.bind fun x => (hnext x).traced'
  agrees := by
    intro s s' y y' u u' alike supplied supplied' hexec hexec'
    obtain ⟨first, second⟩ := supplied.bind h.traced fun x => (hnext x).traced
    obtain ⟨first', second'⟩ := supplied'.bind h.traced' fun x => (hnext x).traced'
    rw [Operation.exec_bind] at hexec hexec'
    rcases hact : Operation.exec act s with ⟨e | x, t⟩
    · simp [hact] at hexec
    rcases hact' : Operation.exec act' s' with ⟨e | x', t'⟩
    · simp [hact'] at hexec'
    simp only [hact] at hexec
    simp only [hact'] at hexec'
    obtain ⟨rfl, alike'⟩ := h.agrees alike first first' hact hact'
    exact (hnext x).agrees alike' (second x t hact) (second' x t' hact') hexec hexec'

/-- Both look at their states, which are alike in all that is looked at. -/
lemma get_bind {next : SyncState κ σ π → SyncT Id κ σ π α} {next' : SyncState κ σ π' → SyncT Id κ σ π' α}
    (traced : Traced (MonadState.get >>= next)) (traced' : Traced (MonadState.get >>= next'))
    (h : ∀ s s', Alike s s' → Agree U (next s) (next' s')) :
    Agree U (MonadState.get >>= next) (MonadState.get >>= next') where
  traced := traced
  traced' := traced'
  agrees := by
    intro s s' x x' t t' alike supplied supplied' hexec hexec'
    exact (h s s' alike).agrees alike supplied supplied' hexec hexec'

/-- The same operation on the segment agrees. -/
lemma onSegment (act : SegmentM κ α) :
    Agree U (onSegment act : SyncT Id κ σ π α) (onSegment act : SyncT Id κ σ π' α) where
  traced := .onSegment act
  traced' := .onSegment act
  agrees := by
    intro s s' x x' t t' alike _ _ hexec hexec'
    rw [exec_onSegment, Prod.mk.injEq, mapError_eq_ok] at hexec hexec'
    obtain ⟨hx, rfl⟩ := hexec
    obtain ⟨hx', rfl⟩ := hexec'
    rw [← alike.segment] at hx' ⊢
    exact ⟨Except.ok.inj (hx.symm.trans hx'), rfl, alike.chain⟩

/-- Asking the local chain agrees. -/
lemma localHeader? [LocalChain σ] (hash : Hash) :
    Agree U (localHeader? hash : SyncT Id κ σ π _) (localHeader? hash : SyncT Id κ σ π' _) where
  traced := .localHeader? hash
  traced' := .localHeader? hash
  agrees := by
    intro s s' x x' t t' alike _ _ hexec hexec'
    rw [exec_localHeader?, Prod.mk.injEq, mapError_eq_ok] at hexec hexec'
    obtain ⟨hx, rfl⟩ := hexec
    obtain ⟨hx', rfl⟩ := hexec'
    rw [← alike.chain] at hx'
    exact ⟨Except.ok.inj (hx.symm.trans hx'), alike⟩

/-- Taking the network agrees. -/
lemma takeNetwork : Agree U (takeNetwork : SyncT Id κ σ π _) (takeNetwork : SyncT Id κ σ π' _) where
  traced := .takeNetwork
  traced' := .takeNetwork
  agrees := by
    rintro s s' _ _ _ _ alike - - ⟨⟩ ⟨⟩
    exact ⟨rfl, alike.segment, alike.chain⟩

/-- What is fetched for a hash is the header of the set that has it, whichever peer sends it and in
whatever attempt. -/
lemma fetchHeader (hinj : U.InjOn Header.hash) (hash : Hash) :
    Agree U (fetchHeader hash : SyncT Id κ σ π _) (fetchHeader hash : SyncT Id κ σ π' _) where
  traced := .fetchHeader hash
  traced' := .fetchHeader hash
  agrees := by
    intro s s' h h' t t' alike supplied supplied' hexec hexec'
    obtain ⟨log, follows, brings⟩ := supplied
    obtain ⟨log', follows', brings'⟩ := supplied'
    obtain ⟨-, hfetched⟩ :=
      (Ensures.fetchHeader (P := fun _ _ => True)).holds s log follows brings trivial
    obtain ⟨-, hfetched'⟩ :=
      (Ensures.fetchHeader (P := fun _ _ => True)).holds s' log' follows' brings' trivial
    have kept := Keeps.fetchHeader (f := Prod.mk) hash s
    have kept' := Keeps.fetchHeader (f := Prod.mk) hash s'
    rw [hexec] at hfetched kept
    rw [hexec'] at hfetched' kept'
    simp only [Prod.mk.injEq] at kept kept'
    obtain ⟨hhash, hh, -⟩ := hfetched h rfl
    obtain ⟨hhash', hh', -⟩ := hfetched' h' rfl
    refine ⟨hinj hh hh' (hhash.trans hhash'.symm), ?_, ?_⟩
    · rw [kept.1, kept'.1, alike.segment]
    · rw [kept.2, kept'.2, alike.chain]

section Walking

variable [KeyValue κ] [LocalChain σ]

/-- The beginning of a step agrees. -/
lemma beginStep (start : Header) :
    Agree U (beginStep start : SyncT Id κ σ π _) (beginStep start : SyncT Id κ σ π' _) := by
  refine (onSegment _).bind fun hash => (localHeader? hash).bind fun found => ?_
  cases found with
  | none => exact pure _
  | some header => exact (onSegment _).bind fun _ => pure _

/-- Two steps from the same header agree. -/
lemma execute (hinj : U.InjOn Header.hash) (start : Header) :
    Agree U (execute start : SyncT Id κ σ π _) (execute start : SyncT Id κ σ π' _) := by
  refine (beginStep start).bind fun found => ?_
  cases found with
  | inl found => exact pure _
  | inr hash =>
    exact takeNetwork.bind fun _ => (fetchHeader hinj hash).bind fun _ => (onSegment _).bind fun _ => pure _

omit [KeyValue κ] in
/-- What a walk finds before a step agrees. -/
lemma outlook : Agree U (outlook : SyncT Id κ σ π _) (outlook : SyncT Id κ σ π' _) := by
  refine get_bind .outlook .outlook fun s s' alike => ?_
  rw [alike.segment]
  cases s'.segment.frontier? with
  | none => exact throw _
  | some frontier =>
    by_cases hzero : frontier.number = 0
    · simp only [hzero, if_true]
      refine (localHeader? _).bind fun found => ?_
      cases found with
      | none => exact throw _
      | some header => exact pure _
    · simp only [hzero, if_false]
      exact pure _

/-- Walks by as many steps agree. -/
lemma walkWithin (hinj : U.InjOn Header.hash) (steps : Nat) :
    Agree U (walkWithin steps : SyncT Id κ σ π _) (walkWithin steps : SyncT Id κ σ π' _) := by
  induction steps with
  | zero =>
    refine outlook.bind fun sight => ?_
    cases sight <;> exact pure _
  | succ steps ih =>
    refine outlook.bind fun sight => ?_
    cases sight with
    | inl header => exact pure _
    | inr frontier =>
      refine (execute hinj frontier).bind fun found => ?_
      by_cases hlocal : found.isLocal = true
      · simp only [hlocal, if_true]
        exact pure _
      · simp only [hlocal]
        exact ih

/-- Two walks to the local chain agree. -/
lemma syncToLocal (hinj : U.InjOn Header.hash) :
    Agree U (syncToLocal : SyncT Id κ σ π _) (syncToLocal : SyncT Id κ σ π' _) := by
  refine get_bind .syncToLocal .syncToLocal fun s s' alike => ?_
  rw [alike.segment]
  cases s'.segment.frontier? with
  | none => exact throw _
  | some frontier =>
    refine (walkWithin hinj _).bind fun found => ?_
    cases found with
    | none => exact throw _
    | some header => exact pure _

end Walking

end Agree

/-! ## The frontiers of a walk -/

section Frontiers

variable [KeyValue κ] [LocalChain σ]

/-- The frontiers that `walkWithin` moves a segment through: in every step those that are restored, and
then the header that is saved. -/
def walked : (steps : Nat) → SyncState κ σ π → List Header
  | 0, _ => []
  | steps + 1, s =>
    match Operation.exec outlook s with
    | (.ok (.inr frontier), s') =>
      match Operation.exec (execute frontier) s' with
      | (.ok found, t) =>
        Segment.restored frontier s'.segment ++
          found.header :: (if found.isLocal then [] else walked steps t)
      | (.error _, _) => Segment.restored frontier s'.segment
    | _ => []

/-- The frontiers of `syncToLocal`, beginning with the one that it finds. -/
def frontiers (s : SyncState κ σ π) : List Header :=
  match s.segment.frontier? with
  | none => []
  | some frontier => frontier :: walked frontier.number.toNat s

open Segment (Descends)

omit [LocalChain σ] [Peer π Id] in
/-- After some frontiers a header is saved and becomes one more, or the step fails. -/
lemma descends_save {origin : Segment κ} {fs : List Header} {s : SyncState κ σ π}
    (before : Descends origin s.segment fs) (h : Header) (x : α) :
    (∃ t, Operation.exec (do save h; return x : SyncT Id κ σ π _) s = (.ok x, t) ∧
        Descends origin t.segment (fs ++ [h])) ∨
      ∃ e t, Operation.exec (do save h; return x : SyncT Id κ σ π _) s = (.error e, t) ∧
        Descends origin t.segment fs := by
  simp only [Operation.exec_bind, save, exec_onSegment]
  rcases Segment.descends_prepend h s.segment with ⟨seg, hexec, descends⟩ | ⟨e, seg, hexec, descends⟩ <;>
    rw [hexec]
  · exact .inl ⟨_, rfl, before.trans descends⟩
  · refine .inr ⟨e, _, rfl, ?_⟩
    simpa using before.trans descends

omit [Peer π Id] in
/-- The first part of a step restores, and may find the header of the step in the local chain. -/
lemma descends_beginStep (start : Header) (s : SyncState κ σ π) :
    (∃ found t, Operation.exec (beginStep start : SyncT Id κ σ π _) s = (.ok (.inl found), t) ∧
        Descends s.segment t.segment (Segment.restored start s.segment ++ [found.header])) ∨
      ∃ r t, Operation.exec (beginStep start : SyncT Id κ σ π _) s = (r, t) ∧
        (∀ found, r ≠ .ok (.inl found)) ∧
        Descends s.segment t.segment (Segment.restored start s.segment) := by
  have restored := Segment.descends_restore start s.segment
  rw [beginStep, Operation.exec_bind, exec_onSegment]
  rcases hrestore : (Segment.restore start).exec s.segment with ⟨e | hash, seg⟩ <;>
    rw [hrestore] at restored
  · exact .inr ⟨_, _, rfl, nofun, restored⟩
  · simp only [Except.mapError, Operation.exec_bind, exec_localHeader?]
    rcases LocalChain.header? s.chain hash with e | _ | header
    · exact .inr ⟨_, _, rfl, nofun, restored⟩
    · exact .inr ⟨_, _, rfl, nofun, restored⟩
    · let found : FoundHeader := { header, source := .localChain }
      rcases descends_save (s := { s with segment := seg }) restored header (Sum.inl (β := Hash) found)
        with ⟨t, hexec, lowered⟩ | ⟨e, t, hexec, lowered⟩
      · exact .inl ⟨found, t, hexec, lowered⟩
      · exact .inr ⟨.error e, t, hexec, nofun, lowered⟩

/-- A step goes down through what is restored to the header that it returns, if it succeeds. -/
lemma descends_execute (start : Header) (s : SyncState κ σ π) :
    (∃ found t, Operation.exec (execute start) s = (.ok found, t) ∧
        Descends s.segment t.segment (Segment.restored start s.segment ++ [found.header])) ∨
      ∃ e t, Operation.exec (execute start) s = (.error e, t) ∧
        Descends s.segment t.segment (Segment.restored start s.segment) := by
  rw [execute, Operation.exec_bind]
  rcases descends_beginStep start s with ⟨found, t, hexec, lowered⟩ | ⟨r, t, hexec, hr, restored⟩ <;>
    rw [hexec]
  · exact .inl ⟨found, t, rfl, lowered⟩
  rcases r with e | found | hash
  · exact .inr ⟨e, t, rfl, restored⟩
  · exact absurd rfl (hr found)
  -- the header is fetched, which keeps the segment, and saved then
  simp only [Operation.exec_bind, takeNetwork, exec_note]
  have kept := Keeps.fetchHeader (f := fun seg _ => seg) hash { t with events := t.events.push .network }
  rcases hfetch : Operation.exec (fetchHeader hash) { t with events := t.events.push .network } with
    ⟨e | header, u⟩ <;> simp only [hfetch] at kept
  · refine .inr ⟨e, u, rfl, ?_⟩
    rwa [kept]
  · have restored' : Descends s.segment u.segment (Segment.restored start s.segment) := by
      rwa [kept]
    let found : FoundHeader := { header, source := .network }
    rcases descends_save restored' header found with ⟨v, hsave, lowered⟩ | ⟨e, v, hsave, lowered⟩
    · exact .inl ⟨found, v, hsave, lowered⟩
    · exact .inr ⟨e, v, hsave, lowered⟩

/-- A walk goes down through its frontiers. -/
lemma descends_walkWithin (steps : Nat) (s : SyncState κ σ π) :
    Descends s.segment (Operation.exec (walkWithin steps) s).2.segment (walked steps s) := by
  induction steps generalizing s with
  | zero =>
    have kept := Keeps.outlook (f := fun seg _ => seg) s
    rw [walkWithin, Operation.exec_bind, walked]
    rcases hsight : Operation.exec outlook s with ⟨e | header | frontier, t⟩ <;>
      simp only [hsight] at kept
    all_goals exact .of_anchors_eq (congrArg Segment.anchors kept)
  | succ steps ih =>
    have kept := Keeps.outlook (f := fun seg _ => seg) s
    rw [walkWithin, Operation.exec_bind, walked]
    rcases hsight : Operation.exec outlook s with ⟨e | header | frontier, t⟩ <;>
      simp only [hsight] at kept
    · exact .of_anchors_eq (congrArg Segment.anchors kept)
    · exact .of_anchors_eq (congrArg Segment.anchors kept)
    · rw [← kept]
      simp only [Operation.exec_bind]
      rcases descends_execute frontier t with ⟨found, u, hexec, lowered⟩ | ⟨e, u, hexec, lowered⟩
      · simp only [hexec]
        cases found.isLocal with
        | true => exact lowered
        | false => simpa using lowered.trans (ih u)
      · simp only [hexec]
        exact lowered

/-- The frontiers of a walk are one header after the other, each the parent of the one before and one
lower, and the last one is where the walk ends. -/
theorem frontiers_descend (s : SyncState κ σ π) :
    (frontiers s).IsChain (fun a b => Segment.Precedes b a) ∧
      (Operation.exec syncToLocal s).2.segment.frontier? = (frontiers s).getLast? := by
  rw [frontiers, syncToLocal, Operation.exec_bind, Operation.exec_get]
  cases hfrontier : s.segment.frontier? with
  | none => exact ⟨.nil, by simp [hfrontier]⟩
  | some frontier =>
    have descends := descends_walkWithin frontier.number.toNat s
    have hlowers := descends.lowers
    have hend := descends.frontier
    rw [hfrontier] at hlowers hend
    refine ⟨hlowers, ?_⟩
    simp only [hfrontier, Operation.exec_bind]
    rcases hwalk : Operation.exec (walkWithin frontier.number.toNat) s with ⟨e | _ | header, t⟩ <;>
      rw [hwalk] at hend <;> exact hend

/-! ## Two walks -/

variable {s : SyncState κ σ π} {s' : SyncState κ σ π'}

/-- If a walk is supplied, so are its step and the walk after it. -/
lemma Supplied.walkWithin_succ {steps : Nat} (supplied : Supplied U (walkWithin (steps + 1)) s) :
    Supplied U outlook s ∧ ∀ frontier t, Operation.exec outlook s = (.ok (.inr frontier), t) →
      Supplied U (execute frontier) t ∧ ∀ found u, Operation.exec (execute frontier) t = (.ok found, u) →
        found.isLocal = false → Supplied U (walkWithin steps) u := by
  have goesOn : ∀ found : FoundHeader, Traced (if found.isLocal then
      Pure.pure (some found.header) else walkWithin steps : SyncT Id κ σ π _) := by
    intro found
    cases found.isLocal with
    | true => exact .pure _
    | false => exact .walkWithin steps
  obtain ⟨looks, walks⟩ := supplied.bind .outlook fun sight => by
    cases sight with
    | inl header => exact .pure _
    | inr frontier => exact (Traced.execute frontier).bind goesOn
  refine ⟨looks, fun frontier t hsight => ?_⟩
  obtain ⟨steps, walks⟩ := (walks _ t hsight).bind (.execute frontier) goesOn
  refine ⟨steps, fun found u hexec hlocal => ?_⟩
  have rest := walks found u hexec
  rwa [hlocal] at rest

/-- Of two walks from like states, one has begun as the other. -/
lemma walked_prefix_or_prefix (hinj : U.InjOn Header.hash) (steps : Nat) (alike : Alike s s')
    (supplied : Supplied U (walkWithin steps) s) (supplied' : Supplied U (walkWithin steps) s') :
    walked steps s <+: walked steps s' ∨ walked steps s' <+: walked steps s := by
  induction steps generalizing s s' with
  | zero => exact .inl List.prefix_rfl
  | succ steps ih =>
    obtain ⟨looks, walks⟩ := supplied.walkWithin_succ
    obtain ⟨looks', walks'⟩ := supplied'.walkWithin_succ
    rw [walked, walked]
    rcases hsight : Operation.exec outlook s with ⟨e | header | frontier, t⟩
    · exact .inl List.nil_prefix
    · exact .inl List.nil_prefix
    rcases hsight' : Operation.exec outlook s' with ⟨e | header | frontier', t'⟩
    · exact .inr List.nil_prefix
    · exact .inr List.nil_prefix
    -- both go on from the same frontier, and restore the same
    obtain ⟨hfrontier, alike'⟩ := Agree.outlook.agrees alike looks looks' hsight hsight'
    cases hfrontier
    obtain ⟨takes, walks⟩ := walks frontier t hsight
    obtain ⟨takes', walks'⟩ := walks' frontier t' hsight'
    simp only [← alike'.segment]
    rcases hexec : Operation.exec (execute frontier) t with ⟨e | found, u⟩
    · rcases hexec' : Operation.exec (execute frontier) t' with ⟨e' | found', u'⟩
      · exact .inl List.prefix_rfl
      · exact .inl (List.prefix_append _ _)
    rcases hexec' : Operation.exec (execute frontier) t' with ⟨e' | found', u'⟩
    · exact .inr (List.prefix_append _ _)
    obtain ⟨rfl, alike''⟩ := (Agree.execute hinj frontier).agrees alike' takes takes' hexec hexec'
    simp only [List.prefix_append_right_inj, List.cons_prefix_cons, true_and]
    cases hlocal : found.isLocal with
    | true => exact .inl List.prefix_rfl
    | false => exact ih alike'' (walks found u hexec hlocal) (walks' found u' hexec' hlocal)

/-- If `syncToLocal` is supplied, so is its walk. -/
lemma Supplied.walk {frontier : Header} (supplied : Supplied U syncToLocal s)
    (hfrontier : s.segment.frontier? = some frontier) :
    Supplied U (walkWithin frontier.number.toNat) s := by
  obtain ⟨log, follows, brings⟩ := supplied
  rw [syncToLocal, Operation.exec_bind, Operation.exec_get] at follows
  simp only [hfrontier] at follows
  have walks : Supplied U (_ >>= _) s := ⟨log, follows, brings⟩
  refine (walks.bind (.walkWithin _) fun found => ?_).1
  cases found with
  | none => exact .throw _
  | some header => exact .pure _

/-- No peer can steer a walk. Two walks on the same segment and the same local chain go through the same
frontiers as far as the shorter one gets, whatever their peers answer and whatever their settings are;
and if both succeed, they return the same header and leave the same segment. -/
theorem syncToLocal_agrees (hinj : U.InjOn Header.hash) (alike : Alike s s')
    (supplied : Supplied U syncToLocal s) (supplied' : Supplied U syncToLocal s') :
    (frontiers s <+: frontiers s' ∨ frontiers s' <+: frontiers s) ∧
      ∀ h h' t t', Operation.exec syncToLocal s = (.ok h, t) →
        Operation.exec syncToLocal s' = (.ok h', t') → h = h' ∧ Alike t t' := by
  refine ⟨?_, fun h h' t t' => (Agree.syncToLocal hinj).agrees alike supplied supplied'⟩
  cases hfrontier : s.segment.frontier? with
  | none => exact .inl (by simp [frontiers, hfrontier])
  | some frontier =>
    have hfrontier' : s'.segment.frontier? = some frontier := by rwa [← alike.segment]
    simp only [frontiers, hfrontier, hfrontier', List.cons_prefix_cons, true_and]
    exact walked_prefix_or_prefix hinj _ alike (supplied.walk hfrontier) (supplied'.walk hfrontier')

end Frontiers

/-- A walk down to genesis whose peer serves what is missing, and one whose peer has nothing and is asked
once. -/
theorem syncToLocal_agrees_second :
    let s : SyncState ByteMap Chain ScriptedPeer :=
      { segment := ((Segment.trust Block.second).exec Segment.empty).2
        chain := Chain.ofBlocks [Block.genesis]
        peer := { served := BlockMap.ofBlocks [Block.first] } }
    let s' : SyncState ByteMap Chain ScriptedPeer :=
      { s with peer := {}, config := { maxRetries := 1 } }
    (frontiers s <+: frontiers s' ∨ frontiers s' <+: frontiers s) ∧
      ∀ h h' t t', Operation.exec syncToLocal s = (.ok h, t) →
        Operation.exec syncToLocal s' = (.ok h', t') → h = h' ∧ Alike t t' := by
  intro s s'
  have hserved : ∀ b ∈ [Block.first], b.header ∈ ({Block.first.header} : Set Header) ∧ b.Sized := by
    rintro b (_ | ⟨_, ⟨⟩⟩)
    exact ⟨rfl, Block.sized_of_nil rfl rfl⟩
  obtain ⟨log, follows⟩ := Traced.syncToLocal s
  obtain ⟨log', follows'⟩ := Traced.syncToLocal s'
  exact syncToLocal_agrees (Set.injOn_singleton _ _) ⟨rfl, rfl⟩
    ⟨log, follows, Peer.brings_ofBlocks hserved log⟩
    ⟨log', follows', Peer.brings_of_served (by simp) log'⟩

end ChainSync.Sync
