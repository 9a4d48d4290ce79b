import ChainSync.Proofs.Sync.Honest

/-!
# Down to a shared header

A segment stands on a path of a chain that the peer serves, and the local chain shares the path up to some
height. A walk then goes down the path, header by header, to the highest one below it that is shared
(`exec_walkWithin_of_shares`): a header that is not shared takes one request, the one that is shared none.
-/

namespace ChainSync.Sync

open Segment (OnPath Path)

variable {π : Type} [Peer π Id]

/-! ## Counting requests -/

/-- The requests for headers among some events. -/
def headerRequests (log : List SyncEvent) : Nat :=
  log.countP fun
    | .headers _ _ => true
    | _ => false

/-- The requests for blocks among some events. -/
def blockRequests (log : List SyncEvent) : Nat :=
  log.countP fun
    | .block _ => true
    | _ => false

/-- A sync goes on to a state by so many requests for headers and for blocks. -/
def Requested {κ σ : Type} (s t : SyncState κ σ π) (headers blocks : Nat) : Prop :=
  ∃ log, Follows s t log ∧ headerRequests log = headers ∧ blockRequests log = blocks

namespace Requested

variable {κ σ : Type} {s t u : SyncState κ σ π} {m n m' n' : Nat}

/-- A state with the same events has asked for nothing more. -/
lemma of_eq (hevents : t.events = s.events) (hpeer : t.peer = s.peer) : Requested s t 0 0 :=
  ⟨[], ⟨by rw [hevents, List.append_nil], hpeer⟩, rfl, rfl⟩

/-- Nothing is asked for where nothing is done. -/
lemma refl : Requested s s 0 0 := of_eq rfl rfl

/-- An event counts as the request that it is. -/
lemma of_note {e : SyncEvent} (hevents : t.events = s.events.push e)
    (hpeer : t.peer = Peer.after s.peer [e]) : Requested s t (headerRequests [e]) (blockRequests [e]) :=
  ⟨[e], ⟨by rw [hevents, Array.toList_push], hpeer⟩, rfl, rfl⟩

/-- Requests add up. -/
lemma trans (first : Requested s t m n) (second : Requested t u m' n') :
    Requested s u (m + m') (n + n') := by
  obtain ⟨log, follows, rfl, rfl⟩ := first
  obtain ⟨log', follows', rfl, rfl⟩ := second
  exact ⟨log ++ log', follows.trans follows', List.countP_append, List.countP_append⟩

end Requested

/-! ## The walk -/

variable {s t u : SyncState ByteMap Chain π} {origin : Segment ByteMap} {U : Set Header}
  {path : List Header} {r : Chain} {R : List Block} {f g h : Header} {i j m k : Nat}

/-- A sync has come down a path, and all else is as it was. -/
structure Lowered (origin : Segment ByteMap) (U : Set Header) (path : List Header) (r : Chain) (i : Nat)
    (s t : SyncState ByteMap Chain π) : Prop where
  segment : OnPath origin U path i i t.segment
  blocks : t.segment.blocks = s.segment.blocks
  chain : t.chain = s.chain
  serves : Peer.Serves r t.peer

/-- A sync that has come down twice has come down. -/
lemma Lowered.trans (first : Lowered origin U path r i s t) (second : Lowered origin U path r j t u) :
    Lowered origin U path r j s u where
  segment := second.segment
  blocks := second.blocks.trans first.blocks
  chain := second.chain.trans first.chain
  serves := second.serves

omit [Peer π Id] in
/-- A frontier above height zero is gone down from. -/
lemma exec_outlook_of_pos (hf : s.segment.frontier? = some f) (hpos : f.number ≠ 0) :
    Operation.exec (outlook : SyncT Id ByteMap Chain π _) s = (.ok (.inr f), s) := by
  simp only [outlook, Operation.exec_bind, Operation.exec_get, hf, hpos, if_false, Operation.exec_pure]

omit [Peer π Id] in
/-- A frontier at height zero that the local chain has is the connection. -/
lemma exec_outlook_of_zero (hf : s.segment.frontier? = some f) (hnum : f.number = 0)
    (hfound : s.chain.header? f.hash = .ok (some g)) :
    Operation.exec (outlook : SyncT Id ByteMap Chain π _) s = (.ok (.inl g), s) := by
  have hlocal : LocalChain.header? s.chain f.hash = .ok (some g) := hfound
  simp only [outlook, Operation.exec_bind, Operation.exec_get, hf, hnum, if_true, exec_localHeader?,
    hlocal, Except.mapError, Operation.exec_pure]

section

variable (way : Path U path) (co : Coherent U) (hzero : ∀ h ∈ U, h.hash ≠ Hash.zero)
include way co hzero

/-- On a path a step restores what is stored and saves the next header, which the peer is asked for if the
local chain does not have it. -/
lemma exec_execute_of_shares (on : OnPath origin U path (i + 1) m s.segment)
    (shares : s.chain.Shares path k) (serves : Peer.Serves r s.peer) (hold : r.Holds R)
    (hR : ∀ h ∈ path, ∃ b ∈ R, b.header = h) (hf : path[m]? = some f) (hh : path[i]? = some h) :
    ∃ found t, Operation.exec (execute f : SyncT Id ByteMap Chain π _) s = (.ok found, t) ∧
      found.header = h ∧ (found.isLocal = true ↔ i < k) ∧ Lowered origin U path r i s t ∧
      Requested s t (if i < k then 0 else 1) 0 := by
  have hle := on.le
  have hlt := on.lt
  have hg : path[i + 1]? = some path[i + 1] := List.getElem?_eq_getElem (by omega)
  have hparent : path[i + 1].parent = h.hash := (way.precedes hh hg).parent
  obtain ⟨t₁, hrestore, on₁, hblocks₁⟩ := on.restore way co hzero hf hg
  obtain ⟨t₂, hsave, on₂, hblocks₂⟩ := on₁.save way co hh
  have hblocks := hblocks₂.trans hblocks₁
  simp only [execute, beginStep, Operation.exec_bind, exec_onSegment, hrestore, Except.mapError, hparent,
    exec_localHeader?]
  by_cases hi : i < k
  -- the local chain has the next header
  · have hfound : LocalChain.header? s.chain h.hash = .ok (some h) := shares.found hh hi
    simp only [hfound, save, Operation.exec_bind, exec_onSegment, hsave, Except.mapError,
      Operation.exec_pure, hi, if_true]
    exact ⟨_, _, rfl, rfl, by simp [FoundHeader.isLocal], ⟨on₂, hblocks, rfl, serves⟩, .of_eq rfl rfl⟩
  -- the local chain does not have it, so the peer is asked
  · have hfound : LocalChain.header? s.chain h.hash = .ok none := shares.absent hh (by omega)
    obtain ⟨b, hb, hheader⟩ := hR h (List.mem_of_getElem? hh)
    obtain ⟨t, hfetch, asked, limit, follows⟩ := exec_fetchHeader_of_serves
      (s := { s with segment := t₁, events := s.events.push .network }) serves hold hb
    have hhash : b.hash = h.hash := congrArg Header.hash hheader
    rw [hhash, hheader] at hfetch
    have hsave' : (Segment.prepend h).exec t.segment = (.ok (), t₂) := by rwa [asked.segment]
    have took : Requested s { s with segment := t₁, events := s.events.push .network } 0 0 :=
      .of_note (e := .network) rfl rfl
    have fetched : Requested { s with segment := t₁, events := s.events.push .network } t 1 0 :=
      ⟨_, follows, rfl, rfl⟩
    simp only [hfound, takeNetwork, endStep, save, Operation.exec_bind, exec_onSegment, exec_note,
      hfetch, hsave', Except.mapError, Operation.exec_pure, hi, if_false]
    refine ⟨_, _, rfl, rfl, by simp [FoundHeader.isLocal], ⟨on₂, hblocks, asked.chain, asked.serves⟩, ?_⟩
    have saved : Requested t { t with segment := t₂ } 0 0 := .of_eq rfl rfl
    exact (took.trans fetched).trans saved

/-- On a path a walk ends at the highest header below that the local chain has. -/
lemma exec_walkWithin_of_shares {steps : Nat} (on : OnPath origin U path i m s.segment)
    (shares : s.chain.Shares path k) (serves : Peer.Serves r s.peer) (hold : r.Holds R)
    (hR : ∀ h ∈ path, ∃ b ∈ R, b.header = h) (hsteps : m ≤ steps) (hi : 0 < i ∨ m = 0)
    (hh : path[min (k - 1) (i - 1)]? = some h) :
    ∃ t, Operation.exec (walkWithin steps : SyncT Id ByteMap Chain π _) s = (.ok (some h), t) ∧
      Lowered origin U path r (min (k - 1) (i - 1)) s t ∧
      Requested s t (i - 1 - min (k - 1) (i - 1)) 0 := by
  have hpos := shares.pos
  have hle := on.le
  have hlt := on.lt
  rcases Nat.eq_zero_or_pos m with rfl | hm
  -- the segment stands at the beginning of the path, which the local chain has
  · obtain rfl : i = 0 := Nat.le_zero.1 hle
    rw [Nat.zero_sub, Nat.min_zero] at hh ⊢
    have hnum : h.number = 0 := UInt64.toNat_inj.1 (way.number hh)
    have hlook := exec_outlook_of_zero (on.frontier hh) hnum (shares.found hh hpos)
    refine ⟨s, ?_, ⟨on, rfl, rfl, serves⟩, .refl⟩
    cases steps <;> simp only [walkWithin, Operation.exec_bind, hlook, Operation.exec_pure]
  · induction steps generalizing m i s with
    | zero => omega
    | succ steps ih =>
      obtain ⟨i, rfl⟩ : ∃ i', i = i' + 1 := Nat.exists_eq_add_of_le' (by omega)
      have hf : path[m]? = some path[m] := List.getElem?_eq_getElem hlt
      have hnext : path[i]? = some path[i] := List.getElem?_eq_getElem (by omega)
      obtain ⟨found, t, hexec, hheader, hlocal, lowered, requested⟩ :=
        exec_execute_of_shares way co hzero on shares serves hold hR hf hnext
      simp only [walkWithin, Operation.exec_bind,
        exec_outlook_of_pos (on.frontier hf) (way.number_ne_zero hf hm), hexec]
      rw [Nat.add_sub_cancel] at hh ⊢
      by_cases hk : i < k
      · have hmin : min (k - 1) i = i := Nat.min_eq_right (by omega)
        rw [hmin] at hh ⊢
        cases hnext.symm.trans hh
        simp only [hlocal.2 hk, if_true, Operation.exec_pure, hheader]
        refine ⟨t, rfl, lowered, ?_⟩
        rw [if_pos hk] at requested
        rwa [Nat.sub_self]
      -- the next header is not shared, and the walk goes on below it
      · have hmin : min (k - 1) i = min (k - 1) (i - 1) := by omega
        rw [hmin] at hh ⊢
        obtain ⟨u, hwalk, lowered', requested'⟩ := ih lowered.segment (by rwa [lowered.chain])
          lowered.serves (by omega) (by omega) hh (Nat.le_refl i) (by omega) (by omega)
        simp only [mt hlocal.1 hk]
        refine ⟨u, hwalk, lowered.trans lowered', ?_⟩
        have both := requested.trans requested'
        rw [if_neg hk] at both
        convert both using 1
        omega

/-- On a path a sync walks back to the highest header below that the local chain has. -/
lemma exec_syncToLocal_of_shares (on : OnPath origin U path i m s.segment)
    (shares : s.chain.Shares path k) (serves : Peer.Serves r s.peer) (hold : r.Holds R)
    (hR : ∀ h ∈ path, ∃ b ∈ R, b.header = h) (hi : 0 < i ∨ m = 0)
    (hh : path[min (k - 1) (i - 1)]? = some h) :
    ∃ t, Operation.exec (syncToLocal : SyncT Id ByteMap Chain π _) s = (.ok h, t) ∧
      Lowered origin U path r (min (k - 1) (i - 1)) s t ∧
      Requested s t (i - 1 - min (k - 1) (i - 1)) 0 := by
  have hlt := on.lt
  have hf : path[m]? = some path[m] := List.getElem?_eq_getElem hlt
  obtain ⟨t, hwalk, went⟩ := exec_walkWithin_of_shares way co hzero on shares serves hold hR
    (Nat.le_of_eq (way.number hf).symm) hi hh
  refine ⟨t, ?_, went⟩
  have hfrontier := on.frontier hf
  simp only [syncToLocal, Operation.exec_bind, Operation.exec_get, hfrontier, hwalk,
    Operation.exec_pure]

end

end ChainSync.Sync
