import ChainSync.Proofs.Sync.Ascending

/-!
# Resuming on a path

A segment that stands on a path of a chain that the peer serves is taken down to the local chain, and the
local chain up to the end of the path (`exec_run_of_onWay`). This fails only if the beginning of the path
is stored, too: the walk is then restored past it (`exec_run_of_stored`).
-/

namespace ChainSync.Sync

open Segment (OnPath Path)

variable {π : Type} [Peer π Id] {s t : SyncState ByteMap Chain π} {origin : Segment ByteMap}
  {U : Set Header} {path : List Header} {r : Chain} {R : List Block} {f g h : Header} {i m k : Nat}

/-- A sync stands on a path: so does its segment, the local chain is along the path up to `k`, and the
peer serves a chain that has the path. -/
structure OnWay (origin : Segment ByteMap) (U : Set Header) (path : List Header) (r : Chain)
    (i m k : Nat) (s : SyncState ByteMap Chain π) : Prop where
  segment : OnPath origin U path i m s.segment
  chain : s.chain.Along path k
  serves : Peer.Serves r s.peer

section

variable (way : Path U path) (co : Coherent U) (hzero : ∀ h ∈ U, h.hash ≠ Hash.zero)
include way co hzero

/-- If all of the path is stored, a step asks for the parent of genesis, which no peer has. -/
lemma exec_execute_of_stored (on : OnWay origin U path r 0 m k s) (hold : r.Holds R)
    (hR : ∀ b ∈ R, b.header ∈ U) (hf : path[m]? = some f) :
    ∃ e t, Operation.exec (execute f : SyncT Id ByteMap Chain π _) s = (.error e, t) := by
  have hlt := on.segment.lt
  have hg : path[0]? = some path[0] := List.getElem?_eq_getElem (by omega)
  have hroot : path[0].parent = Hash.zero := way.root _ (by rwa [List.head?_eq_getElem?])
  obtain ⟨t, hrestore, on', -⟩ := on.segment.restore way co hzero hf hg
  have hlocal : LocalChain.header? s.chain Hash.zero = .ok none := by
    apply on.chain.header?_of_not_mem
    exact fun h hh => hzero h (way.known h (List.mem_of_mem_take hh))
  have hnone : r.header? Hash.zero = .ok none :=
    hold.header?_eq_none_iff.2 fun b hb => hzero b.header (hR b hb)
  obtain ⟨e, u, hfetch⟩ := exec_fetchHeader_of_none
    (s := { s with segment := t, events := s.events.push .network }) on.serves hnone
  refine ⟨e, u, ?_⟩
  simp only [execute, beginStep, Operation.exec_bind, exec_onSegment, hrestore, Except.mapError, hroot,
    exec_localHeader?, hlocal, Operation.exec_pure, takeNetwork, exec_note, hfetch]

/-- On a path a run brings the chain to the end, if the beginning of the path is not stored. -/
lemma exec_run_of_onWay (on : OnWay origin U path r i m k s) (hi : 0 < i ∨ m = 0)
    (hold : r.Holds R) (hR : ∀ h ∈ path, ∃ b ∈ R, b.header = h)
    (sound : ∀ hash, ∃ found, origin.blockAt hash = .ok found) :
    ∃ n t, Operation.exec (run : SyncT Id ByteMap Chain π _) s = (.ok n, t) ∧
      t.chain.Along path path.length := by
  have hpos := on.chain.pos
  have hle := on.segment.le
  have hlt := on.segment.lt
  have hh : path[min (k - 1) (i - 1)]? = some path[min (k - 1) (i - 1)] :=
    List.getElem?_eq_getElem (by omega)
  obtain ⟨t, hwalk, lowered, -⟩ := exec_syncToLocal_of_shares way co hzero on.segment
    (on.chain.shares way co) on.serves hold hR hi hh
  have along : t.chain.Along path k := by
    rw [lowered.chain]
    exact on.chain
  obtain ⟨n, u, hstitch, -, hall, -⟩ := exec_stitch_of_along co hold hR sound way
    lowered.segment.stock along lowered.serves hh (by omega)
  refine ⟨n, u, ?_, hall⟩
  simp only [run, Operation.exec_bind, hwalk, hstitch]

/-- If all of the path is stored, a run fails. -/
lemma exec_run_of_stored (on : OnWay origin U path r 0 m k s) (hm : 0 < m) (hold : r.Holds R)
    (hR : ∀ b ∈ R, b.header ∈ U) :
    ∃ e t, Operation.exec (run : SyncT Id ByteMap Chain π _) s = (.error e, t) := by
  have hlt := on.segment.lt
  have hf : path[m]? = some path[m] := List.getElem?_eq_getElem hlt
  have hfrontier := on.segment.frontier hf
  have hpos := way.number_ne_zero hf hm
  obtain ⟨steps, hsteps⟩ := Nat.exists_eq_add_of_le' hm
  have hnum := (way.number hf).trans hsteps
  obtain ⟨e, t, hexec⟩ := exec_execute_of_stored way co hzero on hold hR hf
  refine ⟨e, t, ?_⟩
  simp only [run, syncToLocal, Operation.exec_bind, Operation.exec_get, hfrontier, hnum, walkWithin,
    exec_outlook_of_pos hfrontier hpos, hexec]

end

end ChainSync.Sync
