import ChainSync.Proofs.Segment.Path
import ChainSync.Proofs.Sync.Stitching

/-!
# Sessions on a path

A session is anchored at the end of a path and makes any calls, each of which may be stopped before it
ends. Whatever its peer sends, the segment lists an end of the path and the local chain has headers of
the path only (`Underway`): there is no other lineage up to the anchor.
-/

namespace ChainSync.Sync

open Segment (Path Stocked)

variable {π : Type} [Peer π Id]

/-- The calls of a session, as a whole or as far as they come before they are stopped. -/
inductive SessionCall where
  | syncToLocal
  | stitch
  | run
  /-- A walk, stopped after some steps. -/
  | walk (steps : Nat)
  /-- A step of a walk, stopped while it restores or before it asks for what it has not restored. -/
  | restore (steps : Nat) (hash : Hash)
  /-- A stitch, stopped after some successors or before it clears the segment. -/
  | climb (steps : Nat)
  /-- A part of a stitch, stopped before a block is handed over. -/
  | body (hash : Hash)

/-- The operation that is called. -/
def SessionCall.act : SessionCall → SyncT Id ByteMap Chain π Unit
  | syncToLocal => do let _ ← Sync.syncToLocal
  | stitch => do let _ ← Sync.stitch
  | run => do let _ ← Sync.run
  | walk steps => do let _ ← walkWithin steps
  | restore steps hash => do let _ ← onSegment (Segment.restoreWithin steps hash)
  | climb steps => do let _ ← Sync.climb steps
  | body hash => do let _ ← bodyOf hash

/-- The state after some calls, each of which may fail. -/
def session (s : SyncState ByteMap Chain π) (calls : List SessionCall) : SyncState ByteMap Chain π :=
  calls.foldl (fun s call => (Operation.exec call.act s).2) s

/-- The last call is made in the state that the others left. -/
lemma session_concat (s : SyncState ByteMap Chain π) (calls : List SessionCall) (call : SessionCall) :
    session s (calls ++ [call]) = (Operation.exec call.act (session s calls)).2 := by
  simp [session]

/-- What each call of a session keeps, as it ends there, the session keeps. -/
lemma session_keeps {U : Set Header} {P : Segment ByteMap → Chain → Prop}
    {Q : SessionCall → Except SyncError Unit → Segment ByteMap → Chain → Prop}
    {s : SyncState ByteMap Chain π} {calls : List SessionCall} (begun : P s.segment s.chain)
    (ensures : ∀ call ∈ calls, Ensures U P (call.act : SyncT Id ByteMap Chain π _) (Q call))
    (keeps : ∀ earlier call later, calls = earlier ++ call :: later → ∀ r t,
      Operation.exec call.act (session s earlier) = (r, t) → Q call r t.segment t.chain →
        P t.segment t.chain)
    (brings : ∀ log, (session s calls).events.toList = s.events.toList ++ log →
      Peer.Brings U s.peer log) :
    P (session s calls).segment (session s calls).chain := by
  -- the events of a session are those of its calls, so the log is found along with them
  suffices h : ∃ log, Follows s (session s calls) log ∧ (Peer.Brings U s.peer log →
      P (session s calls).segment (session s calls).chain) by
    obtain ⟨log, follows, kept⟩ := h
    exact kept (brings log follows.events)
  clear brings
  induction calls using List.reverseRecOn with
  | nil => exact ⟨[], .refl, fun _ => begun⟩
  | append_singleton calls call ih =>
    obtain ⟨log, follows, kept⟩ := ih (fun call' hcall => ensures call' (List.mem_append_left _ hcall))
      fun earlier call' later hcalls => keeps earlier call' (later ++ [call]) (by simp [hcalls])
    have act := ensures call (by simp)
    obtain ⟨log', follows'⟩ := act.traced (session s calls)
    rw [session_concat]
    refine ⟨log ++ log', follows.trans follows', fun brings => ?_⟩
    obtain ⟨brings₁, brings₂⟩ := Peer.brings_append.1 brings
    rw [← follows.peer] at brings₂
    apply keeps calls call [] rfl _ _ rfl
    exact act.holds _ log' follows' brings₂ (kept brings₁)

/-- A segment that lists an end of a path, beside a chain that has headers of the path only. -/
def Underway (U : Set Header) (path : List Header) (seg : Segment ByteMap) (c : Chain) : Prop :=
  ∃ i bs, Stocked Segment.empty seg U (path.drop i) ∧ c.Holds bs ∧ ∀ b ∈ bs, b.header ∈ path

/-- An operation that keeps a session under way, whatever it returns. -/
abbrev StaysUnderway {α : Type} (U : Set Header) (path : List Header)
    (act : SyncT Id ByteMap Chain π α) : Prop :=
  Ensures U (Underway U path) act fun _ => Underway U path

section

variable {U : Set Header} {path : List Header} {L new : List Block} {i : Nat}
  {seg : Segment ByteMap} {c : Chain} {α : Type} {act : SyncT Id ByteMap Chain π α}

omit [Peer π Id] in
/-- Blocks that are handed over have headers of the path. -/
lemma header_mem_of_handed (hL : ∀ b ∈ L, b.header ∈ path)
    (himported : new.map (·.header) <+: missing L (path.drop i)) :
    ∀ b ∈ L ++ new, b.header ∈ path := by
  intro b hb
  rcases List.mem_append.1 hb with hb | hb
  · exact hL b hb
  · have hmem : b.header ∈ missing L (path.drop i) := himported.subset (List.mem_map_of_mem hb)
    exact List.mem_of_mem_drop (mem_of_mem_missing hmem)

/-- A stitch that halts leaves a session under way. -/
lemma Halts.underway (halts : Halts Segment.empty U L (path.drop i) seg c)
    (hL : ∀ b ∈ L, b.header ∈ path) : Underway U path seg c := by
  obtain ⟨new, stock, hold, himported⟩ := halts.exists_handed
  exact ⟨i, L ++ new, stock, hold, header_mem_of_handed hL himported⟩

/-- A stitch that is done leaves a session under way, whose segment lists nothing. -/
lemma Done.underway {n : UInt64} (done : Done L (path.drop i) n seg c)
    (hL : ∀ b ∈ L, b.header ∈ path) : Underway U path seg c := by
  obtain ⟨new, -, hold, himported, rfl, -⟩ := done
  have hprefix : new.map (·.header) <+: missing L (path.drop i) :=
    ⟨[], by rw [List.append_nil, himported]⟩
  refine ⟨path.length, L ++ new, ?_, hold, header_mem_of_handed hL hprefix⟩
  rw [List.drop_length]
  exact { Segment.Lists.empty with rows := .empty, height_lt := nofun }

variable (way : Path U path) (co : Coherent U)
include way co

/-- What keeps the chain and the pivot keeps a session under way. -/
lemma staysUnderway_of_keepsWalking (hzero : ∀ h ∈ U, h.hash ≠ Hash.zero) (traced : Traced act)
    (keeps : ∀ {c : Chain} {L : List Block}, c.Holds L → (∀ b ∈ L, b.header ∈ U) → ∀ pivot,
      KeepsWalking Segment.empty U c pivot act) : StaysUnderway U path act where
  traced := traced
  holds := by
    rintro s log follows brings ⟨i, L, stock, hold, hL⟩
    have walk := keeps hold (fun b hb => way.known _ (hL b hb)) (path.drop i).getLast?
    obtain ⟨⟨hs, stock', hlast⟩, hchain⟩ := walk.holds s log follows brings ⟨⟨_, stock, rfl⟩, rfl⟩
    obtain ⟨j, rfl⟩ := way.exists_drop co hzero stock'.lineage stock'.known hlast
    exact ⟨j, L, stock', hchain ▸ hold, hL⟩

omit co in
/-- What halts a stitch or ends it keeps a session under way. -/
lemma staysUnderway_of_halts (traced : Traced act)
    (ends : ∀ {L : List Block} {S : List Header}, (∀ b ∈ L, b.header ∈ U) →
      Ensures U (fun seg c => Stocked Segment.empty seg U S ∧ c.Holds L) act fun _ seg c =>
        Halts Segment.empty U L S seg c ∨ ∃ n, Done L S n seg c) : StaysUnderway U path act where
  traced := traced
  holds := by
    rintro s log follows brings ⟨i, L, stock, hold, hL⟩
    have hU : ∀ b ∈ L, b.header ∈ U := fun b hb => way.known _ (hL b hb)
    rcases (ends hU).holds s log follows brings ⟨stock, hold⟩ with halts | ⟨n, done⟩
    · exact halts.underway hL
    · exact done.underway hL

/-- A stitch keeps a session under way. -/
lemma staysUnderway_stitch : StaysUnderway (π := π) U path stitch := by
  refine staysUnderway_of_halts way .stitch fun hL => ?_
  refine (ensures_stitch co hL).mono (fun _ _ => id) fun r seg c h => ?_
  cases r with
  | error e => exact .inl (h.2 e rfl)
  | ok n => exact .inr ⟨n, h.1 n rfl⟩

/-- A climb keeps a session under way. -/
lemma staysUnderway_climb (steps : Nat) : StaysUnderway (π := π) U path (climb steps) := by
  refine staysUnderway_of_halts way (.climb steps) fun hL => ?_
  exact (ensures_climb co hL steps).mono (fun _ _ => id) fun r seg c h => .inl h.1

omit way co in
/-- Without its result, an operation keeps a session under way as well. -/
lemma StaysUnderway.ignoring (stays : StaysUnderway U path act) :
    StaysUnderway U path (do let _ ← act) :=
  stays.bind (fun _ => .pure fun _ _ => id) fun _ _ _ => id

/-- One call keeps a session under way. -/
lemma staysUnderway_act (hzero : ∀ h ∈ U, h.hash ≠ Hash.zero) (call : SessionCall) :
    StaysUnderway (π := π) U path call.act := by
  have walk : StaysUnderway (π := π) U path syncToLocal :=
    staysUnderway_of_keepsWalking way co hzero .syncToLocal
      fun hold hL _ => keepsWalking_syncToLocal hold hL co
  have stitch := staysUnderway_stitch (π := π) way co
  cases call with
  | syncToLocal => exact walk.ignoring
  | stitch => exact stitch.ignoring
  | run => exact StaysUnderway.ignoring (walk.bind (fun _ => stitch) fun _ _ _ => id)
  | walk steps =>
    apply StaysUnderway.ignoring
    exact staysUnderway_of_keepsWalking way co hzero (.walkWithin steps)
      fun hold hL _ => keepsWalking_walkWithin hold hL co steps
  | restore steps hash =>
    apply StaysUnderway.ignoring
    exact staysUnderway_of_keepsWalking way co hzero (.onSegment _)
      fun _ _ _ => keepsWalking_restoreWithin co steps hash
  | climb steps => exact (staysUnderway_climb way co steps).ignoring
  | body hash =>
    apply StaysUnderway.ignoring
    exact staysUnderway_of_keepsWalking way co hzero (.bodyOf hash)
      fun _ _ _ => keepsWalking_bodyOf co hash

/-- A session stays under way, whatever it calls. -/
lemma underway_session (hzero : ∀ h ∈ U, h.hash ≠ Hash.zero) {s : SyncState ByteMap Chain π}
    (begun : Underway U path s.segment s.chain) (calls : List SessionCall)
    (brings : ∀ log, (session s calls).events.toList = s.events.toList ++ log →
      Peer.Brings U s.peer log) :
    Underway U path (session s calls).segment (session s calls).chain :=
  session_keeps begun (fun call _ => staysUnderway_act way co hzero call)
    (fun _ _ _ _ _ _ _ under => under) brings

end

end ChainSync.Sync
