import ChainSync.Chain
import ChainSync.Peer
import ChainSync.Proofs.Along
import ChainSync.Proofs.Sync.Walking

/-!
# Honest peers

A peer that serves a chain answers every request from it, now and later. What the chain has is fetched
from it with the first attempt, and what the chain does not have is never fetched.
-/

namespace ChainSync

namespace Chain

variable {c : Chain} {bs : List Block} {b : Block} {hash : Hash}

/-- A descent along a chain that holds its blocks meets no damage. -/
lemma Holds.exists_descend (hold : c.Holds bs) (limit : Nat) (next : Option Header) :
    ∃ hs, c.descend limit next = .ok hs := by
  induction limit generalizing next with
  | zero => cases next <;> exact ⟨[], rfl⟩
  | succ limit ih =>
    cases next with
    | none => exact ⟨[], rfl⟩
    | some h =>
      have hbelow : ∃ below, c.below? h = .ok below := by
        unfold below?
        split
        · exact ⟨none, rfl⟩
        · exact ⟨_, hold.header?_eq h.parent⟩
      obtain ⟨below, hbelow⟩ := hbelow
      obtain ⟨hs, hdescend⟩ := ih below
      refine ⟨h :: hs, ?_⟩
      simp [descend, hbelow, hdescend, bind, Except.bind, pure, Except.pure]

/-- The headers from a block downward begin with its own. -/
lemma Holds.headersDescending_of_mem (hold : c.Holds bs) (hb : b ∈ bs) (limit : Nat) :
    ∃ hs, c.headersDescending b.hash (limit + 1) = .ok (b.header :: hs) := by
  have hbelow : ∃ below, c.below? b.header = .ok below := by
    unfold below?
    split
    · exact ⟨none, rfl⟩
    · exact ⟨_, hold.header?_eq b.header.parent⟩
  obtain ⟨below, hbelow⟩ := hbelow
  obtain ⟨hs, hdescend⟩ := hold.exists_descend limit below
  refine ⟨hs, ?_⟩
  simp [headersDescending, hold.header?_of_mem hb, descend, hbelow, hdescend, bind, Except.bind, pure,
    Except.pure]

/-- From an unknown hash nothing is served. -/
lemma headersDescending_of_none (hfound : c.header? hash = .ok none) (limit : Nat) :
    c.headersDescending hash limit = .ok [] := by
  simp only [headersDescending, hfound, bind, Except.bind]
  cases limit <;> rfl

end Chain

/-- A peer answers every request from a chain, now and after any requests. -/
structure Peer.Serves {π : Type} [Peer π Id] (c : Chain) (p : π) : Prop where
  headers : ∀ log hash limit hs, c.headersDescending hash limit.toNat = .ok hs →
    ((Peer.headers hash limit : StateT π Id _).run (after p log)).1 = .ok hs
  block : ∀ log hash b, c.blockByHash? hash = .ok b →
    ((Peer.block hash : StateT π Id _).run (after p log)).1 = .ok b

/-- A peer goes on serving after any requests. -/
lemma Peer.Serves.after {π : Type} [Peer π Id] {c : Chain} {p : π} (serves : Serves c p)
    (log : List SyncEvent) : Serves c (Peer.after p log) where
  headers log' hash limit hs h := by
    rw [← Peer.after_append]
    exact serves.headers _ hash limit hs h
  block log' hash b h := by
    rw [← Peer.after_append]
    exact serves.block _ hash b h

/-- A number is positive once it is at least one. -/
lemma toNat_max_one_pos (n : UInt32) : 0 < (max n 1).toNat := by
  change 0 < (if n ≤ 1 then (1 : UInt32) else n).toNat
  split
  · decide
  · rename_i h
    rw [UInt32.le_iff_toNat_le] at h
    omega

/-- At least one header is asked for at a time. -/
lemma Config.headersPerRequest_pos (config : Config) : 0 < config.headersPerRequest.toNat :=
  toNat_max_one_pos config.batchSize

/-- At least one attempt is made. -/
lemma Config.attempts_pos (config : Config) : 0 < config.attempts.toNat :=
  toNat_max_one_pos config.maxRetries

namespace BlockMap

variable {r : Chain} {R : List Block}

/-- A valid chain finds a block where the map of its blocks has it. -/
lemma blockByHash?_eq (hold : r.Holds R) (hash : Hash) :
    r.blockByHash? hash = .ok (ofBlocks R)[hash.bytes]? := by
  rw [getElem?_ofBlocks]
  cases hfind : R.reverse.find? (·.hash.bytes = hash.bytes) with
  | some b =>
    have hb := List.mem_reverse.1 (List.mem_of_find?_eq_some hfind)
    have hhash : b.hash = hash := Hash.ext (by simpa using List.find?_some hfind)
    rw [← hhash]
    exact hold.blockByHash?_of_mem hb
  | none =>
    rw [hold.blockByHash?_eq, Except.ok.injEq, List.find?_eq_none]
    intro b hb
    have hne := List.find?_eq_none.1 hfind b (List.mem_reverse.2 hb)
    simpa [Hash.bytes_inj] using hne

/-- A valid chain serves headers as the map of its blocks does. -/
lemma headersDescending_eq (hold : r.Holds R) (limit : Nat) (hash : Hash) :
    r.headersDescending hash limit = .ok ((ofBlocks R).headersDescending limit hash) := by
  induction limit generalizing hash with
  | zero =>
    simp only [Chain.headersDescending, Chain.header?, blockByHash?_eq hold, bind, Except.bind, pure,
      Except.pure]
    cases (ofBlocks R)[hash.bytes]? <;> rfl
  | succ limit ih =>
    simp only [Chain.headersDescending, Chain.header?, blockByHash?_eq hold, bind, Except.bind, pure,
      Except.pure, headersDescending]
    cases (ofBlocks R)[hash.bytes]? with
    | none => rfl
    | some b =>
      by_cases hnum : b.header.number = 0
      · have hbelow : r.below? b.header = .ok none := by rw [Chain.below?, if_pos hnum]
        have hdescend : r.descend limit none = .ok [] := by cases limit <;> rfl
        simp [Chain.descend, hbelow, hdescend, Block.number, hnum, bind, Except.bind, pure, Except.pure]
      · have hbelow : r.below? b.header = r.header? b.header.parent := by
          rw [Chain.below?, if_neg hnum]
        have below := ih b.header.parent
        simp only [Chain.headersDescending, bind, Except.bind] at below
        simp only [Option.map_some, Chain.descend, hbelow, Block.number, hnum, if_false, bind,
          Except.bind, pure, Except.pure]
        -- the chain looks the next header up before it asks for the limit
        cases hfound : r.header? b.header.parent with
        | error e => simp [hfound] at below
        | ok next =>
          simp only [hfound] at below
          simp [below]

end BlockMap

/-- A peer without a script serves the chain of its blocks. -/
lemma Peer.serves_ofBlocks {r : Chain} {R : List Block} (hold : r.Holds R) :
    Serves r ({ served := BlockMap.ofBlocks R } : ScriptedPeer) := by
  have hafter : ∀ log, Peer.after ({ served := BlockMap.ofBlocks R } : ScriptedPeer) log =
      { served := BlockMap.ofBlocks R } := by
    intro log
    induction log with
    | nil => rfl
    | cons event log ih => cases event <;> exact ih
  refine ⟨fun log hash limit hs h => ?_, fun log hash b h => ?_⟩
  · rw [BlockMap.headersDescending_eq hold, Except.ok.injEq] at h
    rw [hafter, ← h]
    rfl
  · rw [BlockMap.blockByHash?_eq hold, Except.ok.injEq] at h
    rw [hafter, ← h]
    rfl

namespace Sync

variable {π : Type} [Peer π Id] {κ σ : Type} {s t : SyncState κ σ π} {r : Chain} {R : List Block}
  {b : Block} {hash : Hash}

/-- One state has asked more of a serving peer than another, and nothing else has changed. -/
structure Asked (r : Chain) (s t : SyncState κ σ π) : Prop where
  segment : t.segment = s.segment
  chain : t.chain = s.chain
  config : t.config = s.config
  serves : Peer.Serves r t.peer

/-- A serving peer that is asked for headers brings those of its chain. -/
lemma exec_askHeaders_of_serves (serves : Peer.Serves r s.peer) {limit : UInt32} {hs : List Header}
    (h : r.headersDescending hash limit.toNat = .ok hs) :
    ∃ t, Operation.exec (askHeaders hash limit : SyncT Id κ σ π _) s = (.ok (.ok hs), t) ∧
      Asked r s t ∧ Follows s t [.headers hash limit] := by
  have answer : ((Peer.headers hash limit : StateT π Id _).run s.peer).1 = .ok hs :=
    serves.headers [] hash limit hs h
  refine ⟨(Operation.exec (askHeaders hash limit : SyncT Id κ σ π _) s).2, ?_, ⟨rfl, rfl, rfl,
    serves.after [.headers hash limit]⟩, Array.toList_push, rfl⟩
  rw [exec_askHeaders, answer]

/-- A serving peer that is asked for a block brings that of its chain. -/
lemma exec_askBlock_of_serves (serves : Peer.Serves r s.peer) {found : Option Block}
    (h : r.blockByHash? hash = .ok found) :
    ∃ t, Operation.exec (askBlock hash : SyncT Id κ σ π _) s = (.ok (.ok found), t) ∧
      Asked r s t ∧ Follows s t [.block hash] := by
  have answer : ((Peer.block hash : StateT π Id _).run s.peer).1 = .ok found :=
    serves.block [] hash found h
  refine ⟨(Operation.exec (askBlock hash : SyncT Id κ σ π _) s).2, ?_, ⟨rfl, rfl, rfl,
    serves.after [.block hash]⟩, Array.toList_push, rfl⟩
  rw [exec_askBlock, answer]

/-- What a chain has is fetched with the first attempt. -/
lemma exec_fetchHeader_of_serves (serves : Peer.Serves r s.peer) (hold : r.Holds R) (hb : b ∈ R) :
    ∃ t, Operation.exec (fetchHeader b.hash : SyncT Id κ σ π _) s = (.ok b.header, t) ∧
      Asked r s t ∧ ∃ limit, Follows s t [.headers b.hash limit] := by
  obtain ⟨limit, hlimit⟩ := Nat.exists_eq_add_of_le' s.config.headersPerRequest_pos
  obtain ⟨left, hleft⟩ := Nat.exists_eq_add_of_le' s.config.attempts_pos
  obtain ⟨hs, hdescending⟩ := hold.headersDescending_of_mem hb limit
  rw [← hlimit] at hdescending
  obtain ⟨t, hask, asked, follows⟩ := exec_askHeaders_of_serves serves hdescending
  refine ⟨t, ?_, asked, _, follows⟩
  have hfind : (b.header :: hs).find? (·.hash = b.hash) = some b.header := by
    simp [Block.hash]
  simp only [fetchHeader, Operation.exec_bind, Operation.exec_get, hleft, retry, attemptHeader, hask,
    hfind, Operation.exec_pure]

/-- What a chain does not have is not fetched. -/
lemma exec_fetchHeader_of_none (serves : Peer.Serves r s.peer) (hfound : r.header? hash = .ok none) :
    ∃ e t, Operation.exec (fetchHeader hash : SyncT Id κ σ π _) s = (.error e, t) := by
  -- each attempt finds nothing and leaves a peer that still serves the chain
  have attempt : ∀ (left : Nat) (s : SyncState κ σ π), Peer.Serves r s.peer →
      ∃ e t, Operation.exec (retry hash (attemptHeader hash) left : SyncT Id κ σ π _) s =
        (.error e, t) := by
    intro left
    induction left with
    | zero => exact fun s _ => ⟨_, _, rfl⟩
    | succ left ih =>
      intro s serves
      obtain ⟨t, hask, asked, -⟩ := exec_askHeaders_of_serves (κ := κ) (σ := σ) (s := s) serves
        (Chain.headersDescending_of_none hfound s.config.headersPerRequest.toNat)
      simp only [retry, attemptHeader, Operation.exec_bind, Operation.exec_get, hask,
        Operation.exec_pure, List.find?_nil]
      by_cases hleft : left ≠ 0
      · simp only [hleft, ne_eq, not_false_eq_true, if_true, Operation.exec_bind, Operation.exec_get]
        exact ih _ (asked.serves.after [.pause t.config.retryDelay])
      · simp only [hleft, if_false]
        exact ih t asked.serves
  obtain ⟨e, t, hexec⟩ := attempt s.config.attempts.toNat s serves
  refine ⟨e, t, ?_⟩
  simp only [fetchHeader, Operation.exec_bind, Operation.exec_get, hexec]

/-- A block that is sent for its hash is fetched with the first attempt. -/
lemma exec_fetchBlock_of_sent
    (hask : Operation.exec (askBlock b.hash : SyncT Id κ σ π _) s = (.ok (.ok (some b)), t)) :
    Operation.exec (fetchBlock b.hash : SyncT Id κ σ π _) s = (.ok b, t) := by
  obtain ⟨left, hleft⟩ := Nat.exists_eq_add_of_le' s.config.attempts_pos
  have hfilter : (some b).filter (·.hash = b.hash) = some b := by simp
  simp only [fetchBlock, Operation.exec_bind, Operation.exec_get, hleft, retry, attemptBlock, hask,
    hfilter, Operation.exec_pure]

/-- A block of the served chain is fetched with one request. -/
lemma exec_fetchBlock_of_serves (serves : Peer.Serves r s.peer) (hold : r.Holds R) (hb : b ∈ R) :
    ∃ t, Operation.exec (fetchBlock b.hash : SyncT Id κ σ π _) s = (.ok b, t) ∧ Asked r s t ∧
      Follows s t [.block b.hash] := by
  obtain ⟨t, hask, asked, follows⟩ := exec_askBlock_of_serves serves (hold.blockByHash?_of_mem hb)
  exact ⟨t, exec_fetchBlock_of_sent hask, asked, follows⟩

end Sync
end ChainSync
