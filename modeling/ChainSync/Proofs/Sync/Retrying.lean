import ChainSync.Proofs.Sync.Honest

/-!
# Fetching with bounded retries

A fetch is decided by the first answer in which something matches: it makes the requests up to this
one, with a pause after each that came before, and takes the first match of this answer. If none of the
answers that the settings allow for has a match, it is given up with the last of them. The peer may
answer each request as it likes, so that its answers are any sequence of answers. Waiting for a delay
of zero is a pause without length.
-/

namespace ChainSync

/-- The state after nothing but some events, which the peer has answered. -/
def SyncState.having {κ σ π : Type} [Peer π Id] (s : SyncState κ σ π) (log : List SyncEvent) :
    SyncState κ σ π :=
  { s with peer := Peer.after s.peer log, events := s.events ++ log.toArray }

namespace SyncState

variable {κ σ π : Type} [Peer π Id] (s : SyncState κ σ π) (log log' : List SyncEvent)

/-- Events come one after the other. -/
@[simp]
lemma having_having : (s.having log).having log' = s.having (log ++ log') := by
  simp [having, Peer.after_append, Array.append_assoc]

/-- One event is answered by the peer and noted. -/
lemma having_singleton (e : SyncEvent) :
    s.having [e] = { s with peer := Peer.afterEvent s.peer e, events := s.events.push e } := by
  simp [having, Peer.after]

end SyncState

namespace Sync

/-- Some requests for the same thing, each with the pause after it. -/
def rounds (ask : SyncEvent) (delay : UInt64) (n : Nat) : List SyncEvent :=
  (List.replicate n [ask, .pause delay]).flatten

/-- Some requests for the same thing, with a pause between any two. -/
def tries (ask : SyncEvent) (delay : UInt64) (n : Nat) : List SyncEvent :=
  (List.replicate n ask).intersperse (.pause delay)

section

variable (ask : SyncEvent) (delay : UInt64) (n : Nat)

/-- The first round comes before the others. -/
lemma rounds_succ : rounds ask delay (n + 1) = [ask, .pause delay] ++ rounds ask delay n := by
  simp [rounds, List.replicate_succ]

/-- The last request is not followed by a pause. -/
lemma tries_succ : tries ask delay (n + 1) = rounds ask delay n ++ [ask] := by
  induction n with
  | zero => rfl
  | succ n ih =>
    rw [rounds_succ, List.append_assoc, ← ih]
    rfl

variable {ask delay n} in
/-- Tries consist of requests and pauses. -/
lemma mem_tries {e : SyncEvent} (he : e ∈ tries ask delay (n + 1)) : e = ask ∨ e = .pause delay := by
  rw [tries_succ, List.mem_append, rounds] at he
  rcases he with he | he
  · obtain ⟨round, hround, he⟩ := List.mem_flatten.1 he
    rw [List.eq_of_mem_replicate hround] at he
    simpa using he
  · exact .inl (List.mem_singleton.1 he)

/-- There is one pause less than there are requests. -/
lemma count_tries (hne : ask ≠ .pause delay) :
    (tries ask delay n).count ask = n ∧ (tries ask delay n).count (.pause delay) = n - 1 := by
  cases n with
  | zero => exact ⟨rfl, rfl⟩
  | succ n =>
    rw [tries_succ]
    have hrounds : (rounds ask delay n).count ask = n ∧
        (rounds ask delay n).count (.pause delay) = n := by
      induction n with
      | zero => exact ⟨rfl, rfl⟩
      | succ n ih => simp [rounds_succ, ih, hne, hne.symm]
    simp [hrounds, hne]

end

variable {κ σ π α : Type} [Peer π Id]

/-- An attempt makes one request under the given settings and takes from the answer what it finds
there. -/
def AsksOnce (config : Config) (ask : SyncEvent) (find : π → Option α)
    (attempt : SyncT Id κ σ π (Option α)) : Prop :=
  ∀ s, s.config = config → Operation.exec attempt s = (.ok (find s.peer), s.having [ask])

section

variable {config : Config} {ask : SyncEvent} {find : π → Option α}
  {attempt : SyncT Id κ σ π (Option α)}

/-- One round of a retry: what is found is returned, and otherwise the next round follows after a pause,
if one is left. -/
lemma AsksOnce.exec_retry (att : AsksOnce config ask find attempt) (hash : Hash) (left : Nat)
    {s : SyncState κ σ π} (hs : s.config = config) :
    Operation.exec (retry hash attempt (left + 1)) s =
      match find s.peer with
      | some v => (.ok v, s.having [ask])
      | none =>
        if left = 0 then (.error (.maxRetriesReached hash config.attempts), s.having [ask])
        else Operation.exec (retry hash attempt left) (s.having [ask, .pause config.retryDelay]) := by
  subst hs
  rw [retry, Operation.exec_bind, att s rfl]
  cases find s.peer with
  | some v => rfl
  | none =>
    by_cases hleft : left = 0
    · subst hleft
      rfl
    · have hpause : s.having [ask, .pause s.config.retryDelay] =
          (s.having [ask]).having [.pause s.config.retryDelay] := by simp
      rw [hpause, SyncState.having_singleton _ (.pause _)]
      simp only [hleft, ne_eq, not_false_eq_true, if_true, if_false]
      rfl

/-- The first attempt that finds something ends a retry. -/
lemma AsksOnce.exec_retry_of_found (att : AsksOnce config ask find attempt) (hash : Hash)
    {s : SyncState κ σ π} (hs : s.config = config) {n left : Nat} {v : α} (hn : n < left)
    (hnone : ∀ i < n, find (Peer.after s.peer (rounds ask config.retryDelay i)) = none)
    (hfound : find (Peer.after s.peer (rounds ask config.retryDelay n)) = some v) :
    Operation.exec (retry hash attempt left) s =
      (.ok v, s.having (tries ask config.retryDelay (n + 1))) := by
  induction n generalizing s left with
  | zero =>
    obtain ⟨left, rfl⟩ := Nat.exists_eq_add_one.2 hn
    rw [att.exec_retry hash left hs, show find s.peer = some v from hfound]
    rfl
  | succ n ih =>
    obtain ⟨left, rfl⟩ := Nat.exists_eq_add_one.2 (Nat.zero_lt_of_lt hn)
    have hleft : left ≠ 0 := Nat.ne_zero_of_lt (Nat.lt_of_succ_lt_succ hn)
    rw [rounds_succ, Peer.after_append] at hfound
    have hrest := ih (s := s.having [ask, .pause config.retryDelay]) hs (Nat.lt_of_succ_lt_succ hn)
      (fun i hi => by
        have hlater := hnone (i + 1) (Nat.succ_lt_succ hi)
        rwa [rounds_succ, Peer.after_append] at hlater)
      hfound
    rw [att.exec_retry hash left hs, show find s.peer = none from hnone 0 (Nat.succ_pos n)]
    simp only [hleft, if_false]
    rw [hrest, SyncState.having_having, tries_succ _ _ (n + 1), rounds_succ, List.append_assoc,
      ← tries_succ]

/-- A retry whose attempts find nothing is given up after the last one. -/
lemma AsksOnce.exec_retry_of_none (att : AsksOnce config ask find attempt) (hash : Hash)
    {s : SyncState κ σ π} (hs : s.config = config) (left : Nat)
    (hnone : ∀ i ≤ left, find (Peer.after s.peer (rounds ask config.retryDelay i)) = none) :
    Operation.exec (retry hash attempt (left + 1)) s =
      (.error (.maxRetriesReached hash config.attempts),
        s.having (tries ask config.retryDelay (left + 1))) := by
  induction left generalizing s with
  | zero =>
    rw [att.exec_retry hash 0 hs, show find s.peer = none from hnone 0 (Nat.le_refl 0)]
    rfl
  | succ left ih =>
    have hrest := ih (s := s.having [ask, .pause config.retryDelay]) hs fun i hi => by
      have hlater := hnone (i + 1) (Nat.succ_le_succ hi)
      rwa [rounds_succ, Peer.after_append] at hlater
    rw [att.exec_retry hash (left + 1) hs, show find s.peer = none from hnone 0 (Nat.zero_le _)]
    simp only [Nat.succ_ne_zero, if_false]
    rw [hrest, SyncState.having_having, tries_succ _ _ (left + 1), rounds_succ, List.append_assoc,
      ← tries_succ]

end

/-- How a fetch ends, by the matches that the answers to its attempts have: the first attempt with a
match gives its match, and without a match the fetch is given up after the attempts that the settings
allow. Besides what the peer goes through only the requests and the pauses are noted. -/
structure EndsByMatches (s : SyncState κ σ π) (hash : Hash) (ask : SyncEvent)
    (matching : Nat → α → Prop) (fetch : SyncT Id κ σ π α) : Prop where
  found : ∀ n < (max s.config.maxRetries 1).toNat, ∀ v, (∀ i < n, ∀ w, ¬ matching i w) →
    matching n v →
      Operation.exec fetch s = (.ok v, s.having (tries ask s.config.retryDelay (n + 1)))
  givenUp : (∀ i < (max s.config.maxRetries 1).toNat, ∀ w, ¬ matching i w) →
    Operation.exec fetch s =
      (.error (.maxRetriesReached hash (max s.config.maxRetries 1)),
        s.having (tries ask s.config.retryDelay (max s.config.maxRetries 1).toNat))

/-- A retry with the attempts that the settings allow ends by what its attempts find. -/
lemma AsksOnce.endsByMatches {s : SyncState κ σ π} {ask : SyncEvent} {find : π → Option α}
    {attempt : SyncT Id κ σ π (Option α)} (att : AsksOnce s.config ask find attempt) (hash : Hash)
    {matching : Nat → α → Prop}
    (hmatching : ∀ n v, matching n v ↔
      find (Peer.after s.peer (rounds ask s.config.retryDelay n)) = some v) :
    EndsByMatches s hash ask matching
      (do retry hash attempt (← get).config.attempts.toNat : SyncT Id κ σ π α) := by
  have hnone : ∀ i, (∀ w, ¬ matching i w) →
      find (Peer.after s.peer (rounds ask s.config.retryDelay i)) = none := by
    intro i hi
    rw [Option.eq_none_iff_forall_ne_some]
    intro v hv
    exact hi v ((hmatching i v).2 hv)
  constructor
  · intro n hn v hbefore hv
    rw [Operation.exec_bind, Operation.exec_get]
    exact att.exec_retry_of_found hash rfl hn (fun i hi => hnone i (hbefore i hi))
      ((hmatching n v).1 hv)
  · intro hall
    obtain ⟨left, hleft⟩ := Nat.exists_eq_add_one.2 s.config.attempts_pos
    change ∀ i < s.config.attempts.toNat, _ at hall
    change _ = (_, s.having (tries ask s.config.retryDelay s.config.attempts.toNat))
    rw [Operation.exec_bind, Operation.exec_get]
    dsimp only
    rw [hleft] at hall ⊢
    exact att.exec_retry_of_none hash rfl left fun i hi => hnone i (hall i (Nat.lt_succ_of_le hi))

/-- A fetch makes some tries, and ends with a match or is given up. -/
lemma EndsByMatches.exists_tries {s : SyncState κ σ π} {hash : Hash} {ask : SyncEvent}
    {matching : Nat → α → Prop} {fetch : SyncT Id κ σ π α}
    (ends : EndsByMatches s hash ask matching fetch) :
    ∃ n, (∃ v, matching n v ∧
        Operation.exec fetch s = (.ok v, s.having (tries ask s.config.retryDelay (n + 1)))) ∨
      Operation.exec fetch s = (.error (.maxRetriesReached hash s.config.attempts),
        s.having (tries ask s.config.retryDelay (n + 1))) := by
  classical
  by_cases hex : ∃ n, n < s.config.attempts.toNat ∧ ∃ v, matching n v
  · obtain ⟨hn, v, hv⟩ := Nat.find_spec hex
    refine ⟨Nat.find hex, .inl ⟨v, hv, ends.found _ hn v ?_ hv⟩⟩
    intro i hi w hw
    exact Nat.find_min hex hi ⟨hi.trans hn, w, hw⟩
  · push Not at hex
    obtain ⟨n, hn⟩ := Nat.exists_eq_add_one.2 s.config.attempts_pos
    refine ⟨n, .inr ?_⟩
    rw [← hn]
    exact ends.givenUp hex

/-! ## Headers and blocks -/

/-- A header is the first one with the hash in an answer. -/
def FirstIn (hash : Hash) (answer : Except PeerError (List Header)) (h : Header) : Prop :=
  ∃ before after, answer = .ok (before ++ h :: after) ∧ h.hash = hash ∧ ∀ b ∈ before, b.hash ≠ hash

/-- A block is what an answer has, and has the hash. -/
def OnlyIn (hash : Hash) (answer : Except PeerError (Option Block)) (b : Block) : Prop :=
  answer = .ok (some b) ∧ b.hash = hash

/-- The answer to a request for headers after a number of rounds. -/
def headersAnswer (s : SyncState κ σ π) (hash : Hash) (limit : UInt32) (n : Nat) :
    Except PeerError (List Header) :=
  ((Peer.headers hash limit : StateT π Id _).run
    (Peer.after s.peer (rounds (.headers hash limit) s.config.retryDelay n))).1

/-- The answer to a request for a block after a number of rounds. -/
def blockAnswer (s : SyncState κ σ π) (hash : Hash) (n : Nat) : Except PeerError (Option Block) :=
  ((Peer.block hash : StateT π Id _).run
    (Peer.after s.peer (rounds (.block hash) s.config.retryDelay n))).1

/-- The first header with the hash in an answer, if one is there. -/
def firstIn? (hash : Hash) : Except PeerError (List Header) → Option Header
  | .ok headers => headers.find? (·.hash = hash)
  | .error _ => none

/-- The block of an answer, if it has the hash. -/
def onlyIn? (hash : Hash) : Except PeerError (Option Block) → Option Block
  | .ok block => block.filter (·.hash = hash)
  | .error _ => none

/-- What is found is the first header with the hash. -/
lemma firstIn?_eq_some {hash : Hash} {answer : Except PeerError (List Header)} {h : Header} :
    firstIn? hash answer = some h ↔ FirstIn hash answer h := by
  cases answer with
  | error cause => simp [firstIn?, FirstIn]
  | ok headers =>
    simp only [firstIn?, List.find?_eq_some_iff_append, FirstIn, Except.ok.injEq, decide_eq_true_eq,
      Bool.not_eq_true', decide_eq_false_iff_not]
    constructor
    · rintro ⟨hh, before, after, e, hbefore⟩
      exact ⟨before, after, e, hh, hbefore⟩
    · rintro ⟨before, after, e, hh, hbefore⟩
      exact ⟨hh, before, after, e, hbefore⟩

/-- What is found is the block with the hash. -/
lemma onlyIn?_eq_some {hash : Hash} {answer : Except PeerError (Option Block)} {b : Block} :
    onlyIn? hash answer = some b ↔ OnlyIn hash answer b := by
  cases answer with
  | error cause => simp [onlyIn?, OnlyIn]
  | ok block => simp [onlyIn?, OnlyIn, Option.filter_eq_some_iff]

/-- An attempt for a header makes one request. -/
lemma asksOnce_attemptHeader (config : Config) (hash : Hash) :
    AsksOnce config (.headers hash config.headersPerRequest)
      (fun p => firstIn? hash ((Peer.headers hash config.headersPerRequest : StateT π Id _).run p).1)
      (attemptHeader hash : SyncT Id κ σ π _) := by
  rintro s rfl
  simp only [attemptHeader, Operation.exec_bind, Operation.exec_get, exec_askHeaders,
    SyncState.having_singleton]
  cases ((Peer.headers hash s.config.headersPerRequest : StateT π Id _).run s.peer).1 <;> rfl

/-- An attempt for a block makes one request. -/
lemma asksOnce_attemptBlock (config : Config) (hash : Hash) :
    AsksOnce config (.block hash)
      (fun p => onlyIn? hash ((Peer.block hash : StateT π Id _).run p).1)
      (attemptBlock hash : SyncT Id κ σ π _) := by
  rintro s -
  simp only [attemptBlock, Operation.exec_bind, exec_askBlock, SyncState.having_singleton]
  cases ((Peer.block hash : StateT π Id _).run s.peer).1 <;> rfl

/-- A fetch of a header ends by the first match. -/
lemma endsByMatches_fetchHeader (s : SyncState κ σ π) (hash : Hash) :
    EndsByMatches s hash (.headers hash (max s.config.batchSize 1))
      (fun n => FirstIn hash (headersAnswer s hash (max s.config.batchSize 1) n))
      (fetchHeader hash) :=
  (asksOnce_attemptHeader s.config hash).endsByMatches hash fun _ _ => firstIn?_eq_some.symm

/-- A fetch of a block ends by the first match. -/
lemma endsByMatches_fetchBlock (s : SyncState κ σ π) (hash : Hash) :
    EndsByMatches s hash (.block hash) (fun n => OnlyIn hash (blockAnswer s hash n))
      (fetchBlock hash) :=
  (asksOnce_attemptBlock s.config hash).endsByMatches hash fun _ _ => onlyIn?_eq_some.symm

/-- A header is fetched with the first request in whose answer it is, out of as many as the settings
allow, each for as many headers as they allow, and a block likewise. They are the first header with the
hash in this answer and the block in it; no other answer matters. A list of tries has as many requests
as it says, and a pause between any two of them. -/
theorem fetches_end_by_matches (s : SyncState κ σ π) (hash : Hash) :
    let limit := max s.config.batchSize 1
    EndsByMatches s hash (.headers hash limit)
      (fun n => FirstIn hash (headersAnswer s hash limit n)) (fetchHeader hash) ∧
    EndsByMatches s hash (.block hash) (fun n => OnlyIn hash (blockAnswer s hash n))
      (fetchBlock hash) ∧
    ∀ ask delay n, ask ≠ .pause delay →
      (tries ask delay n).count ask = n ∧ (tries ask delay n).count (.pause delay) = n - 1 :=
  ⟨endsByMatches_fetchHeader s hash, endsByMatches_fetchBlock s hash, count_tries⟩

/-- A failed request and one whose answer has only another header, then the second header of the third
answer; and a single attempt if the settings allow none. -/
theorem fetches_end_by_matches_third :
    let x : SyncState ByteMap Chain ScriptedPeer :=
      { segment := Segment.empty
        chain := Chain.ofBlocks [Block.genesis]
        peer := { script := [(.fail .transport, 1), (.headers [Block.second.header], 1),
          (.headers [Block.second.header, Block.first.header], 1)] } }
    let y := { x with config := { maxRetries := 0 } }
    let ask := SyncEvent.headers Block.first.hash 25
    Operation.exec (fetchHeader Block.first.hash) x =
      (.ok Block.first.header, x.having [ask, .pause 250, ask, .pause 250, ask]) ∧
    Operation.exec (fetchBlock Block.first.hash) y =
      (.error (.maxRetriesReached Block.first.hash 1), y.having [.block Block.first.hash]) := by
  intro x y ask
  have hne : Block.second.header.hash ≠ Block.first.hash := Block.second_hash_ne
  obtain ⟨headers, -, -⟩ := fetches_end_by_matches x Block.first.hash
  obtain ⟨-, block, -⟩ := fetches_end_by_matches y Block.first.hash
  constructor
  · apply headers.found 2 (by decide)
    · rintro (_ | _ | i) hi h ⟨before, after, hanswer, hh, -⟩
      · cases hanswer
      · have hmem : h ∈ [Block.second.header] := by
          rw [Except.ok.inj hanswer]
          simp
        rw [List.mem_singleton.1 hmem] at hh
        exact hne hh
      · omega
    · exact ⟨[Block.second.header], [], rfl, rfl, by simpa using hne⟩
  · apply block.givenUp
    rintro i hi b ⟨hanswer, -⟩
    obtain rfl : i = 0 := Nat.lt_one_iff.1 hi
    cases hanswer

end Sync
end ChainSync
