import ChainSync.Proofs.Canonical
import ChainSync.Proofs.Segment.Restoring
import ChainSync.Proofs.Sync.Trace

/-!
# A walk back always ends

`WalkRound` says what one round of the walk back does, without a bound on the rounds or on the restoring
inside them; it counts the steps and the headers that are restored. Every step that succeeds lowers the
frontier (`number_lt_of_execute`), so from a segment with a frontier the rounds end, after at most as
many steps, and with at most as many restored headers, as the frontier is high, and what they come to is
what the walk with bounds returns (`syncToLocal_ends`). Nothing is assumed of the rows, the hashes, the
local chain or the peer.
-/

namespace ChainSync.Sync

variable {σ π : Type} [LocalChain σ] [Peer π Id] {s t : SyncState ByteMap σ π} {f g h : Header}
  {hash : Hash} {e : SyncError}

/-- Extends the segment by the header with a hash: the second half of a step, after restoring. -/
def extend {m : Type → Type} [Monad m] {κ σ π : Type} [KeyValue κ] [LocalChain σ] [Peer π m]
    (hash : Hash) : SyncT m κ σ π FoundHeader := do
  let found ← request hash
  save found.header
  return found

/-- A step restores what is stored and extends the segment by what is not. -/
lemma execute_eq (f : Header) :
    (execute f : SyncT Id ByteMap σ π _) = onSegment (Segment.restore f) >>= extend := by
  simp only [execute, beginStep, bind_assoc]
  refine bind_congr fun hash => ?_
  simp only [extend, request, bind_assoc]
  refine bind_congr fun found => ?_
  cases found with
  | some h => simp only [bind_assoc, pure_bind]
  | none => simp only [endStep, bind_assoc, pure_bind]

/-! ## The rounds of a walk back -/

/-- What follows the restoring in a round: the end of the walk, or the state for the next round. -/
def afterRestoring {κ σ π : Type} [KeyValue κ] [LocalChain σ] [Peer π Id] :
    Except SyncError Hash → SyncState κ σ π →
      (Except SyncError Header × SyncState κ σ π) ⊕ SyncState κ σ π
  | .error e, s => .inl (.error e, s)
  | .ok hash, s =>
    match Operation.exec (extend hash : SyncT Id κ σ π _) s with
    | (.error e, t) => .inl (.error e, t)
    | (.ok found, t) => if found.isLocal then .inl (.ok found.header, t) else .inr t

/-- A round of the walk back, with the number of steps and of restored headers. The restoring has no
bound. -/
inductive WalkRound {κ σ π : Type} [KeyValue κ] [LocalChain σ] [Peer π Id] :
    SyncState κ σ π → Nat × Nat → (Except SyncError Header × SyncState κ σ π) ⊕ SyncState κ σ π →
      Prop where
  | stops {s t : SyncState κ σ π} {e : SyncError} :
    Operation.exec (outlook : SyncT Id κ σ π _) s = (.error e, t) →
    WalkRound s (0, 0) (.inl (.error e, t))
  | arrives {s t : SyncState κ σ π} {h : Header} :
    Operation.exec (outlook : SyncT Id κ σ π _) s = (.ok (.inl h), t) →
    WalkRound s (0, 0) (.inl (.ok h, t))
  | steps {s t : SyncState κ σ π} {f : Header} {n : Nat} {r : Except SyncError Hash}
      {seg : Segment κ} :
    Operation.exec (outlook : SyncT Id κ σ π _) s = (.ok (.inr f), t) →
    Segment.Restores (f.parent, t.segment) n (r, seg) →
    WalkRound s (1, n) (afterRestoring r { t with segment := seg })

/-- The walk back, without a bound on its rounds. -/
abbrev Walks {κ σ π : Type} [KeyValue κ] [LocalChain σ] [Peer π Id] :
    SyncState κ σ π → Nat × Nat → Except SyncError Header × SyncState κ σ π → Prop :=
  Loops WalkRound

/-- The walk back goes one way, and so do its counts. -/
lemma Walks.unique {κ σ π : Type} [KeyValue κ] [LocalChain σ] [Peer π Id] {s : SyncState κ σ π}
    {n n' : Nat × Nat} {y y' : Except SyncError Header × SyncState κ σ π} (first : Walks s n y)
    (second : Walks s n' y') : n = n' ∧ y = y' := by
  refine Loops.unique ?_ first second
  intro s n n' z z' round round'
  cases round with
  | stops hlook =>
    cases round' with
    | stops hlook' =>
      cases hlook.symm.trans hlook'
      exact ⟨rfl, rfl⟩
    | arrives hlook' => cases hlook.symm.trans hlook'
    | steps hlook' => cases hlook.symm.trans hlook'
  | arrives hlook =>
    cases round' with
    | stops hlook' => cases hlook.symm.trans hlook'
    | arrives hlook' =>
      cases hlook.symm.trans hlook'
      exact ⟨rfl, rfl⟩
    | steps hlook' => cases hlook.symm.trans hlook'
  | steps hlook walk =>
    cases round' with
    | stops hlook' => cases hlook.symm.trans hlook'
    | arrives hlook' => cases hlook.symm.trans hlook'
    | steps hlook' walk' =>
      cases hlook.symm.trans hlook'
      obtain ⟨rfl, e⟩ := walk.unique (fun h h' => Prod.ext_iff.1 (h.symm.trans h')) walk'
      cases e
      exact ⟨rfl, rfl⟩

/-! ## What a step does to the frontier -/

omit [Peer π Id] in
/-- At height zero the local chain is asked for the frontier, and above there is a step to make. -/
lemma exec_outlook (s : SyncState ByteMap σ π) (hf : s.segment.frontier? = some f) :
    Operation.exec (outlook : SyncT Id ByteMap σ π _) s =
      if f.number = 0 then
        match LocalChain.header? s.chain f.hash with
        | .ok (some h) => (.ok (.inl h), s)
        | .ok none => (.error (.genesisMismatch f.hash), s)
        | .error cause => (.error (.localChain cause), s)
      else (.ok (.inr f), s) := by
  simp only [outlook, Operation.exec_bind, Operation.exec_get, hf]
  by_cases hzero : f.number = 0
  · simp only [hzero, if_true, Operation.exec_bind, exec_localHeader?]
    cases LocalChain.header? s.chain f.hash with
    | error cause => rfl
    | ok found => cases found <;> rfl
  · simp only [hzero, if_false]
    rfl

omit [LocalChain σ] in
/-- Fetching with attempts that always come to an answer fails only when they are used up. -/
lemma error_of_retry {α : Type} {attempt : SyncT Id ByteMap σ π (Option α)}
    (hattempt : ∀ s, ∃ found t, Operation.exec attempt s = (.ok found, t)) {left : Nat}
    (hexec : Operation.exec (retry hash attempt left) s = (.error e, t)) :
    ∃ k, e = .maxRetriesReached hash k := by
  induction left generalizing s with
  | zero =>
    cases hexec
    exact ⟨_, rfl⟩
  | succ left ih =>
    obtain ⟨found, u, hfound⟩ := hattempt s
    rw [retry, Operation.exec_bind, hfound] at hexec
    cases found with
    | some v => cases hexec
    | none =>
      by_cases hleft : left ≠ 0
      · simp only [hleft, ne_eq, not_false_eq_true, if_true] at hexec
        exact ih hexec
      · simp only [hleft, if_false] at hexec
        exact ih hexec

omit [LocalChain σ] in
/-- A fetch that fails is no verdict. -/
lemma not_isVerdict_of_fetchHeader
    (hexec : Operation.exec (fetchHeader hash : SyncT Id ByteMap σ π _) s = (.error e, t)) :
    ¬ e.IsVerdict := by
  have hattempt : ∀ s, ∃ found t, Operation.exec (attemptHeader hash : SyncT Id ByteMap σ π _) s =
      (.ok found, t) := by
    intro s
    simp only [attemptHeader, Operation.exec_bind, Operation.exec_get, exec_askHeaders]
    cases ((Peer.headers hash s.config.headersPerRequest : StateT π Id _).run s.peer).1 <;>
      exact ⟨_, _, rfl⟩
  obtain ⟨k, rfl⟩ := error_of_retry hattempt hexec
  exact id

/-- What a request for a header comes to. -/
structure Answered (hash : Hash) (s : SyncState ByteMap σ π) (r : Except SyncError FoundHeader)
    (t : SyncState ByteMap σ π) : Prop where
  segment : t.segment = s.segment
  chain : t.chain = s.chain
  known : ∀ found, r = .ok found → found.isLocal = true →
    LocalChain.header? s.chain hash = .ok (some found.header)
  unknown : ∀ found, r = .ok found → found.isLocal = false →
    LocalChain.header? s.chain hash = .ok none
  error : ∀ e, r = .error e → ¬ e.IsVerdict

/-- A request for a header comes to an answer of the local chain or of the peer. -/
lemma answered_request (hash : Hash) (s : SyncState ByteMap σ π) :
    Answered hash s (Operation.exec (request hash : SyncT Id ByteMap σ π _) s).1
      (Operation.exec (request hash : SyncT Id ByteMap σ π _) s).2 := by
  simp only [request, Operation.exec_bind, exec_localHeader?]
  cases hfound : LocalChain.header? s.chain hash with
  | error cause =>
    refine ⟨rfl, rfl, nofun, nofun, ?_⟩
    rintro _ ⟨⟩
    exact id
  | ok found =>
    cases found with
    | some h =>
      refine ⟨rfl, rfl, ?_, ?_, nofun⟩
      · rintro _ ⟨⟩ -
        exact hfound
      · rintro _ ⟨⟩ ⟨⟩
    | none =>
      simp only [Except.mapError, takeNetwork, Operation.exec_bind, exec_note]
      have keeps := Keeps.fetchHeader (f := Prod.mk) hash
        { s with events := s.events.push .network }
      rcases hexec : Operation.exec (fetchHeader hash : SyncT Id ByteMap σ π _)
        { s with events := s.events.push .network } with ⟨e | h, t⟩ <;> rw [hexec] at keeps
      · refine ⟨congrArg Prod.fst keeps, congrArg Prod.snd keeps, nofun, nofun, ?_⟩
        rintro _ ⟨⟩
        exact not_isVerdict_of_fetchHeader hexec
      · refine ⟨congrArg Prod.fst keeps, congrArg Prod.snd keeps, ?_, fun _ _ _ => hfound, nofun⟩
        rintro _ ⟨⟩ ⟨⟩

/-- What extending a segment below its frontier `f` comes to. -/
structure Extended (f : Header) (s : SyncState ByteMap σ π) (r : Except SyncError FoundHeader)
    (t : SyncState ByteMap σ π) : Prop where
  chain : t.chain = s.chain
  ok : ∀ found, r = .ok found → t.segment.frontier? = some found.header ∧
    Segment.Precedes found.header f ∧
    (found.isLocal = true → LocalChain.header? s.chain f.parent = .ok (some found.header))
  error : ∀ e, r = .error e → ¬ e.IsVerdict

/-- Extending the segment at its frontier's parent lowers the frontier, or fails without a verdict. -/
lemma extended (hf : s.segment.frontier? = some f) :
    Extended f s (Operation.exec (extend f.parent : SyncT Id ByteMap σ π _) s).1
      (Operation.exec (extend f.parent : SyncT Id ByteMap σ π _) s).2 := by
  have answered := answered_request f.parent s
  rw [extend, Operation.exec_bind]
  rcases hasked : Operation.exec (request f.parent : SyncT Id ByteMap σ π _) s with
    ⟨e | found, t⟩ <;> rw [hasked] at answered
  · refine ⟨answered.chain, ?_, answered.error⟩
    rintro _ ⟨⟩
  · have hft : t.segment.frontier? = some f := answered.segment ▸ hf
    simp only [save, Operation.exec_bind, exec_onSegment]
    rcases Segment.exec_prepend t.segment found.header with
      ⟨ends, hends, pre, hexec⟩ | ⟨-, e, hexec⟩
    · have hfrontier : ends.frontier = f := by
        rw [Segment.frontier?, hends] at hft
        exact Option.some.inj hft
      rw [hexec]
      refine ⟨answered.chain, ?_, ?_⟩
      · rintro _ ⟨⟩
        exact ⟨rfl, hfrontier ▸ pre, answered.known found rfl⟩
      · rintro _ ⟨⟩
    · rw [hexec]
      refine ⟨answered.chain, ?_, ?_⟩
      · rintro _ ⟨⟩
      · rintro _ ⟨⟩
        exact Segment.not_isVerdict_of_prependWith rfl hft hexec

/-- A step that succeeds ends at a lower frontier, the header that it found. -/
lemma number_lt_of_execute {found : FoundHeader} (hf : s.segment.frontier? = some f)
    (hexec : Operation.exec (execute f : SyncT Id ByteMap σ π _) s = (.ok found, t)) :
    t.segment.frontier? = some found.header ∧ found.header.number < f.number := by
  obtain ⟨n, r, seg, -, hrestore, ⟨g, hg, hnum, hparent⟩, -⟩ := Segment.exists_restored hf
  rw [execute_eq, Operation.exec_bind, exec_onSegment, hrestore] at hexec
  cases r with
  | error e => cases hexec
  | ok hash =>
    obtain rfl := hparent hash rfl
    have ext := extended (s := { s with segment := seg }) hg
    simp only [Except.mapError] at hexec
    rw [hexec] at ext
    obtain ⟨hfrontier, pre, -⟩ := ext.ok found rfl
    have hlower := pre.number
    refine ⟨hfrontier, ?_⟩
    rw [UInt64.lt_iff_toNat_lt]
    omega

/-! ## The walk -/

/-- A local chain finds no header under another hash than its own. -/
def Lawful (c : σ) : Prop :=
  ∀ hash h, LocalChain.header? c hash = .ok (some h) → h.hash = hash

/-- What a walk back beside the local chain `c` has come to: the header at the frontier, which a lawful
local chain has, the missing shared genesis, or another failure, but no segment without ends and no
walk without an end. -/
structure Settled (c : σ) (r : Except SyncError Header) (t : SyncState ByteMap σ π) : Prop where
  chain : t.chain = c
  connected : Lawful c → ∀ h, r = .ok h → ∃ f, t.segment.frontier? = some f ∧ h.hash = f.hash ∧
    LocalChain.header? c h.hash = .ok (some h)
  mismatch : ∀ hash, r = .error (.genesisMismatch hash) → ∃ f, t.segment.frontier? = some f ∧
    f.number = 0 ∧ f.hash = hash ∧ LocalChain.header? c hash = .ok none
  anchored : r ≠ .error .emptyChain
  bounded : ∀ hash, r ≠ .error (.endless hash)

omit [Peer π Id] in
/-- A failure that is no verdict settles the walk. -/
lemma settled_of_error {c : σ} (hchain : t.chain = c) (he : ¬ e.IsVerdict) :
    Settled c (.error e) t where
  chain := hchain
  connected := nofun
  mismatch := by
    rintro _ ⟨⟩
    exact absurd trivial he
  anchored := by
    rintro ⟨⟩
    exact he trivial
  bounded := by
    rintro _ ⟨⟩
    exact he trivial

/-- Where the outlook decides, no step is made. -/
lemma exec_walkWithin_of_outlook {r : Except SyncError Header}
    (hlook : Operation.exec (outlook : SyncT Id ByteMap σ π _) s = (r.map .inl, t)) (steps : Nat) :
    Operation.exec (walkWithin steps : SyncT Id ByteMap σ π _) s = (r.map some, t) := by
  cases steps <;> rw [walkWithin, Operation.exec_bind, hlook] <;> cases r <;> rfl

/-- Where the outlook goes on, a step is made if one is left. -/
lemma exec_walkWithin_succ {steps : Nat}
    (hlook : Operation.exec (outlook : SyncT Id ByteMap σ π _) s = (.ok (.inr f), t)) :
    Operation.exec (walkWithin (steps + 1) : SyncT Id ByteMap σ π _) s =
      match Operation.exec (execute f : SyncT Id ByteMap σ π _) t with
      | (.ok found, u) =>
        if found.isLocal then (.ok (some found.header), u)
        else Operation.exec (walkWithin steps : SyncT Id ByteMap σ π _) u
      | (.error e, u) => (.error e, u) := by
  rw [walkWithin, Operation.exec_bind, hlook]
  simp only [Operation.exec_bind]
  rcases Operation.exec (execute f : SyncT Id ByteMap σ π _) t with ⟨e | found, u⟩
  · rfl
  · by_cases hlocal : found.isLocal = true <;> simp [hlocal]

/-- At height zero the walk ends where it is. -/
lemma exists_walked_of_zero (hf : s.segment.frontier? = some f) (hzero : f.number = 0)
    (steps : Nat) :
    ∃ r, Walks s (0, 0) (r, s) ∧
      Operation.exec (walkWithin steps : SyncT Id ByteMap σ π _) s = (r.map some, s) ∧
      Settled s.chain r s := by
  have hlook := exec_outlook (π := π) s hf
  rw [if_pos hzero] at hlook
  cases hfound : LocalChain.header? s.chain f.hash with
  | error cause =>
    rw [hfound] at hlook
    exact ⟨_, .ends (.stops hlook), exec_walkWithin_of_outlook (r := .error _) hlook steps,
      settled_of_error rfl id⟩
  | ok found =>
    rw [hfound] at hlook
    cases found with
    | none =>
      refine ⟨_, .ends (.stops hlook), exec_walkWithin_of_outlook (r := .error _) hlook steps,
        rfl, nofun, ?_, nofun, nofun⟩
      rintro _ ⟨⟩
      exact ⟨f, hf, hzero, rfl, hfound⟩
    | some h =>
      refine ⟨_, .ends (.arrives hlook), exec_walkWithin_of_outlook (r := .ok h) hlook steps,
        rfl, ?_, nofun, nofun, nofun⟩
      rintro lawful _ ⟨⟩
      have hhash := lawful f.hash h hfound
      exact ⟨f, hf, hhash, hhash ▸ hfound⟩

/-- From a frontier the walk ends before its steps are used up: a round ends the walk, or leads to a
lower frontier. -/
lemma exists_walked (steps : Nat) (hf : s.segment.frontier? = some f)
    (hsteps : f.number.toNat ≤ steps) :
    ∃ calls restored r t, Walks s (calls, restored) (r, t) ∧
      Operation.exec (walkWithin steps : SyncT Id ByteMap σ π _) s = (r.map some, t) ∧
      calls ≤ f.number.toNat ∧ restored ≤ f.number.toNat ∧ Settled s.chain r t := by
  induction steps generalizing s f with
  | zero =>
    have hzero : f.number = 0 := UInt64.toNat_inj.1 (by rw [UInt64.toNat_zero]; omega)
    obtain ⟨r, walks, hexec, settled⟩ := exists_walked_of_zero hf hzero 0
    exact ⟨0, 0, r, s, walks, hexec, Nat.zero_le _, Nat.zero_le _, settled⟩
  | succ steps ih =>
    by_cases hzero : f.number = 0
    · obtain ⟨r, walks, hexec, settled⟩ := exists_walked_of_zero hf hzero (steps + 1)
      exact ⟨0, 0, r, s, walks, hexec, Nat.zero_le _, Nat.zero_le _, settled⟩
    · have hpos : 0 < f.number.toNat := by
        rw [Nat.pos_iff_ne_zero, ← UInt64.toNat_zero]
        exact fun e => hzero (UInt64.toNat_inj.1 e)
      have hlook := exec_outlook (π := π) s hf
      rw [if_neg hzero] at hlook
      obtain ⟨n, r, seg, walk, hrestore, ⟨g, hg, hnum, hparent⟩, herror⟩ :=
        Segment.exists_restored hf
      have round := WalkRound.steps hlook walk
      rw [exec_walkWithin_succ hlook, execute_eq, Operation.exec_bind, exec_onSegment, hrestore]
      cases r with
      | error e =>
        exact ⟨1, n, .error e, _, .ends round, rfl, hpos, by omega,
          settled_of_error rfl (herror e rfl)⟩
      | ok hash =>
        obtain rfl := hparent hash rfl
        have ext := extended (s := { s with segment := seg }) hg
        simp only [afterRestoring] at round
        simp only [Except.mapError]
        rcases hext : Operation.exec (extend g.parent : SyncT Id ByteMap σ π _)
          { s with segment := seg } with ⟨e | found, t⟩ <;> rw [hext] at ext round
        · exact ⟨1, n, .error e, t, .ends round, rfl, hpos, by omega,
            settled_of_error ext.chain (ext.error e rfl)⟩
        · obtain ⟨hfrontier, pre, hknown⟩ := ext.ok found rfl
          have hlower := pre.number
          by_cases hlocal : found.isLocal = true
          · simp only [hlocal, if_true] at round ⊢
            refine ⟨1, n, .ok found.header, t, .ends round, rfl, hpos, by omega, ext.chain, ?_, nofun,
              nofun, nofun⟩
            rintro - _ ⟨⟩
            refine ⟨found.header, hfrontier, rfl, ?_⟩
            rw [← pre.parent]
            exact hknown hlocal
          · simp only [hlocal] at round ⊢
            obtain ⟨calls, restored, r, u, walks, hexec, hcalls, hrestored, settled⟩ :=
              ih (s := t) hfrontier (by omega)
            rw [ext.chain] at settled
            exact ⟨1 + calls, n + restored, r, u, .goesOn round walks, hexec, by omega, by omega,
              settled⟩

/-- The walk back ends, whatever the rows, the local chain and the peer are like: it is the walk without
bounds, whose rounds make no more steps, and restore no more headers, than the frontier is high. A
step that succeeds lowers the frontier. What is returned beside a lawful local chain is its header
with the hash of the frontier; a missing shared genesis is told of a frontier at height zero that
the local chain does not have, and an empty segment of one without ends. -/
theorem syncToLocal_ends (s : SyncState ByteMap σ π) :
    (∀ f, s.segment.frontier? = some f → ∃ calls restored,
      (∀ n y, Walks s n y ↔
        n = (calls, restored) ∧ y = Operation.exec (syncToLocal : SyncT Id ByteMap σ π _) s) ∧
      calls ≤ f.number.toNat ∧ restored ≤ f.number.toNat ∧
      Settled s.chain (Operation.exec (syncToLocal : SyncT Id ByteMap σ π _) s).1
        (Operation.exec (syncToLocal : SyncT Id ByteMap σ π _) s).2) ∧
    (∀ (s t : SyncState ByteMap σ π) f found, s.segment.frontier? = some f →
      Operation.exec (execute f : SyncT Id ByteMap σ π _) s = (.ok found, t) →
      t.segment.frontier? = some found.header ∧ found.header.number < f.number) ∧
    ((Operation.exec (syncToLocal : SyncT Id ByteMap σ π _) s).1 = .error .emptyChain ↔
      s.segment.anchors = none) := by
  have hwalk : ∀ f, s.segment.frontier? = some f → ∃ calls restored,
      Walks s (calls, restored) (Operation.exec (syncToLocal : SyncT Id ByteMap σ π _) s) ∧
      calls ≤ f.number.toNat ∧ restored ≤ f.number.toNat ∧
      Settled s.chain (Operation.exec (syncToLocal : SyncT Id ByteMap σ π _) s).1
        (Operation.exec (syncToLocal : SyncT Id ByteMap σ π _) s).2 := by
    intro f hf
    obtain ⟨calls, restored, r, t, walks, hexec, hcalls, hrestored, settled⟩ :=
      exists_walked (π := π) f.number.toNat hf (Nat.le_refl _)
    have hsync : Operation.exec (syncToLocal : SyncT Id ByteMap σ π _) s = (r, t) := by
      simp only [syncToLocal, Operation.exec_bind, Operation.exec_get, hf, hexec]
      cases r <;> rfl
    rw [hsync]
    exact ⟨calls, restored, walks, hcalls, hrestored, settled⟩
  refine ⟨?_, fun s t f found hf hexec => number_lt_of_execute hf hexec, ?_⟩
  · intro f hf
    obtain ⟨calls, restored, walks, hcalls, hrestored, settled⟩ := hwalk f hf
    refine ⟨calls, restored, ?_, hcalls, hrestored, settled⟩
    intro n y
    constructor
    · exact fun walks' => walks'.unique walks
    · rintro ⟨rfl, rfl⟩
      exact walks
  · constructor
    · intro hempty
      cases hf : s.segment.frontier? with
      | none => exact Option.map_eq_none_iff.1 hf
      | some f =>
        obtain ⟨-, -, -, -, -, settled⟩ := hwalk f hf
        exact absurd hempty settled.anchored
    · intro hnone
      have hf : s.segment.frontier? = none := by rw [Segment.frontier?, hnone, Option.map_none]
      simp only [syncToLocal, Operation.exec_bind, Operation.exec_get, hf]
      rfl

/-- A walk from the second block over tables that hold the first one: it restores that one, and the
local chain has what is below. -/
theorem syncToLocal_ends_second :
    let s : SyncState ByteMap Chain ScriptedPeer :=
      { segment := ((Segment.trust Block.second).exec (Segment.empty.putHeader Block.first.header)).2
        chain := Chain.ofBlocks [Block.genesis]
        peer := {} }
    Lawful s.chain ∧ s.segment.frontier? = some Block.second.header ∧
      ∃ calls restored,
        (∀ n y, Walks s n y ↔ n = (calls, restored) ∧ y = Operation.exec syncToLocal s) ∧
        calls ≤ 2 ∧ restored ≤ 2 ∧
        Settled s.chain (Operation.exec syncToLocal s).1 (Operation.exec syncToLocal s).2 := by
  intro s
  have lawful : Lawful s.chain := fun _ _ => Chain.hash_eq_of_header?
  exact ⟨lawful, rfl, (syncToLocal_ends s).1 Block.second.header rfl⟩

end ChainSync.Sync
