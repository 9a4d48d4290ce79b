import ChainSync.Peer
import ChainSync.Sync.Stitch
import ChainSync.Proofs.StoredForm

/-!
# What a sync notes and what its peer brings

The events of a sync tell every request, so they tell where its peer stands: an operation is `Traced`
if it only adds events and leaves the peer that has answered them. What the peer sends in the course of
some events is then a matter of these events (`Peer.Brings`).

`Ensures U P act Q` is the rule of reasoning about a sync: if the peer brings nothing but headers from
`U`, an operation that begins with `P` of the segment and the chain ends with `Q`. Nothing else is
assumed of the peer, whose answers may depend on every request before.
-/

namespace ChainSync

/-- A success does not depend on how errors are told. -/
@[simp]
lemma mapError_eq_ok {ε δ α : Type} {x : Except ε α} {tell : ε → δ} {v : α} :
    x.mapError tell = .ok v ↔ x = .ok v := by
  cases x <;> simp [Except.mapError]

/-- Of the blocks with a hash the last one is kept. -/
lemma BlockMap.getElem?_ofBlocks (bs : List Block) (key : Bytes) :
    (BlockMap.ofBlocks bs)[key]? = bs.reverse.find? (·.hash.bytes = key) := by
  induction bs using List.reverseRecOn with
  | nil => simp [BlockMap.ofBlocks]
  | append_singleton bs b ih =>
    have hinsert : BlockMap.ofBlocks (bs ++ [b]) = (BlockMap.ofBlocks bs).insert b.hash.bytes b := by
      simp [BlockMap.ofBlocks]
    rw [hinsert, Std.ExtTreeMap.getElem?_insert, List.reverse_concat, List.find?_cons, ih]
    by_cases e : b.hash.bytes = key <;> simp [e]

namespace Peer

variable {π : Type} [Peer π Id]

/-- The peer after an event. -/
def afterEvent (p : π) : SyncEvent → π
  | .headers hash limit => ((Peer.headers hash limit : StateT π Id _).run p).2
  | .block hash => ((Peer.block hash : StateT π Id _).run p).2
  | .pause milliseconds => ((Peer.pause milliseconds : StateT π Id _).run p).2
  | .network | .handOver _ => p

/-- The peer after some events. -/
def after (p : π) (log : List SyncEvent) : π := log.foldl afterEvent p

/-- The headers that the peer sends at an event. -/
def sentHeaders (p : π) : SyncEvent → List Header
  | .headers hash limit =>
    match ((Peer.headers hash limit : StateT π Id _).run p).1 with
    | .ok headers => headers
    | .error _ => []
  | _ => []

/-- The blocks that the peer sends at an event. -/
def sentBlocks (p : π) : SyncEvent → List Block
  | .block hash =>
    match ((Peer.block hash : StateT π Id _).run p).1 with
    | .ok block => block.toList
    | .error _ => []
  | _ => []

/-- In the course of some events the peer sends only headers, and blocks with headers, from a set. -/
def Brings (U : Set Header) : π → List SyncEvent → Prop
  | _, [] => True
  | p, e :: log =>
    (∀ h ∈ sentHeaders p e, h ∈ U ∧ h.Sized) ∧ (∀ b ∈ sentBlocks p e, b.header ∈ U ∧ b.Sized) ∧
      Brings U (afterEvent p e) log

/-- Without events the peer brings nothing. -/
@[simp]
lemma brings_nil {U : Set Header} {p : π} : Brings U p [] := trivial

/-- The peer goes through events one after the other. -/
lemma after_append (p : π) (l l' : List SyncEvent) : after p (l ++ l') = after (after p l) l' :=
  List.foldl_append

/-- What is brought in the course of two lists of events is brought in each. -/
lemma brings_append {U : Set Header} {p : π} {l l' : List SyncEvent} :
    Brings U p (l ++ l') ↔ Brings U p l ∧ Brings U (after p l) l' := by
  induction l generalizing p with
  | nil => simp [after]
  | cons e l ih => simp only [List.cons_append, Brings, ih, after, List.foldl_cons, and_assoc]

/-- A peer that stays the same brings what it sends at each event. -/
lemma brings_of_forall {U : Set Header} {p : π} (hafter : ∀ e, afterEvent p e = p)
    (hheaders : ∀ e, ∀ h ∈ sentHeaders p e, h ∈ U ∧ h.Sized)
    (hblocks : ∀ e, ∀ b ∈ sentBlocks p e, b.header ∈ U ∧ b.Sized) (log : List SyncEvent) :
    Brings U p log := by
  induction log with
  | nil => exact brings_nil
  | cons e log ih => exact ⟨hheaders e, hblocks e, by rwa [hafter e]⟩

/-- A peer without a script brings what it serves. -/
lemma brings_of_served {U : Set Header} {served : BlockMap}
    (hserved : ∀ (key : Bytes) b, served[key]? = some b → b.header ∈ U ∧ b.Sized)
    (log : List SyncEvent) : Brings U ({ served } : ScriptedPeer) log := by
  have hdescending : ∀ limit hash, ∀ h ∈ served.headersDescending limit hash, h ∈ U ∧ h.Sized := by
    intro limit
    induction limit with
    | zero => exact nofun
    | succ limit ih =>
      intro hash h hh
      rw [BlockMap.headersDescending] at hh
      cases hb : served[hash.bytes]? with
      | none => simp [hb] at hh
      | some b =>
        simp only [hb, List.mem_cons] at hh
        rcases hh with rfl | hh
        · exact ⟨(hserved _ b hb).1, (hserved _ b hb).2.header⟩
        · split_ifs at hh
          · cases hh
          · exact ih _ h hh
  apply brings_of_forall
  · rintro (_ | _ | _ | _ | _) <;> rfl
  · rintro (_ | ⟨hash, limit⟩ | _ | _ | _)
    case headers => exact hdescending limit.toNat hash
    all_goals exact nofun
  · rintro (_ | _ | hash | _ | _)
    case block => exact fun b hb => hserved _ b (Option.mem_toList.1 hb)
    all_goals exact nofun

/-- A peer that serves some blocks brings no others. -/
lemma brings_ofBlocks {U : Set Header} {bs : List Block} (hbs : ∀ b ∈ bs, b.header ∈ U ∧ b.Sized)
    (log : List SyncEvent) : Brings U ({ served := BlockMap.ofBlocks bs } : ScriptedPeer) log := by
  apply brings_of_served
  intro key b hb
  rw [BlockMap.getElem?_ofBlocks] at hb
  exact hbs b (List.mem_reverse.1 (List.mem_of_find?_eq_some hb))

end Peer

namespace Sync

variable {κ σ π α β : Type}

/-- The local chain is asked without an effect. -/
lemma exec_localHeader? [LocalChain σ] (hash : Hash) (s : SyncState κ σ π) :
    Operation.exec (localHeader? hash : SyncT Id κ σ π _) s =
      ((LocalChain.header? s.chain hash).mapError .localChain, s) := rfl

/-- A block that is handed over is noted, whether the local chain takes it or not. -/
lemma exec_handOver [LocalChain σ] (b : Block) (s : SyncState κ σ π) :
    Operation.exec (handOver b : SyncT Id κ σ π _) s =
      match LocalChain.append s.chain b with
      | .ok chain => (.ok (), { s with chain, events := s.events.push (.handOver b.number) })
      | .error cause =>
        (.error (.importing cause), { s with events := s.events.push (.handOver b.number) }) := by
  rw [handOver, Operation.exec_bind, exec_note]
  change (Operation.changing _).exec _ = _
  rw [Operation.exec_changing]
  cases LocalChain.append s.chain b <;> rfl

section Tracing

variable [Peer π Id]

/-- A request for headers changes the peer and is noted. -/
lemma exec_askHeaders (hash : Hash) (limit : UInt32) (s : SyncState κ σ π) :
    Operation.exec (askHeaders hash limit : SyncT Id κ σ π _) s =
      (.ok ((Peer.headers hash limit : StateT π Id _).run s.peer).1,
        { s with
          peer := ((Peer.headers hash limit : StateT π Id _).run s.peer).2
          events := s.events.push (.headers hash limit) }) := rfl

/-- A request for a block changes the peer and is noted. -/
lemma exec_askBlock (hash : Hash) (s : SyncState κ σ π) :
    Operation.exec (askBlock hash : SyncT Id κ σ π _) s =
      (.ok ((Peer.block hash : StateT π Id _).run s.peer).1,
        { s with
          peer := ((Peer.block hash : StateT π Id _).run s.peer).2
          events := s.events.push (.block hash) }) := rfl

/-- A sync goes on from one state to another by some events. -/
structure Follows (s t : SyncState κ σ π) (log : List SyncEvent) : Prop where
  events : t.events.toList = s.events.toList ++ log
  peer : t.peer = Peer.after s.peer log

namespace Follows

variable {s t u : SyncState κ σ π} {l l' : List SyncEvent}

/-- A sync goes on to its own state by no events. -/
lemma refl : Follows s s [] := ⟨(List.append_nil _).symm, rfl⟩

/-- The events of two operations come one after the other. -/
lemma trans (h : Follows s t l) (h' : Follows t u l') : Follows s u (l ++ l') where
  events := by rw [h'.events, h.events, List.append_assoc]
  peer := by rw [h'.peer, h.peer, Peer.after_append]

/-- The events between two states are determined. -/
lemma unique (h : Follows s t l) (h' : Follows s t l') : l = l' := by
  have e := h'.events
  rw [h.events] at e
  exact List.append_cancel_left e

end Follows

/-- An operation only adds events, and leaves the peer that has answered them. -/
def Traced (act : SyncT Id κ σ π α) : Prop := ∀ s, ∃ log, Follows s (Operation.exec act s).2 log

namespace Traced

/-- Returning adds no events. -/
lemma pure (x : α) : Traced (pure x : SyncT Id κ σ π α) := fun _ => ⟨[], .refl⟩

/-- Failing adds no events. -/
lemma throw (e : SyncError) : Traced (throw e : SyncT Id κ σ π α) := fun _ => ⟨[], .refl⟩

/-- Reading the state adds no events. -/
lemma get : Traced (get : SyncT Id κ σ π (SyncState κ σ π)) := fun _ => ⟨[], .refl⟩

/-- An operation on the segment adds no events. -/
lemma onSegment (act : SegmentM κ α) : Traced (onSegment act : SyncT Id κ σ π α) :=
  fun _ => ⟨[], (List.append_nil _).symm, rfl⟩

/-- Two operations in a row add the events of each. -/
lemma bind {act : SyncT Id κ σ π α} {next : α → SyncT Id κ σ π β} (h : Traced act)
    (hnext : ∀ x, Traced (next x)) : Traced (act >>= next) := by
  intro s
  obtain ⟨log, first⟩ := h s
  rw [Operation.exec_bind]
  rcases hexec : Operation.exec act s with ⟨e | x, t⟩ <;> rw [hexec] at first
  · exact ⟨log, first⟩
  · obtain ⟨log', second⟩ := hnext x t
    exact ⟨log ++ log', first.trans second⟩

/-- Asking the local chain adds no events. -/
lemma localHeader? [LocalChain σ] (hash : Hash) :
    Traced (localHeader? hash : SyncT Id κ σ π (Option Header)) :=
  fun _ => ⟨[], .refl⟩

/-- Taking the network is one event. -/
lemma takeNetwork : Traced (takeNetwork : SyncT Id κ σ π Unit) :=
  fun _ => ⟨[.network], Array.toList_push, rfl⟩

/-- A request for headers is one event, which the peer answers. -/
lemma askHeaders (hash : Hash) (limit : UInt32) :
    Traced (askHeaders hash limit : SyncT Id κ σ π _) :=
  fun _ => ⟨[.headers hash limit], Array.toList_push, rfl⟩

/-- A request for a block is one event, which the peer answers. -/
lemma askBlock (hash : Hash) : Traced (askBlock hash : SyncT Id κ σ π _) :=
  fun _ => ⟨[.block hash], Array.toList_push, rfl⟩

/-- A pause is one event. -/
lemma pause (milliseconds : UInt64) : Traced (pause milliseconds : SyncT Id κ σ π Unit) :=
  fun _ => ⟨[.pause milliseconds], Array.toList_push, rfl⟩

/-- Handing over a block is one event. -/
lemma handOver [LocalChain σ] (b : Block) : Traced (handOver b : SyncT Id κ σ π Unit) := by
  intro s
  refine ⟨[.handOver b.number], ?_⟩
  rw [exec_handOver]
  cases LocalChain.append s.chain b <;> exact ⟨Array.toList_push, rfl⟩

/-- What follows a look at the state decides the events. -/
lemma get_bind {next : SyncState κ σ π → SyncT Id κ σ π α} (h : ∀ s, Traced (next s)) :
    Traced (MonadState.get >>= next) :=
  get.bind h

/-- Fetching with retries is traced if an attempt is. -/
lemma retry {hash : Hash} {attempt : SyncT Id κ σ π (Option α)} (h : Traced attempt) (left : Nat) :
    Traced (retry hash attempt left) := by
  induction left with
  | zero => exact get_bind fun _ => throw _
  | succ left ih =>
    refine h.bind fun found => ?_
    cases found with
    | some v => exact pure v
    | none =>
      by_cases hleft : left ≠ 0
      · simp only [hleft, ne_eq, not_false_eq_true, if_true]
        exact get_bind fun _ => (pause _).bind fun _ => ih
      · simp only [hleft, if_false]
        exact ih

/-- An attempt for a header only adds its request. -/
lemma attemptHeader (hash : Hash) : Traced (attemptHeader hash : SyncT Id κ σ π _) := by
  refine get_bind fun s => (askHeaders _ _).bind fun answer => ?_
  cases answer <;> exact pure _

/-- An attempt for a block only adds its request. -/
lemma attemptBlock (hash : Hash) : Traced (attemptBlock hash : SyncT Id κ σ π _) := by
  refine (askBlock _).bind fun answer => ?_
  cases answer <;> exact pure _

/-- A fetch of a header only adds its requests and pauses. -/
lemma fetchHeader (hash : Hash) : Traced (fetchHeader hash : SyncT Id κ σ π _) :=
  get_bind fun _ => (attemptHeader hash).retry _

/-- A fetch of a block only adds its requests and pauses. -/
lemma fetchBlock (hash : Hash) : Traced (fetchBlock hash : SyncT Id κ σ π _) :=
  get_bind fun _ => (attemptBlock hash).retry _

section

variable [KeyValue κ] [LocalChain σ]

/-- The beginning of a step is traced. -/
lemma beginStep (start : Header) : Traced (beginStep start : SyncT Id κ σ π _) := by
  refine (onSegment _).bind fun hash => (localHeader? hash).bind fun found => ?_
  cases found with
  | none => exact pure _
  | some header => exact (onSegment _).bind fun _ => pure _

/-- A step is traced. -/
lemma execute (start : Header) : Traced (execute start : SyncT Id κ σ π _) := by
  refine (beginStep start).bind fun found => ?_
  cases found with
  | inl found => exact pure _
  | inr hash =>
    exact takeNetwork.bind fun _ => (fetchHeader hash).bind fun _ => (onSegment _).bind fun _ => pure _

omit [KeyValue κ] in
/-- What a walk finds before a step is traced. -/
lemma outlook : Traced (outlook : SyncT Id κ σ π _) := by
  refine get_bind fun s => ?_
  cases s.segment.frontier? with
  | none => exact throw _
  | some frontier =>
    by_cases hzero : frontier.number = 0
    · simp only [hzero, if_true]
      refine (localHeader? _).bind fun found => ?_
      cases found with
      | none => exact throw _
      | some header => exact pure _
    · simp only [hzero, if_false]
      exact pure _

/-- A walk is traced step by step. -/
lemma walkWithin (steps : Nat) : Traced (walkWithin steps : SyncT Id κ σ π _) := by
  induction steps with
  | zero =>
    refine outlook.bind fun sight => ?_
    cases sight <;> exact pure _
  | succ steps ih =>
    refine outlook.bind fun sight => ?_
    cases sight with
    | inl header => exact pure _
    | inr frontier =>
      refine (execute frontier).bind fun found => ?_
      by_cases hlocal : found.isLocal = true
      · simp only [hlocal, if_true]
        exact pure _
      · simp only [hlocal]
        exact ih

/-- A walk to the local chain is traced. -/
lemma syncToLocal : Traced (syncToLocal : SyncT Id κ σ π _) := by
  refine get_bind fun s => ?_
  cases s.segment.frontier? with
  | none => exact throw _
  | some frontier =>
    refine (walkWithin _).bind fun found => ?_
    cases found with
    | none => exact throw _
    | some header => exact pure _

omit [LocalChain σ] in
/-- Looking for a body is traced. -/
lemma bodyOf (hash : Hash) : Traced (bodyOf hash : SyncT Id κ σ π _) := by
  refine (onSegment _).bind fun found => ?_
  cases found with
  | some block => exact pure _
  | none =>
    exact takeNetwork.bind fun _ => (fetchBlock hash).bind fun _ => (onSegment _).bind fun _ => pure _

/-- One way up is traced. -/
lemma advance (current : Hash) : Traced (advance current : SyncT Id κ σ π _) := by
  refine (onSegment _).bind fun found => ?_
  cases found with
  | none => exact throw _
  | some next =>
    refine (bodyOf next).bind fun block => (localHeader? next).bind fun known => ?_
    cases known with
    | some header => exact pure _
    | none => exact (handOver block).bind fun _ => pure _

/-- A climb is traced, way by way. -/
lemma climbWithin (pivot : Hash) (steps : Nat) (current : Hash) (done : UInt64) :
    Traced (climbWithin pivot steps current done : SyncT Id κ σ π _) := by
  induction steps generalizing current done with
  | zero => exact pure _
  | succ steps ih =>
    by_cases h : current = pivot
    · simp only [Sync.climbWithin, h, if_true]
      exact pure _
    · simp only [Sync.climbWithin, h, if_false]
      exact (advance current).bind fun x => ih x.1 _

/-- A stitch by at most some ways is traced. -/
lemma stitchWithin (steps : Nat) : Traced (stitchWithin steps : SyncT Id κ σ π _) := by
  refine get_bind fun s => ?_
  cases s.segment.anchors with
  | none => exact throw _
  | some anchors =>
    refine (localHeader? _).bind fun known => ?_
    cases known with
    | none => exact throw _
    | some header =>
      refine (climbWithin _ _ _ _).bind fun count => ?_
      cases count with
      | none => exact pure _
      | some count => exact (onSegment _).bind fun _ => pure _

/-- A stitch is traced. -/
lemma stitch : Traced (stitch : SyncT Id κ σ π _) := by
  refine get_bind fun s => (stitchWithin _).bind fun count => ?_
  cases count with
  | none => exact throw _
  | some count => exact pure _

end

end Traced

/-- An operation keeps what `f` tells of the segment and the chain, whatever the peer answers. -/
def Keeps {γ : Type} (f : Segment κ → σ → γ) (act : SyncT Id κ σ π α) : Prop :=
  ∀ s, f (Operation.exec act s).2.segment (Operation.exec act s).2.chain = f s.segment s.chain

namespace Keeps

variable {γ : Type} {f : Segment κ → σ → γ}

section

omit [Peer π Id]

/-- Returning keeps everything. -/
lemma pure (x : α) : Keeps f (pure x : SyncT Id κ σ π α) := fun _ => rfl

/-- Failing keeps everything. -/
lemma throw (e : SyncError) : Keeps f (throw e : SyncT Id κ σ π α) := fun _ => rfl

/-- Reading the state keeps everything. -/
lemma get : Keeps f (get : SyncT Id κ σ π (SyncState κ σ π)) := fun _ => rfl

/-- Two operations in a row keep what each does. -/
lemma bind {act : SyncT Id κ σ π α} {next : α → SyncT Id κ σ π β} (h : Keeps f act)
    (hnext : ∀ x, Keeps f (next x)) : Keeps f (act >>= next) := by
  intro s
  have first := h s
  rw [Operation.exec_bind]
  rcases hexec : Operation.exec act s with ⟨e | x, t⟩ <;> rw [hexec] at first
  · exact first
  · exact (hnext x t).trans first

/-- An operation on the segment keeps what it keeps of the segment. -/
lemma onSegment {act : SegmentM κ α} (h : ∀ seg c, f (act.exec seg).2 c = f seg c) :
    Keeps f (onSegment act : SyncT Id κ σ π α) :=
  fun s => h s.segment s.chain

/-- Asking the local chain keeps everything. -/
lemma localHeader? [LocalChain σ] (hash : Hash) :
    Keeps f (localHeader? hash : SyncT Id κ σ π (Option Header)) :=
  fun _ => rfl

/-- Taking the network keeps the segment and the chain. -/
lemma takeNetwork : Keeps f (takeNetwork : SyncT Id κ σ π Unit) := fun _ => rfl

/-- What a walk finds before a step keeps everything. -/
lemma outlook [LocalChain σ] : Keeps f (outlook : SyncT Id κ σ π _) := by
  refine get.bind fun s => ?_
  cases s.segment.frontier? with
  | none => exact throw _
  | some frontier =>
    by_cases hzero : frontier.number = 0
    · simp only [hzero, if_true]
      refine (localHeader? _).bind fun found => ?_
      cases found with
      | none => exact throw _
      | some header => exact pure _
    · simp only [hzero, if_false]
      exact pure _

end

/-- A request for headers keeps the segment and the chain. -/
lemma askHeaders (hash : Hash) (limit : UInt32) : Keeps f (askHeaders hash limit : SyncT Id κ σ π _) :=
  fun _ => rfl

/-- A request for a block keeps the segment and the chain. -/
lemma askBlock (hash : Hash) : Keeps f (askBlock hash : SyncT Id κ σ π _) := fun _ => rfl

/-- A pause keeps the segment and the chain. -/
lemma pause (milliseconds : UInt64) : Keeps f (pause milliseconds : SyncT Id κ σ π Unit) :=
  fun _ => rfl

/-- Retrying keeps what an attempt keeps. -/
lemma retry {hash : Hash} {attempt : SyncT Id κ σ π (Option α)} (h : Keeps f attempt) (left : Nat) :
    Keeps f (retry hash attempt left) := by
  induction left with
  | zero => exact get.bind fun _ => throw _
  | succ left ih =>
    refine h.bind fun found => ?_
    cases found with
    | some v => exact pure v
    | none =>
      by_cases hleft : left ≠ 0
      · simp only [hleft, ne_eq, not_false_eq_true, if_true]
        exact get.bind fun _ => (pause _).bind fun _ => ih
      · simp only [hleft, if_false]
        exact ih

/-- A fetch of a header keeps the segment and the chain. -/
lemma fetchHeader (hash : Hash) : Keeps f (fetchHeader hash : SyncT Id κ σ π _) := by
  refine get.bind fun s => retry (get.bind fun _ => (askHeaders _ _).bind fun answer => ?_) _
  cases answer <;> exact pure _

/-- A fetch of a block keeps the segment and the chain. -/
lemma fetchBlock (hash : Hash) : Keeps f (fetchBlock hash : SyncT Id κ σ π _) := by
  refine get.bind fun s => retry ((askBlock _).bind fun answer => ?_) _
  cases answer <;> exact pure _

section

variable [KeyValue κ] [LocalChain σ]
  (hrestore : ∀ start seg c, f ((Segment.restore start).exec seg).2 c = f seg c)
  (hprepend : ∀ h seg c, f ((Segment.prepend h).exec seg).2 c = f seg c)

include hrestore hprepend

/-- A step keeps what its writes to the segment keep. -/
lemma execute (start : Header) : Keeps f (execute start : SyncT Id κ σ π _) := by
  have save : ∀ h, Keeps f (save h : SyncT Id κ σ π _) := fun h => onSegment (hprepend h)
  refine bind ?_ fun found => ?_
  · refine (onSegment (hrestore start)).bind fun hash => (localHeader? hash).bind fun found => ?_
    cases found with
    | none => exact pure _
    | some header => exact (save header).bind fun _ => pure _
  · cases found with
    | inl found => exact pure _
    | inr hash =>
      exact takeNetwork.bind fun _ => (fetchHeader hash).bind fun h => (save h).bind fun _ => pure _

/-- A walk keeps what its steps keep. -/
lemma syncToLocal : Keeps f (syncToLocal : SyncT Id κ σ π _) := by
  have walk : ∀ steps, Keeps f (walkWithin steps : SyncT Id κ σ π _) := by
    intro steps
    induction steps with
    | zero =>
      refine outlook.bind fun sight => ?_
      cases sight <;> exact pure _
    | succ steps ih =>
      refine outlook.bind fun sight => ?_
      cases sight with
      | inl header => exact pure _
      | inr frontier =>
        refine (execute hrestore hprepend frontier).bind fun found => ?_
        cases found.isLocal with
        | true => exact pure _
        | false => exact ih
  refine get.bind fun s => ?_
  cases s.segment.frontier? with
  | none => exact throw _
  | some frontier =>
    refine (walk _).bind fun found => ?_
    cases found with
    | none => exact throw _
    | some header => exact pure _

end

end Keeps

end Tracing

/-! ## Reasoning about a sync -/

section Reasoning

variable [Peer π Id] {U : Set Header} {P P' : Segment κ → σ → Prop}
  {Q Q' : Except SyncError α → Segment κ → σ → Prop} {R : Except SyncError β → Segment κ → σ → Prop}

/-- If the peer brings nothing but headers from `U`, an operation that begins with `P` ends with `Q`. -/
structure Ensures (U : Set Header) (P : Segment κ → σ → Prop) (act : SyncT Id κ σ π α)
    (Q : Except SyncError α → Segment κ → σ → Prop) : Prop where
  traced : Traced act
  holds : ∀ s log, Follows s (Operation.exec act s).2 log → Peer.Brings U s.peer log →
    P s.segment s.chain →
      Q (Operation.exec act s).1 (Operation.exec act s).2.segment (Operation.exec act s).2.chain

namespace Ensures

variable {act : SyncT Id κ σ π α} {next : α → SyncT Id κ σ π β}

/-- What is ensured may begin with more and end with less. -/
lemma mono (h : Ensures U P act Q) (hpre : ∀ seg c, P' seg c → P seg c)
    (hpost : ∀ r seg c, Q r seg c → Q' r seg c) : Ensures U P' act Q' where
  traced := h.traced
  holds s log follows brings hP := hpost _ _ _ (h.holds s log follows brings (hpre _ _ hP))

/-- Returning ensures what holds of the result from the start. -/
lemma pure {x : α} (h : ∀ seg c, P seg c → Q (.ok x) seg c) :
    Ensures U P (pure x : SyncT Id κ σ π α) Q where
  traced := .pure x
  holds _ _ _ _ hP := h _ _ hP

/-- Failing ensures what holds of the error from the start. -/
lemma throw {e : SyncError} (h : ∀ seg c, P seg c → Q (.error e) seg c) :
    Ensures U P (throw e : SyncT Id κ σ π α) Q where
  traced := .throw e
  holds _ _ _ _ hP := h _ _ hP

/-- The second operation begins where the first one ends; a failure of the first one is one of both. -/
lemma bind (h : Ensures U P act Q) (hnext : ∀ x, Ensures U (Q (.ok x)) (next x) R)
    (herror : ∀ e seg c, Q (.error e) seg c → R (.error e) seg c) : Ensures U P (act >>= next) R where
  traced := h.traced.bind fun x => (hnext x).traced
  holds := by
    intro s log follows brings hP
    obtain ⟨log₁, first⟩ := h.traced s
    have hQ := h.holds s log₁ first
    rw [Operation.exec_bind] at follows ⊢
    rcases hexec : Operation.exec act s with ⟨e | x, t⟩ <;> rw [hexec] at first hQ follows
    · obtain rfl := first.unique follows
      exact herror _ _ _ (hQ brings hP)
    -- the events of both are those of the first one and then those of the second one
    · obtain ⟨log₂, second⟩ := (hnext x).traced t
      obtain rfl := (first.trans second).unique follows
      obtain ⟨brings₁, brings₂⟩ := Peer.brings_append.1 brings
      rw [← first.peer] at brings₂
      exact (hnext x).holds t log₂ second brings₂ (hQ brings₁ hP)

/-- The state that is read has the segment and the chain. -/
lemma get_bind {next : SyncState κ σ π → SyncT Id κ σ π α}
    (h : ∀ s, Ensures U (fun seg c => P seg c ∧ s.segment = seg ∧ s.chain = c) (next s) Q) :
    Ensures U P (MonadState.get >>= next) Q where
  traced := .get_bind fun s => (h s).traced
  holds := by
    intro s log follows brings hP
    rw [Operation.exec_bind, Operation.exec_get] at follows ⊢
    exact (h s).holds s log follows brings ⟨hP, rfl, rfl⟩

/-- An operation that first looks at the state, for states with what is assumed. -/
lemma get_bind_of {next : SyncState κ σ π → SyncT Id κ σ π α} (traced : Traced (MonadState.get >>= next))
    (h : ∀ s, P s.segment s.chain →
      Ensures U (fun seg c => s.segment = seg ∧ s.chain = c) (next s) Q) :
    Ensures U P (MonadState.get >>= next) Q where
  traced := traced
  holds := by
    intro s log follows brings hP
    rw [Operation.exec_bind, Operation.exec_get] at follows ⊢
    exact (h s hP).holds s log follows brings ⟨rfl, rfl⟩

/-- An operation on the segment ensures what it makes of it. -/
lemma onSegment {act : SegmentM κ α}
    (h : ∀ seg c, P seg c → Q (act.exec seg).1 (act.exec seg).2 c) :
    Ensures U P (onSegment act : SyncT Id κ σ π α) Q where
  traced := .onSegment act
  holds := by
    intro s log _ _ hP
    have hid : (act.exec s.segment).1.mapError id = (act.exec s.segment).1 := by
      cases (act.exec s.segment).1 <;> rfl
    rw [exec_onSegment, hid]
    exact h _ _ hP

/-- Asking the local chain ensures what its answer tells. -/
lemma localHeader? [LocalChain σ] {hash : Hash}
    {Q : Except SyncError (Option Header) → Segment κ → σ → Prop}
    (h : ∀ seg c, P seg c → Q ((LocalChain.header? c hash).mapError .localChain) seg c) :
    Ensures U P (localHeader? hash : SyncT Id κ σ π _) Q where
  traced := .localHeader? hash
  holds _ _ _ _ hP := h _ _ hP

/-- Taking the network ensures what held before. -/
lemma takeNetwork : Ensures U P (takeNetwork : SyncT Id κ σ π Unit) fun _ => P where
  traced := .takeNetwork
  holds _ _ _ _ hP := hP

/-- A pause ensures what held before. -/
lemma pause {milliseconds : UInt64} :
    Ensures U P (pause milliseconds : SyncT Id κ σ π Unit) fun _ => P where
  traced := .pause milliseconds
  holds _ _ _ _ hP := hP

/-- Handing over a block ensures what the local chain makes of it. -/
lemma handOver [LocalChain σ] {b : Block} {Q : Except SyncError Unit → Segment κ → σ → Prop}
    (hok : ∀ seg c c', P seg c → LocalChain.append c b = .ok c' → Q (.ok ()) seg c')
    (herror : ∀ seg c e, P seg c → Q (.error e) seg c) :
    Ensures U P (handOver b : SyncT Id κ σ π Unit) Q where
  traced := .handOver b
  holds := by
    intro s log _ _ hP
    rw [exec_handOver]
    cases happ : LocalChain.append s.chain b with
    | ok c => exact hok _ _ c hP happ
    | error cause => exact herror _ _ _ hP

/-- What fetching with retries returns is what one of its attempts found. -/
lemma retry {hash : Hash} {attempt : SyncT Id κ σ π (Option α)} {V : α → Prop}
    (h : Ensures U P attempt fun r seg c => P seg c ∧ ∀ v, r = .ok (some v) → V v) (left : Nat) :
    Ensures U P (retry hash attempt left) fun r seg c => P seg c ∧ ∀ v, r = .ok v → V v := by
  induction left with
  | zero => exact get_bind fun _ => throw fun seg c hP => ⟨hP.1, nofun⟩
  | succ left ih =>
    refine h.bind (fun found => ?_) fun e seg c hP => ⟨hP.1, nofun⟩
    cases found with
    | some v =>
      refine pure fun seg c hP => ⟨hP.1, ?_⟩
      rintro _ ⟨⟩
      exact hP.2 v rfl
    | none =>
      -- a pause is only an event
      by_cases hleft : left ≠ 0
      · simp only [hleft, ne_eq, not_false_eq_true, if_true]
        refine get_bind fun _ => pause.bind (fun _ => ?_) fun e seg c hP => ⟨hP.1.1, nofun⟩
        exact ih.mono (fun seg c hP => hP.1.1) fun _ _ _ => id
      · simp only [hleft, if_false]
        exact ih.mono (fun seg c hP => hP.1) fun _ _ _ => id

/-- The headers that are sent are from the set and can be written. -/
lemma askHeaders {hash : Hash} {limit : UInt32} :
    Ensures U P (askHeaders hash limit : SyncT Id κ σ π _) fun r seg c =>
      P seg c ∧ ∀ headers, r = .ok (.ok headers) → ∀ h ∈ headers, h ∈ U ∧ h.Sized where
  traced := .askHeaders hash limit
  holds := by
    intro s log follows brings hP
    obtain rfl : log = [.headers hash limit] := follows.unique ⟨Array.toList_push, rfl⟩
    refine ⟨hP, ?_⟩
    intro headers hr h hh
    have hanswer : ((Peer.headers hash limit : StateT π Id _).run s.peer).1 = .ok headers :=
      Except.ok.inj hr
    apply brings.1
    simp only [Peer.sentHeaders, hanswer]
    exact hh

/-- A block that is sent has a header from the set and can be written. -/
lemma askBlock {hash : Hash} :
    Ensures U P (askBlock hash : SyncT Id κ σ π _) fun r seg c =>
      P seg c ∧ ∀ b, r = .ok (.ok (some b)) → b.header ∈ U ∧ b.Sized where
  traced := .askBlock hash
  holds := by
    intro s log follows brings hP
    obtain rfl : log = [.block hash] := follows.unique ⟨Array.toList_push, rfl⟩
    refine ⟨hP, ?_⟩
    intro b hr
    have hanswer : ((Peer.block hash : StateT π Id _).run s.peer).1 = .ok (some b) :=
      Except.ok.inj hr
    apply brings.2.1
    simp only [Peer.sentBlocks, hanswer]
    exact List.mem_singleton_self b

/-- The header that is fetched has the hash that was asked for, and the peer brings it. -/
lemma fetchHeader {hash : Hash} :
    Ensures U P (fetchHeader hash : SyncT Id κ σ π _) fun r seg c =>
      P seg c ∧ ∀ h, r = .ok h → h.hash = hash ∧ h ∈ U ∧ h.Sized := by
  refine get_bind fun s => (retry (P := P) ?_ _).mono (fun seg c hP => hP.1) fun _ _ _ => id
  refine get_bind fun s => (askHeaders.mono (fun seg c hP => hP.1) fun _ _ _ => id).bind
    (fun answer => ?_) fun e seg c hP => ⟨hP.1, nofun⟩
  cases answer with
  | error cause => exact pure fun seg c hP => ⟨hP.1, nofun⟩
  | ok headers =>
    refine pure fun seg c hP => ⟨hP.1, ?_⟩
    intro h hr
    have hfind := Except.ok.inj hr
    exact ⟨by simpa using List.find?_some hfind, hP.2 _ rfl h (List.mem_of_find?_eq_some hfind)⟩

/-- The block that is fetched has the hash that was asked for, and the peer brings it. -/
lemma fetchBlock {hash : Hash} :
    Ensures U P (fetchBlock hash : SyncT Id κ σ π _) fun r seg c =>
      P seg c ∧ ∀ b, r = .ok b → b.hash = hash ∧ b.header ∈ U ∧ b.Sized := by
  refine get_bind fun s => (retry (P := P) ?_ _).mono (fun seg c hP => hP.1) fun _ _ _ => id
  refine askBlock.bind (fun answer => ?_) fun e seg c hP => ⟨hP.1, nofun⟩
  cases answer with
  | error cause => exact pure fun seg c hP => ⟨hP.1, nofun⟩
  | ok block =>
    refine pure fun seg c hP => ⟨hP.1, ?_⟩
    intro b hr
    obtain ⟨hb, hhash⟩ := Option.filter_eq_some_iff.1 (Except.ok.inj hr)
    obtain rfl := hb
    exact ⟨by simpa using hhash, hP.2 b rfl⟩

end Ensures

end Reasoning
end Sync
end ChainSync
