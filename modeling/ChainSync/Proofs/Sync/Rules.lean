import ChainSync.Sync.Stitch
import ChainSync.Proofs.Segment.Rows
import ChainSync.Proofs.Sync.Trace

/-!
# Rules for walks and stitches

What a walk ensures is a matter of its steps: it keeps what each of them keeps (`Ensures.syncToLocal`). A
stitch goes up from the frontier (`climb`), from one successor to the next, until it comes to the pivot,
and then clears the segment. What holds at every successor on the way is told by a family of
conditions, one for each hash that the climb may stand at (`Ensures.climbWithin`); what it has come to
is left of the chain when the segment is cleared (`Ensures.stitch`).
-/

namespace ChainSync.Sync

variable {π : Type} [Peer π Id]

/-- A stitch by at most `steps` successors, before the segment is cleared. -/
def climb (steps : Nat) : SyncT Id ByteMap Chain π (Option UInt64) := do
  match (← get).segment.anchors with
  | none => throw .emptyChain
  | some anchors =>
    match ← localHeader? anchors.frontier.hash with
    | none => throw (.notConnected anchors.frontier.hash)
    | some _ => climbWithin anchors.pivot.hash steps anchors.frontier.hash 0

/-- A stitch that came to the pivot clears the segment. -/
lemma stitchWithin_eq (steps : Nat) :
    (stitchWithin steps : SyncT Id ByteMap Chain π _) =
      climb steps >>= fun count =>
        match count with
        | none => pure none
        | some count => do
          onSegment Segment.clear
          return some count := by
  funext s
  change Operation.exec _ s = Operation.exec _ s
  simp only [climb, Operation.exec_bind, Operation.exec_get]
  cases s.segment.anchors with
  | none => rfl
  | some ends =>
    simp only [Operation.exec_bind, exec_localHeader?]
    cases LocalChain.header? s.chain ends.frontier.hash with
    | error cause => rfl
    | ok found =>
      cases found with
      | none => rfl
      | some known => exact Operation.exec_bind _ _ s

/-- All that a climb does is among the events. -/
lemma Traced.climb (steps : Nat) : Traced (climb steps : SyncT Id ByteMap Chain π _) := by
  refine get_bind fun s => ?_
  cases s.segment.anchors with
  | none => exact throw _
  | some ends =>
    refine (localHeader? _).bind fun known => ?_
    cases known with
    | none => exact throw _
    | some known => exact climbWithin _ _ _ _

namespace Ensures

variable {U : Set Header}

/-- What is assumed of no state may be assumed before. -/
lemma of_imp {κ σ α : Type} {φ : Prop} {act : SyncT Id κ σ π α} {P : Segment κ → σ → Prop}
    {Q : Except SyncError α → Segment κ → σ → Prop} (traced : Traced act)
    (h : φ → Ensures U P act Q) : Ensures U (fun seg c => P seg c ∧ φ) act Q where
  traced := traced
  holds s log follows brings hP := (h hP.2).holds s log follows brings hP.1

section

variable {κ σ : Type} [KeyValue κ] [LocalChain σ] {P : Segment κ → σ → Prop}

omit [KeyValue κ] in
/-- To look where a walk stands changes nothing. -/
lemma outlook :
    Ensures U P (Sync.outlook : SyncT Id κ σ π _) fun r seg c =>
      P seg c ∧ ∀ f, r = .ok (.inr f) → seg.frontier? = some f := by
  refine get_bind fun s => ?_
  cases hf : s.segment.frontier? with
  | none => exact throw fun _ _ h => ⟨h.1, nofun⟩
  | some frontier =>
    by_cases hnum : frontier.number = 0
    · simp only [hnum, if_true]
      have look : Ensures U P (Sync.localHeader? frontier.hash : SyncT Id κ σ π _) fun _ => P :=
        localHeader? fun _ _ => id
      refine (look.mono (fun _ _ h => h.1) fun _ _ _ => id).bind (fun found => ?_)
        fun _ _ _ h => ⟨h, nofun⟩
      cases found with
      | none => exact throw fun _ _ h => ⟨h, nofun⟩
      | some h => exact pure fun _ _ h => ⟨h, nofun⟩
    · simp only [hnum, if_false]
      refine pure ?_
      rintro _ _ ⟨hP, rfl, -⟩
      refine ⟨hP, ?_⟩
      rintro _ ⟨⟩
      exact hf

section

variable (step : ∀ start, Ensures U (fun seg c => P seg c ∧ seg.frontier? = some start)
  (execute start : SyncT Id κ σ π _) fun _ => P)
include step

/-- A walk keeps what each of its steps keeps. -/
lemma walkWithin (steps : Nat) :
    Ensures U P (Sync.walkWithin steps : SyncT Id κ σ π _) fun _ => P := by
  induction steps with
  | zero =>
    refine outlook.bind (fun sight => ?_) fun _ _ _ h => h.1
    cases sight <;> exact pure fun _ _ h => h.1
  | succ steps ih =>
    refine outlook.bind (fun sight => ?_) fun _ _ _ h => h.1
    cases sight with
    | inl h => exact pure fun _ _ h => h.1
    | inr frontier =>
      refine ((step frontier).mono (fun seg c h => ⟨h.1, h.2 frontier rfl⟩) fun _ _ _ => id).bind
        (fun found => ?_) fun _ _ _ => id
      by_cases hlocal : found.isLocal = true
      · simp only [hlocal, if_true]
        exact pure fun _ _ => id
      · simp only [hlocal]
        exact ih

/-- A walk back keeps what its steps from the frontier keep. -/
lemma syncToLocal : Ensures U P (Sync.syncToLocal : SyncT Id κ σ π _) fun _ => P := by
  refine get_bind fun s => ?_
  cases s.segment.frontier? with
  | none => exact throw fun _ _ h => h.1
  | some frontier =>
    have walk := walkWithin step frontier.number.toNat
    refine (walk.mono (fun _ _ h => h.1) fun _ _ _ => id).bind (fun found => ?_) fun _ _ _ => id
    cases found with
    | none => exact throw fun _ _ => id
    | some h => exact pure fun _ _ => id

end

end

section

variable {P E : Segment ByteMap → Chain → Prop} {D : UInt64 → Segment ByteMap → Chain → Prop}
  {hash current pivot : Hash}

/-- A body was stored, or it is fetched under its hash and stored. -/
lemma bodyOf {V : Block → Prop}
    (stored : ∀ seg c b, P seg c → seg.blockAt hash = .ok (some b) → V b)
    (fetched : ∀ seg c b, P seg c → b.hash = hash → b.header ∈ U → b.Sized →
      P (seg.putBlock b) c ∧ V b) :
    Ensures U P (Sync.bodyOf hash : SyncT Id ByteMap Chain π _) fun r seg c =>
      P seg c ∧ ∀ b, r = .ok b → V b := by
  have look : Ensures U P (Sync.onSegment (Segment.block? hash) : SyncT Id ByteMap Chain π _)
      fun r seg c => P seg c ∧ ∀ b, r = .ok (some b) → V b := by
    refine onSegment fun seg c hP => ?_
    rw [Segment.exec_block?]
    exact ⟨hP, fun b hb => stored seg c b hP hb⟩
  refine look.bind (fun found => ?_) fun e seg c h => ⟨h.1, nofun⟩
  cases found with
  | some b =>
    refine pure fun seg c h => ⟨h.1, ?_⟩
    rintro _ ⟨⟩
    exact h.2 b rfl
  | none =>
    refine takeNetwork.bind (fun _ => ?_) fun e seg c h => ⟨h.1, nofun⟩
    refine (fetchBlock.mono (fun seg c h => h.1) fun _ _ _ => id).bind (fun b => ?_)
      fun e seg c h => ⟨h.1, nofun⟩
    have store : Ensures U (fun seg c => P seg c ∧ ∀ b', Except.ok (ε := SyncError) b = .ok b' →
          b'.hash = hash ∧ b'.header ∈ U ∧ b'.Sized)
        (Sync.onSegment (Segment.storeBlock b) : SyncT Id ByteMap Chain π _)
        fun _ seg c => P seg c ∧ V b := by
      refine onSegment ?_
      rintro seg c ⟨hP, hb⟩
      obtain ⟨hhash, hheader, hsized⟩ := hb b rfl
      exact fetched seg c b hP hhash hheader hsized
    refine store.bind (fun _ => ?_) fun e seg c h => ⟨h.1, nofun⟩
    refine pure fun seg c h => ⟨h.1, ?_⟩
    rintro _ ⟨⟩
    exact h.2

/-- Going up to a successor skips it if the chain has it, and else hands its body over. -/
lemma advance {M : Hash → Segment ByteMap → Chain → Prop} {V : Hash → Block → Prop}
    {A : Hash → Bool → Segment ByteMap → Chain → Prop}
    (link : ∀ seg c, P seg c → ∃ next, seg.linkAt current = .ok (some next) ∧ M next seg c)
    (body : ∀ next, Ensures U (M next) (Sync.bodyOf next : SyncT Id ByteMap Chain π _) fun r seg c =>
      M next seg c ∧ ∀ b, r = .ok b → V next b)
    (halts : ∀ next seg c, M next seg c → E seg c)
    (skip : ∀ next seg c, M next seg c → c.header? next ≠ .ok none → A next false seg c)
    (take : ∀ next seg c b c', M next seg c → V next b → c.header? next = .ok none →
      c.append b = .ok c' → A next true seg c') :
    Ensures U P (Sync.advance current : SyncT Id ByteMap Chain π _) fun r seg c =>
      (∀ e, r = .error e → E seg c) ∧ ∀ x, r = .ok x → A x.1 x.2 seg c := by
  have lead : Ensures U P (Sync.onSegment (Segment.successor? current) : SyncT Id ByteMap Chain π _)
      fun r seg c => ∃ next, r = .ok (some next) ∧ M next seg c := by
    refine onSegment fun seg c hP => ?_
    rw [Segment.exec_successor?]
    exact link seg c hP
  refine lead.bind (fun found => ?_) (by rintro e seg c ⟨_, ⟨⟩, _⟩)
  cases found with
  | none => exact throw (by rintro seg c ⟨_, ⟨⟩, _⟩)
  | some next =>
    refine ((body next).mono (by rintro seg c ⟨_, ⟨⟩, hM⟩; exact hM) fun _ _ _ => id).bind
      (fun b => ?_) fun e seg c h => ⟨fun _ _ => halts next seg c h.1, nofun⟩
    have look : Ensures U (fun seg c => M next seg c ∧
          ∀ b', Except.ok (ε := SyncError) b = .ok b' → V next b')
        (Sync.localHeader? next : SyncT Id ByteMap Chain π _) fun r seg c =>
          M next seg c ∧ V next b ∧ r = (c.header? next).mapError .localChain :=
      localHeader? fun seg c h => ⟨h.1, h.2 b rfl, rfl⟩
    refine look.bind (fun known => ?_) fun e seg c h => ⟨fun _ _ => halts next seg c h.1, nofun⟩
    cases known with
    | some header =>
      refine pure ?_
      rintro seg c ⟨hM, -, hfound⟩
      refine ⟨nofun, ?_⟩
      rintro _ ⟨⟩
      apply skip next seg c hM
      intro hnone
      rw [hnone] at hfound
      cases hfound
    | none =>
      have hand : Ensures U (fun seg c => M next seg c ∧ V next b ∧
            Except.ok none = (c.header? next).mapError SyncError.localChain)
          (Sync.handOver b : SyncT Id ByteMap Chain π _) fun r seg c =>
            (∀ e, r = .error e → E seg c) ∧ ∀ x, r = .ok x → A next true seg c := by
        refine handOver ?_ fun seg c e h => ⟨fun _ _ => halts next seg c h.1, nofun⟩
        rintro seg c c' ⟨hM, hV, hfound⟩ happ
        have hnone : c.header? next = .ok none := mapError_eq_ok.1 hfound.symm
        exact ⟨nofun, fun _ _ => take next seg c b c' hM hV hnone happ⟩
      refine hand.bind (fun _ => ?_) fun e seg c h => ⟨fun _ _ => h.1 e rfl, nofun⟩
      refine pure fun seg c h => ⟨nofun, ?_⟩
      rintro _ ⟨⟩
      exact h.2 _ rfl

/-- A climb goes on until it stands at the pivot, or halts. -/
lemma climbWithin {A : Hash → UInt64 → Segment ByteMap → Chain → Prop}
    (halts : ∀ current count seg c, A current count seg c → E seg c)
    (step : ∀ current count, current ≠ pivot →
      Ensures U (A current count) (Sync.advance current : SyncT Id ByteMap Chain π _) fun r seg c =>
        (∀ e, r = .error e → E seg c) ∧
        ∀ x, r = .ok x → A x.1 (if x.2 then count + 1 else count) seg c)
    (steps : Nat) (current : Hash) (count : UInt64) :
    Ensures U (A current count)
      (Sync.climbWithin pivot steps current count : SyncT Id ByteMap Chain π _) fun r seg c =>
        E seg c ∧ ∀ n, r = .ok (some n) → A pivot n seg c := by
  induction steps generalizing current count with
  | zero =>
    refine pure fun seg c at_ => ⟨halts current count seg c at_, ?_⟩
    intro n hn
    by_cases h : current = pivot
    · simp only [h, if_true] at hn
      cases hn
      exact h ▸ at_
    · simp [h] at hn
  | succ steps ih =>
    by_cases h : current = pivot
    · subst h
      simp only [Sync.climbWithin, if_true]
      refine pure fun seg c at_ => ⟨halts current count seg c at_, ?_⟩
      rintro _ ⟨⟩
      exact at_
    · simp only [Sync.climbWithin, h, if_false]
      refine (step current count h).bind (fun x => ?_) fun e seg c h => ⟨h.1 e rfl, ?_⟩
      · exact (ih _ _).mono (fun seg c h => h.2 x rfl) fun _ _ _ => id
      · rintro n ⟨⟩

/-- A climb begins at the frontier, if the chain has it. -/
lemma climb {steps : Nat} (halts : ∀ seg c, P seg c → E seg c)
    (go : ∀ seg c ends known, P seg c → seg.anchors = some ends →
      c.header? ends.frontier.hash = .ok (some known) →
      Ensures U (fun seg' c' => seg = seg' ∧ c = c')
        (Sync.climbWithin ends.pivot.hash steps ends.frontier.hash 0 : SyncT Id ByteMap Chain π _)
        fun r seg c => E seg c ∧ ∀ n, r = .ok (some n) → D n seg c) :
    Ensures U P (Sync.climb steps : SyncT Id ByteMap Chain π _) fun r seg c =>
      E seg c ∧ ∀ n, r = .ok (some n) → D n seg c := by
  refine get_bind_of (.climb steps) fun s hP => ?_
  have hE := halts s.segment s.chain hP
  cases hends : s.segment.anchors with
  | none =>
    refine throw ?_
    rintro seg c ⟨rfl, rfl⟩
    exact ⟨hE, nofun⟩
  | some ends =>
    have look : Ensures U (fun seg c => s.segment = seg ∧ s.chain = c)
        (Sync.localHeader? ends.frontier.hash : SyncT Id ByteMap Chain π _) fun r seg c =>
          (s.segment = seg ∧ s.chain = c) ∧
            r = (s.chain.header? ends.frontier.hash).mapError .localChain := by
      refine localHeader? ?_
      rintro seg c ⟨rfl, rfl⟩
      exact ⟨⟨rfl, rfl⟩, rfl⟩
    refine look.bind (fun known => ?_) ?_
    · cases known with
      | none =>
        refine throw ?_
        rintro seg c ⟨⟨rfl, rfl⟩, -⟩
        exact ⟨hE, nofun⟩
      | some known =>
        exact of_imp (.climbWithin _ _ _ _) fun hr =>
          go s.segment s.chain ends known hP hends (mapError_eq_ok.1 hr.symm)
    · rintro e seg c ⟨⟨rfl, rfl⟩, -⟩
      exact ⟨hE, nofun⟩

/-- A stitch is a climb that comes to the pivot, and then the segment is cleared. -/
lemma stitch
    (climb : ∀ steps, Ensures U P (Sync.climb steps : SyncT Id ByteMap Chain π _) fun r seg c =>
      E seg c ∧ ∀ n, r = .ok (some n) → D n seg c) :
    Ensures U P (Sync.stitch : SyncT Id ByteMap Chain π _) fun r seg c =>
      (∀ n, r = .ok n → seg = Segment.empty ∧ ∃ seg', D n seg' c) ∧
      ∀ e, r = .error e → E seg c := by
  have within : ∀ steps, Ensures U P (Sync.stitchWithin steps : SyncT Id ByteMap Chain π _)
      fun r seg c => (∀ n, r = .ok (some n) → seg = Segment.empty ∧ ∃ seg', D n seg' c) ∧
        ((∀ n, r ≠ .ok (some n)) → E seg c) := by
    intro steps
    rw [stitchWithin_eq]
    refine (climb steps).bind (fun count => ?_) fun e seg c h => ⟨nofun, fun _ => h.1⟩
    cases count with
    | none => exact pure fun seg c h => ⟨nofun, fun _ => h.1⟩
    | some count =>
      have clear : Ensures U (fun seg c => E seg c ∧
            ∀ n, Except.ok (ε := SyncError) (some count) = .ok (some n) → D n seg c)
          (Sync.onSegment Segment.clear : SyncT Id ByteMap Chain π _) fun r seg c =>
            r = .ok () ∧ seg = Segment.empty ∧ ∃ seg', D count seg' c := by
        refine onSegment fun seg c h => ?_
        rw [Segment.exec_clear]
        exact ⟨rfl, rfl, seg, h.2 count rfl⟩
      refine clear.bind (fun _ => ?_) (by rintro e seg c ⟨⟨⟩, -⟩)
      refine pure fun seg c h => ⟨?_, fun hnot => absurd rfl (hnot count)⟩
      rintro _ ⟨⟩
      exact h.2
  refine get_bind fun s => ?_
  refine ((within _).mono (fun seg c h => h.1) fun _ _ _ => id).bind (fun count => ?_)
    fun e seg c h => ⟨nofun, fun _ _ => h.2 nofun⟩
  cases count with
  | none => exact throw fun seg c h => ⟨nofun, fun _ _ => h.2 nofun⟩
  | some count =>
    refine pure fun seg c h => ⟨?_, nofun⟩
    rintro _ ⟨⟩
    exact h.1 count rfl

end

end Ensures

end ChainSync.Sync
