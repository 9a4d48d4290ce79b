import ChainSync.Proofs.Canonical
import ChainSync.Proofs.Segment.Stock
import ChainSync.Proofs.Sync.Rules

/-!
# Walking back

Whatever the peer sends, a walk back to the local chain leaves the chain as it is and a segment that
lists headers: all it does to the segment is to prepend headers that are stored, known to the local
chain, or sent with the hash that was asked for.
-/

namespace ChainSync.Sync

variable {π : Type} [Peer π Id] {U : Set Header} {origin : Segment ByteMap} {c₀ : Chain}
  {L : List Block} {pivot : Option Header}

/-- In the course of a walk the segment lists headers up to a pivot, and the chain is what it was. -/
def Walking (origin : Segment ByteMap) (U : Set Header) (c₀ : Chain) (pivot : Option Header)
    (seg : Segment ByteMap) (c : Chain) : Prop :=
  (∃ hs, Segment.Stocked origin seg U hs ∧ hs.getLast? = pivot) ∧ c = c₀

/-- Whatever an operation returns, it keeps the segment and the chain so. -/
abbrev KeepsWalking {α : Type} (origin : Segment ByteMap) (U : Set Header) (c₀ : Chain)
    (pivot : Option Header) (act : SyncT Id ByteMap Chain π α) : Prop :=
  Ensures U (Walking origin U c₀ pivot) act fun _ => Walking origin U c₀ pivot

/-- A known header is saved, or refused. -/
lemma ensures_save (co : Coherent U) {h : Header} {P : Prop} (hP : P → h ∈ U ∧ h.Sized) :
    Ensures U (fun seg c => Walking origin U c₀ pivot seg c ∧ P)
      (save h : SyncT Id ByteMap Chain π _) fun _ => Walking origin U c₀ pivot := by
  refine Ensures.onSegment ?_
  rintro seg c ⟨⟨⟨hs, stock, rfl⟩, rfl⟩, hp⟩
  exact ⟨stock.prepend co (hP hp).2 (hP hp).1, rfl⟩

/-- Walking down stored headers is part of a walk. -/
lemma keepsWalking_restoreWithin (co : Coherent U) (steps : Nat) (hash : Hash) :
    KeepsWalking (π := π) origin U c₀ pivot (onSegment (Segment.restoreWithin steps hash)) := by
  refine Ensures.onSegment ?_
  rintro seg c ⟨⟨hs, stock, rfl⟩, rfl⟩
  exact ⟨stock.restoreWithin co steps hash, rfl⟩

/-- Restoring is part of a walk. -/
lemma keepsWalking_restore (co : Coherent U) (start : Header) :
    KeepsWalking (π := π) origin U c₀ pivot (onSegment (Segment.restore start)) := by
  refine Ensures.onSegment ?_
  rintro seg c ⟨⟨hs, stock, rfl⟩, rfl⟩
  exact ⟨stock.restore co start, rfl⟩

/-- Storing a body does not disturb a walk. -/
lemma keepsWalking_bodyOf (co : Coherent U) (hash : Hash) :
    KeepsWalking (π := π) origin U c₀ pivot (bodyOf hash) := by
  refine (Ensures.bodyOf (V := fun _ => True) (fun _ _ _ _ _ => trivial) ?_).mono (fun _ _ => id)
    fun _ _ _ h => h.1
  rintro seg c b ⟨⟨hs, stock, rfl⟩, rfl⟩ - hheader hsized
  exact ⟨⟨⟨hs, stock.storeBlock co hsized hheader, rfl⟩, rfl⟩, trivial⟩

section

variable (hold : c₀.Holds L) (hL : ∀ b ∈ L, b.header ∈ U)
include hold hL

/-- The local chain knows headers from the set only. -/
lemma ensures_localHeader? (hash : Hash) :
    Ensures U (Walking origin U c₀ pivot) (localHeader? hash : SyncT Id ByteMap Chain π _) fun r seg c =>
      Walking origin U c₀ pivot seg c ∧ ∀ h, r = .ok (some h) → h ∈ U ∧ h.Sized := by
  refine Ensures.localHeader? ?_
  rintro seg c ⟨stock, rfl⟩
  refine ⟨⟨stock, rfl⟩, ?_⟩
  intro h hr
  obtain ⟨b, hb, rfl, -⟩ := hold.of_header?_eq_some (mapError_eq_ok.1 hr)
  exact ⟨hL b hb, (hold.sized b hb).header⟩

/-- The beginning of a step is part of a walk. -/
lemma keepsWalking_beginStep (co : Coherent U) (start : Header) :
    KeepsWalking (π := π) origin U c₀ pivot (beginStep start) := by
  refine (keepsWalking_restore co start).bind (fun hash => ?_) fun _ _ _ => id
  refine (ensures_localHeader? hold hL hash).bind (fun found => ?_) fun _ _ _ h => h.1
  cases found with
  | none => exact .pure fun _ _ h => h.1
  | some h =>
    refine (ensures_save co fun hP => hP h rfl).bind (fun _ => ?_) fun _ _ _ => id
    exact .pure fun _ _ => id

/-- A step is part of a walk. -/
lemma keepsWalking_execute (co : Coherent U) (start : Header) :
    KeepsWalking (π := π) origin U c₀ pivot (execute start) := by
  refine (keepsWalking_beginStep hold hL co start).bind (fun found => ?_) fun _ _ _ => id
  cases found with
  | inl found => exact .pure fun _ _ => id
  | inr hash =>
    refine Ensures.takeNetwork.bind (fun _ => ?_) fun _ _ _ => id
    refine Ensures.fetchHeader.bind (fun h => ?_) fun _ _ _ h => h.1
    refine (ensures_save co fun hP => (hP h rfl).2).bind (fun _ => ?_) fun _ _ _ => id
    exact .pure fun _ _ => id

/-- A step from the frontier is part of a walk. -/
lemma keepsWalking_step (co : Coherent U) (start : Header) :
    Ensures U (fun seg c => Walking origin U c₀ pivot seg c ∧ seg.frontier? = some start)
      (execute start : SyncT Id ByteMap Chain π _) fun _ => Walking origin U c₀ pivot :=
  (keepsWalking_execute hold hL co start).mono (fun _ _ h => h.1) fun _ _ _ => id

/-- Some steps are part of a walk. -/
lemma keepsWalking_walkWithin (co : Coherent U) (steps : Nat) :
    KeepsWalking (π := π) origin U c₀ pivot (walkWithin steps) :=
  .walkWithin (keepsWalking_step hold hL co) steps

/-- A walk back keeps a segment that lists headers, and the chain. -/
lemma keepsWalking_syncToLocal (co : Coherent U) :
    KeepsWalking (π := π) origin U c₀ pivot syncToLocal :=
  .syncToLocal (keepsWalking_step hold hL co)

end

end ChainSync.Sync
