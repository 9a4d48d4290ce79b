import ChainSync.Segment
import ChainSync.Proofs.Segment.Rows

/-!
# How a frontier descends

When a segment grows backward its frontier goes down, one header at a time. `Descends s t hs` says that
it went from that of `s` down through the headers `hs`, each the parent of the one before and one lower,
and is that of `t` in the end. Nothing is assumed of the store: a table may fail at any call, and what was
lowered before stays.
-/

namespace ChainSync.Segment

variable {κ : Type} [KeyValue κ] {s t u : Segment κ} {hs hs' : List Header} {h f : Header}

/-- The frontier of one segment goes down through some headers to that of another one. -/
structure Descends (s t : Segment κ) (hs : List Header) : Prop where
  lowers : (s.frontier?.toList ++ hs).IsChain fun a b => Precedes b a
  frontier : t.frontier? = (s.frontier?.toList ++ hs).getLast?

namespace Descends

omit [KeyValue κ]

/-- A segment with the same ends is below by no headers. -/
lemma of_anchors_eq (hends : t.anchors = s.anchors) : Descends s t [] where
  lowers := by cases s.frontier? <;> simp
  frontier := by
    rw [frontier?, frontier?, hends]
    cases s.anchors <;> rfl

/-- A segment is below itself by no headers. -/
lemma refl : Descends s s [] := of_anchors_eq rfl

/-- A frontier that precedes the other one is below it by one header. -/
lemma of_precedes (hs : s.frontier? = some f) (pre : Precedes h f) (ht : t.frontier? = some h) :
    Descends s t [h] where
  lowers := by
    rw [hs]
    exact List.isChain_pair.2 pre
  frontier := by
    rw [hs, ht]
    rfl

/-- Two descents follow each other. -/
lemma trans (first : Descends s t hs) (second : Descends t u hs') : Descends s u (hs ++ hs') := by
  have hmiddle := first.frontier
  have hend := second.frontier
  have hchain := second.lowers
  -- what comes after the middle frontier comes after the last header before it
  rcases List.eq_nil_or_concat' (s.frontier?.toList ++ hs) with hnil | ⟨init, f, hlast⟩
  · rw [hnil, List.getLast?_nil] at hmiddle
    rw [hmiddle] at hend hchain
    refine ⟨?_, ?_⟩ <;> rw [← List.append_assoc, hnil]
    · exact hchain
    · exact hend
  · rw [hlast, List.getLast?_concat] at hmiddle
    rw [hmiddle, Option.toList_some] at hend hchain
    have hlowers := first.lowers
    rw [hlast] at hlowers
    refine ⟨?_, ?_⟩ <;> rw [← List.append_assoc, hlast]
    · exact List.IsChain.append_overlap hlowers hchain (by simp)
    · rw [List.append_assoc, List.getLast?_append_of_ne_nil _ (by simp)]
      exact hend

end Descends

/-- Prepending a header makes it the frontier, or fails and leaves the ends. -/
lemma descends_prependWith (keep : Hash → SegmentM κ Unit)
    (hkeep : ∀ s, ((keep h.hash).exec s).2.anchors = s.anchors) :
    (∃ t, (prependWith keep h).exec s = (.ok (), t) ∧ Descends s t [h]) ∨
      ∃ e t, (prependWith keep h).exec s = (.error e, t) ∧ Descends s t [] := by
  simp only [prependWith, Operation.exec_bind, Operation.exec_get]
  cases hends : s.anchors with
  | none => exact .inr ⟨_, s, rfl, .refl⟩
  | some ends =>
    by_cases hparent : ends.frontier.parent = h.hash
    · by_cases hnumber : h.number.toNat + 1 = ends.frontier.number.toNat
      · simp only [hparent, hnumber, ne_eq, not_true_eq_false, if_false, Operation.exec_bind]
        have hkept := hkeep s
        cases hexec : (keep h.hash).exec s with
        | mk r kept =>
          rw [hexec] at hkept
          cases r with
          | error e => exact .inr ⟨e, kept, rfl, .of_anchors_eq hkept⟩
          | ok _ =>
            simp only [onLinks, Operation.exec_onPart]
            cases hput : (Table.put h.hash ends.frontier.hash).exec kept.links with
            | mk r links =>
              cases r with
              | error e => exact .inr ⟨_, _, rfl, .of_anchors_eq hkept⟩
              | ok _ =>
                refine .inl ⟨_, rfl, .of_precedes ?_ ⟨hparent, hnumber⟩ rfl⟩
                rw [frontier?, hends, Option.map_some]
      · exact .inr ⟨.heightGap ends.frontier.number h.number, s, by simp [hparent, hnumber], .refl⟩
    · exact .inr ⟨.linkage ends.frontier.parent h.hash, s, by simp [hparent], .refl⟩

/-- The frontiers that `restoreWithin` moves a segment through. -/
def restoredWithin : (steps : Nat) → (hash : Hash) → Segment κ → List Header
  | 0, _, _ => []
  | steps + 1, hash, s =>
    match (header? hash).exec s with
    | (.ok (some header), s') =>
      if s'.frontier?.map (·.parent) = some hash then
        match (prependStored header).exec s' with
        | (.ok _, t) => header :: restoredWithin steps header.parent t
        | (.error _, _) => []
      else restoredWithin steps header.parent s'
    | _ => []

/-- The frontiers that `restore` moves a segment through. -/
def restored (start : Header) (s : Segment κ) : List Header :=
  restoredWithin (s.headers.size + 1) start.parent s

/-- A look-up leaves the ends of a segment. -/
lemma anchors_header? (hash : Hash) (s : Segment κ) :
    ((header? hash).exec s).2.anchors = s.anchors := by
  simp only [header?, onHeaders, Operation.exec_bind, Operation.exec_onPart]
  rcases (Table.get hash).exec s.headers with ⟨e | found, headers⟩
  · rfl
  · cases found with
    | none => rfl
    | some h => by_cases e : h.hash = hash <;> simp [Except.mapError, e]

/-- Walking down stored headers, the frontier goes down through each that is taken back. -/
lemma descends_restoreWithin (steps : Nat) (hash : Hash) (s : Segment κ) :
    Descends s ((restoreWithin steps hash).exec s).2 (restoredWithin steps hash s) := by
  induction steps generalizing hash s with
  | zero => exact .refl
  | succ steps ih =>
    have hends := anchors_header? hash s
    simp only [restoreWithin, restoredWithin, Operation.exec_bind]
    rcases hfound : (header? hash).exec s with ⟨e | _ | h, s'⟩ <;> rw [hfound] at hends
    · exact .of_anchors_eq hends
    · exact .of_anchors_eq hends
    · have found : Descends s s' [] := .of_anchors_eq hends
      have lowered := descends_prependWith (h := h) (s := s') (fun _ => pure ()) fun _ => rfl
      simp only [Operation.exec_bind, Operation.exec_get]
      by_cases hnext : s'.frontier?.map (·.parent) = some hash
      · simp only [hnext, if_true, Operation.exec_bind, prependStored]
        rcases lowered with ⟨t, hexec, lowered⟩ | ⟨e, t, hexec, lowered⟩ <;> rw [hexec]
        · exact found.trans (lowered.trans (ih h.parent t))
        · exact found.trans lowered
      · simp only [hnext, if_false]
        exact found.trans (ih h.parent s')

/-- Restoring, the frontier goes down through each header that is taken back. -/
lemma descends_restore (start : Header) (s : Segment κ) :
    Descends s ((restore start).exec s).2 (restored start s) := by
  have descends := descends_restoreWithin (s.headers.size + 1) start.parent s
  simp only [restore, restored, Operation.exec_bind, Operation.exec_get]
  rcases hexec : (restoreWithin (s.headers.size + 1) start.parent).exec s with ⟨e | _ | hash, t⟩ <;>
    · rw [hexec] at descends
      exact descends

/-- A header that is stored and prepended becomes the frontier, or is refused. -/
lemma descends_prepend (h : Header) (s : Segment κ) :
    (∃ t, (prepend h).exec s = (.ok (), t) ∧ Descends s t [h]) ∨
      ∃ e t, (prepend h).exec s = (.error e, t) ∧ Descends s t [] :=
  descends_prependWith _ fun _ => rfl

end ChainSync.Segment
