import ChainSync.Segment
import ChainSync.Proofs.Segment.Path

/-!
# Restoring ends

`Loops round x n y` says that rounds that are repeated from `x` on, with no bound on their number, come
to an end with `y`; `n` is what they count together. The walk down the stored headers is such a loop.
From the frontier on, every round prepends a header that stands one lower than the one before, or is
the last one. So the walk ends whatever the rows hold, and since the headers it goes through are rows of
different heights, it needs no more rounds than there are rows (`exists_restored`).
-/

namespace ChainSync

/-- Rounds from `x` on end with `y`, and count `n` in all. -/
inductive Loops {α β ν : Type} [Add ν] (round : α → ν → β ⊕ α → Prop) : α → ν → β → Prop where
  | ends {x : α} {n : ν} {y : β} :
    round x n (.inl y) →
    Loops round x n y
  | goesOn {x x' : α} {n n' : ν} {y : β} :
    round x n (.inr x') → Loops round x' n' y →
    Loops round x (n + n') y

/-- Rounds that go one way make a loop that goes one way. -/
lemma Loops.unique {α β ν : Type} [Add ν] {round : α → ν → β ⊕ α → Prop}
    (hround : ∀ {x n n' z z'}, round x n z → round x n' z' → n = n' ∧ z = z') {x : α} {n n' : ν}
    {y y' : β} (first : Loops round x n y) (second : Loops round x n' y') : n = n' ∧ y = y' := by
  induction first generalizing n' y' with
  | ends last =>
    cases second with
    | ends last' =>
      obtain ⟨rfl, e⟩ := hround last last'
      exact ⟨rfl, Sum.inl.inj e⟩
    | goesOn next' rest' => cases (hround last next').2
  | goesOn next rest ih =>
    cases second with
    | ends last' => cases (hround next last').2
    | goesOn next' rest' =>
      obtain ⟨rfl, e⟩ := hround next next'
      cases e
      obtain ⟨rfl, rfl⟩ := ih rest'
      exact ⟨rfl, rfl⟩

/-- The errors that tell where a whole walk stands. No part of a step ends with one of them. -/
def SyncError.IsVerdict : SyncError → Prop
  | .emptyChain | .genesisMismatch _ | .endless _ => True
  | _ => False

namespace Segment

/-- One round of the walk down the stored headers: the header with the hash is looked up, and prepended
if it is the frontier's parent. What is counted are the headers that are prepended. -/
def restoreRound {κ : Type} [KeyValue κ] (hash : Hash) (s : Segment κ) :
    Nat × ((Except SyncError Hash × Segment κ) ⊕ (Hash × Segment κ)) :=
  match (header? hash).exec s with
  | (.error e, t) => (0, .inl (.error e, t))
  | (.ok none, t) => (0, .inl (.ok hash, t))
  | (.ok (some h), t) =>
    if t.frontier?.map (·.parent) = some hash then
      match (prependStored h).exec t with
      | (.error e, u) => (0, .inl (.error e, u))
      | (.ok (), u) => (1, .inr (h.parent, u))
    else (0, .inr (h.parent, t))

/-- The walk down the stored headers from a hash, without a bound. -/
abbrev Restores {κ : Type} [KeyValue κ] : Hash × Segment κ → Nat → Except SyncError Hash × Segment κ →
    Prop :=
  Loops fun x n y => restoreRound x.1 x.2 = (n, y)

/-- The walk with a bound makes the same rounds. -/
lemma exec_restoreWithin_succ {κ : Type} [KeyValue κ] (steps : Nat) (hash : Hash) (s : Segment κ) :
    (restoreWithin (steps + 1) hash).exec s =
      match restoreRound hash s with
      | (_, .inl (r, t)) => (r.map some, t)
      | (_, .inr (next, t)) => (restoreWithin steps next).exec t := by
  simp only [restoreWithin, restoreRound, Operation.exec_bind]
  rcases (header? hash).exec s with ⟨e | _ | h, t⟩
  · rfl
  · rfl
  · simp only [Operation.exec_bind, Operation.exec_get]
    by_cases hnext : t.frontier?.map (·.parent) = some hash
    · simp only [hnext, if_true, Operation.exec_bind]
      rcases (prependStored h).exec t with ⟨e | _, u⟩ <;> rfl
    · simp only [hnext, if_false]

variable {s t : Segment ByteMap} {h f : Header} {e : SyncError}

/-- A hash has one header. -/
lemma HasHeader.unique {h' : Header} (has : s.HasHeader h) (has' : s.HasHeader h')
    (e : h.hash = h'.hash) : h = h' := by
  obtain ⟨row, hrow, hread⟩ := has
  obtain ⟨row', hrow', hread'⟩ := has'
  rw [e, hrow'] at hrow
  cases hrow
  exact Except.ok.inj (hread.symm.trans hread')

/-- Rows that read as headers of different heights are different rows. -/
lemma length_le_headers {hs : List Header} (has : ∀ h ∈ hs, s.HasHeader h)
    (nodup : (hs.map (·.number)).Nodup) : hs.length ≤ s.headers.size := by
  apply length_le_of_nodup_hash has
  rw [List.Nodup, List.pairwise_map] at nodup ⊢
  apply nodup.imp_of_mem
  intro h h' hh hh' hne e
  exact hne (congrArg _ ((has h hh).unique (has h' hh') e))

/-- A failed prepending tells why the header does not fit, or which write failed. -/
lemma not_isVerdict_of_prependWith {keep : Hash → SegmentM ByteMap Unit} {kept : Segment ByteMap}
    (hkeep : (keep h.hash).exec s = (.ok (), kept)) (hf : s.frontier? = some f)
    (hexec : (prependWith keep h).exec s = (.error e, t)) : ¬ e.IsVerdict := by
  obtain ⟨ends, hends, rfl⟩ := Option.map_eq_some_iff.1 hf
  simp only [prependWith, Operation.exec_bind, Operation.exec_get, hends] at hexec
  by_cases hp : ends.frontier.parent = h.hash
  · by_cases hn : h.number.toNat + 1 = ends.frontier.number.toNat
    · simp only [hp, hn, hkeep, ne_eq, not_true_eq_false, if_false, Operation.exec_bind] at hexec
      cases hexec
    · simp [hp, hn] at hexec
      obtain ⟨rfl, -⟩ := hexec
      exact id
  · simp [hp] at hexec
    obtain ⟨rfl, -⟩ := hexec
    exact id

/-- A look-up that fails is no verdict. -/
lemma not_isVerdict_of_headerAt {hash : Hash} (hfound : s.headerAt hash = .error e) :
    ¬ e.IsVerdict := by
  unfold headerAt valueAt at hfound
  repeat' split at hfound
  all_goals cases hfound
  all_goals exact id

/-- What a round can come to that begins at the frontier's parent. -/
inductive RestoreRound (f : Header) (s : Segment ByteMap) :
    Nat × ((Except SyncError Hash × Segment ByteMap) ⊕ (Hash × Segment ByteMap)) → Prop where
  | absent :
    RestoreRound f s (0, .inl (.ok f.parent, s))
  | failed {e : SyncError} :
    ¬ e.IsVerdict →
    RestoreRound f s (0, .inl (.error e, s))
  | prepended {h : Header} {t : Segment ByteMap} :
    s.HasHeader h → h.number.toNat + 1 = f.number.toNat → t.headers = s.headers →
      t.frontier? = some h →
    RestoreRound f s (1, .inr (h.parent, t))

/-- A round that begins at the frontier's parent comes to one of the cases. -/
lemma restoreRound_of_frontier (hf : s.frontier? = some f) :
    RestoreRound f s (restoreRound f.parent s) := by
  have hnext : s.frontier?.map (·.parent) = some f.parent := by rw [hf, Option.map_some]
  simp only [restoreRound, exec_header?]
  cases hfound : s.headerAt f.parent with
  | error e => exact .failed (not_isVerdict_of_headerAt hfound)
  | ok found =>
    cases found with
    | none => exact .absent
    | some h =>
      simp only [hnext, if_true]
      rcases exec_prependStored s h with ⟨ends, hends, pre, hexec⟩ | ⟨-, e, hexec⟩
      · obtain ⟨has, -⟩ := headerAt_eq_some_iff.1 hfound
        have hfrontier : ends.frontier = f := by
          rw [frontier?, hends] at hf
          exact Option.some.inj hf
        rw [hexec]
        exact .prepended has (hfrontier ▸ pre.number) rfl rfl
      · rw [hexec]
        exact .failed (not_isVerdict_of_prependWith rfl hf hexec)

/-- Where a walk down the stored headers has come to that began at the frontier `f`. -/
structure Restored (f : Header) (n : Nat) (r : Except SyncError Hash) (t : Segment ByteMap) : Prop where
  frontier : ∃ g, t.frontier? = some g ∧ g.number.toNat + n = f.number.toNat ∧
    ∀ hash, r = .ok hash → hash = g.parent
  error : ∀ e, r = .error e → ¬ e.IsVerdict

/-- The walk ends before its steps are used up: the headers `seen` before are rows of other heights,
and there are not so many rows. -/
lemma exists_restored_within (steps : Nat) (seen : List Header) (hf : s.frontier? = some f)
    (has : ∀ h ∈ seen, s.HasHeader h) (habove : ∀ h ∈ seen, f.number.toNat ≤ h.number.toNat)
    (nodup : (seen.map (·.number)).Nodup) (hsteps : s.headers.size < steps + seen.length) :
    ∃ n r t, Restores (f.parent, s) n (r, t) ∧
      (restoreWithin steps f.parent).exec s = (r.map some, t) ∧ Restored f n r t := by
  induction steps generalizing s f seen with
  | zero =>
    have := length_le_headers has nodup
    omega
  | succ steps ih =>
    have turn := restoreRound_of_frontier hf
    rw [exec_restoreWithin_succ]
    generalize hround : restoreRound f.parent s = round at turn ⊢
    cases turn with
    | absent =>
      refine ⟨0, _, s, .ends hround, rfl, ⟨f, hf, rfl, ?_⟩, nofun⟩
      rintro _ ⟨⟩
      rfl
    | failed he =>
      refine ⟨0, _, s, .ends hround, rfl, ⟨f, hf, rfl, nofun⟩, ?_⟩
      rintro _ ⟨⟩
      exact he
    | @prepended h t hash hnum hheaders hfrontier =>
      have has' : ∀ g ∈ h :: seen, t.HasHeader g := by
        intro g hg
        rw [HasHeader, hheaders]
        cases hg with
        | head => exact hash
        | tail _ hg => exact has g hg
      have habove' : ∀ g ∈ h :: seen, h.number.toNat ≤ g.number.toNat := by
        intro g hg
        cases hg with
        | head => exact Nat.le_refl _
        | tail _ hg =>
          have := habove g hg
          omega
      have nodup' : ((h :: seen).map (·.number)).Nodup := by
        rw [List.map_cons, List.nodup_cons]
        refine ⟨?_, nodup⟩
        intro hmem
        obtain ⟨g, hg, e⟩ := List.mem_map.1 hmem
        have := habove g hg
        rw [e] at this
        omega
      rw [← hheaders] at hsteps
      obtain ⟨n, r, u, walk, hexec, ⟨g, hg, hgnum, hgparent⟩, herror⟩ :=
        ih (h :: seen) hfrontier has' habove' nodup' (by rw [List.length_cons]; omega)
      exact ⟨1 + n, r, u, .goesOn hround walk, hexec, ⟨g, hg, by omega, hgparent⟩, herror⟩

/-- From the frontier on the walk down the stored headers ends, whatever the rows hold, and what is
restored is what it comes to. -/
theorem exists_restored (hf : s.frontier? = some f) :
    ∃ n r t, Restores (f.parent, s) n (r, t) ∧ (restore f).exec s = (r, t) ∧ Restored f n r t := by
  obtain ⟨n, r, t, walk, hexec, restored⟩ := exists_restored_within (s.headers.size + 1) [] hf
    nofun nofun List.nodup_nil (by simp)
  refine ⟨n, r, t, walk, ?_, restored⟩
  simp only [restore, Operation.exec_bind, Operation.exec_get, hexec]
  cases r <;> rfl

end Segment
end ChainSync
