import Mathlib.Data.List.Chain
import ChainSync.Proofs.Ancestry
import ChainSync.Proofs.Sync.Honest

/-!
# What a descent lists

The headers from a hash downward, over any tables: forks, gaps and damaged rows included. The result
is the way down until the limit, number zero or an unknown parent (`Descends`), and the descent fails
exactly if a look-up on this way fails, at most one step beyond the limit. A descent that the limit cut
off goes on where it stopped. Nothing here rests on what the hash function is.
-/

namespace ChainSync.Chain

/-- A hash that the walk down from `hash` looks up, under its position: first comes `hash` itself, then
the parent of each header that is found and has a number other than zero. -/
inductive Reaches (c : Chain) (hash : Hash) : Nat → Hash → Prop where
  | start : Reaches c hash 0 hash
  | parent {i : Nat} {a : Hash} {h : Header} :
    Reaches c hash i a → c.header? a = .ok (some h) → h.number ≠ 0 → Reaches c hash (i + 1) h.parent

/-- One of the look-ups at positions up to `limit` of the walk down from `hash` fails. -/
def FailsWithin (c : Chain) (hash : Hash) (limit : Nat) (e : ChainError) : Prop :=
  ∃ i ≤ limit, ∃ a, Reaches c hash i a ∧ c.header? a = .error e

/-- The hash below a list of headers that begins at `hash`. -/
def nextBelow (hash : Hash) (hs : List Header) : Hash := (hs.getLast?.map Header.parent).getD hash

/-- A list of at most `limit` headers of a chain from `hash` downward, that ends early only where
nothing is below. -/
structure Descends (c : Chain) (hash : Hash) (limit : Nat) (hs : List Header) : Prop where
  length_le : hs.length ≤ limit
  /-- Each header is the one that the chain has under its hash. -/
  known : ∀ h ∈ hs, c.header? h.hash = .ok (some h)
  /-- The first header has the hash. -/
  hash_eq : ∀ h ∈ hs.head?, h.hash = hash
  /-- Each header is followed by its parent. -/
  linked : hs.IsChain fun a b => b.IsParent a
  /-- Only the last header may have number zero. -/
  number_ne : ∀ h ∈ hs.dropLast, h.number ≠ 0
  /-- A short list ends at number zero or above a hash that is unknown. -/
  ended : hs.length < limit →
    (∃ h ∈ hs.getLast?, h.number = 0) ∨ c.header? (nextBelow hash hs) = .ok none

variable {c : Chain} {hash a : Hash} {h : Header} {hs : List Header} {limit i : Nat} {e : ChainError}

/-- Below no headers comes the hash itself. -/
@[simp]
lemma nextBelow_nil (hash : Hash) : nextBelow hash [] = hash := rfl

/-- The first header leaves what is below the rest. -/
lemma nextBelow_cons (hash : Hash) (h : Header) (hs : List Header) :
    nextBelow hash (h :: hs) = nextBelow h.parent hs := by
  cases hs with
  | nil => rfl
  | cons b hs => simp [nextBelow, List.getLast?_cons]

/-! ## One step -/

/-- A failed look-up of the first hash is the failure of the walk. -/
lemma headersDescending_of_error (failed : c.header? hash = .error e) (limit : Nat) :
    c.headersDescending hash limit = .error e := by
  simp only [headersDescending, failed, bind, Except.bind]

/-- A walk with the limit zero brings nothing. -/
lemma headersDescending_zero (found : c.header? hash = .ok (some h)) :
    c.headersDescending hash 0 = .ok [] := by
  simp only [headersDescending, found, descend, bind, Except.bind]

/-- Nothing is looked up below number zero. -/
lemma headersDescending_of_number_eq (found : c.header? hash = .ok (some h)) (hnumber : h.number = 0)
    (limit : Nat) : c.headersDescending hash (limit + 1) = .ok [h] := by
  cases limit <;>
    simp [headersDescending, found, descend, below?, hnumber, bind, Except.bind, pure, Except.pure]

/-- Below a header the descent is the one from its parent. -/
lemma headersDescending_succ (found : c.header? hash = .ok (some h)) (hnumber : h.number ≠ 0)
    (limit : Nat) :
    c.headersDescending hash (limit + 1) = (c.headersDescending h.parent limit).map (h :: ·) := by
  simp only [headersDescending, found, descend, below?, hnumber, bind, Except.bind, pure, Except.pure]
  cases c.header? h.parent <;> rfl

namespace Reaches

/-- What is reached from the parent is reached one step later from the child. -/
lemma of_parent (found : c.header? hash = .ok (some h)) (hnumber : h.number ≠ 0)
    (r : Reaches c h.parent i a) : Reaches c hash (i + 1) a := by
  induction r with
  | start => exact .parent .start found hnumber
  | parent _ hfound hne ih => exact .parent ih hfound hne

/-- Beyond its start a walk goes on from the parent of what it finds there. -/
lemma exists_parent (r : Reaches c hash (i + 1) a) :
    ∃ h, c.header? hash = .ok (some h) ∧ h.number ≠ 0 ∧ Reaches c h.parent i a := by
  induction i generalizing a with
  | zero =>
    cases r with
    | @parent _ _ h first found hnumber =>
      cases first
      exact ⟨h, found, hnumber, .start⟩
  | succ i ih =>
    cases r with
    | parent earlier hfound hne =>
      obtain ⟨h, found, hnumber, rest⟩ := ih earlier
      exact ⟨h, found, hnumber, .parent rest hfound hne⟩

/-- A walk that looks up a second hash has found a header above it. -/
lemma eq_start {found : Option Header} (hfound : c.header? hash = .ok found)
    (hstop : ∀ h ∈ found, h.number = 0) (r : Reaches c hash i a) : a = hash := by
  cases i with
  | zero =>
    cases r
    rfl
  | succ i =>
    obtain ⟨h, hsome, hnumber, -⟩ := r.exists_parent
    rw [hfound, Except.ok.injEq] at hsome
    exact absurd (hstop h hsome) hnumber

end Reaches

/-- Where the first look-up fails, its error is the only one. -/
lemma failsWithin_of_error {e' : ChainError} (failed : c.header? hash = .error e') (limit : Nat) :
    FailsWithin c hash limit e ↔ e' = e := by
  constructor
  · rintro ⟨i, -, a, ha, hdamage⟩
    cases i with
    | zero =>
      cases ha
      exact Except.error.inj (failed.symm.trans hdamage)
    | succ i =>
      obtain ⟨h, hsome, -⟩ := ha.exists_parent
      rw [failed] at hsome
      cases hsome
  · rintro rfl
    exact ⟨0, Nat.zero_le limit, hash, .start, failed⟩

/-- A walk that stops at the first hash does not fail. -/
lemma not_failsWithin_of_stop {found : Option Header} (hfound : c.header? hash = .ok found)
    (hstop : ∀ h ∈ found, h.number = 0) : ¬ FailsWithin c hash limit e := by
  rintro ⟨i, -, a, ha, hdamage⟩
  rw [ha.eq_start hfound hstop, hfound] at hdamage
  cases hdamage

/-- With the limit zero, nothing but the first look-up can fail. -/
lemma not_failsWithin_zero {found : Option Header} (hfound : c.header? hash = .ok found) :
    ¬ FailsWithin c hash 0 e := by
  rintro ⟨i, hi, a, ha, hdamage⟩
  cases Nat.le_zero.1 hi
  cases ha
  rw [hfound] at hdamage
  cases hdamage

/-- Below a header the look-ups are those of the walk from its parent. -/
lemma failsWithin_succ (found : c.header? hash = .ok (some h)) (hnumber : h.number ≠ 0) :
    FailsWithin c hash (limit + 1) e ↔ FailsWithin c h.parent limit e := by
  constructor
  · rintro ⟨i, hi, a, ha, hdamage⟩
    cases i with
    | zero =>
      cases ha
      rw [found] at hdamage
      cases hdamage
    | succ i =>
      obtain ⟨h', hsome, -, rest⟩ := ha.exists_parent
      rw [found] at hsome
      cases hsome
      exact ⟨i, Nat.le_of_succ_le_succ hi, a, rest, hdamage⟩
  · rintro ⟨i, hi, a, ha, hdamage⟩
    exact ⟨i + 1, Nat.succ_le_succ hi, a, ha.of_parent found hnumber, hdamage⟩

/-! ## The result -/

namespace Descends

/-- Nothing descends from an unknown hash. -/
lemma nil_of_none (hfound : c.header? hash = .ok none) (limit : Nat) : Descends c hash limit [] where
  length_le := Nat.zero_le limit
  known := by simp
  hash_eq := by simp
  linked := .nil
  number_ne := by simp
  ended _ := .inr hfound

/-- The empty list descends within the limit zero. -/
lemma nil_zero (c : Chain) (hash : Hash) : Descends c hash 0 [] where
  length_le := Nat.le_refl 0
  known := by simp
  hash_eq := by simp
  linked := .nil
  number_ne := by simp
  ended h := absurd h (Nat.lt_irrefl 0)

/-- A header with number zero descends alone. -/
lemma singleton (found : c.header? hash = .ok (some h)) (hnumber : h.number = 0) (limit : Nat) :
    Descends c hash (limit + 1) [h] where
  length_le := by simp
  known b hb := by
    rw [List.mem_singleton.1 hb, hash_eq_of_header? found]
    exact found
  hash_eq b hb := by
    cases hb
    exact hash_eq_of_header? found
  linked := .singleton h
  number_ne := by simp
  ended _ := .inl ⟨h, rfl, hnumber⟩

/-- A header is put in front of what descends from its parent. -/
lemma cons (found : c.header? hash = .ok (some h)) (hnumber : h.number ≠ 0)
    (d : Descends c h.parent limit hs) : Descends c hash (limit + 1) (h :: hs) where
  length_le := Nat.succ_le_succ d.length_le
  known b hb := by
    cases hb with
    | head =>
      rw [hash_eq_of_header? found]
      exact found
    | tail _ hb => exact d.known b hb
  hash_eq b hb := by
    cases hb
    exact hash_eq_of_header? found
  linked := d.linked.cons fun b hb => (d.hash_eq b hb).symm
  number_ne b hb := by
    cases hs with
    | nil => simp at hb
    | cons b' hs =>
      rw [List.dropLast_cons_cons] at hb
      cases hb with
      | head => exact hnumber
      | tail _ hb => exact d.number_ne b hb
  ended hlt := by
    rw [nextBelow_cons]
    apply (d.ended (Nat.lt_of_succ_lt_succ hlt)).imp_left
    rintro ⟨b, hb, hzero⟩
    refine ⟨b, ?_, hzero⟩
    rw [List.getLast?_cons, Option.mem_def.1 hb]
    rfl

/-- The first header is the one that the chain has under the hash. -/
lemma header?_eq (d : Descends c hash limit (h :: hs)) : c.header? hash = .ok (some h) := by
  have hhash : h.hash = hash := d.hash_eq h rfl
  rw [← hhash]
  exact d.known h List.mem_cons_self

/-- What follows the first header descends from its parent. -/
lemma tail (d : Descends c hash (limit + 1) (h :: hs)) (hnumber : h.number ≠ 0) :
    Descends c h.parent limit hs where
  length_le := Nat.le_of_succ_le_succ d.length_le
  known b hb := d.known b (List.mem_cons_of_mem h hb)
  hash_eq b hb := ((List.isChain_cons.1 d.linked).1 b hb).symm
  linked := d.linked.tail
  number_ne b hb := by
    cases hs with
    | nil => simp at hb
    | cons b' hs => exact d.number_ne b (List.mem_cons_of_mem h hb)
  ended hlt := by
    rw [← nextBelow_cons hash]
    rcases d.ended (Nat.succ_lt_succ hlt) with ⟨b, hb, hzero⟩ | hnone
    · left
      cases hs with
      | nil =>
        cases hb
        exact absurd hzero hnumber
      | cons b' hs => exact ⟨b, hb, hzero⟩
    · exact .inr hnone

/-- Nothing follows number zero. -/
lemma eq_nil_of_number_eq (d : Descends c hash limit (h :: hs)) (hnumber : h.number = 0) : hs = [] := by
  cases hs with
  | nil => rfl
  | cons b hs => exact absurd hnumber (d.number_ne h List.mem_cons_self)

end Descends

/-- What a descent gives is a list from the hash downward. -/
lemma descends_of_headersDescending (hok : c.headersDescending hash limit = .ok hs) :
    Descends c hash limit hs := by
  induction limit generalizing hash hs with
  | zero =>
    rcases hfound : c.header? hash with e | _ | h
    · rw [headersDescending_of_error hfound] at hok
      cases hok
    · rw [headersDescending_of_none hfound] at hok
      cases hok
      exact .nil_zero c hash
    · rw [headersDescending_zero hfound] at hok
      cases hok
      exact .nil_zero c hash
  | succ limit ih =>
    rcases hfound : c.header? hash with e | _ | h
    · rw [headersDescending_of_error hfound] at hok
      cases hok
    · rw [headersDescending_of_none hfound] at hok
      cases hok
      exact .nil_of_none hfound (limit + 1)
    by_cases hnumber : h.number = 0
    · rw [headersDescending_of_number_eq hfound hnumber] at hok
      cases hok
      exact .singleton hfound hnumber limit
    · rw [headersDescending_succ hfound hnumber] at hok
      rcases hrest : c.headersDescending h.parent limit with e | rest <;> rw [hrest] at hok <;>
        cases hok
      exact (ih hrest).cons hfound hnumber

/-- A list from the hash downward is what a descent gives if no look-up on its way fails. -/
lemma Descends.headersDescending_eq (d : Descends c hash limit hs)
    (sound : ∀ e, ¬ FailsWithin c hash limit e) :
    c.headersDescending hash limit = .ok hs := by
  induction hs generalizing hash limit with
  | nil =>
    rcases hfound : c.header? hash with e | _ | h
    · exact absurd ((failsWithin_of_error hfound limit).2 rfl) (sound e)
    · exact headersDescending_of_none hfound limit
    cases limit with
    | zero => exact headersDescending_zero hfound
    | succ limit =>
      have hnone : c.header? hash = .ok none := by
        simpa using d.ended (Nat.succ_pos limit)
      rw [hfound] at hnone
      cases hnone
  | cons h hs ih =>
    have hfound := d.header?_eq
    cases limit with
    | zero => exact absurd d.length_le (by simp)
    | succ limit =>
      by_cases hnumber : h.number = 0
      · rw [d.eq_nil_of_number_eq hnumber]
        exact headersDescending_of_number_eq hfound hnumber limit
      · have hrest : c.headersDescending h.parent limit = .ok hs := by
          apply ih (d.tail hnumber)
          intro e
          rw [← failsWithin_succ hfound hnumber]
          exact sound e
        rw [headersDescending_succ hfound hnumber, hrest]
        rfl

/-- A descent fails with the damage of a hash on its way, at most one step beyond the limit. -/
lemma headersDescending_eq_error_iff :
    c.headersDescending hash limit = .error e ↔ FailsWithin c hash limit e := by
  induction limit generalizing hash with
  | zero =>
    rcases hfound : c.header? hash with e' | _ | h
    · rw [headersDescending_of_error hfound, failsWithin_of_error hfound, Except.error.injEq]
    · simp [headersDescending_of_none hfound, not_failsWithin_zero hfound]
    · simp [headersDescending_zero hfound, not_failsWithin_zero hfound]
  | succ limit ih =>
    rcases hfound : c.header? hash with e' | _ | h
    · rw [headersDescending_of_error hfound, failsWithin_of_error hfound, Except.error.injEq]
    · simp [headersDescending_of_none hfound, not_failsWithin_of_stop hfound]
    by_cases hnumber : h.number = 0
    · simp [headersDescending_of_number_eq hfound hnumber, not_failsWithin_of_stop hfound, hnumber]
    · rw [headersDescending_succ hfound hnumber, failsWithin_succ hfound hnumber, ← ih]
      cases c.headersDescending h.parent limit <;> simp [Except.map]

/-- Below the first header of a result the descent gives the rest of it. -/
lemma headersDescending_tail (hok : c.headersDescending hash (limit + 1) = .ok (h :: hs))
    (hnumber : h.number ≠ 0) : c.headersDescending h.parent limit = .ok hs := by
  rw [headersDescending_succ (descends_of_headersDescending hok).header?_eq hnumber] at hok
  rcases hrest : c.headersDescending h.parent limit with e | rest <;> rw [hrest] at hok <;> cases hok
  rfl

/-- A descent that the limit cut off goes on from the parent of its last header. -/
lemma headersDescending_add {m : Nat} (hok : c.headersDescending hash m = .ok hs)
    (hlen : hs.length = m) (hlast : hs.getLast? = some h) (hnumber : h.number ≠ 0) (n : Nat) :
    c.headersDescending hash (m + n) = (c.headersDescending h.parent n).map (hs ++ ·) := by
  induction hs generalizing hash m with
  | nil => cases hlast
  | cons b hs ih =>
    subst hlen
    have d := descends_of_headersDescending hok
    rw [List.length_cons, Nat.succ_add]
    cases hs with
    | nil =>
      cases hlast
      rw [headersDescending_succ d.header?_eq hnumber, List.length_nil, Nat.zero_add]
      rfl
    | cons b' hs =>
      have hb : b.number ≠ 0 := d.number_ne b List.mem_cons_self
      have hrest := headersDescending_tail hok hb
      rw [headersDescending_succ d.header?_eq hb, ih hrest rfl hlast]
      cases c.headersDescending h.parent n <;> rfl

/-! ## The whole -/

/-- What a descent gives, when it fails, and how it goes on: the result is the list of the headers on
the way down, or the damage of a hash that is looked up on this way, and a result that the limit cut
off above number zero is the beginning of each longer one. -/
theorem headersDescending_exact (c : Chain) (hash : Hash) (limit : Nat) :
    (∀ hs, c.headersDescending hash limit = .ok hs ↔
      Descends c hash limit hs ∧ ∀ e, ¬ FailsWithin c hash limit e) ∧
    (∀ e, c.headersDescending hash limit = .error e ↔ FailsWithin c hash limit e) ∧
    ∀ hs h, c.headersDescending hash limit = .ok hs → hs.length = limit → hs.getLast? = some h →
      h.number ≠ 0 → ∀ n, c.headersDescending hash (limit + n) =
        (c.headersDescending h.parent n).map (hs ++ ·) := by
  refine ⟨fun hs => ⟨fun hok => ?_, fun ⟨d, sound⟩ => d.headersDescending_eq sound⟩,
    fun e => headersDescending_eq_error_iff,
    fun hs h hok hlen hlast hnumber n => headersDescending_add hok hlen hlast hnumber n⟩
  refine ⟨descends_of_headersDescending hok, fun e hfails => ?_⟩
  rw [← headersDescending_eq_error_iff, hok] at hfails
  cases hfails

/-- Two headers above a damaged row one header is listed and two are not, whether they are asked for at
once or one after the other. -/
theorem headersDescending_exact_damaged :
    let sound := ofBlocks [Block.genesis, Block.first, Block.second]
    let c := { sound with blocks := sound.blocks.insert (Bytes.be64 0) [] }
    let cut : ChainError := .brokenBlock .endOfInput
    Descends c Block.second.hash 1 [Block.second.header] ∧ FailsWithin c Block.second.hash 2 cut ∧
      c.headersDescending Block.second.hash (1 + 1) =
        (c.headersDescending Block.first.hash 1).map ([Block.second.header] ++ ·) := by
  intro sound c cut
  have hone : c.headersDescending Block.second.hash 1 = .ok [Block.second.header] := by decide +kernel
  have htwo : c.headersDescending Block.second.hash 2 = .error cut := by decide +kernel
  obtain ⟨hok, -, hmore⟩ := headersDescending_exact c Block.second.hash 1
  refine ⟨((hok _).1 hone).1, ?_, hmore _ Block.second.header hone rfl rfl (by decide) 1⟩
  exact ((headersDescending_exact c Block.second.hash 2).2.1 cut).1 htwo

end ChainSync.Chain
