import Mathlib.Order.Bounds.Basic
import ChainSync.Merkle
import ChainSync.Proofs.Json.Blocks

/-!
# What a Merkle root commits to

The levels of a Merkle tree are paired from the left, and the last hash of an odd level is paired with
itself. The root is therefore that of the complete tree whose missing right children are copies of their
left siblings (`expand`), and it commits to the leaves of this tree: two lists of transactions of the same
depth with the same root expand to the same leaves, or two different strings that were digested on the
way to the two roots have the same digest.
-/

namespace ChainSync.Merkle

variable {α β : Type} {d : Nat}

/-! ## Complete trees -/

/-- The leaves of the complete tree of a depth over a list: where nothing is left for the right half, it is
a copy of the left half. -/
def expand : (depth : Nat) → List α → List α
  | 0, l => l
  | d + 1, l =>
    if l.length ≤ 2 ^ d then expand d l ++ expand d l
    else expand d (l.take (2 ^ d)) ++ expand d (l.drop (2 ^ d))

/-- The neighbours of a level, the last one of an odd level beside itself. -/
def pairs : List α → List (α × α)
  | [] => []
  | [a] => [(a, a)]
  | a :: b :: rest => (a, b) :: pairs rest

/-- A list that fits in the left half stands in both halves. -/
lemma expand_of_le {l : List α} (h : l.length ≤ 2 ^ d) : expand (d + 1) l = expand d l ++ expand d l := by
  rw [expand, if_pos h]

/-- A longer list is divided between the halves. -/
lemma expand_of_lt {l : List α} (h : 2 ^ d < l.length) :
    expand (d + 1) l = expand d (l.take (2 ^ d)) ++ expand d (l.drop (2 ^ d)) := by
  rw [expand, if_neg (Nat.not_le.2 h)]

/-- The left half of a longer list is not empty. -/
lemma take_ne_nil {l : List α} (h : 2 ^ d < l.length) : l.take (2 ^ d) ≠ [] := by
  rw [← List.length_pos_iff, List.length_take_of_le h.le]
  exact Nat.two_pow_pos d

/-- A function on the leaves passes through the expansion. -/
lemma expand_map (f : α → β) (d : Nat) (l : List α) : expand d (l.map f) = (expand d l).map f := by
  induction d generalizing l with
  | zero => rfl
  | succ d ih =>
    rcases Nat.lt_or_ge (2 ^ d) l.length with h | h
    · rw [expand_of_lt h, expand_of_lt (by simpa using h), ← List.map_take, ← List.map_drop, ih, ih,
        List.map_append]
    · rw [expand_of_le h, expand_of_le (by simpa using h), ih, List.map_append]

/-- Nothing is in the complete tree that is not in the list. -/
lemma mem_of_mem_expand {l : List α} {a : α} (h : a ∈ expand d l) : a ∈ l := by
  induction d generalizing l with
  | zero => exact h
  | succ d ih =>
    rcases Nat.lt_or_ge (2 ^ d) l.length with hlt | hle
    · rw [expand_of_lt hlt, List.mem_append] at h
      rcases h with h | h
      · exact List.mem_of_mem_take (ih h)
      · exact List.mem_of_mem_drop (ih h)
    · rw [expand_of_le hle, List.mem_append, or_self] at h
      exact ih h

/-- A complete tree of depth `d` has `2 ^ d` leaves. -/
lemma length_expand {l : List α} (hpos : l ≠ []) (hle : l.length ≤ 2 ^ d) :
    (expand d l).length = 2 ^ d := by
  induction d generalizing l with
  | zero =>
    have hlen := List.length_pos_iff.2 hpos
    simp only [expand, pow_zero] at hle ⊢
    omega
  | succ d ih =>
    rw [pow_succ] at hle ⊢
    rcases Nat.lt_or_ge (2 ^ d) l.length with h | h
    · have hright : 0 < (l.drop (2 ^ d)).length ∧ (l.drop (2 ^ d)).length ≤ 2 ^ d := by
        rw [List.length_drop]
        omega
      rw [expand_of_lt h, List.length_append, ih (take_ne_nil h) (List.length_take_le _ l),
        ih (List.length_pos_iff.1 hright.1) hright.2]
      omega
    · rw [expand_of_le h, List.length_append, ih hpos h]
      omega

/-- The list stands at the beginning of its complete tree. -/
lemma prefix_expand (d : Nat) (l : List α) : l <+: expand d l := by
  induction d generalizing l with
  | zero => exact List.prefix_refl l
  | succ d ih =>
    rcases Nat.lt_or_ge (2 ^ d) l.length with h | h
    · have hfull : l.take (2 ^ d) = expand d (l.take (2 ^ d)) := by
        apply (ih _).eq_of_length
        rw [length_expand (take_ne_nil h) (List.length_take_le _ l), List.length_take_of_le h.le]
      rw [expand_of_lt h, ← hfull]
      conv_lhs => rw [← List.take_append_drop (2 ^ d) l]
      exact (List.prefix_append_right_inj _).2 (ih _)
    · rw [expand_of_le h]
      exact (ih l).trans (List.prefix_append _ _)

/-- Lists of one length are the same if their complete trees are. -/
lemma eq_of_expand_eq {l l' : List α} (hlen : l.length = l'.length) (h : expand d l = expand d l') :
    l = l' := by
  have hl : l <+: expand d l' := h ▸ prefix_expand d l
  exact (List.prefix_of_prefix_length_le hl (prefix_expand d l') (Nat.le_of_eq hlen)).eq_of_length hlen

/-! ## Pairs of a level -/

/-- A level has half as many pairs as hashes, rounded up. -/
lemma length_pairs (l : List α) : (pairs l).length = (l.length + 1) / 2 := by
  fun_induction pairs l with
  | case1 => simp
  | case2 a => simp
  | case3 a b rest ih =>
    simp only [List.length_cons, ih]
    omega

/-- The pairs of two levels in a row, the first of even length, are those of each. -/
lemma pairs_append {l : List α} (heven : 2 ∣ l.length) (l' : List α) :
    pairs (l ++ l') = pairs l ++ pairs l' := by
  fun_induction pairs l with
  | case1 => rfl
  | case2 a => simp at heven
  | case3 a b rest ih =>
    have hrest : 2 ∣ rest.length := by
      simp only [List.length_cons] at heven
      omega
    simp [pairs, ih hrest]

/-- A level of even length can be told from its pairs. -/
lemma eq_of_pairs_eq {l l' : List α} (hl : 2 ∣ l.length) (hl' : 2 ∣ l'.length)
    (h : pairs l = pairs l') : l = l' := by
  fun_induction pairs l generalizing l' with
  | case1 =>
    cases l' with
    | nil => rfl
    | cons a l' => cases l' <;> simp [pairs] at h
  | case2 a => simp at hl
  | case3 a b rest ih =>
    match l', h with
    | [], h => simp [pairs] at h
    | [c], _ => simp at hl'
    | c :: e :: rest', h =>
      simp only [pairs, List.cons.injEq, Prod.mk.injEq] at h
      simp only [List.length_cons] at hl hl'
      rw [h.1.1, h.1.2, ih (by omega) (by omega) h.2]

/-- A level that is cut in even places is paired piece by piece. -/
lemma pairs_cut {k : Nat} {l : List α} (h : 2 * k ≤ l.length) :
    pairs (l.take (2 * k)) = (pairs l).take k ∧ pairs (l.drop (2 * k)) = (pairs l).drop k := by
  have hlen : (l.take (2 * k)).length = 2 * k := List.length_take_of_le h
  have hpairs : (pairs (l.take (2 * k))).length = k := by
    rw [length_pairs, hlen]
    omega
  have happend := pairs_append (hlen ▸ Nat.dvd_mul_right 2 k) (l.drop (2 * k))
  rw [List.take_append_drop] at happend
  rw [happend, List.take_left' hpairs, List.drop_left' hpairs]
  exact ⟨rfl, rfl⟩

/-- The expansion to a depth above zero has even length. -/
lemma even_length_expand {l : List α} (hle : l.length ≤ 2 ^ (d + 1)) :
    2 ∣ (expand (d + 1) l).length := by
  by_cases hpos : l = []
  · subst hpos
    have hempty : expand (d + 1) ([] : List α) = [] :=
      List.eq_nil_iff_forall_not_mem.2 fun a ha => List.not_mem_nil (mem_of_mem_expand ha)
    simp [hempty]
  · rw [length_expand hpos hle, pow_succ]
    exact Nat.dvd_mul_left 2 _

/-- The pairs of the leaves of a complete tree are the complete tree over the pairs. -/
lemma pairs_expand (d : Nat) (l : List α) : pairs (expand (d + 1) l) = expand d (pairs l) := by
  induction d generalizing l with
  | zero =>
    match l with
    | [] => rfl
    | [a] => rfl
    | a :: b :: rest =>
      rw [expand_of_lt (by simp)]
      rfl
  | succ d ih =>
    have hpow : 2 ^ (d + 1) = 2 * 2 ^ d := by rw [pow_succ, Nat.mul_comm]
    rcases Nat.lt_or_ge (2 ^ (d + 1)) l.length with h | h
    · have hpairs : 2 ^ d < (pairs l).length := by
        rw [length_pairs]
        omega
      obtain ⟨htake, hdrop⟩ := pairs_cut (k := 2 ^ d) (l := l) (by omega)
      have heven := even_length_expand (List.length_take_le (2 ^ (d + 1)) l)
      rw [expand_of_lt h, expand_of_lt hpairs, pairs_append heven, ih, ih, hpow, htake, hdrop]
    · have hpairs : (pairs l).length ≤ 2 ^ d := by
        rw [length_pairs]
        omega
      rw [expand_of_le h, expand_of_le hpairs, pairs_append (even_length_expand h), ih]

/-! ## Levels of hashes -/

/-- The string that is digested for a pair of neighbours. -/
def pairBytes (p : Hash × Hash) : Bytes := p.1.bytes ++ p.2.bytes

/-- Two pairs are digested as two strings. -/
lemma pairBytes_injective : Function.Injective pairBytes := by
  rintro ⟨a, b⟩ ⟨a', b'⟩ h
  obtain ⟨hleft, hright⟩ := List.append_inj h (by rw [a.length_bytes, a'.length_bytes])
  rw [Prod.mk.injEq]
  exact ⟨Hash.ext hleft, Hash.ext hright⟩

/-- The level above consists of the digests of the pairs. -/
lemma pairUp_eq (hs : List Hash) : pairUp hs = (pairs hs).map fun p => Digest.sha256 (pairBytes p) := by
  fun_induction pairs hs with
  | case1 => rfl
  | case2 a => rfl
  | case3 a b rest ih => rw [pairUp, ih]; rfl

/-- The level above is half as long, rounded up. -/
lemma length_pairUp (hs : List Hash) : (pairUp hs).length = (hs.length + 1) / 2 := by
  rw [pairUp_eq, List.length_map, length_pairs]

/-- The pairs that are digested on the way from a level to the hash that is left. -/
def digestedPairs : (levels : Nat) → List Hash → List (Hash × Hash)
  | _, [] => []
  | _, [_] => []
  | 0, _ :: _ => []
  | levels + 1, hs => pairs hs ++ digestedPairs levels (pairUp hs)

/-- One step of the reduction of a level with two hashes or more. -/
lemma top_succ {hs : List Hash} (h : 2 ≤ hs.length) (levels : Nat) :
    top (levels + 1) hs = top levels (pairUp hs) := by
  match hs, h with
  | _ :: _ :: _, _ => rfl

/-- The pairs of such a level come before those of the levels above. -/
lemma digestedPairs_succ {hs : List Hash} (h : 2 ≤ hs.length) (levels : Nat) :
    digestedPairs (levels + 1) hs = pairs hs ++ digestedPairs levels (pairUp hs) := by
  match hs, h with
  | _ :: _ :: _, _ => rfl

/-- Two lists that are mapped to the same one are the same, or two of their elements are different and
mapped to the same. -/
lemma eq_or_differ_of_map_eq {f : α → β} {l l' : List α} (h : l.map f = l'.map f) :
    l = l' ∨ ∃ x ∈ l, ∃ y ∈ l', x ≠ y ∧ f x = f y := by
  induction l generalizing l' with
  | nil => exact .inl (List.map_eq_nil_iff.1 h.symm).symm
  | cons a l ih =>
    cases l' with
    | nil => simp at h
    | cons a' l' =>
      simp only [List.map_cons, List.cons.injEq] at h
      by_cases ha : a = a'
      · rcases ih h.2 with rfl | ⟨x, hx, y, hy, hne⟩
        · exact .inl (by rw [ha])
        · exact .inr ⟨x, List.mem_cons_of_mem a hx, y, List.mem_cons_of_mem a' hy, hne⟩
      · exact .inr ⟨a, List.mem_cons_self, a', List.mem_cons_self, ha, h.1⟩

/-! ## Depths -/

/-- The depth of the tree over so many leaves: the least one with room for them. -/
abbrev IsDepth (n d : Nat) : Prop := IsLeast {e | n ≤ 2 ^ e} d

namespace IsDepth

variable {n : Nat}

/-- There is a tree with room for any number of leaves. -/
lemma exists_of (n : Nat) : ∃ d, IsDepth n d := by
  have hex : ∃ d, n ≤ 2 ^ d := ⟨n, Nat.le_of_lt Nat.lt_two_pow_self⟩
  exact ⟨Nat.find hex, Nat.find_spec hex, fun _ he => Nat.find_min' hex he⟩

/-- A tree is at most as deep as it has leaves. -/
lemma le_length (dep : IsDepth n d) : d ≤ n := dep.2 (Nat.le_of_lt Nat.lt_two_pow_self)

/-- A tree that is not a single leaf has at least two, and over its pairs it is one level lower. -/
lemma of_succ (dep : IsDepth n (d + 1)) : 2 ≤ n ∧ IsDepth ((n + 1) / 2) d := by
  have hle : n ≤ 2 * 2 ^ d := by
    rw [Nat.mul_comm, ← pow_succ]
    exact dep.1
  have hlt : 2 ^ d < n := Nat.lt_of_not_le fun h => Nat.not_succ_le_self d (dep.2 h)
  have hpos : 0 < 2 ^ d := Nat.two_pow_pos d
  refine ⟨by omega, ?_, fun e he => ?_⟩
  · rw [Set.mem_ofPred_eq]
    omega
  · rw [Set.mem_ofPred_eq] at he
    have hmore : n ≤ 2 ^ (e + 1) := by
      rw [pow_succ]
      omega
    exact Nat.le_of_succ_le_succ (dep.2 hmore)

end IsDepth

/-- The level above an expanded one is the expansion of the level above. -/
lemma pairUp_expand (d : Nat) (hs : List Hash) :
    pairUp (expand (d + 1) hs) = expand d (pairUp hs) := by
  rw [pairUp_eq, pairUp_eq, pairs_expand, expand_map]

/-- Above a level with a hash there is one with a hash. -/
lemma pairUp_ne_nil {hs : List Hash} (hpos : hs ≠ []) : pairUp hs ≠ [] := by
  rw [← List.length_pos_iff] at hpos ⊢
  rw [length_pairUp]
  omega

/-- The hash that is left of a level is the one that is left of its complete tree. -/
lemma top_eq_top_expand {hs : List Hash} {levels : Nat} (hpos : hs ≠ []) (dep : IsDepth hs.length d)
    (hlevels : d ≤ levels) : top levels hs = top d (expand d hs) := by
  induction d generalizing hs levels with
  | zero =>
    have hle : hs.length ≤ 1 := dep.1
    match hs with
    | [a] => cases levels <;> rfl
  | succ d ih =>
    obtain ⟨levels, rfl⟩ := Nat.exists_eq_add_of_le' (Nat.zero_lt_of_lt hlevels)
    obtain ⟨htwo, dep'⟩ := dep.of_succ
    have hfull : 2 ≤ (expand (d + 1) hs).length := by
      rw [length_expand hpos dep.1, pow_succ]
      exact Nat.le_mul_of_pos_left 2 (Nat.two_pow_pos d)
    rw [top_succ htwo, top_succ hfull, pairUp_expand]
    rw [← length_pairUp] at dep'
    exact ih (pairUp_ne_nil hpos) dep' (Nat.le_of_succ_le_succ hlevels)

/-! ## Collisions -/

/-- A string among the first and another one among the second that have the same digest. -/
def Collide (xs ys : List Bytes) : Prop :=
  ∃ x ∈ xs, ∃ y ∈ ys, x ≠ y ∧ Digest.sha256 x = Digest.sha256 y

/-- A collision stays one among more strings. -/
lemma Collide.mono {xs xs' ys ys' : List Bytes} (h : Collide xs ys) (hx : xs ⊆ xs') (hy : ys ⊆ ys') :
    Collide xs' ys' := by
  obtain ⟨x, hxs, y, hys, hne, heq⟩ := h
  exact ⟨x, hx hxs, y, hy hys, hne, heq⟩

/-- Complete trees of one depth whose levels leave the same hash are the same, unless two of the strings
that are digested on the way collide. -/
lemma expand_eq_or_collide {hs gs : List Hash} {levels levels' : Nat} (hhs : hs ≠ []) (hgs : gs ≠ [])
    (dep : IsDepth hs.length d) (dep' : IsDepth gs.length d) (hlevels : d ≤ levels)
    (hlevels' : d ≤ levels') (htop : top levels hs = top levels' gs) :
    expand d hs = expand d gs ∨
      Collide ((digestedPairs levels hs).map pairBytes) ((digestedPairs levels' gs).map pairBytes) := by
  -- From the top down: what is the same on one level has the same pairs below it, or they collide.
  induction d generalizing hs gs levels levels' with
  | zero =>
    have hle : hs.length ≤ 1 := dep.1
    have hle' : gs.length ≤ 1 := dep'.1
    match hs, gs with
    | [a], [b] =>
      left
      have hab : a = b := by cases levels <;> cases levels' <;> exact htop
      rw [hab]
  | succ d ih =>
    obtain ⟨levels, rfl⟩ := Nat.exists_eq_add_of_le' (Nat.zero_lt_of_lt hlevels)
    obtain ⟨levels', rfl⟩ := Nat.exists_eq_add_of_le' (Nat.zero_lt_of_lt hlevels')
    obtain ⟨htwo, up⟩ := dep.of_succ
    obtain ⟨htwo', up'⟩ := dep'.of_succ
    rw [← length_pairUp] at up up'
    rw [top_succ htwo, top_succ htwo'] at htop
    rw [digestedPairs_succ htwo, digestedPairs_succ htwo', List.map_append, List.map_append]
    have habove := ih (pairUp_ne_nil hhs) (pairUp_ne_nil hgs) up up' (Nat.le_of_succ_le_succ hlevels)
      (Nat.le_of_succ_le_succ hlevels') htop
    rcases habove with hsame | hcollide
    · rw [pairUp_eq, pairUp_eq, expand_map, expand_map] at hsame
      rcases eq_or_differ_of_map_eq hsame with hpairs | ⟨p, hp, q, hq, hne, hdigest⟩
      · left
        rw [← pairs_expand, ← pairs_expand] at hpairs
        exact eq_of_pairs_eq (even_length_expand dep.1) (even_length_expand dep'.1) hpairs
      · right
        refine ⟨pairBytes p, ?_, pairBytes q, ?_, pairBytes_injective.ne hne, hdigest⟩
        · exact List.mem_append_left _ (List.mem_map_of_mem (mem_of_mem_expand hp))
        · exact List.mem_append_left _ (List.mem_map_of_mem (mem_of_mem_expand hq))
    · right
      exact hcollide.mono (List.subset_append_right _ _) (List.subset_append_right _ _)

/-- The strings that are digested on the way to a root: the texts of the transactions, then the pairs of
hashes level by level. -/
def digested (ts : List Transaction) : List Bytes :=
  ts.map leafBytes ++ (digestedPairs ts.length (ts.map leaf)).map pairBytes

/-- The first two different strings on the way to two roots that have the same digest. -/
def collision? (ts us : List Transaction) : Option (Bytes × Bytes) :=
  ((digested ts).product (digested us)).find? fun (x, y) => x ≠ y ∧ Digest.sha256 x = Digest.sha256 y

/-- If two strings on the way to two roots collide, a search among them exhibits two that do. -/
lemma exists_collision? {ts us : List Transaction} (h : Collide (digested ts) (digested us)) :
    ∃ x ∈ digested ts, ∃ y ∈ digested us,
      collision? ts us = some (x, y) ∧ x ≠ y ∧ Digest.sha256 x = Digest.sha256 y := by
  obtain ⟨x, hx, y, hy, hne, hdigest⟩ := h
  cases hfind : collision? ts us with
  | none =>
    have hnot := List.find?_eq_none.1 hfind (x, y) (List.pair_mem_product.2 ⟨hx, hy⟩)
    simp [hne, hdigest] at hnot
  | some found =>
    obtain ⟨x', y'⟩ := found
    obtain ⟨hx', hy'⟩ := List.pair_mem_product.1 (List.mem_of_find?_eq_some hfind)
    have hcollides := List.find?_some hfind
    simp only [decide_eq_true_eq] at hcollides
    exact ⟨x', hx', y', hy', rfl, hcollides⟩

/-- Two transactions have two texts. -/
lemma leafBytes_injective : Function.Injective leafBytes := Transaction.roundTrips.print_injective

/-- The root is that of the complete tree. -/
lemma root_eq_top_expand {ts : List Transaction} (hpos : ts ≠ []) (dep : IsDepth ts.length d) :
    root ts = top d ((expand d ts).map leaf) := by
  have hleaves : IsDepth (ts.map leaf).length d := by rwa [List.length_map]
  rw [root, top_eq_top_expand (by simpa using hpos) hleaves dep.le_length, expand_map]

/-- Two lists with the same root have the same complete tree, or digested strings collide. -/
lemma expand_eq_or_collide_of_root_eq {ts us : List Transaction} (hts : ts ≠ []) (hus : us ≠ [])
    (dep : IsDepth ts.length d) (dep' : IsDepth us.length d) (h : root ts = root us) :
    expand d ts = expand d us ∨ Collide (digested ts) (digested us) := by
  have hleaves : IsDepth (ts.map leaf).length d := by rwa [List.length_map]
  have hleaves' : IsDepth (us.map leaf).length d := by rwa [List.length_map]
  have hsame := expand_eq_or_collide (by simpa using hts) (by simpa using hus) hleaves hleaves'
    dep.le_length dep'.le_length h
  rcases hsame with hsame | hcollide
  · rw [expand_map, expand_map] at hsame
    rcases eq_or_differ_of_map_eq hsame with hexpand | ⟨t, ht, u, hu, hne, hdigest⟩
    · exact .inl hexpand
    · right
      refine ⟨leafBytes t, ?_, leafBytes u, ?_, leafBytes_injective.ne hne, hdigest⟩
      · exact List.mem_append_left _ (List.mem_map_of_mem (mem_of_mem_expand ht))
      · exact List.mem_append_left _ (List.mem_map_of_mem (mem_of_mem_expand hu))
  · right
    exact hcollide.mono (List.subset_append_right _ _) (List.subset_append_right _ _)

/-- A Merkle root commits to the complete tree over the transactions: of two lists whose trees are equally
deep, those with the same complete tree have the same root, and those with the same root have the same
complete tree or exhibit two strings with the same digest. Lists of one length with the same root are
the same or exhibit two such strings. -/
theorem root_commits (ts us : List Transaction) (hts : ts ≠ []) (hus : us ≠ []) :
    let collides := ∃ x ∈ digested ts, ∃ y ∈ digested us,
      collision? ts us = some (x, y) ∧ x ≠ y ∧ Digest.sha256 x = Digest.sha256 y
    (∀ d, IsDepth ts.length d → IsDepth us.length d →
      (expand d ts = expand d us → root ts = root us) ∧
      (root ts = root us → expand d ts = expand d us ∨ collides)) ∧
    (ts.length = us.length → root ts = root us → ts = us ∨ collides) := by
  intro collides
  constructor
  · intro d dep dep'
    constructor
    · intro h
      rw [root_eq_top_expand hts dep, root_eq_top_expand hus dep', h]
    · intro h
      exact (expand_eq_or_collide_of_root_eq hts hus dep dep' h).imp_right exists_collision?
  · intro hlen h
    obtain ⟨d, dep⟩ := IsDepth.exists_of ts.length
    have hsame := expand_eq_or_collide_of_root_eq hts hus dep (hlen ▸ dep) h
    exact hsame.imp (eq_of_expand_eq hlen) exists_collision?

/-- Three transactions and the same with the last one twice have the same root. -/
theorem root_commits_three :
    let t := fun amount : UInt64 =>
      ({ sender := "alice", receiver := "bob", amount, timestamp := 5 } : Transaction)
    root [t 1, t 2, t 3] = root [t 1, t 2, t 3, t 3] := by
  intro t
  have hdepth : ∀ n, 2 < n → n ≤ 4 → IsDepth n 2 := by
    intro n hlow hhigh
    refine ⟨hhigh, fun e he => ?_⟩
    by_contra hlt
    have hpow : 2 ^ e ≤ 2 ^ 1 := Nat.pow_le_pow_right (by decide) (by omega)
    exact absurd (Nat.le_trans he hpow) (by omega)
  obtain ⟨same, -⟩ := root_commits [t 1, t 2, t 3] [t 1, t 2, t 3, t 3] (by simp) (by simp)
  exact (same 2 (hdepth 3 (by decide) (by decide)) (hdepth 4 (by decide) (by decide))).1 rfl

end ChainSync.Merkle
