import ChainSync.Proofs.Canonical
import ChainSync.Proofs.Segment.Path

/-!
# Chains along a path

A chain `Shares` a path up to a height if it has the headers of the path below the height and no others
of the path, whatever else it has. It is `Along` the path if it has no other blocks; then it takes the
block at the height. Every chain shares a path from genesis up to some height (`Holds.exists_shares`),
and the headers of a chain up to a block are such a path.
-/

namespace ChainSync.Chain

variable {c : Chain} {bs : List Block} {b : Block} {hash : Hash}

/-- A chain has the blocks of a path below a height. -/
def Along (c : Chain) (path : List Header) (k : Nat) : Prop :=
  ∃ bs, c.Holds bs ∧ bs.map (·.header) = path.take k ∧ bs.length = k

/-- Of a path a chain has the headers below a height. -/
structure Shares (c : Chain) (path : List Header) (k : Nat) : Prop where
  pos : 0 < k
  found : ∀ {i : Nat} {h : Header}, path[i]? = some h → i < k → c.header? h.hash = .ok (some h)
  absent : ∀ {i : Nat} {h : Header}, path[i]? = some h → k ≤ i → c.header? h.hash = .ok none

/-- Two chains tell the same of the tip, of every number and of every hash. -/
structure Alike (c c' : Chain) : Prop where
  tip : c.tip = c'.tip
  hashAt? : ∀ number, c.hashAt? number = c'.hashAt? number
  header? : ∀ hash, c.header? hash = c'.header? hash

namespace Along

variable {U : Set Header} {path : List Header} {i k : Nat} {h : Header}

/-- A chain does not reach beyond a path that it is along. -/
lemma le (along : c.Along path k) : k ≤ path.length := by
  obtain ⟨bs, -, hbs, hlen⟩ := along
  have e := congrArg List.length hbs
  rw [List.length_map, List.length_take, hlen] at e
  omega

/-- A chain along a path has its first header. -/
lemma pos (along : c.Along path k) : 0 < k := by
  obtain ⟨bs, hold, -, rfl⟩ := along
  exact List.length_pos_of_ne_nil hold.ne_nil

/-- A chain along a path has its headers below the height. -/
lemma header?_of_lt (along : c.Along path k) (hh : path[i]? = some h) (hi : i < k) :
    c.header? h.hash = .ok (some h) := by
  obtain ⟨bs, hold, hbs, -⟩ := along
  have hmem : h ∈ bs.map (·.header) := by
    rw [hbs, List.mem_take_iff_getElem]
    obtain ⟨hlt, rfl⟩ := List.getElem?_eq_some_iff.1 hh
    exact ⟨i, by omega, rfl⟩
  obtain ⟨b, hb, rfl⟩ := List.mem_map.1 hmem
  exact hold.header?_of_mem hb

/-- A chain along a path has no other headers than those below the height. -/
lemma header?_of_not_mem (along : c.Along path k) (hne : ∀ h ∈ path.take k, h.hash ≠ hash) :
    c.header? hash = .ok none := by
  obtain ⟨bs, hold, hbs, -⟩ := along
  rw [hold.header?_eq_none_iff]
  intro b hb
  apply hne b.header
  rw [← hbs]
  exact List.mem_map_of_mem hb

/-- The chain does not have what is on the path from the height on. -/
lemma header?_of_le (along : c.Along path k) (way : Segment.Path U path) (co : Coherent U)
    (hh : path[i]? = some h) (hi : k ≤ i) : c.header? h.hash = .ok none := by
  apply along.header?_of_not_mem
  intro h' hh'
  exact (way.hash_ne co hh' (Segment.OnPath.mem_drop hh hi)).symm

/-- A chain along a path shares it up to the same height. -/
lemma shares (along : c.Along path k) (way : Segment.Path U path) (co : Coherent U) :
    c.Shares path k where
  pos := along.pos
  found := along.header?_of_lt
  absent := along.header?_of_le way co

/-- The chain takes the block at the height. -/
lemma append (along : c.Along path k) (way : Segment.Path U path) (co : Coherent U)
    (hb : path[k]? = some b.header) (hsized : b.Sized) :
    ∃ c', c.append b = .ok c' ∧ c'.Along path (k + 1) := by
  have hnone := along.header?_of_le way co hb (Nat.le_refl k)
  obtain ⟨bs, hold, hbs, hlen⟩ := along
  have next : Holds.IsNext bs b := by
    refine ⟨?_, (way.number hb).trans hlen.symm⟩
    intro t ht
    rw [List.getLast?_eq_getElem?] at ht
    obtain ⟨i, rfl⟩ : ∃ i, k = i + 1 :=
      Nat.exists_eq_add_of_le' (hlen ▸ List.length_pos_of_ne_nil hold.ne_nil)
    -- the tip is the header below the height
    have hbelow : path[i]? = some t.header := by
      have e : (bs.map (·.header))[i]? = (path.take (i + 1))[i]? := by rw [hbs]
      rw [List.getElem?_map, List.getElem?_take_of_lt (Nat.lt_succ_self i)] at e
      rw [hlen, Nat.add_sub_cancel] at ht
      rw [← e, ht]
      rfl
    exact (way.precedes hbelow hb).parent
  have hlt := (List.getElem?_eq_some_iff.1 hb).1
  have hbound := way.length_lt
  refine ⟨c.put b, hold.append_eq_ok_iff.2 ⟨next, rfl⟩, bs ++ [b], ?_, ?_, ?_⟩
  · apply hold.put next hsized (by omega)
    intro b' hb' e
    exact absurd e (hold.header?_eq_none_iff.1 hnone b' hb')
  · rw [List.map_append, hbs, List.take_add_one, hb]
    rfl
  · rw [List.length_append, hlen]
    rfl

/-- The tip of a chain along a path is the last header below the height. -/
lemma tip (along : c.Along path (i + 1)) (hh : path[i]? = some h) :
    c.tip = .ok (h.number, some h.hash) := by
  obtain ⟨bs, hold, hbs, hlen⟩ := along
  have hat : (bs.map (·.header))[i]? = some h := by
    rw [hbs, List.getElem?_take_of_lt (Nat.lt_succ_self i), hh]
  rw [List.getElem?_map, Option.map_eq_some_iff] at hat
  obtain ⟨b, hb, rfl⟩ := hat
  have ht : bs.getLast? = some b := by
    rw [List.getLast?_eq_getElem?, hlen]
    exact hb
  exact (hold.inStep ht).tip

/-- A chain along a path has under each number the hash of the header at that place. -/
lemma hashAt?_eq (along : c.Along path k) (number : UInt64) :
    c.hashAt? number = .ok ((path.take k)[number.toNat]?.map (·.hash)) := by
  obtain ⟨bs, hold, hbs, -⟩ := along
  rw [← hbs, List.getElem?_map, Option.map_map]
  simp only [hashAt?, hold.block?_eq, bind, Except.bind, pure, Except.pure]
  rfl

/-- Chains along a path up to the same height tell the same of every header. -/
lemma alike {c' : Chain} (along : c.Along path k) (along' : c'.Along path k) : c.Alike c' where
  tip := by
    have hle := along.le
    obtain ⟨i, hi⟩ := Nat.exists_eq_add_of_le' along.pos
    have hh : path[i]? = some path[i] := List.getElem?_eq_getElem (by omega)
    rw [hi] at along along'
    rw [along.tip hh, along'.tip hh]
  hashAt? number := by rw [along.hashAt?_eq, along'.hashAt?_eq]
  header? hash := by
    by_cases hmem : ∃ h ∈ path.take k, h.hash = hash
    · obtain ⟨h, hh, rfl⟩ := hmem
      obtain ⟨i, hi, rfl⟩ := List.mem_take_iff_getElem.1 hh
      have hat : path[i]? = some path[i] := List.getElem?_eq_getElem (by omega)
      rw [along.header?_of_lt hat (by omega), along'.header?_of_lt hat (by omega)]
    · push Not at hmem
      rw [along.header?_of_not_mem hmem, along'.header?_of_not_mem hmem]

end Along

/-- A chain whose headers are all on a path is along the path. -/
lemma Holds.along {U : Set Header} {path : List Header} (hold : c.Holds bs)
    (way : Segment.Path U path) (hbs : ∀ b ∈ bs, b.header ∈ path) : c.Along path bs.length := by
  refine ⟨bs, hold, ?_, rfl⟩
  apply List.ext_getElem?
  intro i
  by_cases hi : i < bs.length
  · have hb := List.getElem?_eq_getElem hi
    obtain ⟨j, hj⟩ := List.mem_iff_getElem?.1 (hbs bs[i] (List.getElem_mem hi))
    obtain rfl : i = j := (hold.number hb).symm.trans (way.number hj)
    rw [List.getElem?_map, hb, List.getElem?_take_of_lt hi, hj]
    rfl
  · rw [List.getElem?_eq_none (by simpa using hi), List.getElem?_eq_none]
    rw [List.length_take]
    omega

/-- A chain that has a header of a path has the one below it. -/
lemma Holds.hash_mem_below {U : Set Header} {path : List Header} {h f : Header} {i : Nat}
    (hold : c.Holds bs) (hbs : ∀ b ∈ bs, b.header ∈ U) (way : Segment.Path U path) (co : Coherent U)
    (hh : path[i]? = some h) (hf : path[i + 1]? = some f) (hmem : f.hash ∈ bs.map Block.hash) :
    h.hash ∈ bs.map Block.hash := by
  obtain ⟨b, hb, hhash⟩ := List.mem_map.1 hmem
  have hheader : b.header = f := co.eq_of_hash (hbs b hb) (way.known f (List.mem_of_getElem? hf)) hhash
  rcases hold.parent_mem hb with rfl | ⟨p, hp, hparent, -⟩
  · have hnum := way.number hf
    rw [← hheader] at hnum
    cases hnum
  · rw [hheader, (way.precedes hh hf).parent] at hparent
    rw [hparent]
    exact List.mem_map_of_mem hp

/-- Every chain shares a path from genesis up to some height. -/
lemma Holds.exists_shares {U : Set Header} {path : List Header} (hold : c.Holds bs)
    (hbs : ∀ b ∈ bs, b.header ∈ U) (way : Segment.Path U path) (co : Coherent U)
    (hbegin : path[0]? = some Block.genesis.header) : ∃ k, c.Shares path k := by
  classical
  -- the height is that of the first header that the chain does not have
  have hends : ∃ i, ∀ h : Header, path[i]? = some h → h.hash ∉ bs.map Block.hash :=
    ⟨path.length, by simp⟩
  refine ⟨Nat.find hends, ?_, ?_, ?_⟩
  · rw [Nat.find_pos]
    intro hnone
    have hmem := List.mem_of_mem_head? hold.genesis
    exact hnone _ hbegin (List.mem_map_of_mem hmem)
  · intro i h hh hi
    have hsome := Nat.find_min hends hi
    simp only [hh, Option.some.injEq, forall_eq', not_not] at hsome
    obtain ⟨b, hb, hhash⟩ := List.mem_map.1 hsome
    have hheader : b.header = h := co.eq_of_hash (hbs b hb) (way.known h (List.mem_of_getElem? hh)) hhash
    rw [← hheader]
    exact hold.header?_of_mem hb
  · intro i h hh hi
    suffices hlacks : h.hash ∉ bs.map Block.hash from
      hold.header?_eq_none_iff.2 fun b hb e => hlacks (List.mem_map.2 ⟨b, hb, e⟩)
    induction i, hi using Nat.le_induction generalizing h with
    | base => exact Nat.find_spec hends h hh
    | succ i hi ih =>
      have hlt := (List.getElem?_eq_some_iff.1 hh).1
      have hbelow : path[i]? = some path[i] := List.getElem?_eq_getElem (by omega)
      exact mt (hold.hash_mem_below hbs way co hbelow hh) (ih hbelow)

/-- The headers of a chain up to a block. -/
abbrev pathTo (R : List Block) (b : Block) : List Header :=
  (R.take (b.number.toNat + 1)).map (·.header)

namespace Holds

variable {r : Chain} {L R : List Block} {U : Set Header} {B P t : Block}

/-- The headers of a chain up to one of its blocks are a path from genesis. -/
lemma path (hold : r.Holds R) (hR : ∀ b ∈ R, b.header ∈ U) (P : Block) :
    Segment.Path U (pathTo R P) where
  lineage := by
    rw [pathTo, List.map_take]
    exact hold.lineage.take _
  known := by
    intro h hh
    obtain ⟨b, hb, rfl⟩ := List.mem_map.1 hh
    exact hR b (List.mem_of_mem_take hb)
  sized := by
    intro h hh
    obtain ⟨b, hb, rfl⟩ := List.mem_map.1 hh
    exact (hold.sized b (List.mem_of_mem_take hb)).header
  number := by
    intro i h hi
    rw [List.getElem?_map, Option.map_eq_some_iff] at hi
    obtain ⟨b, hb, rfl⟩ := hi
    rw [List.getElem?_take] at hb
    split_ifs at hb
    exact hold.number hb
  root := by
    intro h hh
    rw [List.head?_map, Option.mem_def, Option.map_eq_some_iff] at hh
    obtain ⟨b, hb, rfl⟩ := hh
    rw [List.head?_take, if_neg (Nat.succ_ne_zero _)] at hb
    cases hold.genesis.symm.trans hb
    rfl
  length_lt := by
    have hlt := hold.length_lt
    rw [List.length_map, List.length_take]
    omega

/-- The path to a block ends at it. -/
lemma getLast?_path (hold : r.Holds R) (hP : P ∈ R) : (pathTo R P).getLast? = some P.header := by
  rw [List.getLast?_map, List.getLast?_take, if_neg (Nat.succ_ne_zero _), Nat.add_sub_cancel,
    hold.getElem?_number hP]
  rfl

/-- The path to a block begins with genesis. -/
lemma head_path (hold : r.Holds R) : (pathTo R P)[0]? = some Block.genesis.header := by
  rw [List.getElem?_map, List.getElem?_take_of_lt (Nat.succ_pos _), ← List.head?_eq_getElem?,
    hold.genesis]
  rfl

/-- A block stands at its number on the path to any block that is not below it. -/
lemma getElem?_path (hold : r.Holds R) (hB : B ∈ R) (hle : B.number.toNat ≤ P.number.toNat) :
    (pathTo R P)[B.number.toNat]? = some B.header := by
  rw [List.getElem?_map, List.getElem?_take_of_lt (by omega), hold.getElem?_number hB]
  rfl

/-- The path to a block has one header more than its number says. -/
lemma length_path (hold : r.Holds R) (hP : P ∈ R) : (pathTo R P).length = P.number.toNat + 1 := by
  have hlt := (List.getElem?_eq_some_iff.1 (hold.getElem?_number hP)).1
  rw [List.length_map, List.length_take]
  omega

/-- A segment that is anchored over empty tables is the end of the path to its block. -/
lemma onPath_trust (hold : r.Holds R) (hR : ∀ b ∈ R, b.header ∈ U) (co : Coherent U) (hP : P ∈ R) :
    Segment.OnPath Segment.empty U (pathTo R P) P.number.toNat P.number.toNat
      ((Segment.trust P).exec Segment.empty).2 := by
  have stock : Segment.Stocked Segment.empty Segment.empty U
      ((pathTo R P).drop (pathTo R P).length) := by
    rw [List.drop_length]
    exact { Segment.Lists.empty with rows := .empty, height_lt := nofun }
  have on := Segment.OnPath.trust (hold.path hR P) co stock (hold.getLast?_path hP) (hold.sized P hP)
  rwa [hold.length_path hP, Nat.add_sub_cancel, Nat.min_eq_right (Nat.le_succ _)] at on

/-- The path to a block consists of headers of the chain. -/
lemma mem_of_mem_path {h : Header} (hh : h ∈ pathTo R P) : ∃ b ∈ R, b.header = h := by
  obtain ⟨b, hb, rfl⟩ := List.mem_map.1 hh
  exact ⟨b, List.mem_of_mem_take hb, rfl⟩

/-- A chain whose tip is an ancestor of a block is on the path to the block. -/
lemma header_mem_path (hold : c.Holds L) (hL : ∀ b ∈ L, b.header ∈ U) (honest : r.Holds R)
    (hR : ∀ b ∈ R, b.header ∈ U) (co : Coherent U) (hzero : ∀ h ∈ U, h.hash ≠ Hash.zero)
    (ht : L.getLast? = some t) (hb : b ∈ R) (hhash : b.hash = t.hash) (hle : b.number ≤ P.number) :
    ∀ b' ∈ L, b'.header ∈ pathTo R P := by
  have hheader : t.header = b.header :=
    co.eq_of_hash (hL t (List.mem_of_getLast? ht)) (hR b hb) hhash.symm
  have hlast : (L.map (·.header)).getLast? = (pathTo R b).getLast? := by
    rw [honest.getLast?_path hb, List.getLast?_map, ht, ← hheader]
    rfl
  have hknown : ∀ h ∈ L.map (·.header), h ∈ U := by
    intro h hh
    obtain ⟨b', hb', rfl⟩ := List.mem_map.1 hh
    exact hL b' hb'
  have hsuffix := (honest.path hR b).suffix co hzero hold.lineage hknown hlast
  have hsub : R.take (b.number.toNat + 1) ⊆ R.take (P.number.toNat + 1) :=
    List.take_subset_take_left R (Nat.succ_le_succ (UInt64.le_iff_toNat_le.1 hle))
  intro b' hb'
  exact List.map_subset _ hsub (hsuffix.subset (List.mem_map_of_mem hb'))

end Holds

end ChainSync.Chain
