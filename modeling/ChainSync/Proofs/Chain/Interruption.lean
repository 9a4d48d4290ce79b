import ChainSync.Chain
import ChainSync.Proofs.Canonical

/-!
# Puts that are interrupted

Putting a block takes four writes, and a crash may come between any two of them. What is left should be
of use: every header that is found is on the chain that ends at the tip (`OnTip`), and the block either
is the tip or can be appended once more, as if nothing had happened (`Recovers`).

This is so before the second write and after the last one. Between them it is not so on any chain
(`recovers_cut_iff`): after the second write the block is found, although it is above the tip, and after
the third one the height of the tip is that of the block while its hash is still that of the parent, so
the block is refused for good.
-/

namespace ChainSync.Chain

variable {c c' left : Chain} {bs : List Block} {b b' t : Block} {h : Header} {hash : Hash} {k : Nat}

/-- The chain after the first writes of a put. -/
def cut (c : Chain) (b : Block) (k : Nat) : Chain := ((writes b).take k).foldl write c

/-- The headers on the chain that ends at the tip: that of the tip, and what stands below one of them. -/
inductive OnTip (c : Chain) : Header → Prop where
  | tip {hash : Hash} {h : Header} (tip : c.tipHash? = .ok (some hash))
      (found : c.header? hash = .ok (some h)) : OnTip c h
  | parent {h p : Header} (above : OnTip c h) (found : c.below? h = .ok (some p)) : OnTip c p

/-- What is left of a chain `c` is of use, after a put of `b` was interrupted that would have made it
`c'`: nothing is found beside the chain that ends at the tip, and either `b` is the tip, or the tip is
that of `c` and appending `b` leads to `c'` all the same. -/
structure Recovers (c : Chain) (b : Block) (c' left : Chain) : Prop where
  found : ∀ hash h, left.header? hash = .ok (some h) → left.OnTip h
  tip : left.tip = .ok (b.number, some b.hash) ∨ left.tip = c.tip ∧ left.append b = .ok c'

/-! ## The tables after some writes -/

/-- The first write of a put is that of the block. -/
lemma cut_blocks (c : Chain) (b : Block) (k : Nat) :
    (c.cut b k).blocks =
      if k = 0 then c.blocks else c.blocks.insert (Bytes.be64 b.number) (Stored.toBytes b) := by
  match k with
  | 0 | 1 | 2 | 3 => rfl
  | k + 4 => simp [cut, writes, write]

/-- The second write is that of the index. -/
lemma cut_index (c : Chain) (b : Block) (k : Nat) :
    (c.cut b k).index =
      if k < 2 then c.index else c.index.insert b.hash.bytes (Bytes.be64 b.number) := by
  match k with
  | 0 | 1 | 2 | 3 => rfl
  | k + 4 => simp [cut, writes, write]

/-- All four writes are the put. -/
lemma cut_eq_put (c : Chain) (b : Block) (hk : 4 ≤ k) : c.cut b k = c.put b := by
  rw [cut, put, List.take_of_length_le (by exact hk)]

/-- The first two writes leave the tip. -/
lemma tip_cut (c : Chain) (b : Block) (hk : k < 3) : (c.cut b k).tip = c.tip := by
  match k with
  | 0 | 1 | 2 => rfl

/-- The hash of the tip is written last. -/
lemma tipHash?_cut (c : Chain) (b : Block) (hk : k < 4) : (c.cut b k).tipHash? = c.tipHash? := by
  match k with
  | 0 | 1 | 2 => rfl
  | 3 =>
    have hne : compare tipHeightKey tipHashKey ≠ .eq := by simp [tipHashKey_ne.symm]
    simp only [tipHash?, cut, writes, List.take, List.foldl, write, Std.ExtTreeMap.getElem?_insert,
      if_neg hne]

/-- The first writes of a put are made good by the whole put. -/
lemma put_cut (c : Chain) (b : Block) (hk : k < 3) : (c.cut b k).put b = c.put b := by
  have twice : ∀ (m : ByteMap) (key row : Bytes),
      (m.insert key row).insert key row = m.insert key row := by
    intro m key row
    ext1 key'
    simp only [Std.ExtTreeMap.getElem?_insert]
    split_ifs <;> rfl
  match k with
  | 0 => rfl
  | 1 | 2 => simp [cut, writes, write, put, twice]

/-- A chain with its old tip takes a block as before. -/
lemma append_cut (c : Chain) (b : Block) (hk : k < 3) : (c.cut b k).append b = c.append b := by
  simp only [append, tip_cut c b hk, put_cut c b hk]

/-- A put makes the number of the block the tip height. -/
lemma tipHeight_put (c : Chain) (b : Block) : (c.put b).tipHeight = .ok b.number := by
  have hne : compare tipHashKey tipHeightKey ≠ .eq := by simp [tipHashKey_ne]
  rw [tipHeight, put_markers, Std.ExtTreeMap.getElem?_insert, if_neg hne,
    Std.ExtTreeMap.getElem?_insert_self]
  simp

/-- A put makes the hash of the block the tip hash. -/
lemma tipHash?_put (c : Chain) (b : Block) : (c.put b).tipHash? = .ok (some b.hash) := by
  rw [tipHash?, put_markers, Std.ExtTreeMap.getElem?_insert_self]
  simp

/-- A put makes the block the tip. -/
lemma tip_put (c : Chain) (b : Block) : (c.put b).tip = .ok (b.number, some b.hash) := by
  simp only [tip, tipHeight_put, tipHash?_put, bind, Except.bind, pure, Except.pure]

/-! ## What is found after some writes -/

namespace Holds

/-- The tip is the last block. -/
lemma exists_tip (hold : c.Holds bs) : ∃ t, bs.getLast? = some t ∧ c.tipHash? = .ok (some t.hash) := by
  obtain ⟨t, ht⟩ := Option.ne_none_iff_exists'.1 (List.getLast?_eq_none_iff.not.2 hold.ne_nil)
  refine ⟨t, ht, ?_⟩
  rw [hold.tables, tipHash?_ofBlocks, ht, Option.map_some]

/-- No block of a chain has the number of the next one. -/
lemma number_ne (hold : c.Holds bs) (next : IsNext bs b) (hb' : b' ∈ bs) : b'.number ≠ b.number := by
  have hlt := (List.getElem?_eq_some_iff.1 (hold.getElem?_number hb')).1
  have hnum := next.number
  intro e
  rw [e] at hlt
  omega

/-- A hash whose entry in the index is not written leads to the block that it led to before. -/
lemma header?_cut (hold : c.Holds bs) (next : IsNext bs b)
    (hrow : (c.cut b k).index[hash.bytes]? = c.index[hash.bytes]?) :
    (c.cut b k).header? hash = c.header? hash := by
  simp only [header?, blockByHash?, hrow]
  cases hentry : c.index[hash.bytes]? with
  | none => rfl
  | some row =>
    obtain ⟨b', hb', -, rfl⟩ := hold.index_eq_some_iff.1 hentry
    have hne : Bytes.be64 b.number ≠ Bytes.be64 b'.number := by
      simpa using (hold.number_ne next hb').symm
    have hblocks : (c.cut b k).blocks[Bytes.be64 b'.number]? = c.blocks[Bytes.be64 b'.number]? := by
      rw [cut_blocks]
      split_ifs
      · rfl
      · rw [Std.ExtTreeMap.getElem?_insert, if_neg (by simpa using hne)]
    simp only [readNumber_be64, bind, Except.bind, block?, hblocks]

/-- Other hashes are found as before, however the put was cut. -/
lemma header?_cut_of_ne (hold : c.Holds bs) (next : IsNext bs b) (hne : hash ≠ b.hash) :
    (c.cut b k).header? hash = c.header? hash := by
  apply hold.header?_cut next
  rw [cut_index]
  split_ifs
  · rfl
  · rw [Std.ExtTreeMap.getElem?_insert, if_neg (by simpa using hne.symm)]

/-- Before the index is written, all hashes are found as before. -/
lemma header?_cut_of_lt (hold : c.Holds bs) (next : IsNext bs b) (hk : k < 2) :
    (c.cut b k).header? hash = c.header? hash := by
  apply hold.header?_cut next
  rw [cut_index, if_pos hk]

/-- If what is left has the blocks of a chain and ends in one of the headers above them, all of them are
on the chain that ends there. -/
lemma onTip_of_mem (hold : c.Holds bs) (ht : bs.getLast? = some t)
    (found : ∀ b ∈ bs, left.header? b.hash = .ok (some b.header)) (top : left.OnTip t.header)
    (hb : b ∈ bs) : left.OnTip b.header := by
  -- by induction on the number of blocks above the block
  suffices h : ∀ d i b, i + d + 1 = bs.length → bs[i]? = some b → left.OnTip b.header by
    obtain ⟨i, hi⟩ := List.mem_iff_getElem?.1 hb
    have hlt := (List.getElem?_eq_some_iff.1 hi).1
    exact h (bs.length - 1 - i) i b (by omega) hi
  intro d
  induction d with
  | zero =>
    intro i b hlen hi
    rw [List.getLast?_eq_getElem?, ← hlen, Nat.add_sub_cancel, Nat.add_zero, hi] at ht
    cases ht
    exact top
  | succ d ih =>
    intro i b hlen hi
    have habove : bs[i + 1]? = some bs[i + 1] := List.getElem?_eq_getElem (by omega)
    have hlink : b.header.IsParent bs[i + 1].header :=
      rel_of_isChain hold.lineage (by rw [List.getElem?_map, hi]; rfl)
        (by rw [List.getElem?_map, habove]; rfl)
    have hpos : bs[i + 1].header.number ≠ 0 := by
      have hnum : bs[i + 1].header.number.toNat = i + 1 := hold.number habove
      intro e
      simp [e] at hnum
    refine .parent (ih (i + 1) _ (by omega) habove) ?_
    rw [below?, if_neg hpos, hlink]
    exact found b (List.mem_of_getElem? hi)

/-- If what is left has the blocks of a chain and ends at its tip, nothing else is on the chain that ends
there. -/
lemma mem_of_onTip (hold : c.Holds bs) (ht : bs.getLast? = some t)
    (found : ∀ b ∈ bs, left.header? b.hash = .ok (some b.header))
    (htip : left.tipHash? = .ok (some t.hash)) (on : left.OnTip h) : ∃ b ∈ bs, b.header = h := by
  induction on with
  | tip tip hfound =>
    cases htip.symm.trans tip
    cases (found t (List.mem_of_getLast? ht)).symm.trans hfound
    exact ⟨t, List.mem_of_getLast? ht, rfl⟩
  | parent _ hfound ih =>
    obtain ⟨b, hb, rfl⟩ := ih
    rcases hold.parent_mem hb with rfl | ⟨p, hp, hparent, hlt⟩
    · cases hfound
    · have hpos : b.header.number ≠ 0 := by
        intro e
        rw [Block.number, Block.number, e] at hlt
        exact absurd hlt (by simp)
      rw [below?, if_neg hpos, hparent, found p hp] at hfound
      cases hfound
      exact ⟨p, hp, rfl⟩

end Holds

/-- Once the index is written, the block is found by its hash. -/
lemma header?_cut_self (c : Chain) (hb : b.Sized) (hk : 2 ≤ k) :
    (c.cut b k).header? b.hash = .ok (some b.header) := by
  have hentry : (c.cut b k).index[b.hash.bytes]? = some (Bytes.be64 b.number) := by
    rw [cut_index, if_neg (by omega), Std.ExtTreeMap.getElem?_insert_self]
  have hrow : (c.cut b k).blocks[Bytes.be64 b.number]? = some (Stored.toBytes b) := by
    rw [cut_blocks, if_neg (by omega), Std.ExtTreeMap.getElem?_insert_self]
  simp only [header?, blockByHash?, hentry, readNumber_be64, block?, hrow, Block.ofBytes_toBytes hb,
    bind, Except.bind, pure, Except.pure]
  simp

/-! ## What recovers -/

section

variable (hold : c.Holds bs) (next : Holds.IsNext bs b)
include hold next

/-- Before the block has an entry in the index nothing has happened. -/
lemma recovers_of_lt (hk : k < 2) : Recovers c b (c.put b) (c.cut b k) where
  found := by
    intro hash h hfound
    obtain ⟨t, ht, htip⟩ := hold.exists_tip
    rw [← tipHash?_cut c b (by omega : k < 4)] at htip
    have kept : ∀ b' ∈ bs, (c.cut b k).header? b'.hash = .ok (some b'.header) := by
      intro b' hb'
      rw [hold.header?_cut_of_lt next hk, hold.header?_of_mem hb']
    rw [hold.header?_cut_of_lt next hk] at hfound
    obtain ⟨b', hb', rfl, -⟩ := hold.of_header?_eq_some hfound
    exact hold.onTip_of_mem ht kept (.tip htip (kept t (List.mem_of_getLast? ht))) hb'
  tip := by
    refine .inr ⟨tip_cut c b (by omega), ?_⟩
    rw [append_cut c b (by omega), hold.append_eq_ok_iff]
    exact ⟨next, rfl⟩

/-- With the height of the new tip and the hash of the old one, the block has the wrong number. -/
lemma append_cut_three :
    (c.cut b 3).append b = .error (.unexpectedNumber (b.number + 1) b.number) := by
  obtain ⟨t, ht, htip⟩ := hold.exists_tip
  rw [← tipHash?_cut c b (by omega : 3 < 4)] at htip
  have hheight : (c.cut b 3).tipHeight = .ok b.number := by
    simp only [tipHeight, cut, writes, List.take, List.foldl, write,
      Std.ExtTreeMap.getElem?_insert_self, readNumber_be64]
  have hnumber : b.number ≠ b.number + 1 := by simp
  simp only [append, tip, hheight, htip, bind, Except.bind, pure, Except.pure, Option.getD_some,
    next.parent t ht, ne_eq, not_true_eq_false, if_false, if_pos hnumber]
  rfl

variable (hne : ∀ b' ∈ bs, b'.hash ≠ b.hash)
include hne

/-- The blocks that were there are found as before. -/
lemma kept_cut : ∀ b' ∈ bs, (c.cut b k).header? b'.hash = .ok (some b'.header) := by
  intro b' hb'
  rw [hold.header?_cut_of_ne next (hne b' hb'), hold.header?_of_mem hb']

variable (hsized : b.Sized)
include hsized

/-- After all writes the block is the tip. -/
lemma recovers_of_le (hk : 4 ≤ k) : Recovers c b (c.put b) (c.cut b k) := by
  obtain ⟨t, ht, -⟩ := hold.exists_tip
  have kept := kept_cut (k := k) hold next hne
  have hself := header?_cut_self (k := k) c hsized (by omega)
  have hb : (c.cut b k).OnTip b.header := by
    refine .tip ?_ hself
    rw [cut_eq_put c b hk, tipHash?_put]
  have top : (c.cut b k).OnTip t.header := by
    refine .parent hb ?_
    have hpos : b.header.number ≠ 0 := by
      have hnum : b.header.number.toNat = bs.length := next.number
      have hlen := List.length_pos_of_ne_nil hold.ne_nil
      intro e
      rw [e, UInt64.toNat_zero] at hnum
      omega
    rw [below?, if_neg hpos, next.parent t ht]
    exact kept t (List.mem_of_getLast? ht)
  refine ⟨?_, .inl (by rw [cut_eq_put c b hk, tip_put])⟩
  intro hash h hfound
  by_cases e : hash = b.hash
  · subst e
    cases hself.symm.trans hfound
    exact hb
  · rw [hold.header?_cut_of_ne next e] at hfound
    obtain ⟨b', hb', rfl, -⟩ := hold.of_header?_eq_some hfound
    exact hold.onTip_of_mem ht kept top hb'

/-- Between the entry in the index and the hash of the tip the block is found, but not below the tip. -/
lemma not_recovers_of_between (hle : 2 ≤ k) (hlt : k < 4) : ¬ Recovers c b c' (c.cut b k) := by
  intro recovers
  obtain ⟨t, ht, htip⟩ := hold.exists_tip
  rw [← tipHash?_cut c b hlt] at htip
  have on := recovers.found b.hash b.header (header?_cut_self c hsized hle)
  obtain ⟨b', hb', e⟩ := hold.mem_of_onTip ht (kept_cut hold next hne) htip on
  exact hold.number_ne next hb' (congrArg Header.number e)

end

/-- A put of the next block that is interrupted leaves what is of use exactly if it was interrupted before
the second write or after the last one. Between the second and the third write the block can be appended
all the same, after the third one it is refused. -/
theorem recovers_cut_iff (hold : c.Holds bs) (happ : c.append b = .ok c') (hsized : b.Sized)
    (hnew : ∀ b' ∈ bs, b'.hash = b.hash → b'.header = b.header) :
    (∀ k, Recovers c b c' (c.cut b k) ↔ k ≠ 2 ∧ k ≠ 3) ∧ (c.cut b 2).append b = .ok c' ∧
      (c.cut b 3).append b = .error (.unexpectedNumber (b.number + 1) b.number) := by
  obtain ⟨next, rfl⟩ := hold.append_eq_ok_iff.1 happ
  have hne : ∀ b' ∈ bs, b'.hash ≠ b.hash := fun b' hb' e =>
    hold.number_ne next hb' (congrArg Header.number (hnew b' hb' e))
  refine ⟨fun k => ⟨?_, ?_⟩, ?_, append_cut_three hold next⟩
  · intro recovers
    by_contra hk
    exact not_recovers_of_between hold next hne hsized (by omega) (by omega) recovers
  · rintro ⟨htwo, hthree⟩
    by_cases hk : k < 2
    · exact recovers_of_lt hold next hk
    · exact recovers_of_le hold next hne hsized (by omega)
  · rw [append_cut c b (by omega), happ]

/-- The first block comes next after the genesis block. -/
lemma isNext_first : Holds.IsNext [Block.genesis] Block.first where
  parent := by
    intro t ht
    obtain rfl : Block.genesis = t := Option.some.inj ht
    simp only [Block.first]
  number := rfl

/-- The first block is appended to the genesis block. -/
lemma append_first :
    (ofBlocks [Block.genesis]).append Block.first = .ok (ofBlocks [Block.genesis, Block.first]) := by
  rw [holds_genesis.append_eq_ok_iff]
  exact ⟨isNext_first, ofBlocks_concat [Block.genesis] Block.first⟩

/-- The first block on top of genesis is put and interrupted after one write, or after two. -/
theorem recovers_cut_iff_first :
    let c := ofBlocks [Block.genesis]
    let c' := ofBlocks [Block.genesis, Block.first]
    c.append Block.first = .ok c' ∧ Recovers c Block.first c' (c.cut Block.first 1) ∧
      ¬ Recovers c Block.first c' (c.cut Block.first 2) := by
  intro c c'
  have hnew : ∀ b' ∈ [Block.genesis], b'.hash = Block.first.hash → b'.header = Block.first.header := by
    rintro b' (_ | ⟨_, ⟨⟩⟩) e
    exact absurd e.symm Block.first_hash_ne
  obtain ⟨iff, -⟩ :=
    recovers_cut_iff holds_genesis append_first (Block.sized_of_nil rfl rfl) hnew
  refine ⟨append_first, (iff 1).2 (by decide), ?_⟩
  intro recovers
  exact ((iff 2).1 recovers).1 rfl

/-- A chain that has only genesis appends the first block. If this is interrupted before the last write,
what is left is of no use. -/
theorem not_recovers_first :
    let c := ofBlocks [Block.genesis]
    let c' := ofBlocks [Block.genesis, Block.first]
    c.Holds [Block.genesis] ∧ c.append Block.first = .ok c' ∧
      ¬ Recovers c Block.first c' (c.cut Block.first 3) := by
  have hne : ∀ b' ∈ [Block.genesis], b'.hash ≠ Block.first.hash := by
    rintro b' (_ | ⟨_, ⟨⟩⟩)
    exact Block.first_hash_ne.symm
  refine ⟨holds_genesis, append_first, ?_⟩
  exact not_recovers_of_between holds_genesis isNext_first hne (Block.sized_of_nil rfl rfl) (by decide)
    (by decide)

end ChainSync.Chain
