import ChainSync.Chain
import ChainSync.Proofs.Ancestry
import ChainSync.Proofs.StoredForm

/-!
# The canonical chain

`ofBlocks bs` is the chain after the blocks `bs` were put one after the other; each of its rows is what
the last block that wrote it left there. A chain `Holds` the blocks `bs` if these begin with genesis,
are numbered from zero on, link to each other and share no hash: then every lookup is a lookup in the
list (`Holds.block?_eq`, `Holds.blockByHash?_eq`), and a block is appended exactly if it is the next one
(`Holds.append_eq_ok_iff`).

Calls that append blocks or ensure genesis keep a chain that holds its blocks (`exists_holds_grown`),
and so the four places that a block is written to keep in step (`inStep_of_grown`).
-/

namespace ChainSync

/-- Two words have two spellings, most significant byte first. -/
lemma Bytes.be64_injective {m n : UInt64} (h : be64 m = be64 n) : m = n := by
  have e := congrArg ofBE h
  rw [ofBE_be64, ofBE_be64] at e
  exact UInt64.toNat_inj.1 e

/-- Words are told apart by their spellings, most significant byte first. -/
@[simp]
lemma Bytes.be64_inj {m n : UInt64} : be64 m = be64 n ↔ m = n :=
  ⟨be64_injective, congrArg be64⟩

/-- Hashes are told apart by their bytes. -/
@[simp]
lemma Hash.bytes_inj {a b : Hash} : a.bytes = b.bytes ↔ a = b :=
  ⟨Hash.ext, congrArg bytes⟩

namespace Chain

/-- A number is read back from its row. -/
@[simp]
lemma readNumber_be64 (n : UInt64) : readNumber (Bytes.be64 n) = .ok n := by
  simp [readNumber]

/-- The two markers of the tip have two names. -/
lemma tipHashKey_ne : tipHashKey ≠ tipHeightKey := by decide

/-- A put writes the block under its number. -/
lemma put_blocks (c : Chain) (b : Block) :
    (c.put b).blocks = c.blocks.insert (Bytes.be64 b.number) (Stored.toBytes b) := rfl

/-- A put writes the number under the hash of the block. -/
lemma put_index (c : Chain) (b : Block) :
    (c.put b).index = c.index.insert b.hash.bytes (Bytes.be64 b.number) := rfl

/-- A put makes the block the tip. -/
lemma put_markers (c : Chain) (b : Block) :
    (c.put b).markers =
      (c.markers.insert tipHeightKey (Bytes.be64 b.number)).insert tipHashKey b.hash.bytes := rfl

/-- A canonical chain finds no block under another hash than its own. -/
lemma hash_eq_of_blockByHash? {c : Chain} {hash : Hash} {b : Block}
    (hfound : c.blockByHash? hash = .ok (some b)) :
    b.hash = hash := by
  unfold blockByHash? at hfound
  cases hrow : c.index[hash.bytes]? with
  | none => simp [hrow] at hfound
  | some row =>
    simp only [hrow, bind, Except.bind] at hfound
    cases hnum : readNumber row with
    | error cause => simp [hnum] at hfound
    | ok number =>
      simp only [hnum] at hfound
      cases hblock : c.block? number with
      | error cause => simp [hblock] at hfound
      | ok found =>
        simp only [hblock] at hfound
        have hfilter := (Option.filter_eq_some_iff.1 (Except.ok.inj hfound)).2
        simpa using hfilter

/-- A canonical chain finds no header under another hash than its own. -/
lemma hash_eq_of_header? {c : Chain} {hash : Hash} {h : Header}
    (hfound : c.header? hash = .ok (some h)) : h.hash = hash := by
  simp only [header?, bind, Except.bind] at hfound
  cases hblock : c.blockByHash? hash with
  | error cause => simp [hblock] at hfound
  | ok found =>
    simp only [hblock] at hfound
    obtain ⟨b, rfl, rfl⟩ := Option.map_eq_some_iff.1 (Except.ok.inj hfound)
    exact hash_eq_of_blockByHash? hblock

/-- The chain after blocks were put one after the other. -/
def ofBlocks (bs : List Block) : Chain := bs.foldl put empty

/-- One more block is put last. -/
@[simp]
lemma ofBlocks_concat (bs : List Block) (b : Block) : ofBlocks (bs ++ [b]) = (ofBlocks bs).put b := by
  simp [ofBlocks]

/-- Under a number stands the last block that was put there. -/
lemma blocks_ofBlocks (bs : List Block) (key : Bytes) :
    (ofBlocks bs).blocks[key]? =
      (bs.reverse.find? fun b => Bytes.be64 b.number = key).map Stored.toBytes := by
  induction bs using List.reverseRecOn with
  | nil => rfl
  | append_singleton bs b ih =>
    rw [ofBlocks_concat, put_blocks, Std.ExtTreeMap.getElem?_insert, List.reverse_concat,
      List.find?_cons]
    by_cases h : Bytes.be64 b.number = key <;> simp [h, ih]

/-- Under a hash stands the number of the last block that was put with it. -/
lemma index_ofBlocks (bs : List Block) (key : Bytes) :
    (ofBlocks bs).index[key]? =
      (bs.reverse.find? fun b => b.hash.bytes = key).map fun b => Bytes.be64 b.number := by
  induction bs using List.reverseRecOn with
  | nil => rfl
  | append_singleton bs b ih =>
    rw [ofBlocks_concat, put_index, Std.ExtTreeMap.getElem?_insert, List.reverse_concat,
      List.find?_cons]
    by_cases h : b.hash.bytes = key <;> simp [h, ih]

/-- The tip has the height of the last block, or zero. -/
lemma tipHeight_ofBlocks (bs : List Block) :
    (ofBlocks bs).tipHeight = .ok (bs.getLast?.elim 0 (·.number)) := by
  induction bs using List.reverseRecOn with
  | nil => rfl
  | append_singleton bs b ih =>
    have hne : compare tipHashKey tipHeightKey ≠ .eq := by simp [tipHashKey_ne]
    rw [ofBlocks_concat, tipHeight, put_markers, Std.ExtTreeMap.getElem?_insert, if_neg hne,
      Std.ExtTreeMap.getElem?_insert_self]
    simp

/-- The tip has the hash of the last block, if there is one. -/
lemma tipHash?_ofBlocks (bs : List Block) :
    (ofBlocks bs).tipHash? = .ok (bs.getLast?.map (·.hash)) := by
  induction bs using List.reverseRecOn with
  | nil => rfl
  | append_singleton bs b ih =>
    rw [ofBlocks_concat, tipHash?, put_markers, Std.ExtTreeMap.getElem?_insert_self]
    simp

/-- The blocks of a canonical chain: they begin with genesis, are numbered from zero on, link to each
other, share no hash, and their numbers and lengths can be written. -/
structure Holds (c : Chain) (bs : List Block) : Prop where
  tables : c = ofBlocks bs
  genesis : bs.head? = some Block.genesis
  number : ∀ {i : Nat} {b : Block}, bs[i]? = some b → b.number.toNat = i
  lineage : Lineage (bs.map (·.header))
  nodup : (bs.map (·.hash)).Nodup
  sized : ∀ b ∈ bs, b.Sized
  /-- The height stays below the largest word. -/
  length_lt : bs.length < 2 ^ 64

namespace Holds

variable {c : Chain} {bs : List Block} {b : Block} {n : UInt64} {hash : Hash}

/-- A chain that holds blocks holds genesis. -/
lemma ne_nil (hold : c.Holds bs) : bs ≠ [] := by
  rintro rfl
  cases hold.genesis

/-- A block stands at the place of its number. -/
lemma getElem?_number (hold : c.Holds bs) (hb : b ∈ bs) : bs[b.number.toNat]? = some b := by
  obtain ⟨i, hi⟩ := List.mem_iff_getElem?.1 hb
  rwa [hold.number hi]

/-- The blocks of a chain are told apart by their numbers. -/
lemma eq_of_number (hold : c.Holds bs) {b' : Block} (hb : b ∈ bs) (hb' : b' ∈ bs)
    (h : b.number = b'.number) : b = b' := by
  have e := hold.getElem?_number hb
  rw [h, hold.getElem?_number hb'] at e
  exact (Option.some.inj e).symm

/-- The blocks of a chain are told apart by their hashes. -/
lemma eq_of_hash (hold : c.Holds bs) {b' : Block} (hb : b ∈ bs) (hb' : b' ∈ bs)
    (h : b.hash = b'.hash) : b = b' :=
  List.inj_on_of_nodup_map hold.nodup hb hb' h

/-- A search for what only one block has finds that block. -/
lemma find?_eq {p : Block → Bool} (hb : b ∈ bs) (hp : p b = true)
    (only : ∀ b' ∈ bs, p b' = true → b' = b) : bs.find? p = some b := by
  cases hf : bs.find? p with
  | none => exact absurd hp (List.find?_eq_none.1 hf b hb)
  | some b' => rw [only b' (List.mem_of_find?_eq_some hf) (List.find?_some hf)]

/-- The rows of the first table are the blocks of the chain under their numbers. -/
lemma blocks_eq_some_iff (hold : c.Holds bs) {key row : Bytes} :
    c.blocks[key]? = some row ↔
      ∃ b ∈ bs, key = Bytes.be64 b.number ∧ row = Stored.toBytes b := by
  rw [hold.tables, blocks_ofBlocks, Option.map_eq_some_iff]
  constructor
  · rintro ⟨b, hf, rfl⟩
    have hkey := List.find?_some hf
    rw [decide_eq_true_eq] at hkey
    exact ⟨b, List.mem_reverse.1 (List.mem_of_find?_eq_some hf), hkey.symm, rfl⟩
  · rintro ⟨b, hb, rfl, rfl⟩
    refine ⟨b, find?_eq (List.mem_reverse.2 hb) (by simp) ?_, rfl⟩
    intro b' hb' h
    exact hold.eq_of_number (List.mem_reverse.1 hb') hb (by simpa using h)

/-- The rows of the second table are the numbers of the blocks under their hashes. -/
lemma index_eq_some_iff (hold : c.Holds bs) {key row : Bytes} :
    c.index[key]? = some row ↔
      ∃ b ∈ bs, key = b.hash.bytes ∧ row = Bytes.be64 b.number := by
  rw [hold.tables, index_ofBlocks, Option.map_eq_some_iff]
  constructor
  · rintro ⟨b, hf, rfl⟩
    have hkey := List.find?_some hf
    rw [decide_eq_true_eq] at hkey
    exact ⟨b, List.mem_reverse.1 (List.mem_of_find?_eq_some hf), hkey.symm, rfl⟩
  · rintro ⟨b, hb, rfl, rfl⟩
    refine ⟨b, find?_eq (List.mem_reverse.2 hb) (by simp) ?_, rfl⟩
    intro b' hb' h
    exact hold.eq_of_hash (List.mem_reverse.1 hb') hb (by simpa using h)

/-- A lookup by number is a lookup in the list. -/
lemma block?_eq (hold : c.Holds bs) (n : UInt64) : c.block? n = .ok bs[n.toNat]? := by
  unfold block?
  cases hrow : c.blocks[Bytes.be64 n]? with
  | some row =>
    obtain ⟨b, hb, hn, rfl⟩ := hold.blocks_eq_some_iff.1 hrow
    rw [Bytes.be64_inj.1 hn, hold.getElem?_number hb]
    simp [hold.sized b hb]
  | none =>
    cases hb : bs[n.toNat]? with
    | none => rfl
    | some b =>
      have hn : n = b.number := UInt64.toNat_inj.1 (hold.number hb).symm
      have hrow' := hold.blocks_eq_some_iff.2 ⟨b, List.mem_of_getElem? hb, rfl, rfl⟩
      rw [← hn, hrow] at hrow'
      cases hrow'

/-- A lookup by hash is a search in the list. -/
lemma blockByHash?_eq (hold : c.Holds bs) (hash : Hash) :
    c.blockByHash? hash = .ok (bs.find? (·.hash = hash)) := by
  unfold blockByHash?
  cases hrow : c.index[hash.bytes]? with
  | some row =>
    obtain ⟨b, hb, hh, rfl⟩ := hold.index_eq_some_iff.1 hrow
    obtain rfl := Hash.bytes_inj.1 hh
    have hfind : bs.find? (·.hash = b.hash) = some b :=
      find?_eq hb (by simp) fun b' hb' h => hold.eq_of_hash hb' hb (by simpa using h)
    simp [bind, Except.bind, pure, Except.pure, hold.block?_eq, hold.getElem?_number hb, hfind]
  | none =>
    -- a block that the search finds would have left a row in the index
    cases hf : bs.find? (·.hash = hash) with
    | none => rfl
    | some b =>
      have hh : b.hash = hash := by simpa using List.find?_some hf
      have hrow' := hold.index_eq_some_iff.2 ⟨b, List.mem_of_find?_eq_some hf, rfl, rfl⟩
      rw [hh, hrow] at hrow'
      cases hrow'

/-- A block of the chain is found by its hash. -/
lemma blockByHash?_of_mem (hold : c.Holds bs) (hb : b ∈ bs) :
    c.blockByHash? b.hash = .ok (some b) := by
  rw [hold.blockByHash?_eq]
  congr 1
  exact find?_eq hb (by simp) fun b' hb' h => hold.eq_of_hash hb' hb (by simpa using h)

/-- A look-up of a header is one in the list of blocks. -/
lemma header?_eq (hold : c.Holds bs) (hash : Hash) :
    c.header? hash = .ok ((bs.find? (·.hash = hash)).map (·.header)) := by
  simp [header?, hold.blockByHash?_eq, bind, Except.bind, pure, Except.pure]

/-- A header that is found is that of a block of the chain with this hash. -/
lemma of_header?_eq_some (hold : c.Holds bs) {h : Header} (hfound : c.header? hash = .ok (some h)) :
    ∃ b ∈ bs, b.header = h ∧ b.hash = hash := by
  rw [hold.header?_eq, Except.ok.injEq, Option.map_eq_some_iff] at hfound
  obtain ⟨b, hb, rfl⟩ := hfound
  exact ⟨b, List.mem_of_find?_eq_some hb, rfl, by simpa using List.find?_some hb⟩

/-- The header of a block of the chain is found by its hash. -/
lemma header?_of_mem (hold : c.Holds bs) (hb : b ∈ bs) :
    c.header? b.hash = .ok (some b.header) := by
  simp [header?, hold.blockByHash?_of_mem hb, bind, Except.bind, pure, Except.pure]

/-- A header is missing exactly if no block of the chain has the hash. -/
lemma header?_eq_none_iff (hold : c.Holds bs) :
    c.header? hash = .ok none ↔ ∀ b ∈ bs, b.hash ≠ hash := by
  rw [hold.header?_eq, Except.ok.injEq, Option.map_eq_none_iff, List.find?_eq_none]
  simp

/-- The tip is the last block, and its height is the number of blocks below it. -/
lemma tip_eq (hold : c.Holds bs) :
    c.tip = .ok (UInt64.ofNat (bs.length - 1), bs.getLast?.map (·.hash)) := by
  obtain ⟨t, ht⟩ := Option.ne_none_iff_exists'.1 (List.getLast?_eq_none_iff.not.2 hold.ne_nil)
  have hnum : t.number = UInt64.ofNat (bs.length - 1) := by
    rw [List.getLast?_eq_getElem?] at ht
    rw [← hold.number ht, UInt64.ofNat_toNat]
  simp [tip, hold.tables, tipHeight_ofBlocks, tipHash?_ofBlocks, ht, hnum, bind, Except.bind, pure,
    Except.pure]

/-- The block that is appended next has the last block as its parent and the next number. -/
structure IsNext (bs : List Block) (b : Block) : Prop where
  parent : ∀ t ∈ bs.getLast?, b.header.parent = t.hash
  number : b.number.toNat = bs.length

/-- Exactly the next block is appended, and then it is put. -/
lemma append_eq_ok_iff (hold : c.Holds bs) {c' : Chain} :
    c.append b = .ok c' ↔ IsNext bs b ∧ c' = c.put b := by
  obtain ⟨t, ht⟩ := Option.ne_none_iff_exists'.1 (List.getLast?_eq_none_iff.not.2 hold.ne_nil)
  have hpos : 0 < bs.length := List.length_pos_of_ne_nil hold.ne_nil
  have hlt := hold.length_lt
  -- the height stays below the largest word, so the next number does not wrap around
  have hnext : b.number = UInt64.ofNat (bs.length - 1) + 1 ↔ b.number.toNat = bs.length := by
    rw [← UInt64.toNat_inj, UInt64.toNat_add, UInt64.toNat_ofNat']
    simp only [UInt64.reduceToNat]
    omega
  simp only [append, hold.tip_eq, ht, Option.map_some, bind, Except.bind, Option.getD_some]
  split_ifs with hp hn
  · constructor
    · nofun
    · rintro ⟨next, -⟩
      exact absurd (next.parent t ht) hp
  · constructor
    · nofun
    · rintro ⟨next, -⟩
      exact absurd (hnext.2 next.number) hn
  · constructor
    · rintro ⟨⟩
      refine ⟨⟨?_, hnext.1 (not_not.1 hn)⟩, rfl⟩
      intro t' ht'
      cases ht.symm.trans ht'
      exact not_not.1 hp
    · rintro ⟨-, rfl⟩
      rfl

/-- A chain that takes the next block holds it, too. -/
lemma put (hold : c.Holds bs) (next : IsNext bs b) (hb : b.Sized) (hlt : bs.length + 1 < 2 ^ 64)
    (hnew : ∀ b' ∈ bs, b'.hash = b.hash → b'.header = b.header) :
    (c.put b).Holds (bs ++ [b]) where
  tables := by rw [ofBlocks_concat, ← hold.tables]
  genesis := by
    rw [List.head?_append_of_ne_nil _ hold.ne_nil]
    exact hold.genesis
  number := by
    intro i b' hi
    rw [List.getElem?_append] at hi
    split_ifs at hi with h
    · exact hold.number hi
    · obtain ⟨hlen, rfl⟩ := List.getElem?_eq_some_iff.1 hi
      simp only [List.length_singleton] at hlen
      rw [List.getElem_singleton, next.number]
      omega
  lineage := by
    rw [List.map_append]
    apply hold.lineage.concat
    intro p hp
    rw [List.getLast?_map] at hp
    obtain ⟨t, ht, rfl⟩ := Option.map_eq_some_iff.1 hp
    exact next.parent t ht
  nodup := by
    rw [List.map_append, List.nodup_append]
    refine ⟨hold.nodup, List.nodup_singleton _, ?_⟩
    -- a block with the hash of the new one would stand under its number, where nothing stands yet
    rintro _ h' _ (_ | ⟨_, ⟨⟩⟩) rfl
    obtain ⟨b', hb', h⟩ := List.mem_map.1 h'
    have hnum : b'.number = b.number := congrArg Header.number (hnew b' hb' h)
    have hat := hold.getElem?_number hb'
    rw [hnum, next.number, List.getElem?_eq_none (Nat.le_refl _)] at hat
    cases hat
  sized := by
    intro b' hb'
    rcases List.mem_append.1 hb' with hb' | hb'
    · exact hold.sized b' hb'
    · rwa [List.mem_singleton.1 hb']
  length_lt := by simpa using hlt

/-- A chain that has genesis is left as it is. -/
lemma ensureGenesis_eq (hold : c.Holds bs) : c.ensureGenesis = .ok c := by
  have hzero : c.block? 0 = .ok (some Block.genesis) := by
    rw [hold.block?_eq, UInt64.toNat_zero, ← List.head?_eq_getElem?, hold.genesis]
  have htip := hold.tip_eq
  unfold ensureGenesis
  cases hh : c.tipHeight with
  | error e => simp [tip, hh, bind, Except.bind] at htip
  | ok height =>
    simp only [bind, Except.bind, hzero]
    split_ifs <;> rfl

end Holds

/-- The empty chain is given genesis. -/
lemma ensureGenesis_empty : empty.ensureGenesis = .ok (ofBlocks [Block.genesis]) := rfl

/-- The chain of genesis alone holds it. -/
lemma holds_genesis : (ofBlocks [Block.genesis]).Holds [Block.genesis] where
  tables := rfl
  genesis := rfl
  number := by
    rintro (_ | i) b ⟨⟩
    rfl
  lineage := List.isChain_singleton _
  nodup := List.nodup_singleton _
  sized := by
    rintro b (_ | ⟨_, ⟨⟩⟩)
    exact Block.sized_of_nil rfl rfl
  length_lt := by simp

/-- The chain of genesis and the first block holds them. -/
lemma holds_first :
    (ofBlocks [Block.genesis, Block.first]).Holds [Block.genesis, Block.first] := by
  have next : Holds.IsNext [Block.genesis] Block.first := by
    refine ⟨?_, rfl⟩
    intro t ht
    obtain rfl : Block.genesis = t := Option.some.inj ht
    simp only [Block.first]
  have hnew : ∀ b ∈ [Block.genesis], b.hash = Block.first.hash → b.header = Block.first.header := by
    rintro b (_ | ⟨_, ⟨⟩⟩) e
    exact absurd e.symm Block.first_hash_ne
  change (ofBlocks ([Block.genesis] ++ [Block.first])).Holds ([Block.genesis] ++ [Block.first])
  rw [ofBlocks_concat]
  exact holds_genesis.put next (Block.sized_of_nil rfl rfl) (by simp) hnew

/-- The chain of genesis and the first two blocks holds them. -/
lemma holds_second :
    (ofBlocks [Block.genesis, Block.first, Block.second]).Holds
      [Block.genesis, Block.first, Block.second] := by
  have next : Holds.IsNext [Block.genesis, Block.first] Block.second := by
    refine ⟨?_, rfl⟩
    intro t ht
    obtain rfl : Block.first = t := Option.some.inj ht
    simp only [Block.second]
  have hnew : ∀ b ∈ [Block.genesis, Block.first], b.hash = Block.second.hash →
      b.header = Block.second.header := by
    rintro b (_ | ⟨_, _ | ⟨_, ⟨⟩⟩⟩) e
    · exact absurd e.symm Block.second_hash_ne_genesis
    · exact absurd e.symm Block.second_hash_ne
  change (ofBlocks ([Block.genesis, Block.first] ++ [Block.second])).Holds
    ([Block.genesis, Block.first] ++ [Block.second])
  rw [ofBlocks_concat]
  exact holds_first.put next (Block.sized_of_nil rfl rfl) (by simp) hnew

/-! ## Chains that grow by calls -/

/-- The calls that grow a chain. -/
inductive GrowthCall where
  | append (b : Block)
  | ensureGenesis

/-- The chain after a call; a call that is refused changes nothing. -/
def GrowthCall.after (c : Chain) : GrowthCall → Chain
  | .append b =>
    match c.append b with
    | .ok c' => c'
    | .error _ => c
  | .ensureGenesis =>
    match c.ensureGenesis with
    | .ok c' => c'
    | .error _ => c

/-- The chain that begins with genesis and grows by calls. -/
def grown (calls : List GrowthCall) : Chain :=
  calls.foldl GrowthCall.after (GrowthCall.ensureGenesis.after empty)

/-- Genesis and the headers that calls append; a call that is refused appends nothing. -/
def appended (calls : List GrowthCall) : Set Header :=
  {h | h = Block.genesis.header ∨
    ∃ pre b c, pre ++ [.append b] <+: calls ∧ (grown pre).append b = .ok c ∧ b.header = h}

/-- One more call is made last. -/
lemma grown_concat (calls : List GrowthCall) (call : GrowthCall) :
    grown (calls ++ [call]) = call.after (grown calls) := by
  simp [grown]

/-- The blocks that fewer calls append are among those of more calls. -/
lemma appended_mono {pre calls : List GrowthCall} (hpre : pre <+: calls) :
    appended pre ⊆ appended calls := by
  rintro h (h | ⟨pre', b, c, hb, happ, hh⟩)
  · exact .inl h
  · exact .inr ⟨pre', b, c, hb.trans hpre, happ, hh⟩

/-- A chain that appends a block holds it, too. -/
lemma Holds.append {c c' : Chain} {bs : List Block} {b : Block} (hold : c.Holds bs) {U : Set Header}
    (hU : U.InjOn Header.hash) (hbs : ∀ b ∈ bs, b.header ∈ U) (hsized : b.Sized) (hb : b.header ∈ U)
    (happ : c.append b = .ok c') (hheight : ∀ n, c'.tipHeight = .ok n → n.toNat < 2 ^ 64 - 1) :
    c'.Holds (bs ++ [b]) := by
  obtain ⟨next, rfl⟩ := hold.append_eq_ok_iff.1 happ
  have htip : (c.put b).tipHeight = .ok b.number := by
    rw [hold.tables, ← ofBlocks_concat, tipHeight_ofBlocks]
    simp
  have hlt := hheight _ htip
  rw [next.number] at hlt
  apply hold.put next hsized (by omega)
  intro b' hb' h
  exact hU (hbs b' hb') hb h

/-- One call keeps a chain that holds its blocks. -/
lemma Holds.after {c : Chain} {bs : List Block} (hold : c.Holds bs) {U : Set Header}
    (hU : U.InjOn Header.hash) (hbs : ∀ b ∈ bs, b.header ∈ U) {call : GrowthCall}
    (hcall : ∀ b c', call = .append b → c.append b = .ok c' → b.Sized ∧ b.header ∈ U)
    (hheight : ∀ n, (call.after c).tipHeight = .ok n → n.toNat < 2 ^ 64 - 1) :
    ∃ bs', (call.after c).Holds bs' ∧ ∀ b ∈ bs', b.header ∈ U := by
  cases call with
  | ensureGenesis =>
    simp only [GrowthCall.after, hold.ensureGenesis_eq]
    exact ⟨bs, hold, hbs⟩
  | append b =>
    simp only [GrowthCall.after] at hheight ⊢
    cases happ : c.append b with
    | error e => exact ⟨bs, hold, hbs⟩
    | ok c' =>
      obtain ⟨hsized, hb⟩ := hcall b c' rfl happ
      rw [happ] at hheight
      refine ⟨bs ++ [b], hold.append hU hbs hsized hb happ hheight, ?_⟩
      intro b' hb'
      rcases List.mem_append.1 hb' with hb' | hb'
      · exact hbs b' hb'
      · rwa [List.mem_singleton.1 hb']

/-- A chain that grows by calls holds the blocks that it took. -/
theorem exists_holds_grown {calls : List GrowthCall} (hsized : ∀ b, .append b ∈ calls → b.Sized)
    (hinj : (appended calls).InjOn Header.hash)
    (hheight : ∀ pre, pre <+: calls → ∀ n, (grown pre).tipHeight = .ok n → n.toNat < 2 ^ 64 - 1) :
    ∃ bs, (grown calls).Holds bs ∧ ∀ b ∈ bs, b.header ∈ appended calls := by
  -- what is appended depends on the calls before, so calls are added at the end
  induction calls using List.reverseRecOn with
  | nil =>
    refine ⟨[Block.genesis], ?_, ?_⟩
    · simp only [grown, List.foldl_nil, GrowthCall.after, ensureGenesis_empty]
      exact holds_genesis
    · rintro b (_ | ⟨_, ⟨⟩⟩)
      exact .inl rfl
  | append_singleton calls call ih =>
    have hsub := appended_mono (List.prefix_append calls [call])
    obtain ⟨bs, hold, hbs⟩ := ih (fun b hb => hsized b (List.mem_append_left _ hb))
      (hinj.mono hsub) fun pre hpre => hheight pre (hpre.trans (List.prefix_append _ _))
    rw [grown_concat]
    apply hold.after hinj fun b hb => hsub (hbs b hb)
    · rintro b c' rfl happ
      exact ⟨hsized b (by simp), .inr ⟨calls, b, c', List.prefix_rfl, happ, rfl⟩⟩
    · rw [← grown_concat]
      exact hheight _ List.prefix_rfl

/-- The places that a block is written to are in step: with the tip at `height`, exactly the numbers up
to it have a block, each the child of the one below, and the index leads from the hashes of these blocks
to their numbers. -/
structure InStep (c : Chain) (height : UInt64) (hash : Hash) : Prop where
  tip : c.tip = .ok (height, some hash)
  rows : ∀ key, c.blocks[key]?.isSome ↔ ∃ n ≤ height, key = Bytes.be64 n
  stored : ∀ n ≤ height, ∃ b, c.block? n = .ok (some b) ∧ b.number = n
  parent : ∀ n b, 0 < n → c.block? n = .ok (some b) →
    ∃ p, c.block? (n - 1) = .ok (some p) ∧ b.header.parent = p.hash
  top : ∃ b, c.block? height = .ok (some b) ∧ b.hash = hash
  index : ∀ key row, c.index[key]? = some row ↔
    ∃ n b, c.block? n = .ok (some b) ∧ key = b.hash.bytes ∧ row = Bytes.be64 n
  inverse : ∀ n h, c.hashAt? n = .ok (some h) ↔
    ∃ b, c.blockByHash? h = .ok (some b) ∧ b.number = n

namespace Holds

variable {c : Chain} {bs : List Block} {t : Block}

/-- A look-up by number finds exactly the blocks of the chain under their numbers. -/
lemma block?_eq_some_iff (hold : c.Holds bs) {n : UInt64} {b : Block} :
    c.block? n = .ok (some b) ↔ b ∈ bs ∧ b.number = n := by
  rw [hold.block?_eq, Except.ok.injEq]
  constructor
  · intro h
    exact ⟨List.mem_of_getElem? h, UInt64.toNat_inj.1 (hold.number h)⟩
  · rintro ⟨hb, rfl⟩
    exact hold.getElem?_number hb

/-- A look-up by hash finds exactly the blocks of the chain under their hashes. -/
lemma blockByHash?_eq_some_iff (hold : c.Holds bs) {h : Hash} {b : Block} :
    c.blockByHash? h = .ok (some b) ↔ b ∈ bs ∧ b.hash = h := by
  constructor
  · intro hfound
    rw [hold.blockByHash?_eq, Except.ok.injEq] at hfound
    exact ⟨List.mem_of_find?_eq_some hfound, by simpa using List.find?_some hfound⟩
  · rintro ⟨hb, rfl⟩
    exact hold.blockByHash?_of_mem hb

/-- The numbers up to the tip are as many as there are blocks. -/
lemma number_le_iff (hold : c.Holds bs) (ht : bs.getLast? = some t) {n : UInt64} :
    n ≤ t.number ↔ n.toNat < bs.length := by
  have hpos := List.length_pos_of_ne_nil hold.ne_nil
  rw [List.getLast?_eq_getElem?] at ht
  rw [UInt64.le_iff_toNat_le, hold.number ht]
  omega

/-- A chain that holds its blocks has its four places in step. -/
lemma inStep (hold : c.Holds bs) (ht : bs.getLast? = some t) : InStep c t.number t.hash where
  tip := by
    have hnum : t.number = UInt64.ofNat (bs.length - 1) := by
      rw [List.getLast?_eq_getElem?] at ht
      rw [← hold.number ht, UInt64.ofNat_toNat]
    rw [hold.tip_eq, ht, hnum]
    rfl
  rows := by
    intro key
    rw [Option.isSome_iff_exists]
    simp only [hold.blocks_eq_some_iff]
    constructor
    · rintro ⟨_, b, hb, rfl, rfl⟩
      have hlen := (List.getElem?_eq_some_iff.1 (hold.getElem?_number hb)).1
      exact ⟨b.number, (hold.number_le_iff ht).2 hlen, rfl⟩
    · rintro ⟨n, hn, rfl⟩
      have hget := List.getElem?_eq_getElem ((hold.number_le_iff ht).1 hn)
      have hnum := UInt64.toNat_inj.1 (hold.number hget)
      exact ⟨_, _, List.mem_of_getElem? hget, by rw [hnum], rfl⟩
  stored := by
    intro n hn
    have hget := List.getElem?_eq_getElem ((hold.number_le_iff ht).1 hn)
    exact ⟨_, hold.block?_eq n ▸ congrArg Except.ok hget, UInt64.toNat_inj.1 (hold.number hget)⟩
  parent := by
    intro n b hn hb
    obtain ⟨hmem, rfl⟩ := hold.block?_eq_some_iff.1 hb
    obtain ⟨hlen, hat⟩ := List.getElem?_eq_some_iff.1 (hold.getElem?_number hmem)
    have hpos : 0 < b.number.toNat := by simpa [UInt64.lt_iff_toNat_lt] using hn
    have hpred : (b.number - 1).toNat = b.number.toNat - 1 := by
      rw [UInt64.toNat_sub_of_le _ _ (by rw [UInt64.le_iff_toNat_le]; exact hpos)]
      rfl
    have hlt : b.number.toNat - 1 + 1 < (bs.map (·.header)).length := by
      rw [List.length_map]
      omega
    have hlink := hold.lineage.getElem _ hlt
    simp only [List.getElem_map, Nat.sub_add_cancel hpos, hat] at hlink
    refine ⟨bs[b.number.toNat - 1], ?_, hlink⟩
    rw [hold.block?_eq, hpred, List.getElem?_eq_getElem]
  top := ⟨t, hold.block?_eq_some_iff.2 ⟨List.mem_of_getLast? ht, rfl⟩, rfl⟩
  index := by
    intro key row
    rw [hold.index_eq_some_iff]
    constructor
    · rintro ⟨b, hb, rfl, rfl⟩
      exact ⟨b.number, b, hold.block?_eq_some_iff.2 ⟨hb, rfl⟩, rfl, rfl⟩
    · rintro ⟨n, b, hb, rfl, rfl⟩
      obtain ⟨hmem, rfl⟩ := hold.block?_eq_some_iff.1 hb
      exact ⟨b, hmem, rfl, rfl⟩
  inverse := by
    intro n h
    simp only [hold.blockByHash?_eq_some_iff]
    simp only [hashAt?, hold.block?_eq, bind, Except.bind, pure, Except.pure, Except.ok.injEq,
      Option.map_eq_some_iff]
    constructor
    · rintro ⟨b, hb, rfl⟩
      exact ⟨b, ⟨List.mem_of_getElem? hb, rfl⟩, UInt64.toNat_inj.1 (hold.number hb)⟩
    · rintro ⟨b, ⟨hb, rfl⟩, rfl⟩
      exact ⟨b, hold.getElem?_number hb, rfl⟩

/-- Below a block of the chain, other than genesis, stands its parent. -/
lemma parent_mem (hold : c.Holds bs) {b : Block} (hb : b ∈ bs) :
    b = Block.genesis ∨ ∃ p ∈ bs, b.header.parent = p.hash ∧ p.number < b.number := by
  obtain ⟨t, ht⟩ := Option.ne_none_iff_exists'.1 (List.getLast?_eq_none_iff.not.2 hold.ne_nil)
  by_cases hzero : b.number = 0
  · left
    have hat := hold.getElem?_number hb
    rw [hzero, UInt64.toNat_zero, ← List.head?_eq_getElem?, hold.genesis] at hat
    exact (Option.some.inj hat).symm
  · right
    have hpos : 0 < b.number := UInt64.pos_iff_ne_zero.2 hzero
    obtain ⟨p, hp, hparent⟩ :=
      (hold.inStep ht).parent b.number b hpos (hold.block?_eq_some_iff.2 ⟨hb, rfl⟩)
    obtain ⟨hmem, hnum⟩ := hold.block?_eq_some_iff.1 hp
    have hone : 1 ≤ b.number := by
      rw [UInt64.le_iff_toNat_le]
      rw [UInt64.lt_iff_toNat_lt] at hpos
      exact hpos
    refine ⟨p, hmem, hparent, ?_⟩
    rw [hnum]
    exact UInt64.sub_lt (by decide) hone

end Holds

/-- Whatever is called, the places that a block is written to stay in step; a block is appended exactly
if its parent is the tip and its number the next one; then it is the tip, and every earlier block is
found as before, by number and by hash; a refused call and a call for genesis change nothing. -/
theorem inStep_of_grown {calls : List GrowthCall} (hsized : ∀ b, .append b ∈ calls → b.Sized)
    (hinj : (appended calls).InjOn Header.hash)
    (hheight : ∀ pre, pre <+: calls → ∀ n, (grown pre).tipHeight = .ok n → n.toNat < 2 ^ 64 - 1) :
    ∀ pre, pre <+: calls → ∃ height tip,
      InStep (grown pre) height tip ∧
      (∀ b, (∃ c, (grown pre).append b = .ok c) ↔
        b.header.parent = tip ∧ b.number.toNat = height.toNat + 1) ∧
      (∀ b c, pre ++ [.append b] <+: calls → (grown pre).append b = .ok c →
        c.tip = .ok (b.number, some b.hash) ∧ c.block? b.number = .ok (some b) ∧
        ∀ n earlier, (grown pre).block? n = .ok (some earlier) →
          c.block? n = .ok (some earlier) ∧ c.blockByHash? earlier.hash = .ok (some earlier)) ∧
      (∀ b e, (grown pre).append b = .error e → (GrowthCall.append b).after (grown pre) = grown pre) ∧
      GrowthCall.ensureGenesis.after (grown pre) = grown pre := by
  intro pre hpre
  have hsub := appended_mono hpre
  obtain ⟨bs, hold, hbs⟩ := exists_holds_grown (fun b hb => hsized b (hpre.subset hb)) (hinj.mono hsub)
    fun pre' hpre' => hheight pre' (hpre'.trans hpre)
  obtain ⟨t, ht⟩ := Option.ne_none_iff_exists'.1 (List.getLast?_eq_none_iff.not.2 hold.ne_nil)
  refine ⟨t.number, t.hash, hold.inStep ht, ?_, ?_, ?_, ?_⟩
  · intro b
    have hpos := List.length_pos_of_ne_nil hold.ne_nil
    have hlen : t.number.toNat + 1 = bs.length := by
      rw [List.getLast?_eq_getElem?] at ht
      rw [hold.number ht]
      omega
    simp only [hold.append_eq_ok_iff, exists_and_left, exists_eq, and_true, hlen]
    constructor
    · intro next
      exact ⟨next.parent t ht, next.number⟩
    · rintro ⟨hparent, hnumber⟩
      refine ⟨?_, hnumber⟩
      rintro t' ht'
      cases ht.symm.trans ht'
      exact hparent
  · intro b c hnext happ
    have hb : GrowthCall.append b ∈ calls := hnext.subset (by simp)
    have hafter : grown (pre ++ [.append b]) = c := by
      rw [grown_concat]
      simp only [GrowthCall.after, happ]
    have hold' := hold.append hinj (fun b hb => hsub (hbs b hb)) (hsized b hb)
      (.inr ⟨pre, b, c, hnext, happ, rfl⟩) happ (hafter ▸ hheight _ hnext)
    have step := hold'.inStep (t := b) (by simp)
    refine ⟨step.tip, hold'.block?_eq_some_iff.2 ⟨by simp, rfl⟩, ?_⟩
    intro n earlier hfound
    obtain ⟨hmem, rfl⟩ := hold.block?_eq_some_iff.1 hfound
    have hmem' : earlier ∈ bs ++ [b] := List.mem_append_left _ hmem
    exact ⟨hold'.block?_eq_some_iff.2 ⟨hmem', rfl⟩, hold'.blockByHash?_of_mem hmem'⟩
  · intro b e happ
    simp only [GrowthCall.after, happ]
  · simp only [GrowthCall.after, hold.ensureGenesis_eq]

/-- A chain that takes a child of genesis once, and refuses it the second time. -/
theorem inStep_of_grown_twice :
    ∃ height tip, InStep (grown [.append Block.first, .append Block.first]) height tip := by
  let calls : List GrowthCall := [.append Block.first, .append Block.first]
  have hcalls : ∀ {b}, .append b ∈ calls → b = Block.first := by simp [calls]
  have hsized : ∀ b, .append b ∈ calls → b.Sized := by
    intro b hb
    rw [hcalls hb]
    exact Block.sized_of_nil rfl rfl
  have hsub : appended calls ⊆ {Block.genesis.header, Block.first.header} := by
    rintro h (rfl | ⟨pre, b, c, hpre, -, rfl⟩)
    · exact .inl rfl
    · exact .inr (congrArg Block.header (hcalls (hpre.subset (by simp))))
  have hheight : ∀ pre, pre <+: calls → ∀ n, (grown pre).tipHeight = .ok n →
      n.toNat < 2 ^ 64 - 1 := by
    intro pre hpre n hn
    -- the prefixes end at three heights, none of them large
    have hone : (grown [.append Block.first]).tipHeight = .ok 1 := by decide +kernel
    have htwo : (grown calls).tipHeight = .ok 1 := by decide +kernel
    simp only [calls, List.prefix_cons_iff, List.prefix_nil] at hpre
    rcases hpre with rfl | ⟨_, rfl, rfl | ⟨_, rfl, rfl⟩⟩
    · cases hn
      decide
    · cases hone.symm.trans hn
      decide
    · cases htwo.symm.trans hn
      decide
  obtain ⟨height, tip, step, -⟩ :=
    inStep_of_grown hsized (coherent_first.injOn.mono hsub) hheight _ List.prefix_rfl
  exact ⟨height, tip, step⟩

end Chain
end ChainSync
