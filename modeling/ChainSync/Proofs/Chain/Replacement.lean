import ChainSync.Proofs.Canonical

/-!
# Blocks that replace each other

A chain takes any block under any number, in place of the one that stood there: forks, gaps and the same
block again. To its readers it is a map from numbers to blocks, which a put updates at one number and a
clearing empties (`mapped`). The entry of a replaced block stays in the index, but a look-up by its hash
finds nothing, unless the block is put back (`Mirrors`).

This holds after any puts and clearings (`mirrors_written`), if no two different headers among the blocks
share a hash.
-/

namespace ChainSync.Chain

/-- The calls that write to a chain whatever stands there. -/
inductive WriteCall where
  | put (b : Block)
  | clear

namespace WriteCall

/-- The chain after a call. -/
def after (c : Chain) : WriteCall → Chain
  | put b => c.put b
  | clear => c.clear

/-- The map from numbers to blocks after a call. -/
def onMap (m : UInt64 → Option Block) : WriteCall → UInt64 → Option Block
  | put b => Function.update m b.number (some b)
  | clear => fun _ => none

/-- The blocks that were put and not cleared, after a call. -/
def onList (bs : List Block) : WriteCall → List Block
  | put b => bs ++ [b]
  | clear => []

end WriteCall

/-- The chain after some calls. -/
def written (calls : List WriteCall) : Chain := calls.foldl WriteCall.after empty

/-- Under each number the block that was put there last since everything was cleared. -/
def mapped (calls : List WriteCall) : UInt64 → Option Block :=
  calls.foldl WriteCall.onMap fun _ => none

/-- The blocks that were put since everything was cleared, in order. -/
def current (calls : List WriteCall) : List Block := calls.foldl WriteCall.onList []

/-- A chain shows a map from numbers to blocks, the last of which was put last of the blocks `bs`. -/
structure Mirrors (c : Chain) (m : UInt64 → Option Block) (bs : List Block) : Prop where
  block? : ∀ n, c.block? n = .ok (m n)
  hashAt? : ∀ n, c.hashAt? n = .ok ((m n).map Block.hash)
  /-- What the map has is found by its hash. -/
  found : ∀ n b, m n = some b →
    c.blockByHash? b.hash = .ok (some b) ∧ c.header? b.hash = .ok (some b.header)
  /-- Nothing else is found by its hash, though it may have been put. -/
  missing : ∀ hash, (∀ n b, m n = some b → b.hash ≠ hash) →
    c.blockByHash? hash = .ok none ∧ c.header? hash = .ok none
  /-- The index has an entry for every block that was put. -/
  index : ∀ b ∈ bs, c.index[b.hash.bytes]? = some (Bytes.be64 b.number)
  tip : c.tip = .ok (bs.getLast?.elim 0 (·.number), bs.getLast?.map (·.hash))

variable {bs : List Block} {b b' : Block} {n : UInt64} {hash : Hash} {calls : List WriteCall}

/-- The last block of a list with a number. -/
def latest (bs : List Block) (n : UInt64) : Option Block := bs.reverse.find? (·.number = n)

/-! ## The latest block under a number -/

/-- One more block is an update at its number. -/
lemma latest_concat (bs : List Block) (b : Block) :
    latest (bs ++ [b]) = Function.update (latest bs) b.number (some b) := by
  funext n
  rw [latest, List.reverse_concat, List.find?_cons, Function.update_apply]
  by_cases e : n = b.number
  · simp [e]
  · simp [e, Ne.symm e, latest]

/-- The last block with a number has that number. -/
lemma number_of_latest (h : latest bs n = some b) : b.number = n := by
  simpa using List.find?_some h

/-- The last block with a number is one of the blocks. -/
lemma mem_of_latest (h : latest bs n = some b) : b ∈ bs :=
  List.mem_reverse.1 (List.mem_of_find?_eq_some h)

/-! ## Look-ups after some puts -/

/-- The block under a number is the last one that was put with it. -/
lemma block?_ofBlocks (hsized : ∀ b ∈ bs, b.Sized) (n : UInt64) :
    (ofBlocks bs).block? n = .ok (latest bs n) := by
  have hrow : (ofBlocks bs).blocks[Bytes.be64 n]? = (latest bs n).map Stored.toBytes := by
    rw [blocks_ofBlocks, latest]
    simp
  rw [block?, hrow]
  cases hlatest : latest bs n with
  | none => rfl
  | some b => simp [Block.ofBytes_toBytes (hsized b (mem_of_latest hlatest))]

/-- Blocks that share a hash share a number, so the index leads to it whichever of them was put last. -/
lemma index_of_mem (hinj : {h | ∃ b ∈ bs, b.header = h}.InjOn Header.hash) (hb : b ∈ bs) :
    (ofBlocks bs).index[b.hash.bytes]? = some (Bytes.be64 b.number) := by
  rw [index_ofBlocks]
  cases hfind : bs.reverse.find? (·.hash.bytes = b.hash.bytes) with
  | none => simpa using List.find?_eq_none.1 hfind b (List.mem_reverse.2 hb)
  | some b' =>
    have hb' : b' ∈ bs := List.mem_reverse.1 (List.mem_of_find?_eq_some hfind)
    have hhash : b'.hash = b.hash := by simpa using List.find?_some hfind
    have hheader : b'.header = b.header := hinj ⟨b', hb', rfl⟩ ⟨b, hb, rfl⟩ hhash
    rw [Option.map_some, Block.number, Block.number, hheader]

/-- The index has no entry for a hash that no block has. -/
lemma index_eq_none (h : ∀ b ∈ bs, b.hash ≠ hash) : (ofBlocks bs).index[hash.bytes]? = none := by
  rw [index_ofBlocks, Option.map_eq_none_iff, List.find?_eq_none]
  simpa using h

/-- A look-up by hash comes to what stands under the number, if this has the hash. -/
lemma blockByHash?_of_index (hsized : ∀ b ∈ bs, b.Sized)
    (hentry : (ofBlocks bs).index[hash.bytes]? = some (Bytes.be64 n)) :
    (ofBlocks bs).blockByHash? hash = .ok ((latest bs n).filter (·.hash = hash)) := by
  simp only [blockByHash?, hentry, readNumber_be64, block?_ofBlocks hsized, bind, Except.bind, pure,
    Except.pure]

/-- The header under a hash is that of the block under it. -/
lemma header?_of_blockByHash? {c : Chain} {found : Option Block} (h : c.blockByHash? hash = .ok found) :
    c.header? hash = .ok (found.map (·.header)) := by
  simp only [header?, h, bind, Except.bind, pure, Except.pure]

/-- A chain of blocks that were put shows the last one under each number. -/
lemma mirrors_ofBlocks (hsized : ∀ b ∈ bs, b.Sized)
    (hinj : {h | ∃ b ∈ bs, b.header = h}.InjOn Header.hash) : Mirrors (ofBlocks bs) (latest bs) bs where
  block? := block?_ofBlocks hsized
  hashAt? := by
    intro n
    simp only [hashAt?, block?_ofBlocks hsized, bind, Except.bind, pure, Except.pure]
  found := by
    intro n b hlatest
    have hentry := index_of_mem hinj (mem_of_latest hlatest)
    rw [number_of_latest hlatest] at hentry
    have hfound : (ofBlocks bs).blockByHash? b.hash = .ok (some b) := by
      rw [blockByHash?_of_index hsized hentry, hlatest]
      simp
    exact ⟨hfound, header?_of_blockByHash? hfound⟩
  missing := by
    intro hash hmissing
    have hnone : (ofBlocks bs).blockByHash? hash = .ok none := by
      by_cases hput : ∃ b ∈ bs, b.hash = hash
      · -- the entry of a block that was replaced leads to another block
        obtain ⟨b, hb, rfl⟩ := hput
        rw [blockByHash?_of_index hsized (index_of_mem hinj hb), Except.ok.injEq,
          Option.filter_eq_none_iff]
        intro b' hb'
        simpa using hmissing b.number b' hb'
      · have hentry := index_eq_none fun b hb e => hput ⟨b, hb, e⟩
        rw [blockByHash?, hentry]
    exact ⟨hnone, header?_of_blockByHash? hnone⟩
  index b hb := index_of_mem hinj hb
  tip := by
    simp only [tip, tipHeight_ofBlocks, tipHash?_ofBlocks, bind, Except.bind, pure, Except.pure]

/-! ## Puts and clearings -/

/-- The last call comes on top of what the others left. -/
lemma current_concat (calls : List WriteCall) (call : WriteCall) :
    current (calls ++ [call]) = call.onList (current calls) := by
  simp [current]

/-- A block that is current was put. -/
lemma mem_of_mem_current (hb : b ∈ current calls) : .put b ∈ calls := by
  induction calls using List.reverseRecOn with
  | nil => cases hb
  | append_singleton calls call ih =>
    rw [current_concat] at hb
    cases call with
    | clear => cases hb
    | put b' =>
      rcases List.mem_append.1 hb with hb | hb
      · exact List.mem_append_left _ (ih hb)
      · simp [List.mem_singleton.1 hb]

/-- Under each number stands the last of the blocks that were put and not cleared. -/
lemma mapped_eq (calls : List WriteCall) : mapped calls = latest (current calls) := by
  induction calls using List.reverseRecOn with
  | nil => rfl
  | append_singleton calls call ih =>
    have hafter : mapped (calls ++ [call]) = call.onMap (mapped calls) := by simp [mapped]
    rw [hafter, current_concat, ih]
    cases call with
    | put b => exact (latest_concat (current calls) b).symm
    | clear => rfl

/-- No put leaves a marker beside the two of the tip. -/
lemma markers_ofBlocks (bs : List Block) {key : Bytes} (hheight : tipHeightKey ≠ key)
    (hhash : tipHashKey ≠ key) : (ofBlocks bs).markers[key]? = none := by
  induction bs using List.reverseRecOn with
  | nil => rfl
  | append_singleton bs b ih =>
    rw [ofBlocks_concat, put_markers, Std.ExtTreeMap.getElem?_insert, Std.ExtTreeMap.getElem?_insert]
    simp [hheight, hhash, ih]

/-- A cleared chain is empty. -/
lemma clear_ofBlocks (bs : List Block) : (ofBlocks bs).clear = empty := by
  have hmarkers : ((ofBlocks bs).markers.erase tipHeightKey).erase tipHashKey = ∅ := by
    ext1 key
    rw [Std.ExtTreeMap.getElem?_erase, Std.ExtTreeMap.getElem?_erase]
    by_cases hhash : tipHashKey = key
    · simp [hhash]
    · by_cases hheight : tipHeightKey = key
      · simp [hheight]
      · simp [hhash, hheight, markers_ofBlocks bs hheight hhash]
  rw [clear, hmarkers]
  rfl

/-- What was put before a clearing leaves no trace. -/
lemma written_eq (calls : List WriteCall) : written calls = ofBlocks (current calls) := by
  induction calls using List.reverseRecOn with
  | nil => rfl
  | append_singleton calls call ih =>
    have hafter : written (calls ++ [call]) = call.after (written calls) := by simp [written]
    rw [hafter, current_concat, ih]
    cases call with
    | put b => exact (ofBlocks_concat (current calls) b).symm
    | clear => exact clear_ofBlocks (current calls)

/-- Whatever blocks are put and whenever everything is cleared, a chain shows the map from numbers to the
blocks that were put there last. -/
theorem mirrors_written (hsized : ∀ b, .put b ∈ calls → b.Sized)
    (hinj : {h | ∃ b, .put b ∈ calls ∧ b.header = h}.InjOn Header.hash) :
    Mirrors (written calls) (mapped calls) (current calls) := by
  rw [written_eq, mapped_eq]
  apply mirrors_ofBlocks fun b hb => hsized b (mem_of_mem_current hb)
  apply hinj.mono
  rintro _ ⟨b, hb, rfl⟩
  exact ⟨b, mem_of_mem_current hb, rfl⟩

/-- A block with the number of `first` on another fork. -/
def rival : Block where
  header :=
    { number := 1, parent := Block.genesis.hash, merkleRoot := Hash.zero, timestamp := 2 }

/-- The two forks differ in their hashes. -/
lemma rival_hash_ne : rival.hash ≠ Block.first.hash := by decide +kernel

/-- A block is put back in place of its rival, which is found no more although the index has it. -/
theorem mirrors_written_rival :
    let c := written [.put Block.first, .clear, .put Block.first, .put rival, .put Block.first]
    c.blockByHash? Block.first.hash = .ok (some Block.first) ∧
      c.blockByHash? rival.hash = .ok none ∧
      c.index[rival.hash.bytes]? = some (Bytes.be64 1) ∧
      c.tip = .ok (1, some Block.first.hash) := by
  let calls : List WriteCall :=
    [.put Block.first, .clear, .put Block.first, .put rival, .put Block.first]
  have hcalls : ∀ {b}, .put b ∈ calls → b = Block.first ∨ b = rival := by
    intro b hb
    simpa [calls, or_comm] using hb
  have hsized : ∀ b, .put b ∈ calls → b.Sized := by
    intro b hb
    rcases hcalls hb with rfl | rfl <;> exact Block.sized_of_nil rfl rfl
  have hinj : {h | ∃ b, .put b ∈ calls ∧ b.header = h}.InjOn Header.hash := by
    rintro _ ⟨b, hb, rfl⟩ _ ⟨b', hb', rfl⟩ e
    rcases hcalls hb with rfl | rfl <;> rcases hcalls hb' with rfl | rfl
    · rfl
    · exact absurd e.symm rival_hash_ne
    · exact absurd e rival_hash_ne
    · rfl
  have mirrors := mirrors_written hsized hinj
  have hfirst : mapped calls 1 = some Block.first := by
    simp [calls, mapped, WriteCall.onMap, Block.number, Block.first, rival]
  refine ⟨(mirrors.found 1 Block.first hfirst).1, (mirrors.missing rival.hash ?_).1,
    mirrors.index rival (by simp [calls, current, WriteCall.onList]), mirrors.tip⟩
  -- the map has only one block
  intro n b hb
  have hn : n = 1 := by
    have hlatest : latest (current calls) n = some b := mapped_eq calls ▸ hb
    rw [← number_of_latest hlatest]
    rcases hcalls (mem_of_mem_current (mem_of_latest hlatest)) with rfl | rfl <;> rfl
  subst hn
  cases hfirst.symm.trans hb
  exact rival_hash_ne.symm

end ChainSync.Chain
