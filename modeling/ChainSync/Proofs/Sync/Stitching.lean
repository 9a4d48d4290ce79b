import ChainSync.Peer
import ChainSync.Proofs.Sync.Walking

/-!
# Stitching

What a stitch hands to the local chain is what the segment lists and the chain misses, from the frontier
upward: a body counts for a listed header only if it has its hash, a listed header is skipped exactly if
the chain has its hash, and the chain itself refuses what does not fit on its tip. So the chain is
extended by the missing headers, or by the first few of them if something fails (`run_extends`).
-/

namespace ChainSync.Sync

open Segment (Stocked)

variable {π : Type} [Peer π Id] {U : Set Header} {origin : Segment ByteMap} {L : List Block}
  {S passed rest : List Header} {new : List Block} {h p : Header} {b : Block}
  {seg : Segment ByteMap} {c : Chain} {current next : Hash} {count : UInt64}

/-- The headers of a list that none of the blocks has the hash of. -/
def missing (L : List Block) (hs : List Header) : List Header :=
  hs.filter fun h => h.hash ∉ L.map Block.hash

/-- What is missing of two lists in a row is missing of each. -/
@[simp]
lemma missing_append (L : List Block) (hs hs' : List Header) :
    missing L (hs ++ hs') = missing L hs ++ missing L hs' :=
  List.filter_append ..

/-- A header whose block is there is not missing. -/
lemma missing_singleton_of_mem (hh : h.hash ∈ L.map Block.hash) : missing L [h] = [] := by
  simp only [missing, List.filter_singleton]
  simp [hh]

/-- A header whose block is not there is missing. -/
lemma missing_singleton_of_not_mem (hh : h.hash ∉ L.map Block.hash) : missing L [h] = [h] := by
  simp only [missing, List.filter_singleton]
  simp [hh]

/-- What is missing is from the list. -/
lemma mem_of_mem_missing {hs : List Header} (hh : h ∈ missing L hs) : h ∈ hs :=
  List.mem_of_mem_filter hh

/-- A stitch has passed some of the listed headers, and the chain has taken what it missed of them. -/
structure Passed (origin : Segment ByteMap) (U : Set Header) (L : List Block)
    (passed rest : List Header) (new : List Block) (seg : Segment ByteMap) (c : Chain) : Prop where
  stock : Stocked origin seg U (passed ++ rest)
  hold : c.Holds (L ++ new)
  imported : new.map (·.header) = missing L passed

namespace Passed

/-- The blocks of the chain have known headers all along. -/
lemma known (at_ : Passed origin U L passed rest new seg c) (hL : ∀ b ∈ L, b.header ∈ U) :
    ∀ b ∈ L ++ new, b.header ∈ U := by
  intro b hb
  rcases List.mem_append.1 hb with hb | hb
  · exact hL b hb
  · have hh : b.header ∈ missing L passed := at_.imported ▸ List.mem_map_of_mem hb
    exact at_.stock.known _ (List.mem_append_left _ (mem_of_mem_missing hh))

/-- A header that is not passed yet was not handed over. -/
lemma hash_not_mem (at_ : Passed origin U L passed (h :: rest) new seg c) (co : Coherent U) :
    h.hash ∉ new.map Block.hash := by
  intro hmem
  obtain ⟨b, hb, hhash⟩ := List.mem_map.1 hmem
  have hh : b.header ∈ missing L passed := at_.imported ▸ List.mem_map_of_mem hb
  have nodup := at_.stock.nodup_hash co
  rw [List.map_append, List.nodup_append] at nodup
  exact nodup.2.2 _ (List.mem_map_of_mem (mem_of_mem_missing hh)) h.hash (by simp) hhash

/-- A header that the chain has is passed without handing over a block. -/
lemma skip (at_ : Passed origin U L passed (h :: rest) new seg c) (co : Coherent U)
    (hfound : c.header? h.hash ≠ .ok none) : Passed origin U L (passed ++ [h]) rest new seg c where
  stock := by simpa using at_.stock
  hold := at_.hold
  imported := by
    have hmem : h.hash ∈ L.map Block.hash := by
      by_contra hnot
      apply hfound
      rw [at_.hold.header?_eq_none_iff]
      intro b hb e
      have hall : h.hash ∈ (L ++ new).map Block.hash := e ▸ List.mem_map_of_mem hb
      rw [List.map_append, List.mem_append] at hall
      exact hall.elim hnot (at_.hash_not_mem co)
    rw [missing_append, missing_singleton_of_mem hmem, List.append_nil, at_.imported]

/-- A header that the chain takes the block of is passed. -/
lemma take {c' : Chain} (at_ : Passed origin U L passed (h :: rest) new seg c) (co : Coherent U)
    (hL : ∀ b ∈ L, b.header ∈ U) (hfound : c.header? h.hash = .ok none) (hb : b.Sized)
    (hheader : b.header = h) (happ : c.append b = .ok c') :
    Passed origin U L (passed ++ [h]) rest (new ++ [b]) seg c' where
  stock := by simpa using at_.stock
  hold := by
    obtain ⟨isNext, rfl⟩ := at_.hold.append_eq_ok_iff.1 happ
    have hlt := at_.stock.height_lt h (by simp)
    have hnum := isNext.number
    rw [Block.number, hheader] at hnum
    rw [← List.append_assoc]
    apply at_.hold.put isNext hb (by omega)
    intro b' hb' e
    have hknown := at_.stock.known h (by simp)
    rw [hheader]
    exact co.eq_of_hash (at_.known hL b' hb') hknown (e.trans (congrArg Header.hash hheader))
  imported := by
    have hnot : h.hash ∉ L.map Block.hash := by
      intro hmem
      obtain ⟨b', hb', e⟩ := List.mem_map.1 hmem
      exact at_.hold.header?_eq_none_iff.1 hfound b' (List.mem_append_left _ hb') e
    rw [missing_append, missing_singleton_of_not_mem hnot, List.map_append, at_.imported, ← hheader]
    rfl

end Passed

/-- A stitch stands at a hash of the list, with so many blocks handed over. -/
def StandsAt (origin : Segment ByteMap) (U : Set Header) (L : List Block) (S : List Header)
    (current : Hash) (count : UInt64) (seg : Segment ByteMap) (c : Chain) : Prop :=
  ∃ passed rest new, S = passed ++ rest ∧ (∃ h ∈ passed.getLast?, h.hash = current) ∧
    count.toNat = new.length ∧ Passed origin U L passed rest new seg c

/-- A stitch is to pass a hash of the list next. -/
def Faces (origin : Segment ByteMap) (U : Set Header) (L : List Block) (S : List Header)
    (next : Hash) (count : UInt64) (seg : Segment ByteMap) (c : Chain) : Prop :=
  ∃ passed h rest new, S = passed ++ h :: rest ∧ h.hash = next ∧
    count.toNat = new.length ∧ Passed origin U L passed (h :: rest) new seg c

/-- A stitch is over, wherever it stands. -/
def Halts (origin : Segment ByteMap) (U : Set Header) (L : List Block) (S : List Header)
    (seg : Segment ByteMap) (c : Chain) : Prop :=
  ∃ passed rest new, S = passed ++ rest ∧ Passed origin U L passed rest new seg c

/-- A stitch may be over where it stands. -/
lemma StandsAt.halts (at_ : StandsAt origin U L S current count seg c) : Halts origin U L S seg c := by
  obtain ⟨passed, rest, new, hS, -, -, at_⟩ := at_
  exact ⟨passed, rest, new, hS, at_⟩

/-- A stitch may be over before it passes the next header. -/
lemma Faces.halts (faces : Faces origin U L S next count seg c) : Halts origin U L S seg c := by
  obtain ⟨passed, h, rest, new, hS, -, -, at_⟩ := faces
  exact ⟨passed, h :: rest, new, hS, at_⟩

/-- Below the pivot the link of a listed header leads to the next one. -/
lemma StandsAt.faces (at_ : StandsAt origin U L S current count seg c) (hp : S.getLast? = some p)
    (hne : current ≠ p.hash) :
    ∃ next, seg.linkAt current = .ok (some next) ∧ Faces origin U L S next count seg c := by
  obtain ⟨passed, rest, new, rfl, ⟨h, hlast, rfl⟩, hcount, at_⟩ := at_
  cases rest with
  | nil =>
    rw [List.append_nil] at hp
    cases hlast.symm.trans hp
    exact absurd rfl hne
  | cons h' rest =>
    have link := (List.isChain_append.1 at_.stock.linked).2.2 h hlast h' rfl
    exact ⟨h'.hash, link.linkAt_eq, passed, h', rest, new, rfl, rfl, hcount, at_⟩

/-- A header that the chain has is passed by. -/
lemma Faces.skip (faces : Faces origin U L S next count seg c) (co : Coherent U)
    (hfound : c.header? next ≠ .ok none) : StandsAt origin U L S next count seg c := by
  obtain ⟨passed, h, rest, new, rfl, rfl, hcount, at_⟩ := faces
  exact ⟨passed ++ [h], rest, new, by simp, ⟨h, by simp, rfl⟩, hcount, at_.skip co hfound⟩

/-- A header that the chain misses is passed with its block. -/
lemma Faces.take {c' : Chain} (faces : Faces origin U L S next count seg c) (co : Coherent U)
    (hL : ∀ b ∈ L, b.header ∈ U) (hfound : c.header? next = .ok none) (hhash : b.hash = next)
    (hheader : b.header ∈ U) (hsized : b.Sized) (happ : c.append b = .ok c') :
    StandsAt origin U L S next (count + 1) seg c' := by
  obtain ⟨passed, h, rest, new, rfl, rfl, hcount, at_⟩ := faces
  have hb : b.header = h := co.eq_of_hash hheader (at_.stock.known h (by simp)) hhash
  have taken := at_.take co hL hfound hsized hb happ
  refine ⟨passed ++ [h], rest, new ++ [b], by simp, ⟨h, by simp, rfl⟩, ?_, taken⟩
  -- the chain is shorter than the largest word, so the count does not wrap around
  have hlt := taken.hold.length_lt
  simp only [List.length_append, List.length_singleton] at hlt ⊢
  rw [UInt64.toNat_add, hcount]
  simp only [UInt64.reduceToNat]
  omega

/-- What a stitch takes for the body of a hash has this hash. -/
lemma ensures_bodyOf (co : Coherent U) :
    Ensures U (Faces origin U L S next count) (bodyOf next : SyncT Id ByteMap Chain π _)
      fun r seg c => Faces origin U L S next count seg c ∧
        ∀ b, r = .ok b → b.hash = next ∧ b.header ∈ U ∧ b.Sized := by
  -- a stored body has the hash by its look-up, a fetched one by its fetch
  refine Ensures.bodyOf ?_ ?_
  · rintro seg c b ⟨passed, h, rest, new, -, -, -, at_⟩ hb
    obtain ⟨has, hhash⟩ := Segment.blockAt_eq_some_iff.1 hb
    exact ⟨hhash, at_.stock.rows.blocks b has, has.sized⟩
  · rintro seg c b ⟨passed, h, rest, new, hS, hh, hcount, at_⟩ hhash hheader hsized
    have stored := { at_ with stock := at_.stock.storeBlock co hsized hheader }
    exact ⟨⟨passed, h, rest, new, hS, hh, hcount, stored⟩, hhash, hheader, hsized⟩

/-- Going up to a successor passes it, or halts the stitch. -/
lemma ensures_advance (co : Coherent U) (hL : ∀ b ∈ L, b.header ∈ U) (hp : S.getLast? = some p)
    (hne : current ≠ p.hash) :
    Ensures U (StandsAt origin U L S current count)
      (advance current : SyncT Id ByteMap Chain π _) fun r seg c =>
        (∀ e, r = .error e → Halts origin U L S seg c) ∧
        ∀ x, r = .ok x →
          StandsAt origin U L S x.1 (if x.2 then count + 1 else count) seg c := by
  refine .advance (A := fun next taken => StandsAt origin U L S next (if taken then count + 1 else count))
    (fun seg c at_ => at_.faces hp hne) (fun next => ensures_bodyOf co)
    (fun next seg c faces => faces.halts) ?_ ?_
  · intro next seg c faces hfound
    exact faces.skip co hfound
  · rintro next seg c b c' faces ⟨hhash, hheader, hsized⟩ hfound happ
    exact faces.take co hL hfound hhash hheader hsized happ

/-- A stitch that comes to the pivot has passed the whole list. -/
lemma StandsAt.at_pivot (at_ : StandsAt origin U L S p.hash count seg c) (co : Coherent U)
    (hp : S.getLast? = some p) :
    ∃ new, count.toNat = new.length ∧ Passed origin U L S [] new seg c := by
  obtain ⟨passed, rest, new, rfl, ⟨h, hlast, hhash⟩, hcount, at_⟩ := at_
  have hh : h = p := co.eq_of_hash (at_.stock.known h (List.mem_append_left _ (List.mem_of_getLast? hlast)))
    (at_.stock.known p (List.mem_of_getLast? hp)) hhash
  subst hh
  have nodup := at_.stock.nodup_hash co
  cases rest with
  | nil => exact ⟨new, hcount, by simpa using at_⟩
  | cons h' rest =>
    -- a header above would be the pivot, too, and its hash would occur twice
    rw [List.map_append, List.nodup_append] at nodup
    rw [List.getLast?_append_of_ne_nil _ (List.cons_ne_nil _ _)] at hp
    have hlow := List.mem_map_of_mem (f := Header.hash) (List.mem_of_getLast? hlast)
    have hhigh := List.mem_map_of_mem (f := Header.hash) (List.mem_of_getLast? hp)
    exact absurd rfl (nodup.2.2 _ hlow _ hhigh)

/-- A stitch that goes up passes the whole list, or halts. -/
lemma ensures_climbWithin (co : Coherent U) (hL : ∀ b ∈ L, b.header ∈ U)
    (hp : S.getLast? = some p) (steps : Nat) :
    Ensures U (StandsAt origin U L S current count)
      (climbWithin p.hash steps current count : SyncT Id ByteMap Chain π _) fun r seg c =>
        Halts origin U L S seg c ∧ ∀ n, r = .ok (some n) →
          ∃ new, n.toNat = new.length ∧ Passed origin U L S [] new seg c := by
  have climb := Ensures.climbWithin (π := π) (U := U) (A := StandsAt origin U L S)
    (fun current count seg c at_ => at_.halts)
    (fun current count hne => ensures_advance co hL hp hne) steps current count
  exact climb.mono (fun _ _ => id) fun r seg c h => ⟨h.1, fun n hn => (h.2 n hn).at_pivot co hp⟩

/-- A stitch may be over before it begins. -/
lemma halts_of_stocked (stock : Stocked origin seg U S) (hold : c.Holds L) :
    Halts origin U L S seg c := by
  refine ⟨[], S, [], rfl, stock, ?_, rfl⟩
  rwa [List.append_nil]

/-- What a stitch that halts has handed over is the first of what the chain missed. -/
lemma Halts.exists_handed (halts : Halts origin U L S seg c) :
    ∃ new, Stocked origin seg U S ∧ c.Holds (L ++ new) ∧ new.map (·.header) <+: missing L S := by
  obtain ⟨passed, rest, new, rfl, at_⟩ := halts
  refine ⟨new, at_.stock, at_.hold, ?_⟩
  rw [at_.imported, missing_append]
  exact List.prefix_append _ _

/-- A stitch stands at the frontier first, with nothing handed over. -/
lemma standsAt_frontier (stock : Stocked origin seg U S) (hold : c.Holds L) (hf : S.head? = some h)
    (hfound : c.header? h.hash ≠ .ok none) : StandsAt origin U L S h.hash 0 seg c := by
  obtain ⟨rest, rfl⟩ := List.head?_eq_some_iff.1 hf
  have hmem : h.hash ∈ L.map Block.hash := by
    by_contra hnot
    apply hfound
    rw [hold.header?_eq_none_iff]
    intro b hb e
    exact hnot (e ▸ List.mem_map_of_mem hb)
  refine ⟨[h], rest, [], rfl, ⟨h, rfl, rfl⟩, rfl, stock, ?_, ?_⟩
  · rwa [List.append_nil]
  · rw [missing_singleton_of_mem hmem]
    rfl

/-- A stitch is done: the chain has what it missed, and the segment is cleared. -/
def Done (L : List Block) (S : List Header) (n : UInt64) (seg : Segment ByteMap) (c : Chain) : Prop :=
  ∃ new, n.toNat = new.length ∧ c.Holds (L ++ new) ∧ new.map (·.header) = missing L S ∧
    seg = Segment.empty ∧ S ≠ []

/-- A stitch that goes up from the frontier passes the whole list, or halts. -/
lemma ensures_climb (co : Coherent U) (hL : ∀ b ∈ L, b.header ∈ U) (steps : Nat) :
    Ensures U (fun seg c => Stocked origin seg U S ∧ c.Holds L)
      (climb steps : SyncT Id ByteMap Chain π _) fun r seg c =>
        Halts origin U L S seg c ∧ ∀ n, r = .ok (some n) →
          S ≠ [] ∧ ∃ new, n.toNat = new.length ∧ Passed origin U L S [] new seg c := by
  refine .climb (fun seg c h => halts_of_stocked h.1 h.2) ?_
  rintro seg c ends known ⟨stock, hold⟩ hends hfound
  obtain ⟨hf, hp⟩ := stock.ends hends
  have hne : S ≠ [] := List.ne_nil_of_mem (List.mem_of_head? hf)
  have at_ : StandsAt origin U L S ends.frontier.hash 0 seg c := by
    apply standsAt_frontier stock hold hf
    rw [hfound]
    nofun
  refine (ensures_climbWithin co hL hp steps).mono ?_ fun r seg c h =>
    ⟨h.1, fun n hn => ⟨hne, h.2 n hn⟩⟩
  rintro _ _ ⟨rfl, rfl⟩
  exact at_

/-- A stitch hands over all that the chain misses and clears the segment, or halts. -/
lemma ensures_stitch (co : Coherent U) (hL : ∀ b ∈ L, b.header ∈ U) :
    Ensures U (fun seg c => Stocked origin seg U S ∧ c.Holds L)
      (stitch : SyncT Id ByteMap Chain π _) fun r seg c =>
        (∀ n, r = .ok n → Done L S n seg c) ∧
        ∀ e, r = .error e → Halts origin U L S seg c := by
  refine (Ensures.stitch (ensures_climb co hL)).mono (fun _ _ => id) fun r seg c h => ⟨?_, h.2⟩
  intro n hn
  obtain ⟨hcleared, seg', hne, new, hcount, passed⟩ := h.1 n hn
  exact ⟨new, hcount, passed.hold, passed.imported, hcleared, hne⟩

/-- If the chain has the last header of a lineage, it has them all: the parent of genesis, which it does
not have, is no hash of a header. -/
lemma mem_of_getLast?_mem {hs : List Header} (co : Coherent U) (hzero : ∀ h ∈ U, h.hash ≠ Hash.zero)
    (hold : c.Holds L) (hL : ∀ b ∈ L, b.header ∈ U) (lin : Lineage hs) (hhs : ∀ h ∈ hs, h ∈ U)
    (hp : hs.getLast? = some p) (hmem : p.hash ∈ L.map Block.hash) :
    ∀ h ∈ hs, h.hash ∈ L.map Block.hash := by
  induction hs using List.reverseRecOn generalizing p with
  | nil => nofun
  | append_singleton hs q ih =>
    rw [List.getLast?_concat] at hp
    cases hp
    intro h hh
    rcases List.mem_append.1 hh with hh | hh
    · obtain ⟨q', hq'⟩ := Option.ne_none_iff_exists'.1
        (List.getLast?_eq_none_iff.not.2 (List.ne_nil_of_mem hh))
      have hparent := (List.isChain_append.1 lin).2.2 q' hq' q rfl
      have hknown := hhs q' (List.mem_append_left _ (List.mem_of_getLast? hq'))
      obtain ⟨b, hb, hhash⟩ := List.mem_map.1 hmem
      have hheader : b.header = q := co.eq_of_hash (hL b hb) (hhs q (by simp)) hhash
      rw [Header.IsParent, ← hheader] at hparent
      -- the chain has the parent of every block but genesis
      rcases hold.parent_mem hb with rfl | ⟨b', hb', hbelow, -⟩
      · exact absurd hparent.symm (hzero q' hknown)
      · have hq : q'.hash ∈ L.map Block.hash := by
          rw [← hparent, hbelow]
          exact List.mem_map_of_mem hb'
        exact ih (List.isChain_append.1 lin).1 (fun h hh => hhs h (List.mem_append_left _ hh)) hq' hq
          h hh
    · rwa [List.mem_singleton.1 hh]

/-- A chain that took what it missed has the last header; if it missed anything, this is its tip. -/
lemma tip_of_imported (co : Coherent U) (hzero : ∀ h ∈ U, h.hash ≠ Hash.zero) {c₀ : Chain}
    (hold₀ : c₀.Holds L) (hL : ∀ b ∈ L, b.header ∈ U) (lin : Lineage S) (hS : ∀ h ∈ S, h ∈ U)
    (hp : S.getLast? = some p) (hold : c.Holds (L ++ new))
    (himported : new.map (·.header) = missing L S) :
    c.header? p.hash = .ok (some p) ∧ (new ≠ [] → c.tip = .ok (p.number, some p.hash)) := by
  by_cases hmem : p.hash ∈ L.map Block.hash
  · obtain ⟨b, hb, hhash⟩ := List.mem_map.1 hmem
    have hheader : b.header = p := co.eq_of_hash (hL b hb) (hS p (List.mem_of_getLast? hp)) hhash
    refine ⟨?_, ?_⟩
    · rw [← hheader]
      exact hold.header?_of_mem (List.mem_append_left _ hb)
    · intro hne
      -- a chain that had the pivot missed nothing
      have hall := mem_of_getLast?_mem co hzero hold₀ hL lin hS hp hmem
      have hnone : missing L S = [] := by
        rw [missing, List.filter_eq_nil_iff]
        intro h hh
        simpa using hall h hh
      rw [hnone, List.map_eq_nil_iff] at himported
      exact absurd himported hne
  · obtain ⟨init, rfl⟩ := List.getLast?_eq_some_iff.1 hp
    -- the pivot was missed, so its block was taken last
    rw [missing_append, missing_singleton_of_not_mem hmem, List.map_eq_append_iff] at himported
    obtain ⟨before, last, rfl, -, hlast⟩ := himported
    obtain ⟨b, rfl, rfl⟩ := List.map_eq_singleton_iff.1 hlast
    have ht : (L ++ (before ++ [b])).getLast? = some b := by
      rw [← List.append_assoc, List.getLast?_concat]
    exact ⟨hold.header?_of_mem (by simp), fun _ => (hold.inStep ht).tip⟩

/-- What a run makes of the canonical chain, whatever the peer does: if it succeeds, the chain is
extended by exactly the headers of the segment that it missed, has the pivot, and the segment is
cleared; if it fails, the chain is extended by the first few of them, and the segment is kept. -/
theorem run_extends {s t : SyncState ByteMap Chain π} {result : Except SyncError UInt64}
    {base : Segment ByteMap} {calls : List Segment.Call}
    (co : Coherent U) (hzero : ∀ h ∈ U, h.hash ≠ Hash.zero)
    (hold : s.chain.Holds L) (hL : ∀ b ∈ L, b.header ∈ U)
    (begun : Segment.Begun U base calls) (hseg : s.segment = Segment.ran base calls)
    (hrun : Operation.exec run s = (result, t))
    (brings : ∀ log, t.events.toList = s.events.toList ++ log → Peer.Brings U s.peer log) :
    ∃ S new, (Operation.exec syncToLocal s).2.segment.Spans S ∧ t.chain.Holds (L ++ new) ∧
      match result with
      | .ok n =>
        new.map (·.header) = missing L S ∧ n.toNat = new.length ∧ t.segment = Segment.empty ∧
          ∃ p, S.getLast? = some p ∧ t.chain.header? p.hash = .ok (some p) ∧
            (0 < n → t.chain.tip = .ok (p.number, some p.hash))
      | .error _ => new.map (·.header) <+: missing L S ∧ t.segment.Spans S := by
  obtain ⟨hs, stock⟩ := begun.stocked co
  rw [← hseg] at stock
  have walk : KeepsWalking (Segment.underlying base calls) U s.chain hs.getLast?
      (syncToLocal : SyncT Id ByteMap Chain π _) := keepsWalking_syncToLocal hold hL co
  obtain ⟨log, first⟩ := walk.traced s
  have kept := walk.holds s log first
  have hbind : Operation.exec run s = _ := Operation.exec_bind syncToLocal (fun _ => stitch) s
  rw [hrun] at hbind
  rcases hwalk : Operation.exec syncToLocal s with ⟨e | found, mid⟩ <;>
    rw [hwalk] at first kept hbind
  -- the walk fails, and nothing has been handed over
  · cases hbind
    obtain ⟨⟨S, stock', -⟩, hchain⟩ := kept (brings log first.events) ⟨⟨hs, stock, rfl⟩, rfl⟩
    refine ⟨S, [], stock'.spans, ?_, List.nil_prefix, stock'.spans⟩
    rwa [List.append_nil, hchain]
  · obtain ⟨log', second⟩ := (Traced.stitch : Traced (stitch : SyncT Id ByteMap Chain π _)) mid
    have hstitch : Operation.exec stitch mid = (result, t) := hbind.symm
    have second' := second
    rw [hstitch] at second'
    -- what the peer brings is split where the walk ends and the stitch begins
    obtain ⟨brings₁, brings₂⟩ := Peer.brings_append.1 (brings _ (first.trans second').events)
    rw [← first.peer] at brings₂
    obtain ⟨⟨S, stock', -⟩, hchain⟩ := kept brings₁ ⟨⟨hs, stock, rfl⟩, rfl⟩
    have hold' : mid.chain.Holds L := by rwa [hchain]
    have ended := (ensures_stitch co hL).holds mid log' second brings₂ ⟨stock', hold'⟩
    rw [hstitch] at ended
    cases result with
    | error e =>
      obtain ⟨new, stock'', hnew, himported⟩ := (ended.2 e rfl).exists_handed
      exact ⟨S, new, stock'.spans, hnew, himported, stock''.spans⟩
    | ok n =>
      obtain ⟨new, hn, hnew, himported, hcleared, hne⟩ := ended.1 n rfl
      refine ⟨S, new, stock'.spans, hnew, himported, hn, hcleared, ?_⟩
      obtain ⟨p, hp⟩ := Option.ne_none_iff_exists'.1 (List.getLast?_eq_none_iff.not.2 hne)
      obtain ⟨hfound, htip⟩ :=
        tip_of_imported co hzero hold hL stock'.lineage stock'.known hp hnew himported
      refine ⟨p, hp, hfound, fun hpos => htip ?_⟩
      rintro rfl
      rw [UInt64.lt_iff_toNat_lt, hn] at hpos
      exact absurd hpos (Nat.lt_irrefl _)

/-- A peer that serves nothing brings nothing. -/
lemma brings_of_scripted_empty (U : Set Header) (log : List SyncEvent) :
    Peer.Brings U ({} : ScriptedPeer) log :=
  Peer.brings_of_served (by simp) log

/-- Over a chain that has only genesis, a child of genesis is trusted and a run is made. -/
theorem run_extends_first :
    let s : SyncState ByteMap Chain ScriptedPeer :=
      { segment := Segment.ran Segment.empty [.trust Block.first]
        chain := Chain.ofBlocks [Block.genesis], peer := {} }
    ∃ new, (Operation.exec run s).2.chain.Holds (Block.genesis :: new) := by
  intro s
  have hL : ∀ b ∈ [Block.genesis],
      b.header ∈ ({Block.genesis.header, Block.first.header} : Set Header) := by
    rintro b (_ | ⟨_, ⟨⟩⟩)
    exact .inl rfl
  obtain ⟨S, new, -, hold, -⟩ := run_extends (s := s) (L := [Block.genesis]) coherent_first
    hash_ne_zero_first Chain.holds_genesis hL Segment.begun_first rfl (Prod.eta _).symm
    fun log _ => brings_of_scripted_empty _ log
  exact ⟨new, hold⟩

end ChainSync.Sync
