import Mathlib.Data.List.Chain
import Mathlib.Data.List.Nodup
import Mathlib.Data.Set.Function
import Mathlib.Logic.Relation
import ChainSync.Block

/-!
# Lineages of headers

A lineage is a list of headers, each the parent of the next. What the hash of a header is worth
depends on the headers that occur: they are `Coherent` if no two of them share a hash and none is its
own ancestor. A lineage of coherent headers meets no hash twice (`Lineage.nodup_hash`), so that a
header in it is found by its hash.
-/

namespace ChainSync

/-- The hash of `a` is the one that `b` names as its parent. -/
def Header.IsParent (a b : Header) : Prop := b.parent = a.hash

/-- A list of headers, each the parent of the next. -/
abbrev Lineage (hs : List Header) : Prop := hs.IsChain Header.IsParent

/-- The relation of a parent to its child within a set of headers. -/
def ParentIn (U : Set Header) (a b : Header) : Prop := a ∈ U ∧ b ∈ U ∧ a.IsParent b

/-- Headers that their hashes tell apart, none of which is its own ancestor. -/
structure Coherent (U : Set Header) : Prop where
  /-- No two different headers share a hash. -/
  injOn : U.InjOn Header.hash
  /-- Parent links form no cycle. -/
  acyclic : ∀ h, ¬ Relation.TransGen (ParentIn U) h h

/-- A relation along a list relates each element to the next one. -/
lemma rel_of_isChain {α : Type} {R : α → α → Prop} {l : List α} {i : Nat} {a b : α} (h : l.IsChain R)
    (ha : l[i]? = some a) (hb : l[i + 1]? = some b) : R a b := by
  obtain ⟨_, rfl⟩ := List.getElem?_eq_some_iff.1 ha
  obtain ⟨hlt, rfl⟩ := List.getElem?_eq_some_iff.1 hb
  exact h.getElem i hlt

/-- Numbers that grow from parent to child grow from ancestor to descendant. -/
lemma number_lt_of_ancestor {U : Set Header} {a b : Header}
    (hlt : ∀ a ∈ U, ∀ b ∈ U, a.IsParent b → a.number < b.number)
    (desc : Relation.TransGen (ParentIn U) a b) : a.number < b.number := by
  induction desc with
  | single p => exact hlt _ p.1 _ p.2.1 p.2.2
  | tail _ p ih => exact UInt64.lt_trans ih (hlt _ p.1 _ p.2.1 p.2.2)

namespace Coherent

variable {U V : Set Header} {a b : Header}

/-- Fewer headers are coherent if more of them are. -/
lemma mono (co : Coherent V) (sub : U ⊆ V) : Coherent U where
  injOn := co.injOn.mono sub
  acyclic h cyc := by
    have step : ParentIn U ≤ ParentIn V := fun _ _ ⟨ha, hb, hab⟩ => ⟨sub ha, sub hb, hab⟩
    exact co.acyclic h (Relation.TransGen.mono step h h cyc)

/-- Coherent headers with one hash are one header. -/
lemma eq_of_hash (co : Coherent U) (ha : a ∈ U) (hb : b ∈ U) (h : a.hash = b.hash) : a = b :=
  co.injOn ha hb h

/-- Headers with numbers that grow from parent to child have no cycle. -/
lemma of_number_lt (hinj : U.InjOn Header.hash)
    (hlt : ∀ a ∈ U, ∀ b ∈ U, a.IsParent b → a.number < b.number) : Coherent U where
  injOn := hinj
  acyclic _ cyc := UInt64.lt_irrefl _ (number_lt_of_ancestor hlt cyc)

end Coherent

namespace Lineage

variable {U : Set Header} {hs : List Header} {a b : Header}

/-- In a lineage everything before a header is an ancestor of it. -/
lemma pairwise_ancestor (lin : Lineage hs) (sub : ∀ h ∈ hs, h ∈ U) :
    hs.Pairwise (Relation.TransGen (ParentIn U)) := by
  have steps : hs.IsChain (Relation.TransGen (ParentIn U)) := by
    apply lin.imp_of_mem_imp
    intro a b ha hb hab
    exact .single ⟨sub a ha, sub b hb, hab⟩
  exact steps.pairwise

/-- No hash occurs twice in a lineage of coherent headers. -/
lemma nodup_hash (lin : Lineage hs) (co : Coherent U) (sub : ∀ h ∈ hs, h ∈ U) :
    (hs.map Header.hash).Nodup := by
  rw [List.Nodup, List.pairwise_map]
  apply (lin.pairwise_ancestor sub).imp_of_mem
  intro a b ha hb desc same
  have e := co.eq_of_hash (sub a ha) (sub b hb) same
  subst e
  exact co.acyclic a desc

/-- A lineage grows at its lower end by a parent. -/
lemma cons (lin : Lineage hs) (h : ∀ f ∈ hs.head?, a.IsParent f) : Lineage (a :: hs) :=
  List.IsChain.cons lin h

/-- A lineage grows at its upper end by a child. -/
lemma concat (lin : Lineage hs) (h : ∀ p ∈ hs.getLast?, p.IsParent b) : Lineage (hs ++ [b]) := by
  apply List.IsChain.append lin (List.isChain_singleton b)
  rintro p hp _ ⟨⟩
  exact h p hp

end Lineage

/-- The first block on top of genesis in a small chain. -/
def Block.first : Block where
  header :=
    { number := 1, parent := Block.genesis.hash, merkleRoot := Hash.zero, timestamp := 1 }

/-- The block on top of `first`. -/
def Block.second : Block where
  header :=
    { number := 2, parent := Block.first.hash, merkleRoot := Hash.zero, timestamp := 2 }

/-- The hash that stands for no block and those of the small chain are different. -/
lemma Block.nodup_hashes :
    [Hash.zero, Block.genesis.hash, Block.first.hash, Block.second.hash].Nodup := by
  decide +kernel

/-- The hash of genesis is not the zero hash. -/
lemma Block.genesis_hash_ne_zero : Block.genesis.hash ≠ Hash.zero :=
  (List.rel_of_pairwise_cons Block.nodup_hashes (by simp)).symm

/-- The hash of the first block is not the zero hash. -/
lemma Block.first_hash_ne_zero : Block.first.hash ≠ Hash.zero :=
  (List.rel_of_pairwise_cons Block.nodup_hashes (by simp)).symm

/-- The hash of the second block is not the zero hash. -/
lemma Block.second_hash_ne_zero : Block.second.hash ≠ Hash.zero :=
  (List.rel_of_pairwise_cons Block.nodup_hashes (by simp)).symm

/-- The first block has another hash than genesis. -/
lemma Block.first_hash_ne : Block.first.hash ≠ Block.genesis.hash :=
  (List.rel_of_pairwise_cons Block.nodup_hashes.of_cons (by simp)).symm

/-- The second block has another hash than genesis. -/
lemma Block.second_hash_ne_genesis : Block.second.hash ≠ Block.genesis.hash :=
  (List.rel_of_pairwise_cons Block.nodup_hashes.of_cons (by simp)).symm

/-- The second block has another hash than the first one. -/
lemma Block.second_hash_ne : Block.second.hash ≠ Block.first.hash :=
  (List.rel_of_pairwise_cons Block.nodup_hashes.of_cons.of_cons (by simp)).symm

/-- Genesis and a child of it, whatever height the child claims above genesis. -/
lemma coherent_pair {h : Header} (hparent : Block.genesis.header.IsParent h) (hpos : 0 < h.number)
    (hne : h.hash ≠ Block.genesis.hash) (hne_zero : h.hash ≠ Hash.zero) :
    Coherent {Block.genesis.header, h} := by
  apply Coherent.of_number_lt
  · rintro _ (rfl | rfl) _ (rfl | rfl) e
    · rfl
    · exact absurd e.symm hne
    · exact absurd e hne
    · rfl
  · rintro _ (rfl | rfl) _ (rfl | rfl) parent
    · exact absurd parent.symm Block.genesis_hash_ne_zero
    · exact hpos
    · exact absurd parent.symm hne_zero
    · exact absurd (parent.symm.trans hparent) hne

/-- Genesis and the first block are coherent. -/
lemma coherent_first : Coherent {Block.genesis.header, Block.first.header} :=
  coherent_pair rfl (by decide) Block.first_hash_ne Block.first_hash_ne_zero

/-- Genesis and the first two blocks are coherent. -/
lemma coherent_second :
    Coherent {h | h ∈ [Block.genesis.header, Block.first.header, Block.second.header]} := by
  have nodup : ([Block.genesis.header, Block.first.header, Block.second.header].map Header.hash).Nodup :=
    Block.nodup_hashes.of_cons
  apply Coherent.of_number_lt
  · intro a ha b hb e
    exact List.inj_on_of_nodup_map nodup ha hb e
  · intro a ha b hb parent
    simp only [Set.mem_ofPred_eq, List.mem_cons, List.not_mem_nil, or_false] at ha hb
    -- the parent of each is the one before
    rcases hb with rfl | rfl | rfl
    · rcases ha with rfl | rfl | rfl
      · exact absurd parent.symm Block.genesis_hash_ne_zero
      · exact absurd parent.symm Block.first_hash_ne_zero
      · exact absurd parent.symm Block.second_hash_ne_zero
    · rcases ha with rfl | rfl | rfl
      · decide
      · exact absurd parent.symm Block.first_hash_ne
      · exact absurd parent.symm Block.second_hash_ne_genesis
    · rcases ha with rfl | rfl | rfl
      · decide
      · decide
      · exact absurd parent.symm Block.second_hash_ne

/-- Neither genesis nor the first block has the zero hash. -/
lemma hash_ne_zero_first :
    ∀ h ∈ ({Block.genesis.header, Block.first.header} : Set Header), h.hash ≠ Hash.zero := by
  rintro _ (rfl | rfl)
  · exact Block.genesis_hash_ne_zero
  · exact Block.first_hash_ne_zero

end ChainSync
