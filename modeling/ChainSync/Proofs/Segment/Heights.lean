import ChainSync.Proofs.Segment.Stock

/-!
# Heights along a segment

A segment `Climbs` a list of headers if the successor links lead along the list from the frontier to the
pivot and every link goes up by one. Growth at the lower end checks this, growth at the upper end does
not: `trust` compares the parent of a block with the pivot's hash and never its height. So a segment
climbs at all times exactly if every block that is trusted on top of a pivot stands one above it
(`climbs_iff_orderly`), and one child of genesis with a wrong height is enough to break it
(`not_climbs_leaping`).
-/

namespace ChainSync.Segment

variable {base s : Segment ByteMap} {U : Set Header} {hs : List Header} {h f p : Header} {b : Block}

/-! ## What climbs -/

/-- From one header to the next the height goes up by one. -/
abbrev Ascends (hs : List Header) : Prop :=
  hs.IsChain fun a b => a.number.toNat + 1 = b.number.toNat

/-- The successor links of a segment lead along a list of known headers from the frontier to the pivot,
and the heights go up by one with every link. -/
structure Climbs (U : Set Header) (s : Segment ByteMap) (hs : List Header) : Prop where
  known : ∀ h ∈ hs, h ∈ U
  frontier : s.frontier? = hs.head?
  pivot : s.pivot? = hs.getLast?
  successor : hs.IsChain fun a b => (successor? a.hash).exec s = (.ok (some b.hash), s)
  /-- No listed hash leads to another header. -/
  found : ∀ h ∈ hs, ∀ h', (header? h.hash).exec s = (.ok (some h'), s) → h' = h
  ascends : Ascends hs
  /-- The pivot is as far above the frontier as there are links between them. -/
  height : ∀ f ∈ hs.head?, ∀ p ∈ hs.getLast?, p.number.toNat = f.number.toNat + hs.dropLast.length

namespace Ascends

/-- Each height is given by the first one and the position. -/
lemma number_getElem? {i : Nat} (ascends : Ascends hs) (hf : hs.head? = some f)
    (hi : hs[i]? = some h) : h.number.toNat = f.number.toNat + i := by
  induction i generalizing h with
  | zero =>
    rw [List.head?_eq_getElem?] at hf
    cases hf.symm.trans hi
    rfl
  | succ i ih =>
    have hlt : i < hs.length := by
      have := (List.getElem?_eq_some_iff.1 hi).1
      omega
    have hbelow := ih (List.getElem?_eq_getElem hlt)
    have hnext := rel_of_isChain (R := fun a b => a.number.toNat + 1 = b.number.toNat) ascends
      (List.getElem?_eq_getElem hlt) hi
    omega

/-- The last height is given by the first one and the length. -/
lemma number_getLast (ascends : Ascends hs) (hf : hs.head? = some f) (hp : hs.getLast? = some p) :
    p.number.toNat = f.number.toNat + hs.dropLast.length := by
  rw [List.length_dropLast]
  rw [List.getLast?_eq_getElem?] at hp
  exact ascends.number_getElem? hf hp

/-- Headers that differ in height and belong to a set without collisions share no hash. -/
lemma nodup_hash (ascends : Ascends hs) (hinj : U.InjOn Header.hash) (known : ∀ h ∈ hs, h ∈ U) :
    (hs.map Header.hash).Nodup := by
  have higher : hs.Pairwise fun a b => a.number.toNat < b.number.toNat := by
    have steps : hs.IsChain fun a b => a.number.toNat < b.number.toNat := by
      apply ascends.imp
      intro a b hab
      omega
    exact steps.pairwise
  rw [List.Nodup, List.pairwise_map]
  apply higher.imp_of_mem
  intro a b ha hb hlt same
  cases hinj (known a ha) (known b hb) same
  exact Nat.lt_irrefl _ hlt

end Ascends

/-! ## What keeps a segment climbing -/

/-- The invariant behind `Climbs`, in terms of the rows. -/
structure Graded (U : Set Header) (s : Segment ByteMap) (hs : List Header) : Prop where
  known : ∀ h ∈ hs, h ∈ U
  frontier : s.frontier? = hs.head?
  pivot : s.pivot? = hs.getLast?
  linked : hs.IsChain s.Links
  graded : hs.IsChain Precedes
  rows : Known U s

namespace Graded

/-- A segment without ends is graded by no headers. -/
lemma nil (hnew : s.anchors = none) (rows : Known U s) : Graded U s [] where
  known := nofun
  frontier := by simp [frontier?, hnew]
  pivot := by simp [pivot?, hnew]
  linked := .nil
  graded := .nil
  rows := rows

/-- Only the empty list grades a segment without ends. -/
lemma eq_nil (gr : Graded U s hs) (hends : s.anchors = none) : hs = [] := by
  have e := gr.frontier
  rw [frontier?, hends] at e
  exact List.head?_eq_none_iff.1 e.symm

/-- The ends are the first and the last header. -/
lemma ends (gr : Graded U s hs) {ends : Anchors} (hends : s.anchors = some ends) :
    hs.head? = some ends.frontier ∧ hs.getLast? = some ends.pivot := by
  rw [← gr.frontier, ← gr.pivot, frontier?, pivot?, hends]
  exact ⟨rfl, rfl⟩

/-- The heights go up by one. -/
lemma ascends (gr : Graded U s hs) : Ascends hs := gr.graded.imp fun _ _ pre => pre.number

/-- No two headers of the list have the same hash. -/
lemma nodup_hash (gr : Graded U s hs) (hinj : U.InjOn Header.hash) : (hs.map Header.hash).Nodup :=
  gr.ascends.nodup_hash hinj gr.known

/-- A segment that is graded climbs. -/
lemma climbs (gr : Graded U s hs) (hinj : U.InjOn Header.hash) : Climbs U s hs where
  known := gr.known
  frontier := gr.frontier
  pivot := gr.pivot
  successor := by
    apply gr.linked.imp
    intro a a' link
    rw [exec_successor?, link.linkAt_eq]
  found := by
    intro h hh h' hfound
    rw [exec_header?, Prod.mk.injEq, headerAt_eq_some_iff] at hfound
    obtain ⟨⟨has, e⟩, -⟩ := hfound
    exact hinj (gr.rows.headers h' has) (gr.known h hh) e
  ascends := gr.ascends
  height _ hf _ hp := gr.ascends.number_getLast hf hp

/-- A segment without ends is anchored at a trusted block. -/
lemma anchor (gr : Graded U s []) (hb : b.Sized) (known : b.header ∈ U) :
    Graded U (((s.putHeader b.header).putBlock b).moved b.header b.header) [b.header] where
  known := by simpa using known
  frontier := rfl
  pivot := rfl
  linked := .singleton _
  graded := .singleton _
  rows := ((gr.rows.putHeader hb.header known).putBlock hb known).of_eq rfl rfl

/-- A trusted child of the pivot, one above it, becomes the pivot. -/
lemma extend (gr : Graded U s hs) (hinj : U.InjOn Header.hash) (hb : b.Sized) (known : b.header ∈ U)
    (hf : hs.head? = some f) (hp : hs.getLast? = some p) (pre : Precedes p b.header) :
    Graded U ((((s.putHeader b.header).putBlock b).putLink p.hash b.hash).moved f b.header)
      (hs ++ [b.header]) where
  known := by
    intro h hh
    rcases List.mem_append.1 hh with hh | hh
    · exact gr.known h hh
    · rwa [List.mem_singleton.1 hh]
  frontier := by
    rw [List.head?_append, hf]
    rfl
  pivot := by
    rw [List.getLast?_concat]
    rfl
  linked :=
    isChain_links_concat (h := b.header) gr.linked hp fun _ => hash_ne_getLast (gr.nodup_hash hinj) hp
  graded := by
    apply List.IsChain.append gr.graded (.singleton _)
    rintro p' hp' _ ⟨⟩
    cases hp.symm.trans hp'
    exact pre
  rows := ((gr.rows.putHeader hb.header known).putBlock hb known).of_eq rfl rfl

/-- A known header that precedes the frontier becomes the frontier, whatever comes of its row. -/
lemma lower {kept : Segment ByteMap} (gr : Graded U s hs) (hinj : U.InjOn Header.hash)
    (known : h ∈ U) (hf : hs.head? = some f) (hp : hs.getLast? = some p) (pre : Precedes h f)
    (hlinks : kept.links = s.links) (rows : Known U kept) :
    Graded U ((kept.putLink h.hash f.hash).moved h p) (h :: hs) := by
  have known' : ∀ h' ∈ h :: hs, h' ∈ U := by
    rintro h' (_ | ⟨_, hh'⟩)
    · exact known
    · exact gr.known h' hh'
  have graded : (h :: hs).IsChain Precedes := by
    apply List.IsChain.cons gr.graded
    intro f' hf'
    cases hf.symm.trans hf'
    exact pre
  -- the new header is lower than all others, so no link of the list has its key
  have fresh : ∀ h' ∈ hs, h.hash ≠ h'.hash := by
    have ascends : Ascends (h :: hs) := graded.imp fun _ _ pre => pre.number
    have nodup := ascends.nodup_hash hinj known'
    rw [List.map_cons, List.nodup_cons] at nodup
    intro h' hh' e
    exact nodup.1 (e ▸ List.mem_map_of_mem hh')
  have linked : hs.IsChain kept.Links := by
    apply gr.linked.imp
    intro a a' link
    rwa [Links, hlinks]
  exact {
    known := known'
    frontier := rfl
    pivot := by
      rw [List.getLast?_cons_of_ne_nil (List.ne_nil_of_mem (List.mem_of_head? hf)), hp]
      rfl
    linked := isChain_links_cons linked hf fresh
    graded
    rows := rows.of_eq rfl rfl }

/-- Prepending leaves a segment graded. -/
lemma prepend (gr : Graded U s hs) (hinj : U.InjOn Header.hash) (hsized : h.Sized) (known : h ∈ U) :
    ∃ hs', Graded U ((Segment.prepend h).exec s).2 hs' := by
  rcases exec_prepend s h with ⟨ends, hends, pre, hexec⟩ | ⟨-, e, hexec⟩ <;> rw [hexec]
  · obtain ⟨hf, hp⟩ := gr.ends hends
    exact ⟨_, gr.lower hinj known hf hp pre rfl (gr.rows.putHeader hsized known)⟩
  · exact ⟨hs, gr⟩

/-- Prepending a stored header leaves a segment graded. -/
lemma prependStored (gr : Graded U s hs) (hinj : U.InjOn Header.hash) (known : h ∈ U) :
    ∃ hs', Graded U ((Segment.prependStored h).exec s).2 hs' := by
  rcases exec_prependStored s h with ⟨ends, hends, pre, hexec⟩ | ⟨-, e, hexec⟩ <;> rw [hexec]
  · obtain ⟨hf, hp⟩ := gr.ends hends
    exact ⟨_, gr.lower hinj known hf hp pre rfl gr.rows⟩
  · exact ⟨hs, gr⟩

/-- A block that is trusted keeps the heights in step, if it stands one above the pivot whenever it is
taken on top of it. -/
lemma trust (gr : Graded U s hs) (hinj : U.InjOn Header.hash) (hb : b.Sized) (known : b.header ∈ U)
    (orderly : ∀ p, s.pivot? = some p → b.header.parent = p.hash →
      p.number.toNat + 1 = b.header.number.toNat) :
    ∃ hs', Graded U ((Segment.trust b).exec s).2 hs' := by
  rw [exec_trust]
  cases hends : s.anchors with
  | none =>
    obtain rfl := gr.eq_nil hends
    exact ⟨_, gr.anchor hb known⟩
  | some ends =>
    obtain ⟨hf, hp⟩ := gr.ends hends
    by_cases hparent : b.header.parent = ends.pivot.hash
    · simp only [hparent, if_true]
      have hpivot : s.pivot? = some ends.pivot := by rw [pivot?, hends, Option.map_some]
      have pre : Precedes ends.pivot b.header := ⟨hparent, orderly ends.pivot hpivot hparent⟩
      exact ⟨_, gr.extend hinj hb known hf hp pre⟩
    · simp only [hparent, if_false]
      exact ⟨hs, gr⟩

/-- Restoring leaves a segment graded. -/
lemma restore (gr : Graded U s hs) (hinj : U.InjOn Header.hash) (start : Header) :
    ∃ hs', Graded U ((Segment.restore start).exec s).2 hs' := by
  apply restore_keeps (P := fun t => ∃ hs', Graded U t hs')
  · rintro t h ⟨hs', gr'⟩ has
    exact gr'.prependStored hinj (gr'.rows.headers h has)
  · exact ⟨hs, gr⟩

end Graded

/-! ## Moves -/

/-- What is done to segments over some tables: a call, a new segment over the same tables that is anchored
at once, or the restoring of stored ancestors. -/
inductive Move where
  | call (c : Call)
  | create (b : Block)
  | restore (start : Header)

namespace Move

/-- The segment after a move, which may be refused. -/
def after (s : Segment ByteMap) : Move → Segment ByteMap
  | call c => c.after s
  | create b => (Call.trust b).after s.detached
  | restore start => ((Segment.restore start).exec s).2

/-- What a move brings can be written. -/
def Sized : Move → Prop
  | call c => c.Sized
  | create b => b.Sized
  | restore _ => True

/-- The header that a move brings. -/
def header? : Move → Option Header
  | call c => c.header?
  | create b => some b.header
  | restore _ => none

end Move

/-- The segment after some moves. -/
def shaped (base : Segment ByteMap) (moves : List Move) : Segment ByteMap :=
  moves.foldl Move.after base

/-- The headers that moves bring. -/
def brought (moves : List Move) : Set Header := {h | ∃ move ∈ moves, move.header? = some h}

/-- A block that is trusted on top of a pivot stands one above it. -/
def Orderly (base : Segment ByteMap) (moves : List Move) : Prop :=
  ∀ pre b, pre ++ [.call (.trust b)] <+: moves → ∀ p, (shaped base pre).pivot? = some p →
    b.header.parent = p.hash → p.number.toNat + 1 = b.header.number.toNat

variable {moves : List Move} {move : Move}

/-- The last move is made on what the others left. -/
lemma shaped_concat : shaped base (moves ++ [move]) = move.after (shaped base moves) := by
  simp [shaped]

/-- More moves bring more headers. -/
lemma brought_mono {pre : List Move} (hpre : pre <+: moves) : brought pre ⊆ brought moves := by
  rintro h ⟨move, hmove, hh⟩
  exact ⟨move, hpre.subset hmove, hh⟩

/-- The first of some orderly moves are orderly. -/
lemma Orderly.mono {pre : List Move} (orderly : Orderly base moves) (hpre : pre <+: moves) :
    Orderly base pre :=
  fun pre' b hpre' => orderly pre' b (hpre'.trans hpre)

/-- What comes last of some moves is orderly if it is so on the segment before it. -/
lemma Orderly.concat (orderly : Orderly base moves)
    (last : ∀ b, move = .call (.trust b) → ∀ p, (shaped base moves).pivot? = some p →
      b.header.parent = p.hash → p.number.toNat + 1 = b.header.number.toNat) :
    Orderly base (moves ++ [move]) := by
  intro pre b hpre
  rcases List.prefix_concat_iff.1 hpre with e | hpre
  · obtain ⟨rfl, e⟩ := List.append_inj' e rfl
    exact last b (by simpa using e.symm)
  · exact orderly pre b hpre

/-- One move keeps a segment that climbs, unless it trusts a block with another height. -/
lemma Graded.after (gr : Graded U s hs) (hinj : U.InjOn Header.hash) (hsized : move.Sized)
    (known : ∀ h, move.header? = some h → h ∈ U)
    (orderly : ∀ b, move = .call (.trust b) → ∀ p, s.pivot? = some p → b.header.parent = p.hash →
      p.number.toNat + 1 = b.header.number.toNat) :
    ∃ hs', Graded U (move.after s) hs' := by
  cases move with
  | call c =>
    cases c with
    | trust b => exact gr.trust hinj hsized (known b.header rfl) (orderly b rfl)
    | prepend h => exact gr.prepend hinj hsized (known h rfl)
    | prependStored h => exact gr.prependStored hinj (known h rfl)
    | storeBlock b =>
      have hb := known b.header rfl
      exact ⟨hs, { gr with rows := gr.rows.putBlock hsized hb }⟩
    | clear => exact ⟨[], .nil rfl .empty⟩
  | create b =>
    have fresh : Graded U s.detached [] := .nil rfl (gr.rows.of_eq rfl rfl)
    exact fresh.trust hinj hsized (known b.header rfl) nofun
  | restore start => exact gr.restore hinj start

/-- Orderly moves leave a segment graded. -/
lemma exists_graded_shaped (hnew : base.anchors = none) (hsized : ∀ move ∈ moves, move.Sized)
    (hinj : U.InjOn Header.hash) (known : brought moves ⊆ U) (rows : Known U base)
    (orderly : Orderly base moves) : ∃ hs, Graded U (shaped base moves) hs := by
  induction moves using List.reverseRecOn with
  | nil => exact ⟨[], .nil hnew rows⟩
  | append_singleton moves move ih =>
    have hpre := List.prefix_append moves [move]
    obtain ⟨hs, gr⟩ := ih (fun m hm => hsized m (hpre.subset hm)) ((brought_mono hpre).trans known)
      (orderly.mono hpre)
    rw [shaped_concat]
    apply gr.after hinj (hsized move (by simp)) fun h hh => known ⟨move, by simp, hh⟩
    rintro b rfl
    exact orderly moves b List.prefix_rfl

/-! ## What a climbing segment tells of the block on top -/

/-- Two lists along a relation that goes one way only agree as far as the shorter one goes. -/
lemma prefix_or_prefix_of_isChain {α : Type} {R : α → α → Prop} {l l' : List α}
    (one : ∀ a b c, R a b → R a c → b = c) (hl : l.IsChain R) (hl' : l'.IsChain R)
    (hhead : l.head? = l'.head?) : l <+: l' ∨ l' <+: l := by
  induction hl generalizing l' with
  | nil => exact .inl (List.nil_prefix)
  | singleton a =>
    cases hl' with
    | nil => exact .inr (List.nil_prefix)
    | singleton a' =>
      cases hhead
      exact .inl List.prefix_rfl
    | cons_cons _ _ =>
      cases hhead
      exact .inl (List.prefix_append [a] _)
  | @cons_cons a b l hab hl ih =>
    cases hl' with
    | nil => exact .inr (List.nil_prefix)
    | singleton a' =>
      cases hhead
      exact .inr (List.prefix_append [a] _)
    | cons_cons hab' hl' =>
      cases hhead
      cases one _ _ _ hab hab'
      rcases ih hl' rfl with hpre | hpre
      · exact .inl ((List.cons_prefix_cons).2 ⟨rfl, hpre⟩)
      · exact .inr ((List.cons_prefix_cons).2 ⟨rfl, hpre⟩)

/-- The successor link of one header leads to another one that is known. -/
def LeadsTo (U : Set Header) (s : Segment ByteMap) (a c : Header) : Prop :=
  s.linkAt a.hash = .ok (some c.hash) ∧ c ∈ U

/-- A link leads to one known header only. -/
lemma LeadsTo.unique (hinj : U.InjOn Header.hash) (a c c' : Header) (hc : LeadsTo U s a c)
    (hc' : LeadsTo U s a c') : c = c' := by
  have e := hc.1.symm.trans hc'.1
  simp only [Except.ok.injEq, Option.some.injEq] at e
  exact hinj hc.2 hc'.2 e

/-- Links between known headers lead from each to the next. -/
lemma leadsTo_of_links (linked : hs.IsChain s.Links) (known : ∀ h ∈ hs, h ∈ U) :
    hs.IsChain (LeadsTo U s) :=
  linked.imp_of_mem_imp fun _ c _ hc link => ⟨link.linkAt_eq, known c hc⟩

/-- Where a segment climbs, the links lead from each header to the next. -/
lemma Climbs.leadsTo (climbs : Climbs U s hs) : hs.IsChain (LeadsTo U s) := by
  apply climbs.successor.imp_of_mem_imp
  intro a c _ hc hsucc
  rw [exec_successor?, Prod.mk.injEq] at hsucc
  exact ⟨hsucc.1, climbs.known c hc⟩

namespace Graded

/-- A child of the pivot is not in the list already. -/
lemma not_mem_of_parent (gr : Graded U s hs) (co : Coherent U) (known : h ∈ U)
    (hp : hs.getLast? = some p) (hparent : h.parent = p.hash) : h ∉ hs := by
  have lineage : Lineage (hs ++ [h]) := by
    have below : Lineage hs := gr.graded.imp fun _ _ pre => pre.parent
    apply below.concat
    intro p' hp'
    cases hp.symm.trans hp'
    exact hparent
  have nodup := lineage.nodup_hash co (by simpa [or_imp, forall_and] using ⟨gr.known, known⟩)
  rw [List.map_append, List.nodup_append] at nodup
  intro hh
  exact nodup.2.2 h.hash (List.mem_map_of_mem hh) h.hash (by simp) rfl

/-- If a segment still climbs after a block came on top of the pivot, the block is one above it. -/
lemma number_of_climbs (gr : Graded U s hs) (co : Coherent U) (known : b.header ∈ U)
    (hp : s.pivot? = some p) (hparent : b.header.parent = p.hash) {hs' : List Header}
    (climbs : Climbs U ((Segment.trust b).exec s).2 hs') :
    p.number.toNat + 1 = b.header.number.toNat := by
  rw [pivot?, Option.map_eq_some_iff] at hp
  obtain ⟨ends, hends, rfl⟩ := hp
  obtain ⟨hf, hp⟩ := gr.ends hends
  rw [exec_trust_of_parent hends hparent] at climbs
  have hf' : hs'.head? = some ends.frontier := climbs.frontier.symm
  have hb' : hs'.getLast? = some b.header := climbs.pivot.symm
  -- the list with the block on top follows the same links as the one that climbs
  have hlinks := leadsTo_of_links (U := U)
    (isChain_links_concat (h := b.header) gr.linked hp fun _ => hash_ne_getLast (gr.nodup_hash co.injOn) hp)
    (by simpa [or_imp, forall_and] using ⟨gr.known, known⟩)
  have hhead : (hs ++ [b.header]).head? = hs'.head? := by rw [List.head?_append, hf, hf', Option.some_or]
  have hpre : hs ++ [b.header] <+: hs' := by
    rcases prefix_or_prefix_of_isChain (LeadsTo.unique co.injOn) hlinks climbs.leadsTo hhead
      with hpre | hpre
    · exact hpre
    · rcases List.prefix_concat_iff.1 hpre with rfl | hpre
      · exact List.prefix_rfl
      · have hmem := hpre.subset (List.mem_of_getLast? hb')
        exact absurd hmem (gr.not_mem_of_parent co known hp hparent)
  have hb : hs'[hs.length]? = some b.header := by
    obtain ⟨rest, rfl⟩ := hpre
    simp
  have hnumber := climbs.ascends.number_getElem? hf' hb
  have hpivot := gr.ascends.number_getLast hf hp
  have hpos := List.length_pos_of_mem (List.mem_of_head? hf)
  rw [List.length_dropLast] at hpivot
  omega

end Graded

/-! ## Segments that climb at all times -/

/-- Over any tables and through any moves, accepted or refused, a segment climbs at all times if and only
if every block that is trusted on top of a pivot stands one above it. -/
theorem climbs_iff_orderly (hnew : base.anchors = none) (hsized : ∀ move ∈ moves, move.Sized)
    (known : brought moves ⊆ U) (rows : Known U base) (co : Coherent U) :
    (∀ pre, pre <+: moves → ∃ hs, Climbs U (shaped base pre) hs) ↔ Orderly base moves := by
  constructor
  · intro climbs
    induction moves using List.reverseRecOn with
    | nil =>
      intro pre b hpre
      simp at hpre
    | append_singleton moves move ih =>
      have hpre := List.prefix_append moves [move]
      have hsized' : ∀ m ∈ moves, m.Sized := fun m hm => hsized m (hpre.subset hm)
      have known' := (brought_mono hpre).trans known
      have orderly := ih hsized' known' fun pre hpre' => climbs pre (hpre'.trans hpre)
      apply orderly.concat
      rintro b rfl p hp hparent
      obtain ⟨hs, gr⟩ := exists_graded_shaped hnew hsized' co.injOn known' rows orderly
      obtain ⟨hs', climbs'⟩ := climbs _ List.prefix_rfl
      rw [shaped_concat] at climbs'
      exact gr.number_of_climbs co (known ⟨.call (.trust b), by simp, rfl⟩) hp hparent climbs'
  · intro orderly pre hpre
    obtain ⟨hs, gr⟩ := exists_graded_shaped hnew (fun m hm => hsized m (hpre.subset hm)) co.injOn
      ((brought_mono hpre).trans known) rows (orderly.mono hpre)
    exact ⟨hs, gr.climbs co.injOn⟩

/-- Genesis is trusted, and then its child. -/
theorem climbs_iff_orderly_first :
    let moves := [Move.create Block.genesis, .call (.trust Block.first)]
    Orderly Segment.empty moves ∧ ∀ pre, pre <+: moves →
      ∃ hs, Climbs {Block.genesis.header, Block.first.header} (shaped Segment.empty pre) hs := by
  intro moves
  have hmoves : ∀ {move}, move ∈ moves →
      move = .create Block.genesis ∨ move = .call (.trust Block.first) := by simp [moves]
  have hsized : ∀ move ∈ moves, move.Sized := by
    intro move hmove
    rcases hmoves hmove with rfl | rfl <;> exact Block.sized_of_nil rfl rfl
  have known : brought moves ⊆ {Block.genesis.header, Block.first.header} := by
    rintro h ⟨move, hmove, hh⟩
    rcases hmoves hmove with rfl | rfl <;> cases hh
    · exact .inl rfl
    · exact .inr rfl
  have orderly : Orderly Segment.empty moves := by
    rintro (_ | ⟨m, _ | ⟨m', pre⟩⟩) b ⟨rest, e⟩ p hp -
    · simp [moves] at e
    · simp only [moves, List.cons_append, List.nil_append, List.cons.injEq, Move.call.injEq,
        Call.trust.injEq] at e
      obtain ⟨rfl, rfl, -⟩ := e
      cases hp
      decide
    · simp [moves] at e
  exact ⟨orderly, (climbs_iff_orderly rfl hsized known .empty coherent_first).2 orderly⟩

/-- A child of genesis that claims height five. -/
def leaping : Block where
  header :=
    { number := 5, parent := Block.genesis.hash, merkleRoot := Hash.zero, timestamp := 1 }

/-- The child of genesis has its own hash. -/
lemma coherent_leaping : Coherent {Block.genesis.header, leaping.header} :=
  coherent_pair rfl (by decide) (by decide +kernel) (by decide +kernel)

/-- A segment over empty tables that is anchored at genesis takes a child of genesis with height five, and
does not climb from then on. -/
theorem not_climbs_leaping :
    let moves := [Move.create Block.genesis, .call (.trust leaping)]
    (∀ move ∈ moves, move.Sized) ∧ Coherent {Block.genesis.header, leaping.header} ∧
      ¬ ∃ hs, Climbs {Block.genesis.header, leaping.header} (shaped Segment.empty moves) hs := by
  intro moves
  have hsized : ∀ {b : Block}, b = Block.genesis ∨ b = leaping → b.Sized := by
    rintro _ (rfl | rfl) <;> exact Block.sized_of_nil rfl rfl
  refine ⟨?_, coherent_leaping, ?_⟩
  · intro move hmove
    have hmoves : move = .create Block.genesis ∨ move = .call (.trust leaping) := by
      simpa [moves] using hmove
    rcases hmoves with rfl | rfl
    · exact hsized (.inl rfl)
    · exact hsized (.inr rfl)
  · rintro ⟨hs, climbs⟩
    have anchored : Graded {Block.genesis.header, leaping.header}
        (shaped Segment.empty [.create Block.genesis]) [Block.genesis.header] :=
      Graded.anchor (.nil rfl .empty) (hsized (.inl rfl)) (.inl rfl)
    have hparent : leaping.header.parent = Block.genesis.header.hash := rfl
    have hnumber := anchored.number_of_climbs coherent_leaping (.inr rfl) anchored.pivot hparent climbs
    revert hnumber
    decide

end ChainSync.Segment
