import ChainSync.Proofs.Segment.Rows

/-!
# A segment is a list of headers

Whatever its tables held before, a segment `Spans` a list of headers after any calls: the list goes from
the frontier to the pivot, each header is the parent of the next, and what is looked up of a listed
header is what the list says. Rows of other headers are not touched (`Untouched`).

`Lists` is the invariant in terms of the rows. A header joins the list at its upper end (`Lists.extend`)
or at its lower end (`Lists.lower`), and no later write meets the key of a listed header, as coherent
headers in a lineage share no hash.
-/

namespace ChainSync

/-- A relation along a list gives another one if it does so wherever the list goes on. -/
lemma isChain_imp_dropLast {α : Type} {R S : α → α → Prop} {l : List α} (h : l.IsChain R)
    (imp : ∀ a ∈ l.dropLast, ∀ b, R a b → S a b) : l.IsChain S := by
  induction h with
  | nil => exact .nil
  | singleton a => exact .singleton a
  | @cons_cons a b l hab hl ih =>
    rw [List.dropLast_cons_cons] at imp
    exact .cons_cons (imp a List.mem_cons_self b hab) (ih fun c hc => imp c (List.mem_cons_of_mem a hc))

namespace Segment

variable {origin s kept : Segment ByteMap} {U : Set Header} {hs : List Header} {h f p : Header}
  {b : Block} {a a' : Hash}

/-- Links along a list stay when a link is put under a hash that is not met below the top. -/
lemma isChain_links_put (linked : hs.IsChain s.Links) (fresh : ∀ h ∈ hs.dropLast, a ≠ h.hash) :
    hs.IsChain (s.putLink a a').Links := by
  apply isChain_imp_dropLast linked
  intro h hh h' link
  exact link.put (fresh h hh)

/-- The list goes one link further up. -/
lemma isChain_links_concat (linked : hs.IsChain s.Links) (hp : hs.getLast? = some p)
    (fresh : ∀ h ∈ hs.dropLast, p.hash ≠ h.hash) :
    (hs ++ [h]).IsChain (s.putLink p.hash h.hash).Links := by
  refine List.IsChain.append (isChain_links_put linked fresh) (.singleton _) ?_
  rintro p' hp' _ ⟨⟩
  cases hp.symm.trans hp'
  exact links_put

/-- The list goes one link further down. -/
lemma isChain_links_cons (linked : hs.IsChain s.Links) (hf : hs.head? = some f)
    (fresh : ∀ h' ∈ hs, h.hash ≠ h'.hash) : (h :: hs).IsChain (s.putLink h.hash f.hash).Links := by
  apply List.IsChain.cons (isChain_links_put linked fun a ha => fresh a (List.dropLast_subset hs ha))
  intro f' hf'
  cases hf.symm.trans hf'
  exact links_put

/-- What stands below the top of a list without repeated hashes has another hash than the top. -/
lemma hash_ne_getLast (nodup : (hs.map Header.hash).Nodup) (hp : hs.getLast? = some p)
    (hh : h ∈ hs.dropLast) : p.hash ≠ h.hash := by
  obtain ⟨init, rfl⟩ := List.getLast?_eq_some_iff.1 hp
  rw [List.dropLast_concat] at hh
  rw [List.map_append, List.nodup_append] at nodup
  intro e
  exact nodup.2.2 h.hash (List.mem_map_of_mem hh) p.hash (by simp) e.symm

/-- The rows of blocks are as they were, or hold a block under its hash. -/
def BlocksFrame (origin s : Segment ByteMap) : Prop :=
  ∀ key, s.blocks.rows[key]? = origin.blocks.rows[key]? ∨
    ∃ b : Block, b.Sized ∧ b.hash.bytes = key ∧ s.blocks.rows[key]? = some (Stored.toBytes b)

/-- A block is stored under its hash. -/
lemma BlocksFrame.putBlock (frame : BlocksFrame origin s) (hb : b.Sized) :
    BlocksFrame origin (s.putBlock b) := by
  intro key
  rw [putBlock_rows]
  by_cases e : b.hash.bytes = key
  · exact .inr ⟨b, hb, e, by rw [if_pos e]⟩
  · rw [if_neg e]
    exact frame key

/-- The rows of a segment that lists headers, over the rows that it found at its origin. -/
structure Lists (origin s : Segment ByteMap) (U : Set Header) (hs : List Header) : Prop where
  lineage : Lineage hs
  known : ∀ h ∈ hs, h ∈ U
  frontier : s.frontier? = hs.head?
  pivot : s.pivot? = hs.getLast?
  stored : ∀ h ∈ hs, s.HasHeader h
  trusted : ∀ p ∈ hs.getLast?, ∃ b, s.HasBlock b ∧ b.header = p
  linked : hs.IsChain s.Links
  headers_frame : ∀ key, (∀ h ∈ hs, h.hash.bytes ≠ key) →
    s.headers.rows[key]? = origin.headers.rows[key]?
  links_frame : ∀ key, (∀ h ∈ hs.dropLast, h.hash.bytes ≠ key) →
    s.links.rows[key]? = origin.links.rows[key]?
  blocks_frame : BlocksFrame origin s

namespace Lists

/-- A segment without ends lists nothing. -/
lemma nil (hnew : s.anchors = none) : Lists s s U [] where
  lineage := .nil
  known := nofun
  frontier := by simp [frontier?, hnew]
  pivot := by simp [pivot?, hnew]
  stored := nofun
  trusted := nofun
  linked := .nil
  headers_frame _ _ := rfl
  links_frame _ _ := rfl
  blocks_frame _ := .inl rfl

/-- Only the empty list is listed by a segment without ends. -/
lemma eq_nil (lists : Lists origin s U hs) (hends : s.anchors = none) : hs = [] := by
  have e := lists.frontier
  rw [frontier?, hends] at e
  exact List.head?_eq_none_iff.1 e.symm

/-- The ends are the first and the last header. -/
lemma ends (lists : Lists origin s U hs) {ends : Anchors} (hends : s.anchors = some ends) :
    hs.head? = some ends.frontier ∧ hs.getLast? = some ends.pivot := by
  rw [← lists.frontier, ← lists.pivot, frontier?, pivot?, hends]
  exact ⟨rfl, rfl⟩

/-- A segment that lists headers has ends. -/
lemma exists_ends (lists : Lists origin s U hs) (hf : hs.head? = some f) :
    ∃ ends, s.anchors = some ends ∧ ends.frontier = f ∧ hs.getLast? = some ends.pivot := by
  have hfrontier := lists.frontier
  rw [hf, frontier?, Option.map_eq_some_iff] at hfrontier
  obtain ⟨ends, hends, rfl⟩ := hfrontier
  exact ⟨ends, hends, rfl, (lists.ends hends).2⟩

/-- No two listed headers have the same hash. -/
lemma nodup_hash (lists : Lists origin s U hs) (co : Coherent U) : (hs.map Header.hash).Nodup :=
  lists.lineage.nodup_hash co lists.known

/-- What stands below the pivot has another hash. -/
lemma hash_ne_pivot (lists : Lists origin s U hs) (co : Coherent U) (hp : hs.getLast? = some p)
    (hh : h ∈ hs.dropLast) : p.hash ≠ h.hash :=
  hash_ne_getLast (lists.nodup_hash co) hp hh

/-- The listed headers keep their rows where a known header is put. -/
lemma stored_put (lists : Lists origin s U hs) (co : Coherent U) (hsized : h.Sized) (hh : h ∈ U) :
    ∀ h' ∈ hs, (s.putHeader h).HasHeader h' := by
  intro h' hh'
  exact (lists.stored h' hh').put hsized fun e => co.eq_of_hash hh (lists.known h' hh') e

/-- A segment without ends is anchored at a trusted block. -/
lemma anchor (lists : Lists origin s U []) (hb : b.Sized) (known : b.header ∈ U) :
    Lists origin (((s.putHeader b.header).putBlock b).moved b.header b.header) U [b.header] where
  lineage := .singleton _
  known := by simpa using known
  frontier := rfl
  pivot := rfl
  stored := by
    rintro h (_ | ⟨_, ⟨⟩⟩)
    exact hasHeader_put hb.header
  trusted := by
    rintro p ⟨⟩
    exact ⟨b, hasBlock_put hb, rfl⟩
  linked := .singleton _
  headers_frame := by
    intro key hkey
    rw [moved_headers, putBlock_headers, putHeader_rows, if_neg (hkey _ List.mem_cons_self)]
    exact lists.headers_frame key nofun
  links_frame := lists.links_frame
  blocks_frame := lists.blocks_frame.putBlock hb

/-- A trusted child of the pivot becomes the pivot. -/
lemma extend (lists : Lists origin s U hs) (co : Coherent U) (hb : b.Sized) (known : b.header ∈ U)
    (hf : hs.head? = some f) (hp : hs.getLast? = some p) (hparent : b.header.parent = p.hash) :
    Lists origin ((((s.putHeader b.header).putBlock b).putLink p.hash b.hash).moved f b.header) U
      (hs ++ [b.header]) where
  lineage := by
    apply lists.lineage.concat
    intro p' hp'
    cases hp.symm.trans hp'
    exact hparent
  known := by
    intro h hh
    rcases List.mem_append.1 hh with hh | hh
    · exact lists.known h hh
    · rwa [List.mem_singleton.1 hh]
  frontier := by
    rw [List.head?_append, hf]
    rfl
  pivot := by
    rw [List.getLast?_concat]
    rfl
  stored := by
    intro h hh
    rcases List.mem_append.1 hh with hh | hh
    · exact lists.stored_put co hb.header known h hh
    · rw [List.mem_singleton.1 hh]
      exact hasHeader_put hb.header
  trusted := by
    intro p' hp'
    rw [List.getLast?_concat] at hp'
    cases hp'
    exact ⟨b, hasBlock_put hb, rfl⟩
  -- below the pivot no link has its key
  linked := isChain_links_concat (h := b.header) lists.linked hp fun _ => lists.hash_ne_pivot co hp
  headers_frame := by
    intro key hkey
    rw [moved_headers, putLink_headers, putBlock_headers, putHeader_rows, if_neg (hkey _ (by simp))]
    exact lists.headers_frame key fun h hh => hkey h (List.mem_append_left _ hh)
  links_frame := by
    intro key hkey
    rw [List.dropLast_concat] at hkey
    rw [moved_links, putLink_rows, if_neg (hkey p (List.mem_of_getLast? hp))]
    exact lists.links_frame key fun h hh => hkey h (List.dropLast_subset hs hh)
  blocks_frame := lists.blocks_frame.putBlock hb

/-- A parent of the frontier becomes the frontier, once it is stored. -/
lemma lower (lists : Lists origin s U hs) (co : Coherent U) (known : h ∈ U)
    (hf : hs.head? = some f) (hp : hs.getLast? = some p) (hparent : h.IsParent f)
    (hhas : kept.HasHeader h) (hstored : ∀ h' ∈ hs, kept.HasHeader h')
    (hheaders : ∀ key, h.hash.bytes ≠ key → kept.headers.rows[key]? = s.headers.rows[key]?)
    (hblocks : kept.blocks = s.blocks) (hlinks : kept.links = s.links) :
    Lists origin ((kept.putLink h.hash f.hash).moved h p) U (h :: hs) := by
  have hne : hs ≠ [] := by
    rintro rfl
    cases hf
  have lineage : Lineage (h :: hs) := by
    apply lists.lineage.cons
    intro f' hf'
    cases hf.symm.trans hf'
    exact hparent
  have known' : ∀ h' ∈ h :: hs, h' ∈ U := by
    rintro h' (_ | ⟨_, hh'⟩)
    · exact known
    · exact lists.known h' hh'
  -- no header of the list has the new key, so no row of the list is overwritten
  have hnew : ∀ h' ∈ hs, h.hash ≠ h'.hash := by
    have nodup := lineage.nodup_hash co known'
    rw [List.map_cons, List.nodup_cons] at nodup
    intro h' hh' e
    exact nodup.1 (e ▸ List.mem_map_of_mem hh')
  exact {
    lineage
    known := known'
    frontier := rfl
    pivot := by
      rw [List.getLast?_cons_of_ne_nil hne, hp]
      rfl
    stored := by
      rintro h' (_ | ⟨_, hh'⟩)
      · exact hhas
      · exact hstored h' hh'
    trusted := by
      intro p' hp'
      rw [List.getLast?_cons_of_ne_nil hne] at hp'
      obtain ⟨b, hb, hheader⟩ := lists.trusted p' hp'
      refine ⟨b, ?_, hheader⟩
      rw [HasBlock, moved_blocks, putLink_blocks, hblocks]
      exact hb
    linked := by
      have linked : hs.IsChain kept.Links := by
        apply lists.linked.imp
        intro a a' link
        rwa [Links, hlinks]
      exact isChain_links_cons linked hf hnew
    headers_frame := by
      intro key hkey
      rw [moved_headers, putLink_headers, hheaders key (hkey h List.mem_cons_self)]
      exact lists.headers_frame key fun h' hh' => hkey h' (List.mem_cons_of_mem h hh')
    links_frame := by
      intro key hkey
      rw [List.dropLast_cons_of_ne_nil hne] at hkey
      rw [moved_links, putLink_rows, if_neg (hkey h List.mem_cons_self), hlinks]
      exact lists.links_frame key fun h' hh' => hkey h' (List.mem_cons_of_mem h hh')
    blocks_frame := by
      rw [BlocksFrame, moved_blocks, putLink_blocks, hblocks]
      exact lists.blocks_frame }

/-- A parent of the frontier is put in front of the list, with a row and a link. -/
lemma prepend (lists : Lists origin s U hs) (co : Coherent U) (hsized : h.Sized) (known : h ∈ U)
    (hf : hs.head? = some f) (hp : hs.getLast? = some p) (hparent : h.IsParent f) :
    Lists origin (((s.putHeader h).putLink h.hash f.hash).moved h p) U (h :: hs) := by
  apply lists.lower co known hf hp hparent (hasHeader_put hsized)
    (lists.stored_put co hsized known) _ rfl rfl
  intro key hkey
  rw [putHeader_rows, if_neg hkey]

/-- A stored parent of the frontier is put in front of the list, with a link. -/
lemma prependStored (lists : Lists origin s U hs) (co : Coherent U) (hhas : s.HasHeader h)
    (known : h ∈ U) (hf : hs.head? = some f) (hp : hs.getLast? = some p) (hparent : h.IsParent f) :
    Lists origin ((s.putLink h.hash f.hash).moved h p) U (h :: hs) :=
  lists.lower co known hf hp hparent hhas lists.stored (fun _ _ => rfl) rfl rfl

/-- Storing a block leaves the list. -/
lemma storeBlock (lists : Lists origin s U hs) (co : Coherent U) (hb : b.Sized)
    (known : b.header ∈ U) : Lists origin (s.putBlock b) U hs :=
  { lists with
    trusted := by
      intro p hp
      obtain ⟨b', hb', hheader⟩ := lists.trusted p hp
      by_cases e : b.hash = b'.hash
      · have hp' := lists.known p (List.mem_of_getLast? hp)
        refine ⟨b, hasBlock_put hb, co.eq_of_hash known hp' ?_⟩
        rw [← hheader]
        exact e
      · exact ⟨b', hb'.put e, hheader⟩
    blocks_frame := lists.blocks_frame.putBlock hb }

/-- The empty segment lists nothing. -/
lemma empty : Lists Segment.empty Segment.empty U [] := nil rfl

end Lists

/-! ## Calls -/

/-- The calls that a segment takes. -/
inductive Call where
  | trust (b : Block)
  | prepend (h : Header)
  | prependStored (h : Header)
  | storeBlock (b : Block)
  | clear

namespace Call

/-- The operation that is called. -/
def act : Call → SegmentM ByteMap Unit
  | trust b => Segment.trust b
  | prepend h => Segment.prepend h
  | prependStored h => Segment.prependStored h
  | storeBlock b => Segment.storeBlock b
  | clear => Segment.clear

/-- The header that a call is about. -/
def header? : Call → Option Header
  | trust b | storeBlock b => some b.header
  | prepend h | prependStored h => some h
  | clear => none

/-- What a call brings can be written. -/
def Sized : Call → Prop
  | trust b | storeBlock b => b.Sized
  | prepend h | prependStored h => h.Sized
  | clear => True

/-- Whether a call empties the tables. -/
def clears : Call → Bool
  | clear => true
  | _ => false

/-- The segment after a call, which may be refused. -/
def after (s : Segment ByteMap) (call : Call) : Segment ByteMap := (call.act.exec s).2

end Call

/-- The segment after some calls. -/
def ran (base : Segment ByteMap) (calls : List Call) : Segment ByteMap := calls.foldl Call.after base

/-- The segment whose rows were there before those of the list: the one that the calls began with, or
an empty one if they cleared it. -/
def underlying (base : Segment ByteMap) (calls : List Call) : Segment ByteMap :=
  if calls.any Call.clears then Segment.empty else base

/-- The headers that calls are about. -/
def involved (calls : List Call) : Set Header := {h | ∃ call ∈ calls, call.header? = some h}

/-- What callers promise: a header that is prepended as a stored one is found under its hash. -/
def Promised (base : Segment ByteMap) (calls : List Call) : Prop :=
  ∀ pre h, pre ++ [.prependStored h] <+: calls →
    ((Segment.header? h.hash).exec (ran base pre)).1 = .ok (some h)

variable {base : Segment ByteMap} {calls : List Call} {call : Call}

/-- The last call is made on what the others left. -/
lemma ran_concat : ran base (calls ++ [call]) = call.after (ran base calls) := by
  simp [ran]

/-- More calls are about more headers. -/
lemma involved_mono {pre : List Call} (hpre : pre <+: calls) : involved pre ⊆ involved calls := by
  rintro h ⟨call, hcall, hh⟩
  exact ⟨call, hpre.subset hcall, hh⟩

/-- What is promised for some calls is promised for the first of them. -/
lemma Promised.mono {pre : List Call} (promised : Promised base calls) (hpre : pre <+: calls) :
    Promised base pre :=
  fun pre' h hpre' => promised pre' h (hpre'.trans hpre)

/-- A listed header is at most as high as one of the list before or as the block that is trusted. -/
def NotHigher (call : Call) (hs : List Header) (h : Header) : Prop :=
  (∃ f ∈ hs, h.number.toNat ≤ f.number.toNat) ∨ ∃ b, call = .trust b ∧ b.header = h

/-- A header of the list before is not higher. -/
lemma notHigher_of_mem (hh : h ∈ hs) : NotHigher call hs h := .inl ⟨h, hh, Nat.le_refl _⟩

/-- A header that precedes the frontier is not higher than it. -/
lemma notHigher_cons (hf : hs.head? = some f) (pre : Precedes h f) :
    ∀ h' ∈ h :: hs, NotHigher call hs h' := by
  rintro h' (_ | ⟨_, hh'⟩)
  · refine .inl ⟨f, List.mem_of_head? hf, ?_⟩
    have hnum := pre.number
    omega
  · exact notHigher_of_mem hh'

/-- One call keeps a segment that lists headers. -/
lemma Lists.after (lists : Lists origin s U hs) (co : Coherent U) (hsized : call.Sized)
    (known : ∀ h, call.header? = some h → h ∈ U)
    (hhas : ∀ h, call = .prependStored h → s.HasHeader h) :
    ∃ hs', Lists (if call.clears then Segment.empty else origin) (call.after s) U hs' ∧
      ∀ h ∈ hs', NotHigher call hs h := by
  cases call with
  | trust b =>
    have hb := known b.header rfl
    simp only [Call.after, Call.act, Call.clears, exec_trust]
    cases hends : s.anchors with
    | none =>
      obtain rfl := lists.eq_nil hends
      refine ⟨_, lists.anchor hsized hb, ?_⟩
      rintro h (_ | ⟨_, ⟨⟩⟩)
      exact .inr ⟨b, rfl, rfl⟩
    | some ends =>
      obtain ⟨hf, hp⟩ := lists.ends hends
      by_cases hparent : b.header.parent = ends.pivot.hash
      · simp only [hparent, if_true]
        refine ⟨_, lists.extend co hsized hb hf hp hparent, ?_⟩
        intro h hh
        rcases List.mem_append.1 hh with hh | hh
        · exact notHigher_of_mem hh
        · exact .inr ⟨b, rfl, (List.mem_singleton.1 hh).symm⟩
      · simp only [hparent, if_false]
        exact ⟨hs, lists, fun h => notHigher_of_mem⟩
  | prepend h =>
    simp only [Call.after, Call.act, Call.clears]
    rcases exec_prepend s h with ⟨ends, hends, pre, hexec⟩ | ⟨-, e, hexec⟩ <;> rw [hexec]
    · obtain ⟨hf, hp⟩ := lists.ends hends
      exact ⟨_, lists.prepend co hsized (known h rfl) hf hp pre.parent, notHigher_cons hf pre⟩
    · exact ⟨hs, lists, fun h => notHigher_of_mem⟩
  | prependStored h =>
    simp only [Call.after, Call.act, Call.clears]
    rcases exec_prependStored s h with ⟨ends, hends, pre, hexec⟩ | ⟨-, e, hexec⟩ <;> rw [hexec]
    · obtain ⟨hf, hp⟩ := lists.ends hends
      exact ⟨_, lists.prependStored co (hhas h rfl) (known h rfl) hf hp pre.parent,
        notHigher_cons hf pre⟩
    · exact ⟨hs, lists, fun h => notHigher_of_mem⟩
  | storeBlock b =>
    exact ⟨hs, lists.storeBlock co hsized (known b.header rfl), fun h => notHigher_of_mem⟩
  | clear => exact ⟨[], Lists.empty, nofun⟩

/-- After any calls a segment lists headers, none of them higher than a block that was trusted. -/
lemma exists_lists_ran (hnew : base.anchors = none) (hsized : ∀ call ∈ calls, call.Sized)
    (promised : Promised base calls) (co : Coherent U) (known : involved calls ⊆ U) :
    ∃ hs, Lists (underlying base calls) (ran base calls) U hs ∧
      ∀ h ∈ hs, ∃ b, .trust b ∈ calls ∧ h.number.toNat ≤ b.number.toNat := by
  induction calls using List.reverseRecOn with
  | nil => exact ⟨[], Lists.nil hnew, nofun⟩
  | append_singleton calls call ih =>
    have hpre := List.prefix_append calls [call]
    obtain ⟨hs, lists, hheight⟩ := ih (fun c hc => hsized c (hpre.subset hc)) (promised.mono hpre)
      ((involved_mono hpre).trans known)
    -- the promise tells what is found just before the last call
    obtain ⟨hs', lists', hheight'⟩ := lists.after co (hsized call (by simp))
      (fun h hh => known ⟨call, by simp, hh⟩) (by
        rintro h rfl
        have hfound := promised calls h List.prefix_rfl
        rw [exec_header?, headerAt_eq_some_iff] at hfound
        exact hfound.1)
    refine ⟨hs', ?_, ?_⟩
    · rw [ran_concat]
      convert lists' using 1
      cases hc : call.clears <;> simp [underlying, hc]
    · intro h hh
      rcases hheight' h hh with ⟨f, hf, hle⟩ | ⟨b, rfl, rfl⟩
      · obtain ⟨b, hb, hle'⟩ := hheight f hf
        exact ⟨b, List.mem_append_left _ hb, hle.trans hle'⟩
      · exact ⟨b, by simp, Nat.le_refl _⟩

/-- A segment spans a list: its ends are the first and the last header, each header is the parent of
the next, and every look-up of a listed header finds what the list says. -/
structure Spans (s : Segment ByteMap) (hs : List Header) : Prop where
  lineage : Lineage hs
  frontier : s.frontier? = hs.head?
  pivot : s.pivot? = hs.getLast?
  frontier_eq_none : s.frontier? = none ↔ hs = []
  pivot_eq_none : s.pivot? = none ↔ hs = []
  header : ∀ h ∈ hs, (header? h.hash).exec s = (.ok (some h), s)
  trusted : ∀ p ∈ hs.getLast?, ∃ b, trustedBlock?.exec s = (.ok (some b), s) ∧ b.header = p
  successor : hs.IsChain fun a b => (successor? a.hash).exec s = (.ok (some b.hash), s)

/-- The rows of headers that are not listed, and the links of all but those below the pivot, are as they
were at the origin. -/
structure Untouched (origin s : Segment ByteMap) (hs : List Header) : Prop where
  headers : ∀ key, (∀ h ∈ hs, h.hash.bytes ≠ key) →
    s.headers.rows[key]? = origin.headers.rows[key]?
  links : ∀ key, (∀ h ∈ hs.dropLast, h.hash.bytes ≠ key) →
    s.links.rows[key]? = origin.links.rows[key]?

/-- A segment spans what it lists. -/
lemma Lists.spans (lists : Lists origin s U hs) : s.Spans hs where
  lineage := lists.lineage
  frontier := lists.frontier
  pivot := lists.pivot
  frontier_eq_none := by rw [lists.frontier, List.head?_eq_none_iff]
  pivot_eq_none := by rw [lists.pivot, List.getLast?_eq_none_iff]
  header := by
    intro h hh
    rw [exec_header?, headerAt_eq_some_iff.2 ⟨lists.stored h hh, rfl⟩]
  trusted := by
    intro p hp
    obtain ⟨b, hb, rfl⟩ := lists.trusted p hp
    refine ⟨b, ?_, rfl⟩
    have hfound : s.blockAt b.header.hash = .ok (some b) := blockAt_eq_some_iff.2 ⟨hb, rfl⟩
    rw [exec_trustedBlock?, lists.pivot, hp, Option.elim_some, hfound]
  successor := by
    apply lists.linked.imp
    intro a a' link
    rw [exec_successor?, link.linkAt_eq]

/-- Other rows than those of the list are left. -/
lemma Lists.untouched (lists : Lists origin s U hs) : Untouched origin s hs :=
  ⟨lists.headers_frame, lists.links_frame⟩

/-- Whatever the tables hold when a segment is created and whatever is called, accepted or refused, the
segment spans a list of headers and leaves all other rows untouched. -/
theorem exists_spans_ran (hnew : base.anchors = none) (hsized : ∀ call ∈ calls, call.Sized)
    (promised : Promised base calls) (co : Coherent (involved calls)) :
    ∃ hs, (ran base calls).Spans hs ∧ Untouched (underlying base calls) (ran base calls) hs := by
  obtain ⟨hs, lists, -⟩ := exists_lists_ran hnew hsized promised co Set.Subset.rfl
  exact ⟨hs, lists.spans, lists.untouched⟩

/-- A child of genesis is trusted over a table that has genesis already, which is prepended then. -/
theorem exists_spans_ran_stored :
    let base := Segment.empty.putHeader Block.genesis.header
    let calls := [Call.trust Block.first, .prependStored Block.genesis.header]
    ∃ hs, (ran base calls).Spans hs ∧ Untouched (underlying base calls) (ran base calls) hs := by
  intro base calls
  have hcalls : ∀ {call}, call ∈ calls →
      call = .trust Block.first ∨ call = .prependStored Block.genesis.header := by simp [calls]
  have hsized : ∀ call ∈ calls, call.Sized := by
    intro call hcall
    rcases hcalls hcall with rfl | rfl
    · exact Block.sized_of_nil rfl rfl
    · exact (Block.sized_of_nil (b := Block.genesis) rfl rfl).header
  have promised : Promised base calls := by
    intro pre h hpre
    have hfound : ((header? Block.genesis.header.hash).exec (ran base [.trust Block.first])).1 =
        .ok (some Block.genesis.header) := by decide +kernel
    obtain ⟨rest, e⟩ := hpre
    rcases pre with _ | ⟨c, _ | ⟨d, pre⟩⟩
    · simp [calls] at e
    · simp only [calls, List.cons_append, List.nil_append, List.cons.injEq,
        Call.prependStored.injEq] at e
      obtain ⟨rfl, rfl, -⟩ := e
      exact hfound
    · simp [calls] at e
  have hsub : involved calls ⊆ {Block.genesis.header, Block.first.header} := by
    rintro h ⟨call, hcall, hh⟩
    rcases hcalls hcall with rfl | rfl <;> cases hh
    · exact .inr rfl
    · exact .inl rfl
  exact exists_spans_ran rfl hsized promised (coherent_first.mono hsub)

end Segment
end ChainSync
