import ChainSync.Proofs.Segment.Stock

/-!
# Segments on a path

A path is a lineage that begins with genesis. A segment is `OnPath` from `i` and `m` on if it lists the
path from `m` on and its table of headers has exactly the path from `i` on, as after a walk that was
interrupted and begun anew. Restoring takes it from `m` down to `i` and ends with the hash that is not
stored (`OnPath.restore`). For `i = 0` this is the parent of genesis, which no header has.
-/

namespace ChainSync.Segment

variable {origin s t : Segment ByteMap} {U : Set Header} {hs path : List Header} {h f : Header}
  {i m : Nat}

/-- Different hashes with rows have different rows. -/
lemma length_le_size {rows : ByteMap} {hashes : List Hash} (nodup : hashes.Nodup)
    (hrows : ∀ a ∈ hashes, rows[a.bytes]? ≠ none) : hashes.length ≤ rows.size := by
  have keys : (hashes.map (·.bytes)).Nodup := nodup.map fun _ _ => Hash.ext
  rw [← List.length_map (·.bytes), ← Std.ExtTreeMap.length_keys]
  apply keys.length_le_of_subset
  intro key hkey
  obtain ⟨a, ha, rfl⟩ := List.mem_map.1 hkey
  rw [Std.ExtTreeMap.mem_keys, Std.ExtTreeMap.mem_iff_isSome_getElem?]
  exact Option.isSome_iff_ne_none.2 (hrows a ha)

/-- Rows that read as headers with different hashes are different rows. -/
lemma length_le_of_nodup_hash (has : ∀ h ∈ hs, s.HasHeader h) (nodup : (hs.map Header.hash).Nodup) :
    hs.length ≤ s.headers.size := by
  have hrows : ∀ a ∈ hs.map Header.hash, s.headers.rows[a.bytes]? ≠ none := by
    intro a ha
    obtain ⟨h, hh, rfl⟩ := List.mem_map.1 ha
    obtain ⟨row, hrow, -⟩ := has h hh
    rw [hrow]
    exact Option.some_ne_none _
  have hle := length_le_size nodup hrows
  rwa [List.length_map] at hle

/-- The table of links is large enough for the list. -/
lemma Lists.length_le_links (lists : Lists origin s U hs) (co : Coherent U) :
    hs.length ≤ s.links.size + 1 := by
  have nodup := (lists.nodup_hash co).sublist ((List.dropLast_sublist hs).map _)
  have hrows : ∀ a ∈ hs.dropLast.map Header.hash, s.links.rows[a.bytes]? ≠ none := by
    intro a ha
    obtain ⟨h, hh, rfl⟩ := List.mem_map.1 ha
    obtain ⟨i, hi⟩ := List.mem_iff_getElem?.1 hh
    rw [List.getElem?_dropLast] at hi
    split_ifs at hi with hlt
    have link : s.Links h hs[i + 1] :=
      rel_of_isChain lists.linked hi (List.getElem?_eq_getElem (by omega))
    rw [Links] at link
    rw [link]
    exact Option.some_ne_none _
  have hle := length_le_size nodup hrows
  rw [List.length_map, List.length_dropLast] at hle
  exact Nat.le_add_of_sub_le hle

/-- A segment that lists a path from some place on links what follows. -/
lemma Lists.links_of_drop (lists : Lists origin s U (path.drop i)) (hi : i ≤ m)
    (hh : path[m]? = some h) (hf : path[m + 1]? = some f) : s.Links h f := by
  apply rel_of_isChain lists.linked (i := m - i)
  · rw [List.getElem?_drop, Nat.add_sub_cancel' hi, hh]
  · rw [List.getElem?_drop, ← Nat.add_assoc, Nat.add_sub_cancel' hi, hf]

/-- A lineage of known headers that is numbered from genesis on. -/
structure Path (U : Set Header) (path : List Header) : Prop where
  lineage : Lineage path
  known : ∀ h ∈ path, h ∈ U
  sized : ∀ h ∈ path, h.Sized
  number : ∀ {i : Nat} {h : Header}, path[i]? = some h → h.number.toNat = i
  root : ∀ h ∈ path.head?, h.parent = Hash.zero
  length_lt : path.length < 2 ^ 64

namespace Path

/-- Each header of a path precedes the next. -/
lemma precedes (way : Path U path) (hh : path[i]? = some h) (hf : path[i + 1]? = some f) :
    Precedes h f where
  parent := rel_of_isChain way.lineage hh hf
  number := by rw [way.number hh, way.number hf]

/-- Only the first header of a path may have number zero. -/
lemma number_ne_zero (way : Path U path) (hh : path[i]? = some h) (hi : 0 < i) : h.number ≠ 0 := by
  intro hzero
  have hnum := way.number hh
  rw [hzero, UInt64.toNat_zero] at hnum
  omega

/-- What stands on the path from some place on has other hashes than what stands below it. -/
lemma hash_ne (way : Path U path) (co : Coherent U) (hf : f ∈ path.take i) (hh : h ∈ path.drop i) :
    h.hash ≠ f.hash := by
  have nodup := way.lineage.nodup_hash co way.known
  rw [← List.take_append_drop i path, List.map_append, List.nodup_append] at nodup
  exact (nodup.2.2 f.hash (List.mem_map_of_mem hf) h.hash (List.mem_map_of_mem hh)).symm

/-- Below the end of the path no header has its hash. -/
lemma hash_ne_last (way : Path U path) (co : Coherent U) (hh : path[i]? = some h)
    (hf : path.getLast? = some f) (hi : i + 1 < path.length) : h.hash ≠ f.hash := by
  rw [List.getLast?_eq_getElem?] at hf
  have hlow : h ∈ path.take (i + 1) := by
    rw [List.mem_take_iff_getElem]
    obtain ⟨hlt, rfl⟩ := List.getElem?_eq_some_iff.1 hh
    exact ⟨i, by omega, rfl⟩
  have hhigh : f ∈ path.drop (i + 1) := by
    rw [List.mem_iff_getElem?]
    refine ⟨path.length - 1 - (i + 1), ?_⟩
    rw [List.getElem?_drop, Nat.add_sub_cancel' (by omega), hf]
  exact (way.hash_ne co hlow hhigh).symm

/-- The parent of a header is not among those from it on. -/
lemma hash_ne_parent (way : Path U path) (co : Coherent U) (hzero : ∀ h ∈ U, h.hash ≠ Hash.zero)
    (hf : path[i]? = some f) : ∀ h ∈ path.drop i, h.hash ≠ f.parent := by
  intro h hh
  cases i with
  | zero =>
    rw [way.root f (by rwa [List.head?_eq_getElem?])]
    exact hzero h (way.known h (List.mem_of_mem_drop hh))
  | succ i =>
    have hlt := (List.getElem?_eq_some_iff.1 hf).1
    have hbelow : path[i]? = some path[i] := List.getElem?_eq_getElem (by omega)
    have hparent : f.parent = path[i].hash := (way.precedes hbelow hf).parent
    have hlow : path[i] ∈ path.take (i + 1) := by
      rw [List.mem_take_iff_getElem]
      exact ⟨i, by omega, rfl⟩
    rw [hparent]
    exact way.hash_ne co hlow hh

/-- A lineage of known headers up to the end of the path is an end of it. -/
lemma suffix (way : Path U path) (co : Coherent U) (hzero : ∀ h ∈ U, h.hash ≠ Hash.zero)
    (lin : Lineage hs) (hknown : ∀ h ∈ hs, h ∈ U) (hlast : hs.getLast? = path.getLast?) :
    hs <:+ path := by
  have lineage := way.lineage
  have known := way.known
  have root := way.root
  -- both lists lose their last header, so only what holds of a shorter path may stay
  clear way
  induction hs using List.reverseRecOn generalizing path with
  | nil => exact List.nil_suffix
  | append_singleton hs p ih =>
    rw [List.getLast?_concat] at hlast
    obtain ⟨path, rfl⟩ := List.getLast?_eq_some_iff.1 hlast.symm
    suffices h : hs <:+ path by
      obtain ⟨low, rfl⟩ := h
      exact ⟨low, (List.append_assoc ..).symm⟩
    rw [Lineage, List.isChain_append] at lin lineage
    cases hq : hs.getLast? with
    | none =>
      rw [List.getLast?_eq_none_iff.1 hq]
      exact List.nil_suffix
    | some q =>
      have hparent : p.parent = q.hash := lin.2.2 q hq p rfl
      have hqU := hknown q (List.mem_append_left _ (List.mem_of_getLast? hq))
      cases hq' : path.getLast? with
      | none =>
        rw [List.getLast?_eq_none_iff.1 hq'] at root
        -- the path begins here, and the parent of genesis is no hash of a header
        exact absurd (hparent.symm.trans (root p rfl)) (hzero q hqU)
      | some q' =>
        have hparent' : p.parent = q'.hash := lineage.2.2 q' hq' p rfl
        have hq'U := known q' (List.mem_append_left _ (List.mem_of_getLast? hq'))
        have e := co.eq_of_hash hqU hq'U (hparent.symm.trans hparent')
        subst e
        refine ih lin.1 (fun h hh => hknown h (List.mem_append_left _ hh)) (hq.trans hq'.symm)
          lineage.1 (fun h hh => known h (List.mem_append_left _ hh)) ?_
        intro h hh
        apply root
        rwa [List.head?_append_of_ne_nil _ (List.ne_nil_of_mem (List.mem_of_head? hh))]

/-- A lineage of known headers up to an end of the path, or without headers, is an end of it. -/
lemma exists_drop (way : Path U path) (co : Coherent U) (hzero : ∀ h ∈ U, h.hash ≠ Hash.zero)
    (lin : Lineage hs) (hknown : ∀ h ∈ hs, h ∈ U) (hlast : hs.getLast? = (path.drop i).getLast?) :
    ∃ j, hs = path.drop j := by
  rw [List.getLast?_drop] at hlast
  split_ifs at hlast with hi
  · exact ⟨path.length, by rw [List.drop_length, List.getLast?_eq_none_iff.1 hlast]⟩
  · exact ⟨_, List.suffix_iff_eq_drop.1 (way.suffix co hzero lin hknown hlast)⟩

end Path

/-- A segment that lists a path from `m` on, over a table of headers that has it from `i` on. -/
structure OnPath (origin : Segment ByteMap) (U : Set Header) (path : List Header) (i m : Nat)
    (s : Segment ByteMap) : Prop where
  stock : Stocked origin s U (path.drop m)
  rows : ∀ h ∈ path.drop i, s.HasHeader h
  absent : ∀ hash : Hash, (∀ h ∈ path.drop i, h.hash ≠ hash) →
    s.headers.rows[hash.bytes]? = none
  le : i ≤ m
  lt : m < path.length

namespace OnPath

variable {g : Header} {b : Block}

/-- The rest of a path begins with the header at its position. -/
lemma head?_drop (hf : path[m]? = some f) : (path.drop m).head? = some f := by
  rw [List.head?_drop, hf]

/-- A header is in the rest of a path from an earlier position. -/
lemma mem_drop (hf : path[m]? = some f) (hi : i ≤ m) : f ∈ path.drop i := by
  rw [List.mem_iff_getElem?]
  exact ⟨m - i, by rw [List.getElem?_drop, Nat.add_sub_cancel' hi, hf]⟩

/-- The rest of a path is the header at its position and what follows. -/
lemma drop_eq (hh : path[i]? = some h) : path.drop i = h :: path.drop (i + 1) := by
  obtain ⟨hlt, rfl⟩ := List.getElem?_eq_some_iff.1 hh
  exact List.drop_eq_getElem_cons hlt

/-- The frontier is the header at the position of the segment. -/
lemma frontier (on : OnPath origin U path i m s) (hf : path[m]? = some f) : s.frontier? = some f := by
  rw [on.stock.frontier, head?_drop hf]

/-- The table of headers has a row for each header from `i` on. -/
lemma length_le (on : OnPath origin U path i m s) (way : Path U path) (co : Coherent U) :
    path.length - i ≤ s.headers.size := by
  have nodup := (way.lineage.nodup_hash co way.known).sublist ((List.drop_sublist i path).map _)
  have hle := length_le_of_nodup_hash on.rows nodup
  rwa [List.length_drop] at hle

section

variable (way : Path U path) (co : Coherent U) (hzero : ∀ h ∈ U, h.hash ≠ Hash.zero)
include way co hzero

/-- Stored headers of the path are restored one by one. -/
lemma restoreWithin (steps : Nat) (on : OnPath origin U path i m s) (hf : path[m]? = some f)
    (hg : path[i]? = some g) (hsteps : m - i < steps) :
    ∃ t, (restoreWithin steps f.parent).exec s = (.ok (some g.parent), t) ∧
      OnPath origin U path i i t ∧ t.blocks = s.blocks := by
  induction steps generalizing m f s with
  | zero => omega
  | succ steps ih =>
    simp only [Segment.restoreWithin, Operation.exec_bind, exec_header?]
    rcases Nat.eq_or_lt_of_le on.le with rfl | hlt
    -- nothing is stored below `i`, so the walk ends here
    · cases hf.symm.trans hg
      have hnone : s.headerAt g.parent = .ok none :=
        valueAt_eq_none_iff.2 (on.absent _ (way.hash_ne_parent co hzero hg))
      rw [hnone]
      exact ⟨s, rfl, on, rfl⟩
    -- the stored header is the parent of the frontier, which moves down to it
    · obtain ⟨m, rfl⟩ := Nat.exists_eq_add_of_le' (Nat.zero_lt_of_lt hlt)
      have hlen := on.lt
      have hh : path[m]? = some path[m] := List.getElem?_eq_getElem (by omega)
      have pre := way.precedes hh hf
      have has : s.HasHeader path[m] := on.rows _ (mem_drop hh (by omega))
      have hfound : s.headerAt f.parent = .ok (some path[m]) :=
        headerAt_eq_some_iff.2 ⟨has, pre.parent.symm⟩
      have hfrontier : s.frontier?.map (·.parent) = some f.parent := by
        rw [on.frontier hf]
        rfl
      obtain ⟨t, hexec, stock, hheaders, hblocks⟩ :=
        on.stock.lowerStored co has (head?_drop hf) pre
      have on' : OnPath origin U path i m t := {
        stock := by rwa [drop_eq hh]
        rows := by
          intro h hh
          rw [HasHeader, hheaders]
          exact on.rows h hh
        absent := by
          rw [hheaders]
          exact on.absent
        le := by omega
        lt := by omega }
      obtain ⟨t', hexec', on'', hblocks'⟩ := ih on' hh (by omega)
      rw [hfound]
      refine ⟨t', ?_, on'', hblocks'.trans hblocks⟩
      simp only [Operation.exec_bind, Operation.exec_get, hfrontier, if_true, hexec]
      exact hexec'

/-- The stored part of the path is restored, down to the hash that is not stored. -/
lemma restore (on : OnPath origin U path i m s) (hf : path[m]? = some f) (hg : path[i]? = some g) :
    ∃ t, (restore f).exec s = (.ok g.parent, t) ∧ OnPath origin U path i i t ∧
      t.blocks = s.blocks := by
  have hsize := on.length_le way co
  have hlt := on.lt
  obtain ⟨t, hexec, on', hblocks⟩ := on.restoreWithin way co hzero (s.headers.size + 1) hf hg
    (by omega)
  refine ⟨t, ?_, on', hblocks⟩
  simp only [Segment.restore, Operation.exec_bind, Operation.exec_get, hexec]
  rfl

end

/-- Whether the beginning of the path is stored. -/
lemma row_eq_none_iff (on : OnPath origin U path i m s) (way : Path U path) (co : Coherent U)
    (hg : path[0]? = some g) : s.headers.rows[g.hash.bytes]? = none ↔ 0 < i := by
  constructor
  · intro hnone
    by_contra hzero
    obtain rfl : i = 0 := by omega
    obtain ⟨row, hrow, -⟩ := on.rows g (List.mem_of_getElem? hg)
    cases hrow.symm.trans hnone
  · intro hpos
    have hlow : g ∈ path.take i := by
      rw [List.mem_take_iff_getElem]
      obtain ⟨hlt, rfl⟩ := List.getElem?_eq_some_iff.1 hg
      exact ⟨0, by omega, rfl⟩
    exact on.absent g.hash fun h hh => way.hash_ne co hlow hh

/-- The next header down is prepended, with a row of its own. -/
lemma save (on : OnPath origin U path (i + 1) (i + 1) s) (way : Path U path) (co : Coherent U)
    (hh : path[i]? = some h) :
    ∃ t, (Segment.prepend h).exec s = (.ok (), t) ∧ OnPath origin U path i i t ∧
      t.blocks = s.blocks := by
  have hlt := on.lt
  have hf : path[i + 1]? = some path[i + 1] := List.getElem?_eq_getElem hlt
  have hU := way.known h (List.mem_of_getElem? hh)
  have hsized := way.sized h (List.mem_of_getElem? hh)
  obtain ⟨t, hexec, stock, hheaders, hblocks⟩ :=
    on.stock.lower co hsized hU (head?_drop hf) (way.precedes hh hf)
  refine ⟨t, hexec, ?_, hblocks⟩
  exact {
    stock := by rwa [drop_eq hh]
    rows := by
      intro h' hh'
      rw [HasHeader, hheaders]
      rw [drop_eq hh, List.mem_cons] at hh'
      rcases hh' with rfl | hh'
      · exact hasHeader_put hsized
      · apply (on.rows h' hh').put hsized
        exact fun e => co.eq_of_hash hU (way.known h' (List.mem_of_mem_drop hh')) e
    absent := by
      intro hash hne
      rw [drop_eq hh] at hne
      rw [hheaders, putHeader_rows, if_neg]
      · exact on.absent hash fun h' hh' => hne h' (List.mem_cons_of_mem h hh')
      · exact fun e => hne h List.mem_cons_self (Hash.ext e)
    le := Nat.le_refl i
    lt := Nat.lt_of_succ_lt on.lt }

/-- Storing a block leaves the segment on the path. -/
lemma storeBlock (on : OnPath origin U path i m s) (co : Coherent U) (hb : b.Sized)
    (known : b.header ∈ U) : OnPath origin U path i m (s.putBlock b) where
  stock := on.stock.storeBlock co hb known
  rows := on.rows
  absent := on.absent
  le := on.le
  lt := on.lt

/-- A segment is anchored at the end of the path, over the tables of one that listed an end of it. -/
lemma trust (way : Path U path) (co : Coherent U) (stock : Stocked Segment.empty s U (path.drop i))
    (hp : path.getLast? = some b.header) (hb : b.Sized) :
    OnPath s.detached U path (min i (path.length - 1)) (path.length - 1)
      ((Segment.trust b).exec s.detached).2 := by
  rw [List.getLast?_eq_getElem?] at hp
  have hlen := (List.getElem?_eq_some_iff.1 hp).1
  have hU := way.known _ (List.mem_of_getElem? hp)
  have hnum := way.number hp
  have hlt := way.length_lt
  have hend : path.drop (path.length - 1) = [b.header] := by
    rw [drop_eq hp, Nat.sub_add_cancel (by omega), List.drop_length]
  have hheaders : ((Segment.trust b).exec s.detached).2.headers = (s.putHeader b.header).headers :=
    rfl
  exact {
    stock := by
      rw [hend]
      exact stocked_trust rfl (stock.rows.of_eq rfl rfl) hb hU (hnum ▸ by omega)
    rows := by
      intro h hh
      rw [HasHeader, hheaders]
      by_cases hlow : i ≤ path.length - 1
      · rw [Nat.min_eq_left hlow] at hh
        apply (stock.stored h hh).put hb.header
        exact fun e => co.eq_of_hash hU (stock.known h hh) e
      · rw [Nat.min_eq_right (by omega), hend, List.mem_singleton] at hh
        rw [hh]
        exact hasHeader_put hb.header
    absent := by
      intro hash hne
      rw [hheaders, putHeader_rows, if_neg]
      · rw [stock.headers_frame]
        · simp [Segment.empty, Table.empty, KeyValue.empty]
        · intro h hh e
          exact hne h (List.drop_subset_drop_left path (Nat.min_le_left ..) hh) (Hash.ext e)
      · exact fun e => hne b.header (mem_drop hp (Nat.min_le_right ..)) (Hash.ext e)
    le := Nat.min_le_right ..
    lt := by omega }

end OnPath

end ChainSync.Segment
