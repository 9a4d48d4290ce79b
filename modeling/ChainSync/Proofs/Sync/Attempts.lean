import ChainSync.Proofs.Sync.Completeness
import ChainSync.Proofs.Sync.Resumption
import ChainSync.Proofs.Sync.Termination

/-!
# Attempts that fail

A session is anchored at a block of an honest chain, over empty tables and above a local chain whose
tip is the block or an ancestor of it. Whatever its peer sends, as long as no stitch is done the
segment is an end of the path to the block and stores no header besides, and the local chain is along
the path (`Upheld`): a walk goes further down, even below the tip, a stitch further up. From there a
run with an honest peer comes to the same canonical chain as one without any attempts before it
(`run_after_attempts`).

The peer may send headers whose parent links form a cycle. They are used for nothing: a header is taken
only under the hash that was asked for, and this is the hash of a header on the path.
-/

namespace ChainSync.Sync

open Chain (pathTo)
open Segment (OnPath Path)

variable {π : Type} [Peer π Id] {U W : Set Header} {path : List Header} {seg : Segment ByteMap}
  {c : Chain} {f g h p : Header} {b : Block} {hash current next : Hash} {n : Nat}

/-- A segment that has come down a path and stores no header besides, next to a chain along the path. -/
def Upheld (U : Set Header) (path : List Header) (seg : Segment ByteMap) (c : Chain) : Prop :=
  ∃ i k, OnPath Segment.empty U path i i seg ∧ c.Along path k

/-- So is the segment, and its frontier has a hash as its parent. -/
def Wants (U : Set Header) (path : List Header) (hash : Hash) (seg : Segment ByteMap) (c : Chain) :
    Prop :=
  ∃ i k f, OnPath Segment.empty U path i i seg ∧ c.Along path k ∧ path[i]? = some f ∧ f.parent = hash

/-- So is the segment, and a climb stands at the hash of a header that the chain has. -/
def ClimbsAt (U : Set Header) (path : List Header) (current : Hash) (seg : Segment ByteMap)
    (c : Chain) : Prop :=
  ∃ i k n f, OnPath Segment.empty U path i i seg ∧ c.Along path k ∧ path[n]? = some f ∧
    f.hash = current ∧ i ≤ n ∧ n < k

/-- So is the segment, and a climb comes to the header right above one that the chain has. -/
def Meets (U : Set Header) (path : List Header) (next : Hash) (seg : Segment ByteMap)
    (c : Chain) : Prop :=
  ∃ i k n g, OnPath Segment.empty U path i i seg ∧ c.Along path k ∧ path[n + 1]? = some g ∧
    g.hash = next ∧ i ≤ n ∧ n < k

/-- An operation that upholds a segment and a chain, whatever it returns. -/
abbrev Upholds {α : Type} (U W : Set Header) (path : List Header)
    (act : SyncT Id ByteMap Chain π α) : Prop :=
  Ensures W (Upheld U path) act fun _ => Upheld U path

/-- A segment that wants a header is upheld. -/
lemma Wants.upheld (wants : Wants U path hash seg c) : Upheld U path seg c := by
  obtain ⟨i, k, f, on, along, -, -⟩ := wants
  exact ⟨i, k, on, along⟩

/-- A segment on which a climb stands is upheld. -/
lemma ClimbsAt.upheld (at_ : ClimbsAt U path current seg c) : Upheld U path seg c := by
  obtain ⟨i, k, n, f, on, along, -⟩ := at_
  exact ⟨i, k, on, along⟩

/-- A segment on which a climb goes on is upheld. -/
lemma Meets.upheld (meets : Meets U path next seg c) : Upheld U path seg c := by
  obtain ⟨i, k, n, g, on, along, -⟩ := meets
  exact ⟨i, k, on, along⟩

/-- Below the end of the path a link leads to the next header. -/
lemma ClimbsAt.linkAt (at_ : ClimbsAt U path current seg c) (hp : path.getLast? = some p)
    (hne : current ≠ p.hash) :
    ∃ next, seg.linkAt current = .ok (some next) ∧ Meets U path next seg c := by
  obtain ⟨i, k, n, f, on, along, hf, rfl, hi, hk⟩ := at_
  have hlt := (List.getElem?_eq_some_iff.1 hf).1
  have hnext : n + 1 < path.length := by
    by_contra hend
    have e : path.length - 1 = n := by omega
    rw [List.getLast?_eq_getElem?, e, hf] at hp
    cases hp
    exact hne rfl
  have hg : path[n + 1]? = some path[n + 1] := List.getElem?_eq_getElem hnext
  have link := on.stock.links_of_drop hi hf hg
  exact ⟨_, link.linkAt_eq, i, k, n, _, on, along, hg, rfl, hi, hk⟩

/-! ## The walk -/

section

variable (way : Path U path) (co : Coherent U) (sub : U ⊆ W) (hinj : W.InjOn Header.hash)
  (hzero : ∀ h ∈ W, h.hash ≠ Hash.zero)

section

include way co sub hzero

/-- Nothing more is stored, so restoring ends at the parent of the frontier. -/
lemma ensures_restore_upheld (start : Header) :
    Ensures W (fun seg c => Upheld U path seg c ∧ seg.frontier? = some start)
      (onSegment (Segment.restore start) : SyncT Id ByteMap Chain π _) fun r seg c =>
        ∃ hash, r = .ok hash ∧ Wants U path hash seg c := by
  refine .onSegment ?_
  rintro seg c ⟨⟨i, k, on, along⟩, hfrontier⟩
  have hlt := on.lt
  have hf : path[i]? = some path[i] := List.getElem?_eq_getElem on.lt
  obtain rfl : start = path[i] := Option.some.inj (hfrontier.symm.trans (on.frontier hf))
  obtain ⟨t, hrestore, on', -⟩ := on.restore way co (fun h hh => hzero h (sub hh)) hf hf
  rw [hrestore]
  exact ⟨_, rfl, i, k, _, on', along, hf, rfl⟩

end

section

include way sub

/-- Asking for a header leaves the segment, and brings one with the hash. -/
lemma ensures_request (hash : Hash) :
    Ensures W (Wants U path hash) (request hash : SyncT Id ByteMap Chain π _) fun r seg c =>
      Wants U path hash seg c ∧ ∀ found, r = .ok found →
        found.header.hash = hash ∧ found.header ∈ W ∧ found.header.Sized := by
  have look : Ensures W (Wants U path hash) (localHeader? hash : SyncT Id ByteMap Chain π _)
      fun r seg c => Wants U path hash seg c ∧
        ∀ h, r = .ok (some h) → h.hash = hash ∧ h ∈ W ∧ h.Sized := by
    refine .localHeader? fun seg c wants => ⟨wants, ?_⟩
    intro h hr
    obtain ⟨-, k, -, -, ⟨bs, hold, hbs, -⟩, -, -⟩ := wants
    obtain ⟨b, hb, rfl, hhash⟩ := hold.of_header?_eq_some (mapError_eq_ok.1 hr)
    have hmem : b.header ∈ path.take k := hbs ▸ List.mem_map_of_mem hb
    exact ⟨hhash, sub (way.known _ (List.mem_of_mem_take hmem)), (hold.sized b hb).header⟩
  refine look.bind (fun found => ?_) fun e seg c h => ⟨h.1, nofun⟩
  cases found with
  | some h =>
    refine .pure fun seg c hP => ⟨hP.1, ?_⟩
    rintro _ ⟨⟩
    exact hP.2 h rfl
  | none =>
    refine (Ensures.takeNetwork.mono (fun seg c hP => hP.1) fun _ _ _ => id).bind (fun _ => ?_)
      fun e seg c h => ⟨h, nofun⟩
    refine Ensures.fetchHeader.bind (fun h => ?_) fun e seg c h => ⟨h.1, nofun⟩
    refine .pure fun seg c hP => ⟨hP.1, ?_⟩
    rintro _ ⟨⟩
    exact hP.2 h rfl

end

include way co sub hinj hzero

/-- A header with the hash that is wanted is the next one down the path. -/
lemma Wants.save (wants : Wants U path h.hash seg c) (hh : h ∈ W) :
    Upheld U path ((Segment.prepend h).exec seg).2 c := by
  obtain ⟨i, k, f, on, along, hf, hparent⟩ := wants
  cases i with
  | zero =>
    -- the parent of genesis is no hash of a header
    rw [way.root f (by rwa [List.head?_eq_getElem?])] at hparent
    exact absurd hparent.symm (hzero h hh)
  | succ i =>
    have hlt := on.lt
    have hbelow : path[i]? = some path[i] := List.getElem?_eq_getElem (by omega)
    have hhash : h.hash = path[i].hash := hparent.symm.trans (way.precedes hbelow hf).parent
    obtain rfl := hinj hh (sub (way.known _ (List.mem_of_getElem? hbelow))) hhash
    obtain ⟨t, hexec, on', -⟩ := on.save way co hbelow
    rw [hexec]
    exact ⟨i, k, on', along⟩

/-- Going down to a header upholds the segment. -/
lemma ensures_extend (hash : Hash) :
    Ensures W (Wants U path hash) (extend hash : SyncT Id ByteMap Chain π _)
      fun _ => Upheld U path := by
  refine (ensures_request way sub hash).bind (fun found => ?_) fun e seg c h => h.1.upheld
  have save : Ensures W (fun seg c => Wants U path hash seg c ∧
        ∀ found', Except.ok (ε := SyncError) found = .ok found' →
          found'.header.hash = hash ∧ found'.header ∈ W ∧ found'.header.Sized)
      (save found.header : SyncT Id ByteMap Chain π _) fun _ => Upheld U path := by
    refine .onSegment fun seg c hP => ?_
    obtain ⟨rfl, hmem, -⟩ := hP.2 found rfl
    exact hP.1.save way co sub hinj hzero hmem
  exact save.bind (fun _ => .pure fun _ _ => id) fun _ _ _ => id

/-- A step upholds the segment. -/
lemma ensures_execute (start : Header) :
    Ensures W (fun seg c => Upheld U path seg c ∧ seg.frontier? = some start)
      (execute start : SyncT Id ByteMap Chain π _) fun _ => Upheld U path := by
  rw [execute_eq]
  refine (ensures_restore_upheld way co sub hzero start).bind (fun hash => ?_)
    (by rintro e seg c ⟨_, ⟨⟩, _⟩)
  refine (ensures_extend way co sub hinj hzero hash).mono ?_ fun _ _ _ => id
  rintro seg c ⟨_, ⟨⟩, wants⟩
  exact wants

/-- A walk goes down the path, or stops on it. -/
lemma upholds_syncToLocal : Upholds (π := π) U W path syncToLocal :=
  .syncToLocal (ensures_execute way co sub hinj hzero)

end

/-! ## The stitch -/

section

variable (way : Path U path) (co : Coherent U) (sub : U ⊆ W) (hinj : W.InjOn Header.hash)

section

include way co

/-- A header that the chain has is passed by. -/
lemma Meets.skip (meets : Meets U path next seg c) (hfound : c.header? next ≠ .ok none) :
    ClimbsAt U path next seg c := by
  obtain ⟨i, k, n, g, on, along, hg, rfl, hi, hk⟩ := meets
  refine ⟨i, k, n + 1, g, on, along, hg, rfl, by omega, ?_⟩
  by_contra hle
  exact hfound (along.header?_of_le way co hg (by omega))

/-- A header that the chain misses is passed with its block. -/
lemma Meets.take {c' : Chain} (meets : Meets U path next seg c)
    (hfound : c.header? next = .ok none) (hb : b.header ∈ path) (hhash : b.hash = next)
    (hsized : b.Sized) (happ : c.append b = .ok c') : ClimbsAt U path next seg c' := by
  obtain ⟨i, k, n, g, on, along, hg, rfl, hi, hk⟩ := meets
  have hheader : b.header = g :=
    co.eq_of_hash (way.known _ hb) (way.known g (List.mem_of_getElem? hg)) hhash
  have hnot : ¬ n + 1 < k := by
    intro hlt
    cases hfound.symm.trans (along.header?_of_lt hg hlt)
  obtain rfl : k = n + 1 := by omega
  obtain ⟨c'', happ', along'⟩ := along.append way co (hg.trans (congrArg some hheader.symm)) hsized
  cases happ.symm.trans happ'
  exact ⟨i, n + 1 + 1, n + 1, g, on, along', hg, rfl, by omega, by omega⟩

end

section

include way sub hinj

/-- A block for the hash that a climb comes to has its header on the path. -/
lemma Meets.header_mem (meets : Meets U path next seg c) (hb : b.header ∈ W)
    (hhash : b.hash = next) : b.header ∈ path := by
  obtain ⟨i, k, n, g, -, -, hg, rfl, -⟩ := meets
  have hmem := List.mem_of_getElem? hg
  obtain rfl : b.header = g := hinj hb (sub (way.known g hmem)) hhash
  exact hmem

end

include way co sub hinj

/-- What a climb takes for the body of a header is one. -/
lemma ensures_bodyOf_upheld (next : Hash) :
    Ensures W (Meets U path next) (bodyOf next : SyncT Id ByteMap Chain π _) fun r seg c =>
      Meets U path next seg c ∧ ∀ b, r = .ok b → b.hash = next ∧ b.header ∈ path ∧ b.Sized := by
  refine Ensures.bodyOf ?_ ?_
  · intro seg c b meets hb
    obtain ⟨has, hhash⟩ := Segment.blockAt_eq_some_iff.1 hb
    have hknown : b.header ∈ U := by
      obtain ⟨i, k, n, g, on, -⟩ := meets
      exact on.stock.rows.blocks b has
    exact ⟨hhash, meets.header_mem way sub hinj (sub hknown) hhash, has.sized⟩
  · intro seg c b meets hhash hheader hsized
    have hmem := meets.header_mem way sub hinj hheader hhash
    obtain ⟨i, k, n, g, on, rest⟩ := meets
    have on' := on.storeBlock co hsized (way.known _ hmem)
    exact ⟨⟨i, k, n, g, on', rest⟩, hhash, hmem, hsized⟩

/-- Going up to a successor comes to the next header of the path, or stops on it. -/
lemma ensures_advance_upheld (hp : path.getLast? = some p) (hne : current ≠ p.hash) :
    Ensures W (ClimbsAt U path current) (advance current : SyncT Id ByteMap Chain π _)
      fun r seg c => (∀ e, r = .error e → Upheld U path seg c) ∧
        ∀ x, r = .ok x → ClimbsAt U path x.1 seg c := by
  refine .advance (A := fun next _ => ClimbsAt U path next) (fun seg c at_ => at_.linkAt hp hne)
    (ensures_bodyOf_upheld way co sub hinj) (fun next seg c meets => meets.upheld) ?_ ?_
  · intro next seg c meets hfound
    exact meets.skip way co hfound
  · rintro next seg c b c' meets ⟨hhash, hmem, hsized⟩ hfound happ
    exact meets.take way co hfound hmem hhash hsized happ

/-- A climb from the frontier stops on the path. -/
lemma ensures_climb_upheld (steps : Nat) :
    Ensures W (Upheld U path) (climb steps : SyncT Id ByteMap Chain π _) fun r seg c =>
      Upheld U path seg c ∧ ∀ n : UInt64, r = .ok (some n) → True := by
  refine .climb (D := fun _ _ _ => True) (fun _ _ => id) ?_
  rintro seg c ends known ⟨i, k, on, along⟩ hends hfound
  have hlt := on.lt
  obtain ⟨hf, hp⟩ := on.stock.ends hends
  rw [List.getLast?_drop, if_neg (by omega)] at hp
  rw [List.head?_drop] at hf
  -- the chain has the frontier, so the frontier is below the tip
  have at_ : ClimbsAt U path ends.frontier.hash seg c := by
    refine ⟨i, k, i, ends.frontier, on, along, hf, rfl, Nat.le_refl i, ?_⟩
    by_contra hle
    cases hfound.symm.trans (along.header?_of_le way co hf (by omega))
  have climb := Ensures.climbWithin (π := π) (A := fun current _ => ClimbsAt U path current)
    (fun _ _ seg c at_ => at_.upheld)
    (fun current _ hne => ensures_advance_upheld way co sub hinj hp hne) steps ends.frontier.hash 0
  refine climb.mono ?_ fun r seg c h => ⟨h.1, fun _ _ => trivial⟩
  rintro _ _ ⟨rfl, rfl⟩
  exact at_

/-- A stitch that fails stops on the path, and one that is done clears the segment. -/
lemma ensures_stitch_upheld :
    Ensures W (Upheld U path) (stitch : SyncT Id ByteMap Chain π _) fun r seg c =>
      (∀ n, r = .ok n → seg = Segment.empty) ∧ ∀ e, r = .error e → Upheld U path seg c :=
  (Ensures.stitch (ensures_climb_upheld way co sub hinj)).mono (fun _ _ => id) fun _ _ _ h =>
    ⟨fun n hn => (h.1 n hn).1, h.2⟩

end

/-! ## The session -/

/-- The attempts of a session: whole calls, none of which is done with a stitch. -/
structure Attempts (s : SyncState ByteMap Chain π) (calls : List SessionCall) : Prop where
  whole : ∀ call ∈ calls, call = .syncToLocal ∨ call = .stitch ∨ call = .run
  failed : ∀ earlier call later, calls = earlier ++ call :: later → call ≠ .syncToLocal →
    ∃ e, (Operation.exec call.act (session s earlier)).1 = .error e

/-- A sync with an honest peer goes on from the segment and the chain of another one. -/
structure GoesOn {π π' : Type} [Peer π' Id] (r : Chain) (stopped : SyncState ByteMap Chain π)
    (s : SyncState ByteMap Chain π') : Prop where
  segment : s.segment = stopped.segment
  chain : s.chain = stopped.chain
  serves : Peer.Serves r s.peer

/-- A run is done with a canonical chain, and the segment is cleared. -/
def RunsTo (s : SyncState ByteMap Chain π) (c : Chain) : Prop :=
  ∃ n t, Operation.exec run s = (.ok n, t) ∧ t.segment = Segment.empty ∧ t.chain = c

/-- A stitch that is done has cleared the segment. -/
lemma segment_of_exec_stitch {s t : SyncState ByteMap Chain π} {count : UInt64}
    (hexec : Operation.exec (stitch : SyncT Id ByteMap Chain π _) s = (.ok count, t)) :
    t.segment = Segment.empty := by
  simp only [stitch, stitchWithin_eq, Operation.exec_bind, Operation.exec_get] at hexec
  rcases hclimb : Operation.exec (climb (s.segment.links.size + 1) : SyncT Id ByteMap Chain π _) s
    with ⟨e | _ | climbed, u⟩
  · simp only [hclimb] at hexec
    cases hexec
  · simp only [hclimb, Operation.exec_pure] at hexec
    cases hexec
  · simp only [hclimb, Operation.exec_bind, exec_onSegment, Segment.exec_clear, Except.mapError,
      Operation.exec_pure] at hexec
    cases hexec
    rfl

/-- A run that is done clears the segment. -/
lemma segment_of_exec_run {s t : SyncState ByteMap Chain π} {count : UInt64}
    (hexec : Operation.exec (run : SyncT Id ByteMap Chain π _) s = (.ok count, t)) :
    t.segment = Segment.empty := by
  rw [run, Operation.exec_bind] at hexec
  rcases hwalk : Operation.exec (syncToLocal : SyncT Id ByteMap Chain π _) s with ⟨e | h, u⟩ <;>
    simp only [hwalk] at hexec
  · cases hexec
  · exact segment_of_exec_stitch hexec

section

variable {r : Chain} {R L : List Block} {P : Block} {s : SyncState ByteMap Chain π}
  {calls : List SessionCall}

section

variable (way : Path U path) (co : Coherent U) (sub : U ⊆ W) (hinj : W.InjOn Header.hash)
  (hzero : ∀ h ∈ W, h.hash ≠ Hash.zero)
include way co sub hinj hzero

/-- One whole call stops on the path, unless it is done with a stitch. -/
lemma ensures_act_upheld {call : SessionCall}
    (whole : call = .syncToLocal ∨ call = .stitch ∨ call = .run) :
    Ensures W (Upheld U path) (call.act : SyncT Id ByteMap Chain π _) fun r seg c =>
      (call ≠ .syncToLocal ∧ r = .ok ()) ∨ Upheld U path seg c := by
  have walk := upholds_syncToLocal (π := π) way co sub hinj hzero
  have stitch := ensures_stitch_upheld (π := π) way co sub hinj
  rcases whole with rfl | rfl | rfl
  · exact walk.bind (fun _ => .pure fun _ _ => .inr) fun _ _ _ => .inr
  · exact stitch.bind (fun _ => .pure fun _ _ _ => .inl ⟨nofun, rfl⟩) fun e _ _ h => .inr (h.2 e rfl)
  · have run := walk.bind (fun _ => stitch) fun _ _ _ upheld => ⟨nofun, fun _ _ => upheld⟩
    exact run.bind (fun _ => .pure fun _ _ _ => .inl ⟨nofun, rfl⟩) fun e _ _ h => .inr (h.2 e rfl)

/-- Attempts uphold a segment and a chain, however many they are. -/
lemma upheld_session (begun : Upheld U path s.segment s.chain) (attempts : Attempts s calls)
    (brings : ∀ log, (session s calls).events.toList = s.events.toList ++ log →
      Peer.Brings W s.peer log) :
    Upheld U path (session s calls).segment (session s calls).chain := by
  have ensures := fun call hcall =>
    ensures_act_upheld (π := π) way co sub hinj hzero (attempts.whole call hcall)
  refine session_keeps begun ensures (fun earlier call later hcalls r t hexec ended => ?_) brings
  rcases ended with ⟨hcall, rfl⟩ | upheld
  · obtain ⟨e, herror⟩ := attempts.failed earlier call later hcalls hcall
    rw [hexec] at herror
    cases herror
  · exact upheld

end

omit [Peer π Id] in
/-- What begins stands at the end of the path to its block. -/
lemma Begins.upheld (begins : Begins r R L W P s) (co : Coherent (headersOf (R ++ L)))
    (hzero : ∀ h ∈ W, h.hash ≠ Hash.zero) (sub : headersOf (R ++ L) ⊆ W) :
    Upheld (headersOf (R ++ L)) (pathTo R P) s.segment s.chain := by
  have hR := header_mem_headersOf (List.subset_append_left R L)
  have hL := header_mem_headersOf (List.subset_append_right R L)
  obtain ⟨t, ht⟩ := Option.ne_none_iff_exists'.1 (List.getLast?_eq_none_iff.not.2 begins.hold.ne_nil)
  obtain ⟨b, hb, hhash, hle⟩ := begins.tip t ht
  have hmem := begins.hold.header_mem_path hL begins.honest hR co (fun h hh => hzero h (sub hh)) ht hb
    hhash hle
  refine ⟨P.number.toNat, L.length, ?_, begins.hold.along (begins.honest.path hR P) hmem⟩
  rw [begins.segment]
  exact begins.honest.onPath_trust hR co begins.mem

omit [Peer π Id] in
/-- With an honest peer a run goes on from what is upheld, to the end of the path. -/
lemma GoesOn.exists_runsTo {π' : Type} [Peer π' Id] {s' : SyncState ByteMap Chain π'}
    (goes : GoesOn r s s') (upheld : Upheld U path s.segment s.chain) (way : Path U path)
    (co : Coherent U) (hzero : ∀ h ∈ U, h.hash ≠ Hash.zero) (hold : r.Holds R)
    (hR : ∀ h ∈ path, ∃ b ∈ R, b.header = h) : ∃ c, RunsTo s' c ∧ c.Along path path.length := by
  obtain ⟨i, k, on, along⟩ := upheld
  rw [← goes.segment] at on
  rw [← goes.chain] at along
  obtain ⟨n, t, hrun, hall⟩ := exec_run_of_onWay way co hzero ⟨on, along, goes.serves⟩ (by omega) hold
    hR fun hash => ⟨none, Segment.blockAt_empty hash⟩
  exact ⟨t.chain, ⟨n, t, hrun, segment_of_exec_run hrun, rfl⟩, hall⟩

/-- Attempts that fail change nothing of the outcome: with an honest peer a run comes to the same
canonical chain after them as without them, its tip is the trusted block, and the segment is
cleared. -/
theorem run_after_attempts {π' π'' : Type} [Peer π' Id] [Peer π'' Id]
    {s' : SyncState ByteMap Chain π'} {s'' : SyncState ByteMap Chain π''}
    (hinj : W.InjOn Header.hash) (hzero : ∀ h ∈ W, h.hash ≠ Hash.zero) (begins : Begins r R L W P s)
    (attempts : Attempts s calls)
    (brings : ∀ log, (session s calls).events.toList = s.events.toList ++ log →
      Peer.Brings W s.peer log)
    (after : GoesOn r (session s calls) s') (without : GoesOn r s s'') :
    ∃ c c', RunsTo s' c ∧ RunsTo s'' c' ∧ c.Alike c' ∧ c.tip = .ok (P.number, some P.hash) := by
  have sub : headersOf (R ++ L) ⊆ W := by
    rintro _ ⟨b, hb, rfl⟩
    exact (List.mem_append.1 hb).elim (begins.honest_known b) (begins.known b)
  have hzeroU : ∀ h ∈ headersOf (R ++ L), h.hash ≠ Hash.zero := fun h hh => hzero h (sub hh)
  have co := begins.hold.coherent begins.honest (hinj.mono sub) hzeroU
  have way := begins.honest.path (header_mem_headersOf (List.subset_append_left R L)) P
  have begun := begins.upheld co hzero sub
  have upheld := upheld_session way co sub hinj hzero begun attempts brings
  have hmem : ∀ h ∈ pathTo R P, ∃ b ∈ R, b.header = h := fun h => Chain.Holds.mem_of_mem_path
  obtain ⟨c, hrun, along⟩ := after.exists_runsTo upheld way co hzeroU begins.honest hmem
  obtain ⟨c', hrun', along'⟩ := without.exists_runsTo begun way co hzeroU begins.honest hmem
  have hlen := begins.honest.length_path begins.mem
  have hend := begins.honest.getElem?_path (P := P) begins.mem (Nat.le_refl _)
  refine ⟨c, c', hrun, hrun', along.alike along', ?_⟩
  rw [hlen] at along
  exact along.tip hend

end

/-- A session two blocks above a local chain that has only genesis; its peer sends one header and no
body. -/
def begunSecond : SyncState ByteMap Chain ScriptedPeer where
  segment := ((Segment.trust Block.second).exec Segment.empty).2
  chain := Chain.ofBlocks [Block.genesis]
  peer := { script := [(.headers [Block.first.header], 1)] }

/-- An honest peer takes the place of the other one after some calls. -/
def retriedSecond (calls : List SessionCall) : SyncState ByteMap Chain ScriptedPeer where
  segment := (session begunSecond calls).segment
  chain := (session begunSecond calls).chain
  peer := { served := BlockMap.ofBlocks [Block.genesis, Block.first, Block.second] }

/-- The honest peer goes on from where the session stopped. -/
lemma goesOn_second (calls : List SessionCall) :
    GoesOn (Chain.ofBlocks [Block.genesis, Block.first, Block.second]) (session begunSecond calls)
      (retriedSecond calls) where
  segment := rfl
  chain := rfl
  serves := Peer.serves_ofBlocks Chain.holds_second

/-- The session begins from the second block, over a chain that has only genesis. -/
lemma begins_second :
    Begins (Chain.ofBlocks [Block.genesis, Block.first, Block.second])
      [Block.genesis, Block.first, Block.second] [Block.genesis]
      (headersOf ([Block.genesis, Block.first, Block.second] ++ [Block.genesis])) Block.second
      begunSecond where
  honest := Chain.holds_second
  honest_known := header_mem_headersOf (List.subset_append_left _ _)
  hold := Chain.holds_genesis
  known := header_mem_headersOf (List.subset_append_right _ _)
  mem := by simp
  tip := by
    rintro t ⟨⟩
    exact ⟨Block.genesis, by simp, rfl, by decide⟩
  segment := rfl

/-- A run comes down to genesis and misses a body, and a walk comes no further. -/
lemma attempts_second : Attempts begunSecond [.run, .syncToLocal] where
  whole := by simp
  failed := by
    have run : (Operation.exec SessionCall.run.act begunSecond).1 =
        .error (.maxRetriesReached Block.first.hash 4) := by
      decide +kernel
    rintro (_ | ⟨_, _ | ⟨_, earlier⟩⟩) call later hcalls hcall
    · cases hcalls
      exact ⟨_, run⟩
    · cases hcalls
      exact absurd rfl hcall
    · simp at hcalls

/-- A peer whose script has one header sends no other one. -/
lemma brings_of_scripted_header (hh : h ∈ U ∧ h.Sized) (log : List SyncEvent) :
    Peer.Brings U ({ script := [(.headers [h], 1)] } : ScriptedPeer) log := by
  induction log with
  | nil => exact Peer.brings_nil
  | cons event log ih =>
    cases event with
    | headers =>
      refine ⟨?_, nofun, brings_of_scripted_empty U log⟩
      rintro _ (_ | ⟨_, ⟨⟩⟩)
      exact hh
    | block => exact ⟨nofun, nofun, brings_of_scripted_empty U log⟩
    | network => exact ⟨nofun, nofun, ih⟩
    | pause => exact ⟨nofun, nofun, ih⟩
    | handOver => exact ⟨nofun, nofun, ih⟩

/-- After a run that missed a body, and a walk, the two blocks are brought in. -/
theorem run_after_attempts_second :
    ∃ c c', RunsTo (retriedSecond [.run, .syncToLocal]) c ∧ RunsTo (retriedSecond []) c' ∧
      c.Alike c' ∧ c.tip = .ok (2, some Block.second.hash) := by
  have known : Block.first.header ∈
      headersOf ([Block.genesis, Block.first, Block.second] ++ [Block.genesis]) :=
    ⟨Block.first, by simp, rfl⟩
  have sized : Block.first.Sized := Block.sized_of_nil rfl rfl
  exact run_after_attempts setsOut_second.injOn setsOut_second.ne_zero begins_second attempts_second
    (fun log _ => brings_of_scripted_header ⟨known, sized.header⟩ log) (goesOn_second _)
    (goesOn_second [])

end ChainSync.Sync
