import ChainSync.Http.Router
import ChainSync.Peer
import ChainSync.Store.Faulty
import ChainSync.Sync.Stitch

/-!
# Rehearsals

A rehearsal plays a sync with a scripted peer, tables that can be made to fail or be damaged, and a
chain that can be made to refuse a block. The segment may be replaced by a fresh one over the same
tables, as after a restart, or by one over tables of its own.
-/

namespace ChainSync

abbrev RehearsedStore := Faulty ByteMap

abbrev RehearsedSync := SyncState RehearsedStore (Refusing Chain) ScriptedPeer

/-- The tables of a segment. -/
inductive SegmentTable where
  | headers
  | blocks
  | links
deriving DecidableEq

/-- The tables of the canonical chain. -/
inductive ChainTable where
  | blocks
  | index
  | markers
deriving DecidableEq

def Segment.mapTable {κ : Type} (table : SegmentTable) (f : κ → κ) (s : Segment κ) : Segment κ :=
  match table with
  | .headers => { s with headers := ⟨f s.headers.rows⟩ }
  | .blocks => { s with blocks := ⟨f s.blocks.rows⟩ }
  | .links => { s with links := ⟨f s.links.rows⟩ }

def Segment.table {κ : Type} (table : SegmentTable) (s : Segment κ) : κ :=
  match table with
  | .headers => s.headers.rows
  | .blocks => s.blocks.rows
  | .links => s.links.rows

def Chain.mapTable (table : ChainTable) (f : ByteMap → ByteMap) (c : Chain) : Chain :=
  match table with
  | .blocks => { c with blocks := f c.blocks }
  | .index => { c with index := f c.index }
  | .markers => { c with markers := f c.markers }

/-- A rehearsal. -/
structure Rehearsal where
  sync : RehearsedSync
  /-- The segment over the lasting tables, while one over tables of its own is in use. -/
  lasting : Option (Segment RehearsedStore) := none

namespace Rehearsal

variable {α : Type}

/-- The beginning of a rehearsal, with an empty segment. -/
def start (chain : Chain) (peer : ScriptedPeer) (config : Config) : Rehearsal where
  sync := { segment := Segment.empty, chain := { chain }, peer, config }

def play (act : SyncT Id RehearsedStore (Refusing Chain) ScriptedPeer α) (r : Rehearsal) :
    Except SyncError α × Rehearsal :=
  let (result, sync) := (Sync.exec act r.sync).run
  (result, { r with sync })

/-- Plays an operation of the sync while the chain refuses the block of a number. -/
def playRefusing (refused : Option UInt64)
    (act : SyncT Id RehearsedStore (Refusing Chain) ScriptedPeer α) (r : Rehearsal) :
    Except SyncError α × Rehearsal :=
  let (result, sync) := (Sync.exec act { r.sync with chain := { r.sync.chain with refused } }).run
  (result, { r with sync := { sync with chain := { sync.chain with refused := none } } })

def playChain (act : Operation ChainError Chain α) (r : Rehearsal) :
    Except ChainError α × Rehearsal :=
  let (result, chain) := act.exec r.sync.chain.chain
  (result, { r with sync := { r.sync with chain := { r.sync.chain with chain } } })

def onLasting (r : Rehearsal) : Segment RehearsedStore := r.lasting.getD r.sync.segment

def use (r : Rehearsal) (segment : Segment RehearsedStore) : Rehearsal where
  sync := { r.sync with segment }

def renew (r : Rehearsal) : Rehearsal := r.use r.onLasting.detached

def renewApart (r : Rehearsal) : Rehearsal where
  sync := { r.sync with segment := Segment.empty }
  lasting := some r.onLasting

/-- Uses a fresh segment over the lasting tables, as after a restart: no failures are to come. -/
def restart (r : Rehearsal) : Rehearsal :=
  let s := r.onLasting.detached
  r.use {
    headers := ⟨{ s.headers.rows with planned := none }⟩
    blocks := ⟨{ s.blocks.rows with planned := none }⟩
    links := ⟨{ s.links.rows with planned := none }⟩ }

/-- Changes the store of one of the lasting tables. -/
def mapTable (table : SegmentTable) (f : RehearsedStore → RehearsedStore) (r : Rehearsal) :
    Rehearsal :=
  match r.lasting with
  | none => { r with sync := { r.sync with segment := r.sync.segment.mapTable table f } }
  | some s => { r with lasting := some (s.mapTable table f) }

/-- Uses a fresh segment over the lasting tables, anchored at a block. If that fails, the segment in
use stays, over what was written. -/
def anchorAt (block : Block) (r : Rehearsal) : Except SyncError Unit × Rehearsal :=
  let (result, s) := (Segment.trust block).exec r.onLasting.detached
  match result with
  | .ok () => (.ok (), r.use s)
  | .error e =>
    match r.lasting with
    | none => (.error e, r.use { s with anchors := r.sync.segment.anchors })
    | some _ => (.error e, { r with lasting := some s })

def plan (table : SegmentTable) (fault : PlannedFault) : Rehearsal → Rehearsal :=
  mapTable table ({ · with planned := some fault })

def rows (table : SegmentTable) (r : Rehearsal) : ByteMap := (r.onLasting.table table).store

/-- Changes the rows of one of the lasting tables. -/
def mapRows (table : SegmentTable) (f : ByteMap → ByteMap) : Rehearsal → Rehearsal :=
  mapTable table fun store => { store with store := f store.store }

def chain (r : Rehearsal) : Chain := r.sync.chain.chain

def forgetEvents (r : Rehearsal) : Rehearsal := { r with sync := { r.sync with events := #[] } }

end Rehearsal
end ChainSync
