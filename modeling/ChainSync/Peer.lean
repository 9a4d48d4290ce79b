import ChainSync.Block
import ChainSync.Sync.Error
import Std.Data.ExtTreeMap

/-!
# Peers

A peer answers requests for headers and for blocks. It is not trusted: an answer may be anything,
and may depend on every request before. A peer answers in some monad: without effects in a
rehearsal, over the network in a node.

A scripted peer follows a script of answers and is honest after it, to rehearse how a sync copes with
answers of every kind.
-/

namespace ChainSync

/-- Peers, by the state that their answers depend on and the monad in which they answer. -/
class Peer (π : Type) (m : Type → Type) where
  /-- One request for the headers from a hash downward, at most `limit` of them. -/
  headers : (hash : Hash) → (limit : UInt32) → StateT π m (Except PeerError (List Header))
  block : (hash : Hash) → StateT π m (Except PeerError (Option Block))
  pause : (milliseconds : UInt64) → StateT π m Unit

/-! ## Scripted peers -/

abbrev BlockMap := Std.ExtTreeMap Bytes Block

/-- The blocks of a list, by hash; of two with the same hash the later one stays. -/
def BlockMap.ofBlocks (blocks : List Block) : BlockMap :=
  blocks.foldl (fun served b => served.insert b.hash.bytes b) ∅

/-- At most `limit` headers from a hash downward, as far as the blocks are there; nothing is below
height zero. -/
def BlockMap.headersDescending (served : BlockMap) : (limit : Nat) → (hash : Hash) → List Header
  | 0, _ => []
  | limit + 1, hash =>
    match served[hash.bytes]? with
    | none => []
    | some b =>
      b.header :: (if b.number = 0 then [] else served.headersDescending limit b.header.parent)

/-- An answer of a script. -/
inductive Reply where
  | fail (cause : PeerError)
  /-- These headers; a request for a block is answered with none. -/
  | headers (headers : List Header)
  /-- This block or none; a request for headers is answered with its header alone. -/
  | block (block : Option Block)
  /-- What the served blocks say. -/
  | honest

/-- A peer with answers to come and blocks to serve after them. -/
structure ScriptedPeer where
  /-- The answers to come, each with the number of requests that it is for. -/
  script : List (Reply × Nat) := []
  served : BlockMap := ∅

namespace ScriptedPeer

/-- The next answer of a script and what is left of the script. -/
def next : List (Reply × Nat) → Reply × List (Reply × Nat)
  | [] => (.honest, [])
  | (_, 0) :: rest => next rest
  | (reply, 1) :: rest => (reply, rest)
  | (reply, n + 2) :: rest => (reply, (reply, n + 1) :: rest)

def takeReply : StateM ScriptedPeer Reply := do
  let (reply, script) := next (← get).script
  modify ({ · with script })
  return reply

instance : Peer ScriptedPeer Id where
  headers hash limit := do
    match ← takeReply with
    | .fail cause => return .error cause
    | .headers headers => return .ok headers
    | .block block => return .ok (block.map (·.header)).toList
    | .honest => return .ok ((← get).served.headersDescending limit.toNat hash)
  block hash := do
    match ← takeReply with
    | .fail cause => return .error cause
    | .headers _ => return .ok none
    | .block block => return .ok block
    | .honest => return .ok (← get).served[hash.bytes]?
  pause _ := pure ()

end ScriptedPeer

end ChainSync
