import ChainSync.Sync.Step

/-!
# Walking back to the local chain

Steps are repeated until one finds its header in the local chain. At height zero no step is left:
the local chain has the frontier itself, or the two chains share nothing.
-/

namespace ChainSync.Sync

variable {m : Type → Type} [Monad m] {κ σ π : Type} [KeyValue κ] [LocalChain σ]

/-- Looks where the walk stands: at the header that the local chain shares at height zero, or at a
frontier to go on from. -/
def outlook : SyncT m κ σ π (Header ⊕ Header) := do
  match (← get).segment.frontier? with
  | none => throw .emptyChain
  | some frontier =>
    if frontier.number = 0 then
      let hash := frontier.hash
      match ← localHeader? hash with
      | some header => return .inl header
      | none => throw (.genesisMismatch hash)
    else return .inr frontier

variable [Peer π m]

/-- Walks back by at most `steps` steps; `none` if they do not suffice. -/
def walkWithin : (steps : Nat) → SyncT m κ σ π (Option Header)
  | 0 => do
    match ← outlook with
    | .inl header => return some header
    | .inr _ => return none
  | steps + 1 => do
    match ← outlook with
    | .inl header => return some header
    | .inr frontier =>
      let found ← execute frontier
      if found.isLocal then return some found.header else walkWithin steps

/-- Walks back until a header is found in the local chain, and returns it. A step lowers the
frontier, so its height is a bound on their number. -/
def syncToLocal : SyncT m κ σ π Header := do
  match (← get).segment.frontier? with
  | none => throw .emptyChain
  | some frontier =>
    match ← walkWithin frontier.number.toNat with
    | some header => return header
    | none => throw (.endless frontier.hash)

end ChainSync.Sync
