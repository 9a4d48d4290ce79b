import ChainSync.Sync.State

/-!
# Fetching with retries

An attempt fails if the peer fails, has nothing, or has nothing with the hash that was asked for.
After the attempts that the settings allow the fetch is given up. Between two attempts there is a
pause, after the last one there is none.
-/

namespace ChainSync.Sync

variable {m : Type → Type} [Monad m] {κ σ π α : Type} [Peer π m]

/-- Makes at most `left` attempts to fetch what has `hash`, with a pause between any two. Where the settings
have no delay, a pause of length zero is noted, which stands for no pause: nobody waits for it. -/
def retry (hash : Hash) (attempt : SyncT m κ σ π (Option α)) : (left : Nat) → SyncT m κ σ π α
  | 0 => do throw (.maxRetriesReached hash (← get).config.attempts)
  | left + 1 => do
    match ← attempt with
    | some found => return found
    | none =>
      if left ≠ 0 then
        pause (← get).config.retryDelay
      retry hash attempt left

/-- One attempt to fetch a header: the first one of the answer that has the hash. -/
def attemptHeader (hash : Hash) : SyncT m κ σ π (Option Header) := do
  match ← askHeaders hash (← get).config.headersPerRequest with
  | .ok headers => return headers.find? (·.hash = hash)
  | .error _ => return none

/-- One attempt to fetch a block: the answer, if it has the hash. -/
def attemptBlock (hash : Hash) : SyncT m κ σ π (Option Block) := do
  match ← askBlock hash with
  | .ok block => return block.filter (·.hash = hash)
  | .error _ => return none

/-- Fetches the header with a hash. -/
def fetchHeader (hash : Hash) : SyncT m κ σ π Header := do
  retry hash (attemptHeader hash) (← get).config.attempts.toNat

/-- Fetches the block with a hash. -/
def fetchBlock (hash : Hash) : SyncT m κ σ π Block := do
  retry hash (attemptBlock hash) (← get).config.attempts.toNat

end ChainSync.Sync
