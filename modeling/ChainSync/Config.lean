import ChainSync.Json.Parser
import ChainSync.Json.Fields

/-!
# Tuning of peer requests

How many headers a request asks for, how often a request is tried, and how long to wait in between.
-/

namespace ChainSync

/-- The settings of a sync. -/
structure Config where
  /-- Headers asked for per request; zero counts as one. -/
  batchSize : UInt32 := 25
  /-- Attempts per hash; zero counts as one. -/
  maxRetries : UInt32 := 4
  /-- The pause between two attempts, in milliseconds. -/
  retryDelay : UInt64 := 250
deriving DecidableEq

namespace Config

/-- The number of headers that a request asks for. -/
def headersPerRequest (c : Config) : UInt32 := max c.batchSize 1

/-- The number of attempts before a request is given up. -/
def attempts (c : Config) : UInt32 := max c.maxRetries 1

def toJson (c : Config) : Json :=
  Json.record
    [("batch_size", Json.nat c.batchSize.toNat), ("max_retries", Json.nat c.maxRetries.toNat),
      ("retry_delay_ms", Json.nat c.retryDelay.toNat)]

def fieldOr {α : Type} (absent : α) (read : Json → Option α) (field : Option Json) : Option α :=
  (field.map read).getD (some absent)

/-- The settings that a JSON value writes; a missing field has its default. -/
def ofJson? (v : Json) : Option Config := do
  match ← v.fields? ["batch_size", "max_retries", "retry_delay_ms"] with
  | [batchSize, maxRetries, retryDelay] =>
    let default : Config := {}
    return {
      batchSize := ← fieldOr default.batchSize Json.word32? batchSize
      maxRetries := ← fieldOr default.maxRetries Json.word32? maxRetries
      retryDelay := ← fieldOr default.retryDelay Json.word64? retryDelay }
  | _ => none

def parse? (text : Bytes) : Option Config := (Json.parse? text).bind ofJson?

end Config
end ChainSync
