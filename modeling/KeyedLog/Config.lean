import KeyedLog.KeyHash
import KeyedLog.Record

/-! Settings of a table extension. -/
namespace KeyedLog

/-- Who persists the links of a write. -/
inductive IndexingMode where
  /-- The write itself does, before it returns. -/
  | inline
  /-- An indexer outside does, some time later. -/
  | deferred
deriving DecidableEq, Repr

inductive ConfigError where
  /-- The digest function is of no use. -/
  | digest (cause : TableError)
  /-- Not even a single record would fit. -/
  | batchLimit
  | chainLimit
deriving DecidableEq, Repr

def ConfigError.message : ConfigError → String
  | .digest cause => cause.message
  | .batchLimit => "assertion failed: bytes >= MAX_SERIALIZATION_LENGTH"
  | .chainLimit => "assertion failed: n > 0"

structure Config where
  hasher : Hasher
  /-- The number of bucket heads that are cached. -/
  cacheCapacity : Nat
  /-- The greatest length of a single write. -/
  maxBatchLength : Nat
  /-- The number of entries after which a bucket counts as corrupted. -/
  maxChainLength : Nat
  mode : IndexingMode

namespace Config

def standard : Config := ⟨.sha256, 1000000, 32 * maxRecordLength, 1048576, .inline⟩

def withMaxBatchLength (c : Config) (n : Nat) : Except ConfigError Config :=
  if n < maxRecordLength then .error .batchLimit else .ok { c with maxBatchLength := n }

def withMaxChainLength (c : Config) (n : Nat) : Except ConfigError Config :=
  if n = 0 then .error .chainLimit else .ok { c with maxChainLength := n }

/-- Settings that differ from the standard ones, checked in this order. -/
def ofSettings (hasher : Except TableError Hasher) (cacheCapacity maxBatchLength maxChainLength :
    Option Nat) (mode : Option IndexingMode) : Except ConfigError Config := do
  let hasher ← hasher.mapError .digest
  let c := { standard with
    hasher, cacheCapacity := cacheCapacity.getD standard.cacheCapacity }
  let c ← match maxBatchLength with | some n => c.withMaxBatchLength n | none => pure c
  let c ← match maxChainLength with | some n => c.withMaxChainLength n | none => pure c
  return { c with mode := mode.getD standard.mode }

end Config
end KeyedLog
