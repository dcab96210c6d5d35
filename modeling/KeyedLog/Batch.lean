import KeyedLog.KeyHash
import KeyedLog.Record

/-! Batches: the keys of one write, with their hashes and the places of their records. -/
namespace KeyedLog

/-- A key and the offset of its record, counted from the start of the batch. -/
structure BatchItem where
  key : Bytes
  hash : KeyHash
  offset : Nat
deriving DecidableEq, Repr

/-- All records of a batch are of one kind. -/
structure Batch where
  kind : RecordKind
  items : List BatchItem
  length : Nat
deriving DecidableEq, Repr

namespace Batch

def empty (kind : RecordKind) : Batch := ⟨kind, [], 0⟩

def add (b : Batch) (key : Bytes) (hash : KeyHash) (length : Nat) : Batch :=
  { b with items := b.items ++ [⟨key, hash, b.length⟩], length := b.length + length }

/-- The hashes in the batch, each once, first seen first. -/
def hashes (b : Batch) : List KeyHash :=
  (b.items.map (·.hash)).eraseDups

/-- Key, value, size and digest are judged in this order. -/
def addRecord (hasher : Hasher) (max : Nat) (b : Batch) (r : Record) : Except TableError Batch := do
  r.check
  let length := b.length + r.length
  if max < length then throw (.batchTooLarge length max)
  return b.add r.key (← hasher.hash r.key) r.length

/-- The first record that does not fit decides the error. -/
def ofRecords (hasher : Hasher) (max : Nat) (kind : RecordKind) (rs : List Record) :
    Except TableError Batch :=
  rs.foldlM (addRecord hasher max) (empty kind)

end Batch
end KeyedLog
