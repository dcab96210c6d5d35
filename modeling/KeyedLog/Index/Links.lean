import KeyedLog.Attribute
import KeyedLog.Batch
import KeyedLog.Bucket

/-! The links that a batch of records adds to its buckets. -/
namespace KeyedLog

/-- Moved bucket heads, and the predecessor of each new entry. -/
structure Links where
  heads : List (KeyHash × Nat)
  backpointers : List (Nat × Option Nat)
deriving DecidableEq, Repr

namespace Links

/-- Link new entries, each with its hash, in order. An entry precedes the later ones of its bucket,
also within the batch. -/
def chain (heads : Heads) : List (Nat × KeyHash) → Heads × List (Nat × Option Nat)
  | [] => (heads, [])
  | (offset, hash) :: entries =>
    let (last, rest) := chain (heads.insert hash offset) entries
    (last, (offset, heads[hash]?) :: rest)

def ofBatch (b : Batch) (offset : Nat) (current : Heads) : Links :=
  let (heads, backpointers) := chain current (b.items.map fun i => (offset + i.offset, i.hash))
  ⟨b.hashes.filterMap fun h => heads[h]?.map (h, ·), backpointers⟩

/-- Entries without a predecessor have no backpointer attribute. -/
def backpointerUpdates (backpointers : List (Nat × Option Nat)) : List AttributeUpdate :=
  backpointers.filterMap fun (entry, previous) => previous.map (.replace (.backpointer entry) ·)

/-- Heads only move forward, so that links of several batches may be persisted in any order. -/
def headUpdates (heads : List (KeyHash × Nat)) : List AttributeUpdate :=
  heads.map fun (hash, head) => .replaceIfGreater (.bucket hash) head

def updates (l : Links) : List AttributeUpdate :=
  headUpdates l.heads ++ backpointerUpdates l.backpointers

end Links

/-- The links of an appended batch that have yet to be persisted. -/
structure PendingLinks where
  links : Links
  offset : Nat
  length : Nat
deriving DecidableEq, Repr

end KeyedLog
