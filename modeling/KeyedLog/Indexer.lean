import KeyedLog.Connector

/-! An indexer outside: it reads new records, persists their links, and reports how far it came. -/
namespace KeyedLog.Indexer

open Program Tables

/-- The links of one more entry. A head is looked up when its bucket is first met. -/
def linkEntry (config : Config) (segment : Nat) (heads : Heads) (r : Scanned) :
    Program Tables (Heads × List AttributeUpdate) := do
  let hash ← ofExcept (config.hasher.hash r.record.key)
  let previous ← match heads[hash]? with
    | some head => pure (some head)
    | none =>
      let values : List (Option Nat) ← ask (.getAttributes segment [.bucket hash])
      pure values.head?.join
  let updates := match previous with
    | some previous => [.replace (.backpointer r.offset) previous]
    | none => []
  return (heads.insert hash r.offset, updates)

def linkEntries (config : Config) (segment : Nat) (heads : Heads) :
    List Scanned → Program Tables (Heads × List AttributeUpdate)
  | [] => return (heads, [])
  | r :: records => do
    let (heads, first) ← linkEntry config segment heads r
    let (heads, rest) ← linkEntries config segment heads records
    return (heads, first ++ rest)

/-- The entries that are indexed at a time, which may be limited. -/
def portion (limit : Option Nat) (records : List Scanned) : List Scanned :=
  match limit with
  | some n => records.take n
  | none => records

/-- Index what is not indexed yet, or only so many entries of it. The answer is the new index
offset. -/
def runWithin (config : Config) (connector : Connector) (limit : Option Nat) :
    Program Tables Nat := do
  let segment : Nat ← ask (.resolve connector.info.name)
  let values : List (Option Nat) ← ask (.getAttributes segment [.indexOffset])
  let start := values.head?.join.getD 0
  let length : Nat ← ask (.length segment)
  if length ≤ start then return start
  else
    let data : Bytes ← ask (.read segment start (length - start))
    let scan := Scan.ofBytes recordChecksum start data
    let records := portion limit scan.records
    let (heads, backpointers) ← linkEntries config segment ∅ records
    ofExcept scan.outcome
    let stop := records.foldl (fun offset r => offset + r.header.totalLength) start
    ask (.updateAttributes segment
      (backpointers ++ Links.headUpdates heads.toList ++ [.replaceIfGreater .indexOffset stop]))
    modify (connector.notify stop)
    return stop

def run (config : Config) (connector : Connector) : Program Tables Nat :=
  runWithin config connector none

end KeyedLog.Indexer
