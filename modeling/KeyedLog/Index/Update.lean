import KeyedLog.Index.Lookup

/-! Writing: appending a batch and linking it into its buckets. -/
namespace KeyedLog.Tables

open Program

def withLocks {α : Type} (buckets : List Bucket) (p : Program Tables α) : Program Tables α := do
  waitUntil fun t => t.locks.free buckets
  modify fun t => { t with locks := t.locks.take buckets }
  p.ensuring (modify fun t => { t with locks := t.locks.release buckets })

def record (segment ref : Nat) (links : Links) (t : Tables) : Tables :=
  let (s, cache) := (t.state ref).record t.cache segment links
  { t.modifyState ref fun _ => s with cache }

/-- A batch whose links were persisted leaves the tail, and completes its range of the segment. -/
def retire (segment ref : Nat) (t : Tables) (b : PendingLinks) : Tables × Option Nat :=
  let (s, cache) := (t.state ref).retire t.cache segment b.links
  let (watermark, moved) := s.watermark.complete b.offset (b.offset + b.length)
  ({ t.modifyState ref fun _ => { s with watermark } with cache }, moved)

/-- The answer is the last watermark, if it rose. -/
def retireAll (segment ref : Nat) (t : Tables) (bs : List PendingLinks) : Tables × Option Nat :=
  bs.foldl (fun (t, moved) b =>
    let (t, newer) := retire segment ref t b
    (t, newer <|> moved)) (t, none)

/-- Persist the links of a batch along with those that earlier writes left behind. On failure all of
them are left to the next write. An index offset that lags behind does no harm. -/
def persist (segment ref : Nat) (batch : PendingLinks) : Program Tables Unit := do
  let batches := (← look ref).pending ++ [batch]
  change ref ({ · with pending := [] })
  match ← (request (.updateAttributes segment (batches.flatMap (·.links.updates)))).attempt with
  | .error e =>
    change ref fun s => { s with pending := s.pending ++ batches }
    .fail e
  | .ok () =>
    let (t, moved) := retireAll segment ref (← read) batches
    modify fun _ => t
    match moved with
    | none => return
    | some offset =>
      let _ ← (request
        (.updateAttributes segment [.replaceIfGreater .indexOffset offset])).attempt

/-- Run `commit`, which appends the batch and answers where, and link the batch. The heads are read
before the append, so that a reader never misses entries in between. -/
def update (config : Config) (segment : Nat) (batch : Batch) (commit : Program Tables Nat) :
    Program Tables Nat := do
  checkIndex
  withLocks (batch.hashes.map (⟨segment, ·⟩)) do
    let ref ← access config segment
    let current ← headsWith segment ref batch.hashes
    let offset ← commit
    let links := Links.ofBatch batch offset current
    modify (record segment ref links)
    if config.mode = .inline then persist segment ref ⟨links, offset, batch.length⟩
    return offset

end KeyedLog.Tables
