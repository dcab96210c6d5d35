import KeyedLog.Record.Scan
import KeyedLog.Tables

/-! First access to a segment: links that are not persisted yet are made good, or waited for. -/
namespace KeyedLog.Tables

open Program

def look (ref : Nat) : Program Tables SegmentState := do
  return (← read).state ref

def change (ref : Nat) (f : SegmentState → SegmentState) : Program Tables Unit :=
  modify (·.modifyState ref f)

def checkIndex : Program Tables Unit := do
  if (← read).indexClosed then .fail .closed

def attributeOf {σ : Type} (segment : Nat) (id : AttributeId) : Program σ (Option Nat) := do
  let values : List (Option Nat) ← request (.getAttributes segment [id])
  return values.head?.join

/-- Follow persisted backpointers to the newest entry before an offset. Each one has to lead
backward, and there may be only so many. -/
def rewind {σ : Type} (segment before : Nat) :
    (hops left : Nat) → Option Nat → Program σ (Option Nat)
  | _, _, none => return none
  | hops, left, some offset =>
    if offset < before then return some offset
    else do
      let previous ← attributeOf segment (.backpointer offset)
      if previous.any (offset ≤ ·) then .fail (.corruptedBucket offset (hops + 1))
      else
        match left with
        | 0 => .fail (.corruptedBucket offset (hops + 1))
        | left + 1 => rewind segment before (hops + 1) left previous

/-- The heads of buckets as of an offset, given what is persisted for them. -/
def rewindAll {σ : Type} (config : Config) (segment before : Nat) (hashes : List KeyHash)
    (persisted : List (Option Nat)) : Program σ Heads :=
  (hashes.zip persisted).foldlM (fun heads (hash, head) => do
    match ← rewind segment before 0 config.maxChainLength head with
    | some offset => return heads.insert hash offset
    | none => return heads) ∅

/-- The offsets and hashes of all records of a byte string that begins at an offset. A key that has
no hash is found before a malformed record that comes after it. -/
def hashRecords (config : Config) (start : Nat) (data : Bytes) :
    Except TableError (List (Nat × KeyHash)) := do
  let scan := Scan.ofBytes recordChecksum start data
  let entries ← scan.records.mapM fun r => return (r.offset, ← config.hasher.hash r.record.key)
  scan.outcome
  return entries

/-- Persist the links of all records in a range that has not been indexed, or only in part. -/
def indexRange (config : Config) (segment start stop : Nat) : Program Tables Unit := do
  let data : Bytes ← request (.read segment start (stop - start))
  let entries ← ofExcept (hashRecords config start data)
  let hashes := (entries.map (·.2)).eraseDups
  let persisted : List (Option Nat) ← request (.getAttributes segment (hashes.map .bucket))
  let before ← rewindAll config segment start hashes persisted
  let (after, backpointers) := Links.chain before entries
  request (.updateAttributes segment (Links.backpointerUpdates backpointers ++
    Links.headUpdates after.toList ++ [.replaceIfGreater .indexOffset stop]))
  modify fun t =>
    { t with cache := hashes.foldl (fun cache hash => cache.erase ⟨segment, hash⟩) t.cache }

/-- Account for the present entries of a segment, of which there are none beyond the answer. -/
def recoverState (config : Config) (segment ref : Nat) : Program Tables Nat := do
  match (← look ref).recovered with
  | some length => return length
  | none =>
    let persisted := (← attributeOf segment .indexOffset).getD 0
    let length : Nat ← ask (.length segment)
    modify (·.raise ref persisted)
    if persisted < length then
      match config.mode with
      | .inline =>
        indexRange config segment persisted length
        modify (·.raise ref length)
      | .deferred => pure ()
    change ref ({ · with recovered := some length })
    return length

/-- One operation at a time accounts for the entries of a segment. -/
def recover (config : Config) (segment ref : Nat) : Program Tables Nat := do
  waitForever fun t => !(t.state ref).recovering
  change ref ({ · with recovering := true })
  (recoverState config segment ref).ensuring (change ref ({ · with recovering := false }))

def awaitWatermark (ref target : Nat) : Program Tables Unit := do
  waitUntil fun t => (t.state ref).watermark.settled target
  if (← look ref).watermark.closed then .fail .closed

/-- The state of a segment, which is sound to use once all entries from before the first access are
indexed. -/
def access (config : Config) (segment : Nat) : Program Tables Nat := do
  checkIndex
  let (t, ref) := (← read).track segment
  modify fun _ => t
  let target ← match (t.state ref).recovered with
    | some length => pure length
    | none => recover config segment ref
  awaitWatermark ref target
  return ref

end KeyedLog.Tables
