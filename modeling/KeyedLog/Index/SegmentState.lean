import KeyedLog.Index.Cache
import KeyedLog.Index.Links
import KeyedLog.Index.Watermark

/-! What an index remembers of one segment. -/
namespace KeyedLog

/-- Links that are not persisted yet, called the tail, and how far the persisted ones reach. -/
structure SegmentState where
  watermark : Watermark
  /-- Heads of buckets whose newest entry is in the tail. -/
  heads : Heads
  /-- Changes whenever a head may have moved. -/
  generation : Nat
  /-- Predecessors of the entries in the tail. -/
  backpointers : Std.ExtTreeMap Nat (Option Nat)
  /-- Links that could not be persisted so far. -/
  pending : List PendingLinks
  /-- The segment length at first access, once its entries were accounted for. -/
  recovered : Option Nat
  /-- Whether somebody is accounting for them now. -/
  recovering : Bool

namespace SegmentState

def initial : SegmentState := ⟨.initial, ∅, 0, ∅, [], none, false⟩

/-- The number of heads and of backpointers in the tail. -/
def tailSize (s : SegmentState) : Nat × Nat := (s.heads.size, s.backpointers.size)

/-- New links enter the tail, and the heads that they move leave the cache. -/
def record (s : SegmentState) (cache : Cache) (segment : Nat) (l : Links) :
    SegmentState × Cache :=
  ({ s with
      heads := l.heads.foldl (fun m (hash, head) => m.insert hash head) s.heads
      backpointers := l.backpointers.foldl (fun m (entry, previous) => m.insert entry previous)
        s.backpointers
      generation := s.generation + 1 },
    l.heads.foldl (fun c (hash, _) => c.erase ⟨segment, hash⟩) cache)

/-- Heads that are still the newest move from the tail to the cache. -/
def retireHeads (heads : Heads) (cache : Cache) (segment : Nat) (l : List (KeyHash × Nat)) :
    Heads × Cache :=
  l.foldl (fun (heads, cache) (hash, head) =>
    if heads[hash]? = some head then (heads.erase hash, cache.insert ⟨segment, hash⟩ head)
    else (heads, cache)) (heads, cache)

def retire (s : SegmentState) (cache : Cache) (segment : Nat) (l : Links) :
    SegmentState × Cache :=
  let (heads, cache) := retireHeads s.heads cache segment l.heads
  let backpointers := l.backpointers.foldl (fun m (entry, _) => m.erase entry) s.backpointers
  ({ s with heads, backpointers }, cache)

def prune (s : SegmentState) (offset : Nat) : SegmentState :=
  { s with
    heads := s.heads.filter fun _ head => offset ≤ head
    backpointers := s.backpointers.filter fun entry _ => offset ≤ entry
    generation := s.generation + 1 }

end SegmentState
end KeyedLog
