import KeyedLog.Config
import KeyedLog.Index.Locks
import KeyedLog.Index.SegmentState
import KeyedLog.Program

/-! What an open table extension keeps in memory. -/
namespace KeyedLog

structure Tables where
  closed : Bool
  /-- The index may be closed on its own. -/
  indexClosed : Bool
  cache : Cache
  locks : Locks
  /-- The state of each segment that has been accessed, by its place in `states`. -/
  tracked : Std.ExtTreeMap Nat Nat
  /-- A state outlives its tracking for operations that already hold it. -/
  states : Array SegmentState

namespace Tables

def initial (config : Config) : Tables :=
  ⟨false, false, .empty config.cacheCapacity, .empty, ∅, #[]⟩

def state (t : Tables) (ref : Nat) : SegmentState := t.states[ref]?.getD .initial

def modifyState (t : Tables) (ref : Nat) (f : SegmentState → SegmentState) : Tables :=
  { t with states := t.states.modify ref f }

def stateOf? (t : Tables) (segment : Nat) : Option SegmentState :=
  t.tracked[segment]?.map t.state

def track (t : Tables) (segment : Nat) : Tables × Nat :=
  match t.tracked[segment]? with
  | some ref => (t, ref)
  | none =>
    let ref := t.states.size
    ({ t with tracked := t.tracked.insert segment ref, states := t.states.push .initial }, ref)

def raise (t : Tables) (ref offset : Nat) : Tables :=
  t.modifyState ref fun s => { s with watermark := (s.watermark.raise offset).1 }

/-- An indexer persisted all links below an offset, or is done with the segment for good. -/
def notify (t : Tables) (segment : Nat) : Option Nat → Tables
  | some offset =>
    match t.tracked[segment]? with
    | some ref => (t.raise ref offset).modifyState ref (·.prune offset)
    | none => t
  | none => { t with tracked := t.tracked.erase segment }

/-- All states are dropped, and whoever waits for one of them is let go. -/
def closeIndex (t : Tables) : Tables :=
  if t.indexClosed then t
  else
    { t with
      indexClosed := true
      states := t.tracked.foldl
        (fun states _ ref => states.modify ref fun s => { s with watermark := s.watermark.close })
        t.states
      tracked := ∅
      cache := t.cache.clear }

def close (t : Tables) : Tables :=
  if t.closed then t else { t.closeIndex with closed := true }

/-- A cached head is lost, which may happen at any time. -/
def Evicts (t u : Tables) : Prop := ∃ b, u = { t with cache := t.cache.erase b }

def clearCache (t : Tables) : Tables := { t with cache := t.cache.clear }

end Tables
end KeyedLog
