import KeyedLog.Table

/-! Connectors, by which an indexer outside keeps the index of a table. -/
namespace KeyedLog

/-- A connector knows its segment as it was when the connector was made. -/
structure Connector where
  info : SegmentInfo
  closed : Bool
deriving DecidableEq, Repr

namespace Connector

open Program Tables

/-- Segments that are no tables have no connector. -/
def ofTable? (name : String) : Program Tables (Option Connector) := do
  checkOpen
  let segment : Nat ← request (.resolve name)
  match ← attributeOf segment .indexOffset with
  | none => return none
  | some _ =>
    let length : Nat ← ask (.length segment)
    return some ⟨⟨segment, name, length⟩, false⟩

/-- All links below an offset were persisted, and the index offset as well. -/
def notify (c : Connector) (offset : Nat) (t : Tables) : Tables :=
  t.notify c.info.id (some offset)

/-- Detach the indexer. This drops what is known of the segment, once. -/
def close (c : Connector) (t : Tables) : Connector × Tables :=
  if c.closed then (c, t) else ({ c with closed := true }, t.notify c.info.id none)

end Connector
end KeyedLog
