import KeyedLog.Attribute

/-! Containers: named segments, each an append-only byte string with attributes, kept in memory. -/
namespace KeyedLog

/-- A deleted segment stays where it is, for those who still refer to it. -/
structure Segment where
  name : String
  data : Bytes
  attributes : Attributes
  deleted : Bool
  /-- How many attribute lookups were served. -/
  attributeReads : Nat

structure SegmentInfo where
  id : Nat
  name : String
  length : Nat
deriving DecidableEq, Repr

/-- Segment ids are positions in the order of creation. -/
structure Container where
  id : Nat
  segments : Array Segment

inductive Call where
  | resolve (name : String)
  | create (name : String) (attributes : List AttributeUpdate)
  | delete (name : String)
  | append (segment : Nat) (data : Bytes)
  | read (segment offset length : Nat)
  | getAttributes (segment : Nat) (ids : List AttributeId)
  | updateAttributes (segment : Nat) (updates : List AttributeUpdate)
  | length (segment : Nat)
deriving DecidableEq, Repr

/-- The answers to a call: a segment id, nothing, an offset, bytes, a value for each id, a length.
-/
def Call.Answer : Call → Type
  | .resolve _ | .append .. | .length _ => Nat
  | .create .. | .delete _ | .updateAttributes .. => Unit
  | .read .. => Bytes
  | .getAttributes .. => List (Option Nat)

namespace Segment

def ofAttributes (name : String) (updates : List AttributeUpdate) : Segment :=
  ⟨name, [], Attributes.updateAll ∅ updates, false, 0⟩

/-- Exactly the bytes asked for, or none. -/
def read (s : Segment) (offset length : Nat) : Except TableError Bytes :=
  if offset + length ≤ s.data.length then .ok (s.data.slice offset (offset + length))
  else .error (.io (.outOfBounds length offset s.data.length))

def append (s : Segment) (data : Bytes) (updates : List AttributeUpdate) : Segment :=
  { s with data := s.data ++ data, attributes := s.attributes.updateAll updates }

end Segment

namespace Container

def empty (id : Nat) : Container := ⟨id, #[]⟩

def Live (name : String) (s : Segment) : Bool := s.name == name && !s.deleted

/-- At most one segment of a name is not deleted. -/
def resolve (c : Container) (name : String) : Except TableError Nat :=
  match c.segments.findIdx? (Live name) with
  | some id => .ok id
  | none => .error (.segmentNotFound name)

def segment (c : Container) (id : Nat) : Segment :=
  c.segments[id]?.getD (.ofAttributes "" [])

def info (c : Container) (id : Nat) : SegmentInfo :=
  ⟨id, (c.segment id).name, (c.segment id).data.length⟩

def modify (c : Container) (id : Nat) (f : Segment → Segment) : Container :=
  { c with segments := c.segments.modify id f }

def existing (c : Container) (id : Nat) : Except TableError Segment :=
  let s := c.segment id
  if s.deleted then .error (.segmentNotFound s.name) else .ok s

def create (c : Container) (name : String) (updates : List AttributeUpdate) :
    Except TableError Container :=
  match c.resolve name with
  | .ok _ => .error (.segmentExists name)
  | .error _ => .ok { c with segments := c.segments.push (.ofAttributes name updates) }

def delete (c : Container) (name : String) : Except TableError Container :=
  (c.resolve name).map fun id => c.modify id ({ · with deleted := true })

/-- Attribute updates are applied together with the append. -/
def append (c : Container) (id : Nat) (data : Bytes) (updates : List AttributeUpdate) :
    Except TableError (Container × Nat) :=
  (c.existing id).map fun s => (c.modify id (·.append data updates), s.data.length)

def getAttributes (c : Container) (id : Nat) (ids : List AttributeId) :
    Except TableError (Container × List (Option Nat)) :=
  (c.existing id).map fun s =>
    (c.modify id fun s => { s with attributeReads := s.attributeReads + 1 },
      ids.map fun a => s.attributes[a]?)

def updateAttributes (c : Container) (id : Nat) (updates : List AttributeUpdate) :
    Except TableError Container :=
  (c.existing id).map fun _ =>
    c.modify id fun s => { s with attributes := s.attributes.updateAll updates }

/-- An answer that leaves the container as it is on failure. -/
def settle {α : Type} (c : Container) : Except TableError (Container × α) →
    Container × Except TableError α
  | .ok (c, a) => (c, .ok a)
  | .error e => (c, .error e)

def perform (c : Container) : (q : Call) → Container × Except TableError q.Answer
  | .resolve name => (c, c.resolve name)
  | .create name updates => c.settle ((c.create name updates).map (·, ()))
  | .delete name => c.settle ((c.delete name).map (·, ()))
  | .append id data => c.settle (c.append id data [])
  | .read id offset length => (c, (c.existing id).bind (·.read offset length))
  | .getAttributes id ids => c.settle (c.getAttributes id ids)
  | .updateAttributes id updates => c.settle ((c.updateAttributes id updates).map (·, ()))
  | .length id => (c, .ok (c.segment id).data.length)

end Container
end KeyedLog
