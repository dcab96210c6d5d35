import KeyedLog.Index.Access

/-! Where a bucket begins and how it goes on: the tail first, then the cache, then attributes. -/
namespace KeyedLog.Tables

open Program

/-- The head of a bucket, as far as memory knows. -/
def knownHead (t : Tables) (segment ref : Nat) (hash : KeyHash) : Option Nat :=
  match (t.state ref).heads[hash]? with
  | some head => some head
  | none => t.cache.get? ⟨segment, hash⟩

/-- A persisted head may be cached unless heads have moved since it was asked for. In that case the
tail is newer. -/
def settleHead (t : Tables) (segment ref generation : Nat) (hash : KeyHash)
    (persisted : Option Nat) : Tables × Option Nat :=
  let s := t.state ref
  if s.generation = generation then
    match persisted with
    | some head => ({ t with cache := t.cache.insert ⟨segment, hash⟩ head }, some head)
    | none => (t, none)
  else (t, match s.heads[hash]? with | some head => some head | none => persisted)

def settleHeads (segment ref generation : Nat) (t : Tables) (heads : Heads)
    (persisted : List (KeyHash × Option Nat)) : Tables × Heads :=
  persisted.foldl (fun (t, heads) (hash, value) =>
    match settleHead t segment ref generation hash value with
    | (t, some head) => (t, heads.insert hash head)
    | (t, none) => (t, heads)) (t, heads)

/-- The heads of buckets, with every write so far that went through the state. -/
def headsWith (segment ref : Nat) (hashes : List KeyHash) : Program Tables Heads := do
  let t ← read
  let known := hashes.foldl (fun heads hash =>
    match t.knownHead segment ref hash with
    | some head => heads.insert hash head
    | none => heads) (∅ : Heads)
  let missing := hashes.filter fun hash => (t.knownHead segment ref hash).isNone
  if missing.isEmpty then return known
  else
    let values : List (Option Nat) ← request (.getAttributes segment (missing.map .bucket))
    let (t, heads) := settleHeads segment ref (t.state ref).generation (← read) known
      (missing.zip values)
    modify fun _ => t
    return heads

def heads (config : Config) (segment : Nat) (hashes : List KeyHash) : Program Tables Heads := do
  let ref ← access config segment
  headsWith segment ref hashes

/-- The offset of the entry before the one at an offset, in its bucket. -/
def backpointer (config : Config) (segment offset : Nat) : Program Tables (Option Nat) := do
  let ref ← access config segment
  match (← look ref).backpointers[offset]? with
  | some previous => return previous
  | none => attributeOf segment (.backpointer offset)

end KeyedLog.Tables
