import KeyedLog.Index.Update
import KeyedLog.Proofs.Program.Remainders

/-! Programs that are at work with the state of a segment. -/
namespace KeyedLog.Tables

open Program

variable {α β : Type} {config : Config} {segment : Nat} {p : Program Tables α}

/-- What is left of a write once the index has let it in. -/
def linking (config : Config) (segment : Nat) (batch : Batch) (commit : Program Tables Nat)
    (ref : Nat) : Program Tables Nat := do
  let current ← headsWith segment ref batch.hashes
  let offset ← commit
  let links := Links.ofBatch batch offset current
  Program.modify (record segment ref links)
  if config.mode = .inline then persist segment ref ⟨links, offset, batch.length⟩
  return offset

/-- What an update does while it holds its locks. It begins with the heads that the new entries are
linked to. -/
def guarded (config : Config) (segment : Nat) (batch : Batch) (commit : Program Tables Nat) :
    Program Tables Nat := do
  let ref ← access config segment
  linking config segment batch commit ref

def bucketsOf (segment : Nat) (batch : Batch) : List Bucket := batch.hashes.map (⟨segment, ·⟩)

/-- What a program that waits for locks does as soon as they are free. -/
def locked (bs : List Bucket) (p : Program Tables α) : Program Tables α := do
  modify fun t => { t with locks := t.locks.take bs }
  p.ensuring (modify fun t => { t with locks := t.locks.release bs })

theorem withLocks_eq (bs : List Bucket) (p : Program Tables α) :
    withLocks bs p = waitUntil (fun t => t.locks.free bs) >>= fun _ => locked bs p := rfl

theorem update_eq (config : Config) (segment : Nat) (batch : Batch) (commit : Program Tables Nat) :
    update config segment batch commit = checkIndex >>= fun _ =>
      withLocks (bucketsOf segment batch) (guarded config segment batch commit) := rfl

/-- The state of a segment as it is right after an access. -/
def consult (config : Config) (segment : Nat) : Program Tables SegmentState := do
  look (← access config segment)

/-- Amid an access to the state of a segment, before the heads that are asked for are known, or amid
an update that has locked its buckets. -/
inductive Engaged (config : Config) (segment : Nat) : Program Tables α → Prop
  | consult {p : Program Tables α} {f : SegmentState → Program Tables α}
      (h : p.Within (consult config segment) f) : Engaged config segment p
  | heads {p : Program Tables α} {hashes : List KeyHash} {f : Heads → Program Tables α}
      (h : p.Within (heads config segment hashes) f) : Engaged config segment p
  | locked {p : Program Tables α} {batch : Batch} {data : Bytes} {f : Nat → Program Tables α}
      (h : p.Within (locked (bucketsOf segment batch)
        (guarded config segment batch (request (.append segment data)))) f) :
      Engaged config segment p

theorem Engaged.bind (h : Engaged config segment p) (g : α → Program Tables β) :
    Engaged config segment (p.bind g) := by
  cases h with
  | consult h => exact .consult (h.bind g)
  | heads h => exact .heads (h.bind g)
  | locked h => exact .locked (h.bind g)

end KeyedLog.Tables
