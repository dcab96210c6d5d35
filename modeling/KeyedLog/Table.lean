import KeyedLog.Index.Update
import KeyedLog.Walk

/-! Tables: key-value maps, each in a segment of its own. -/
namespace KeyedLog.Tables

open Program

def checkOpen : Program Tables Unit := do
  if (← read).closed then .fail .closed

/-- Operations that no table supports fail, but only while the tables are open. -/
def unsupported (operation : String) : Program Tables Unit := do
  checkOpen
  .fail (.unsupported operation)

def prepare : Program Tables Unit := checkOpen

def create (name : String) : Program Tables Unit := do
  checkOpen
  ask (.create name initialAttributes)

/-- Delete a table with all of its entries. Nobody can ask that it be empty. -/
def delete (name : String) (mustBeEmpty : Bool) : Program Tables Unit := do
  if mustBeEmpty then .fail (.unsupported "delete_segment(must_be_empty)")
  else
    checkOpen
    let segment : Nat ← request (.resolve name)
    request (.delete name)
    modify (·.notify segment none)

/-- Append records and link them. The answer is the version of each. -/
def write (config : Config) (name : String) (kind : RecordKind) (records : List Record) :
    Program Tables (List Nat) := do
  checkOpen
  let segment : Nat ← request (.resolve name)
  if records.isEmpty then return []
  else
    let batch ← ofExcept (Batch.ofRecords config.hasher config.maxBatchLength kind records)
    let offset ← update config segment batch
      (request (.append segment (Record.encodeAll recordChecksum records)))
    return batch.items.map (offset + ·.offset)

/-- Insert or overwrite entries. Of several for one key the last one counts. -/
def put (config : Config) (name : String) (entries : List TableEntry) :
    Program Tables (List Nat) :=
  write config name .value (entries.map fun e => .update e.key.key e.value)

/-- Remove keys, whether they exist or not. -/
def remove (config : Config) (name : String) (keys : List TableKey) : Program Tables Unit := do
  let _ ← write config name .tombstone (keys.map fun k => .removal k.key)

def lookup (config : Config) (mode : ReadMode) (name : String) (keys : List Bytes) :
    Program Tables (List (Option Found)) := do
  checkOpen
  if keys.isEmpty then return []
  else
    let hashes ← ofExcept (keys.mapM config.hasher.hash)
    let segment : Nat ← request (.resolve name)
    let heads ← heads config segment hashes.eraseDups
    (keys.zip hashes).mapM fun (key, hash) =>
      match heads[hash]? with
      | some head =>
        Walk.find mode segment (backpointer config segment) config.maxChainLength key head
      | none => return none

/-- The newest entry of each key, if it was not removed. -/
def get (config : Config) (name : String) (keys : List Bytes) :
    Program Tables (List (Option TableEntry)) := do
  let found ← lookup config .entry name keys
  return found.map (·.map fun f => ⟨⟨f.key, some f.version⟩, f.value.getD []⟩)

def getKeys (config : Config) (name : String) (keys : List Bytes) :
    Program Tables (List (Option TableKey)) := do
  let found ← lookup config .key name keys
  return found.map (·.map fun f => ⟨f.key, some f.version⟩)

end KeyedLog.Tables
