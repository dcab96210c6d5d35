import KeyedLog.Indexer

/-! Scripts: steps on the tables of one container, with faults and steps slipped in at chosen
calls. -/
namespace KeyedLog.Scenario

structure Target where
  tables : String
  segment : String
  connector : String
  /-- A segment that is held, instead of the one that has the name by now. -/
  handle : Option String
  hasTime : Bool

/-- A hash, or the key to take it from. -/
inductive HashSource where
  | key (key : Bytes)
  | hash (h : KeyHash)

inductive CallKind where
  | resolve
  | create
  | delete
  | append
  | read
  | getAttributes
  | updateAttributes
deriving DecidableEq

def CallKind.of? : Call → Option CallKind
  | .resolve _ => some .resolve
  | .create .. => some .create
  | .delete _ => some .delete
  | .append .. => some .append
  | .read .. => some .read
  | .getAttributes .. => some .getAttributes
  | .updateAttributes .. => some .updateAttributes
  | .length _ => none

/-- Which calls are met, after some have been let pass. -/
structure Trigger where
  kind : CallKind
  skip : Nat
  times : Nat
  /-- Whether the call takes effect first. -/
  after : Bool
  /-- The error that the call then fails with. -/
  fault : Option TableError

/-- How an index update commits its batch. -/
inductive Commit where
  /-- Append if any time is left. -/
  | append
  /-- Append with no regard to time. -/
  | appendLate
  | refuse
  /-- Append, and report a failure all the same. -/
  | appendAndFail
  /-- Append nothing, and claim an offset. -/
  | claim (offset : Nat)

def injected : TableError := .io (.reported .other "injected")

/-- A record, with the hash and the length that its batch goes by, if they are made up. -/
structure UpdateItem where
  record : Record
  hash : Option KeyHash
  length : Option Nat

/-- Steps in which no other step takes part. -/
inductive Action where
  | openTables (config : Except ConfigError Config)
  | prepare
  | close
  | isClosed
  | create
  | delete (mustBeEmpty : Bool)
  | unsupported (operation : String)
  | put (entries : List TableEntry)
  | remove (keys : List TableKey)
  | get (keys : List Bytes)
  | getKeys (keys : List Bytes)
  | connect
  /-- Indexers connect with no regard to time. -/
  | connectIndexer
  | connectorInfo
  | connectorSegment
  | connectorHash (key : Bytes)
  | connectorLength (record : Record)
  | connectorNotify (offset : Nat)
  | connectorClose
  | index
  | heads (hashes : List HashSource)
  | backpointer (offset : Nat)
  | notify (id : Option Nat) (offset : Option Nat)
  | closeIndex
  | state (id : Option Nat)
  | cache (clear : Bool)
  | containerId
  | rawCreate (updates : List AttributeUpdate)
  | rawDelete
  | hold
  | info
  | append (data : Bytes) (updates : List AttributeUpdate)
  | read (offset length : Nat)
  | getAttributes (ids : List AttributeId)
  | setAttributes (updates : List AttributeUpdate)
  | attributes
  | attributeReads
  | data
  | clearTriggers

inductive Step where
  | act (target : Target) (action : Action)
  /-- Update an index, with steps before and after the commit. -/
  | update (target : Target) (kind : RecordKind) (items : List UpdateItem) (commit : Commit)
      (before after : List Step)
  /-- From now on, run steps at the calls that a trigger meets. -/
  | intercept (trigger : Trigger) (steps : List Step)
  /-- Take a step on a thread of its own, as far as it gets. -/
  | spawn (thread : String) (step : Step)
  /-- See a thread to its end. -/
  | join (thread : String)

mutual

/-- A bound on how deep steps can come to run inside each other. -/
def Step.weight : Step → Nat
  | .act .. => 1
  | .update _ _ _ _ before after => 1 + weightAll before + weightAll after
  | .intercept trigger steps => 1 + trigger.times * (1 + weightAll steps)
  | .spawn _ step => 1 + step.weight
  | .join _ => 1

def weightAll : List Step → Nat
  | [] => 0
  | s :: steps => s.weight + weightAll steps

end

inductive Value where
  | nothing
  | flag (b : Bool)
  | number (n : Nat)
  | number? (n : Option Nat)
  | numbers (ns : List Nat)
  | entries (es : List (Option TableEntry))
  | keys (ks : List (Option TableKey))
  | info (i : SegmentInfo)
  | noTable
  | hash (h : KeyHash)
  | heads (count : Nat) (hs : List (Option Nat))
  /-- Watermark, and heads and backpointers in the tail. -/
  | state (s : Option (Nat × Nat × Nat))
  | cache (size : Nat) (isEmpty : Bool)
  | bytes (b : Bytes)
  | attributes (as : List (AttributeId × Nat))

inductive Failure where
  | table (e : TableError)
  | config (e : ConfigError)

/-- How a program of an open table extension runs. -/
structure Session where
  tables : Nat
  hasTime : Bool
  /-- Whether the program stops at a condition that is not met, to be resumed later. If not, it
  never will be met. -/
  suspends : Bool
  /-- The steps that run at the pauses of the program. -/
  hooks : Nat → List Step

/-- The outcome of a step, and the reports of the steps that ran inside it. -/
inductive Report where
  | done (outcome : Except Failure Value) (nested : List Report)
  /-- What is left of a step that stopped. -/
  | waiting (session : Session) (program : Program Tables Value) (nested : List Report)
  /-- The report of a step that ran on a thread of its own. -/
  | joined (report : Report)

end KeyedLog.Scenario
