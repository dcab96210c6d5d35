import KeyedLog.Connector
import KeyedLog.Proofs.Attribute.Links
import KeyedLog.Proofs.Program.Interference

/-! An index at work on one segment: what its memory and the attributes of the segment say about
the log, and what those who share them owe each other. -/
namespace KeyedLog

/-- Where an index works, and under which conditions. -/
structure Site where
  config : Config
  name : String
  segment : Nat
  /-- Where the state of the segment is kept, once there is one. -/
  place : Nat
  /-- How far the log reached when the index was opened. -/
  start : Nat
  /-- Entries of a bucket before this offset are out of reach. -/
  floor : KeyHash → Nat
  /-- Only one thread is active, and nothing fails. -/
  calm : Prop
  floor_le : ∀ h, floor h ≤ start
  ready : calm → config.mode = .deferred → start = 0

/-- What was written so far, and what of it has yet to be linked. -/
structure Ledger where
  log : List Record
  /-- The range that a thread has appended and has not linked yet. -/
  fresh : Nat → Option (Nat × Nat)

namespace Ledger

def Fresh (g : Ledger) (x : Nat) : Prop :=
  ∃ i s e, g.fresh i = some (s, e) ∧ s ≤ x ∧ x < e

/-- The links of what lies there were recorded, or it was there from the start. -/
def Settled (g : Ledger) (x : Nat) : Prop := x < Log.size g.log ∧ ¬g.Fresh x

end Ledger

/-- What a thread may know of a ledger from calls: how long the log is, and which ranges of it are
not linked yet. -/
structure Trail where
  length : Nat
  unlinked : Nat → Option (Nat × Nat)

def Ledger.trail (g : Ledger) : Trail := ⟨Log.size g.log, g.fresh⟩

namespace Trail

/-- An append that took effect leaves a range behind that is not linked yet. -/
def call (t : Trail) (i : Nat) : Call → Fate → Trail
  | .append _ data, .served =>
    ⟨t.length + data.length,
      fun j => if j = i then some (t.length, t.length + data.length) else t.unlinked j⟩
  | _, _ => t

/-- A thread that goes on after an append has linked what it appended. -/
def proceed (t : Trail) (i : Nat) : Trail :=
  { t with unlinked := fun j => if j = i then none else t.unlinked j }

end Trail

/-- A ledger, and who is busy with what. -/
structure Account extends Ledger where
  /-- Who holds the lock of a bucket. -/
  owner : KeyHash → Option Nat
  /-- Who accounts for the entries from before the first access. -/
  recoverer : Option Nat

namespace Account

structure Rests (g : Account) (i : Nat) : Prop where
  fresh : g.fresh i = none
  owner : ∀ h, g.owner h ≠ some i
  recoverer : g.recoverer ≠ some i

def lock (g : Account) (i : Nat) (hs : List KeyHash) : Account :=
  { g with owner := fun h => if h ∈ hs then some i else g.owner h }

def unlock (g : Account) (hs : List KeyHash) : Account :=
  { g with owner := fun h => if h ∈ hs then none else g.owner h }

def append (g : Account) (i : Nat) (rs : List Record) : Account :=
  { g with
    log := g.log ++ rs
    fresh := fun j =>
      if j = i then some (Log.size g.log, Log.size g.log + Log.size rs) else g.fresh j }

def link (g : Account) (i : Nat) : Account :=
  { g with fresh := fun j => if j = i then none else g.fresh j }

end Account

namespace Attributes

/-- Everything below the persisted index offset counts as indexed. -/
def Indexed (a : Attributes) (x : Nat) : Prop := ∃ n, a[AttributeId.indexOffset]? = some n ∧ x < n

/-- The persisted head of a bucket is an entry or a later one. -/
def Rooted (a : Attributes) (x : Nat) (h : KeyHash) : Prop :=
  ∃ y, a[AttributeId.bucket h]? = some y ∧ x ≤ y

/-- The entries of a bucket lie on both sides of the index offset and its persisted head leads past
it, but the oldest one there leads nowhere. -/
def Cut (a : Attributes) (T : Nat → Prop) (h : KeyHash) : Prop :=
  ∃ x f y, T x ∧ a.Indexed x ∧ T f ∧ ¬a.Indexed f ∧ (∀ z, T z → z < f → a.Indexed z) ∧
    a[AttributeId.bucket h]? = some y ∧ ¬a.Indexed y ∧ a[AttributeId.backpointer f]? = none

/-- Links stay, and heads and the index offset only move forward. -/
structure Advances (a b : Attributes) : Prop where
  backpointer : ∀ {x p}, a[AttributeId.backpointer x]? = some p →
    b[AttributeId.backpointer x]? = some p
  bucket : ∀ {h y}, h.Proper → a[AttributeId.bucket h]? = some y →
    ∃ z, b[AttributeId.bucket h]? = some z ∧ y ≤ z
  index : ∀ {n}, a[AttributeId.indexOffset]? = some n →
    ∃ m, b[AttributeId.indexOffset]? = some m ∧ n ≤ m

end Attributes

/-- The extension is open, and tracks no other segment. -/
structure Tables.Serves (t : Tables) (segment place : Nat) : Prop where
  opened : t.closed = false
  indexOpened : t.indexClosed = false
  tracked : (t.tracked[segment]? = none ∧ t.states.size = place) ∨
    (t.tracked[segment]? = some place ∧ t.states.size = place + 1)

namespace Site

variable (S : Site)

/-- The segment is there under its name, and holds the log. -/
structure Stores (c : Container) (log : List Record) : Prop where
  resolve : c.resolve S.name = .ok S.segment
  data : (c.segment S.segment).data = Record.encodeAll recordChecksum log

/-- There is an entry of a bucket within reach. -/
def Entry (log : List Record) (x : Nat) (h : KeyHash) : Prop :=
  Log.Entry S.config.hasher log x h ∧ S.floor h ≤ x

def Chained (log : List Record) (a : Attributes) (x : Nat) (h : KeyHash) : Prop :=
  LastBefore (S.Entry log · h) x a[AttributeId.backpointer x]?

/-- An entry is found by what is persisted alone. -/
def Persisted (log : List Record) (a : Attributes) (x : Nat) (h : KeyHash) : Prop :=
  S.Chained log a x h ∧ a.Rooted x h

/-- An entry from which the chain of its bucket can be followed. -/
def Linked (g : Ledger) (a : Attributes) (x : Nat) (h : KeyHash) : Prop :=
  S.Entry g.log x h ∧ (¬g.Fresh x ∨ a.Indexed x)

/-- A place to start from when an entry of a bucket is looked for. -/
def Newest (g : Ledger) (a : Attributes) (y : Nat) (h : KeyHash) : Prop :=
  S.Linked g a y h ∧ ∀ x, g.Settled x → S.Entry g.log x h → x ≤ y

structure Faithful (g : Ledger) (a : Attributes) : Prop where
  index : ∃ n, a[AttributeId.indexOffset]? = some n ∧ Log.Boundary g.log n ∧ ∀ h, S.floor h ≤ n
  indexed : ∀ {x h}, S.Entry g.log x h → a.Indexed x → S.Persisted g.log a x h
  backpointer_lt : ∀ {x p}, a[AttributeId.backpointer x]? = some p → x < Log.size g.log
  backpointer : ∀ {x p h}, a[AttributeId.backpointer x]? = some p → S.Entry g.log x h →
    LastBefore (S.Entry g.log · h) x (some p)
  bucket : ∀ {h y}, h.Proper → a[AttributeId.bucket h]? = some y → S.Linked g a y h
  deferred : S.config.mode = .deferred → ∀ {h y}, h.Proper →
    a[AttributeId.bucket h]? = some y → a.Indexed y

/-- The tail is true, and has every link that is not persisted. -/
structure TailHolds (g : Ledger) (a : Attributes) (heads : Heads)
    (backpointers : Std.ExtTreeMap Nat (Option Nat)) : Prop where
  backpointer : ∀ {x p}, backpointers[x]? = some p →
    ∃ h, S.Entry g.log x h ∧ LastBefore (S.Entry g.log · h) x p
  chained : ∀ {x h}, g.Settled x → S.start ≤ x → S.Entry g.log x h → backpointers[x]? = none →
    S.Chained g.log a x h
  head : ∀ {h y}, heads[h]? = some y → S.Newest g a y h
  rooted : ∀ {x h}, g.Settled x → S.start ≤ x → S.Entry g.log x h → heads[h]? = none →
    a.Rooted x h

/-- Whatever the watermark covers is persisted. -/
structure Marked (log : List Record) (a : Attributes) (w : Watermark) : Prop where
  opened : w.closed = false
  boundary : Log.Boundary log w.offset
  below : ∀ {x h}, S.Entry log x h → x < w.offset → S.Persisted log a x h
  ranges : ∀ {r}, r ∈ w.completed → Log.Boundary log r.2 ∧
    ∀ {x h}, S.Entry log x h → r.1 ≤ x → x < r.2 → S.Persisted log a x h

structure LinksHold (g : Ledger) (b : PendingLinks) : Prop where
  boundary : Log.Boundary g.log (b.offset + b.length)
  head : ∀ {h y}, (h, y) ∈ b.links.heads → S.Entry g.log y h ∧ ¬g.Fresh y
  backpointer : ∀ {x p}, (x, p) ∈ b.links.backpointers →
    ∃ h, S.Entry g.log x h ∧ LastBefore (S.Entry g.log · h) x p
  covered : ∀ {x h}, S.Entry g.log x h → b.offset ≤ x → x < b.offset + b.length →
    (∃ p, (x, p) ∈ b.links.backpointers) ∧ ∃ y, (h, y) ∈ b.links.heads ∧ x ≤ y

/-- Every bucket can be followed past the index offset. -/
def Uncut (log : List Record) (a : Attributes) : Prop := ∀ h, ¬a.Cut (S.Entry log · h) h

/-- What there is to see of the segment and of what is known about it. -/
structure Scene where
  ghost : Account
  attributes : Attributes
  /-- Whether the index has seen the segment. -/
  tracked : Bool
  state : SegmentState
  cache : KeyHash → Option Nat
  held : KeyHash → Bool

def Scene.head (z : Scene) (h : KeyHash) : Option Nat :=
  z.state.heads[h]?.or z.attributes[AttributeId.bucket h]?

def Scene.updated (z : Scene) (us : List AttributeUpdate) : Scene :=
  { z with attributes := z.attributes.updateAll us }

/-- All that is remembered or persisted agrees with the log. -/
structure Coherent (z : Scene) : Prop where
  wellformed : Log.Wellformed S.config.hasher z.ghost.log
  start : Log.Boundary z.ghost.log S.start
  fresh_start : ∀ {i s e}, z.ghost.fresh i = some (s, e) → S.start ≤ s
  fresh_le : ∀ {i s e}, z.ghost.fresh i = some (s, e) → e ≤ Log.size z.ghost.log
  fresh_owned : ∀ {i s e x h}, z.ghost.fresh i = some (s, e) → S.Entry z.ghost.log x h → s ≤ x →
    x < e → z.ghost.owner h = some i
  fresh_last : ∀ {i s e x y h}, z.ghost.fresh i = some (s, e) → S.Entry z.ghost.log x h →
    S.Entry z.ghost.log y h → s ≤ x → x < e → x ≤ y → y < e
  held : ∀ h, z.held h = (z.ghost.owner h).isSome
  recovering : z.state.recovering = z.ghost.recoverer.isSome
  unrecovered : z.state.recovered = none → Log.size z.ghost.log = S.start ∧
    (S.config.mode = .inline → S.Uncut z.ghost.log z.attributes)
  recovered : ∀ {n}, z.state.recovered = some n → z.tracked = true ∧ n = S.start ∧
    (S.config.mode = .inline → S.start ≤ z.state.watermark.offset)
  calm : S.calm → ∀ i, i ≠ 0 → z.ghost.Rests i
  faithful : S.Faithful z.ghost.toLedger z.attributes
  tail : S.TailHolds z.ghost.toLedger z.attributes z.state.heads z.state.backpointers
  cache : ∀ {h y}, h.Proper → z.cache h = some y → S.Newest z.ghost.toLedger z.attributes y h
  marked : S.Marked z.ghost.log z.attributes z.state.watermark
  pending : ∀ {b}, b ∈ z.state.pending → S.LinksHold z.ghost.toLedger b

/-- What was written, linked or persisted remains, even if the state of the segment does not. -/
structure Endures (z z' : Scene) : Prop where
  log : z.ghost.log <+: z'.ghost.log
  settled : ∀ {x}, z.ghost.Settled x → z'.ghost.Settled x
  attributes : z.attributes.Advances z'.attributes

structure Grows (z z' : Scene) : Prop extends Endures z z' where
  head : ∀ {h : KeyHash} {y}, h.Proper → z.head h = some y → ∃ x, z'.head h = some x ∧ y ≤ x
  generation : z.state.generation ≤ z'.state.generation
  unmoved : ∀ {x}, z'.state.generation = z.state.generation → z'.ghost.Settled x →
    z.ghost.Settled x
  tracked : z.tracked = true → z'.tracked = true
  recovered : ∀ {n}, z.state.recovered = some n → z'.state.recovered = some n
  watermark : z.state.watermark.offset ≤ z'.state.watermark.offset

structure Minds (i : Nat) (z z' : Scene) : Prop extends Grows z z' where
  fresh : z'.ghost.fresh i = z.ghost.fresh i
  owner : ∀ h, z'.ghost.owner h = some i ↔ z.ghost.owner h = some i
  recoverer : z'.ghost.recoverer = some i ↔ z.ghost.recoverer = some i
  mine : ∀ {h x}, z.ghost.owner h = some i → S.Entry z'.ghost.log x h → S.Entry z.ghost.log x h
  alone : S.calm → i = 0 → z'.ghost.log = z.ghost.log

/-- What a thread sees of the others. Who accounts for old entries, or indexes from outside, is the
only one to write attributes. -/
structure Sees (i : Nat) (z z' : Scene) : Prop extends S.Minds i z z' where
  recovering : z.ghost.recoverer = some i → z.state.recovered = none →
    z'.state.recovered = none ∧ (S.config.mode = .inline → z'.attributes = z.attributes)
  indexing : S.config.mode = .deferred → i = 0 → z'.attributes = z.attributes

def scene (w : World Tables Account) : Scene where
  ghost := w.ghost
  attributes := (w.container.segment S.segment).attributes
  tracked := w.state.tracked[S.segment]?.isSome
  state := w.state.state S.place
  cache h := w.state.cache.get? ⟨S.segment, h⟩
  held h := w.state.locks.held.contains ⟨S.segment, h⟩

structure Inv (w : World Tables Account) : Prop where
  stores : S.Stores w.container w.ghost.log
  serves : w.state.Serves S.segment S.place
  coherent : S.Coherent (S.scene w)

/-- A failing append has no effect. Other calls may fail either way. -/
def fates (q : Call) : Fate → Prop
  | .served => True
  | .refused _ => ¬S.calm
  | .lost _ => ¬S.calm ∧ ∀ segment data, q ≠ .append segment data

def rules : Rules Tables Account where
  fates := S.fates
  lapses := ¬S.calm
  inv := S.Inv
  rely i w v := S.Sees i (S.scene w) (S.scene v)
  guar i act w v := (∀ j, j ≠ i → S.Sees j (S.scene w) (S.scene v)) ∧
    ∀ q fate, act = some (q, fate) → v.ghost.trail = w.ghost.trail.call i q fate
  tidy i w := w.ghost.fresh i = none
  rest i w := w.ghost.Rests i

end Site
end KeyedLog
