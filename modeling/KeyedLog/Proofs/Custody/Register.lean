import KeyedLog.Proofs.Segment.Memory
import KeyedLog.Proofs.Watermark.AdjacentBatches
import KeyedLog.Proofs.Write.Batch
import Mathlib.Data.List.Nodup

/-! Custody: every batch that was appended is with somebody, who sees to it that its links are
persisted, unless nobody knows of it. -/
namespace KeyedLog

/-- How far a batch has come since it was appended. -/
inductive Stage where
  /-- A thread is about to record its links. -/
  | fresh (i : Nat)
  /-- A thread is persisting its links. -/
  | held (i : Nat)
  /-- Its links are left to the next write. -/
  | pending
  | done
  /-- The append was reported as failed. -/
  | lost
deriving DecidableEq

namespace Stage

def Tailed : Stage → Prop
  | held _ | pending => True
  | _ => False

def Recorded : Stage → Prop
  | held _ | pending | done => True
  | _ => False

theorem Tailed.recorded {s : Stage} (h : s.Tailed) : s.Recorded := by
  cases s with
  | held | pending => trivial
  | fresh | done | lost => exact h.elim

end Stage

/-- All that was appended, and with whom it is. -/
structure Register where
  log : List Record
  /-- The batches that make up the log, in order. -/
  batches : List PendingLinks
  /-- The stage of the batch that begins at an offset. -/
  stage : Nat → Stage
  /-- Who holds the lock of a bucket. -/
  owner : KeyHash → Option Nat
  /-- Who accounts for the entries from before the first access. -/
  recoverer : Option Nat

namespace Register

def Empty (g : Register) (i : Nat) : Prop :=
  ∀ b ∈ g.batches, g.stage b.offset ≠ .fresh i ∧ g.stage b.offset ≠ .held i

/-- A thread is persisting the links of some batches, and has none that it has yet to record. -/
structure Carries (g : Register) (i : Nat) (bs : List PendingLinks) : Prop where
  held : ∀ {b}, b ∈ bs ↔ b ∈ g.batches ∧ g.stage b.offset = .held i
  fresh : ∀ {b}, b ∈ g.batches → g.stage b.offset ≠ .fresh i

structure Rests (g : Register) (i : Nat) : Prop where
  empty : g.Empty i
  owner : ∀ h, g.owner h ≠ some i
  recoverer : g.recoverer ≠ some i

def done (g : Register) (o : Nat) : Bool := decide (g.stage o = .done)

def lock (g : Register) (i : Nat) (hs : List KeyHash) : Register :=
  { g with owner := fun h => if h ∈ hs then some i else g.owner h }

def unlock (g : Register) (hs : List KeyHash) : Register :=
  { g with owner := fun h => if h ∈ hs then none else g.owner h }

def move (g : Register) (bs : List PendingLinks) (s : Stage) : Register :=
  { g with stage := fun o => if o ∈ bs.map (·.offset) then s else g.stage o }

def append (g : Register) (rs : List Record) (b : PendingLinks) (s : Stage) : Register :=
  { g with
    log := g.log ++ rs
    batches := g.batches ++ [b]
    stage := fun o => if o = b.offset then s else g.stage o }

section Append

variable {g : Register} {rs : List Record} {b c : PendingLinks} {s : Stage}

theorem mem_batches_append : c ∈ (g.append rs b s).batches ↔ c ∈ g.batches ∨ c = b := by
  simp [append]

theorem stage_append_self : (g.append rs b s).stage b.offset = s := if_pos rfl

theorem stage_append_of_ne (h : c.offset ≠ b.offset) :
    (g.append rs b s).stage c.offset = g.stage c.offset := if_neg h

end Append

section Move

variable {g : Register} {bs : List PendingLinks} {b : PendingLinks} {s t : Stage}
  (hrow : Row 0 g.batches) (hbs : bs ⊆ g.batches) (hb : b ∈ g.batches)
include hrow hbs hb

theorem stage_move :
    (b ∈ bs ∧ (g.move bs s).stage b.offset = s) ∨
      (b ∉ bs ∧ (g.move bs s).stage b.offset = g.stage b.offset) := by
  by_cases hmem : b ∈ bs
  · exact .inl ⟨hmem, if_pos (List.mem_map_of_mem hmem)⟩
  · refine .inr ⟨hmem, if_neg fun ho => ?_⟩
    obtain ⟨c, hc, hcb⟩ := List.mem_map.1 ho
    exact hmem (hrow.eq_of_offset (hbs hc) hb hcb ▸ hc)

theorem stage_move_iff (hto : s ≠ t) (hfrom : ∀ c ∈ bs, g.stage c.offset ≠ t) :
    (g.move bs s).stage b.offset = t ↔ g.stage b.offset = t := by
  rcases stage_move (s := s) hrow hbs hb with ⟨hmem, hs⟩ | ⟨-, hs⟩
  · rw [hs]
    exact iff_of_false hto (hfrom b hmem)
  · rw [hs]

end Move

theorem carries_nil {g : Register} {i : Nat} : g.Carries i [] ↔ g.Empty i := by
  constructor
  · intro h b hb
    refine ⟨h.fresh hb, fun hs => ?_⟩
    have := h.held.2 ⟨hb, hs⟩
    cases this
  · intro h
    refine ⟨fun {b} => ?_, fun hb => (h _ hb).1⟩
    constructor
    · intro hb
      cases hb
    · rintro ⟨hb, hs⟩
      exact absurd hs (h b hb).2

end Register

/-- The links of a batch are for the entries in its range and for no others, wherever they lead. -/
structure Spans (hasher : Hasher) (log : List Record) (b : PendingLinks) : Prop where
  start : Log.Boundary log b.offset
  entry : ∀ {x p}, (x, p) ∈ b.links.backpointers → b.offset ≤ x ∧ x < b.stop
  known : ∀ {x p}, (x, p) ∈ b.links.backpointers → ∃ h, Log.Entry hasher log x h
  unique : ∀ {x p q}, (x, p) ∈ b.links.backpointers → (x, q) ∈ b.links.backpointers → p = q
  head : ∀ {h y}, (h, y) ∈ b.links.heads →
    Log.Entry hasher log y h ∧ b.offset ≤ y ∧ y < b.stop ∧
      ∀ x, Log.Entry hasher log x h → b.offset ≤ x → x < b.stop → x ≤ y
  linked : ∀ {x h}, Log.Entry hasher log x h → b.offset ≤ x → x < b.stop →
    (∃ p, (x, p) ∈ b.links.backpointers) ∧ ∃ y, (h, y) ∈ b.links.heads

namespace Spans

variable {hasher : Hasher} {log log' : List Record} {b : PendingLinks} {h : KeyHash} {x y : Nat}

theorem grow (hb : Spans hasher log b) (hl : log <+: log') (hle : b.stop ≤ Log.size log) :
    Spans hasher log' b where
  start := hb.start.mono hl
  entry := hb.entry
  known hp := by
    obtain ⟨h, hx⟩ := hb.known hp
    exact ⟨h, hx.mono hl⟩
  unique := hb.unique
  head hy := by
    obtain ⟨he, hlo, hhi, hlast⟩ := hb.head hy
    exact ⟨he.mono hl, hlo, hhi, fun x hx hxlo hxhi =>
      hlast x (hx.of_lt hl (Nat.lt_of_lt_of_le hxhi hle)) hxlo hxhi⟩
  linked hx hlo hhi := hb.linked (hx.of_lt hl (Nat.lt_of_lt_of_le hhi hle)) hlo hhi

theorem head_unique (hb : Spans hasher log b) (hx : (h, x) ∈ b.links.heads)
    (hy : (h, y) ∈ b.links.heads) : x = y := by
  obtain ⟨hex, hxlo, hxhi, hxlast⟩ := hb.head hx
  obtain ⟨hey, hylo, hyhi, hylast⟩ := hb.head hy
  exact Nat.le_antisymm (hylast x hex hxlo hxhi) (hxlast y hey hylo hyhi)

/-- The links of an appended batch are for its own entries, whatever was taken for the heads. -/
theorem of_batch {batch : Batch} {rs : List Record} (hb : batch.Lists hasher rs) (current : Heads) :
    Spans hasher (log ++ rs) ⟨Links.ofBatch batch (Log.size log) current, Log.size log,
      batch.length⟩ := by
  have hpair := Log.hashed_pairwise hasher (Log.size log) rs
  have hmem {x : Nat} {h : KeyHash} : (x, h) ∈ Log.hashed hasher (Log.size log) rs ↔
      Log.Entry hasher (log ++ rs) x h ∧ Log.size log ≤ x ∧ x < Log.size log + batch.length := by
    rw [hb.length]
    exact Log.mem_hashed_range List.prefix_rfl
  have hoffsets {x : Nat} {p : Option Nat}
      (hp : (x, p) ∈ (Links.ofBatch batch (Log.size log) current).backpointers) :
      (x, p) ∈ (Links.chain current (Log.hashed hasher (Log.size log) rs)).2 := by
    simpa only [Links.ofBatch, hb.hashed] using hp
  have hhead {h : KeyHash} {y : Nat} :
      (h, y) ∈ (Links.ofBatch batch (Log.size log) current).heads ↔ h ∈ batch.hashes ∧
        (Links.chain current (Log.hashed hasher (Log.size log) rs)).1[h]? = some y := by
    simp only [Links.ofBatch, hb.hashed, List.mem_filterMap, Option.map_eq_some_iff]
    constructor
    · rintro ⟨h', hh, y', hy, heq⟩
      obtain ⟨rfl, rfl⟩ := Prod.mk.inj heq
      exact ⟨hh, hy⟩
    · rintro ⟨hh, hy⟩
      exact ⟨h, hh, y, hy, rfl⟩
  -- The head of a bucket of the batch is its last entry in the batch.
  have hlast {h : KeyHash} {x : Nat} (hx : (x, h) ∈ Log.hashed hasher (Log.size log) rs) :
      ∃ y, (Links.chain current (Log.hashed hasher (Log.size log) rs)).1[h]? = some y ∧
        LastBefore (Of (Log.hashed hasher (Log.size log) rs) h) (Log.size log + batch.length)
          (some y) := by
    obtain ⟨q, hq, hc⟩ := @Links.chain_heads current _ hpair _
      (fun e he => (hmem.1 (show (e.1, e.2) ∈ _ from he)).2.2) h
    obtain ⟨y, rfl, -⟩ := hq.2 x hx (hmem.1 hx).2.2
    exact ⟨y, hc, hq⟩
  refine
    { start := ⟨log, List.prefix_append .., rfl⟩
      entry := fun {x p} hp => ?_
      known := fun {x p} hp => ?_
      unique := fun {x p q} hp hq => ?_
      head := fun {h y} hy => ?_
      linked := fun {x h} hx hlo hhi => ?_ }
  · obtain ⟨h, q, hx, -, -⟩ := Links.chain_backpointers hpair (hoffsets hp)
    exact (hmem.1 hx).2
  · obtain ⟨h, q, hx, -, -⟩ := Links.chain_backpointers hpair (hoffsets hp)
    exact ⟨h, (hmem.1 hx).1⟩
  · have hkeys :
        ((Links.chain current (Log.hashed hasher (Log.size log) rs)).2.map (·.1)).Nodup := by
      rw [Links.chain_offsets]
      exact (List.pairwise_map.2 hpair).imp Nat.ne_of_lt
    exact (Prod.mk.inj (List.inj_on_of_nodup_map hkeys (hoffsets hp) (hoffsets hq) rfl)).2
  · obtain ⟨hh, hy⟩ := hhead.1 hy
    obtain ⟨x, hx⟩ := (hb.mem_hashes_iff (Log.size log)).1 hh
    obtain ⟨y', hy', hq⟩ := hlast hx
    obtain rfl := Option.some.inj (hy'.symm.trans hy)
    obtain ⟨he, hlo, hhi⟩ := hmem.1 hq.mem
    exact ⟨he, hlo, hhi, fun x hx hxlo hxhi => hq.le (hmem.2 ⟨hx, hxlo, hxhi⟩) hxhi⟩
  · have hx := hmem.2 ⟨hx, hlo, hhi⟩
    constructor
    · have hkey : x ∈ (Links.chain current (Log.hashed hasher (Log.size log) rs)).2.map (·.1) := by
        rw [Links.chain_offsets]
        exact List.mem_map.2 ⟨_, hx, rfl⟩
      obtain ⟨⟨y, p⟩, hp, rfl⟩ := List.mem_map.1 hkey
      exact ⟨p, by simpa only [Links.ofBatch, hb.hashed] using hp⟩
    · obtain ⟨y, hy, -⟩ := hlast hx
      exact ⟨y, hhead.2 ⟨(hb.mem_hashes_iff (Log.size log)).2 ⟨x, hx⟩, hy⟩⟩

end Spans

structure Links.Kept (l : Links) (a : Attributes) : Prop where
  backpointer : ∀ {x p}, (x, p) ∈ l.backpointers → a[AttributeId.backpointer x]? = p
  head : ∀ {h y}, (h, y) ∈ l.heads → a.Rooted y h

/-- What a segment is known by, in memory and in its attributes. -/
structure View where
  register : Register
  attributes : Attributes
  /-- Whether the index has seen the segment. -/
  tracked : Bool
  state : SegmentState
  held : KeyHash → Bool

/-- Memory and attributes agree with the register. -/
structure View.Balances (hasher : Hasher) (z : View) : Prop where
  wellformed : Log.Wellformed hasher z.register.log
  row : Row 0 z.register.batches
  size : Row.stop 0 z.register.batches = Log.size z.register.log
  spans : ∀ {b}, b ∈ z.register.batches → Spans hasher z.register.log b
  held : ∀ h, z.held h = (z.register.owner h).isSome
  recovering : z.state.recovering = z.register.recoverer.isSome
  unrecovered : z.state.recovered = none → z.register.batches = []
  recovered : ∀ {n}, z.state.recovered = some n → z.tracked = true ∧ n = 0
  /-- Whoever is about to record a batch has locked its buckets, which nobody has appended to
  since. -/
  fresh : ∀ {b i h y}, b ∈ z.register.batches → z.register.stage b.offset = .fresh i →
    (h, y) ∈ b.links.heads → z.register.owner h = some i ∧
      ∀ {c x}, c ∈ z.register.batches → (h, x) ∈ c.links.heads → c.offset ≤ b.offset
  pending : ∀ {b}, b ∈ z.state.pending ↔
    b ∈ z.register.batches ∧ z.register.stage b.offset = .pending
  nodup : z.state.pending.Nodup
  backpointer : ∀ {x p}, z.state.backpointers[x]? = some p ↔
    ∃ b ∈ z.register.batches, (z.register.stage b.offset).Tailed ∧ (x, p) ∈ b.links.backpointers
  head : ∀ {h : KeyHash} {y}, z.state.heads[h]? = some y ↔
    ∃ b ∈ z.register.batches, (z.register.stage b.offset).Tailed ∧ (h, y) ∈ b.links.heads ∧
      ∀ c ∈ z.register.batches, (z.register.stage c.offset).Recorded →
        ∀ x, (h, x) ∈ c.links.heads → x ≤ y
  watermark : z.state.watermark = Row.mark z.register.done 0 z.register.batches
  linked : ∀ {x q}, z.attributes[AttributeId.backpointer x]? = some q →
    ∃ b ∈ z.register.batches, (x, some q) ∈ b.links.backpointers
  kept : ∀ {b}, b ∈ z.register.batches → z.register.stage b.offset = .done →
    b.links.Kept z.attributes
  index : ∃ n, z.attributes[AttributeId.indexOffset]? = some n ∧
    n ≤ z.state.watermark.offset ∧ Log.Boundary z.register.log n

/-- What a thread sees of the others. What it holds stays with it, and nobody comes to hold a batch
but by appending one. -/
structure View.Leaves (i : Nat) (z z' : View) : Prop where
  log : z.register.log <+: z'.register.log
  batches : z.register.batches <+: z'.register.batches
  lost : ∀ {b}, b ∈ z.register.batches →
    (z'.register.stage b.offset = .lost ↔ z.register.stage b.offset = .lost)
  fresh : ∀ {b}, b ∈ z'.register.batches ∧ z'.register.stage b.offset = .fresh i ↔
    b ∈ z.register.batches ∧ z.register.stage b.offset = .fresh i
  held : ∀ {b}, b ∈ z'.register.batches ∧ z'.register.stage b.offset = .held i ↔
    b ∈ z.register.batches ∧ z.register.stage b.offset = .held i
  owner : ∀ h, z'.register.owner h = some i ↔ z.register.owner h = some i
  recoverer : z'.register.recoverer = some i ↔ z.register.recoverer = some i
  tracked : z.tracked = true → z'.tracked = true
  recovered : ∀ {n}, z.state.recovered = some n → z'.state.recovered = some n
  recovering : z.register.recoverer = some i → z.state.recovered = none → z'.state.recovered = none
  kept : ∀ {b}, b ∈ z.register.batches → b.links.Kept z.attributes → b.links.Kept z'.attributes
  watermark : z.state.watermark.offset ≤ z'.state.watermark.offset
  unmoved : z'.register.batches = z.register.batches → ∀ k, z.register.Empty k → z'.register.Empty k

structure View.Shifts (hasher : Hasher) (i : Nat) (z z' : View) : Prop where
  balances : z'.Balances hasher
  leaves : ∀ j, j ≠ i → z.Leaves j z'

end KeyedLog
