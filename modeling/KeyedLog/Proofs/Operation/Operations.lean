import KeyedLog.Proofs.Operation.Indexer
import KeyedLog.Proofs.Operation.Lookup
import KeyedLog.Proofs.Write.Update

/-! What is asked of a table, and what each operation owes to the others that are in flight. -/
namespace KeyedLog

/-- What a record says about its key, whose version is where the record is. -/
def Record.entryAt (x : Nat) (r : Record) : Option TableEntry :=
  r.value?.map fun v => ⟨⟨r.key, some x⟩, v⟩

def Record.keyAt (x : Nat) (r : Record) : Option TableKey :=
  r.value?.map fun _ => ⟨r.key, some x⟩

/-- Operations on a table, and runs of an indexer that has a connector to it. -/
inductive Operation where
  | put (entries : List TableEntry)
  | remove (keys : List TableKey)
  | get (keys : List Bytes)
  | getKeys (keys : List Bytes)
  | index (connector : Connector) (limit : Option Nat)

inductive Reply where
  | versions (vs : List Nat)
  | removed
  | entries (es : List (Option TableEntry))
  | keys (ks : List (Option TableKey))
  | indexed
deriving DecidableEq, Repr

namespace Operation

def program (config : Config) (name : String) : Operation → Program Tables Reply
  | .put entries => .versions <$> Tables.put config name entries
  | .remove keys => (fun _ => .removed) <$> Tables.remove config name keys
  | .get keys => .entries <$> Tables.get config name keys
  | .getKeys keys => .keys <$> Tables.getKeys config name keys
  | .index connector limit => (fun _ => .indexed) <$> Indexer.runWithin config connector limit

/-- There is at most one indexer, the thread with number 0, and none if writes index themselves. -/
def Fits (config : Config) (name : String) (segment i : Nat) : Operation → Prop
  | .index connector _ => config.mode = .deferred ∧ i = 0 ∧ connector.info.name = name ∧
      connector.info.id = segment
  | _ => True

def records : Operation → List Record
  | .put entries => entries.map fun e => .update e.key.key e.value
  | .remove keys => keys.map fun k => .removal k.key
  | _ => []

end Operation

namespace Site

open Program

variable {S : Site} {i : Nat} {z : Scene} {w v u : World Tables Account} {log : List Record}
  {key : Bytes} {h : KeyHash} {β : Type}

/-- What is read of a key is what some record says, one at least as new as all that was settled. -/
def Reads (S : Site) (z : Scene) (log : List Record) (view : Nat → Record → Option β) (key : Bytes)
    (e : Option β) : Prop :=
  ∃ h, S.config.hasher.hash key = .ok h ∧
    ((∃ x r, (x, r) ∈ Log.placed 0 log ∧ r.key = key ∧ S.floor h ≤ x ∧ e = view x r ∧
      ∀ y, z.ghost.Settled y → S.About z.ghost.log key h y → y ≤ x) ∨
    (e = none ∧ ∀ y, z.ghost.Settled y → ¬S.About z.ghost.log key h y))

theorem Answers.reads {mode : ReadMode} {o : Option Found} {view : Nat → Record → Option β}
    {f : Found → β} (ha : S.Answers z log mode key o)
    (hf : ∀ x r, r.key = key → view x r = (r.value?.map fun v =>
      (⟨key, match mode with | .key => none | .entry => some v, x⟩ : Found)).map f) :
    S.Reads z log view key (o.map f) := by
  obtain ⟨h, q, hh, hq, hold, ht⟩ := ha
  refine ⟨h, hh, ?_⟩
  cases q with
  | none =>
    refine .inr ⟨by rw [show o = none from ht]; rfl, fun y hy ha => ?_⟩
    obtain ⟨x, hx, -⟩ := hold y hy ha
    cases hx
  | some x =>
    obtain ⟨r, hr, hk, ho⟩ := ht
    refine .inl ⟨x, r, hr, hk, (hq x rfl).1.2, ho ▸ (hf x r hk).symm, fun y hy ha => ?_⟩
    obtain ⟨x', hx, hle⟩ := hold y hy ha
    exact Option.some.inj hx ▸ hle

def LookupFails (S : Site) (keys : List Bytes) (e : TableError) (log : List Record) : Prop :=
  ¬S.Bounded log ∨ keys.mapM S.config.hasher.hash = .error e

theorem abides_get (hw : S.Inv w) (hrest : w.ghost.Rests i) (hi : S.calm → i = 0)
    (keys : List Bytes) :
    (Tables.get S.config S.name keys).Abides succession i
      (fun es T v => Reading i S w T v ∧
        List.Forall₂ (S.Reads (S.scene w) v.ghost.log Record.entryAt) keys es)
      (fun e T v => Reading i S w T v ∧ (S.calm → S.LookupFails keys e v.ghost.log)) S w := by
  unfold Tables.get
  refine Abides.bind ((abides_lookup hw hrest hi).mono ?_ fun _ _ _ h => h)
  rintro os T v ⟨hv, ha⟩
  refine ⟨hv, List.forall₂_map_right_iff.2 (ha.imp fun key o ho => ho.reads fun x r hk => ?_)⟩
  rw [← hk, Record.entryAt, Option.map_map]
  rfl

theorem abides_getKeys (hw : S.Inv w) (hrest : w.ghost.Rests i) (hi : S.calm → i = 0)
    (keys : List Bytes) :
    (Tables.getKeys S.config S.name keys).Abides succession i
      (fun ks T v => Reading i S w T v ∧
        List.Forall₂ (S.Reads (S.scene w) v.ghost.log Record.keyAt) keys ks)
      (fun e T v => Reading i S w T v ∧ (S.calm → S.LookupFails keys e v.ghost.log)) S w := by
  unfold Tables.getKeys
  refine Abides.bind ((abides_lookup hw hrest hi).mono ?_ fun _ _ _ h => h)
  rintro os T v ⟨hv, ha⟩
  refine ⟨hv, List.forall₂_map_right_iff.2 (ha.imp fun key o ho => ho.reads fun x r hk => ?_)⟩
  rw [← hk, Record.keyAt, Option.map_map]
  rfl

/-- What an operation was to append is in the log and linked. -/
def Appended (S : Site) (op : Operation) (r : Reply) (g : Ledger) : Prop :=
  ∃ n, (∀ vs, r = .versions vs → vs = (Log.placed n op.records).map (·.1)) ∧
    ∀ e ∈ Log.placed n op.records, e ∈ Log.placed 0 g.log ∧ S.start ≤ e.1 ∧ g.Settled e.1

theorem Wrote.placed {n : Nat} {rs : List Record} {g : Ledger} (h : S.Wrote log rs n g) :
    ∀ e ∈ Log.placed n rs, e ∈ Log.placed 0 g.log ∧ S.start ≤ e.1 ∧ g.Settled e.1 := by
  intro e he
  obtain ⟨a, -, rfl, hl, -⟩ := h.log
  exact ⟨Log.mem_placed_of_prefix hl (Log.mem_placed_append.2 (.inr he)),
    Nat.le_trans h.start (Log.placed_bounds (r := e.2) he).1, h.settled e he⟩

theorem appended_nothing {op : Operation} {r : Reply} {g : Ledger} (hop : op.records = [])
    (hr : ∀ vs, r ≠ .versions vs) : S.Appended op r g :=
  ⟨0, fun vs hvs => absurd hvs (hr vs), fun e he => by simp [hop] at he⟩

/-- Every operation leaves everything in order, and nothing of its own behind. What it was to append
is linked when it is over. -/
theorem abides_operation (hw : S.Inv w) (hrest : w.ghost.Rests i) (hi : S.calm → i = 0)
    {op : Operation} (hop : op.Fits S.config S.name S.segment i) :
    (op.program S.config S.name).Abides succession i
      (fun r _ v => v.ghost.Rests i ∧ S.Appended op r v.ghost.toLedger)
      (fun _ _ v => v.ghost.Rests i) S w := by
  unfold Operation.program
  cases op with
  | put entries =>
    refine Abides.map ((abides_write hw hrest hi .value).mono ?_ fun _ _ v h => h.2.1)
    rintro vs T v ⟨-, hv, ⟨n, hwrote, rfl⟩, -⟩
    exact ⟨hv, n, fun vs hvs => (Reply.versions.inj hvs).symm, hwrote.placed⟩
  | remove keys =>
    refine Abides.map (Abides.bind ?_)
    refine (abides_write hw hrest hi .tombstone).mono ?_ fun _ _ v h => h.2.1
    rintro vs T v ⟨-, hv, ⟨n, hwrote, rfl⟩, -⟩
    exact ⟨hv, n, fun vs hvs => (by cases hvs), hwrote.placed⟩
  | get keys =>
    refine Abides.map ((abides_get hw hrest hi keys).mono ?_ fun _ _ _ h => h.1.rests)
    exact fun _ _ _ h => ⟨h.1.rests, appended_nothing rfl (by simp)⟩
  | getKeys keys =>
    refine Abides.map ((abides_getKeys hw hrest hi keys).mono ?_ fun _ _ _ h => h.1.rests)
    exact fun _ _ _ h => ⟨h.1.rests, appended_nothing rfl (by simp)⟩
  | index connector limit =>
    obtain ⟨hm, rfl, hname, hid⟩ := hop
    refine Abides.map ((abides_index hm hname hid hw hrest).mono ?_ fun _ _ _ h => h.1.rests)
    exact fun _ _ _ h => ⟨h.rests, appended_nothing rfl (by simp)⟩

end Site
end KeyedLog
