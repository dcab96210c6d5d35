import KeyedLog.Proofs.Extension.SegmentSimulation

/-! What an extension and the indexers beside it are asked for, on any number of segments. -/
namespace KeyedLog

open Program

def Connector.place (c : Connector) (id : Nat) : Connector := { c with info := { c.info with id } }

/-- Operations name their segment, indexers and whoever reports for them know its id. -/
inductive Errand where
  | put (name : String) (entries : List TableEntry)
  | remove (name : String) (keys : List TableKey)
  | get (name : String) (keys : List Bytes)
  | getKeys (name : String) (keys : List Bytes)
  | create (name : String)
  | delete (name : String) (mustBeEmpty : Bool)
  | connect (name : String)
  | index (connector : Connector) (limit : Option Nat)
  | notify (segment : Nat) (offset : Option Nat)

inductive Errand.Result where
  | done
  | versions (vs : List Nat)
  | entries (es : List (Option TableEntry))
  | keys (ks : List (Option TableKey))
  | connector (c : Option Connector)
  /-- The new index offset. -/
  | indexed (offset : Nat)
deriving DecidableEq, Repr

namespace Errand

def program (config : Config) : Errand → Program Tables Result
  | .put name entries => .versions <$> Tables.put config name entries
  | .remove name keys => (fun _ => .done) <$> Tables.remove config name keys
  | .get name keys => .entries <$> Tables.get config name keys
  | .getKeys name keys => .keys <$> Tables.getKeys config name keys
  | .create name => (fun _ => .done) <$> Tables.create name
  | .delete name mustBeEmpty => (fun _ => .done) <$> Tables.delete name mustBeEmpty
  | .connect name => .connector <$> Connector.ofTable? name
  | .index connector limit => .indexed <$> Indexer.runWithin config connector limit
  | .notify segment offset => (fun _ => .done) <$> modify (·.notify segment offset)

def segment? : Errand → Option Nat
  | .index connector _ => some connector.info.id
  | .notify segment _ => some segment
  | _ => none

def place (id : Nat) : Errand → Errand
  | .index connector limit => .index (connector.place id) limit
  | .notify _ offset => .notify id offset
  | e => e

namespace Result

def segment? : Result → Option Nat
  | .connector c => c.map (·.info.id)
  | _ => none

def place (id : Nat) : Result → Result
  | .connector c => .connector (c.map (·.place id))
  | r => r

/-- The results are the same, up to the ids of segments that go together. -/
def Tallies (P : Pairing) (r r' : Result) : Prop :=
  ∃ id, (∀ k, r.segment? = some k → P.segments k id) ∧ r' = r.place id

theorem tallies_of_none {P : Pairing} {r : Result} (h : r.segment? = none) (h' : r.place 0 = r) :
    r.Tallies P r :=
  ⟨0, fun k hk => by simp [h] at hk, h'.symm⟩

end Result

section Mirrors

variable {P : Pairing} {w : P.World} {k k' id : Nat} {config : Config}

theorem agrees_linkEntry (hk : P.segments k k') (heads : Heads) (r : Scanned) :
    (Indexer.linkEntry config k heads r).Agrees P (Indexer.linkEntry config k' heads r) w := by
  unfold Indexer.linkEntry
  apply (agrees_ofExcept _).bind
  intro v hash _
  cases heads[hash]? with
  | some head => exact agrees_pure _
  | none =>
    refine Agrees.bind (mirrors_ask (.getAttributes hk _)) ?_
    intro _ values _
    exact agrees_pure _

theorem agrees_linkEntries (hk : P.segments k k') (heads : Heads) (rs : List Scanned) :
    (Indexer.linkEntries config k heads rs).Agrees P (Indexer.linkEntries config k' heads rs)
      w := by
  induction rs generalizing heads w with
  | nil => exact agrees_pure _
  | cons r rs ih =>
    unfold Indexer.linkEntries
    apply (agrees_linkEntry hk heads r).bind
    intro v first _
    apply (ih _).bind
    intro u rest _
    exact agrees_pure _

/-- An indexer looks its segment up by name, and reports under the id that it knows. -/
theorem agrees_index (connector : Connector) (hc : P.segments connector.info.id id)
    (limit : Option Nat) :
    (Indexer.runWithin config connector limit).Agrees P
      (Indexer.runWithin config (connector.place id) limit) w := by
  unfold Indexer.runWithin
  refine Mirrors.bind (mirrors_ask (.resolve connector.info.name)) ?_
  intro _ k k' _ hk
  refine Agrees.bind (mirrors_ask (.getAttributes hk _)) ?_
  intro _ values _
  refine Agrees.bind (mirrors_ask (.length hk)) ?_
  intro _ length _
  dsimp only
  split
  · exact agrees_pure _
  refine Agrees.bind (mirrors_ask (.read hk _ _)) ?_
  intro _ data _
  apply (agrees_linkEntries hk _ _).bind
  intro _ links _
  apply (agrees_ofExcept _).bind
  intro _ _ _
  refine Agrees.bind (mirrors_ask (.updateAttributes hk _)) ?_
  intro _ _ _
  apply Agrees.bind
  · apply mirrors_modify
    intro _ t t' _ ht _
    exact Tables.alike_notify ht hc _
  · intro _ _ _
    exact agrees_pure _

theorem mirrors_connect (name : String) :
    (Connector.ofTable? name).Mirrors P
      (fun _ c c' => (Result.connector c).Tallies P (.connector c')) (Connector.ofTable? name)
      w := by
  unfold Connector.ofTable?
  apply Tables.agrees_checkOpen.bind
  intro _ _ _
  refine Mirrors.bind (mirrors_request (.resolve name)) ?_
  intro _ k k' _ hk
  apply (Tables.agrees_attributeOf hk _).bind
  intro _ offset _
  cases offset with
  | none => exact mirrors_pure fun _ _ => Result.tallies_of_none rfl rfl
  | some _ =>
    refine Agrees.bind (mirrors_ask (.length hk)) ?_
    intro _ length _
    apply mirrors_pure
    intro _ _
    refine ⟨k', fun j hj => ?_, rfl⟩
    obtain rfl := Option.some.inj hj
    exact hk

/-- An errand on a segment does the same wherever the segment is. -/
theorem mirrors_program (e : Errand) (he : ∀ k, e.segment? = some k → P.segments k id) :
    (e.program config).Mirrors P (fun _ => Result.Tallies P) ((e.place id).program config) w := by
  have hdone (a b : Unit) (_ : a = b) : Result.done.Tallies P .done :=
    Result.tallies_of_none rfl rfl
  cases e with
  | put name entries =>
    apply (Tables.agrees_write name .value _).map
    rintro vs _ rfl
    exact Result.tallies_of_none rfl rfl
  | remove name keys =>
    apply Mirrors.map (Q := Eq) _ hdone
    apply (Tables.agrees_write name .tombstone _).bind
    intro _ _ _
    exact agrees_pure _
  | get name keys =>
    apply Mirrors.map (Q := Eq)
    · apply (Tables.agrees_lookup .entry name keys).bind
      intro _ _ _
      exact agrees_pure _
    · rintro es _ rfl
      exact Result.tallies_of_none rfl rfl
  | getKeys name keys =>
    apply Mirrors.map (Q := Eq)
    · apply (Tables.agrees_lookup .key name keys).bind
      intro _ _ _
      exact agrees_pure _
    · rintro ks _ rfl
      exact Result.tallies_of_none rfl rfl
  | create name => exact (Tables.agrees_create name).map hdone
  | delete name mustBeEmpty => exact (Tables.agrees_delete name mustBeEmpty).map hdone
  | connect name => exact (mirrors_connect name).map fun _ _ h => h
  | index connector limit =>
    apply (agrees_index connector (he _ rfl) limit).map
    rintro offset _ rfl
    exact Result.tallies_of_none rfl rfl
  | notify segment offset =>
    apply Mirrors.map (Q := Eq) _ hdone
    apply mirrors_modify
    intro _ t t' _ ht _
    exact Tables.alike_notify ht (he _ rfl) offset

end Mirrors

end Errand
end KeyedLog
