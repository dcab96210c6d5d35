import KeyedLog.Proofs.Program.Alone
import KeyedLog.Proofs.Run.Schedules
import KeyedLog.Proofs.Write.Batch
import Mathlib.Data.List.Nodup
import Mathlib.Data.List.Pairwise
import Mathlib.Order.Bounds.Basic

/-! Merging: what the links of several batches leave behind does not depend on the order in which
they are persisted, nor on how often. -/
namespace KeyedLog

theorem Program.run_ask {σ : Type} (q : Call) (hasTime : Bool) (c : Container) (s : σ) :
    (ask q).run hasTime c s = ((c.perform q).2, (c.perform q).1, s) := by
  change (ofExcept (c.perform q).2).run hasTime (c.perform q).1 s = _
  cases (c.perform q).2 <;> rfl

namespace Attributes

variable {m : Attributes} {us vs : List AttributeUpdate} {id : AttributeId} {v : Nat}

/-- A value that only grows ends up as the greatest of those that were there or were written. -/
theorem updateAll_greatest (hu : ∀ u ∈ us, u.id = id → u.rule = .replaceIfGreater) :
    (m.updateAll us)[id]? = some v ↔
      IsGreatest {x | m[id]? = some x ∨ .replaceIfGreater id x ∈ us} v := by
  have hmem {x : Nat} (hx : (m.updateAll us)[id]? = some x) :
      m[id]? = some x ∨ .replaceIfGreater id x ∈ us := by
    rcases updateAll_cases hx with hx | ⟨u, hmem, rfl, rfl⟩
    · exact .inl hx
    · have hrule := hu u hmem rfl
      obtain ⟨id, rule, value⟩ := u
      obtain rfl : rule = .replaceIfGreater := hrule
      exact .inr hmem
  have hle {x : Nat} (hx : m[id]? = some x ∨ .replaceIfGreater id x ∈ us) :
      ∃ y, (m.updateAll us)[id]? = some y ∧ x ≤ y :=
    updateAll_grows hu (hx.symm.imp (fun h => ⟨_, h, rfl, Nat.le_refl _⟩) fun h =>
      ⟨x, h, Nat.le_refl _⟩)
  constructor
  · intro hv
    refine ⟨hmem hv, fun x hx => ?_⟩
    obtain ⟨y, hy, hxy⟩ := hle hx
    exact Option.some.inj (hv.symm.trans hy) ▸ hxy
  · rintro ⟨hv, hbound⟩
    obtain ⟨y, hy, hvy⟩ := hle hv
    rw [hy, Nat.le_antisymm hvy (hbound (hmem hy))]

/-- Whatever is written to an id either only grows or is always the same. -/
def Agree (us : List AttributeUpdate) : Prop :=
  ∀ id, (∀ u ∈ us, u.id = id → u.rule = .replaceIfGreater) ∨
    ∃ v, ∀ u ∈ us, u.id = id → u = .replace id v

/-- Of updates that agree, neither the order nor the number counts. -/
theorem updateAll_eq_of_agree (hu : Agree us) (h : ∀ u, u ∈ us ↔ u ∈ vs) :
    m.updateAll us = m.updateAll vs := by
  refine Std.ExtTreeMap.ext_getElem? fun id => ?_
  rcases hu id with hgrow | ⟨v, hsame⟩
  · refine Option.ext fun v => ?_
    rw [updateAll_greatest hgrow, updateAll_greatest fun u hmem => hgrow u ((h u).2 hmem)]
    simp only [h]
  · by_cases hex : ∃ u ∈ us, u.id = id
    · have hex' : ∃ u ∈ vs, u.id = id := by
        obtain ⟨u, hmem, hid⟩ := hex
        exact ⟨u, (h u).1 hmem, hid⟩
      rw [updateAll_replaced hsame (.inl hex),
        updateAll_replaced (fun u hmem => hsame u ((h u).2 hmem)) (.inl hex')]
    · rw [updateAll_of_ne fun u hmem hid => hex ⟨u, hmem, hid⟩,
        updateAll_of_ne fun u hmem hid => hex ⟨u, (h u).2 hmem, hid⟩]

end Attributes

/-- A batch that was appended somewhere, along with the heads that were known then. It has an entry
for each of its records, none of which is empty. -/
structure Appended where
  batch : Batch
  offset : Nat
  current : Heads
  ordered : batch.items.Pairwise (·.offset < ·.offset)
  bounded : ∀ i ∈ batch.items, i.offset < batch.length
  proper : ∀ i ∈ batch.items, i.hash.Proper

theorem Batch.Lists.exists_hash {hasher : Hasher} {batch : Batch} {rs : List Record}
    (hb : batch.Lists hasher rs) {i : BatchItem} (hi : i ∈ batch.items) :
    ∃ r, (i.offset, r) ∈ Log.placed 0 rs ∧ hasher.hash r.key = .ok i.hash := by
  have hmem : (0 + i.offset, i.hash) ∈ Log.hashed hasher 0 rs :=
    hb.hashed 0 ▸ List.mem_map_of_mem hi
  rw [Nat.zero_add] at hmem
  exact Log.mem_hashed.1 hmem

namespace Appended

def ofLists {hasher : Hasher} {batch : Batch} {rs : List Record} (hb : batch.Lists hasher rs)
    (offset : Nat) (current : Heads) : Appended where
  batch
  offset
  current
  ordered := by
    have hpair := Log.hashed_pairwise hasher 0 rs
    rw [← hb.hashed 0, List.pairwise_map] at hpair
    exact hpair.imp fun h => Nat.lt_of_add_lt_add_left h
  bounded i hi := by
    obtain ⟨r, hr, -⟩ := hb.exists_hash hi
    exact hb.length ▸ Log.placed_lt hr
  proper i hi := by
    obtain ⟨r, -, hh⟩ := hb.exists_hash hi
    exact Hasher.proper_of_hash hh

def links (a : Appended) : Links := Links.ofBatch a.batch a.offset a.current

def offsets (a : Appended) : List Nat := a.batch.items.map (a.offset + ·.offset)

def Apart (a b : Appended) : Prop :=
  a.offset + a.batch.length ≤ b.offset ∨ b.offset + b.batch.length ≤ a.offset

variable {a b : Appended} {h : KeyHash} {x p : Nat} {o o' : Option Nat}

theorem offsets_links : a.links.backpointers.map (·.1) = a.offsets := by
  refine (@Links.chain_offsets a.current _).trans ?_
  rw [List.map_map]
  rfl

theorem pairwise_offsets : a.offsets.Pairwise (· < ·) :=
  List.pairwise_map.2 (a.ordered.imp fun h => Nat.add_lt_add_left h _)

theorem bounds (hx : x ∈ a.offsets) : a.offset ≤ x ∧ x < a.offset + a.batch.length := by
  obtain ⟨i, hi, rfl⟩ := List.mem_map.1 hx
  exact ⟨Nat.le_add_right .., Nat.add_lt_add_left (a.bounded i hi) _⟩

theorem mem_offsets (hx : (x, o) ∈ a.links.backpointers) : x ∈ a.offsets :=
  offsets_links ▸ List.mem_map_of_mem hx

theorem backpointer_unique (ho : (x, o) ∈ a.links.backpointers)
    (ho' : (x, o') ∈ a.links.backpointers) : o = o' := by
  have hnodup : (a.links.backpointers.map (·.1)).Nodup :=
    offsets_links ▸ a.pairwise_offsets.imp Nat.ne_of_lt
  exact congrArg Prod.snd (List.inj_on_of_nodup_map hnodup ho ho' rfl)

theorem proper_of_head (hx : (h, x) ∈ a.links.heads) : h.Proper := by
  obtain ⟨h', hh, hx⟩ := List.mem_filterMap.1 hx
  obtain ⟨y, -, heq⟩ := Option.map_eq_some_iff.1 hx
  obtain ⟨rfl, -⟩ := Prod.mk.inj heq
  obtain ⟨i, hi, rfl⟩ := List.mem_map.1 (List.mem_eraseDups.1 hh)
  exact a.proper i hi

instance : Std.Symm Apart := ⟨fun _ _ => Or.symm⟩

theorem eq_of_mem_offsets {as : List Appended} (has : as.Pairwise Apart) (ha : a ∈ as) (hb : b ∈ as)
    (hxa : x ∈ a.offsets) (hxb : x ∈ b.offsets) : a = b := by
  by_contra hne
  have hapart := has.forall ha hb hne
  have := bounds hxa
  have := bounds hxb
  unfold Apart at hapart
  omega

end Appended

/-- What is written to the attributes of a segment once links are persisted. -/
inductive Write where
  | links (a : Appended)
  | indexOffset (n : Nat)

namespace Write

def updates : Write → List AttributeUpdate
  | .links a => a.links.updates
  | .indexOffset n => [.replaceIfGreater .indexOffset n]

def persistAll {σ : Type} (segment : Nat) (groups : List (List Write)) : Program σ Unit :=
  groups.forM fun ws => Program.ask (.updateAttributes segment (ws.flatMap updates))

/-- Exactly these are written, each at least once. -/
def Cover (as : List Appended) (ns : List Nat) (ws : List Write) : Prop :=
  ∀ w, w ∈ ws ↔ (∃ a ∈ as, w = .links a) ∨ ∃ n ∈ ns, w = .indexOffset n

variable {as : List Appended} {ns : List Nat} {ws : List Write} {m : Attributes}
  {u : AttributeUpdate}

theorem Cover.mem_updates (hws : Cover as ns ws) : u ∈ ws.flatMap updates ↔
    (∃ a ∈ as, (∃ h x, (h, x) ∈ a.links.heads ∧ u = .replaceIfGreater (.bucket h) x) ∨
      ∃ x p, (x, some p) ∈ a.links.backpointers ∧ u = .replace (.backpointer x) p) ∨
    ∃ n ∈ ns, u = .replaceIfGreater .indexOffset n := by
  have hlinks (a : Appended) : u ∈ updates (.links a) ↔
      (∃ h x, (h, x) ∈ a.links.heads ∧ u = .replaceIfGreater (.bucket h) x) ∨
        ∃ x p, (x, some p) ∈ a.links.backpointers ∧ u = .replace (.backpointer x) p := by
    rw [← Links.mem_headUpdates, ← Links.mem_backpointerUpdates]
    exact List.mem_append
  have hindex (n : Nat) : u ∈ updates (.indexOffset n) ↔ u = .replaceIfGreater .indexOffset n :=
    List.mem_singleton
  rw [List.mem_flatMap]
  constructor
  · rintro ⟨w, hw, hu⟩
    rcases (hws w).1 hw with ⟨a, ha, rfl⟩ | ⟨n, hn, rfl⟩
    · exact .inl ⟨a, ha, (hlinks a).1 hu⟩
    · exact .inr ⟨n, hn, (hindex n).1 hu⟩
  · rintro (⟨a, ha, hu⟩ | ⟨n, hn, hu⟩)
    · exact ⟨_, (hws _).2 (.inl ⟨a, ha, rfl⟩), (hlinks a).2 hu⟩
    · exact ⟨_, (hws _).2 (.inr ⟨n, hn, rfl⟩), (hindex n).2 hu⟩

section Cover

variable (hws : Cover as ns ws)
include hws

theorem Cover.of_bucket {h : KeyHash} (hh : h.Proper) (hu : u ∈ ws.flatMap updates)
    (hid : u.id = .bucket h) :
    ∃ a ∈ as, ∃ x, (h, x) ∈ a.links.heads ∧ u = .replaceIfGreater (.bucket h) x := by
  rcases hws.mem_updates.1 hu with ⟨a, ha, ⟨h', x, hx, rfl⟩ | ⟨x, p, -, rfl⟩⟩ | ⟨n, -, rfl⟩
  · obtain rfl := AttributeId.bucket_inj.1 hid
    exact ⟨a, ha, x, hx, rfl⟩
  · exact absurd hid.symm (AttributeId.bucket_ne_backpointer hh x)
  · exact absurd hid.symm (AttributeId.bucket_ne_indexOffset hh)

theorem Cover.of_backpointer {x : Nat} (hu : u ∈ ws.flatMap updates)
    (hid : u.id = .backpointer x) :
    ∃ a ∈ as, ∃ p, (x, some p) ∈ a.links.backpointers ∧ u = .replace (.backpointer x) p := by
  rcases hws.mem_updates.1 hu with ⟨a, ha, ⟨h, y, hy, rfl⟩ | ⟨y, p, hp, rfl⟩⟩ | ⟨n, -, rfl⟩
  · exact absurd hid (AttributeId.bucket_ne_backpointer (Appended.proper_of_head hy) x)
  · obtain rfl := AttributeId.backpointer_inj.1 hid
    exact ⟨a, ha, p, hp, rfl⟩
  · exact absurd hid.symm (AttributeId.backpointer_ne_indexOffset x)

theorem Cover.of_indexOffset (hu : u ∈ ws.flatMap updates) (hid : u.id = .indexOffset) :
    ∃ n ∈ ns, u = .replaceIfGreater .indexOffset n := by
  rcases hws.mem_updates.1 hu with ⟨a, ha, ⟨h, y, hy, rfl⟩ | ⟨y, p, hp, rfl⟩⟩ | hn
  · exact absurd hid (AttributeId.bucket_ne_indexOffset (Appended.proper_of_head hy))
  · exact absurd hid (AttributeId.backpointer_ne_indexOffset y)
  · exact hn

theorem Cover.mem_bucket {h : KeyHash} (hh : h.Proper) {x : Nat} :
    .replaceIfGreater (.bucket h) x ∈ ws.flatMap updates ↔ ∃ a ∈ as, (h, x) ∈ a.links.heads := by
  constructor
  · intro hu
    obtain ⟨a, ha, y, hy, heq⟩ := hws.of_bucket hh hu rfl
    obtain rfl : x = y := congrArg AttributeUpdate.value heq
    exact ⟨a, ha, hy⟩
  · rintro ⟨a, ha, hx⟩
    exact hws.mem_updates.2 (.inl ⟨a, ha, .inl ⟨h, x, hx, rfl⟩⟩)

theorem Cover.mem_indexOffset {n : Nat} :
    .replaceIfGreater .indexOffset n ∈ ws.flatMap updates ↔ n ∈ ns := by
  constructor
  · intro hu
    obtain ⟨k, hk, heq⟩ := hws.of_indexOffset hu rfl
    obtain rfl : n = k := congrArg AttributeUpdate.value heq
    exact hk
  · exact fun hn => hws.mem_updates.2 (.inr ⟨n, hn, rfl⟩)

variable (has : as.Pairwise Appended.Apart)
include has

theorem Cover.replaces {a : Appended} {x : Nat} {o : Option Nat} (ha : a ∈ as)
    (ho : (x, o) ∈ a.links.backpointers) (hu : u ∈ ws.flatMap updates)
    (hid : u.id = .backpointer x) : ∃ p, o = some p ∧ u = .replace (.backpointer x) p := by
  obtain ⟨b, hb, p, hp, rfl⟩ := hws.of_backpointer hu hid
  obtain rfl := Appended.eq_of_mem_offsets has ha hb (Appended.mem_offsets ho)
    (Appended.mem_offsets hp)
  exact ⟨p, Appended.backpointer_unique ho hp, rfl⟩

theorem Cover.agree : Attributes.Agree (ws.flatMap updates) := by
  intro id
  by_cases hex : ∃ x, id = .backpointer x ∧ ∃ u ∈ ws.flatMap updates, u.id = id
  · obtain ⟨x, rfl, u, hu, hid⟩ := hex
    obtain ⟨a, ha, p, hp, -⟩ := hws.of_backpointer hu hid
    refine .inr ⟨p, fun v hv hid => ?_⟩
    obtain ⟨q, hq, rfl⟩ := hws.replaces has ha hp hv hid
    rw [Option.some.inj hq]
  · refine .inl fun u hu hid => ?_
    rcases hws.mem_updates.1 hu with ⟨a, ha, ⟨h, y, hy, rfl⟩ | ⟨y, p, hp, rfl⟩⟩ | ⟨n, -, rfl⟩
    · rfl
    · exact absurd ⟨y, hid.symm, _, hu, hid⟩ hex
    · rfl

end Cover

theorem run_persistAll {σ : Type} {c : Container} {name : String} {segment : Nat} {data : Bytes}
    (hc : c.Holds name segment data m) (groups : List (List Write)) (hasTime : Bool) (s : σ) :
    ∃ c', (persistAll segment groups).run hasTime c s = (.ok (), c', s) ∧
      c'.Holds name segment data (m.updateAll (groups.flatten.flatMap updates)) := by
  induction groups generalizing c m with
  | nil => exact ⟨c, rfl, hc⟩
  | cons ws groups ih =>
    have hws : (c.modify segment fun t =>
          { t with attributes := t.attributes.updateAll (ws.flatMap updates) }).Holds
        name segment data (m.updateAll (ws.flatMap updates)) :=
      hc.modify (fun _ => rfl) hc.data (by rw [← hc.attributes])
    obtain ⟨c', hrun, hc'⟩ := ih hws
    refine ⟨c', ?_, ?_⟩
    · change (Program.ask (.updateAttributes segment (ws.flatMap updates)) >>= fun _ =>
        persistAll segment groups).run hasTime c s = _
      rw [Program.run_bind, Program.run_ask, Container.perform_updateAttributes hc.resolve]
      exact hrun
    · rw [List.flatten_cons, List.flatMap_append, Attributes.updateAll, List.foldl_append]
      exact hc'

theorem cover_once (as : List Appended) (ns : List Nat) :
    Cover as ns (as.map .links ++ ns.map .indexOffset) := by
  intro w
  simp only [List.mem_append, List.mem_map, eq_comm]

/-- To persist the links of batches that lie apart leaves the same attributes behind, whatever the
order and the grouping and however often it is done. Each head is the greatest of those that were
there and those of the batches, each entry has the backpointer that its batch gives it, and nothing
else has changed. -/
theorem persistAll_merges (has : as.Pairwise Appended.Apart)
    (hnew : ∀ a ∈ as, ∀ x ∈ a.offsets, m[AttributeId.backpointer x]? = none) :
    ∃ m' : Attributes,
      (∀ (c : Container) (name : String) (segment : Nat) (data : Bytes) (t : Tables)
        (hasTime : Bool) (groups : List (List Write)), c.Holds name segment data m →
        Cover as ns groups.flatten → ∃ c',
          (persistAll segment groups).run hasTime c t = (.ok (), c', t) ∧
            c'.Holds name segment data m') ∧
      (∀ (h : KeyHash) (v : Nat), h.Proper → (m'[AttributeId.bucket h]? = some v ↔
        IsGreatest {x | m[AttributeId.bucket h]? = some x ∨
          ∃ a ∈ as, (h, x) ∈ a.links.heads} v)) ∧
      (∀ a ∈ as, a.links.backpointers.map (·.1) = a.offsets ∧
        ∀ e ∈ a.links.backpointers, m'[AttributeId.backpointer e.1]? = e.2) ∧
      (∀ v, m'[AttributeId.indexOffset]? = some v ↔
        IsGreatest {x | m[AttributeId.indexOffset]? = some x ∨ x ∈ ns} v) ∧
      ∀ id : AttributeId, (∀ a ∈ as, ∀ e ∈ a.links.heads, id ≠ .bucket e.1) →
        (∀ a ∈ as, ∀ x ∈ a.offsets, id ≠ .backpointer x) → id ≠ .indexOffset →
          m'[id]? = m[id]? := by
  have hall := cover_once as ns
  generalize as.map Write.links ++ ns.map Write.indexOffset = ws at hall
  refine ⟨m.updateAll (ws.flatMap updates), ?_, ?_, ?_, ?_, ?_⟩
  · intro c name segment data t hasTime groups hc hgroups
    obtain ⟨c', hrun, hc'⟩ := run_persistAll hc groups hasTime t
    refine ⟨c', hrun, ?_⟩
    rwa [Attributes.updateAll_eq_of_agree (hall.agree has) fun u =>
      hall.mem_updates.trans hgroups.mem_updates.symm]
  · intro h v hh
    rw [Attributes.updateAll_greatest fun u hu hid => ?_]
    · simp only [hall.mem_bucket hh]
    · obtain ⟨a, -, x, -, rfl⟩ := hall.of_bucket hh hu hid
      rfl
  · intro a ha
    refine ⟨Appended.offsets_links, fun ⟨x, o⟩ ho => ?_⟩
    dsimp only
    cases o with
    | none =>
      rw [Attributes.updateAll_of_ne fun u hu hid => ?_]
      · exact hnew a ha x (Appended.mem_offsets ho)
      · obtain ⟨p, hp, -⟩ := hall.replaces has ha ho hu hid
        cases hp
    | some p =>
      have hmem : .replace (.backpointer x) p ∈ ws.flatMap updates :=
        hall.mem_updates.2 (.inl ⟨a, ha, .inr ⟨x, p, ho, rfl⟩⟩)
      refine Attributes.updateAll_replaced (fun u hu hid => ?_) (.inl ⟨_, hmem, rfl⟩)
      obtain ⟨q, hq, rfl⟩ := hall.replaces has ha ho hu hid
      rw [Option.some.inj hq]
  · intro v
    rw [Attributes.updateAll_greatest fun u hu hid => ?_]
    · simp only [hall.mem_indexOffset]
    · obtain ⟨n, -, rfl⟩ := hall.of_indexOffset hu hid
      rfl
  · intro id hbucket hbackpointer hindex
    refine Attributes.updateAll_of_ne fun u hu hid => ?_
    rcases hall.mem_updates.1 hu with ⟨a, ha, ⟨h, y, hy, rfl⟩ | ⟨y, p, hp, rfl⟩⟩ | ⟨n, -, rfl⟩
    · exact hbucket a ha _ hy hid.symm
    · exact hbackpointer a ha y (Appended.mem_offsets hp) hid.symm
    · exact hindex hid.symm

def single (offset : Nat) (current : Heads) : Appended where
  batch := (Batch.empty .value).add [97] ⟨1, 1⟩ 20
  offset
  current
  ordered := List.pairwise_singleton ..
  bounded := by decide
  proper i hi := by
    obtain rfl := List.mem_singleton.1 hi
    exact ⟨by decide, by decide⟩

/-- The second of two batches for one key, which knows of the first. -/
def sequel : Appended := single 20 ((∅ : Heads).insert ⟨1, 1⟩ 0)

/-- The second batch is persisted before the first, and then once more. -/
def backwards : List (List Write) :=
  [[.links sequel, .indexOffset 40], [.links (single 0 ∅), .links sequel]]

theorem persistAll_backwards :
    [single 0 ∅, sequel].Pairwise Appended.Apart ∧
    (∀ a ∈ [single 0 ∅, sequel], ∀ x ∈ a.offsets,
      (Attributes.updateAll ∅ initialAttributes)[AttributeId.backpointer x]? = none) ∧
    ∃ c', (persistAll 0 backwards).run true .solo (Tables.initial .standard) =
        (.ok (), c', .initial .standard) ∧
      (c'.segment 0).attributes[AttributeId.bucket ⟨1, 1⟩]? = some 20 ∧
      (c'.segment 0).attributes[AttributeId.backpointer 20]? = some 0 := by
  have has : [single 0 ∅, sequel].Pairwise Appended.Apart :=
    List.pairwise_pair.2 (.inl (by decide))
  have hnew : ∀ a ∈ [single 0 ∅, sequel], ∀ x ∈ a.offsets,
      (Attributes.updateAll ∅ initialAttributes)[AttributeId.backpointer x]? = none := by
    decide +kernel
  have hcover : Cover [single 0 ∅, sequel] [40] backwards.flatten := by
    intro w
    simp only [backwards, List.flatten_cons, List.flatten_nil, List.mem_append, List.mem_cons,
      List.not_mem_nil, or_false, exists_eq_or_imp, exists_eq_left]
    tauto
  have hheads : (single 0 ∅).links.heads = [(⟨1, 1⟩, 0)] ∧ sequel.links =
      ⟨[(⟨1, 1⟩, 20)], [(20, some 0)]⟩ := by decide +kernel
  have hold : (Attributes.updateAll ∅ initialAttributes)[AttributeId.bucket ⟨1, 1⟩]? = none := by
    decide +kernel
  obtain ⟨m', hrun, hbucket, hbackpointer, -⟩ := @persistAll_merges _ [40] _ has hnew
  obtain ⟨c', hrun, hc'⟩ := hrun .solo "t" 0 [] (.initial .standard) true backwards
    ⟨Container.resolve_solo, rfl, rfl⟩ hcover
  refine ⟨has, hnew, c', hrun, ?_, ?_⟩
  · rw [hc'.attributes, hbucket _ _ ⟨by decide, by decide⟩]
    simp [IsGreatest, upperBounds, hold, hheads]
  · rw [hc'.attributes]
    exact (hbackpointer sequel (by simp)).2 (20, some 0) (by simp [hheads.2])

end Write
end KeyedLog
