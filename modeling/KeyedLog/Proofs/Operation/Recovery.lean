import KeyedLog.Proofs.Log.Buckets
import KeyedLog.Proofs.Segment.Calls
import KeyedLog.Proofs.Segment.LinkUpdates
import KeyedLog.Proofs.Segment.Memory

/-! Accounting for the entries from before the first access. Whoever does it has the attributes to
itself if it is its part to persist links. -/
namespace KeyedLog.Site

open Program

variable {S : Site} {i : Nat} {z : Scene} {w v u : World Tables Account}
  {E : TableError → World Tables Account → Prop}

/-- No bucket has more entries than may be followed. -/
def Bounded (S : Site) (log : List Record) : Prop :=
  ∀ h, (Log.bucket S.config.hasher log h).length ≤ S.config.maxChainLength

theorem Bounded.of_prefix {a b : List Record} (hl : a <+: b) (h : S.Bounded b) : S.Bounded a :=
  fun k => Nat.le_trans (Log.bucket_length_le hl k) (h k)

/-- A thread has had it to itself to account for the entries from before, since a scene. -/
structure Attending (S : Site) (i : Nat) (z : Scene) (w : World Tables Account) : Prop where
  inv : S.Inv w
  minds : S.Minds i z (S.scene w)
  fresh : z.ghost.fresh i = none
  mine : z.ghost.recoverer = some i
  tracked : z.tracked = true

namespace Attending

theorem fresh' (hw : S.Attending i z w) : w.ghost.fresh i = none :=
  hw.minds.fresh.trans hw.fresh

theorem mine' (hw : S.Attending i z w) : w.ghost.recoverer = some i :=
  hw.minds.recoverer.2 hw.mine

theorem tracked' (hw : S.Attending i z w) : (S.scene w).tracked = true :=
  hw.minds.tracked hw.tracked

end Attending

structure Recovering (S : Site) (i : Nat) (z : Scene) (w : World Tables Account) : Prop
    extends S.Attending i z w where
  unrecovered : (S.scene w).state.recovered = none

namespace Recovering

theorem size (hw : S.Recovering i z w) : Log.size w.ghost.log = S.start :=
  (hw.inv.coherent.unrecovered hw.unrecovered).1

theorem sees (hw : S.Recovering i z w) (hv : S.Inv v) (h : S.Sees i (S.scene w) (S.scene v)) :
    S.Recovering i z v where
  inv := hv
  minds := hw.minds.trans h.toMinds
  fresh := hw.fresh
  mine := hw.mine
  tracked := hw.tracked
  unrecovered := (h.recovering hw.mine' hw.unrecovered).1

theorem log_eq (hw : S.Recovering i z w) (hv : S.Recovering i z v)
    (h : Grows (S.scene w) (S.scene v)) : v.ghost.log = w.ghost.log :=
  (Log.eq_of_prefix_of_size h.log (hw.size.trans hv.size.symm)).symm

theorem attributes_eq (hw : S.Recovering i z w) (hm : S.config.mode = .inline)
    (h : S.Sees i (S.scene w) (S.scene v)) : (S.scene v).attributes = (S.scene w).attributes :=
  (h.recovering hw.mine' hw.unrecovered).2 hm

end Recovering

section Rewind

variable {log : List Record} {a : Attributes} {start : Nat} {h : KeyHash}

/-- The scene as it stays while the attributes are not written. -/
structure Rewinding (S : Site) (i : Nat) (z : Scene) (log : List Record) (a : Attributes)
    (w : World Tables Account) : Prop extends S.Recovering i z w where
  mode : S.config.mode = .inline
  log : w.ghost.log = log
  attributes : (S.scene w).attributes = a

theorem Rewinding.sees (hw : S.Rewinding i z log a w) (hv : S.Inv v)
    (hwv : S.Sees i (S.scene w) (S.scene v)) : S.Rewinding i z log a v where
  toRecovering := hw.toRecovering.sees hv hwv
  mode := hw.mode
  log := (hw.log_eq (hw.toRecovering.sees hv hwv) hwv.toGrows).trans hw.log
  attributes := (hw.attributes_eq hw.mode hwv).trans hw.attributes

theorem Rewinding.faithful (hw : S.Rewinding i z log a w) :
    S.Faithful { w.ghost.toLedger with log } a := by
  obtain ⟨hr, -, rfl, rfl⟩ := hw
  exact hr.inv.coherent.faithful

theorem Rewinding.lastBefore {x p : Nat} (hw : S.Rewinding i z log a w)
    (hp : a[AttributeId.backpointer x]? = some p) (he : S.Entry log x h) :
    LastBefore (S.Entry log · h) x (some p) :=
  hw.faithful.backpointer hp he

/-- The chain of a bucket leads from an entry to the last one before an offset, in so many hops
where buckets are bounded. -/
structure Leads (S : Site) (log : List Record) (start : Nat) (h : KeyHash) (left x : Nat) :
    Prop where
  entry : S.Entry log x h
  max : ∀ y, S.Entry log y h → y < start → y ≤ x
  rank : S.calm → S.Bounded log → Log.rank S.config.hasher log h x < left

theorem Leads.lastBefore {left x : Nat} (hx : S.Leads log start h left x) (hlt : x < start) :
    LastBefore (S.Entry log · h) start (some x) :=
  LastBefore.some_iff.2 ⟨hx.entry, hlt, hx.max⟩

theorem Leads.next {left x p : Nat} (hx : S.Leads log start h (left + 1) x) (hge : start ≤ x)
    (hp : LastBefore (S.Entry log · h) x (some p)) : S.Leads log start h left p where
  entry := hp.mem
  max y hy hys := hp.le hy (by omega)
  rank hc hb := by
    have hback := Log.rank_lt_rank hp.mem.1 hp.lt
    have hrank := hx.rank hc hb
    omega

/-- The persisted head of a bucket is not before any entry that the index offset covers. -/
theorem Rewinding.leads {x : Nat} (hw : S.Rewinding i z log a w)
    (hstart : a[AttributeId.indexOffset]? = some start) (hh : h.Proper)
    (hx : a[AttributeId.bucket h]? = some x) :
    S.Leads log start h S.config.maxChainLength x where
  entry := (hw.faithful.bucket hh hx).1
  max y hy hys := by
    obtain ⟨b, hb, hle⟩ := (hw.faithful.indexed hy ⟨start, hstart, hys⟩).2
    rw [hx] at hb
    rwa [Option.some.inj hb]
  rank _ hb := Nat.lt_of_lt_of_le (Log.rank_lt_length (hw.faithful.bucket hh hx).1.1) (hb h)

/-- Rewinding stops at an entry before the offset, and else goes on with its backpointer. -/
theorem obeys_hop {hops left x : Nat} {K : Option Nat → World Tables Account → Prop}
    (hw : S.Rewinding i z log a w) (hx : S.Leads log start h left x)
    (hK : x < start → K (some x) w)
    (hnext : ∀ k u, left = k + 1 → start ≤ x → S.Rewinding i z log a u →
      (Tables.rewind S.segment start (hops + 1) k a[AttributeId.backpointer x]?).Obeys
        S.rules i K E u)
    (hE : ∀ e v, S.Rewinding i z log a v → (S.calm → ¬S.Bounded log) → E e v) :
    (Tables.rewind S.segment start hops left (some x)).Obeys S.rules i K E w := by
  unfold Tables.rewind
  split
  · next hlt => exact hK hlt
  · next hge =>
    rw [obeys_bind]
    refine obeys_attributeOf _ hw.fresh' (fun v u hv hwv hu hvu => ?_)
      fun e u hc hu hwu => hE e u (hw.sees hu hwu) fun hc' => absurd hc' hc
    have hv := hw.sees hv hwv
    have hu := hv.sees hu hvu
    rw [hv.attributes]
    split
    · next hany =>
      obtain ⟨p, hp, hle⟩ := (Option.any_eq_true _ _).1 hany
      exact absurd (of_decide_eq_true hle) (Nat.not_le.2 (hw.lastBefore hp hx.entry).lt)
    · cases left with
      | zero => exact hE _ u hu fun hc hb => absurd (hx.rank hc hb) (Nat.not_lt_zero _)
      | succ k => exact hnext k u rfl (Nat.le_of_not_lt hge) hu

/-- The chain of a bucket leads to the last entry before an offset, or breaks off behind it. -/
theorem obeys_rewind {hops left x : Nat} {K : Option Nat → World Tables Account → Prop}
    (hw : S.Rewinding i z log a w) (hx : S.Leads log start h left x)
    (hK : ∀ r v, S.Rewinding i z log a v →
      (∀ y, r = some y → LastBefore (S.Entry log · h) start (some y)) →
      (r = none → start ≤ x) → K r v)
    (hE : ∀ e v, S.Rewinding i z log a v → (S.calm → ¬S.Bounded log) → E e v) :
    (Tables.rewind S.segment start hops left (some x)).Obeys S.rules i K E w := by
  have hstop {left x : Nat} {v : World Tables Account} (hv : S.Rewinding i z log a v)
      (hx : S.Leads log start h left x) (hlt : x < start) : K (some x) v :=
    hK _ v hv (fun y hy => Option.some.inj hy ▸ hx.lastBefore hlt) fun hn => by cases hn
  induction left generalizing hops x w with
  | zero => exact obeys_hop hw hx (hstop hw hx) (fun k u hk => by cases hk) hE
  | succ left ih =>
    refine obeys_hop hw hx (hstop hw hx) (fun k u hk hge hu => ?_) hE
    obtain rfl := Nat.succ.inj hk
    cases hp : a[AttributeId.backpointer x]? with
    | none =>
      unfold Tables.rewind
      exact hK none u hu (fun y hy => by cases hy) fun _ => hge
    | some p =>
      refine ih hu (hx.next hge (hw.lastBefore hp hx.entry)) fun r v hv hr _ => ?_
      exact hK r v hv hr fun _ => hge

def rewindStep (config : Config) (segment before : Nat) (heads : Heads) :
    KeyHash × Option Nat → Program Tables Heads
  | (h, head) => do
    match ← Tables.rewind segment before 0 config.maxChainLength head with
    | some offset => return heads.insert h offset
    | none => return heads

/-- Some buckets are rewound. A bucket is only missing if its persisted head is, or leads past the
offset. -/
structure Rewound (S : Site) (log : List Record) (a : Attributes) (start : Nat)
    (hashes : List KeyHash) (before : Heads) : Prop where
  last : ∀ {h y}, before[h]? = some y → LastBefore (S.Entry log · h) start (some y)
  past : ∀ {h}, h ∈ hashes → before[h]? = none →
    ∀ x, a[AttributeId.bucket h]? = some x → start ≤ x

namespace Rewound

variable {hashes : List KeyHash} {before : Heads}

theorem empty : S.Rewound log a start [] ∅ where
  last hy := by simp at hy
  past hh := by cases hh

theorem skip (hr : S.Rewound log a start hashes before)
    (hpast : ∀ x, a[AttributeId.bucket h]? = some x → start ≤ x) :
    S.Rewound log a start (hashes ++ [h]) before where
  last := hr.last
  past {k} hk hn := by
    rcases List.mem_append.1 hk with hk | hk
    · exact hr.past hk hn
    · exact List.mem_singleton.1 hk ▸ hpast

theorem insert {y : Nat} (hr : S.Rewound log a start hashes before)
    (hy : LastBefore (S.Entry log · h) start (some y)) :
    S.Rewound log a start (hashes ++ [h]) (before.insert h y) where
  last {k x} hx := by
    rw [Heads.getElem?_insert] at hx
    split at hx
    · next hk => exact hk ▸ hx ▸ hy
    · exact hr.last hx
  past {k} hk hn := by
    rw [Heads.getElem?_insert] at hn
    split at hn
    · cases hn
    · next hne =>
      rcases List.mem_append.1 hk with hk | hk
      · exact hr.past hk hn
      · exact absurd (List.mem_singleton.1 hk).symm hne

end Rewound

section RewindAll

variable {hashes : List KeyHash} (hw : S.Rewinding i z log a w)
  (hstart : a[AttributeId.indexOffset]? = some start)
include hw hstart

theorem obeys_rewindStep {before : Heads} (hr : S.Rewound log a start hashes before)
    (hh : h.Proper) :
    (rewindStep S.config S.segment start before (h, a[AttributeId.bucket h]?)).Obeys S.rules i
      (fun before v => S.Rewinding i z log a v ∧ S.Rewound log a start (hashes ++ [h]) before)
      (fun _ v => S.Rewinding i z log a v ∧ (S.calm → ¬S.Bounded log)) w := by
  unfold rewindStep
  rw [obeys_bind]
  cases hx : a[AttributeId.bucket h]? with
  | none =>
    unfold Tables.rewind
    exact ⟨hw, hr.skip fun x hx' => by rw [hx] at hx'; cases hx'⟩
  | some x =>
    refine obeys_rewind hw (hw.leads hstart hh hx) (fun r v hv hlast hpast => ?_)
      fun e v hv hb => ⟨hv, hb⟩
    cases r with
    | none =>
      refine ⟨hv, hr.skip fun y hy => ?_⟩
      rw [← Option.some.inj (hx.symm.trans hy)]
      exact hpast rfl
    | some y => exact ⟨hv, hr.insert (hlast y rfl)⟩

theorem obeys_rewindSteps {rest : List KeyHash} {before : Heads}
    (hr : S.Rewound log a start hashes before) (hproper : ∀ h ∈ rest, h.Proper) :
    ((rest.zip (rest.map fun h => a[AttributeId.bucket h]?)).foldlM
      (rewindStep S.config S.segment start) before).Obeys S.rules i
      (fun before v => S.Rewinding i z log a v ∧ S.Rewound log a start (hashes ++ rest) before)
      (fun _ v => S.Rewinding i z log a v ∧ (S.calm → ¬S.Bounded log)) w := by
  induction rest generalizing hashes before w with
  | nil =>
    rw [List.append_nil]
    exact ⟨hw, hr⟩
  | cons h rest ih =>
    rw [List.map_cons, List.zip_cons_cons, List.foldlM_cons, obeys_bind]
    refine (obeys_rewindStep hw hstart hr (hproper h (by simp))).mono ?_ fun _ _ h => h
    rintro before v ⟨hv, hr⟩
    have hrest := ih hv hr fun h hh => hproper h (by simp [hh])
    rwa [List.append_assoc] at hrest

theorem obeys_rewindAll {K : Heads → World Tables Account → Prop}
    (hproper : ∀ h ∈ hashes, h.Proper)
    (hK : ∀ before v, S.Rewinding i z log a v → S.Rewound log a start hashes before → K before v)
    (hE : ∀ e v, S.Rewinding i z log a v → (S.calm → ¬S.Bounded log) → E e v) :
    (Tables.rewindAll S.config S.segment start hashes
      (hashes.map fun h => a[AttributeId.bucket h]?)).Obeys S.rules i K E w :=
  (obeys_rewindSteps hw hstart .empty hproper).mono (fun before v h => hK before v h.1 h.2)
    fun e v h => hE e v h.1 h.2

end RewindAll

end Rewind

theorem chained_of_first {g : Ledger} {a : Attributes} {x : Nat} {h : KeyHash}
    (hf : S.Faithful g a) (he : S.Entry g.log x h) (hfirst : ∀ y, S.Entry g.log y h → ¬y < x) :
    S.Chained g.log a x h := by
  unfold Chained
  cases hp : a[AttributeId.backpointer x]? with
  | none => exact LastBefore.none_iff.2 hfirst
  | some p => exact hf.backpointer hp he

/-- Where no bucket is cut, a bucket that rewinding misses is linked already. -/
theorem chained_of_missing {g : Ledger} {a : Attributes} {start x : Nat} {h : KeyHash}
    (hf : S.Faithful g a) (hstart : a[AttributeId.indexOffset]? = some start)
    (hu : S.Uncut g.log a) (he : S.Entry g.log x h) (hx : start ≤ x)
    (hpast : ∀ y, a[AttributeId.bucket h]? = some y → start ≤ y)
    (hfirst : ∀ y, S.Entry g.log y h → y < x → y < start) : S.Chained g.log a x h := by
  by_cases hold : ∃ y, S.Entry g.log y h ∧ y < start
  · obtain ⟨y, hy, hys⟩ := hold
    have hiff {n : Nat} := Attributes.indexed_iff (x := n) hstart
    obtain ⟨z, hz, -⟩ := (hf.indexed hy (hiff.2 hys)).2
    have hzs := hpast z hz
    have hlink : a[AttributeId.backpointer x]? ≠ none := fun hp =>
      hu h ⟨y, x, z, hy, hiff.2 hys, he, fun hi => Nat.not_lt.2 hx (hiff.1 hi),
        fun y hy hyx => hiff.2 (hfirst y hy hyx), hz, fun hi => Nat.not_lt.2 hzs (hiff.1 hi), hp⟩
    obtain ⟨p, hp⟩ := Option.ne_none_iff_exists'.1 hlink
    have hlast := hf.backpointer hp he
    unfold Chained
    rwa [hp]
  · exact chained_of_first hf he fun y hy hyx => hold ⟨y, hy, hfirst y hy hyx⟩

section Relink

variable {log c : List Record} {a : Attributes} {start : Nat} {entries : List (Nat × KeyHash)}
  {before : Heads}

/-- What persists the links of some entries that are put on top of the heads before them. -/
def relinking (log : List Record) (entries : List (Nat × KeyHash)) (before : Heads) :
    List AttributeUpdate :=
  rangeUpdates (Links.chain before entries).2 (Links.chain before entries).1.toList (Log.size log)

/-- What recovery has found out about the entries behind the index offset. -/
structure Unlinked (S : Site) (log : List Record) (a : Attributes) (start : Nat)
    (entries : List (Nat × KeyHash)) : Prop where
  offset : a[AttributeId.indexOffset]? = some start
  le : start ≤ Log.size log
  sorted : entries.Pairwise fun a b => a.1 < b.1
  mem_iff : ∀ {x h}, (x, h) ∈ entries ↔
    Log.Entry S.config.hasher log x h ∧ start ≤ x ∧ x < Log.size log

namespace Unlinked

theorem hash_mem (he : S.Unlinked log a start entries) {x : Nat} {h : KeyHash}
    (hx : (x, h) ∈ entries) : h ∈ (entries.map (·.2)).eraseDups ∧ h.Proper :=
  ⟨List.mem_eraseDups.2 (List.mem_map.2 ⟨_, hx, rfl⟩), (he.mem_iff.1 hx).1.proper⟩

theorem proper (he : S.Unlinked log a start entries) :
    ∀ h ∈ (entries.map (·.2)).eraseDups, h.Proper := by
  intro h hh
  obtain ⟨⟨x, h⟩, hx, rfl⟩ := List.mem_map.1 (List.mem_eraseDups.1 hh)
  exact (he.hash_mem hx).2

end Unlinked

variable (hw : S.Rewinding i z log a w) (he : S.Unlinked log a start entries)
  (hr : S.Rewound log a start (entries.map (·.2)).eraseDups before)
include hw he hr

/-- On top of the heads that rewinding has found, the entries get the links that they are to have,
since no bucket is cut. -/
theorem Rewinding.rangeLinks :
    S.RangeLinks log a start (Log.size log) before entries (Links.chain before entries).2
      (Links.chain before entries).1.toList := by
  have huncut : S.Uncut log a :=
    hw.log ▸ hw.attributes ▸ (hw.inv.coherent.unrecovered hw.unrecovered).2 hw.mode
  refine rangeLinks_of_chain he.sorted he.mem_iff hr.last (fun {x h} hx hn hfirst => ?_)
    (fun hy => Std.ExtTreeMap.mem_toList_iff_getElem?_eq_some.1 hy)
    fun _ hy => Std.ExtTreeMap.mem_toList_iff_getElem?_eq_some.2 hy
  obtain ⟨hentry, hxs, -⟩ := he.mem_iff.1 hx
  have hfloor : S.floor h ≤ start := by
    obtain ⟨n, hn, -, hfloor⟩ := hw.faithful.index
    exact Option.some.inj (he.offset.symm.trans hn) ▸ hfloor h
  exact chained_of_missing hw.faithful he.offset huncut ⟨hentry, Nat.le_trans hfloor hxs⟩ hxs
    (hr.past (he.hash_mem hx).1 hn) hfirst

theorem Rewinding.moves_relink :
    S.Moves i (S.scene w) ((S.scene w).updated (relinking log entries before)) := by
  have hlog : (S.scene w).ghost.log = log := hw.log
  have hlinks := hw.rangeLinks he hr
  rw [← hlog, ← hw.attributes] at hlinks
  rw [relinking, ← hlog]
  refine moves_range hw.inv.coherent (hw.attributes ▸ he.offset) (Log.boundary_size _)
    (hlog ▸ he.le) hlinks (fun hm => ?_) fun _ _ => ⟨hw.mine', rfl⟩
  rw [hw.mode] at hm
  cases hm

theorem Rewinding.indexed_relink (hu : S.Inv u)
    (hwu : S.Sees i ((S.scene w).updated (relinking log entries before)) (S.scene u)) :
    S.Recovering i z u ∧ ∀ x, x < Log.size u.ghost.log → (S.scene u).attributes.Indexed x := by
  have hm := (hw.moves_relink he hr).minds rfl
  obtain ⟨hn, ha⟩ := hwu.recovering hw.mine' hw.unrecovered
  have hu' : S.Recovering i z u :=
    { hw.toRecovering with
      inv := hu
      minds := (hw.minds.trans hm).trans hwu.toMinds
      unrecovered := hn }
  refine ⟨hu', fun x hx => ?_⟩
  have hlog : u.ghost.log = log := (hw.log_eq hu' (hm.trans hwu.toMinds).toGrows).trans hw.log
  rw [ha hw.mode, Scene.updated, hw.attributes]
  exact ((hw.rangeLinks he hr).indexed_iff hw.faithful he.offset (Log.boundary_size log) he.le).2
    (hlog ▸ hx)

/-- Recovery persists the links and forgets the heads of the buckets that have changed. -/
theorem Rewinding.obeys_relink {K : Unit → World Tables Account → Prop}
    (hK : ∀ v, S.Recovering i z v →
      (∀ x, x < Log.size v.ghost.log → (S.scene v).attributes.Indexed x) → K () v)
    (hE : ∀ e v, ¬S.calm → S.Recovering i z v → E e v) :
    (do
      request (.updateAttributes S.segment (relinking log entries before))
      Program.modify fun t => { t with
        cache := (entries.map (·.2)).eraseDups.foldl
          (fun cache hash => cache.erase ⟨S.segment, hash⟩) t.cache } :
        Program Tables Unit).Obeys S.rules i K E w := by
  refine (obeys_bind (request (.updateAttributes S.segment _)) _ _ _).2 ?_
  refine obeys_request_update hw.fresh' (fun t ht hwt => ?_)
    fun e u hc hu hwu => hE e u hc (hw.sees hu hwu).toRecovering
  have ht' := hw.sees ht hwt
  refine ⟨ht'.moves_relink he hr, fun u hu htu => ?_⟩
  obtain ⟨hu', hindexed⟩ := ht'.indexed_relink he hr hu htu
  refine ⟨?_, fun e hc => hE e u hc hu'⟩
  refine obeys_cache (f := fun t => (entries.map (·.2)).eraseDups.foldl
      (fun cache hash => cache.erase ⟨S.segment, hash⟩) t.cache) hu
    (fun hh hy => hu.coherent.cache hh (Cache.of_get?_eraseAll hy).1) fun v hv hm hs ha => ?_
  have hv' : S.Recovering i z v :=
    { hu' with inv := hv, minds := hu'.minds.trans hm, unrecovered := hs ▸ hu'.unrecovered }
  refine hK v hv' fun x hx => ?_
  rw [ha]
  exact hindexed x (hu'.log_eq hv' hm.toGrows ▸ hx)

end Relink

/-- The links of all entries behind the index offset are persisted. -/
theorem obeys_indexRange {start stop : Nat} {K : Unit → World Tables Account → Prop}
    {log : List Record} {a : Attributes} (hw : S.Rewinding i z log a w)
    (hstart : a[AttributeId.indexOffset]? = some start) (hstop : stop = Log.size log)
    (hK : ∀ v, S.Recovering i z v →
      (∀ x, x < Log.size v.ghost.log → (S.scene v).attributes.Indexed x) → K () v)
    (hE : ∀ e v, S.Recovering i z v → (S.calm → ¬S.Bounded v.ghost.log) → E e v) :
    (Tables.indexRange S.config S.segment start stop).Obeys S.rules i K E w := by
  subst hstop
  obtain ⟨n, hn, hbound, -⟩ := hw.faithful.index
  obtain rfl := Option.some.inj (hstart.symm.trans hn)
  have hle := hbound.le
  obtain ⟨b, c, hbc, hb, hc⟩ := Log.exists_range hbound (Log.boundary_size log) hle
  have hcalm {e : TableError} {u : World Tables Account} (hc : ¬S.calm)
      (hu : S.Recovering i z u) : E e u :=
    hE e u hu fun hc' => absurd hc' hc
  have hentries : S.Unlinked log a start (Log.hashed S.config.hasher start c) := by
    refine ⟨hstart, hle, Log.hashed_pairwise .., ?_⟩
    rw [← hc, ← hb]
    exact Log.mem_hashed_range hbc
  unfold Tables.indexRange
  refine obeys_request_bind (.read S.segment start (Log.size log - start)) hw.fresh' (by simp)
    (fun v hv hwv => ?_) fun e u hc hu hwu => hcalm hc (hw.sees hu hwu).toRecovering
  have hv' := hw.sees hv hwv
  refine ⟨_, looks_read hv.stores (by rw [hv'.log]; omega), fun u hu hvu => ?_⟩
  have hu' := hv'.sees hu hvu
  have hdata : (Record.encodeAll recordChecksum v.ghost.log).slice start
      (start + (Log.size log - start)) = Record.encodeAll recordChecksum c := by
    rw [hv'.log]
    exact Log.slice_encodeAll recordChecksum hbc hb (by omega)
  have hwell : Log.Wellformed S.config.hasher c := fun r hr =>
    hu'.inv.coherent.wellformed r (hu'.log ▸ hbc.subset (List.mem_append_right _ hr))
  rw [hdata, Log.hashRecords_encodeAll _ _ hwell, obeys_bind, obeys_ofExcept_ok]
  generalize Log.hashed S.config.hasher start c = entries at hentries
  refine obeys_request_bind (.getAttributes S.segment _) hu'.fresh' (by simp) (fun v hv huv => ?_)
    fun e u hc hu hwu => hcalm hc (hu'.sees hu hwu).toRecovering
  have hv' := hu'.sees hv huv
  refine ⟨_, looks_attributes hv.stores _, fun u hu hvu => ?_⟩
  rw [List.map_map, hv'.attributes, obeys_bind]
  refine obeys_rewindAll (hv'.sees hu hvu) hstart hentries.proper (fun before v hv hr => ?_)
    fun e v hv hb => hE e v hv.toRecovering (hv.log ▸ hb)
  exact hv.obeys_relink hentries hr hK fun e v hc hv => hcalm hc hv

/-- To note how much there was completes the recovery, if nothing of it is left to be linked. -/
theorem Recovering.obeys_complete (hw : S.Recovering i z w)
    (hmark : S.config.mode = .inline → S.start ≤ (S.scene w).state.watermark.offset) :
    (do
      Tables.change S.place ({ · with recovered := some S.start })
      return S.start : Program Tables Nat).Obeys S.rules i
      (fun n v => S.Attending i z v ∧ n = S.start ∧ (S.scene v).state.recovered = some S.start)
      (fun _ v => S.Attending i z v ∧ (S.calm → ¬S.Bounded v.ghost.log)) w := by
  rw [obeys_bind]
  have hm := moves_recovered hw.inv.coherent hw.mine' hw.tracked' hw.unrecovered hmark
  refine obeys_change (f := fun s => { s with recovered := some S.start }) hw.inv hw.tracked'
    w.ghost rfl hm fun v hv hs => ?_
  refine ⟨{ hw.toAttending with inv := hv, minds := hw.minds.trans ?_ }, rfl, by rw [hs]⟩
  exact hs ▸ hm.minds rfl

/-- In the end all entries from before are accounted for, or the attempt has failed. -/
theorem obeys_recoverState (hw : S.Attending i z w) :
    (Tables.recoverState S.config S.segment S.place).Obeys S.rules i
      (fun n v => S.Attending i z v ∧ n = S.start ∧ (S.scene v).state.recovered = some S.start)
      (fun _ v => S.Attending i z v ∧ (S.calm → ¬S.Bounded v.ghost.log)) w := by
  unfold Tables.recoverState
  rw [obeys_bind, obeys_look]
  split
  · next n hn =>
    obtain ⟨-, rfl, -⟩ := hw.inv.coherent.recovered hn
    exact ⟨hw, rfl, hn⟩
  · next hn =>
    have hw : S.Recovering i z w := ⟨hw, hn⟩
    have hfail {u : World Tables Account} (hc : ¬S.calm) (hu : S.Recovering i z u) :
        S.Attending i z u ∧ (S.calm → ¬S.Bounded u.ghost.log) :=
      ⟨hu.toAttending, fun hc' => absurd hc' hc⟩
    rw [obeys_bind]
    refine obeys_attributeOf _ hw.fresh' (fun v u hv hwv hu hvu => ?_)
      fun e u hc hu hwu => hfail hc (hw.sees hu hwu)
    have hv := hw.sees hv hwv
    have hu := hv.sees hu hvu
    obtain ⟨start, hstart, hbound, -⟩ := hv.inv.coherent.faithful.index
    rw [hstart]
    dsimp only [Option.getD_some]
    refine obeys_ask_bind (.length S.segment) hu.fresh' (by simp) (fun t ht hut => ?_)
      fun e t hc ht hut => hfail hc (hu.sees ht hut)
    have ht := hu.sees ht hut
    refine ⟨_, looks_length ht.inv.stores, fun r hr htr => ?_⟩
    have hr := ht.sees hr htr
    rw [ht.size, obeys_bind]
    have hgrow := (hvu.toMinds.trans (hut.toMinds.trans htr.toMinds)).toGrows
    -- The offset was read a while ago, and has only moved forward since.
    refine obeys_raise hr.inv hr.tracked' (hbound.mono hgrow.log) (fun {x h} he hx => ?_)
      fun b hb hm hs ha => ?_
    · exact hr.inv.coherent.faithful.indexed he
        (Attributes.Indexed.advance hgrow.attributes ⟨start, hstart, hx⟩)
    have hb : S.Recovering i z b :=
      { hr with
        inv := hb
        minds := hr.minds.trans hm
        unrecovered := by rw [hs]; exact hr.unrecovered }
    split
    · next hlt =>
      cases hmode : S.config.mode with
      | deferred =>
        dsimp only
        exact hb.obeys_complete fun hm => by rw [hmode] at hm; cases hm
      | inline =>
        dsimp only
        have ha' : (S.scene b).attributes = (S.scene v).attributes := by
          rw [ha, ht.attributes_eq hmode htr, hu.attributes_eq hmode hut,
            hv.attributes_eq hmode hvu]
        rw [obeys_bind]
        refine obeys_indexRange ⟨hb, hmode, rfl, rfl⟩ (ha' ▸ hstart) hb.size.symm
          (fun c hc hindexed => ?_) fun e c hc hbad => ⟨hc.toAttending, hbad⟩
        rw [obeys_bind]
        refine obeys_raise hc.inv hc.tracked' (hc.size ▸ Log.boundary_size _)
          (fun he hx => hc.inv.coherent.faithful.indexed he (hindexed _ he.lt))
          fun d hd hcd hs' _ => ?_
        have hd : S.Recovering i z d :=
          { hc with inv := hd, minds := hc.minds.trans hcd, unrecovered := hs' ▸ hc.unrecovered }
        refine hd.obeys_complete fun _ => ?_
        rw [hs']
        exact (Watermark.raise_le _).2
    · next hge =>
      refine hb.obeys_complete fun _ => ?_
      have := (Watermark.raise_le (w := (S.scene r).state.watermark) start).2
      rw [hs]
      dsimp only
      omega

end KeyedLog.Site
