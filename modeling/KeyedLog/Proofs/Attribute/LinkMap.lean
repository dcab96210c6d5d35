import KeyedLog.Proofs.Log.Buckets
import KeyedLog.Proofs.Segment.LinkUpdates

/-! The map of all links of a log. There is just one, and linking one more run of entries leads from
the map of a log to that of a longer one. -/
namespace KeyedLog

namespace Attributes

/-- The attributes are the links of all entries, and nothing besides. -/
structure JustLinks (a : Attributes) (length : Nat) (bucket : KeyHash → List Nat) : Prop where
  index : a[AttributeId.indexOffset]? = some length
  head : ∀ h : KeyHash, h.Proper → LastBefore (· ∈ bucket h) length a[AttributeId.bucket h]?
  backpointer : ∀ h, ∀ x ∈ bucket h, LastBefore (· ∈ bucket h) x a[AttributeId.backpointer x]?
  only : ∀ {id : AttributeId} {v : Nat}, a[id]? = some v → id = .indexOffset ∨
    (∃ h : KeyHash, h.Proper ∧ id = .bucket h) ∨ ∃ h, ∃ x ∈ bucket h, id = .backpointer x

/-- Updates, in whatever order, that link a run of records behind a log. The heads that their
buckets had so far are known. -/
structure LinkRun (hasher : Hasher) (log c : List Record) (a : Attributes) (before : Heads)
    (heads : List (KeyHash × Nat)) (us : List AttributeUpdate) : Prop where
  known : ∀ {x h}, (x, h) ∈ Log.hashed hasher (Log.size log) c →
    before[h]? = a[AttributeId.bucket h]?
  moved : ∀ {h y}, (h, y) ∈ heads ↔ (∃ x, (x, h) ∈ Log.hashed hasher (Log.size log) c) ∧
    (Links.chain before (Log.hashed hasher (Log.size log) c)).1[h]? = some y
  updates : ∀ u, u ∈ us ↔ u ∈ Site.rangeUpdates
    (Links.chain before (Log.hashed hasher (Log.size log) c)).2 heads (Log.size (log ++ c))

namespace JustLinks

variable {a b : Attributes} {hasher : Hasher} {log c : List Record} {before : Heads}
  {heads : List (KeyHash × Nat)} {us : List AttributeUpdate} {u : AttributeUpdate} {h : KeyHash}
  {x y : Nat} {p q : Option Nat}

/-- The links of a log determine the attributes. -/
theorem unique {length : Nat} {bucket : KeyHash → List Nat} (ha : JustLinks a length bucket)
    (hb : JustLinks b length bucket) : a = b := by
  have hsame (id : AttributeId) (hid : id = .indexOffset ∨
      (∃ h : KeyHash, h.Proper ∧ id = .bucket h) ∨ ∃ h, ∃ x ∈ bucket h, id = .backpointer x) :
      a[id]? = b[id]? := by
    rcases hid with rfl | ⟨h, hh, rfl⟩ | ⟨h, x, hx, rfl⟩
    · exact ha.index.trans hb.index.symm
    · exact (ha.head h hh).unique (hb.head h hh)
    · exact (ha.backpointer h x hx).unique (hb.backpointer h x hx)
  refine Std.ExtTreeMap.ext_getElem? fun id => ?_
  cases hv : a[id]? with
  | some v => exact hv.symm.trans (hsame id (ha.only hv))
  | none =>
    cases hw : b[id]? with
    | none => rfl
    | some w => exact hv.symm.trans ((hsame id (hb.only hw)).trans hw)

theorem head_lastBefore (ha : JustLinks a (Log.size log) (Log.bucket hasher log)) (hh : h.Proper) :
    LastBefore (Log.Entry hasher log · h) (Log.size log) a[AttributeId.bucket h]? :=
  (ha.head h hh).congr fun _ _ => Log.mem_bucket

theorem lt_of_backpointer (ha : JustLinks a (Log.size log) (Log.bucket hasher log))
    (hv : a[AttributeId.backpointer x]? = some y) : x < Log.size log := by
  rcases ha.only hv with hid | ⟨h, hh, hid⟩ | ⟨h, z, hz, hid⟩
  · exact absurd hid (AttributeId.backpointer_ne_indexOffset x)
  · exact absurd hid.symm (AttributeId.bucket_ne_backpointer hh x)
  · obtain rfl := AttributeId.backpointer_inj.1 hid
    exact (Log.mem_bucket.1 hz).lt

theorem entry_append_iff (hx : x < Log.size log) :
    Log.Entry hasher (log ++ c) x h ↔ Log.Entry hasher log x h :=
  ⟨fun he => he.of_lt (List.prefix_append ..) hx, fun he => he.mono (List.prefix_append ..)⟩

theorem mem_hashed_append : (x, h) ∈ Log.hashed hasher (Log.size log) c ↔
    Log.Entry hasher (log ++ c) x h ∧ Log.size log ≤ x ∧ x < Log.size (log ++ c) := by
  rw [Log.size_append]
  exact Log.mem_hashed_range List.prefix_rfl

section Append

variable (ha : JustLinks a (Log.size log) (Log.bucket hasher log))
  (hl : LinkRun hasher log c a before heads us)

include hl in
theorem mem_updates (hu : u ∈ us) :
    (∃ x p, (x, some p) ∈ (Links.chain before (Log.hashed hasher (Log.size log) c)).2 ∧
      u = .replace (.backpointer x) p) ∨
    (∃ h y x, (x, h) ∈ Log.hashed hasher (Log.size log) c ∧ h.Proper ∧
      (Links.chain before (Log.hashed hasher (Log.size log) c)).1[h]? = some y ∧
      u = .replaceIfGreater (.bucket h) y) ∨
    u = .replaceIfGreater .indexOffset (Log.size (log ++ c)) := by
  refine (Site.mem_rangeUpdates.1 ((hl.updates u).1 hu)).imp_right (.imp_left ?_)
  rintro ⟨h, y, hy, rfl⟩
  obtain ⟨⟨x, hx⟩, hy⟩ := hl.moved.1 hy
  exact ⟨h, y, x, hx, (mem_hashed_append.1 hx).1.proper, hy, rfl⟩

include ha hl

theorem lastBefore_or {bound : Nat} (hx : (x, h) ∈ Log.hashed hasher (Log.size log) c)
    (hlo : Log.size log ≤ bound) (hhi : bound ≤ Log.size (log ++ c))
    (hq : LastBefore (Of (Log.hashed hasher (Log.size log) c) h) bound q) :
    LastBefore (Log.Entry hasher (log ++ c) · h) bound (q.or before[h]?) := by
  have hh := (mem_hashed_append.1 hx).1.proper
  refine Links.lastBefore_or hlo
    (fun x he hlo hlt => mem_hashed_append.2 ⟨he, hlo, Nat.lt_of_lt_of_le hlt hhi⟩)
    (fun x hx => ⟨(mem_hashed_append.1 hx).1, (mem_hashed_append.1 hx).2.1⟩) hq fun _ => ?_
  rw [hl.known hx]
  exact (ha.head_lastBefore hh).congr
    fun x hlt => (entry_append_iff hlt).symm

theorem lastBefore_of_backpointer
    (hp : (x, p) ∈ (Links.chain before (Log.hashed hasher (Log.size log) c)).2) :
    ∃ h, (x, h) ∈ Log.hashed hasher (Log.size log) c ∧
      LastBefore (Log.Entry hasher (log ++ c) · h) x p := by
  obtain ⟨h, q, hx, hq, rfl⟩ := Links.chain_backpointers (Log.hashed_pairwise ..) hp
  obtain ⟨-, hlo, hhi⟩ := mem_hashed_append.1 hx
  exact ⟨h, hx, ha.lastBefore_or hl hx hlo (Nat.le_of_lt hhi) hq⟩

theorem lastBefore_of_head (hx : (x, h) ∈ Log.hashed hasher (Log.size log) c) :
    ∃ y, (Links.chain before (Log.hashed hasher (Log.size log) c)).1[h]? = some y ∧
      Log.size log ≤ y ∧
      LastBefore (Log.Entry hasher (log ++ c) · h) (Log.size (log ++ c)) (some y) := by
  obtain ⟨he, hlo, hhi⟩ := mem_hashed_append.1 hx
  obtain ⟨q, hq, hc⟩ := @Links.chain_heads before _ (Log.hashed_pairwise hasher (Log.size log) c)
    (Log.size (log ++ c)) (fun e he => (mem_hashed_append.1 he).2.2) h
  have hlast := ha.lastBefore_or hl hx (Nat.le_trans hlo (Nat.le_of_lt hhi)) (Nat.le_refl _) hq
  obtain ⟨y, hy, hle⟩ := hlast.2 x he hhi
  exact ⟨y, hc.trans hy, Nat.le_trans hlo hle, hy ▸ hlast⟩

theorem index_append : (a.updateAll us)[AttributeId.indexOffset]? =
    some (Log.size (log ++ c)) := by
  have hindex {u : AttributeUpdate} (hu : u ∈ us) (hid : u.id = .indexOffset) :
      u = .replaceIfGreater .indexOffset (Log.size (log ++ c)) := by
    rcases mem_updates hl hu with ⟨x, p, -, rfl⟩ | ⟨h, y, x, -, hh, -, rfl⟩ | rfl
    · exact absurd hid (AttributeId.backpointer_ne_indexOffset x)
    · exact absurd hid (AttributeId.bucket_ne_indexOffset hh)
    · rfl
  have hmem : .replaceIfGreater .indexOffset (Log.size (log ++ c)) ∈ us :=
    (hl.updates _).2 (Site.mem_rangeUpdates.2 (.inr (.inr rfl)))
  obtain ⟨n, hn, hle⟩ : ∃ n, (a.updateAll us)[AttributeId.indexOffset]? = some n ∧
      Log.size (log ++ c) ≤ n :=
    updateAll_grows (fun u hu hid => congrArg AttributeUpdate.rule (hindex hu hid))
      (.inl ⟨_, hmem, rfl, Nat.le_refl _⟩)
  have hn' : n ≤ Log.size (log ++ c) := by
    rcases updateAll_cases hn with hold | ⟨u, hu, hid, rfl⟩
    · rw [Log.size_append]
      have := Option.some.inj (ha.index.symm.trans hold)
      omega
    · exact Nat.le_of_eq (congrArg AttributeUpdate.value (hindex hu hid))
  rw [hn, Nat.le_antisymm hn' hle]

include hl in
omit ha in
theorem mem_updates_bucket (hh : h.Proper) (hu : u ∈ us) (hid : u.id = .bucket h) :
    ∃ y x, (x, h) ∈ Log.hashed hasher (Log.size log) c ∧
      (Links.chain before (Log.hashed hasher (Log.size log) c)).1[h]? = some y ∧
      u = .replaceIfGreater (.bucket h) y := by
  rcases mem_updates hl hu with ⟨x, p, -, rfl⟩ | ⟨h', y, x, hx, -, hy, rfl⟩ | rfl
  · exact absurd hid.symm (AttributeId.bucket_ne_backpointer hh x)
  · obtain rfl := AttributeId.bucket_inj.1 hid
    exact ⟨y, x, hx, hy, rfl⟩
  · exact absurd hid.symm (AttributeId.bucket_ne_indexOffset hh)

theorem head_of_moved (hy : (h, y) ∈ heads) :
    (a.updateAll us)[AttributeId.bucket h]? = some y ∧
      LastBefore (Log.Entry hasher (log ++ c) · h) (Log.size (log ++ c)) (some y) := by
  obtain ⟨⟨x, hx⟩, hchain⟩ := hl.moved.1 hy
  have hh := (mem_hashed_append.1 hx).1.proper
  obtain ⟨y', hy', hlo, hlast⟩ := ha.lastBefore_of_head hl hx
  obtain rfl := Option.some.inj (hy'.symm.trans hchain)
  have hmem : .replaceIfGreater (.bucket h) y' ∈ us :=
    (hl.updates _).2 (Site.mem_rangeUpdates.2 (.inr (.inl ⟨h, y', hy, rfl⟩)))
  obtain ⟨z, hz, hle⟩ : ∃ z, (a.updateAll us)[AttributeId.bucket h]? = some z ∧ y' ≤ z := by
    refine updateAll_grows (fun u hu hid => ?_) (.inl ⟨_, hmem, rfl, Nat.le_refl _⟩)
    obtain ⟨_, _, -, -, rfl⟩ := mem_updates_bucket hl hh hu hid
    rfl
  have hz' : z ≤ y' := by
    rcases updateAll_cases hz with hz | ⟨u, hu, hid, rfl⟩
    · have hold := ha.head_lastBefore hh
      rw [hz] at hold
      have := hold.lt
      omega
    · obtain ⟨v, _, -, hv, rfl⟩ := mem_updates_bucket hl hh hu hid
      exact Nat.le_of_eq (Option.some.inj (hv.symm.trans hy'))
  exact ⟨by rw [hz, Nat.le_antisymm hz' hle], hlast⟩

omit ha in
theorem head_of_unmoved (hh : h.Proper) (hn : ∀ y, (h, y) ∉ heads) :
    (a.updateAll us)[AttributeId.bucket h]? = a[AttributeId.bucket h]? := by
  refine updateAll_of_ne fun u hu hid => ?_
  obtain ⟨y, x, hx, hy, -⟩ := mem_updates_bucket hl hh hu hid
  exact hn y (hl.moved.2 ⟨⟨x, hx⟩, hy⟩)

theorem head_append (hh : h.Proper) :
    LastBefore (Log.Entry hasher (log ++ c) · h) (Log.size (log ++ c))
      (a.updateAll us)[AttributeId.bucket h]? := by
  by_cases hin : ∃ x, (x, h) ∈ Log.hashed hasher (Log.size log) c
  · obtain ⟨x, hx⟩ := hin
    obtain ⟨y, hy, -⟩ := ha.lastBefore_of_head hl hx
    obtain ⟨hhead, hlast⟩ := head_of_moved ha hl (hl.moved.2 ⟨⟨x, hx⟩, hy⟩)
    rwa [hhead]
  · rw [head_of_unmoved hl hh fun y hy => hin (hl.moved.1 hy).1]
    have hold (x : Nat) (he : Log.Entry hasher (log ++ c) x h) : x < Log.size log :=
      Nat.lt_of_not_le fun hlo => hin ⟨x, mem_hashed_append.2 ⟨he, hlo, he.lt⟩⟩
    refine ((ha.head_lastBefore hh).congr fun x hlt => (entry_append_iff hlt).symm).widen ?_
      fun x hx _ => hold x hx
    rw [Log.size_append]
    omega

theorem backpointer_append (hx : Log.Entry hasher (log ++ c) x h) :
    LastBefore (Log.Entry hasher (log ++ c) · h) x
      (a.updateAll us)[AttributeId.backpointer x]? := by
  have hback {u : AttributeUpdate} (hu : u ∈ us) (hid : u.id = .backpointer x) :
      ∃ p, (x, some p) ∈ (Links.chain before (Log.hashed hasher (Log.size log) c)).2 ∧
        u = .replace (.backpointer x) p := by
    rcases mem_updates hl hu with ⟨y, p, hp, rfl⟩ | ⟨h', y, _, -, hh, -, rfl⟩ | rfl
    · obtain rfl := AttributeId.backpointer_inj.1 hid
      exact ⟨p, hp, rfl⟩
    · exact absurd hid (AttributeId.bucket_ne_backpointer hh x)
    · exact absurd hid.symm (AttributeId.backpointer_ne_indexOffset x)
  have hlate {p : Option Nat}
      (hp : (x, p) ∈ (Links.chain before (Log.hashed hasher (Log.size log) c)).2) :
      Log.size log ≤ x ∧ LastBefore (Log.Entry hasher (log ++ c) · h) x p := by
    obtain ⟨h', hx', hlast⟩ := ha.lastBefore_of_backpointer hl hp
    obtain ⟨he, hlo, -⟩ := mem_hashed_append.1 hx'
    exact ⟨hlo, hx.unique he ▸ hlast⟩
  by_cases hlo : Log.size log ≤ x
  · have hmem : x ∈ (Links.chain before (Log.hashed hasher (Log.size log) c)).2.map (·.1) := by
      rw [Links.chain_offsets]
      exact List.mem_map.2 ⟨_, mem_hashed_append.2 ⟨hx, hlo, hx.lt⟩, rfl⟩
    obtain ⟨⟨y, p⟩, hp, hy⟩ := List.mem_map.1 hmem
    obtain rfl : y = x := hy
    obtain ⟨-, hlast⟩ := hlate hp
    cases p with
    | some p =>
      have hmem : .replace (.backpointer y) p ∈ us :=
        (hl.updates _).2 (Site.mem_rangeUpdates.2 (.inl ⟨y, p, hp, rfl⟩))
      have hwritten : (a.updateAll us)[AttributeId.backpointer y]? = some p := by
        refine updateAll_replaced (fun u hu hid => ?_) (.inl ⟨_, hmem, rfl⟩)
        obtain ⟨p', hp', rfl⟩ := hback hu hid
        rw [Option.some.inj ((hlate hp').2.unique hlast)]
      rwa [hwritten]
    | none =>
      rw [updateAll_of_ne fun u hu hid => by
        obtain ⟨p', hp', -⟩ := hback hu hid
        cases (hlate hp').2.unique hlast]
      cases hv : a[AttributeId.backpointer y]? with
      | none => exact hlast
      | some v => exact absurd (ha.lt_of_backpointer hv) (Nat.not_lt.2 hlo)
  · rw [updateAll_of_ne fun u hu hid => by
      obtain ⟨p, hp, -⟩ := hback hu hid
      exact hlo (hlate hp).1]
    have hlt := Nat.lt_of_not_le hlo
    have hx' := (entry_append_iff hlt).1 hx
    refine (ha.backpointer h x (Log.mem_bucket.2 hx')).congr fun y hy => ?_
    rw [Log.mem_bucket, entry_append_iff (Nat.lt_trans hy hlt)]

/-- Linking more entries leads to the map of all of them. -/
theorem append :
    JustLinks (a.updateAll us) (Log.size (log ++ c)) (Log.bucket hasher (log ++ c)) where
  index := index_append ha hl
  head h hh := (head_append ha hl hh).congr fun x _ => Log.mem_bucket.symm
  backpointer h x hx :=
    (backpointer_append ha hl (Log.mem_bucket.1 hx)).congr fun x _ => Log.mem_bucket.symm
  only {id v} hv := by
    rcases updateAll_cases hv with hv | ⟨u, hu, rfl, -⟩
    · refine (ha.only hv).imp_right (.imp_right ?_)
      rintro ⟨h, x, hx, rfl⟩
      have hx := (Log.mem_bucket.1 hx).mono (List.prefix_append log c)
      exact ⟨h, x, Log.mem_bucket.2 hx, rfl⟩
    · rcases mem_updates hl hu with ⟨x, p, hp, rfl⟩ | ⟨h, y, x, -, hh, -, rfl⟩ | rfl
      · obtain ⟨h, hx, -⟩ := ha.lastBefore_of_backpointer hl hp
        exact .inr (.inr ⟨h, x, Log.mem_bucket.2 (mem_hashed_append.1 hx).1, rfl⟩)
      · exact .inr (.inl ⟨h, hh, rfl⟩)
      · exact .inl rfl

end Append

end JustLinks
end Attributes

abbrev Log.LinkMap (hasher : Hasher) (log : List Record) (a : Attributes) : Prop :=
  Attributes.JustLinks a (size log) (bucket hasher log)

end KeyedLog
