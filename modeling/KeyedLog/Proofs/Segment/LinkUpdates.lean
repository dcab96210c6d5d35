import KeyedLog.Proofs.Segment.Steps

/-! Attribute updates that write nothing but true links, among them those that link a whole range of
the log. -/
namespace KeyedLog.Site

/-- A true link, or a position between records. -/
inductive TrueUpdate (S : Site) (log : List Record) : AttributeUpdate → Prop
  | backpointer {x p : Nat} {h : KeyHash} (he : S.Entry log x h)
      (hp : LastBefore (S.Entry log · h) x (some p)) :
      TrueUpdate S log (.replace (.backpointer x) p)
  | bucket {y : Nat} {h : KeyHash} (he : S.Entry log y h) :
      TrueUpdate S log (.replaceIfGreater (.bucket h) y)
  | index {n : Nat} (hb : Log.Boundary log n) :
      TrueUpdate S log (.replaceIfGreater .indexOffset n)

variable {S : Site} {log : List Record} {g : Ledger} {a : Attributes} {u : AttributeUpdate}
  {us : List AttributeUpdate} {x y p n : Nat} {h : KeyHash}

namespace TrueUpdate

theorem of_backpointer (hu : S.TrueUpdate log u) (hid : u.id = .backpointer x) :
    ∃ p h, u = .replace (.backpointer x) p ∧ S.Entry log x h ∧
      LastBefore (S.Entry log · h) x (some p) := by
  cases hu with
  | backpointer he hp =>
    obtain rfl := AttributeId.backpointer_inj.1 hid
    exact ⟨_, _, rfl, he, hp⟩
  | bucket he => exact absurd hid (AttributeId.bucket_ne_backpointer he.proper x)
  | index => exact absurd hid.symm (AttributeId.backpointer_ne_indexOffset x)

theorem of_bucket (hu : S.TrueUpdate log u) (hh : h.Proper) (hid : u.id = .bucket h) :
    ∃ y, u = .replaceIfGreater (.bucket h) y ∧ S.Entry log y h := by
  cases hu with
  | backpointer => exact absurd hid.symm (AttributeId.bucket_ne_backpointer hh _)
  | bucket he =>
    obtain rfl := AttributeId.bucket_inj.1 hid
    exact ⟨_, rfl, he⟩
  | index => exact absurd hid.symm (AttributeId.bucket_ne_indexOffset hh)

theorem of_index (hu : S.TrueUpdate log u) (hid : u.id = .indexOffset) :
    ∃ n, u = .replaceIfGreater .indexOffset n ∧ Log.Boundary log n := by
  cases hu with
  | backpointer => exact absurd hid (AttributeId.backpointer_ne_indexOffset _)
  | bucket he => exact absurd hid (AttributeId.bucket_ne_indexOffset he.proper)
  | index hb => exact ⟨_, rfl, hb⟩

end TrueUpdate

section True

variable (hf : S.Faithful g a) (hu : ∀ u ∈ us, S.TrueUpdate g.log u)
include hu

theorem updateAll_backpointer (he : S.Entry g.log x h)
    (hp : LastBefore (S.Entry g.log · h) x (some p))
    (hx : .replace (.backpointer x) p ∈ us ∨ a[AttributeId.backpointer x]? = some p) :
    (a.updateAll us)[AttributeId.backpointer x]? = some p := by
  refine Attributes.updateAll_replaced (fun u hmem hid => ?_) (hx.imp_left fun hm => ⟨_, hm, rfl⟩)
  obtain ⟨q, h', rfl, he', hq⟩ := (hu u hmem).of_backpointer hid
  obtain rfl := he.unique he'
  rw [Option.some.inj (hq.unique hp)]

theorem updateAll_bucket (hh : h.Proper)
    (hx : .replaceIfGreater (.bucket h) y ∈ us ∨ ∃ z, a[AttributeId.bucket h]? = some z ∧ y ≤ z) :
    ∃ z, (a.updateAll us)[AttributeId.bucket h]? = some z ∧ y ≤ z := by
  refine Attributes.updateAll_grows (fun u hmem hid => ?_)
    (hx.imp_left fun hm => ⟨_, hm, rfl, Nat.le_refl _⟩)
  obtain ⟨z, rfl, -⟩ := (hu u hmem).of_bucket hh hid
  rfl

theorem updateAll_index
    (hx : .replaceIfGreater .indexOffset n ∈ us ∨
      ∃ m, a[AttributeId.indexOffset]? = some m ∧ n ≤ m) :
    ∃ m, (a.updateAll us)[AttributeId.indexOffset]? = some m ∧ n ≤ m := by
  refine Attributes.updateAll_grows (fun u hmem hid => ?_)
    (hx.imp_left fun hm => ⟨_, hm, rfl, Nat.le_refl _⟩)
  obtain ⟨m, rfl, -⟩ := (hu u hmem).of_index hid
  rfl

include hf

theorem advances_updateAll : a.Advances (a.updateAll us) where
  backpointer {x p} hp := by
    by_cases hx : ∃ u ∈ us, u.id = .backpointer x
    · obtain ⟨u, hmem, hid⟩ := hx
      obtain ⟨q, h, rfl, he, -⟩ := (hu u hmem).of_backpointer hid
      exact updateAll_backpointer hu he (hf.backpointer hp he) (.inr hp)
    · rw [Attributes.updateAll_of_ne fun u hmem hid => hx ⟨u, hmem, hid⟩]
      exact hp
  bucket hh hy := updateAll_bucket hu hh (.inr ⟨_, hy, Nat.le_refl _⟩)
  index hn := updateAll_index hu (.inr ⟨_, hn, Nat.le_refl _⟩)

theorem updateAll_true {q : Nat} (hq : (a.updateAll us)[AttributeId.backpointer x]? = some q)
    (he : S.Entry g.log x h) : LastBefore (S.Entry g.log · h) x (some q) := by
  rcases Attributes.updateAll_cases hq with hq | ⟨u, hmem, hid, rfl⟩
  · exact hf.backpointer hq he
  · obtain ⟨p, h', rfl, he', hp⟩ := (hu u hmem).of_backpointer hid
    obtain rfl := he.unique he'
    exact hp

/-- Attributes stay true if heads are written that can be followed, and if all that counts as
indexed afterwards is persisted. -/
theorem faithful_updateAll
    (hb : ∀ {h y}, h.Proper → .replaceIfGreater (.bucket h) y ∈ us →
      ¬g.Fresh y ∨ (a.updateAll us).Indexed y)
    (hd : S.config.mode = .deferred → ∀ {h y}, h.Proper →
      .replaceIfGreater (.bucket h) y ∈ us → (a.updateAll us).Indexed y)
    (hi : ∀ {x h}, S.Entry g.log x h → (a.updateAll us).Indexed x →
      S.Persisted g.log (a.updateAll us) x h) : S.Faithful g (a.updateAll us) := by
  have ha := advances_updateAll hf hu
  have hbucket {h : KeyHash} {y : Nat} (hh : h.Proper)
      (hy : (a.updateAll us)[AttributeId.bucket h]? = some y) :
      a[AttributeId.bucket h]? = some y ∨
        .replaceIfGreater (.bucket h) y ∈ us ∧ S.Entry g.log y h := by
    rcases Attributes.updateAll_cases hy with hy | ⟨u, hmem, hid, rfl⟩
    · exact .inl hy
    · obtain ⟨y, rfl, he⟩ := (hu u hmem).of_bucket hh hid
      exact .inr ⟨hmem, he⟩
  refine
    { index := ?_
      indexed := hi
      backpointer_lt := fun {x p} hp => ?_
      backpointer := updateAll_true hf hu
      bucket := fun hh hy => ?_
      deferred := fun hm {h y} hh hy => ?_ }
  · obtain ⟨n, hn, hbound, hfloor⟩ := hf.index
    obtain ⟨m, hm, hle⟩ := ha.index hn
    refine ⟨m, hm, ?_, fun h => Nat.le_trans (hfloor h) hle⟩
    rcases Attributes.updateAll_cases hm with hm | ⟨u, hmem, hid, rfl⟩
    · rw [hn] at hm
      rwa [← Option.some.inj hm]
    · obtain ⟨k, rfl, hk⟩ := (hu u hmem).of_index hid
      exact hk
  · rcases Attributes.updateAll_cases hp with hp | ⟨u, hmem, hid, rfl⟩
    · exact hf.backpointer_lt hp
    · obtain ⟨q, h, -, he, -⟩ := (hu u hmem).of_backpointer hid
      exact he.lt
  · rcases hbucket hh hy with hy | ⟨hmem, he⟩
    · exact (hf.bucket hh hy).grow List.prefix_rfl ha id
    · exact ⟨he, hb hh hmem⟩
  · rcases hbucket hh hy with hy | ⟨hmem, -⟩
    · exact (hf.deferred hm hh hy).advance ha
    · exact hd hm hh hmem

end True

section Range

variable {start stop : Nat} {entries : List (Nat × KeyHash)} {before : Heads}
  {backpointers : List (Nat × Option Nat)} {heads : List (KeyHash × Nat)}

/-- The links of all entries in a range, given the heads of their buckets before it. -/
structure RangeLinks (S : Site) (log : List Record) (a : Attributes) (start stop : Nat)
    (before : Heads) (entries : List (Nat × KeyHash)) (backpointers : List (Nat × Option Nat))
    (heads : List (KeyHash × Nat)) : Prop where
  mem_iff : ∀ {x h}, (x, h) ∈ entries ↔ Log.Entry S.config.hasher log x h ∧ start ≤ x ∧ x < stop
  last : ∀ {h y}, before[h]? = some y → LastBefore (S.Entry log · h) start (some y)
  /-- A bucket may be taken for empty if its first entry in the range is linked already. -/
  missing : ∀ {x h}, (x, h) ∈ entries → before[h]? = none →
    (∀ z, S.Entry log z h → z < x → z < start) → S.Chained log a x h
  backpointer : ∀ {x p}, (x, p) ∈ backpointers →
    ∃ h q, (x, h) ∈ entries ∧ LastBefore (Of entries h) x q ∧ p = q.or before[h]?
  linked : ∀ {x h}, (x, h) ∈ entries → ∃ p, (x, p) ∈ backpointers
  head : ∀ {h y}, (h, y) ∈ heads → ∃ q, LastBefore (Of entries h) stop q ∧ some y = q.or before[h]?
  rooted : ∀ {x h}, (x, h) ∈ entries → ∃ y, (h, y) ∈ heads ∧ x ≤ y

def rangeUpdates (backpointers : List (Nat × Option Nat)) (heads : List (KeyHash × Nat))
    (stop : Nat) : List AttributeUpdate :=
  Links.backpointerUpdates backpointers ++ Links.headUpdates heads ++
    [.replaceIfGreater .indexOffset stop]

theorem mem_rangeUpdates :
    u ∈ rangeUpdates backpointers heads stop ↔
      (∃ x p, (x, some p) ∈ backpointers ∧ u = .replace (.backpointer x) p) ∨
      (∃ h y, (h, y) ∈ heads ∧ u = .replaceIfGreater (.bucket h) y) ∨
      u = .replaceIfGreater .indexOffset stop := by
  simp only [rangeUpdates, List.mem_append, Links.mem_backpointerUpdates, Links.mem_headUpdates,
    List.mem_singleton, or_assoc]

/-- Linking the entries of a range one after the other links all of them. -/
theorem rangeLinks_of_chain (hs : entries.Pairwise fun a b => a.1 < b.1)
    (hmem : ∀ {x h}, (x, h) ∈ entries ↔
      Log.Entry S.config.hasher log x h ∧ start ≤ x ∧ x < stop)
    (hlast : ∀ {h y}, before[h]? = some y → LastBefore (S.Entry log · h) start (some y))
    (hmissing : ∀ {x h}, (x, h) ∈ entries → before[h]? = none →
      (∀ z, S.Entry log z h → z < x → z < start) → S.Chained log a x h)
    (hsound : ∀ {h y}, (h, y) ∈ heads → (Links.chain before entries).1[h]? = some y)
    (hfull : ∀ {x h y}, (x, h) ∈ entries → (Links.chain before entries).1[h]? = some y →
      (h, y) ∈ heads) :
    S.RangeLinks log a start stop before entries (Links.chain before entries).2 heads where
  mem_iff := hmem
  last := hlast
  missing := hmissing
  backpointer := Links.chain_backpointers hs
  linked {x h} hx := by
    have hx : x ∈ (Links.chain before entries).2.map (·.1) := by
      rw [Links.chain_offsets]
      exact List.mem_map.2 ⟨_, hx, rfl⟩
    obtain ⟨⟨y, p⟩, hp, rfl⟩ := List.mem_map.1 hx
    exact ⟨p, hp⟩
  head {h y} hy := by
    obtain ⟨q, hq, hc⟩ := @Links.chain_heads before _ hs stop (fun e he => (hmem.1 he).2.2) h
    exact ⟨q, hq, (hsound hy).symm.trans hc⟩
  rooted {x h} hx := by
    obtain ⟨q, hq, hc⟩ := @Links.chain_heads before _ hs stop (fun e he => (hmem.1 he).2.2) h
    obtain ⟨y, rfl, hxy⟩ := hq.2 x hx (hmem.1 hx).2.2
    exact ⟨y, hfull hx hc, hxy⟩

namespace RangeLinks

variable (hf : S.Faithful g a) (hstart : a[AttributeId.indexOffset]? = some start)
  (hstop : Log.Boundary g.log stop) (hle : start ≤ stop)
  (hl : S.RangeLinks g.log a start stop before entries backpointers heads)

include hl

theorem mem_of_entry (he : S.Entry g.log x h) (hs : start ≤ x) (hx : x < stop) :
    Of entries h x :=
  hl.mem_iff.2 ⟨he.1, hs, hx⟩

include hf hstart

theorem entry (hx : (x, h) ∈ entries) : S.Entry g.log x h ∧ start ≤ x ∧ x < stop := by
  obtain ⟨he, hs, hlt⟩ := hl.mem_iff.1 hx
  obtain ⟨n, hn, -, hfloor⟩ := hf.index
  obtain rfl := Option.some.inj (hstart.symm.trans hn)
  exact ⟨⟨he, Nat.le_trans (hfloor h) hs⟩, hs, hlt⟩

theorem lastBefore {bound : Nat} {q : Option Nat} (hsb : start ≤ bound) (hbs : bound ≤ stop)
    (hq : LastBefore (Of entries h) bound q) (hp : q.or before[h]? = some p) :
    LastBefore (S.Entry g.log · h) bound (some p) := by
  have hout (z : Nat) (hz : Of entries h z) : S.Entry g.log z h ∧ start ≤ z :=
    (hl.entry hf hstart hz).imp_right And.left
  refine hp ▸ Links.lastBefore_or hsb
    (fun z he hs hz => hl.mem_of_entry he hs (Nat.lt_of_lt_of_le hz hbs)) hout hq fun hn => ?_
  have hp : before[h]? = some p := by rwa [hn, Option.none_or] at hp
  rw [hp]
  exact hl.last hp

include hle

theorem entry_of_head (hy : (h, y) ∈ heads) : S.Entry g.log y h ∧ y < stop := by
  obtain ⟨q, hq, hyq⟩ := hl.head hy
  have hlast := hl.lastBefore hf hstart hle (Nat.le_refl _) hq hyq.symm
  exact ⟨hlast.mem, hlast.lt⟩

include hstop

theorem trueUpdate (hu : u ∈ rangeUpdates backpointers heads stop) : S.TrueUpdate g.log u := by
  rcases mem_rangeUpdates.1 hu with ⟨x, p, hp, rfl⟩ | ⟨h, y, hy, rfl⟩ | rfl
  · obtain ⟨h, q, hx, hq, hpq⟩ := hl.backpointer hp
    obtain ⟨he, hs, hlt⟩ := hl.entry hf hstart hx
    exact .backpointer he (hl.lastBefore hf hstart hs (Nat.le_of_lt hlt) hq hpq.symm)
  · exact .bucket (hl.entry_of_head hf hstart hle hy).1
  · exact .index hstop

theorem indexed_iff :
    (a.updateAll (rangeUpdates backpointers heads stop)).Indexed x ↔ x < stop := by
  have hu (u : AttributeUpdate) (h : u ∈ rangeUpdates backpointers heads stop) :=
    hl.trueUpdate hf hstart hstop hle h
  obtain ⟨m, hm, hsm⟩ :=
    updateAll_index (a := a) (n := stop) hu (.inl (mem_rangeUpdates.2 (.inr (.inr rfl))))
  have hms : m = stop := by
    rcases Attributes.updateAll_cases hm with hm | ⟨u, hmem, hid, rfl⟩
    · have := Option.some.inj (hstart.symm.trans hm)
      omega
    · rcases mem_rangeUpdates.1 hmem with ⟨x, p, -, rfl⟩ | ⟨h, y, hy, rfl⟩ | rfl
      · exact absurd hid (AttributeId.backpointer_ne_indexOffset x)
      · have hh := (hl.entry_of_head hf hstart hle hy).1.proper
        exact absurd hid (AttributeId.bucket_ne_indexOffset hh)
      · rfl
  rw [Attributes.indexed_iff hm, hms]

/-- All entries of the range are persisted along with their links. -/
theorem persisted (hx : (x, h) ∈ entries) :
    S.Persisted g.log (a.updateAll (rangeUpdates backpointers heads stop)) x h := by
  have hu (u : AttributeUpdate) (h : u ∈ rangeUpdates backpointers heads stop) :=
    hl.trueUpdate hf hstart hstop hle h
  obtain ⟨he, hs, hlt⟩ := hl.entry hf hstart hx
  constructor
  · obtain ⟨p, hp⟩ := hl.linked hx
    obtain ⟨h', q, hx', hq, hpq⟩ := hl.backpointer hp
    obtain rfl := he.unique (hl.entry hf hstart hx').1
    cases p with
    | some p =>
      have hlast := hl.lastBefore hf hstart hs (Nat.le_of_lt hlt) hq hpq.symm
      have hwritten := updateAll_backpointer (a := a) hu he hlast
        (.inl (mem_rangeUpdates.2 (.inl ⟨x, p, hp, rfl⟩)))
      unfold Chained
      rwa [hwritten]
    | none =>
      obtain ⟨rfl, hb⟩ := Option.or_eq_none_iff.1 hpq.symm
      have hfirst (z : Nat) (hz : S.Entry g.log z h) (hzx : z < x) : z < start :=
        Nat.lt_of_not_le fun hsz => LastBefore.none_iff.1 hq z
          (hl.mem_of_entry hz hsz (by omega)) hzx
      exact (hl.missing hx hb hfirst).grow List.prefix_rfl (advances_updateAll hf hu)
        (updateAll_true hf hu) he
  · obtain ⟨y, hy, hxy⟩ := hl.rooted hx
    obtain ⟨z, hz, hyz⟩ := updateAll_bucket (a := a) hu he.proper
      (.inl (mem_rangeUpdates.2 (.inr (.inl ⟨h, y, hy, rfl⟩))))
    exact ⟨z, hz, Nat.le_trans hxy hyz⟩

/-- Linking a range keeps the attributes true. -/
theorem faithful : a.Advances (a.updateAll (rangeUpdates backpointers heads stop)) ∧
    S.Faithful g (a.updateAll (rangeUpdates backpointers heads stop)) := by
  have hu (u : AttributeUpdate) (h : u ∈ rangeUpdates backpointers heads stop) :=
    hl.trueUpdate hf hstart hstop hle h
  have ha := advances_updateAll hf hu
  have hhead {h : KeyHash} {y : Nat} (hh : h.Proper)
      (hy : .replaceIfGreater (.bucket h) y ∈ rangeUpdates backpointers heads stop) :
      (a.updateAll (rangeUpdates backpointers heads stop)).Indexed y := by
    rw [hl.indexed_iff hf hstart hstop hle]
    rcases mem_rangeUpdates.1 hy with ⟨x, p, -, h'⟩ | ⟨h', y', hy', heq⟩ | heq
    · exact absurd (congrArg AttributeUpdate.rule h') (by simp [AttributeUpdate.replace,
        AttributeUpdate.replaceIfGreater])
    · obtain rfl : y = y' := congrArg AttributeUpdate.value heq
      exact (hl.entry_of_head hf hstart hle hy').2
    · exact absurd (congrArg AttributeUpdate.id heq) (AttributeId.bucket_ne_indexOffset hh)
  refine ⟨ha, faithful_updateAll hf hu (fun hh hy => .inr (hhead hh hy)) (fun _ => hhead)
    fun {x h} he hx => ?_⟩
  rw [hl.indexed_iff hf hstart hstop hle] at hx
  by_cases hs : start ≤ x
  · exact hl.persisted hf hstart hstop hle (hl.mem_iff.2 ⟨he.1, hs, hx⟩)
  · have hold := hf.indexed he ((Attributes.indexed_iff hstart).2 (by omega))
    exact hold.grow List.prefix_rfl ha (updateAll_true hf hu) he

end RangeLinks

theorem moves_range {z : Scene} {i : Nat} (hz : S.Coherent z)
    (hstart : z.attributes[AttributeId.indexOffset]? = some start)
    (hstop : Log.Boundary z.ghost.log stop) (hle : start ≤ stop)
    (hl : S.RangeLinks z.ghost.log z.attributes start stop before entries backpointers heads)
    (hd : S.config.mode = .deferred → i = 0)
    (hr : S.config.mode = .inline → z.state.recovered = none →
      z.ghost.recoverer = some i ∧ stop = Log.size z.ghost.log) :
    S.Moves i z (z.updated (rangeUpdates backpointers heads stop)) := by
  obtain ⟨ha, hf⟩ := hl.faithful hz.faithful hstart hstop hle
  refine moves_write hz ha hf hd fun hm hn => ?_
  obtain ⟨hi, rfl⟩ := hr hm hn
  refine ⟨hi, fun _ ⟨_, _, _, _, _, hf, hnot, _⟩ => hnot ?_⟩
  exact (hl.indexed_iff hz.faithful hstart hstop hle).2 hf.lt

end Range

end KeyedLog.Site
