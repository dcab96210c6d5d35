import KeyedLog.Proofs.Segment.Site

/-! What was true of the log, of the attributes and of the tail stays true as they grow. -/
namespace KeyedLog

namespace Attributes

variable {a b c : Attributes} {x y : Nat} {h : KeyHash}

theorem Advances.refl (a : Attributes) : a.Advances a where
  backpointer hp := hp
  bucket _ hy := ⟨_, hy, Nat.le_refl _⟩
  index hn := ⟨_, hn, Nat.le_refl _⟩

theorem Advances.trans (hab : a.Advances b) (hbc : b.Advances c) : a.Advances c where
  backpointer hp := hbc.backpointer (hab.backpointer hp)
  bucket hh hy := by
    obtain ⟨z, hz, hyz⟩ := hab.bucket hh hy
    obtain ⟨u, hu, hzu⟩ := hbc.bucket hh hz
    exact ⟨u, hu, Nat.le_trans hyz hzu⟩
  index hn := by
    obtain ⟨m, hm, hnm⟩ := hab.index hn
    obtain ⟨l, hl, hml⟩ := hbc.index hm
    exact ⟨l, hl, Nat.le_trans hnm hml⟩

theorem Indexed.advance (ha : a.Advances b) (hx : a.Indexed x) : b.Indexed x := by
  obtain ⟨n, hn, hlt⟩ := hx
  obtain ⟨m, hm, hle⟩ := ha.index hn
  exact ⟨m, hm, Nat.lt_of_lt_of_le hlt hle⟩

theorem Indexed.of_le (hx : a.Indexed x) (hle : y ≤ x) : a.Indexed y := by
  obtain ⟨n, hn, hlt⟩ := hx
  exact ⟨n, hn, Nat.lt_of_le_of_lt hle hlt⟩

theorem indexed_iff {n : Nat} (hn : a[AttributeId.indexOffset]? = some n) :
    a.Indexed x ↔ x < n := by
  constructor
  · rintro ⟨m, hm, hlt⟩
    rw [hn] at hm
    rwa [Option.some.inj hm]
  · intro hlt
    exact ⟨n, hn, hlt⟩

theorem Rooted.advance (ha : a.Advances b) (hh : h.Proper) (hx : a.Rooted x h) :
    b.Rooted x h := by
  obtain ⟨y, hy, hle⟩ := hx
  obtain ⟨z, hz, hyz⟩ := ha.bucket hh hy
  exact ⟨z, hz, Nat.le_trans hle hyz⟩

theorem Rooted.of_le (hx : a.Rooted x h) (hle : y ≤ x) : a.Rooted y h := by
  obtain ⟨z, hz, hxz⟩ := hx
  exact ⟨z, hz, Nat.le_trans hle hxz⟩

end Attributes

namespace Ledger

variable {g : Ledger} {x : Nat}

theorem Settled.lt (hx : g.Settled x) : x < Log.size g.log := hx.1

end Ledger

namespace Site

variable {S : Site} {log log' : List Record} {g g' : Ledger} {a b : Attributes} {x y : Nat}
  {h : KeyHash} {p : Option Nat}

namespace Entry

theorem lt (hx : S.Entry log x h) : x < Log.size log := hx.1.lt

theorem proper (hx : S.Entry log x h) : h.Proper := hx.1.proper

theorem mono (hl : log <+: log') (hx : S.Entry log x h) : S.Entry log' x h :=
  ⟨hx.1.mono hl, hx.2⟩

theorem of_lt (hl : log <+: log') (hx : S.Entry log' x h) (hlt : x < Log.size log) :
    S.Entry log x h :=
  ⟨hx.1.of_lt hl hlt, hx.2⟩

theorem unique {h' : KeyHash} (hx : S.Entry log x h) (hx' : S.Entry log x h') : h = h' :=
  hx.1.unique hx'.1

theorem of_start (hx : Log.Entry S.config.hasher log x h) (hs : S.start ≤ x) : S.Entry log x h :=
  ⟨hx, Nat.le_trans (S.floor_le h) hs⟩

end Entry

theorem lastBefore_append (hl : log <+: log') {stop : Nat} (hs : stop ≤ Log.size log) :
    LastBefore (S.Entry log · h) stop p ↔ LastBefore (S.Entry log' · h) stop p := by
  have hiff (x : Nat) (hx : x < stop) : S.Entry log x h ↔ S.Entry log' x h :=
    ⟨fun he => he.mono hl, fun he => he.of_lt hl (Nat.lt_of_lt_of_le hx hs)⟩
  exact ⟨fun hp => hp.congr hiff, fun hp => hp.congr fun x hx => (hiff x hx).symm⟩

section Grow

variable (hl : g.log <+: g'.log) (ha : a.Advances b)
  (hb : ∀ {x q h}, b[AttributeId.backpointer x]? = some q → S.Entry g'.log x h →
    LastBefore (S.Entry g'.log · h) x (some q))

include hl ha hb in
theorem Chained.grow (he : S.Entry g.log x h) (hx : S.Chained g.log a x h) :
    S.Chained g'.log b x h := by
  have hx' : LastBefore (S.Entry g'.log · h) x a[AttributeId.backpointer x]? :=
    (lastBefore_append hl (Nat.le_of_lt he.lt)).1 hx
  have hsame : b[AttributeId.backpointer x]? = a[AttributeId.backpointer x]? := by
    cases hq' : b[AttributeId.backpointer x]? with
    | some q => exact (hb hq' (he.mono hl)).unique hx'
    | none =>
      cases hq : a[AttributeId.backpointer x]? with
      | none => rfl
      | some q => exact absurd (ha.backpointer hq) (by simp [hq'])
  unfold Chained
  rwa [hsame]

include hl ha hb in
theorem Persisted.grow (he : S.Entry g.log x h) (hx : S.Persisted g.log a x h) :
    S.Persisted g'.log b x h :=
  ⟨hx.1.grow hl ha hb he, hx.2.advance ha he.proper⟩

include hl ha in
theorem Linked.grow (hs : ∀ {x}, g.Settled x → g'.Settled x) (hx : S.Linked g a x h) :
    S.Linked g' b x h := by
  obtain ⟨he, hx⟩ := hx
  refine ⟨he.mono hl, ?_⟩
  rcases hx with hx | hx
  · exact .inl (hs ⟨he.lt, hx⟩).2
  · exact .inr (hx.advance ha)

variable (hs : ∀ {x}, g'.Settled x ↔ g.Settled x)

include hl ha hs in
theorem Newest.grow (hy : S.Newest g a y h) : S.Newest g' b y h := by
  refine ⟨hy.1.grow hl ha hs.2, fun x hx he => ?_⟩
  have hx := hs.1 hx
  exact hy.2 x hx (he.of_lt hl hx.lt)

include hl ha hb hs in
theorem TailHolds.grow {heads : Heads} {bps : Std.ExtTreeMap Nat (Option Nat)}
    (ht : S.TailHolds g a heads bps) : S.TailHolds g' b heads bps where
  backpointer hp := by
    obtain ⟨h, he, hp⟩ := ht.backpointer hp
    exact ⟨h, he.mono hl, (lastBefore_append hl (Nat.le_of_lt he.lt)).1 hp⟩
  chained hx hstart he hp := by
    have hx := hs.1 hx
    have he := he.of_lt hl hx.lt
    exact (ht.chained hx hstart he hp).grow hl ha hb he
  head hy := (ht.head hy).grow hl ha hs
  rooted hx hstart he hp := by
    have hx := hs.1 hx
    have he := he.of_lt hl hx.lt
    exact (ht.rooted hx hstart he hp).advance ha he.proper

include hl ha hb in
theorem Marked.grow {w : Watermark} (hw : S.Marked g.log a w) : S.Marked g'.log b w where
  opened := hw.opened
  boundary := hw.boundary.mono hl
  below he hlt := by
    have he := he.of_lt hl (Nat.lt_of_lt_of_le hlt hw.boundary.le)
    exact (hw.below he hlt).grow hl ha hb he
  ranges hr := by
    obtain ⟨hbound, hr⟩ := hw.ranges hr
    refine ⟨hbound.mono hl, fun he hle hlt => ?_⟩
    have he := he.of_lt hl (Nat.lt_of_lt_of_le hlt hbound.le)
    exact (hr he hle hlt).grow hl ha hb he

include hl in
theorem LinksHold.grow (hs : ∀ {x}, g.Settled x → g'.Settled x) {l : PendingLinks}
    (hb : S.LinksHold g l) : S.LinksHold g' l where
  boundary := hb.boundary.mono hl
  head hy := by
    obtain ⟨he, hf⟩ := hb.head hy
    exact ⟨he.mono hl, (hs ⟨he.lt, hf⟩).2⟩
  backpointer hp := by
    obtain ⟨h, he, hp⟩ := hb.backpointer hp
    exact ⟨h, he.mono hl, (lastBefore_append hl (Nat.le_of_lt he.lt)).1 hp⟩
  covered he hle hlt := hb.covered (he.of_lt hl (Nat.lt_of_lt_of_le hlt hb.boundary.le)) hle hlt

end Grow

end Site
end KeyedLog
