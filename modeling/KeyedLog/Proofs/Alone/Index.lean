import KeyedLog.Proofs.Operation.Heads
import KeyedLog.Proofs.Program.Alone
import KeyedLog.Proofs.Run.Chains

/-! What an index does while nobody else is at work on a segment. -/
namespace KeyedLog

/-- What is remembered from the first access on, when the links of the entries below an offset are
persisted. -/
def SegmentState.accessed (s : SegmentState) (persisted length : Nat) : SegmentState :=
  match s.recovered with
  | some _ => s
  | none => { s with watermark := (s.watermark.raise persisted).1, recovered := some length }

theorem SegmentState.accessed_of_recovered {s : SegmentState} (hs : s.recovered ≠ none)
    (persisted length : Nat) : s.accessed persisted length = s := by
  unfold accessed
  split
  · rfl
  · next hn => exact absurd hn hs

theorem SegmentState.accessed_of_unrecovered {s : SegmentState} (hs : s.recovered = none)
    (persisted length : Nat) : s.accessed persisted length =
      { s with watermark := (s.watermark.raise persisted).1, recovered := some length } := by
  unfold accessed
  rw [hs]

theorem SegmentState.tail_accessed (s : SegmentState) (persisted length : Nat) :
    (s.accessed persisted length).heads = s.heads ∧
      (s.accessed persisted length).backpointers = s.backpointers := by
  unfold accessed
  split <;> exact ⟨rfl, rfl⟩

namespace Tables

open Program

structure Keeps (t : Tables) (segment ref : Nat) (s : SegmentState) : Prop where
  tracked : t.tracked[segment]? = some ref
  place : ref < t.states.size
  state : t.state ref = s

structure Alike (t t' : Tables) : Prop where
  opened : t'.closed = t.closed
  indexOpened : t'.indexClosed = t.indexClosed
  cache : t'.cache = t.cache
  locks : t'.locks = t.locks

/-- Nobody is about to change what is known of a segment, and whoever knows it need not wait. -/
structure AtEase (t : Tables) (segment : Nat) : Prop where
  opened : t.closed = false
  indexOpened : t.indexClosed = false
  place : ∀ ref, t.tracked[segment]? = some ref → ref < t.states.size
  idle : (t.memory segment).recovering = false
  unclosed : (t.memory segment).watermark.closed = false
  reached : ∀ n, (t.memory segment).recovered = some n →
    n ≤ (t.memory segment).watermark.offset

variable {t t' t'' : Tables} {segment ref : Nat} {s : SegmentState} {hash : KeyHash}

theorem Alike.refl (t : Tables) : t.Alike t := ⟨rfl, rfl, rfl, rfl⟩

theorem Alike.trans (h : t.Alike t') (h' : t'.Alike t'') : t.Alike t'' where
  opened := h'.opened.trans h.opened
  indexOpened := h'.indexOpened.trans h.indexOpened
  cache := h'.cache.trans h.cache
  locks := h'.locks.trans h.locks

namespace Keeps

theorem memory (h : t.Keeps segment ref s) : t.memory segment = s := by
  unfold Tables.memory stateOf?
  rw [h.tracked, Option.map_some, Option.getD_some]
  exact h.state

theorem modifyState (h : t.Keeps segment ref s) (f : SegmentState → SegmentState) :
    (t.modifyState ref f).Keeps segment ref (f s) where
  tracked := h.tracked
  place := by
    have := h.place
    simpa [Tables.modifyState] using this
  state := by
    have hplace := h.place
    rw [← h.state]
    simp [Tables.state, Tables.modifyState, hplace, Array.getElem_modify_self]

theorem withCache (h : t.Keeps segment ref s) (c : Cache) :
    ({ t with cache := c } : Tables).Keeps segment ref s := ⟨h.tracked, h.place, h.state⟩

theorem withLocks (h : t.Keeps segment ref s) (l : Locks) :
    ({ t with locks := l } : Tables).Keeps segment ref s := ⟨h.tracked, h.place, h.state⟩

theorem track (h : t.Keeps segment ref s) : t.track segment = (t, ref) := by
  unfold Tables.track
  rw [h.tracked]

end Keeps

theorem alike_modifyState (t : Tables) (ref : Nat) (f : SegmentState → SegmentState) :
    t.Alike (t.modifyState ref f) := ⟨rfl, rfl, rfl, rfl⟩

theorem keeps_track (hplace : ∀ ref, t.tracked[segment]? = some ref → ref < t.states.size) :
    (t.track segment).1.Keeps segment (t.track segment).2 (t.memory segment) ∧
      t.Alike (t.track segment).1 := by
  unfold Tables.track
  cases hn : t.tracked[segment]? with
  | some ref =>
    have hmemory : t.memory segment = t.state ref := by simp [Tables.memory, stateOf?, hn]
    exact ⟨⟨hn, hplace ref hn, hmemory.symm⟩, .refl t⟩
  | none =>
    have hmemory : t.memory segment = .initial := by simp [Tables.memory, stateOf?, hn]
    refine ⟨⟨by simp, by simp, ?_⟩, rfl, rfl, rfl, rfl⟩
    rw [hmemory]
    simp [Tables.state]

theorem AtEase.keeps_track (h : t.AtEase segment) :
    (t.track segment).1.Keeps segment (t.track segment).2 (t.memory segment) ∧
      t.Alike (t.track segment).1 := Tables.keeps_track h.place

theorem AtEase.keeps (h : t.AtEase segment) (hs : (t.memory segment).recovered ≠ none) :
    ∃ ref, t.Keeps segment ref (t.memory segment) := by
  unfold Tables.memory stateOf? at hs ⊢
  cases hn : t.tracked[segment]? with
  | some ref => exact ⟨ref, hn, h.place ref hn, rfl⟩
  | none =>
    rw [hn] at hs
    exact absurd rfl hs

theorem AtEase.accessed (h : t.AtEase segment) {n length : Nat}
    (hn : (t.memory segment).recovered = none → length ≤ n) :
    let s := (t.memory segment).accessed n length
    s.recovering = false ∧ s.watermark.closed = false ∧
      ∃ m ≤ s.watermark.offset, s.recovered = some m := by
  cases hs : (t.memory segment).recovered with
  | some m =>
    rw [SegmentState.accessed_of_recovered (by simp [hs])]
    exact ⟨h.idle, h.unclosed, m, h.reached m hs, hs⟩
  | none =>
    rw [SegmentState.accessed_of_unrecovered hs]
    refine ⟨h.idle, (Watermark.closed_raise n).trans h.unclosed, length, ?_, rfl⟩
    exact Nat.le_trans (hn hs) (Watermark.raise_le n).2

theorem knownHead_eq (t : Tables) (segment ref : Nat) (h : KeyHash) :
    t.knownHead segment ref h = (t.state ref).heads[h]?.or (t.cache.get? ⟨segment, h⟩) := by
  unfold knownHead
  cases (t.state ref).heads[h]? <;> rfl

section Access

variable {α : Type} {K : α → Container → Tables → Prop} {c : Container}

theorem succeeds_look_bind {f : SegmentState → Program Tables α} (hs : t.state ref = s) :
    (look ref >>= f).Succeeds K c t ↔ (f s).Succeeds K c t := by
  rw [← hs]
  exact Iff.rfl

theorem succeeds_change_bind {f : SegmentState → SegmentState} {k : Unit → Program Tables α} :
    (change ref f >>= k).Succeeds K c t ↔ (k ()).Succeeds K c (t.modifyState ref f) := Iff.rfl

theorem succeeds_checkIndex {J : Unit → Container → Tables → Prop} (h : t.indexClosed = false)
    (hJ : J () c t) : checkIndex.Succeeds J c t := by
  unfold checkIndex
  rw [succeeds_read_bind, h]
  exact (succeeds_pure ()).2 hJ

theorem succeeds_checkOpen {J : Unit → Container → Tables → Prop} (h : t.closed = false)
    (hJ : J () c t) : checkOpen.Succeeds J c t := by
  unfold checkOpen
  rw [succeeds_read_bind, h]
  exact (succeeds_pure ()).2 hJ

theorem succeeds_awaitWatermark {J : Unit → Container → Tables → Prop} {target : Nat}
    (h : t.Keeps segment ref s) (hs : s.watermark.closed = false)
    (hle : target ≤ s.watermark.offset) (hJ : J () c t) :
    (awaitWatermark ref target).Succeeds J c t := by
  unfold awaitWatermark
  refine succeeds_bind.2 (succeeds_waitUntil ?_ ?_)
  · rw [h.state]
    simp [Watermark.settled, hle]
  · rw [succeeds_look_bind h.state, hs]
    exact (succeeds_pure ()).2 hJ

theorem succeeds_access_of_recovered {K : Nat → Container → Tables → Prop} {config : Config}
    {n : Nat} (ht : t.indexClosed = false) (h : t.Keeps segment ref s)
    (hs : s.watermark.closed = false) (hn : s.recovered = some n)
    (hle : n ≤ s.watermark.offset) (hK : K ref c t) :
    (access config segment).Succeeds K c t := by
  unfold access
  refine succeeds_bind.2 (succeeds_checkIndex ht ?_)
  rw [succeeds_read_bind, h.track]
  refine succeeds_bind.2 ((succeeds_modify _).2 ?_)
  rw [h.state, hn]
  refine succeeds_bind.2 ((succeeds_pure n).2 ?_)
  exact succeeds_bind.2 (succeeds_awaitWatermark h hs hle ((succeeds_pure ref).2 hK))

/-- Nothing has to be linked if everything is persisted. -/
theorem succeeds_recoverState {J : Nat → Container → Tables → Prop} {config : Config}
    {name : String} {data : Bytes} {a : Attributes} {length n : Nat}
    (hc : c.Holds name segment data a) (hlength : data.length = length)
    (h : t.Keeps segment ref s) (hs : s.recovered = none)
    (hn : a[AttributeId.indexOffset]?.getD 0 = n) (hle : length ≤ n)
    (hJ : ∀ c' t', c'.Holds name segment data a → t'.Keeps segment ref (s.accessed n length) →
      t.Alike t' → J length c' t') :
    (recoverState config segment ref).Succeeds J c t := by
  subst hlength
  unfold recoverState
  rw [succeeds_look_bind h.state, hs]
  refine succeeds_bind.2 (succeeds_bind.2 (hc.getAttributes [.indexOffset] fun c₁ hc₁ => ?_))
  refine (succeeds_pure _).2 (succeeds_bind.2 (hc₁.asksLength ?_))
  rw [List.map_cons, List.map_nil, List.head?_cons, Option.join_some, hn]
  refine succeeds_bind.2 ((succeeds_modify _).2 ?_)
  have h' := h.modifyState fun s => { s with watermark := (s.watermark.raise n).1 }
  rw [if_neg (Nat.not_lt.2 hle)]
  have h'' := h'.modifyState fun s => { s with recovered := some data.length }
  refine succeeds_change_bind.2 ((succeeds_pure _).2 (hJ c₁ _ hc₁ ?_ ?_))
  · rwa [SegmentState.accessed_of_unrecovered hs]
  · exact (alike_modifyState ..).trans (alike_modifyState ..)

/-- Whoever is the first to access a segment accounts for its entries, after which it may go on if
they are persisted. -/
theorem succeeds_access_of_unrecovered {K : Nat → Container → Tables → Prop} {config : Config}
    {n : Nat} (ht : t.AtEase segment) (hs : (t.memory segment).recovered = none)
    (hrecover : ∀ t', t'.Keeps segment (t.track segment).2
        { t.memory segment with recovering := true } → t.Alike t' →
      (recoverState config segment (t.track segment).2).Succeeds (fun m c'' t'' => m = n ∧
        ∃ s, t''.Keeps segment (t.track segment).2 s ∧ t''.indexClosed = false ∧
          s.watermark.closed = false ∧ n ≤ s.watermark.offset ∧
          ∀ u, u.Keeps segment (t.track segment).2 { s with recovering := false } → t''.Alike u →
            K (t.track segment).2 c'' u) c t') :
    (access config segment).Succeeds K c t := by
  obtain ⟨h, halike⟩ := ht.keeps_track
  unfold access
  refine succeeds_bind.2 (succeeds_checkIndex ht.indexOpened ?_)
  rw [succeeds_read_bind]
  generalize t.track segment = r at h halike hrecover ⊢
  obtain ⟨t₁, ref⟩ := r
  dsimp only at h halike hrecover ⊢
  refine succeeds_bind.2 ((succeeds_modify _).2 ?_)
  rw [h.state, hs]
  refine succeeds_bind.2 ?_
  unfold recover
  refine succeeds_bind.2 (succeeds_waitForever (by rw [h.state, ht.idle]; rfl) ?_)
  refine succeeds_change_bind.2 (succeeds_ensuring ?_)
  refine (hrecover _ (h.modifyState _) (halike.trans (alike_modifyState ..))).mono ?_
  rintro m c₂ t₂ ⟨rfl, s, h₂, hopen, hclosed, hle, hK⟩
  refine (succeeds_modify _).2 (succeeds_bind.2 ?_)
  have h₃ := h₂.modifyState fun s => { s with recovering := false }
  exact succeeds_awaitWatermark h₃ hclosed hle
    ((succeeds_pure ref).2 (hK _ h₃ (alike_modifyState ..)))

/-- Whoever accesses a segment need not wait if everything is persisted, and changes nothing of
what it finds. -/
theorem succeeds_access {K : Nat → Container → Tables → Prop} {config : Config} {name : String}
    {data : Bytes} {a : Attributes} {length n : Nat} (hc : c.Holds name segment data a)
    (hlength : data.length = length) (ht : t.AtEase segment)
    (hn : a[AttributeId.indexOffset]?.getD 0 = n)
    (hpersisted : (t.memory segment).recovered = none → length ≤ n)
    (hK : ∀ c' t' ref, c'.Holds name segment data a → t.Alike t' →
      t'.Keeps segment ref ((t.memory segment).accessed n length) → K ref c' t') :
    (access config segment).Succeeds K c t := by
  cases hs : (t.memory segment).recovered with
  | some m =>
    have hne : (t.memory segment).recovered ≠ none := by simp [hs]
    obtain ⟨ref, h⟩ := ht.keeps hne
    refine succeeds_access_of_recovered ht.indexOpened h ht.unclosed hs (ht.reached m hs) ?_
    refine hK c t ref hc (.refl t) ?_
    rwa [SegmentState.accessed_of_recovered hne]
  | none =>
    refine succeeds_access_of_unrecovered (n := length) ht hs fun t₁ h₁ halike => ?_
    refine succeeds_recoverState hc hlength h₁ hs hn (hpersisted hs) fun c₂ t₂ hc₂ h₂ halike₂ => ?_
    rw [SegmentState.accessed_of_unrecovered hs] at hK
    rw [SegmentState.accessed_of_unrecovered
      (s := { t.memory segment with recovering := true }) hs] at h₂
    refine ⟨rfl, _, h₂, ?_, ?_, ?_, fun u hu halike₃ => ?_⟩
    · rw [halike₂.indexOpened, halike.indexOpened, ht.indexOpened]
    · exact (Watermark.closed_raise n).trans ht.unclosed
    · exact Nat.le_trans (hpersisted hs) (Watermark.raise_le n).2
    · refine hK _ _ _ hc₂ (halike.trans (halike₂.trans halike₃)) ?_
      rw [ht.idle]
      exact hu

/-- Heads are taken from memory, or else they are the persisted ones, which may be cached. -/
theorem succeeds_headsWith {K : Heads → Container → Tables → Prop} {name : String}
    {data : Bytes} {a : Attributes} {hashes : List KeyHash} (hc : c.Holds name segment data a)
    (hK : ∀ m c' cache, c'.Holds name segment data a →
      (∀ h ∈ hashes, m[h]? = (t.knownHead segment ref h).or a[AttributeId.bucket h]?) →
      (∀ {h y}, cache.get? ⟨segment, h⟩ = some y →
        t.cache.get? ⟨segment, h⟩ = some y ∨ a[AttributeId.bucket h]? = some y) →
      K m c' { t with cache }) :
    (headsWith segment ref hashes).Succeeds K c t := by
  unfold headsWith
  rw [succeeds_read_bind]
  have hknown (h : KeyHash) : (Heads.collect (t.knownHead segment ref) ∅ hashes)[h]? =
      if h ∈ hashes then t.knownHead segment ref h else none := by
    rw [Heads.getElem?_collect]
    simp
  unfold Heads.collect at hknown
  dsimp only
  generalize List.foldl _ (∅ : Heads) hashes = known at hknown ⊢
  generalize hmis : (hashes.filter fun hash => (t.knownHead segment ref hash).isNone) = missing
  have hmem (h : KeyHash) (hh : h ∈ hashes) :
      h ∈ missing ↔ t.knownHead segment ref h = none := by
    rw [← hmis, List.mem_filter, Option.isNone_iff_eq_none]
    exact and_iff_right hh
  split
  · next hempty =>
    have hnil : missing = [] := List.isEmpty_iff.1 hempty
    refine (succeeds_pure known).2 (hK known c t.cache hc (fun h hh => ?_) .inl)
    rw [hknown, if_pos hh]
    cases hy : t.knownHead segment ref h with
    | none => exact absurd ((hmem h hh).2 hy) (by simp [hnil])
    | some y => rfl
  · refine succeeds_bind.2 (hc.getAttributes _ fun c' hc' => ?_)
    rw [succeeds_read_bind, List.map_map]
    generalize hval : (fun h => a[AttributeId.bucket h]?) = value
    rw [show ((fun id => a[id]?) ∘ AttributeId.bucket) = value from hval]
    obtain ⟨hheads, htables, hcache⟩ :=
      @settleHeads_spec t segment ref (t.state ref).generation value missing known
    generalize settleHeads segment ref (t.state ref).generation t known _ = r
      at hheads htables hcache ⊢
    obtain ⟨t', m⟩ := r
    obtain ⟨cache, rfl⟩ : ∃ cache, t' = { t with cache } := ⟨_, htables⟩
    refine succeeds_bind.2 ((succeeds_modify _).2 ((succeeds_pure m).2 ?_))
    refine hK m c' cache hc' (fun h hh => ?_) fun {h y} hy => ?_
    · rw [show m = _ from hheads, Heads.getElem?_collect, hknown, if_pos hh]
      -- Nobody else is at work, so the tail is still the one that was looked at first.
      unfold foundHead
      rw [if_pos rfl, ← hval]
      by_cases hm : h ∈ missing
      · rw [if_pos hm, (hmem h hh).1 hm, Option.or_none, Option.none_or]
      · rw [if_neg hm]
        cases hy : t.knownHead segment ref h with
        | none => exact absurd ((hmem h hh).2 hy) hm
        | some y => rfl
    · rcases hcache hy with hy | ⟨-, hy, -⟩
      · exact .inl hy
      · rw [← hval] at hy
        exact .inr hy

end Access

end Tables
end KeyedLog
