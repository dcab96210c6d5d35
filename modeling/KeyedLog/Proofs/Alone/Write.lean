import KeyedLog.Proofs.Alone.CatchUp
import KeyedLog.Proofs.Segment.Memory
import KeyedLog.Proofs.Write.Batch

/-! Writes that run alone: one that links itself leaves nothing to be persisted, and one that does
not leaves the attributes as they are. -/
namespace KeyedLog

open Program

/-- What links a batch that was appended behind a log, given the heads before it. -/
theorem Batch.Lists.linkRun {hasher : Hasher} {b : Batch} {log rs : List Record} {a : Attributes}
    {current : Heads} (hb : b.Lists hasher rs)
    (hknown : ∀ h ∈ b.hashes, current[h]? = a[AttributeId.bucket h]?) :
    Attributes.LinkRun hasher log rs a current (Links.ofBatch b (Log.size log) current).heads
      ((Links.ofBatch b (Log.size log) current).updates ++
        [.replaceIfGreater .indexOffset (Log.size log + b.length)]) := by
  have hin {h : KeyHash} := hb.mem_hashes_iff (h := h) (Log.size log)
  refine ⟨fun hx => hknown _ (hin.2 ⟨_, hx⟩), fun {h y} => ?_, fun u => ?_⟩
  · simp only [Links.ofBatch, hb.hashed, List.mem_filterMap, Option.map_eq_some_iff, ← hin]
    constructor
    · rintro ⟨h', hh, y', hy, heq⟩
      obtain ⟨rfl, rfl⟩ := Prod.mk.inj heq
      exact ⟨hh, hy⟩
    · rintro ⟨hh, hy⟩
      exact ⟨h, hh, y, hy, rfl⟩
  · simp only [Links.updates, Site.rangeUpdates, Links.ofBatch, hb.hashed, hb.length,
      Log.size_append, List.mem_append]
    rw [or_comm (a := u ∈ Links.headUpdates _)]

namespace Tables

variable {α : Type} {config : Config} {name : String} {segment ref : Nat} {log rs : List Record}
  {a : Attributes} {c : Container} {t t' : Tables} {s : SegmentState} {b : Batch}

def Unlocked (l : Locks) : Prop := ∀ b, l.held.contains b = false

theorem succeeds_withLocks {K : α → Container → Tables → Prop} {p : Program Tables α}
    {buckets : List Bucket} (hfree : Unlocked t.locks)
    (hp : p.Succeeds (fun a c' t' => t'.locks = t.locks.take buckets ∧
      ∀ l, Unlocked l → K a c' { t' with locks := l }) c { t with locks := t.locks.take buckets }) :
    (withLocks buckets p).Succeeds K c t := by
  unfold withLocks
  refine succeeds_bind.2 (succeeds_waitUntil (Locks.free_iff.2 fun b _ => hfree b) ?_)
  refine succeeds_bind.2 ((succeeds_modify _).2 (succeeds_ensuring (hp.mono ?_)))
  rintro a c' t' ⟨hlocks, hK⟩
  refine (succeeds_modify _).2 (hK _ fun b => ?_)
  rw [hlocks, Locks.contains_release, Locks.contains_take, hfree b, Bool.or_false,
    Bool.not_and_self]

/-- A batch is appended once the heads of its buckets are known. What remains is to record its
links, and to persist them if writes do that themselves. -/
theorem succeeds_update {K : Nat → Container → Tables → Prop} {data more : Bytes}
    {length n : Nat} (hc : c.Holds name segment data a) (hlength : data.length = length)
    (ht : t.AtEase segment) (hfree : Unlocked t.locks)
    (hn : a[AttributeId.indexOffset]?.getD 0 = n)
    (hpersisted : (t.memory segment).recovered = none → length ≤ n)
    (hK : ∀ ref m c' t', c'.Holds name segment (data ++ more) a →
      t'.Keeps segment ref ((t.memory segment).accessed n length) →
      t'.closed = false → t'.indexClosed = false →
      (∀ h ∈ b.hashes, m[h]? = (((t.memory segment).heads[h]?).or
        (t.cache.get? ⟨segment, h⟩)).or a[AttributeId.bucket h]?) →
      (∀ {h y}, t'.cache.get? ⟨segment, h⟩ = some y →
        t.cache.get? ⟨segment, h⟩ = some y ∨ a[AttributeId.bucket h]? = some y) →
      (do
        modify (record segment ref (Links.ofBatch b length m))
        if config.mode = .inline then
          persist segment ref ⟨Links.ofBatch b length m, length, b.length⟩
        return length : Program Tables Nat).Succeeds
          (fun x c'' t'' => t''.locks = t'.locks ∧
            ∀ l, Unlocked l → K x c'' { t'' with locks := l }) c' t') :
    (update config segment b (request (.append segment more))).Succeeds K c t := by
  unfold update
  refine succeeds_bind.2 (succeeds_checkIndex ht.indexOpened (succeeds_withLocks hfree ?_))
  have ht' : ({ t with locks := t.locks.take (b.hashes.map (⟨segment, ·⟩)) } : Tables).AtEase
      segment := ⟨ht.opened, ht.indexOpened, ht.place, ht.idle, ht.unclosed, ht.reached⟩
  refine succeeds_bind.2 (succeeds_access hc hlength ht' hn hpersisted
    fun c₁ t₁ ref hc₁ halike h₁ => ?_)
  refine succeeds_bind.2 (succeeds_headsWith hc₁ fun m c₂ cache hc₂ hm hcache => ?_)
  obtain ⟨c₃, hp, hc₃⟩ := hc₂.performs_append more
  rw [hlength] at hp
  refine succeeds_bind.2 (succeeds_request hp ?_)
  have hlocks : t₁.locks = t.locks.take (b.hashes.map (⟨segment, ·⟩)) := halike.locks
  rw [← hlocks]
  refine hK ref m c₃ { t₁ with cache } hc₃ (h₁.withCache cache)
    (halike.opened.trans ht.opened) (halike.indexOpened.trans ht.indexOpened) (fun h hh => ?_)
    fun hy => ?_
  · rw [hm h hh, knownHead_eq, h₁.state, halike.cache, (SegmentState.tail_accessed ..).1]
    rfl
  · rcases hcache hy with hy | hy
    · exact .inl (by rwa [halike.cache] at hy)
    · exact .inr hy

section Persist

/-- All that memory knows of a segment is persisted, and nothing is left to be. -/
structure Level (t : Tables) (segment : Nat) (a : Attributes) (length : Nat) : Prop
    extends t.AtEase segment where
  unlocked : Unlocked t.locks
  persisted : (t.memory segment).pending = []
  gapless : (t.memory segment).watermark.completed = []
  low : (t.memory segment).watermark.offset ≤ length
  recovered : (t.memory segment).recovered ≠ none → (t.memory segment).watermark.offset = length
  head : ∀ {h : KeyHash} {y : Nat}, h.Proper → (t.memory segment).heads[h]? = some y →
    a[AttributeId.bucket h]? = some y
  cached : ∀ {h : KeyHash} {y : Nat}, h.Proper → t.cache.get? ⟨segment, h⟩ = some y →
    a[AttributeId.bucket h]? = some y

theorem Keeps.record (h : t.Keeps segment ref s) (l : Links) :
    (record segment ref l t).Keeps segment ref (s.record t.cache segment l).1 := by
  unfold Tables.record
  rw [h.state]
  exact (h.modifyState _).withCache _

/-- Links left the tail, and the watermark rose to where they end. Heads may have moved on to the
cache. -/
structure Retired (segment ref stop : Nat) (t t' : Tables) (s s' : SegmentState) : Prop where
  keeps : t'.Keeps segment ref s'
  opened : t'.closed = t.closed
  indexOpened : t'.indexClosed = t.indexClosed
  locks : t'.locks = t.locks
  watermark : s'.watermark = ⟨stop, [], false⟩
  pending : s'.pending = []
  recovered : s'.recovered = s.recovered
  recovering : s'.recovering = s.recovering
  heads : ∀ {h : KeyHash} {y : Nat}, s'.heads[h]? = some y → s.heads[h]? = some y
  cache : ∀ {h : KeyHash} {y : Nat}, t'.cache.get? ⟨segment, h⟩ = some y →
    t.cache.get? ⟨segment, h⟩ = some y ∨ s.heads[h]? = some y

theorem Keeps.retire (h : t.Keeps segment ref s) (hpending : s.pending = []) {b : PendingLinks}
    (hw : s.watermark = ⟨b.offset, [], false⟩) (hlength : 0 < b.length) :
    ∃ t' s', Tables.retire segment ref t b = (t', some (b.offset + b.length)) ∧
      Retired segment ref (b.offset + b.length) t t' s s' := by
  obtain ⟨hheads, -, hcache⟩ := @SegmentState.retireHeads_spec s.heads t.cache segment b.links.heads
  have hcomplete := @Watermark.complete_of_gapless b.offset (b.offset + b.length) s.watermark
    (by rw [hw]) (by rw [hw]) (by omega)
  unfold Tables.retire SegmentState.retire
  rw [h.state]
  dsimp only
  rw [hcomplete, hw]
  exact ⟨_, _, rfl, (h.modifyState _).withCache _, rfl, rfl, rfl, rfl, hpending, rfl, rfl, hheads,
    hcache⟩

/-- Links that are persisted at once leave the tail, and the index offset follows. -/
theorem succeeds_persist {K : Unit → Container → Tables → Prop} {b : PendingLinks}
    (hc : c.Shows name segment log a) (h : t.Keeps segment ref s) (hpending : s.pending = [])
    (hw : s.watermark = ⟨b.offset, [], false⟩) (hlength : 0 < b.length)
    (hK : ∀ c' t' s', c'.Shows name segment log (a.updateAll
        (b.links.updates ++ [.replaceIfGreater .indexOffset (b.offset + b.length)])) →
      Retired segment ref (b.offset + b.length) t t' s s' → K () c' t') :
    (persist segment ref b).Succeeds K c t := by
  unfold persist
  rw [succeeds_look_bind h.state, hpending, List.nil_append]
  dsimp only
  rw [List.flatMap_singleton]
  refine succeeds_change_bind.2 ?_
  have h₁ := h.modifyState fun s => { s with pending := [] }
  obtain ⟨c₁, hp, hc₁⟩ := hc.performs_updateAttributes b.links.updates
  refine succeeds_bind.2 (succeeds_attempt (succeeds_request hp ?_))
  dsimp only
  rw [succeeds_read_bind]
  obtain ⟨t₂, s₂, hretire, h₂⟩ := h₁.retire rfl hw hlength
  unfold retireAll
  rw [List.foldl_cons, List.foldl_nil]
  dsimp only
  rw [hretire]
  refine succeeds_bind.2 ((succeeds_modify _).2 ?_)
  obtain ⟨c₂, hp, hc₂⟩ := hc₁.performs_updateAttributes
    [.replaceIfGreater .indexOffset (b.offset + b.length)]
  refine succeeds_bind.2 (succeeds_attempt (succeeds_request hp ((succeeds_pure _).2 ?_)))
  refine hK c₂ t₂ s₂ ?_ { h₂ with }
  rw [Attributes.updateAll, List.foldl_append]
  exact hc₂

theorem Level.accessed {n : Nat} (h : t.Level segment a n) :
    let s := (t.memory segment).accessed n n
    s.watermark = ⟨n, [], false⟩ ∧ s.pending = [] ∧ s.recovering = false ∧
      ∃ m ≤ n, s.recovered = some m := by
  cases hs : (t.memory segment).recovered with
  | some m =>
    have hne : (t.memory segment).recovered ≠ none := by simp [hs]
    rw [SegmentState.accessed_of_recovered hne]
    have hoffset := h.recovered hne
    refine ⟨?_, h.persisted, h.idle, m, hoffset ▸ h.reached m hs, hs⟩
    rw [← hoffset, ← h.gapless, ← h.unclosed]
  | none =>
    rw [SegmentState.accessed_of_unrecovered hs]
    refine ⟨?_, h.persisted, h.idle, n, Nat.le_refl n, rfl⟩
    dsimp only
    rw [Watermark.raise_of_gapless h.gapless, Nat.max_eq_right h.low, h.gapless, h.unclosed]

/-- What has just been persisted is all that memory knows. -/
theorem Retired.level {t₁ t₂ : Tables} {s₁ s₂ : SegmentState} {n m : Nat} {l : Locks}
    (h : Retired segment ref n t₁ t₂ s₁ s₂) (hopen : t₁.closed = false)
    (hindex : t₁.indexClosed = false) (hl : Unlocked l) (hidle : s₁.recovering = false)
    (hm : s₁.recovered = some m) (hle : m ≤ n)
    (hhead : ∀ {h : KeyHash} {y : Nat}, h.Proper → s₁.heads[h]? = some y →
      a[AttributeId.bucket h]? = some y)
    (hcached : ∀ {h : KeyHash} {y : Nat}, h.Proper → t₁.cache.get? ⟨segment, h⟩ = some y →
      a[AttributeId.bucket h]? = some y) :
    ({ t₂ with locks := l } : Tables).Level segment a n := by
  have hmemory : ({ t₂ with locks := l } : Tables).memory segment = s₂ :=
    (h.keeps.withLocks l).memory
  exact
    { opened := h.opened.trans hopen
      indexOpened := h.indexOpened.trans hindex
      place := fun ref' hr => by
        obtain rfl := Option.some.inj (h.keeps.tracked.symm.trans hr)
        exact h.keeps.place
      idle := by rw [hmemory, h.recovering, hidle]
      unclosed := by rw [hmemory, h.watermark]
      reached := fun k hk => by
        rw [hmemory, h.recovered] at hk
        rw [hmemory, h.watermark, ← Option.some.inj (hm.symm.trans hk)]
        exact hle
      unlocked := hl
      persisted := by rw [hmemory, h.pending]
      gapless := by rw [hmemory, h.watermark]
      low := Nat.le_of_eq (by rw [hmemory, h.watermark])
      recovered := fun _ => by rw [hmemory, h.watermark]
      head := fun hh hy => by
        rw [hmemory] at hy
        exact hhead hh (h.heads hy)
      cached := fun hh hy => (h.cache hy).elim (hcached hh) (hhead hh) }

/-- A write that persists its own links leaves nothing to be persisted. -/
theorem succeeds_update_inline {K : Nat → Container → Tables → Prop} (hm : config.mode = .inline)
    (hc : c.Shows name segment log a) (ha : Log.LinkMap config.hasher log a)
    (ht : t.Level segment a (Log.size log)) (hb : b.Lists config.hasher rs) (hrs : rs ≠ [])
    (hK : ∀ c' t' a', c'.Shows name segment (log ++ rs) a' →
      Log.LinkMap config.hasher (log ++ rs) a' →
      t'.Level segment a' (Log.size (log ++ rs)) → K (Log.size log) c' t') :
    (update config segment b
      (request (.append segment (Record.encodeAll recordChecksum rs)))).Succeeds K c t := by
  refine succeeds_update hc.holds (Log.length_encodeAll ..) ht.toAtEase ht.unlocked
    (congrArg (·.getD 0) ha.index) (fun _ => Nat.le_refl _)
    fun ref m c₁ t₁ hc₁ h₁ hopen hindex hm₁ hcache => ?_
  have hc₁ : c₁.Shows name segment (log ++ rs) a := .of_holds_append hc₁
  obtain ⟨hwatermark, hpending, hidle, n, hn, hrecovered⟩ := ht.accessed
  have hproper {h : KeyHash} (hh : h ∈ b.hashes) : h.Proper := by
    obtain ⟨r, -, hr⟩ := hb.mem_hashes.1 hh
    exact Hasher.proper_of_hash hr
  have hknown (h : KeyHash) (hh : h ∈ b.hashes) : m[h]? = a[AttributeId.bucket h]? := by
    rw [hm₁ h hh]
    cases hy : (t.memory segment).heads[h]? with
    | some y => exact (ht.head (hproper hh) hy).symm
    | none =>
      cases hy : t.cache.get? ⟨segment, h⟩ with
      | some y => exact (ht.cached (hproper hh) hy).symm
      | none => rfl
  have hrun := @Batch.Lists.linkRun _ _ log _ _ _ hb hknown
  generalize hlinks : Links.ofBatch b (Log.size log) m = links at hrun ⊢
  rw [if_pos hm]
  refine succeeds_bind.2 ((succeeds_modify _).2 (succeeds_bind.2 ?_))
  have hlength : 0 < b.length := by
    rw [hb.length]
    refine Nat.pos_of_ne_zero fun h0 => hrs ?_
    exact (Log.eq_of_prefix_of_size List.nil_prefix h0.symm).symm
  refine succeeds_persist (b := ⟨links, Log.size log, b.length⟩) hc₁ (h₁.record links) hpending
    hwatermark hlength fun c₂ t₂ s hc₂ h₂ => ?_
  refine (succeeds_pure _).2 ⟨h₂.locks, fun l hl => hK c₂ _ _ hc₂ (ha.append hrun) ?_⟩
  rw [Log.size_append, ← hb.length]
  -- Buckets that the batch does not touch keep their persisted heads.
  have hold {h : KeyHash} {y : Nat} (hh : h.Proper) (hy : a[AttributeId.bucket h]? = some y)
      (hn : ∀ y, (h, y) ∉ links.heads) :
      (a.updateAll (links.updates ++ [.replaceIfGreater .indexOffset (Log.size log + b.length)]))[
        AttributeId.bucket h]? = some y :=
    (Attributes.JustLinks.head_of_unmoved hrun hh hn).trans hy
  refine h₂.level hopen hindex hl hidle hrecovered (Nat.le_trans hn (Nat.le_add_right ..))
    (fun hh hy => ?_) fun {h y} hh hy => ?_
  · rcases insertAll_some hy with hy | ⟨hy, hn⟩
    · exact (Attributes.JustLinks.head_of_moved ha hrun hy).1
    · rw [(SegmentState.tail_accessed ..).1] at hy
      exact hold hh (ht.head hh hy) hn
  · obtain ⟨hy, hn⟩ := Cache.of_get?_eraseAll hy
    refine hold hh ?_ fun y' hy' => hn _ hy' rfl
    rcases hcache hy with hy | hy
    · exact ht.cached hh hy
    · exact hy

end Persist

/-- A write that leaves its links to an indexer leaves the attributes as they are. -/
theorem succeeds_update_deferred {K : Nat → Container → Tables → Prop} {data more : Bytes}
    {length n : Nat} (hm : config.mode = .deferred) (hc : c.Holds name segment data a)
    (hlength : data.length = length) (ht : t.AtEase segment) (hfree : Unlocked t.locks)
    (hn : a[AttributeId.indexOffset]?.getD 0 = n)
    (hpersisted : (t.memory segment).recovered = none → length ≤ n)
    (hK : ∀ c' t', c'.Holds name segment (data ++ more) a → t'.AtEase segment →
      Unlocked t'.locks → (t'.memory segment).recovered ≠ none → K length c' t') :
    (update config segment b (request (.append segment more))).Succeeds K c t := by
  refine succeeds_update hc hlength ht hfree hn hpersisted
    fun ref m c₁ t₁ hc₁ h₁ hopen hindex _ _ => ?_
  obtain ⟨hidle, hclosed, k, hk, hrecovered⟩ := ht.accessed hpersisted
  generalize Links.ofBatch b length m = links
  rw [if_neg (by simp [hm])]
  refine succeeds_bind.2 ((succeeds_modify _).2 ((succeeds_pure _).2 ⟨rfl, fun l hl => ?_⟩))
  have h₂ := (h₁.record links).withLocks l
  have hmemory := h₂.memory
  refine hK c₁ _ hc₁ ?_ hl ?_
  · exact
      { opened := hopen
        indexOpened := hindex
        place := fun ref' hr => by
          obtain rfl := Option.some.inj (h₂.tracked.symm.trans hr)
          exact h₂.place
        idle := by rw [hmemory]; exact hidle
        unclosed := by rw [hmemory]; exact hclosed
        reached := fun j hj => by
          rw [hmemory] at hj ⊢
          obtain rfl := Option.some.inj (hrecovered.symm.trans hj)
          exact hk }
  · rw [hmemory]
    intro hnone
    cases hrecovered.symm.trans hnone

theorem memory_initial (config : Config) (segment : Nat) :
    (initial config).memory segment = .initial := by
  simp [Tables.memory, stateOf?, initial]

/-- Nothing is known to begin with. -/
theorem level_initial (config : Config) (segment : Nat) (a : Attributes) (length : Nat) :
    (initial config).Level segment a length where
  opened := rfl
  indexOpened := rfl
  place ref hr := by simp [initial] at hr
  idle := by rw [memory_initial]; rfl
  unclosed := by rw [memory_initial]; rfl
  reached n hn := by
    rw [memory_initial] at hn
    cases hn
  unlocked b := by simp [initial, Locks.empty]
  persisted := by rw [memory_initial]; rfl
  gapless := by rw [memory_initial]; rfl
  low := by
    rw [memory_initial]
    exact Nat.zero_le _
  recovered hn := by
    rw [memory_initial] at hn
    exact absurd rfl hn
  head _ hy := by
    rw [memory_initial] at hy
    simp [SegmentState.initial] at hy
  cached _ hy := by simp [initial, Cache.get?, Cache.empty] at hy

end Tables
end KeyedLog
