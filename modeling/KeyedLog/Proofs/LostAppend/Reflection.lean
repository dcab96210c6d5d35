import KeyedLog.Proofs.Alone.Find
import KeyedLog.Proofs.Alone.Linkers
import KeyedLog.Proofs.LostAppend.Runs
import KeyedLog.Proofs.Run.Dropping

/-! Records that were appended behind the back of an index: an indexer makes good for them in what
is persisted, but not in what the index keeps in memory. -/
namespace KeyedLog

namespace Tables

variable (t : Tables) (segment : Nat) (bucket : List Nat) (h : KeyHash)

/-- A cached head, with none in the tail, that is not the last entry of its bucket. -/
def Outdated : Prop :=
  (t.memory segment).heads[h]? = none ∧
    ∃ y, t.cache.get? ⟨segment, h⟩ = some y ∧ bucket.getLast? ≠ some y

/-- A link in the tail that does not lead to the last entry before. -/
def Skips : Prop :=
  ∃ x ∈ bucket, ∃ p, (t.memory segment).backpointers[x]? = some p ∧ ¬LastBefore (· ∈ bucket) x p

end Tables

namespace Pool

variable {α : Type}

/-- Calls may fail, with or without effect. Cached heads may be lost at any time. -/
def treacherous : Surroundings Tables where
  fates _ _ := True
  drifts := Tables.Evicts

/-- All that was appended is indexed, and those who have accounted for old entries know it. -/
structure CaughtUp (z : Pool Tables α) (segment : Nat) : Prop where
  indexed : ∃ n, (z.container.segment segment).attributes[AttributeId.indexOffset]? = some n ∧
    (z.container.segment segment).data.length ≤ n
  notified : (z.state.memory segment).recovered ≠ none →
    (z.container.segment segment).data.length ≤ (z.state.memory segment).watermark.offset

def deceive (y : Pool Tables α) (i : Nat) : List (Event Tables α) × Pool Tables α :=
  match y.threads i with
  | some (.call q k) =>
    ([.call i q (.lost .timeout)],
      { y with container := (y.container.serve q (.lost .timeout)).1 }.assign i
        (some (k (y.container.serve q (.lost .timeout)).2)))
  | _ => ([], y)

theorem steps_deceive (y : Pool Tables α) (i : Nat) :
    Steps treacherous y (y.deceive i).1 (y.deceive i).2 ∧
      ∀ e ∈ (y.deceive i).1, ∀ j p, e ≠ .start j p := by
  unfold deceive
  split
  · next q k h => exact ⟨.head (.call (.lost .timeout) h trivial) (.refl _), by simp⟩
  · exact ⟨.refl y, by simp⟩

/-- Whatever may happen, it may happen in worse surroundings. -/
theorem Steps.treacherous {y z : Pool Tables α} {es : List (Event Tables α)}
    (h : Steps surroundings y es z) : Steps treacherous y es z := by
  induction h with
  | refl y => exact .refl y
  | head h _ ih => exact .head (h.mono (fun _ _ => trivial) id) ih

end Pool

/-- Containers in which an index may find a table whose links are left to an indexer: the table was
just created, or an index on it has stopped, at whatever point, whichever of its calls failed. -/
inductive LeftToIndexer (hasher : Hasher) (name : String) (segment : Nat) : Container → Prop
  | created {c c' : Container} (hc : c.create name initialAttributes = .ok c')
      (hn : c'.resolve name = .ok segment) : LeftToIndexer hasher name segment c'
  | stopped {c : Container} {config : Config} {es : List (Pool.Event Tables Reply)}
      {z : Pool Tables Reply} (hc : LeftToIndexer hasher name segment c)
      (hh : config.hasher = hasher) (hm : config.mode = .deferred)
      (h : Pool.Steps Pool.treacherous (.opened config c) es z)
      (hf : ∀ e ∈ es, e.Fits config name segment) : LeftToIndexer hasher name segment z.container

namespace Site

open Program

variable {S : Site} {w : World Tables Account} {h : KeyHash} {c : Container} {log p : List Record}
  {a : Attributes} {y z : Pool Tables Reply} {es : List (Pool.Event Tables Reply)} {g : Account}

/-- An index that was just opened relies on no more than what is persisted. -/
theorem withstands_opened (hp : S.place = 0) (hc : c.Shows S.name S.segment log a)
    (hwf : Log.Wellformed S.config.hasher log) (hl : p <+: log)
    (ha : Log.LinkMap S.config.hasher p a) :
    S.Withstands ⟨c, .initial S.config, idle log⟩ where
  stores := ⟨hc.resolve, hc.data⟩
  serves := ⟨rfl, rfl, .inl ⟨by simp [Tables.initial], hp.symm⟩⟩
  robust :=
    { wellformed := hwf
      held := fun h => by simp [scene, Tables.initial, Locks.empty, idle]
      recovering := by simp [scene, Tables.initial, Tables.state, SegmentState.initial, idle]
      linked := by
        obtain rfl := hc.attributes
        exact ⟨p, hl, ha⟩
      opened := by
        simp [scene, Tables.initial, Tables.state, SegmentState.initial, Watermark.initial]
      gapless := by
        simp [scene, Tables.initial, Tables.state, SegmentState.initial, Watermark.initial]
      reached := fun _ => by
        simp [scene, Tables.initial, Tables.state, SegmentState.initial, Watermark.initial]
      unrecovered := fun _ h => by
        simp [scene, Tables.initial, Tables.state, SegmentState.initial]
      recovered := fun h => by
        simp [scene, Tables.initial, Tables.state, SegmentState.initial] at h
      head := fun h => by
        simp [scene, Tables.initial, Tables.state, SegmentState.initial] at h }

theorem treacherous_within : Pool.treacherous.Within S.lossy where
  fates _ := trivial
  lapses := trivial
  drifts hw hd := by
    obtain ⟨b, rfl⟩ := hd
    exact hw.cached _

theorem Withstands.shows (hw : S.Withstands w) :
    w.container.Shows S.name S.segment w.ghost.log (S.scene w).attributes :=
  ⟨hw.stores.resolve, hw.stores.data, rfl⟩

section CaughtUp

variable (hw : S.Withstands w)
include hw

theorem Withstands.bucket (h : KeyHash) :
    w.container.bucket S.segment S.config.hasher h = Log.bucket S.config.hasher w.ghost.log h :=
  hw.stores.bucket hw.robust.wellformed h

/-- Who has nothing to account for, and has been told of everything, need not wait. -/
theorem Withstands.atEase (hr : w.ghost.recoverer = none)
    (hn : (w.state.memory S.segment).recovered ≠ none →
      Log.size w.ghost.log ≤ (w.state.memory S.segment).watermark.offset) :
    w.state.AtEase S.segment := by
  have hmemory := memory_of_serves hw.serves
  exact
    { opened := hw.serves.opened
      indexOpened := hw.serves.indexOpened
      place := fun ref hr => by
        rcases hw.serves.tracked with ⟨hn, -⟩ | ⟨hs, hsize⟩
        · rw [hn] at hr
          cases hr
        · obtain rfl := Option.some.inj (hs.symm.trans hr)
          omega
      idle := by
        rw [hmemory, hw.robust.recovering]
        exact congrArg Option.isSome hr
      unclosed := by
        rw [hmemory]
        exact hw.robust.opened
      reached := fun n hrec => by
        have hle := hn (by rw [hrec]; simp)
        rw [hmemory] at hrec
        exact Nat.le_trans (hw.robust.recovered hrec).2 hle }

section Bucket

variable (ha : Log.LinkMap S.config.hasher w.ghost.log (S.scene w).attributes)
  (hn : (w.state.memory S.segment).recovered ≠ none →
    Log.size w.ghost.log ≤ (w.state.memory S.segment).watermark.offset)
include ha hn

omit ha in
/-- Once all is indexed, heads in the tail are the last entries of their buckets. -/
theorem Withstands.tail_head {y : Nat} (hy : (w.state.memory S.segment).heads[h]? = some y) :
    LastBefore (· ∈ Log.bucket S.config.hasher w.ghost.log h) (Log.size w.ghost.log) (some y) := by
  have hmemory := memory_of_serves hw.serves
  have hrec : (w.state.memory S.segment).recovered ≠ none := fun hnone => by
    rw [hmemory] at hnone hy
    rw [hw.robust.unrecovered hnone h] at hy
    cases hy
  have hle := hn hrec
  rw [hmemory] at hle hy
  obtain ⟨he, hlate⟩ := hw.robust.head hy
  refine LastBefore.some_iff.2 ⟨Log.mem_bucket.2 he, he.lt, fun x hx hlt => ?_⟩
  refine Nat.le_of_not_lt fun hyx => ?_
  exact Nat.not_lt.2 (Nat.le_trans hle (hlate x (Log.mem_bucket.1 hx) hyx)) hlt

/-- The last entry of a bucket is told, unless the cache hides it. -/
theorem Withstands.told_iff (hh : h.Proper) :
    w.state.told w.container S.segment h = (Log.bucket S.config.hasher w.ghost.log h).getLast? ↔
      ¬w.state.Outdated S.segment (Log.bucket S.config.hasher w.ghost.log h) h := by
  have hlast := lastBefore_getLast? (Log.bucket_pairwise S.config.hasher w.ghost.log h)
    (fun x hx => (Log.mem_bucket.1 hx).lt)
  unfold Tables.told Tables.Outdated
  cases hy : (w.state.memory S.segment).heads[h]? with
  | some y => simpa using (hw.tail_head hn hy).unique hlast
  | none =>
    cases hc : w.state.cache.get? ⟨S.segment, h⟩ with
    | some y => simp [eq_comm]
    | none =>
      have hhead : (w.container.segment S.segment).attributes[AttributeId.bucket h]? = _ :=
        (ha.head h hh).unique hlast
      simpa using hhead

omit hw hn in
theorem previous_iff :
    (∀ x ∈ Log.bucket S.config.hasher w.ghost.log h,
        LastBefore (· ∈ Log.bucket S.config.hasher w.ghost.log h) x
          (w.state.previous w.container S.segment x)) ↔
      ¬w.state.Skips S.segment (Log.bucket S.config.hasher w.ghost.log h) := by
  unfold Tables.previous Tables.Skips
  constructor
  · rintro hall ⟨x, hx, p, hp, hskip⟩
    have hlast := hall x hx
    rw [hp] at hlast
    exact hskip hlast
  · intro hskips x hx
    cases hp : (w.state.memory S.segment).backpointers[x]? with
    | some p => exact Classical.not_not.1 fun hskip => hskips ⟨x, hx, p, hp, hskip⟩
    | none => exact ha.backpointer h x hx

/-- One is led through a whole bucket just if memory neither hides its last entry nor passes over
any other. -/
theorem Withstands.follows_iff (hh : h.Proper) :
    Follows (w.state.previous w.container S.segment) (w.state.told w.container S.segment h)
        (Log.bucket S.config.hasher w.ghost.log h).reverse ↔
      ¬w.state.Outdated S.segment (Log.bucket S.config.hasher w.ghost.log h) h ∧
        ¬w.state.Skips S.segment (Log.bucket S.config.hasher w.ghost.log h) := by
  have hpair := Log.bucket_pairwise S.config.hasher w.ghost.log h
  rw [← hw.told_iff ha hn hh, ← previous_iff ha]
  constructor
  · intro hf
    refine ⟨hf.head.trans List.head?_reverse, fun x hx => ?_⟩
    refine (hf.lastBefore (List.pairwise_reverse.2 hpair) (List.mem_reverse.2 hx)).congr ?_
    exact fun y _ => List.mem_reverse
  · rintro ⟨hhead, hprev⟩
    have hlast := lastBefore_getLast? hpair fun x hx => (Log.mem_bucket.1 hx).lt
    refine Follows.of_lastBefore hprev hpair (fun x => ?_) (hhead ▸ hlast)
    exact ⟨fun hx => ⟨hx, (Log.mem_bucket.1 hx).lt⟩, And.left⟩

theorem Withstands.leads (hh : h.Proper)
    (ho : ¬w.state.Outdated S.segment (Log.bucket S.config.hasher w.ghost.log h) h)
    (hs : ¬w.state.Skips S.segment (Log.bucket S.config.hasher w.ghost.log h)) :
    w.state.Leads w.container S.segment S.config.hasher w.ghost.log h where
  head := by
    rw [(hw.told_iff ha hn hh).2 ho]
    refine (lastBefore_getLast? (Log.bucket_pairwise ..) fun x hx => ?_).congr
      fun x _ => Log.mem_bucket
    exact (Log.mem_bucket.1 hx).lt
  previous x hx :=
    ((previous_iff ha).2 hs x (Log.mem_bucket.2 hx)).congr fun y _ => Log.mem_bucket

theorem Withstands.succeeds_heads (hr : w.ghost.recoverer = none) (hashes : List KeyHash) :
    (Tables.heads S.config S.segment hashes).Succeeds
      (fun m _ _ => ∀ h ∈ hashes, m[h]? = w.state.told w.container S.segment h)
      w.container w.state :=
  Tables.succeeds_heads hw.shows (hw.atEase hr hn) ha.index (fun _ => Nat.le_refl _)
    fun _ _ _ _ _ _ _ _ hm => hm

/-- Whoever asks for keys gets the newest state of each, if memory hides nothing of their
buckets. -/
theorem Withstands.succeeds_get (hr : w.ghost.recoverer = none) {keys : List Bytes}
    (hkeys : ∀ key ∈ keys, ∃ h, S.config.hasher.hash key = .ok h ∧
      ¬w.state.Outdated S.segment (Log.bucket S.config.hasher w.ghost.log h) h ∧
      ¬w.state.Skips S.segment (Log.bucket S.config.hasher w.ghost.log h) ∧
      (Log.bucket S.config.hasher w.ghost.log h).length ≤ S.config.maxChainLength) :
    (Tables.get S.config S.name keys).Succeeds
      (fun os _ _ => List.Forall₂ (UpToDate (w.container.entries S.segment) fun _ => True) keys os)
      w.container w.state := by
  have hentries : w.container.entries S.segment = Log.placed 0 w.ghost.log :=
    hw.stores.entries hw.robust.wellformed
  rw [hentries]
  apply Tables.succeeds_get hw.shows hw.robust.wellformed (hw.atEase hr hn) ha.index
    fun _ => Nat.le_refl _
  intro key hkey
  obtain ⟨h, hk, ho, hs, hlength⟩ := hkeys key hkey
  exact ⟨h, hk, hw.leads ha hn (Hasher.proper_of_hash hk) ho hs, hlength⟩

end Bucket

end CaughtUp

section Run

variable {config : Config} {name : String} {segment : Nat}

/-- In every run what is persisted stays in order, whichever calls fail. -/
theorem sound_of_treacherous (hc : c.Shows name segment log a)
    (hwf : Log.Wellformed config.hasher log) (hl : p <+: log)
    (ha : Log.LinkMap config.hasher p a) (hm : config.mode = .deferred)
    (h : Pool.Steps Pool.treacherous (.opened config c) es z)
    (hf : ∀ e ∈ es, e.Fits config name segment) :
    ∃ g, z.Sound (created config name segment False).lossy (fun _ _ _ => True) g := by
  have hopened : (Pool.opened config c).Sound (created config name segment False).lossy
      (fun _ _ _ => True) (idle log) :=
    { inv := withstands_opened rfl hc hwf hl ha
      parked := fun h => by cases h
      rest := fun _ => ⟨fun _ h => (by cases h), fun h => (by cases h)⟩ }
  refine h.stays_sound (lossy_lawful _) treacherous_within (fun {i p w} hp hw hr v hv hwv => ?_) hf
    hopened
  obtain ⟨op, hop, rfl⟩ := hp
  refine (lossy_operation hm hv (Bears.free hwv hr) hop).mono (fun _ u hu => ?_) fun _ u hu => hu
  exact ⟨hu, fun _ _ _ => trivial⟩

theorem shows_of_leftToIndexer {hasher : Hasher} (hc : LeftToIndexer hasher name segment c) :
    ∃ log p a, c.Shows name segment log a ∧ Log.Wellformed hasher log ∧ p <+: log ∧
      Log.LinkMap hasher p a := by
  induction hc with
  | created hc hn =>
    have hseg := Container.segment_create hc hn
    refine ⟨[], [], _, ⟨hn, by rw [hseg]; rfl, by rw [hseg]; rfl⟩, fun r hr => ?_,
      List.prefix_rfl, Attributes.justLinks_initial _⟩
    cases hr
  | @stopped c config es z hc hh hm h hf ih =>
    subst hh
    obtain ⟨log, p, a, hc, hwf, hl, ha⟩ := ih
    obtain ⟨g, hz⟩ := sound_of_treacherous hc hwf hl ha hm h hf
    obtain ⟨q, hq, hb⟩ := hz.inv.robust.linked
    exact ⟨g.log, q, _, hz.inv.shows, hz.inv.robust.wellformed, hq, hb⟩

/-- Once an indexer has caught up with a log, nothing that was appended is left to be indexed. -/
theorem linked_of_caughtUp (hc : LeftToIndexer config.hasher name segment c)
    (hm : config.mode = .deferred) (hrun : Pool.Steps Pool.treacherous (.opened config c) es z)
    (hf : ∀ e ∈ es, e.Fits config name segment) (hi : z.Idle) (hx : z.CaughtUp segment) :
    ∃ g, (created config name segment False).Withstands (z.world g) ∧ g.recoverer = none ∧
      Log.LinkMap config.hasher g.log (z.container.segment segment).attributes ∧
      ((z.state.memory segment).recovered ≠ none →
        Log.size g.log ≤ (z.state.memory segment).watermark.offset) := by
  obtain ⟨log, p, b, hc, hwf, hl, hb⟩ := shows_of_leftToIndexer hc
  obtain ⟨g, hz⟩ := sound_of_treacherous hc hwf hl hb hm hrun hf
  have hw : (created config name segment False).Withstands (z.world g) := hz.inv
  have hlength : (z.container.segment segment).data.length = Log.size g.log := hw.stores.length
  obtain ⟨⟨n, hindex, hle⟩, hnotified⟩ := hx
  rw [hlength] at hle hnotified
  have hrecoverer : g.recoverer = none := by
    cases hr : g.recoverer with
    | none => rfl
    | some i => exact absurd hr (hz.rest (hi i)).recoverer
  obtain ⟨q, hq, hlinks⟩ := hw.robust.linked
  have hn : Log.size q = n := Option.some.inj (hlinks.index.symm.trans hindex)
  have hall : q = g.log :=
    Log.eq_of_prefix_of_size hq (Nat.le_antisymm (Log.size_le_of_prefix hq) (hn ▸ hle))
  exact ⟨g, hw, hrecoverer, hall ▸ hlinks, hnotified⟩

/-- Once an indexer has caught up with a log, what is persisted reflects all of it, also what was
appended by a write that failed. Whoever asks for a head is told the last entry of the bucket just
if the bucket is not outdated, and is led through the whole bucket just if, besides, the tail
passes over no entry. Keys in such buckets are found in their newest state. -/
theorem reflected_iff_not_outdated (hc : LeftToIndexer config.hasher name segment c)
    (hm : config.mode = .deferred) (hrun : Pool.Steps Pool.treacherous (.opened config c) es z)
    (hf : ∀ e ∈ es, e.Fits config name segment) (hi : z.Idle) (hx : z.CaughtUp segment) :
    let a := (z.container.segment segment).attributes
    let bucket := z.container.bucket segment config.hasher
    (∀ h : KeyHash, h.Proper → Follows (fun x => a[AttributeId.backpointer x]?)
      a[AttributeId.bucket h]? (bucket h).reverse) ∧
    (∀ hashes : List KeyHash, (∀ h ∈ hashes, h.Proper) → ∃ m,
      ((Tables.heads config segment hashes).run true z.container z.state).1 = .ok m ∧
      ∀ h ∈ hashes,
        (m[h]? = (bucket h).getLast? ↔ ¬z.state.Outdated segment (bucket h) h) ∧
        (Follows (z.state.previous z.container segment) m[h]? (bucket h).reverse ↔
          ¬z.state.Outdated segment (bucket h) h ∧ ¬z.state.Skips segment (bucket h))) ∧
    ∀ keys : List Bytes, (∀ key ∈ keys, ∃ h, config.hasher.hash key = .ok h ∧
        ¬z.state.Outdated segment (bucket h) h ∧ ¬z.state.Skips segment (bucket h) ∧
        (bucket h).length ≤ config.maxChainLength) →
      ∃ os, ((Tables.get config name keys).run true z.container z.state).1 = .ok os ∧
        List.Forall₂ (UpToDate (z.container.entries segment) fun _ => True) keys os := by
  intro a bucket
  obtain ⟨g, hw, hr, ha, hn⟩ := linked_of_caughtUp hc hm hrun hf hi hx
  have hbucket (h : KeyHash) : bucket h = Log.bucket config.hasher g.log h := hw.bucket h
  simp only [hbucket]
  refine ⟨fun h hh => ?_, fun hashes hproper => ?_, fun keys hkeys => ?_⟩
  · have hpair := Log.bucket_pairwise config.hasher g.log h
    refine Follows.of_lastBefore (ha.backpointer h) hpair (fun x => ?_) (ha.head h hh)
    exact ⟨fun hx => ⟨hx, (Log.mem_bucket.1 hx).lt⟩, And.left⟩
  · obtain ⟨m, d, t, hrun, hm⟩ := hw.succeeds_heads ha hn hr hashes
    refine ⟨m, congrArg Prod.fst hrun, fun h hh => ?_⟩
    have hhead : m[h]? = z.state.told z.container segment h := hm h hh
    rw [hhead]
    exact ⟨hw.told_iff ha hn (hproper h hh), hw.follows_iff ha hn (hproper h hh)⟩
  · obtain ⟨os, d, t, hrun, hos⟩ := hw.succeeds_get ha hn hr hkeys
    exact ⟨os, congrArg Prod.fst hrun, hos⟩

/-- A batch is appended and its write fails. The head of one of its buckets was cached before, that
of the other was not. -/
theorem reflected_iff_not_outdated_amid_lost_put :
    let config := Config.parity .deferred
    let odd : KeyHash := ⟨0x100000000000000, 0⟩
    let even : KeyHash := ⟨0, 0⟩
    ∃ es z, Pool.Steps Pool.treacherous (.opened config .solo) es z ∧ z.Idle ∧ z.CaughtUp 0 ∧
      z.container.bucket 0 config.hasher odd = [0, 20] ∧
      z.container.bucket 0 config.hasher even = [40] ∧
      (∃ m, ((Tables.heads config 0 [odd, even]).run true z.container z.state).1 = .ok m ∧
        m[odd]? ≠ some 20 ∧ m[even]? = some 40) ∧
      ∃ os, ((Tables.get config "t" [[98]]).run true z.container z.state).1 = .ok os ∧
        List.Forall₂ (UpToDate (z.container.entries 0) fun _ => True) [[98]] os := by
  intro config odd even
  let index : Pool.Move := .start 0 (.index ⟨⟨0, "t", 0⟩, false⟩ none)
  let before : List Pool.Move :=
    .start 1 (.put [⟨⟨[97], none⟩, [1]⟩]) :: Pool.Move.steps 1 20 ++
      index :: Pool.Move.steps 0 20 ++
      (.start 1 (.get [[97]]) :: Pool.Move.steps 1 40 ++
        .start 1 (.put [⟨⟨[97], none⟩, [2]⟩, ⟨⟨[98], none⟩, [3]⟩]) :: Pool.Move.steps 1 10)
  let after : List Pool.Move := Pool.Move.steps 1 10 ++ index :: Pool.Move.steps 0 20
  let x := Pool.drive config "t" before (.opened config .solo)
  let y := x.2.deceive 1
  let z := Pool.drive config "t" after y.2
  have hplain {ms : List Pool.Move} (h : ms.all Pool.Move.plain = true) :
      ∀ m ∈ ms, m.Fits config "t" 0 := Pool.Move.fits_of_plain h
  have hindex : index.Fits config "t" 0 := ⟨rfl, rfl, rfl, rfl⟩
  obtain ⟨hxs, hxf⟩ := @Pool.steps_drive config "t" 0 before
    (List.forall_mem_append.2 ⟨List.forall_mem_append.2 ⟨hplain (by decide +kernel),
      List.forall_mem_cons.2 ⟨hindex, hplain (by decide +kernel)⟩⟩, hplain (by decide +kernel)⟩)
    (.opened config .solo)
  obtain ⟨hys, hno⟩ := Pool.steps_deceive x.2 1
  obtain ⟨hzs, hzf⟩ := @Pool.steps_drive config "t" 0 after
    (List.forall_mem_append.2 ⟨hplain (by decide +kernel),
      List.forall_mem_cons.2 ⟨hindex, hplain (by decide +kernel)⟩⟩) y.2
  have hrun := (hxs.treacherous.append hys).append hzs.treacherous
  have hf : ∀ e ∈ x.1 ++ y.1 ++ z.1, e.Fits config "t" 0 :=
    List.forall_mem_append.2 ⟨List.forall_mem_append.2 ⟨hxf, fun e he => .of_ne_start (hno e he)⟩,
      hzf⟩
  have hidle : z.2.Idle := by
    intro i
    by_cases hi : i < 2
    · have hall : ∀ i < 2, (z.2.threads i).isNone = true := by decide +kernel
      exact Option.isNone_iff_eq_none.1 (hall i hi)
    · refine hrun.idle rfl fun p hp => hi ?_
      have hall : (x.1 ++ y.1 ++ z.1).all (fun e => e.actor.all (· < 2)) = true := by
        decide +kernel
      exact of_decide_eq_true (List.all_eq_true.1 hall _ hp)
  have hlength : (z.2.container.segment 0).data.length = 60 := by decide +kernel
  have hcaught : z.2.CaughtUp 0 :=
    { indexed := ⟨60, by decide +kernel, Nat.le_of_eq hlength⟩
      notified := fun _ => by decide +kernel }
  have hodd : z.2.container.bucket 0 config.hasher odd = [0, 20] := by decide +kernel
  have heven : z.2.container.bucket 0 config.hasher even = [40] := by decide +kernel
  have houtdated : z.2.state.Outdated 0 [0, 20] odd :=
    ⟨by decide +kernel, 0, by decide +kernel, by decide⟩
  have hcurrent : ¬z.2.state.Outdated 0 [40] even := by
    rintro ⟨-, y, hy, hne⟩
    have hcache : z.2.state.cache.get? ⟨0, even⟩ = none := by decide +kernel
    cases hcache.symm.trans hy
  have hskips : ¬z.2.state.Skips 0 [40] := by
    rintro ⟨x, hx, p, hp, -⟩
    obtain rfl := List.mem_singleton.1 hx
    have htail : (z.2.state.memory 0).backpointers[40]? = none := by decide +kernel
    cases htail.symm.trans hp
  obtain ⟨-, hheads, hgets⟩ := reflected_iff_not_outdated
    (.created Container.create_solo Container.resolve_solo) rfl hrun hf hidle hcaught
  have hproper : ∀ h ∈ [odd, even], h.Proper :=
    List.forall_mem_cons.2 ⟨⟨by decide, by decide⟩,
      List.forall_mem_singleton.2 ⟨by decide, by decide⟩⟩
  obtain ⟨m, hm, htold⟩ := hheads [odd, even] hproper
  have htoldOdd := (htold odd (by decide)).1
  have htoldEven := (htold even (by decide)).1
  rw [hodd] at htoldOdd
  rw [heven] at htoldEven
  refine ⟨_, z.2, hrun, hidle, hcaught, hodd, heven, ⟨m, hm, fun h => ?_, htoldEven.2 hcurrent⟩, ?_⟩
  · exact htoldOdd.1 h houtdated
  · refine hgets [[98]] fun key hkey => ⟨even, ?_⟩
    obtain rfl := List.mem_singleton.1 hkey
    rw [heven]
    exact ⟨by decide +kernel, hcurrent, hskips, by decide⟩

end Run

end Site
end KeyedLog
