import KeyedLog.Proofs.Alone.Write
import KeyedLog.Proofs.Operation.ReadOnly
import KeyedLog.Proofs.Program.LoneThread

/-! A write that is left alone: it takes along whatever earlier writes have left to it. -/
namespace KeyedLog

namespace Program

variable {σ α : Type} {i : Nat} {w : World σ Unit} {E : TableError → World σ Unit → Prop}

theorem alone_modify {K : Unit → World σ Unit → Prop} {f : σ → σ}
    (hK : K () ⟨w.container, f w.state, ()⟩) : (modify f).Obeys (.alone σ) i K E w :=
  ⟨(), ⟨trivial, trivial⟩, hK⟩

theorem alone_ask {q : Call} {K : q.Answer → World σ Unit → Prop} {c : Container}
    {answer : q.Answer} (hp : w.container.perform q = (c, .ok answer))
    (hK : K answer ⟨c, w.state, ()⟩) : (ask q).Obeys (.alone σ) i K E w := by
  refine (obeys_ask q K).2 ⟨trivial, ?_⟩
  rintro v - rfl fate rfl
  have hs : v.container.serve q .served = (c, .ok answer) := hp
  rw [hs]
  refine ⟨(), ⟨trivial, trivial⟩, ?_⟩
  rintro u - rfl
  exact hK

theorem alone_request {q : Call} {K : q.Answer → World σ Unit → Prop} {c : Container}
    {answer : q.Answer} (hp : w.container.perform q = (c, .ok answer))
    (hK : K answer ⟨c, w.state, ()⟩) : (request q).Obeys (.alone σ) i K E w := by
  refine (obeys_bind checkTime (fun _ => ask q) K w).2 ((obeys_checkTime _).2 ⟨trivial, ?_⟩)
  rintro v - rfl
  exact ⟨alone_ask hp hK, fun h => h.elim⟩

theorem alone_waitUntil {K : Unit → World σ Unit → Prop} {ready : σ → Bool}
    (hr : ready w.state = true) (hK : K () w) : (waitUntil ready).Obeys (.alone σ) i K E w := by
  refine (obeys_waitUntil ready K).2 ⟨trivial, ?_⟩
  rintro v - rfl
  exact ⟨fun _ => hK, fun hn => by cases hr.symm.trans hn⟩

theorem alone_waitForever {K : Unit → World σ Unit → Prop} {ready : σ → Bool}
    (hr : ready w.state = true) (hK : K () w) : (waitForever ready).Obeys (.alone σ) i K E w := by
  refine ⟨trivial, ?_⟩
  rintro v - rfl
  exact ⟨fun _ => hK, fun hn => by cases hr.symm.trans hn⟩

end Program

namespace Tables

open Program

variable {i : Nat} {config : Config} {name : String} {segment ref n : Nat} {log rs : List Record}
  {a : Attributes} {s : SegmentState} {w : World Tables Unit} {b : PendingLinks} {batch : Batch}
  {E : TableError → World Tables Unit → Prop}

/-- What an open index knows of a segment, and what the segment holds. -/
structure Stands (name : String) (segment ref : Nat) (log : List Record) (a : Attributes)
    (s : SegmentState) (w : World Tables Unit) : Prop where
  shows : w.container.Shows name segment log a
  keeps : w.state.Keeps segment ref s
  opened : w.state.closed = false
  indexOpened : w.state.indexClosed = false

namespace Stands

variable (h : Stands name segment ref log a s w)
include h

theorem change {K : Unit → World Tables Unit → Prop} {f : SegmentState → SegmentState}
    (hK : ∀ v, Stands name segment ref log a (f s) v → K () v) :
    (Tables.change ref f).Obeys (.alone Tables) i K E w :=
  alone_modify (hK _ ⟨h.shows, h.keeps.modifyState f, h.opened, h.indexOpened⟩)

theorem awaitWatermark {K : Unit → World Tables Unit → Prop} (hs : s.watermark.closed = false)
    (hle : n ≤ s.watermark.offset) (hK : K () w) :
    (Tables.awaitWatermark ref n).Obeys (.alone Tables) i K E w := by
  unfold Tables.awaitWatermark
  rw [obeys_bind]
  refine alone_waitUntil ?_ ?_
  · rw [h.keeps.state]
    simp [Watermark.settled, hle]
  · rw [obeys_bind, Site.obeys_look, h.keeps.state, hs]
    exact hK

theorem recoverState {K : Nat → World Tables Unit → Prop} (hs : s.recovered = none)
    (hn : a[AttributeId.indexOffset]? = some n) (hle : Log.size log ≤ n)
    (hK : ∀ v, Stands name segment ref log a (s.accessed n (Log.size log)) v →
      K (Log.size log) v) :
    (Tables.recoverState config segment ref).Obeys (.alone Tables) i K E w := by
  obtain ⟨c, hp, hc⟩ := h.shows.performs_getAttributes [.indexOffset]
  unfold Tables.recoverState
  rw [obeys_bind, Site.obeys_look, h.keeps.state, hs]
  refine (obeys_bind _ _ _ _).2 ?_
  unfold attributeOf
  refine (obeys_bind (request (.getAttributes segment [.indexOffset])) _ _ _).2
    (alone_request hp ?_)
  rw [List.map_cons, List.map_nil, List.head?_cons, Option.join_some, hn]
  refine (obeys_bind (ask (.length segment)) _ _ _).2
    (alone_ask (congrArg (fun n => (c, Except.ok n)) hc.length) ?_)
  rw [Option.getD_some]
  have h' : Stands name segment ref log a s ⟨c, w.state, ()⟩ :=
    ⟨hc, h.keeps, h.opened, h.indexOpened⟩
  refine (obeys_bind _ _ _ _).2 ?_
  refine h'.change (f := fun s => { s with watermark := (s.watermark.raise n).1 }) fun v hv => ?_
  rw [if_neg (Nat.not_lt.2 hle)]
  refine (obeys_bind _ _ _ _).2 (hv.change fun u hu => hK u ?_)
  rwa [SegmentState.accessed_of_unrecovered hs]

end Stands

/-- Whoever accesses a segment need not wait if everything is persisted, and changes nothing of
what it finds. -/
theorem alone_access {K : Nat → World Tables Unit → Prop}
    (hc : w.container.Shows name segment log a) (ht : w.state.AtEase segment)
    (hn : a[AttributeId.indexOffset]? = some n)
    (hpersisted : (w.state.memory segment).recovered = none → Log.size log ≤ n)
    (hK : ∀ v ref, Stands name segment ref log a
      ((w.state.memory segment).accessed n (Log.size log)) v → K ref v) :
    (access config segment).Obeys (.alone Tables) i K E w := by
  obtain ⟨hkeeps, halike⟩ := ht.keeps_track
  obtain ⟨hidle, hclosed, m, hm, hrecovered⟩ := ht.accessed hpersisted
  unfold access checkIndex
  rw [obeys_bind, obeys_bind, obeys_read, ht.indexOpened, if_neg (by simp)]
  change Obeys _ _ _ _ (Program.read >>= _) w
  rw [obeys_bind, obeys_read]
  generalize w.state.track segment = r at hkeeps halike ⊢
  obtain ⟨t, ref⟩ := r
  dsimp only at hkeeps halike ⊢
  rw [obeys_bind]
  refine alone_modify ?_
  have h : Stands name segment ref log a (w.state.memory segment) ⟨w.container, t, ()⟩ :=
    ⟨hc, hkeeps, halike.opened.trans ht.opened, halike.indexOpened.trans ht.indexOpened⟩
  rw [hkeeps.state]
  cases hs : (w.state.memory segment).recovered with
  | some l =>
    rw [SegmentState.accessed_of_recovered (by simp [hs])] at hK hclosed
    refine (obeys_bind _ _ _ _).2 ?_
    refine (obeys_bind _ _ _ _).2 (h.awaitWatermark hclosed (ht.reached l hs) (hK _ _ h))
  | none =>
    refine (obeys_bind _ _ _ _).2 ?_
    unfold recover
    rw [obeys_bind]
    refine alone_waitForever (by rw [hkeeps.state, ht.idle]; rfl) ?_
    refine (obeys_bind _ _ _ _).2 (h.change fun v hv => ?_)
    rw [obeys_ensuring]
    refine hv.recoverState hs hn (hpersisted hs) fun u hu => hu.change fun x hx => ?_
    rw [SegmentState.accessed_of_unrecovered hs] at hK hclosed
    rw [SegmentState.accessed_of_unrecovered
      (s := { w.state.memory segment with recovering := true }) hs] at hx
    rw [← ht.idle] at hx
    refine (obeys_bind _ _ _ _).2 (hx.awaitWatermark hclosed ?_ (hK _ _ hx))
    exact Nat.le_trans (hpersisted hs) (Watermark.raise_le n).2

section Persist

/-- A watermark stands where the last answer says, or where it stood to begin with. -/
def Told (start : Nat) (moved : Option Nat) (w : Watermark) : Prop := w.offset = moved.getD start

/-- A batch leaves the tail, and the watermark moves on if it can. -/
theorem Stands.retire {start : Nat} {moved : Option Nat} (h : Stands name segment ref log a s w)
    (hs : s.pending = []) (hm : Told start moved s.watermark) :
    let r := Tables.retire segment ref w.state b
    ∃ s', Stands name segment ref log a s' ⟨w.container, r.1, ()⟩ ∧ s'.pending = [] ∧
      Told start (r.2 <|> moved) s'.watermark := by
  unfold Tables.retire
  rw [h.keeps.state]
  have hkeeps := h.keeps.modifyState fun _ =>
    { (s.retire w.state.cache segment b.links).1 with
      watermark := (s.watermark.complete b.offset (b.offset + b.length)).1 }
  refine ⟨_, ⟨h.shows, hkeeps.withCache _, h.opened, h.indexOpened⟩, hs, ?_⟩
  change Told start ((s.watermark.complete b.offset (b.offset + b.length)).2 <|> moved)
    (s.watermark.complete b.offset (b.offset + b.length)).1
  unfold Told at hm ⊢
  cases hn : (s.watermark.complete b.offset (b.offset + b.length)).2 with
  | some n => exact Watermark.complete_moved hn
  | none => exact (Watermark.complete_unmoved hn).trans hm

theorem Stands.retireAll {n : Nat} {o : Option Nat} (bs : List PendingLinks)
    (h : Stands name segment ref log a s w) (hs : s.pending = [])
    (hm : Told n o s.watermark) :
    let r := bs.foldl (fun (t, moved) b =>
      let (t, newer) := Tables.retire segment ref t b
      (t, newer <|> moved)) (w.state, o)
    ∃ s', Stands name segment ref log a s' ⟨w.container, r.1, ()⟩ ∧ s'.pending = [] ∧
      Told n r.2 s'.watermark := by
  induction bs generalizing w s o with
  | nil => exact ⟨s, h, hs, hm⟩
  | cons b bs ih =>
    obtain ⟨s', h', hs', hm'⟩ := h.retire (b := b) hs hm
    exact ih h' hs' hm'

/-- Nothing is left to be persisted, and the index offset follows the watermark. -/
def Cleared (name : String) (segment ref : Nat) (log : List Record) (start : Nat)
    (w : World Tables Unit) : Prop :=
  ∃ a s, Stands name segment ref log a s w ∧ s.pending = [] ∧ (s.watermark.offset = start ∨
    ∃ n, a[AttributeId.indexOffset]? = some n ∧ s.watermark.offset ≤ n)

theorem alone_persist {K : Unit → World Tables Unit → Prop}
    (h : Stands name segment ref log a s w)
    (hK : ∀ v, Cleared name segment ref log s.watermark.offset v → K () v) :
    (persist segment ref b).Obeys (.alone Tables) i K E w := by
  unfold persist
  rw [obeys_bind, Site.obeys_look, h.keeps.state]
  generalize s.pending ++ [b] = bs
  refine (obeys_bind _ _ _ _).2 (h.change (f := fun s => { s with pending := [] }) fun v hv => ?_)
  obtain ⟨c, hp, hc⟩ := hv.shows.performs_updateAttributes (bs.flatMap (·.links.updates))
  refine (obeys_bind _ _ _ _).2 ?_
  refine (obeys_attempt (request (.updateAttributes segment _)) _ v).2 (alone_request hp ?_)
  have hu : Stands name segment ref log _ { s with pending := [] } ⟨c, v.state, ()⟩ :=
    ⟨hc, hv.keeps, hv.opened, hv.indexOpened⟩
  obtain ⟨s', hs', hpending, htold⟩ := hu.retireAll bs (n := s.watermark.offset) (o := none)
    rfl rfl
  change (read >>= _ : Program Tables Unit).Obeys _ _ _ _ _
  rw [obeys_bind, obeys_read]
  unfold Tables.retireAll
  generalize List.foldl _ (v.state, (none : Option Nat)) bs = r at hs' htold ⊢
  obtain ⟨t, moved⟩ := r
  dsimp only at hs' htold ⊢
  rw [obeys_bind]
  refine alone_modify ?_
  cases moved with
  | none => exact hK _ ⟨_, s', hs', hpending, .inl htold⟩
  | some n =>
    obtain ⟨d, hp, hd⟩ := hs'.shows.performs_updateAttributes [.replaceIfGreater .indexOffset n]
    refine (obeys_bind _ _ _ _).2 ?_
    refine (obeys_attempt (request (.updateAttributes segment _)) _ _).2 (alone_request hp ?_)
    refine hK _ ⟨_, s', ⟨hd, hs'.keeps, hs'.opened, hs'.indexOpened⟩, hpending, .inr ?_⟩
    obtain ⟨m, hm, hle⟩ := @Attributes.updateAll_grows
      (a.updateAll (bs.flatMap (·.links.updates))) [.replaceIfGreater .indexOffset n] .indexOffset n
      (fun u hu _ => by rw [List.mem_singleton.1 hu]; rfl)
      (.inl ⟨_, List.mem_singleton_self _, rfl, Nat.le_refl n⟩)
    exact ⟨m, hm, Nat.le_trans (Nat.le_of_eq htold) hle⟩

end Persist

/-- Heads are found, whatever they are. -/
theorem Stands.headsWith {K : Heads → World Tables Unit → Prop} {hashes : List KeyHash}
    (h : Stands name segment ref log a s w)
    (hK : ∀ m v, Stands name segment ref log a s v → K m v) :
    (Tables.headsWith segment ref hashes).Obeys (.alone Tables) i K E w := by
  unfold Tables.headsWith
  change Obeys _ _ _ _ (ite _ _ _) w
  split
  · exact hK _ w h
  · obtain ⟨c, hp, hc⟩ := h.shows.performs_getAttributes
      ((hashes.filter fun hash => (w.state.knownHead segment ref hash).isNone).map .bucket)
    refine (obeys_bind (request (.getAttributes segment _)) _ _ _).2 (alone_request hp ?_)
    rw [obeys_bind, obeys_read]
    generalize List.foldl _ (∅ : Heads) hashes = known
    generalize List.zip _ _ = l
    obtain ⟨cache, hcache⟩ := @settleHeads_cache w.state segment ref
      (w.state.state ref).generation known l
    generalize settleHeads segment ref _ w.state known l = r at hcache ⊢
    obtain ⟨t, m⟩ := r
    obtain rfl : t = { w.state with cache } := hcache
    refine (obeys_bind _ _ _ _).2 (alone_modify (hK m _ ?_))
    exact ⟨hc, h.keeps.withCache cache, h.opened, h.indexOpened⟩

/-- A write that is left alone succeeds, and leaves nothing to be persisted. -/
theorem alone_update {K : Nat → World Tables Unit → Prop} (hm : config.mode = .inline)
    (hc : w.container.Shows name segment log a) (ht : w.state.AtEase segment)
    (hfree : ∀ h ∈ batch.hashes, w.state.locks.held.contains ⟨segment, h⟩ = false)
    (hn : a[AttributeId.indexOffset]? = some n)
    (hpersisted : (w.state.memory segment).recovered = none → Log.size log ≤ n)
    (hK : ∀ v ref, Cleared name segment ref (log ++ rs)
      ((w.state.memory segment).accessed n (Log.size log)).watermark.offset v →
      K (Log.size log) v) :
    (update config segment batch
      (request (.append segment (Record.encodeAll recordChecksum rs)))).Obeys (.alone Tables) i K E
      w := by
  unfold update checkIndex
  rw [obeys_bind, obeys_bind, obeys_read, ht.indexOpened, if_neg (by simp)]
  unfold withLocks
  refine (obeys_bind _ _ _ _).2 (alone_waitUntil (Locks.free_iff.2 fun b hb => ?_) ?_)
  · obtain ⟨h, hh, rfl⟩ := List.mem_map.1 hb
    exact hfree h hh
  refine (obeys_bind _ _ _ _).2 (alone_modify ?_)
  have ht' : ({ w.state with
      locks := w.state.locks.take (batch.hashes.map (⟨segment, ·⟩)) } : Tables).AtEase segment :=
    ⟨ht.opened, ht.indexOpened, ht.place, ht.idle, ht.unclosed, ht.reached⟩
  rw [obeys_ensuring]
  refine (obeys_bind _ _ _ _).2 (alone_access hc ht' hn hpersisted fun v ref hv => ?_)
  refine (obeys_bind _ _ _ _).2 (hv.headsWith fun m u hu => ?_)
  obtain ⟨c, hp, hc'⟩ := hu.shows.performs_append rs
  refine (obeys_bind (request (.append segment _)) _ _ _).2 (alone_request hp ?_)
  refine (obeys_bind _ _ _ _).2 (alone_modify ?_)
  generalize Links.ofBatch batch (Log.size log) m = links
  have hx : Stands name segment ref (log ++ rs) a _
      ⟨c, record segment ref links u.state, ()⟩ :=
    ⟨hc', hu.keeps.record links, hu.opened, hu.indexOpened⟩
  rw [if_pos hm, obeys_bind]
  refine alone_persist hx fun x hx => ?_
  refine (obeys_pure (Log.size log)).2 (alone_modify (hK _ ref ?_))
  obtain ⟨a', s, hs, hpending, hindex⟩ := hx
  exact ⟨a', s, ⟨hs.shows, hs.keeps.withLocks _, hs.opened, hs.indexOpened⟩, hpending, hindex⟩

/-- Records that make up a batch are written. -/
theorem alone_write {K : List Nat → World Tables Unit → Prop} {kind : RecordKind}
    (hm : config.mode = .inline) (hc : w.container.Shows name segment log a)
    (ht : w.state.AtEase segment)
    (hfree : ∀ h : KeyHash, w.state.locks.held.contains ⟨segment, h⟩ = false)
    (hn : a[AttributeId.indexOffset]? = some n)
    (hpersisted : (w.state.memory segment).recovered = none → Log.size log ≤ n) (hrs : rs ≠ [])
    (hb : Batch.ofRecords config.hasher config.maxBatchLength kind rs = .ok batch)
    (hK : ∀ vs v ref, Cleared name segment ref (log ++ rs)
      ((w.state.memory segment).accessed n (Log.size log)).watermark.offset v → K vs v) :
    (write config name kind rs).Obeys (.alone Tables) i K E w := by
  have hempty : rs.isEmpty = false := by
    cases rs with
    | nil => exact absurd rfl hrs
    | cons => rfl
  unfold write checkOpen
  rw [obeys_bind, obeys_bind, obeys_read, ht.opened, if_neg (by simp)]
  refine (obeys_bind (request (.resolve name)) _ _ _).2
    (alone_request (Container.perform_resolve hc.resolve) ?_)
  rw [hempty, if_neg (by simp), hb]
  refine (obeys_bind _ _ _ _).2 ?_
  rw [obeys_ofExcept_ok, obeys_bind]
  exact alone_update hm hc ht (fun h _ => hfree h) hn hpersisted
    fun v ref hv => hK _ v ref hv

end Tables
end KeyedLog
