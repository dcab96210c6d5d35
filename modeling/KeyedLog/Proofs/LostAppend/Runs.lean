import KeyedLog.Proofs.Alone.CatchUp
import KeyedLog.Proofs.LostAppend.Operations
import KeyedLog.Proofs.Operation.Operations

/-! Every operation keeps what is persisted in order, whichever of its calls fail, and however stale
the heads are that it works with. -/
namespace KeyedLog

/-- The heads that a batch moves are the last entries of their buckets by then, whatever the heads
before it were. -/
theorem Batch.Lists.last_of_head {hasher : Hasher} {b : Batch} {log rs : List Record}
    {current : Heads} {h : KeyHash} {y : Nat} (hb : b.Lists hasher rs)
    (hy : (h, y) ∈ (Links.ofBatch b (Log.size log) current).heads) :
    h ∈ b.hashes ∧
      LastBefore (Log.Entry hasher (log ++ rs) · h) (Log.size (log ++ rs)) (some y) := by
  have hmem {x : Nat} {h : KeyHash} : (x, h) ∈ Log.hashed hasher (Log.size log) rs ↔
      Log.Entry hasher (log ++ rs) x h ∧ Log.size log ≤ x ∧ x < Log.size (log ++ rs) :=
    Attributes.JustLinks.mem_hashed_append
  simp only [Links.ofBatch, hb.hashed, List.mem_filterMap, Option.map_eq_some_iff] at hy
  obtain ⟨h', hh, y', hy, heq⟩ := hy
  obtain ⟨rfl, rfl⟩ := Prod.mk.inj heq
  obtain ⟨q, hq, hc⟩ := @Links.chain_heads current _
    (Log.hashed_pairwise hasher (Log.size log) rs) _ (fun e he => (hmem.1 he).2.2) h'
  obtain ⟨x, hx⟩ := (hb.mem_hashes_iff (Log.size log)).1 hh
  obtain ⟨he, hlo, hhi⟩ := hmem.1 hx
  obtain ⟨z, rfl, -⟩ := hq.2 x hx hhi
  obtain rfl : z = y' := Option.some.inj (hc.symm.trans hy)
  obtain ⟨hez, hzlo, hzhi⟩ := hmem.1 hq.mem
  refine ⟨hh, LastBefore.some_iff.2 ⟨hez, hzhi, fun x hx hlt => ?_⟩⟩
  by_cases hxlo : Log.size log ≤ x
  · exact hq.le (hmem.2 ⟨hx, hxlo, hlt⟩) hlt
  · omega

namespace Site

open Program

variable {S : Site} {α : Type} {i : Nat} {w v u : World Tables Account} {hs : List KeyHash}
  {log rs : List Record} {b : Batch} {E : TableError → World Tables Account → Prop}

section Writing

structure Locked (S : Site) (i : Nat) (hs : List KeyHash) (w : World Tables Account) : Prop where
  withstands : S.Withstands w
  recoverer : w.ghost.recoverer ≠ some i
  owner : ∀ h, w.ghost.owner h = some i ↔ h ∈ hs

theorem Locked.go (hw : S.Locked i hs w) (hv : S.Passes i w v) : S.Locked i hs v where
  withstands := hv.1
  recoverer hr := hw.recoverer (hv.2.recoverer.1 hr)
  owner h := (hv.2.owner h).trans (hw.owner h)

theorem lossy_withLocks {p : Program Tables α} (hf : w.ghost.Free i)
    (hp : ∀ v, S.Locked i hs v →
      p.Obeys S.lossy i (fun _ => S.Locked i hs) (fun _ => S.Locked i hs) v) :
    (Tables.withLocks (hs.map (⟨S.segment, ·⟩)) p).Obeys S.lossy i (fun _ u => u.ghost.Free i)
      (fun _ u => u.ghost.Free i) w := by
  unfold Tables.withLocks
  rw [obeys_bind, obeys_waitUntil]
  refine ⟨trivial, fun v hv hwv => ?_⟩
  have hfv : v.ghost.Free i := Bears.free hwv hf
  refine ⟨fun hready => ?_, fun _ => ⟨trivial, fun _ => hfv⟩⟩
  have hfree (h : KeyHash) (hh : h ∈ hs) : v.ghost.owner h = none := by
    have hfree := Locks.free_segment_iff.1 hready h hh
    simpa [scene] using (hv.robust.held h).symm.trans hfree
  rw [obeys_bind]
  refine lossy_modify
    (f := fun t => { t with locks := t.locks.take (hs.map (⟨S.segment, ·⟩)) }) hv
    (v.ghost.lock i hs) ⟨hv.serves.opened, hv.serves.indexOpened, hv.serves.tracked⟩ rfl
    (steers_lock hv.robust hfree fun _ => Locks.contains_take_segment) fun hu => ?_
  rw [obeys_ensuring]
  refine (hp _ ⟨hu, hfv.recoverer, fun h => ?_⟩).mono ?_ ?_
  · by_cases hh : h ∈ hs
    · simp [Account.lock, hh]
    · simp [Account.lock, hh, hfv.owner h]
  all_goals
    intro a t ht
    have ht' := ht.withstands
    refine lossy_modify
      (f := fun t => { t with locks := t.locks.release (hs.map (⟨S.segment, ·⟩)) }) ht'
      (t.ghost.unlock hs) ⟨ht'.serves.opened, ht'.serves.indexOpened, ht'.serves.tracked⟩ rfl
      (steers_unlock ht'.robust (fun h hh => (ht.owner h).2 hh)
        fun _ => Locks.contains_release_segment)
      fun _ => ⟨fun h ho => ?_, ht.recoverer⟩
    simp only [Account.unlock] at ho
    split at ho
    · cases ho
    · next hh => exact hh ((ht.owner h).1 ho)

/-- A batch is appended, or not. Either may be reported as a failure. -/
theorem lossy_append {K : Nat → World Tables Account → Prop} (hw : S.Locked i b.hashes w)
    (hb : b.Lists S.config.hasher rs)
    (hK : ∀ v u, S.Withstands v → S.Bears i (S.scene w) (S.scene v) → S.Locked i b.hashes u →
      S.Bears i { S.scene v with ghost := { v.ghost with log := v.ghost.log ++ rs } } (S.scene u) →
      K (Log.size v.ghost.log) u)
    (hE : ∀ e u, S.Locked i b.hashes u → E e u) :
    (request (.append S.segment (Record.encodeAll recordChecksum rs)) : Program Tables Nat).Obeys
      S.lossy i K E w := by
  refine (obeys_bind checkTime (fun _ => ask (.append S.segment _)) K w).2 ?_
  refine (obeys_checkTime _).2 ⟨trivial, fun v hv hwv =>
    ⟨?_, fun _ => hE _ v (hw.go ⟨hv, hwv⟩)⟩⟩
  refine lossy_ask (.append S.segment _) (fun u hu hvu => ?_)
    fun e u hu hvu => hE e u (hw.go ⟨hu, Bears.trans hwv hvu⟩)
  have hwu := Bears.trans hwv hvu
  have hu' := hw.go ⟨hu, hwu⟩
  have hmove := steers_append (i := i) hu.robust hb.wellformed fun r hr h hh =>
    (hu'.owner h).2 (hb.mem_hashes.2 ⟨r, hr, hh⟩)
  obtain ⟨c, hp, hstores, hscene⟩ :=
    stores_append (g := { u.ghost with log := u.ghost.log ++ rs }) hu.stores rfl
  have hgrown : S.Locked i b.hashes ⟨c, u.state, { u.ghost with log := u.ghost.log ++ rs }⟩ :=
    ⟨⟨hstores, hu.serves, hscene ▸ hmove.robust⟩, hu'.recoverer, hu'.owner⟩
  refine ⟨c, _, _, hp, hgrown.withstands, fun j hj => hscene ▸ hmove.bears j hj,
    fun t ht hut => ?_⟩
  have ht' := hgrown.go ⟨ht, hut⟩
  exact ⟨hK u t hu hwu ht' (hscene ▸ hut), fun e => hE e t ht'⟩

/-- The links of an appended batch are recorded, on top of heads that may be stale. -/
theorem lossy_record {current : Heads} {K : Unit → World Tables Account → Prop}
    (hw : S.Withstands w) (hr : (S.scene w).state.recovered ≠ none)
    (hb : b.Lists S.config.hasher rs) (hl : log ++ rs <+: w.ghost.log)
    (hmine : ∀ {h x}, h ∈ b.hashes → Log.Entry S.config.hasher w.ghost.log x h →
      Log.Entry S.config.hasher (log ++ rs) x h)
    (hK : ∀ v, S.Passes i w v → K () v) :
    (Program.modify
      (Tables.record S.segment S.place (Links.ofBatch b (Log.size log) current))).Obeys
      S.lossy i K E w := by
  have ht := hw.robust.tracked_of_recovered hr
  have hlast {h : KeyHash} {y : Nat}
      (hy : (h, y) ∈ (Links.ofBatch b (Log.size log) current).heads) :
      Log.Entry S.config.hasher w.ghost.log y h ∧
        ∀ x, Log.Entry S.config.hasher w.ghost.log x h → x ≤ y := by
    obtain ⟨hh, hlast⟩ := hb.last_of_head hy
    exact ⟨hlast.mem.mono hl, fun x hx => hlast.le (hmine hh hx) (hmine hh hx).lt⟩
  generalize Links.ofBatch b (Log.size log) current = l at hlast ⊢
  generalize hheads : l.heads.foldl (fun m e => m.insert e.1 e.2) (S.scene w).state.heads = heads
  generalize hbps : l.backpointers.foldl (fun m e => m.insert e.1 e.2)
    (S.scene w).state.backpointers = backpointers
  generalize hcache : l.heads.foldl (fun c e => c.erase ⟨S.segment, e.1⟩) w.state.cache = cache
  have hm := steers_record (i := i) hw.robust heads backpointers
    (fun h => cache.get? ⟨S.segment, h⟩) hr fun {h y} hy =>
      (insertAll_some (hheads ▸ hy)).symm.imp And.left hlast
  have hscene := scene_exchange hw.serves ht
    { (S.scene w).state with
      heads
      backpointers
      generation := (S.scene w).state.generation + 1 } cache w.ghost
  have hrecord : Tables.record S.segment S.place l w.state =
      { w.state.modifyState S.place fun _ =>
          { (S.scene w).state with
            heads
            backpointers
            generation := (S.scene w).state.generation + 1 } with
        cache } := by
    rw [← hheads, ← hbps, ← hcache]
    rfl
  refine lossy_modify hw w.ghost (hrecord ▸ serves_exchange hw.serves _ _) rfl
    (by rw [hrecord, hscene]; exact hm) fun hv => hK _ ⟨hv, ?_⟩
  rw [hrecord, hscene]
  exact .of_memory rfl rfl id rfl

/-- An update leaves the locks of its buckets, whether it succeeds or fails. -/
theorem lossy_update (hm : S.config.mode = .deferred) (hw : S.Withstands w)
    (hf : w.ghost.Free i) (hb : b.Lists S.config.hasher rs) :
    (Tables.update S.config S.segment b
      (request (.append S.segment (Record.encodeAll recordChecksum rs)))).Obeys S.lossy i
      (fun _ u => u.ghost.Free i) (fun _ u => u.ghost.Free i) w := by
  unfold Tables.update
  refine (obeys_bind _ _ _ _).2 (lossy_checkIndex hw (lossy_withLocks hf fun v hv => ?_))
  refine (obeys_bind _ _ _ _).2 ?_
  refine (lossy_access hm hv.withstands hv.recoverer).mono ?_ fun e u hu => hv.go hu
  rintro ref u ⟨rfl, hvu, hrec⟩
  have hu := hv.go hvu
  refine (obeys_bind _ _ _ _).2 ?_
  refine ((steady_lossy S i u).looks ⟨hu.withstands, .refl i _⟩ (Tables.looks_headsWith _)).mono ?_
    fun e t ht => hu.go ht
  intro current t ht
  refine (obeys_bind (request (.append S.segment _)) _ _ _).2 ?_
  refine lossy_append (hu.go ht) hb (fun c d hc htc hd hcd => ?_) fun e d hd => hd
  have hrec : (S.scene d).state.recovered ≠ none :=
    hcd.recovered_ne (htc.recovered_ne (ht.2.recovered_ne hrec))
  refine (obeys_bind _ _ _ _).2 ?_
  refine lossy_record hd.withstands hrec hb hcd.log (fun hh hx => ?_) fun f hf => ?_
  · exact hcd.mine ((hcd.owner _).1 ((hd.owner _).2 hh)) hx
  · rw [hm]
    exact hd.go hf

theorem lossy_write (hm : S.config.mode = .deferred) (hw : S.Withstands w)
    (hf : w.ghost.Free i) (kind : RecordKind) :
    (Tables.write S.config S.name kind rs).Obeys S.lossy i (fun _ u => u.ghost.Free i)
      (fun _ u => u.ghost.Free i) w := by
  unfold Tables.write
  refine (obeys_bind _ _ _ _).2 (lossy_checkOpen hw ?_)
  refine lossy_request_bind (.resolve S.name) (fun v hv hwv =>
    ⟨_, looks_resolve hv.stores, fun u hu hvu => ?_⟩) fun e u hu hwu => hwu.free hf
  have hfu : u.ghost.Free i := (Bears.trans hwv hvu).free hf
  split
  · exact hfu
  refine (obeys_bind _ _ _ _).2 ?_
  cases hof : Batch.ofRecords S.config.hasher S.config.maxBatchLength kind rs with
  | error e => exact hfu
  | ok b =>
    rw [obeys_ofExcept_ok]
    exact (obeys_bind _ _ _ _).2 (lossy_update hm hu hfu (Batch.lists_ofRecords hof))

end Writing

theorem lossy_lookup {mode : ReadMode} (hm : S.config.mode = .deferred) (hw : S.Withstands w)
    (hf : w.ghost.Free i) (keys : List Bytes) :
    (Tables.lookup S.config mode S.name keys).Obeys S.lossy i (fun _ => S.Passes i w)
      (fun _ => S.Passes i w) w := by
  have haccess {v : World Tables Account} (hv : S.Passes i w v) :
      (Tables.access S.config S.segment).Obeys S.lossy i (fun _ => S.Passes i w)
        (fun _ => S.Passes i w) v :=
    (lossy_access hm hv.1 (hv.2.recoverer_ne hf.recoverer)).mono
      (fun _ u hu => ⟨hu.2.1.1, hv.2.trans hu.2.1.2⟩) fun _ u hu => ⟨hu.1, hv.2.trans hu.2⟩
  exact (steady_lossy S i w).lookup id id
    ((steady_lossy S i w).resolve fun hv => hv.1.stores.resolve) haccess haccess ⟨hw, .refl i _⟩
    keys

section Indexing

/-- Attributes are updated, unless that fails. Then they may be updated all the same. -/
theorem lossy_ask_update {us : List AttributeUpdate} {K : Unit → World Tables Account → Prop}
    (hm : ∀ v, S.Withstands v → S.Bears i (S.scene w) (S.scene v) →
      S.Steers i (S.scene v) ((S.scene v).updated us) ∧
        ∀ u, S.Withstands u → S.Bears i ((S.scene v).updated us) (S.scene u) →
          K () u ∧ ∀ e, E e u)
    (hE : ∀ e u, S.Withstands u → S.Bears i (S.scene w) (S.scene u) → E e u) :
    (ask (.updateAttributes S.segment us)).Obeys S.lossy i K E w := by
  refine lossy_ask (.updateAttributes S.segment us) (fun v hv hwv => ?_) hE
  obtain ⟨hmove, hnext⟩ := hm v hv hwv
  obtain ⟨c, hp, hstores, hscene⟩ := stores_updated hv.stores us
  exact ⟨c, v.ghost, (), hp, ⟨hstores, hv.serves, hscene ▸ hmove.robust⟩,
    fun j hj => hscene ▸ hmove.bears j hj, fun u hu hvu => hnext u hu (hscene ▸ hvu)⟩

/-- The entries of some records are linked. The only one who writes attributes sees them as they
are. -/
theorem lossy_linkEntries {a : Attributes} (hw : S.Withstands w) (hf : w.ghost.Free 0)
    (ha : (S.scene w).attributes = a) (hwf : Log.Wellformed S.config.hasher rs) :
    (Indexer.linkEntries S.config S.segment ∅ (Log.scanned (Log.size log) rs)).Obeys S.lossy 0
      (fun r v => S.Passes 0 w v ∧ ∃ all, Attributes.LinkRun S.config.hasher log rs a all r.1.toList
        (r.2 ++ Links.headUpdates r.1.toList ++
          [.replaceIfGreater .indexOffset (Log.size (log ++ rs))]))
      (fun _ v => v.ghost.Free 0) w := by
  generalize hhashes : (Log.hashed S.config.hasher (Log.size log) rs).map (·.2) = hashes
  have hin (h : KeyHash) :
      h ∈ hashes ↔ ∃ x, (x, h) ∈ Log.hashed S.config.hasher (Log.size log) rs := by
    rw [← hhashes]
    simp
  have hask {β : Type} (id : AttributeId) (q : List (Option Nat) → Program Tables β)
      (K : β → World Tables Account → Prop) (t : World Tables Account) (ht : S.Passes 0 w t)
      (hq : ∀ v, S.Passes 0 w v → (q [a[id]?]).Obeys S.lossy 0 K (fun _ v => v.ghost.Free 0) v) :
      (ask (.getAttributes S.segment [id]) >>= q).Obeys S.lossy 0 K
        (fun _ v => v.ghost.Free 0) t := by
    refine lossy_ask_bind (.getAttributes S.segment [id])
      (fun v hv htv => ⟨_, looks_attributes hv.stores _, fun u hu hvu => ?_⟩)
      fun e u hu htu => (ht.2.trans htu).free hf
    rw [List.map_cons, List.map_nil, (ht.2.trans htv).indexing rfl, ha]
    exact hq u ⟨hu, (ht.2.trans htv).trans hvu⟩
  have hlinks := abides_linkEntries (N := .const S.lossy) (i := 0) (s := ()) (w := w)
    (I := fun _ v => S.Passes 0 w v) (F := fun _ _ v => v.ghost.Free 0)
    (fun id q K _ t ht hq => abides_const.2 (hask id q (fun b => K b ()) t ht fun v hv =>
      abides_const.1 (hq () v hv)))
    ⟨hw, .refl 0 _⟩ (tracks_collect a hashes) hwf fun hy => (hin _).2 ⟨_, hy⟩
  refine (abides_const.1 hlinks).mono ?_ fun _ _ h => h
  rintro ⟨heads, backpointers⟩ v ⟨hv, ht, rfl, hheads⟩
  exact ⟨hv, _, Indexer.linkRun_of_tracks hin rfl ht fun h => (hheads h).trans (by simp)⟩

theorem lossy_notify {connector : Connector} {n : Nat} (hid : connector.info.id = S.segment)
    (hw : S.Withstands w) (hf : w.ghost.Free i)
    (hn : (S.scene w).attributes[AttributeId.indexOffset]? = some n) :
    (Program.modify (connector.notify n)).Obeys S.lossy i (fun _ v => v.ghost.Free i) E w := by
  unfold Connector.notify
  rw [hid]
  obtain ⟨hserves, hscene⟩ := scene_notify hw.serves n
  refine lossy_modify (f := fun t => t.notify S.segment (some n)) hw w.ghost hserves rfl ?_
    fun _ => hf
  rcases hscene with hscene | hscene
  · rw [hscene]
    exact ⟨hw.robust, fun j _ => .refl j _⟩
  · rw [hscene]
    exact steers_notify hw.robust hn (Nat.le_refl n)

/-- The indexer persists the links of what it set out to link, or nothing at all, and tells the
index. -/
theorem lossy_index {connector : Connector} {limit : Option Nat}
    (hname : connector.info.name = S.name) (hid : connector.info.id = S.segment)
    (hw : S.Withstands w) (hf : w.ghost.Free 0) :
    (Indexer.runWithin S.config connector limit).Obeys S.lossy 0 (fun _ v => v.ghost.Free 0)
      (fun _ v => v.ghost.Free 0) w := by
  -- Nobody else writes attributes.
  have hfrozen {v : World Tables Account} (hwv : S.Bears 0 (S.scene w) (S.scene v)) :
      (S.scene v).attributes = (S.scene w).attributes := hwv.indexing rfl
  obtain ⟨p, hp, ha⟩ := hw.robust.linked
  generalize (S.scene w).attributes = a at hfrozen ha
  unfold Indexer.runWithin
  rw [hname]
  refine lossy_ask_bind (.resolve S.name) (fun v hv hwv =>
    ⟨_, looks_resolve hv.stores, fun u hu hvu => ?_⟩) fun e u hu hwu => hwu.free hf
  have hwu := Bears.trans hwv hvu
  refine lossy_ask_bind (.getAttributes S.segment [.indexOffset]) (fun v hv huv =>
    ⟨_, looks_attributes hv.stores _, fun t ht hvt => ?_⟩)
    fun e t ht hut => (Bears.trans hwu hut).free hf
  have hwt := (hwu.trans huv).trans hvt
  rw [List.map_cons, List.map_nil, List.head?_cons, Option.join_some, hfrozen (hwu.trans huv),
    ha.index, Option.getD_some]
  refine lossy_ask_bind (.length S.segment) (fun c hc htc =>
    ⟨_, looks_length hc.stores, fun d hd hcd => ?_⟩)
    fun e c hc htc => (Bears.trans hwt htc).free hf
  have hwc := hwt.trans htc
  have hwd := hwc.trans hcd
  split
  · exact hwd.free hf
  obtain ⟨b, hb⟩ := hp.trans hwc.log
  have hsize : Log.size p + Log.size b = Log.size c.ghost.log := by
    rw [← Log.size_append]
    exact congrArg Log.size hb
  refine lossy_ask_bind (.read S.segment (Log.size p) (Log.size c.ghost.log - Log.size p))
    (fun f hf' hdf => ?_) fun e f _ hdf => (hwd.trans hdf).free hf
  have hlog : p ++ b <+: f.ghost.log := hb ▸ (hcd.trans hdf).log
  have hgrown : Log.size c.ghost.log ≤ Log.size f.ghost.log :=
    Log.size_le_of_prefix (hcd.trans hdf).log
  have hwf : Log.Wellformed S.config.hasher b := fun r hr =>
    hf'.robust.wellformed r (hlog.subset (List.mem_append_right _ hr))
  refine ⟨_, looks_read hf'.stores (by omega), fun k hk hfk => ?_⟩
  rw [Log.slice_encodeAll recordChecksum hlog rfl (by omega)]
  have hwk := (hwd.trans hdf).trans hfk
  obtain ⟨hscan, b', hlog', hwf', hportion⟩ := Log.exists_portion hwf hlog limit
  rw [hscan]
  dsimp only
  rw [hportion, Log.foldl_totalLength (fun s hs => (hwf' s hs).1), ← Log.size_append]
  refine (obeys_bind _ _ _ _).2 ?_
  refine (lossy_linkEntries hk (hwk.free hf) (hfrozen hwk) hwf').mono ?_ fun _ _ h => h
  rintro ⟨heads, updates⟩ l ⟨⟨hl, hkl⟩, all, hrun⟩
  have hwritten := ha.append hrun
  have hwl := hwk.trans hkl
  refine (obeys_bind (ask (.updateAttributes S.segment _)) _ _ _).2 ?_
  refine lossy_ask_update (fun m hm hlm => ?_) fun e u hu hlu => (hwl.trans hlu).free hf
  have hwm := hwl.trans hlm
  have hprefix := hlog'.trans ((hfk.trans hkl).trans hlm).log
  have hmove := steers_write hm.robust hprefix hwritten (by rw [hfrozen hwm]; exact ha.index)
    (Log.size_le_of_prefix (List.prefix_append ..))
  refine ⟨by rw [Scene.updated, hfrozen hwm]; exact hmove, fun n hn hmn => ?_⟩
  have hfree : n.ghost.Free 0 := Bears.free hmn (hwm.free hf)
  refine ⟨(obeys_bind _ _ _ _).2 (lossy_notify hid hn hfree ?_), fun _ => hfree⟩
  rw [hmn.indexing rfl, Scene.updated, hfrozen hwm]
  exact hwritten.index

end Indexing

/-- Every operation leaves everything in order, and nothing of its own behind. -/
theorem lossy_operation (hm : S.config.mode = .deferred) (hw : S.Withstands w)
    (hf : w.ghost.Free i) {op : Operation} (hop : op.Fits S.config S.name S.segment i) :
    (op.program S.config S.name).Obeys S.lossy i (fun _ v => v.ghost.Free i)
      (fun _ v => v.ghost.Free i) w := by
  have hlookup (mode : ReadMode) (keys : List Bytes) :
      (Tables.lookup S.config mode S.name keys).Obeys S.lossy i (fun _ v => v.ghost.Free i)
        (fun _ v => v.ghost.Free i) w :=
    (lossy_lookup hm hw hf keys).mono (fun _ _ h => h.2.free hf) fun _ _ h => h.2.free hf
  unfold Operation.program
  cases op with
  | put entries => exact (obeys_map _ _ _).2 (lossy_write hm hw hf .value)
  | remove keys =>
    exact (obeys_map _ _ _).2 ((obeys_bind _ _ _ _).2 (lossy_write hm hw hf .tombstone))
  | get keys => exact (obeys_map _ _ _).2 ((obeys_bind _ _ _ _).2 (hlookup .entry keys))
  | getKeys keys => exact (obeys_map _ _ _).2 ((obeys_bind _ _ _ _).2 (hlookup .key keys))
  | index connector limit =>
    obtain ⟨-, rfl, hname, hid⟩ := hop
    exact (obeys_map _ _ _).2 (lossy_index hname hid hw hf)

end Site
end KeyedLog
