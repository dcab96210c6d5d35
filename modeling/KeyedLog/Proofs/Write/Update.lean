import KeyedLog.Proofs.Operation.Heads
import KeyedLog.Proofs.Segment.Renewal
import KeyedLog.Proofs.Write.Batch
import KeyedLog.Proofs.Write.Persist

/-! Writing: a batch is linked to the entries of its buckets, which nobody else writes to in the
meantime. -/
namespace KeyedLog.Site

open Program

variable {S : Site} {i : Nat} {z : Scene} {w v u : World Tables Account} {hs : List KeyHash}
  {h : KeyHash} {log log' rs : List Record} {b : Batch}
  {E : TableError → World Tables Account → Prop}

/-- A thread holds the locks of some buckets, and nothing else. -/
structure Holding (S : Site) (i : Nat) (hs : List KeyHash) (w : World Tables Account) : Prop where
  inv : S.Inv w
  fresh : w.ghost.fresh i = none
  recoverer : w.ghost.recoverer ≠ some i
  owner : ∀ h, w.ghost.owner h = some i ↔ h ∈ hs

theorem Holding.go (hw : S.Holding i hs w) (hv : S.Inv v)
    (h : S.Minds i (S.scene w) (S.scene v)) : S.Holding i hs v where
  inv := hv
  fresh := h.fresh.trans hw.fresh
  recoverer := fun hr => hw.recoverer (h.recoverer.1 hr)
  owner k := (h.owner k).trans (hw.owner k)

/-- A log may grow, but not while there is only one thread. -/
def Keeps (S : Site) (log log' : List Record) : Prop := log <+: log' ∧ (S.calm → log' = log)

theorem Minds.keeps (hi : S.calm → i = 0) (h : S.Minds i (S.scene w) (S.scene v)) :
    S.Keeps w.ghost.log v.ghost.log := ⟨h.log, fun hc => h.alone hc (hi hc)⟩

theorem Carries.keeps {T : Site} (h : Carries i S w T v) (hi : S.calm → i = 0) :
    S.Keeps w.ghost.log v.ghost.log := ⟨h.endures.log, fun hc => h.alone hc (hi hc)⟩

theorem Keeps.trans {log'' : List Record} (h : S.Keeps log log') (h' : S.Keeps log' log'') :
    S.Keeps log log'' := ⟨h.1.trans h'.1, fun hc => (h'.2 hc).trans (h.2 hc)⟩

/-- Locks that are free are taken all at once. -/
theorem obeys_take {K : Unit → World Tables Account → Prop} (hi : S.calm → i = 0) (hw : S.Inv w)
    (hrest : w.ghost.Rests i)
    (hfree : w.state.locks.free (hs.map (⟨S.segment, ·⟩)) = true)
    (hK : ∀ v, S.Holding i hs v → v.ghost.log = w.ghost.log → K () v) :
    (Program.modify fun t : Tables =>
      { t with locks := t.locks.take (hs.map (⟨S.segment, ·⟩)) }).Obeys S.rules i K E w := by
  have howner (h : KeyHash) (hh : h ∈ hs) : w.ghost.owner h = none := by
    have hfree := Locks.free_segment_iff.1 hfree h hh
    simpa [scene] using (hw.coherent.held h).symm.trans hfree
  refine obeys_modify_of_moves
    (f := fun t => { t with locks := t.locks.take (hs.map (⟨S.segment, ·⟩)) }) hw
    (w.ghost.lock i hs) ⟨hw.serves.opened, hw.serves.indexOpened, hw.serves.tracked⟩ rfl
    (moves_lock hw.coherent hi howner fun _ => Locks.contains_take_segment)
    fun hv => hK _ ⟨hv, hrest.fresh, hrest.recoverer, fun h => ?_⟩ rfl
  by_cases hh : h ∈ hs
  · simp [Account.lock, hh]
  · simp [Account.lock, hh, hrest.owner h]

theorem Holding.obeys_release {K : Unit → World Tables Account → Prop} (hw : S.Holding i hs w)
    (hK : ∀ v, S.Inv v → v.ghost.Rests i → v.ghost.toLedger = w.ghost.toLedger → K () v) :
    (Program.modify fun t : Tables =>
      { t with locks := t.locks.release (hs.map (⟨S.segment, ·⟩)) }).Obeys S.rules i K E w := by
  have hunlock := moves_unlock hw.inv.coherent (fun h hh => (hw.owner h).2 hh) hw.fresh
    fun _ => Locks.contains_release_segment
  have hserves := hw.inv.serves
  refine obeys_modify_of_moves
    (f := fun t => { t with locks := t.locks.release (hs.map (⟨S.segment, ·⟩)) }) hw.inv
    (w.ghost.unlock hs) ⟨hserves.opened, hserves.indexOpened, hserves.tracked⟩ rfl hunlock
    fun hv => hK _ hv ⟨hw.fresh, fun h ho => ?_, hw.recoverer⟩ rfl
  simp only [Account.unlock] at ho
  split at ho
  · cases ho
  · next hh => exact hh ((hw.owner h).1 ho)

/-- What is done under locks that are free does not outlive them. -/
theorem obeys_locked {α : Type} {p : Program Tables α} {Q : α → Ledger → Prop}
    {F : TableError → List Record → Prop} (hw : S.Inv w) (hrest : w.ghost.Rests i)
    (hfree : w.state.locks.free (hs.map (⟨S.segment, ·⟩)) = true) (hi : S.calm → i = 0)
    (hp : ∀ v, S.Holding i hs v → v.ghost.log = w.ghost.log →
      p.Obeys S.rules i (fun a u => S.Holding i hs u ∧ Q a u.ghost.toLedger)
        (fun e u => S.Holding i hs u ∧ (S.calm → F e u.ghost.log)) v) :
    (Tables.locked (hs.map (⟨S.segment, ·⟩)) p).Obeys S.rules i
      (fun a u => S.Inv u ∧ u.ghost.Rests i ∧ Q a u.ghost.toLedger)
      (fun e u => S.Inv u ∧ u.ghost.Rests i ∧ (S.calm → F e u.ghost.log)) w := by
  unfold Tables.locked
  refine (obeys_bind _ _ _ _).2 (obeys_take hi hw hrest hfree fun v hv hlog => ?_)
  rw [obeys_ensuring]
  refine (hp v hv hlog).mono ?_ ?_
  · rintro a u ⟨hu, hQ⟩
    exact hu.obeys_release fun r hr hrest hl => ⟨hr, hrest, hl ▸ hQ⟩
  · rintro e u ⟨hu, hF⟩
    refine hu.obeys_release fun r hr hrest hl => ⟨hr, hrest, ?_⟩
    rw [hl]
    exact hF

/-- The only thread does not wait for locks. -/
theorem Inv.free_locks (hw : S.Inv w) (hrest : w.ghost.Rests i) (hi : S.calm → i = 0)
    (hc : S.calm) : w.state.locks.free (hs.map (⟨S.segment, ·⟩)) = true :=
  Locks.free_segment_iff.2 fun h _ => (hw.free_of_calm hi hc).2 h (hrest.owner h)

theorem stores_append (hv : S.Stores v.container v.ghost.log) {g : Account}
    (hg : g.log = v.ghost.log ++ rs) :
    ∃ c, v.container.perform (.append S.segment (Record.encodeAll recordChecksum rs)) =
        (c, .ok (Log.size v.ghost.log)) ∧ S.Stores c g.log ∧
      S.scene ⟨c, v.state, g⟩ = { S.scene v with ghost := g } := by
  have hlt := (Container.live_of_resolve hv.resolve).1
  have hp := Container.perform_append hv.resolve (Record.encodeAll recordChecksum rs)
  rw [hv.length] at hp
  refine ⟨_, hp, hv.modify (fun _ => rfl) fun s hs => ?_, ?_⟩
  · rw [hg, Log.encodeAll_append, ← hs]
    rfl
  · simp only [scene, Container.segment_modify _ hlt]
    rfl

/-- A batch is appended, or nothing happens. -/
theorem obeys_append {K : Nat → World Tables Account → Prop} (hi : S.calm → i = 0)
    (hf : w.ghost.fresh i = none) (hrec : (S.scene w).state.recovered = some S.start)
    (hb : b.Lists S.config.hasher rs) (hown : ∀ h ∈ b.hashes, w.ghost.owner h = some i)
    (hK : ∀ v u, S.Inv v → S.Minds i (S.scene w) (S.scene v) → S.Inv u →
      S.Minds i { S.scene v with ghost := v.ghost.append i rs } (S.scene u) →
      K (Log.size v.ghost.log) u)
    (hE : ∀ e u, ¬S.calm → S.Inv u → S.Minds i (S.scene w) (S.scene u) → E e u) :
    (request (.append S.segment (Record.encodeAll recordChecksum rs)) : Program Tables Nat).Obeys
      S.rules i K E w := by
  refine (obeys_bind checkTime (fun _ => ask (.append S.segment _)) K w).2 ?_
  refine (obeys_checkTime _).2
    ⟨hf, fun v hv hwv => ⟨?_, fun hlapse => hE _ v hlapse hv (Sees.toMinds hwv)⟩⟩
  have hwv : S.Sees i (S.scene w) (S.scene v) := hwv
  refine (obeys_ask (.append S.segment _) K).2
    ⟨hwv.fresh.trans hf, fun u hu hvu fate hfate => ?_⟩
  have hvu : S.Sees i (S.scene v) (S.scene u) := hvu
  have hwu := hwv.toMinds.trans hvu.toMinds
  cases fate with
  | refused e =>
    refine ⟨u.ghost, ⟨hu, fun j _ => .refl j _, fun q fate h => ?_⟩, fun t ht hut => ?_⟩
    · obtain ⟨rfl, rfl⟩ := Prod.mk.inj (Option.some.inj h)
      rfl
    · exact hE e t hfate ht (hwu.trans (Sees.toMinds hut))
  | lost e => exact absurd rfl (hfate.2 _ _)
  | served =>
    have hmove : S.Moves i (S.scene u) { S.scene u with ghost := u.ghost.append i rs } := by
      refine moves_append hi hu.coherent (hwu.fresh.trans hf) (by rw [hwu.recovered hrec]; simp)
        (fun r hr h hh => ?_) hb.wellformed
      exact (hwu.owner h).2 (hown h (hb.mem_hashes.2 ⟨r, hr, hh⟩))
    obtain ⟨c, hp, hstores, hscene⟩ := stores_append (g := u.ghost.append i rs) hu.stores rfl
    have hinv : S.Inv ⟨c, u.state, u.ghost.append i rs⟩ :=
      ⟨hstores, hu.serves, hscene ▸ hmove.coherent⟩
    have hs : u.container.serve (.append S.segment (Record.encodeAll recordChecksum rs)) .served =
        (c, .ok (Log.size u.ghost.log)) := hp
    rw [hs]
    refine ⟨u.ghost.append i rs, ⟨hinv, fun j hj => hscene ▸ hmove.sees j hj, fun q fate h => ?_⟩,
      fun t ht hut => hK u t hu hwu ht (hscene ▸ Sees.toMinds hut)⟩
    obtain ⟨rfl, rfl⟩ := Prod.mk.inj (Option.some.inj h)
    simp [Account.append, Ledger.trail, Trail.call]

/-- Nothing of a bucket is in the midst of being linked while its lock is held by a thread that is
not linking. -/
theorem settled_of_owner (hz : S.Coherent z) (hf : z.ghost.fresh i = none)
    (ho : z.ghost.owner h = some i) {x : Nat} (hx : S.Entry z.ghost.log x h) :
    z.ghost.Settled x := by
  refine ⟨hx.lt, fun ⟨j, s, e, hj, hs, he⟩ => ?_⟩
  obtain rfl := Option.some.inj (ho.symm.trans (hz.fresh_owned hj hx hs he))
  exact absurd (hf.symm.trans hj) (by simp)

theorem knows_of_begins {o : Option Nat} (hw : S.Inv w) (hf : w.ghost.fresh i = none)
    (ho : w.ghost.owner h = some i) (hm : S.Minds i (S.scene w) (S.scene v))
    (hb : S.Begins (S.scene w) (S.scene v) h o) :
    LastBefore (S.Entry v.ghost.log · h) (Log.size v.ghost.log) o := by
  have hold {x : Nat} (hx : S.Entry v.ghost.log x h) :
      w.ghost.Settled x ∧ S.Entry w.ghost.log x h :=
    ⟨settled_of_owner hw.coherent hf ho (hm.mine ho hx), hm.mine ho hx⟩
  cases o with
  | none =>
    exact LastBefore.none_iff.2 fun x hx _ => hb x (hold hx).1 (hold hx).2
  | some y =>
    exact LastBefore.some_iff.2 ⟨hb.1.1, hb.1.1.lt, fun x hx _ => hb.2 x (hold hx).1 (hold hx).2⟩

theorem Knows.go {current : Heads} (h : S.Knows w.ghost.log hs current)
    (ho : ∀ h ∈ hs, w.ghost.owner h = some i) (hm : S.Minds i (S.scene w) (S.scene v)) :
    S.Knows v.ghost.log hs current := by
  intro k hk
  have hlast := (lastBefore_append hm.log (Nat.le_refl _)).1 (h k hk)
  exact hlast.widen (Log.size_le_of_prefix hm.log) fun x hx _ => (hm.mine (ho k hk) hx).lt

section Record

variable {current : Heads} (hw : S.Inv w) (hb : b.Lists S.config.hasher rs)
  (hl : log ++ rs <+: w.ghost.log) (hstart : S.start ≤ Log.size log)
  (hf : w.ghost.fresh i = some (Log.size log, Log.size log + b.length))
  (hknows : S.Knows log b.hashes current)
include hw hb hl hstart hf hknows

theorem linksHold_link :
    S.LinksHold (w.ghost.link i).toLedger
      ⟨Links.ofBatch b (Log.size log) current, Log.size log, b.length⟩ := by
  refine linksHold_ofBatch (g := (w.ghost.link i).toLedger) hb hl hstart hknows
    fun {x h} hx hlo hhi ⟨j, s, e, hj, hs, he⟩ => ?_
  obtain ⟨hji, hj⟩ := fresh_of_link (z := S.scene w) hj
  have hmine := hw.coherent.fresh_owned hf hx hlo hhi
  have hother := hw.coherent.fresh_owned hj hx hs he
  exact hji (Option.some.inj (hmine.symm.trans hother)).symm

theorem head_top {y x : Nat} (hy : (h, y) ∈ (Links.ofBatch b (Log.size log) current).heads)
    (hx : S.Entry w.ghost.log x h) : x ≤ y := by
  obtain ⟨hlast, hlo⟩ := lastBefore_of_head (g := w.ghost.toLedger) hb hl hstart hknows hy
  refine hlast.le hx (Nat.lt_of_not_le fun hge => ?_)
  have := hw.coherent.fresh_last hf hlast.mem hx hlo hlast.lt
    (Nat.le_trans (Nat.le_of_lt hlast.lt) hge)
  omega

theorem obeys_record {K : Unit → World Tables Account → Prop} (ht : (S.scene w).tracked = true)
    (hK : ∀ v, S.Inv v → v.ghost = w.ghost.link i →
      S.LinksHold v.ghost.toLedger
        ⟨Links.ofBatch b (Log.size log) current, Log.size log, b.length⟩ →
      (S.scene v).tracked = true →
      (S.scene v).state.recovered = (S.scene w).state.recovered → K () v) :
    (Program.modify
      (Tables.record S.segment S.place (Links.ofBatch b (Log.size log) current))).Obeys
      S.rules i K E w := by
  have hlinks := linksHold_link hw hb hl hstart hf hknows
  have htop {h : KeyHash} {y x : Nat}
      (hy : (h, y) ∈ (Links.ofBatch b (Log.size log) current).heads)
      (hx : S.Entry w.ghost.log x h) : x ≤ y := head_top hw hb hl hstart hf hknows hy hx
  generalize Links.ofBatch b (Log.size log) current = l at hlinks htop hK ⊢
  generalize hheads : l.heads.foldl (fun m e => m.insert e.1 e.2) (S.scene w).state.heads = heads
  generalize hbps : l.backpointers.foldl (fun m e => m.insert e.1 e.2)
    (S.scene w).state.backpointers = bps
  generalize hcache : l.heads.foldl (fun c e => c.erase ⟨S.segment, e.1⟩) w.state.cache = cache
  have hm : S.Moves i (S.scene w)
      { S.scene w with
        ghost := w.ghost.link i
        state :=
          { (S.scene w).state with
            heads
            backpointers := bps
            generation := (S.scene w).state.generation + 1 }
        cache := fun h => cache.get? ⟨S.segment, h⟩ } := by
    refine moves_record (b := ⟨l, Log.size log, b.length⟩) hw.coherent hf hlinks htop
      (fun hy => insertAll_some (hheads ▸ hy)) (fun hn => insertAll_none (hheads ▸ hn))
      (fun hp => (insertAll_some (hbps ▸ hp)).imp_right And.left)
      (fun hn => insertAll_none (hbps ▸ hn)) fun {h y} hy => ?_
    rw [← hcache] at hy
    obtain ⟨hy, hne⟩ := Cache.of_get?_eraseAll hy
    exact ⟨hy, fun y' hy' => hne _ hy' rfl⟩
  have hscene := scene_exchange hw.serves ht
    { (S.scene w).state with
      heads
      backpointers := bps
      generation := (S.scene w).state.generation + 1 } cache (w.ghost.link i)
  have hrecord : Tables.record S.segment S.place l w.state =
      { w.state.modifyState S.place fun _ =>
          { (S.scene w).state with
            heads
            backpointers := bps
            generation := (S.scene w).state.generation + 1 } with
        cache } := by
    rw [← hheads, ← hbps, ← hcache]
    rfl
  refine obeys_modify_of_moves hw (w.ghost.link i) (hrecord ▸ serves_exchange hw.serves _ _) rfl
    (by rw [hrecord, hscene]; exact hm) fun hv => hK _ hv rfl hlinks ?_ ?_
  · rw [hrecord, hscene]
    exact ht
  · rw [hrecord, hscene]

end Record

theorem Holding.settled (hw : S.Holding i b.hashes w) (hb : b.Lists S.config.hasher rs)
    (hl : log ++ rs <+: w.ghost.log) (hs : S.start ≤ Log.size log) :
    ∀ e ∈ Log.placed (Log.size log) rs, w.ghost.Settled e.1 := by
  rintro ⟨x, r⟩ hx
  obtain ⟨h, hh⟩ := (hb.wellformed r (Log.mem_of_mem_placed hx)).2
  have he : Log.Entry S.config.hasher w.ghost.log x h :=
    ⟨r, Log.mem_placed_of_prefix hl (Log.mem_placed_append.2 (.inr hx)), hh⟩
  have howner := (hw.owner h).2 (hb.mem_hashes.2 ⟨r, Log.mem_of_mem_placed hx, hh⟩)
  exact settled_of_owner hw.inv.coherent hw.fresh howner
    (.of_start he (Nat.le_trans hs (Log.placed_bounds hx).1))

/-- Records were appended at an offset, besides what others may have appended, and are linked. -/
structure Wrote (S : Site) (log rs : List Record) (n : Nat) (g : Ledger) : Prop where
  log : ∃ a, S.Keeps log a ∧ Log.size a = n ∧ S.Keeps (a ++ rs) g.log
  start : S.start ≤ n
  settled : ∀ e ∈ Log.placed n rs, g.Settled e.1

theorem Wrote.go {n : Nat} {g g' : Ledger} (h : S.Wrote log rs n g) (hk : S.Keeps g.log g'.log)
    (hs : ∀ {x}, g.Settled x → g'.Settled x) : S.Wrote log rs n g' where
  log := by
    obtain ⟨a, ha, hn, hr⟩ := h.log
    exact ⟨a, ha, hn, hr.trans hk⟩
  start := h.start
  settled e he := hs (h.settled e he)

theorem Wrote.since {n : Nat} {T : Site} {g : Ledger} (h : T.Wrote v.ghost.log rs n g)
    (hc : Carries i S w T v) (hi : S.calm → i = 0) : S.Wrote w.ghost.log rs n g := by
  obtain ⟨⟨a, ha, hn, hlog⟩, hle, hsettled⟩ := h
  have hstart := hc.renews.start_le
  have hkeeps := hc.keeps hi
  cases hc.renews
  exact ⟨⟨a, hkeeps.trans ha, hn, hlog⟩, Nat.le_trans hstart hle, hsettled⟩

/-- A batch is appended and linked, unless something fails before the append. -/
theorem obeys_guarded (hw : S.Holding i b.hashes w) (hb : b.Lists S.config.hasher rs)
    (hi : S.calm → i = 0) :
    (Tables.guarded S.config S.segment b
      (request (.append S.segment (Record.encodeAll recordChecksum rs)))).Obeys S.rules i
      (fun n u => S.Holding i b.hashes u ∧ S.Wrote w.ghost.log rs n u.ghost.toLedger)
      (fun _ u => S.Holding i b.hashes u ∧
        (S.calm → u.ghost.log = w.ghost.log ∧ ¬S.Bounded u.ghost.log)) w := by
  unfold Tables.guarded
  refine (obeys_bind _ _ _ _).2 ?_
  refine (obeys_access hi hw.inv hw.fresh hw.recoverer).mono ?_
    fun e u hu => ⟨hw.go hu.1 hu.2.1, fun hc => ⟨(hu.2.1.keeps hi).2 hc, hu.2.2 hc⟩⟩
  rintro ref u ⟨rfl, hacc, hwu⟩
  have hu := hw.go hacc.inv hwu
  have hproper (h : KeyHash) (hh : h ∈ b.hashes) : h.Proper := by
    obtain ⟨r, -, hr⟩ := hb.mem_hashes.1 hh
    exact Hasher.proper_of_hash hr
  unfold Tables.linking
  refine (obeys_bind _ _ _ _).2 ?_
  refine (obeys_headsWith _ hacc hu.fresh).mono ?_
    fun e t ht => ⟨hu.go ht.1 ht.2.1, fun hc => absurd hc ht.2.2⟩
  rintro current t ⟨hacc', hut, hbegins⟩
  have ht := hu.go hacc'.inv hut
  -- The heads were read with the locks held, so nothing has come to their buckets since.
  have hknows : S.Knows t.ghost.log b.hashes current := fun h hh =>
    knows_of_begins hu.inv hu.fresh ((hu.owner h).2 hh) hut (hbegins h hh (hproper h hh))
  have hwt := (hwu.trans hut).keeps hi
  refine (obeys_bind (request (.append S.segment _)) _ _ _).2 ?_
  refine obeys_append hi ht.fresh hacc'.recovered hb (fun h hh => (ht.owner h).2 hh)
    (fun c d hc htc hd hcd => ?_) fun e d hc hd htd => ⟨ht.go hd htd, fun hc' => absurd hc' hc⟩
  have hcd' : S.Keeps (c.ghost.log ++ rs) d.ghost.log :=
    ⟨hcd.log, fun hcalm => hcd.alone hcalm (hi hcalm)⟩
  have hrec : (S.scene d).state.recovered = some S.start :=
    hcd.recovered (htc.recovered hacc'.recovered)
  have hd' (h : KeyHash) : d.ghost.owner h = some i ↔ h ∈ b.hashes :=
    (hcd.owner h).trans ((htc.owner h).trans (ht.owner h))
  have hfresh : d.ghost.fresh i =
      some (Log.size c.ghost.log, Log.size c.ghost.log + b.length) := by
    rw [hb.length]
    exact hcd.fresh.trans (if_pos rfl)
  refine (obeys_bind _ _ _ _).2 ?_
  refine obeys_record hd hb hcd'.1 hc.coherent.start.le hfresh
    (hknows.go (fun h hh => (ht.owner h).2 hh) htc) (hcd.tracked (htc.tracked hacc'.tracked))
    fun f hf hg hlinks htf hrf => ?_
  have hf' : S.Holding i b.hashes f :=
    { inv := hf
      fresh := by rw [hg]; exact if_pos rfl
      recoverer := by
        rw [hg]
        exact fun hr => ht.recoverer (htc.recoverer.1 (hcd.recoverer.1 hr))
      owner := by rw [hg]; exact hd' }
  have hfd : f.ghost.log = d.ghost.log := by rw [hg]; rfl
  have hwrote : S.Wrote w.ghost.log rs (Log.size c.ghost.log) f.ghost.toLedger :=
    { log := ⟨c.ghost.log, hwt.trans (htc.keeps hi), rfl, hfd ▸ hcd'⟩
      start := hc.coherent.start.le
      settled := hf'.settled hb (hfd ▸ hcd'.1) hc.coherent.start.le }
  dsimp only
  split
  · next hmode =>
    rw [obeys_bind]
    refine (obeys_persist hf htf hf'.fresh hmode (hrf.trans hrec) hlinks).mono ?_ ?_
    · rintro _ k ⟨hk, hfk⟩
      exact ⟨hf'.go hk hfk, hwrote.go (hfk.keeps hi) hfk.settled⟩
    · rintro e k ⟨hk, hfk, hc⟩
      exact ⟨hf'.go hk hfk, fun hc' => absurd hc' hc⟩
  · exact ⟨hf', hwrote⟩

theorem obeys_locked_guarded (hw : S.Inv w) (hrest : w.ghost.Rests i)
    (hfree : w.state.locks.free (Tables.bucketsOf S.segment b) = true) (hi : S.calm → i = 0)
    (hb : b.Lists S.config.hasher rs) :
    (Tables.locked (Tables.bucketsOf S.segment b) (Tables.guarded S.config S.segment b
      (request (.append S.segment (Record.encodeAll recordChecksum rs))))).Obeys S.rules i
      (fun n u => S.Inv u ∧ u.ghost.Rests i ∧ S.Wrote w.ghost.log rs n u.ghost.toLedger)
      (fun _ u => S.Inv u ∧ u.ghost.Rests i ∧
        (S.calm → u.ghost.log = w.ghost.log ∧ ¬S.Bounded u.ghost.log)) w := by
  refine obeys_locked (F := fun _ log => log = w.ghost.log ∧ ¬S.Bounded log) hw hrest hfree hi
    fun v hv hlog => ?_
  have hguarded := obeys_guarded hv hb hi
  rw [hlog] at hguarded
  exact hguarded

theorem abides_update (hw : S.Inv w) (hrest : w.ghost.Rests i) (hi : S.calm → i = 0)
    (hb : b.Lists S.config.hasher rs) :
    (Tables.update S.config S.segment b
      (request (.append S.segment (Record.encodeAll recordChecksum rs)))).Abides succession i
      (fun n T u => T.Inv u ∧ u.ghost.Rests i ∧ S.Wrote w.ghost.log rs n u.ghost.toLedger)
      (fun _ T u => T.Inv u ∧ u.ghost.Rests i ∧
        (S.calm → u.ghost.log = w.ghost.log ∧ ¬S.Bounded u.ghost.log)) S w := by
  rw [Tables.update_eq S.config S.segment b
    (request (.append S.segment (Record.encodeAll recordChecksum rs))), Tables.withLocks_eq]
  refine Abides.bind (abides_checkIndex hw (Abides.bind ?_))
  refine (abides_waitUntil _ _).2 (yields_of_rests hrest fun T v hv hwv => ?_)
  have hrest' := hwv.rests hrest
  have hkeeps := hwv.toCarries.keeps hi
  cases hwv.renews
  refine ⟨fun hready => ?_, fun hready => ?_⟩
  · have hlocked := obeys_locked_guarded hv hrest' hready hi hb
    refine abides_of_within (fun _ => .locked) hv hlocked ?_ ?_
    · rintro n u - ⟨hu, hrestu, hwrote⟩
      have hwrote := hwrote.since hwv.toCarries hi
      refine ⟨hrestu, fun U t ht hut => ⟨ht, hut.rests hrestu, ?_⟩⟩
      have hkeep := hut.toCarries.keeps hi
      exact hwrote.go hkeep hut.endures.settled
    · rintro e u - ⟨hu, hrestu, hbad⟩
      refine ⟨hrestu, fun U t ht hut => ⟨ht, hut.rests hrestu, fun hc => ?_⟩⟩
      rw [hut.alone hc (hi hc), ← hkeeps.2 hc]
      exact hbad hc
  · have hcalm (hc : S.calm) : False := by
      have hfree : v.state.locks.free (Tables.bucketsOf S.segment b) = true :=
        hv.free_locks hrest' hi hc
      exact absurd (hready.symm.trans hfree) (by decide)
    exact ⟨hcalm, fun _ => ⟨hv, hrest', fun hc => (hcalm hc).elim⟩⟩

/-- Records are written as a batch, and their versions are where they were appended. A batch that is
not accepted is not written. -/
theorem abides_write (hw : S.Inv w) (hrest : w.ghost.Rests i) (hi : S.calm → i = 0)
    (kind : RecordKind) :
    (Tables.write S.config S.name kind rs).Abides succession i
      (fun vs T u => T.Inv u ∧ u.ghost.Rests i ∧
        (∃ n, S.Wrote w.ghost.log rs n u.ghost.toLedger ∧ vs = (Log.placed n rs).map (·.1)) ∧
        ∃ b, Batch.ofRecords S.config.hasher S.config.maxBatchLength kind rs = .ok b)
      (fun e T u => T.Inv u ∧ u.ghost.Rests i ∧ (S.calm → u.ghost.log = w.ghost.log ∧
        (¬S.Bounded u.ghost.log ∨
          Batch.ofRecords S.config.hasher S.config.maxBatchLength kind rs = .error e))) S w := by
  have hread : Reading i S w S w := .refl hw hrest
  unfold Tables.write
  refine Abides.bind (abides_checkOpen hw ?_)
  refine abides_request_bind (.resolve S.name) hrest (by simp)
    (fun T v hv hwv => ⟨S.segment, ?_, fun U u hu hvu => ?_⟩)
    fun e U u hc hu hwu => ⟨hu, hwu.rests hrest, fun hc' => absurd hc' hc⟩
  · cases hwv.renews
    exact looks_resolve hv.stores
  have hu' := (hread.go hv hwv).go hu hvu
  have hkeeps := hu'.carries.keeps hi
  split
  · next hempty =>
    obtain rfl := List.isEmpty_iff.1 hempty
    refine ⟨hu, hu'.rests, ⟨Log.size u.ghost.log, ⟨⟨u.ghost.log, hkeeps, rfl, ?_⟩, ?_, ?_⟩, rfl⟩,
      _, rfl⟩
    · rw [List.append_nil]
      exact ⟨List.prefix_rfl, fun _ => rfl⟩
    · exact Nat.le_trans hu'.carries.renews.start_le hu.coherent.start.le
    · exact fun e he => by cases he
  · refine Abides.bind ?_
    cases hof : Batch.ofRecords S.config.hasher S.config.maxBatchLength kind rs with
    | error e => exact ⟨hu, hu'.rests, fun hc => ⟨hkeeps.2 hc, .inr rfl⟩⟩
    | ok b =>
      have hb := Batch.lists_ofRecords hof
      rw [abides_ofExcept_ok]
      refine Abides.bind ?_
      cases hu'.carries.renews
      refine (abides_update hu hu'.rests hi hb).mono ?_ ?_
      · rintro n T t ⟨ht, hrestt, hwrote⟩
        exact ⟨ht, hrestt, ⟨n, hwrote.since hu'.carries hi, hb.placed n⟩, b, rfl⟩
      · rintro e T t ⟨ht, hrestt, hbad⟩
        refine ⟨ht, hrestt, fun hc => ⟨?_, .inl (hbad hc).2⟩⟩
        rw [(hbad hc).1]
        exact hkeeps.2 hc

end KeyedLog.Site
