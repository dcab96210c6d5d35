import KeyedLog.Proofs.Custody.Rules
import KeyedLog.Proofs.Operation.Operations

/-! Writes and the batches they take on: each is appended, recorded, and persisted or handed on. -/
namespace KeyedLog

theorem Links.hash_of_head {b : Batch} {n y : Nat} {m : Heads} {h : KeyHash}
    (hy : (h, y) ∈ (Links.ofBatch b n m).heads) : h ∈ b.hashes := by
  obtain ⟨h', hh, hy⟩ := List.mem_filterMap.1 hy
  obtain ⟨y', -, heq⟩ := Option.map_eq_some_iff.1 hy
  obtain ⟨rfl, -⟩ := Prod.mk.inj heq
  exact hh

theorem Batch.Lists.length_pos {hasher : Hasher} {b : Batch} {rs : List Record}
    (hb : b.Lists hasher rs) (hrs : rs ≠ []) : 0 < b.length := by
  rw [hb.length]
  refine Nat.pos_of_ne_zero fun h0 => hrs ?_
  exact (Log.eq_of_prefix_of_size List.nil_prefix h0.symm).symm

namespace Site

open Program

variable {S : Site} {i : Nat} {hs : List KeyHash} {w v u : World Tables Register}
  {E : TableError → World Tables Register → Prop} {α : Type} {batch : Batch} {rs : List Record}
  {b : PendingLinks} {bs : List PendingLinks}

theorem Balanced.shows (hw : S.Balanced w) :
    w.container.Shows S.name S.segment w.ghost.log (S.view w).attributes :=
  ⟨hw.stores.resolve, hw.stores.data, rfl⟩

section Locks

/-- Whatever is done with the locks held, in the end they are released. -/
theorem custody_withLocks {p : Program Tables α} (hw : S.Poised i [] w)
    (hp : ∀ v, S.Poised i hs v →
      p.Obeys S.custody i (fun _ => S.Poised i hs) (fun _ => S.Poised i hs) v) :
    (Tables.withLocks (hs.map (⟨S.segment, ·⟩)) p).Obeys S.custody i (fun _ => S.Poised i [])
      (fun _ => S.Poised i []) w := by
  unfold Tables.withLocks
  rw [obeys_bind, obeys_waitUntil]
  refine ⟨(steady_poised S i []).tidy hw, fun v hv hwv => ?_⟩
  have hv' := (steady_poised S i []).go hw hv hwv
  refine ⟨fun hready => ?_, fun _ => ⟨trivial, fun _ => hv'⟩⟩
  have hfree (h : KeyHash) (hh : h ∈ hs) : v.ghost.owner h = none := by
    have hfree := Locks.free_segment_iff.1 hready h hh
    simpa [view] using (hv.balances.held h).symm.trans hfree
  rw [obeys_bind]
  refine custody_modify
    (f := fun t => { t with locks := t.locks.take (hs.map (⟨S.segment, ·⟩)) }) hv
    (v.ghost.lock i hs) ⟨hv.serves.opened, hv.serves.indexOpened, hv.serves.tracked⟩ rfl rfl
    (View.shifts_lock hv.balances hfree fun _ => Locks.contains_take_segment) fun hu => ?_
  rw [obeys_ensuring]
  refine (hp _ ⟨hu, hv'.empty, hv'.recoverer, fun h => ?_⟩).mono ?_ ?_
  · by_cases hh : h ∈ hs
    · simp [Register.lock, hh]
    · simp [Register.lock, hh, hv'.owner h]
  all_goals
    intro a t ht
    have ht' := ht.balanced
    refine custody_modify
      (f := fun t => { t with locks := t.locks.release (hs.map (⟨S.segment, ·⟩)) }) ht'
      (t.ghost.unlock hs) ⟨ht'.serves.opened, ht'.serves.indexOpened, ht'.serves.tracked⟩ rfl rfl
      (View.shifts_unlock ht'.balances (fun h hh => (ht.owner h).2 hh)
        (fun c hc => (ht.empty c hc).1) fun _ => Locks.contains_release_segment)
      fun hu => ⟨hu, ht.empty, ht.recoverer, fun h => ?_⟩
    by_cases hh : h ∈ hs
    · simp [Register.unlock, hh]
    · simp [Register.unlock, hh, ht.owner h]

end Locks

structure Entered (S : Site) (i : Nat) (hs : List KeyHash) (b : PendingLinks)
    (w : World Tables Register) : Prop where
  balanced : S.Balanced w
  recovered : S.Recovered w
  fresh : ∀ {c}, c ∈ w.ghost.batches ∧ w.ghost.stage c.offset = .fresh i ↔ c = b
  held : ∀ {c}, c ∈ w.ghost.batches → w.ghost.stage c.offset ≠ .held i
  recoverer : w.ghost.recoverer ≠ some i
  owner : ∀ h, w.ghost.owner h = some i ↔ h ∈ hs

theorem Entered.go (hw : S.Entered i hs b w) (hv : S.Balanced v)
    (h : (S.view w).Leaves i (S.view v)) : S.Entered i hs b v where
  balanced := hv
  recovered := hw.recovered.go h
  fresh := h.fresh.trans hw.fresh
  held hc hs' := by
    obtain ⟨hc, hs'⟩ := h.held.1 ⟨hc, hs'⟩
    exact hw.held hc hs'
  recoverer hr := hw.recoverer (h.recoverer.1 hr)
  owner k := (h.owner k).trans (hw.owner k)

section Append

variable {m : Heads} {c : Container} {s : Stage}

def nextLinks (w : World Tables Register) (batch : Batch) (m : Heads) : PendingLinks :=
  ⟨Links.ofBatch batch (Log.size w.ghost.log) m, Log.size w.ghost.log, batch.length⟩

theorem view_append (hc : (c.segment S.segment).attributes = (S.view w).attributes) (g : Register) :
    S.view ⟨c, w.state, g⟩ = { S.view w with register := g } := by
  simp only [view, hc]

variable (hw : S.Poised i batch.hashes w) (hr : S.Recovered w)
  (hb : batch.Lists S.config.hasher rs) (hrs : rs ≠ [])
include hw hr hb hrs

/-- Whoever holds the locks of a batch appends it, be it unknowingly. -/
theorem shifts_nextLinks (m : Heads) (hs : s = .fresh i ∨ s = .lost) :
    (S.view w).Shifts S.config.hasher i
      { S.view w with register := w.ghost.append rs (nextLinks w batch m) s } :=
  View.shifts_append hw.balanced.balances rfl hr hb.wellformed hw.empty (Spans.of_batch hb m)
    hb.length (hb.length_pos hrs) (fun hy => (hw.owner _).2 (Links.hash_of_head hy)) hs

theorem balanced_append (hc : c.Shows S.name S.segment (w.ghost.log ++ rs) (S.view w).attributes)
    (m : Heads) (hs : s = .fresh i ∨ s = .lost) :
    S.Balanced ⟨c, w.state, w.ghost.append rs (nextLinks w batch m) s⟩ where
  stores := ⟨hc.resolve, hc.data⟩
  serves := hw.balanced.serves
  balances := view_append hc.attributes _ ▸ (shifts_nextLinks hw hr hb hrs m hs).balances

theorem entered_append (hc : c.Shows S.name S.segment (w.ghost.log ++ rs) (S.view w).attributes)
    (m : Heads) :
    S.Entered i batch.hashes (nextLinks w batch m)
      ⟨c, w.state, w.ghost.append rs (nextLinks w batch m) (.fresh i)⟩ where
  balanced := balanced_append hw hr hb hrs hc m (.inl rfl)
  recovered := by
    unfold Recovered
    rw [view_append hc.attributes]
    exact hr
  fresh := View.fresh_append_iff hw.balanced.balances rfl hw.empty
  held hd := View.held_append hw.balanced.balances rfl hw.empty hd
  recoverer := hw.recoverer
  owner := hw.owner

end Append

/-- A batch is appended, or not. Either may be reported as a failure. -/
theorem custody_append {m : Heads} {K : Nat → World Tables Register → Prop}
    (hw : S.Poised i batch.hashes w ∧ S.Recovered w) (hb : batch.Lists S.config.hasher rs)
    (hrs : rs ≠ [])
    (hK : ∀ n u, S.Entered i batch.hashes ⟨Links.ofBatch batch n m, n, batch.length⟩ u →
      K n u)
    (hE : ∀ e u, S.Poised i batch.hashes u → E e u) :
    (request (.append S.segment (Record.encodeAll recordChecksum rs)) : Program Tables Nat).Obeys
      S.custody i K E w := by
  have hsteady := steady_ready S i batch.hashes
  refine (obeys_bind checkTime (fun _ => ask (.append S.segment _)) K w).2 ?_
  refine (obeys_checkTime _).2 ⟨hsteady.tidy hw, fun v hv hwv => ?_⟩
  have hv' := hsteady.go hw hv hwv
  refine ⟨(obeys_ask (.append S.segment _) K).2 ⟨hsteady.tidy hv', fun u hu hvu fate _ => ?_⟩,
    fun _ => hE _ v hv'.1⟩
  obtain ⟨hu, hr⟩ := hsteady.go hv' hu hvu
  have hz := hu.balanced.balances
  obtain ⟨c, hp, hc⟩ := hu.balanced.shows.performs_append rs
  have hleaves {s : Stage} (hs : s = .fresh i ∨ s = .lost) :=
    view_append hc.attributes (u.ghost.append rs (nextLinks u batch m) s) ▸
      (shifts_nextLinks hu hr hb hrs m hs).leaves
  have hdata : (nextLinks u batch m).length = (Record.encodeAll recordChecksum rs).length := by
    rw [Log.length_encodeAll]
    exact hb.length
  cases fate with
  | served =>
    have hs : u.container.serve (.append S.segment (Record.encodeAll recordChecksum rs)) .served =
        (c, .ok (Log.size u.ghost.log)) := hp
    rw [hs]
    have hentered := entered_append hu hr hb hrs hc m
    exact ⟨u.ghost.append rs (nextLinks u batch m) (.fresh i), ⟨hentered.balanced,
      hleaves (.inl rfl), _, rfl, hdata, Register.stage_append_self⟩,
      fun t ht hut => hK _ t (hentered.go ht hut)⟩
  | refused e =>
    exact ⟨u.ghost, ⟨hu.balanced, fun j _ => .refl j _, rfl⟩, fun t ht hut => hE e t (hu.go ht hut)⟩
  | lost e =>
    have hs : u.container.serve (.append S.segment (Record.encodeAll recordChecksum rs))
        (.lost e) = (c, .error e) := by
      simp only [Container.serve, hp]
    rw [hs]
    have hbalanced := balanced_append hu hr hb hrs hc m (.inr rfl)
    refine ⟨u.ghost.append rs (nextLinks u batch m) .lost, ⟨hbalanced, hleaves (.inr rfl), _, rfl,
      hdata, Register.stage_append_self, View.empty_append hz rfl⟩, fun t ht hut => hE e t ?_⟩
    exact Poised.go (w := ⟨c, u.state, u.ghost.append rs (nextLinks u batch m) .lost⟩)
      ⟨hbalanced, View.empty_append hz rfl hu.empty, hu.recoverer, hu.owner⟩ ht hut

structure Charged (S : Site) (i : Nat) (hs : List KeyHash) (bs : List PendingLinks)
    (w : World Tables Register) : Prop where
  balanced : S.Balanced w
  recovered : S.Recovered w
  carries : w.ghost.Carries i bs
  nodup : bs.Nodup
  recoverer : w.ghost.recoverer ≠ some i
  owner : ∀ h, w.ghost.owner h = some i ↔ h ∈ hs

theorem Charged.go (hw : S.Charged i hs bs w) (hv : S.Balanced v)
    (h : (S.view w).Leaves i (S.view v)) : S.Charged i hs bs v where
  balanced := hv
  recovered := hw.recovered.go h
  carries := h.carries hw.carries
  nodup := hw.nodup
  recoverer hr := hw.recoverer (h.recoverer.1 hr)
  owner k := (h.owner k).trans (hw.owner k)

theorem charged_nil : S.Charged i hs [] w ↔ S.Poised i hs w ∧ S.Recovered w := by
  constructor
  · intro hw
    exact ⟨⟨hw.balanced, Register.carries_nil.1 hw.carries, hw.recoverer, hw.owner⟩, hw.recovered⟩
  · rintro ⟨hw, hrec⟩
    exact ⟨hw.balanced, hrec, Register.carries_nil.2 hw.empty, List.nodup_nil, hw.recoverer,
      hw.owner⟩

theorem steady_charged (S : Site) (i : Nat) (hs : List KeyHash) (bs : List PendingLinks) :
    S.custody.Steady i (S.Charged i hs bs) :=
  steady_custody (fun hw => hw.balanced) (fun hw _ hb => hw.carries.fresh hb)
    fun hw hv h => hw.go hv h

theorem Charged.mem (hw : S.Charged i hs bs w) :
    ∀ b ∈ bs, b ∈ w.ghost.batches ∧ w.ghost.stage b.offset = .held i :=
  fun _ hb => hw.carries.held.1 hb

theorem view_exchange (hs : w.state.Serves S.segment S.place) (ht : (S.view w).tracked = true)
    (s : SegmentState) (c : Cache) (g : Register) :
    S.view ⟨w.container, { w.state.modifyState S.place fun _ => s with cache := c }, g⟩ =
      { S.view w with register := g, state := s } :=
  view_modifyState hs ht (fun _ => s) g

/-- The links of an appended batch are recorded. -/
theorem custody_record {K : Unit → World Tables Register → Prop} (hw : S.Entered i hs b w)
    (hK : ∀ v, S.Charged i hs [b] v → K () v) :
    (Program.modify (Tables.record S.segment S.place b.links)).Obeys S.custody i K E w := by
  obtain ⟨hb, hf⟩ := hw.fresh.2 rfl
  have ht := hw.balanced.tracked hw.recovered
  generalize hheads : b.links.heads.foldl (fun m e => m.insert e.1 e.2) (S.view w).state.heads =
    heads
  generalize hbps : b.links.backpointers.foldl (fun m e => m.insert e.1 e.2)
    (S.view w).state.backpointers = bps
  generalize hcache : b.links.heads.foldl (fun c e => c.erase ⟨S.segment, e.1⟩) w.state.cache =
    cache
  have hm := View.shifts_record (n := (S.view w).state.generation + 1)
    hw.balanced.balances hb hf (fun hy => insertAll_some (hheads ▸ hy))
    (fun hn => insertAll_none (hheads ▸ hn)) (fun hp => insertAll_some (hbps ▸ hp))
    fun hn => insertAll_none (hbps ▸ hn)
  have hview := view_exchange hw.balanced.serves ht
    { (S.view w).state with
      heads
      backpointers := bps
      generation := (S.view w).state.generation + 1 } cache (w.ghost.move [b] (.held i))
  have hrecord : Tables.record S.segment S.place b.links w.state =
      { w.state.modifyState S.place fun _ =>
          { (S.view w).state with
            heads
            backpointers := bps
            generation := (S.view w).state.generation + 1 } with
        cache } := by
    rw [← hheads, ← hbps, ← hcache]
    rfl
  refine custody_modify hw.balanced (w.ghost.move [b] (.held i))
    (hrecord ▸ serves_exchange hw.balanced.serves _ _) rfl rfl
    (by rw [hrecord, hview]; exact hm) fun hv => hK _ ?_
  refine ⟨hv, ?_, hw.balanced.balances.carries_record hb hw.fresh.1 hw.held, List.nodup_singleton b,
    hw.recoverer, hw.owner⟩
  unfold Recovered
  rw [hrecord, hview]
  exact hw.recovered

section Persist

/-- Attributes are written, or not. Either may be reported as a failure. -/
theorem custody_attributes {us : List AttributeUpdate} {Q : World Tables Register → Prop}
    {K : Unit → World Tables Register → Prop} (hsteady : S.custody.Steady i Q) (hw : Q w)
    (hshift : ∀ v, Q v → ∀ j, (S.view v).Shifts S.config.hasher j
      { S.view v with attributes := (S.view v).attributes.updateAll us })
    (hK : ∀ v u, Q v → Q u →
      ({ S.view v with attributes := (S.view v).attributes.updateAll us } : View).Leaves i
        (S.view u) → K () u)
    (hE : ∀ e u, Q u → E e u) :
    (request (.updateAttributes S.segment us)).Obeys S.custody i K E w := by
  refine (obeys_bind checkTime (fun _ => ask (.updateAttributes S.segment us)) K w).2 ?_
  refine (obeys_checkTime _).2 ⟨hsteady.tidy hw, fun v hv hwv => ?_⟩
  have hv' := hsteady.go hw hv hwv
  refine ⟨(obeys_ask (.updateAttributes S.segment us) K).2
    ⟨hsteady.tidy hv', fun u hu hvu fate _ => ?_⟩, fun _ => hE _ v hv'⟩
  have hu' := hsteady.go hv' hu hvu
  have hu : S.Balanced u := hu
  obtain ⟨c, hp, hc⟩ := hu.shows.performs_updateAttributes us
  have hview : S.view ⟨c, u.state, u.ghost⟩ =
      { S.view u with attributes := (S.view u).attributes.updateAll us } := by
    simp only [view, hc.attributes]
  have hbalanced : S.Balanced ⟨c, u.state, u.ghost⟩ :=
    ⟨⟨hc.resolve, hc.data⟩, hu.serves, hview ▸ (hshift u hu' i).balances⟩
  have hleaves (j : Nat) : (S.view u).Leaves j (S.view ⟨c, u.state, u.ghost⟩) :=
    hview ▸ (hshift u hu' (j + 1)).leaves j (by omega)
  have hdone {t : World Tables Register} (ht : S.Balanced t)
      (hut : (S.view ⟨c, u.state, u.ghost⟩).Leaves i (S.view t)) : Q t :=
    hsteady.go hu' ht ((hleaves i).trans hut)
  cases fate with
  | served =>
    have hs : u.container.serve (.updateAttributes S.segment us) .served = (c, .ok ()) := hp
    rw [hs]
    exact ⟨u.ghost, ⟨hbalanced, fun j _ => hleaves j, rfl⟩,
      fun t ht hut => hK u t hu' (hdone ht hut) (hview ▸ hut)⟩
  | refused e =>
    exact ⟨u.ghost, ⟨hu, fun j _ => .refl j _, rfl⟩, fun t ht hut => hE e t (hsteady.go hu' ht hut)⟩
  | lost e =>
    have hs : u.container.serve (.updateAttributes S.segment us) (.lost e) = (c, .error e) := by
      simp only [Container.serve, hp]
    rw [hs]
    exact ⟨u.ghost, ⟨hbalanced, fun j _ => hleaves j, rfl⟩, fun t ht hut => hE e t (hdone ht hut)⟩

/-- A batch whose links are persisted is done. -/
theorem retire_charged (hw : S.Charged i hs (b :: bs) w)
    (hk : b.links.Kept (S.view w).attributes) :
    let r := Tables.retire S.segment S.place w.state b
    let g := w.ghost.move [b] .done
    r.1.Serves S.segment S.place ∧
      (S.view w).Shifts S.config.hasher i (S.view ⟨w.container, r.1, g⟩) ∧
      S.Charged i hs bs ⟨w.container, r.1, g⟩ ∧
      ∀ n, r.2 = some n → (S.view ⟨w.container, r.1, g⟩).state.watermark.offset = n := by
  obtain ⟨hb, hheld⟩ := hw.mem b List.mem_cons_self
  have ht := hw.balanced.tracked hw.recovered
  generalize hheads : SegmentState.retireHeads (S.view w).state.heads w.state.cache S.segment
    b.links.heads = r
  generalize hbps : b.links.backpointers.foldl (fun m e => m.erase e.1)
    (S.view w).state.backpointers = bps
  obtain ⟨hsome, hnone, -⟩ := hheads ▸ @SegmentState.retireHeads_spec
    (S.view w).state.heads w.state.cache S.segment b.links.heads
  have hm := View.shifts_retire (H := r.1) (B := bps) hw.balanced.balances hb hheld
    hk (fun hy => ⟨hsome hy, fun hmem => SegmentState.retireHeads_ne hmem (hheads ▸ hy)⟩) hnone
    (fun {x p} hx => ⟨(eraseAll_some (hbps ▸ hx)).1,
      fun p' hp' => (eraseAll_some (hbps ▸ hx)).2 _ hp' rfl⟩)
    fun {x} hn => by
      rcases eraseAll_none (hbps ▸ hn) with hn | ⟨e, he, rfl⟩
      · exact .inl hn
      · exact .inr ⟨e.2, he⟩
  have hview := view_exchange hw.balanced.serves ht
    { (S.view w).state with
      heads := r.1
      backpointers := bps
      watermark := ((S.view w).state.watermark.complete b.offset (b.offset + b.length)).1 } r.2
    (w.ghost.move [b] .done)
  have hretire : Tables.retire S.segment S.place w.state b =
      ({ w.state.modifyState S.place fun _ =>
          { (S.view w).state with
            heads := r.1
            backpointers := bps
            watermark := ((S.view w).state.watermark.complete b.offset (b.offset + b.length)).1 }
          with cache := r.2 },
        ((S.view w).state.watermark.complete b.offset (b.offset + b.length)).2) := by
    rw [← hheads, ← hbps]
    rfl
  have hserves := serves_exchange hw.balanced.serves
    { (S.view w).state with
      heads := r.1
      backpointers := bps
      watermark := ((S.view w).state.watermark.complete b.offset (b.offset + b.length)).1 } r.2
  obtain ⟨hnot, hnodup⟩ := List.nodup_cons.1 hw.nodup
  rw [hretire]
  refine ⟨hserves, hview ▸ hm, ⟨⟨hw.balanced.stores, hserves, hview ▸ hm.balances⟩, ?_,
    hw.balanced.balances.carries_retire hw.carries hnot, hnodup, hw.recoverer, hw.owner⟩,
    fun n hn => ?_⟩
  · unfold Recovered
    rw [hview]
    exact hw.recovered
  · dsimp only at hn ⊢
    rw [hview]
    exact Watermark.complete_moved hn

/-- All of several batches are done. How far the watermark rose is told. -/
theorem retireAll_charged {o : Option Nat} (hw : S.Charged i hs bs w)
    (hk : ∀ b ∈ bs, b.links.Kept (S.view w).attributes)
    (hmoved : ∀ n, o = some n →
      Log.Boundary w.ghost.log n ∧ n ≤ (S.view w).state.watermark.offset) :
    let r := bs.foldl (fun (t, moved) b =>
      let (t, newer) := Tables.retire S.segment S.place t b
      (t, newer <|> moved)) (w.state, o)
    ∃ g, g.log = w.ghost.log ∧ g.batches = w.ghost.batches ∧ r.1.Serves S.segment S.place ∧
      (S.view w).Shifts S.config.hasher i (S.view ⟨w.container, r.1, g⟩) ∧
      S.Charged i hs [] ⟨w.container, r.1, g⟩ ∧
      ∀ n, r.2 = some n → Log.Boundary g.log n ∧
        n ≤ (S.view ⟨w.container, r.1, g⟩).state.watermark.offset := by
  induction bs generalizing w o with
  | nil =>
    exact ⟨w.ghost, rfl, rfl, hw.balanced.serves, ⟨hw.balanced.balances, fun j _ => .refl j _⟩, hw,
      hmoved⟩
  | cons b bs ih =>
    obtain ⟨hs', hm, hv, hoffset⟩ := retire_charged hw (hk b (by simp))
    generalize hr : Tables.retire S.segment S.place w.state b = r at hs' hm hv hoffset
    generalize hg : w.ghost.move [b] .done = g at hm hv hoffset
    have hlog : g.log = w.ghost.log := by rw [← hg]; rfl
    have hbatches : g.batches = w.ghost.batches := by rw [← hg]; rfl
    have hleaves := hm.leaves (i + 1) (by omega)
    obtain ⟨g', hlog', hbatches', hserves, hm', hv', hmoved'⟩ :=
      ih (w := ⟨w.container, r.1, g⟩) (o := r.2 <|> o) hv (fun c hc => hk c (by simp [hc]))
        fun n hn => by
          cases hr2 : r.2 with
          | some m =>
            rw [hr2] at hn
            obtain rfl := Option.some.inj hn
            have hm := hoffset m hr2
            exact ⟨hm ▸ hv.balanced.balances.boundary, Nat.le_of_eq hm.symm⟩
          | none =>
            rw [hr2] at hn
            obtain ⟨hbound, hle⟩ := hmoved n hn
            exact ⟨hlog ▸ hbound, Nat.le_trans hle hleaves.watermark⟩
    rw [List.foldl_cons]
    dsimp only
    rw [hr]
    exact ⟨g', hlog'.trans hlog, hbatches'.trans hbatches, hserves, hm.trans hm', hv', hmoved'⟩

/-- A thread takes the batches that were left to it. -/
theorem custody_take {K : Unit → World Tables Register → Prop} (hw : S.Charged i hs [b] w)
    (hK : ∀ v, S.Charged i hs ((S.view w).state.pending ++ [b]) v → K () v) :
    (Tables.change S.place ({ · with pending := [] })).Obeys S.custody i K E w := by
  obtain ⟨hb, hheld⟩ := hw.mem b (List.mem_singleton_self b)
  have hz := hw.balanced.balances
  generalize hps : (S.view w).state.pending = ps at hK
  have hpending {c : PendingLinks} :
      c ∈ ps ↔ c ∈ w.ghost.batches ∧ w.ghost.stage c.offset = .pending := by
    rw [← hps]
    exact hz.pending
  have hshift : (S.view w).Shifts S.config.hasher i
      { S.view w with
        register := w.ghost.move ps (.held i)
        state := { (S.view w).state with pending := [] } } := by
    refine View.shifts_pass hz (fun c hc => ?_) (.inr ⟨rfl, fun he => (he b hb).2 hheld⟩)
      (fun {c} => ⟨fun hc => (by cases hc), fun ⟨hc, hs'⟩ => ?_⟩) List.nodup_nil
    · obtain ⟨hc, hs'⟩ := hpending.1 hc
      exact ⟨hc, .inr hs'⟩
    · rw [← hps] at hs'
      exact absurd hs' (hz.pending_take hc)
  refine custody_change (f := fun s => { s with pending := [] }) hw.balanced
    (hw.balanced.tracked hw.recovered) (w.ghost.move ps (.held i)) rfl rfl hshift
    fun v hv hvs => hK v ?_
  have hghost : v.ghost = w.ghost.move ps (.held i) := congrArg View.register hvs
  refine ⟨hv, ?_, ?_, ?_, hghost ▸ hw.recoverer, hghost ▸ hw.owner⟩
  · unfold Recovered
    rw [hvs]
    exact hw.recovered
  · rw [hghost, ← hps]
    exact hz.carries_take hw.carries
  · refine List.nodup_append.2 ⟨hps ▸ hz.nodup, List.nodup_singleton b, fun c hc d hd hcd => ?_⟩
    rw [List.mem_singleton.1 hd] at hcd
    cases (hpending.1 (hcd ▸ hc)).2.symm.trans hheld

/-- A thread leaves its batches to the next write. -/
theorem custody_leave {K : Unit → World Tables Register → Prop} (hw : S.Charged i hs bs w)
    (hK : ∀ v, S.Poised i hs v → K () v) :
    (Tables.change S.place fun s => { s with pending := s.pending ++ bs }).Obeys S.custody i K E
      w := by
  have hz := hw.balanced.balances
  have hsub : bs ⊆ w.ghost.batches := fun c hc => (hw.mem c hc).1
  have hshift : (S.view w).Shifts S.config.hasher i
      { S.view w with
        register := w.ghost.move bs .pending
        state := { (S.view w).state with pending := (S.view w).state.pending ++ bs } } := by
    refine View.shifts_pass hz (fun c hc => ⟨hsub hc, .inl (hw.mem c hc).2⟩) (.inl rfl)
      (hz.pending_leave hsub)
      (List.nodup_append.2 ⟨hz.nodup, hw.nodup, fun c hc d hd hcd => ?_⟩)
    cases (hz.pending.1 (hcd ▸ hc)).2.symm.trans (hw.mem d hd).2
  refine custody_change (f := fun s => { s with pending := s.pending ++ bs }) hw.balanced
    (hw.balanced.tracked hw.recovered) (w.ghost.move bs .pending) rfl rfl hshift
    fun v hv hvs => hK v ?_
  have hghost : v.ghost = w.ghost.move bs .pending := congrArg View.register hvs
  refine ⟨hv, ?_, hghost ▸ hw.recoverer, hghost ▸ hw.owner⟩
  rw [hghost]
  exact hz.empty_leave hw.carries

theorem custody_persistOffset {n : Nat} {K : Except TableError Unit → World Tables Register → Prop}
    (hw : S.Charged i hs [] w) (hn : Log.Boundary w.ghost.log n)
    (hle : n ≤ (S.view w).state.watermark.offset) (hK : ∀ o v, S.Poised i hs v → K o v) :
    (request (.updateAttributes S.segment [.replaceIfGreater .indexOffset n])).attempt.Obeys
      S.custody i K E w := by
  have hsteady : S.custody.Steady i fun v => S.Charged i hs [] v ∧ Log.Boundary v.ghost.log n ∧
      n ≤ (S.view v).state.watermark.offset :=
    steady_custody (fun hv => hv.1.balanced) (fun hv _ hb => hv.1.carries.fresh hb)
      fun hv hu h => ⟨hv.1.go hu h, hv.2.1.mono h.log, Nat.le_trans hv.2.2 h.watermark⟩
  refine (obeys_attempt (request (.updateAttributes S.segment _)) K w).2 ?_
  exact custody_attributes hsteady ⟨hw, hn, hle⟩
    (fun v hv j => View.shifts_index hv.1.balanced.balances hv.2.2 hv.2.1)
    (fun _ u _ hu _ => hK _ u (charged_nil.1 hu.1).1) fun _ u hu => hK _ u (charged_nil.1 hu.1).1

/-- Links are persisted, or left to the next write if that fails. -/
theorem custody_persist (hw : S.Charged i hs [b] w) :
    (Tables.persist S.segment S.place b).Obeys S.custody i (fun _ => S.Poised i hs)
      (fun _ => S.Poised i hs) w := by
  unfold Tables.persist
  rw [obeys_bind, obeys_look, obeys_bind]
  refine custody_take hw fun v hv => ?_
  generalize hbs : (w.state.state S.place).pending ++ [b] = bs
  have hv : S.Charged i hs bs v := hbs ▸ hv
  refine (obeys_bind _ _ _ _).2 ?_
  refine (obeys_attempt (request (.updateAttributes S.segment _)) _ v).2 ?_
  refine custody_attributes (steady_charged S i hs bs) hv
    (fun u hu j => View.shifts_links hu.balanced.balances fun c hc => (hu.mem c hc).1)
    (fun u t hu ht hut => ?_) fun e u hu => ?_
  · have hkept : ∀ c ∈ bs, c.links.Kept (S.view t).attributes := by
      intro c hc
      have hk := View.kept_updateAll hu.balanced.balances (fun d hd => (hu.mem d hd).1)
        (hu.mem c hc).1 (.inl hc)
      exact hut.kept (hu.mem c hc).1 hk
    obtain ⟨g, hlog, hbatches, hserves, hm, hd, hmoved⟩ := retireAll_charged ht hkept
      fun n (hn : none = some n) => by cases hn
    change (read >>= _ : Program Tables Unit).Obeys _ _ _ _ t
    rw [obeys_bind, obeys_read]
    unfold Tables.retireAll
    generalize List.foldl _ (t.state, (none : Option Nat)) bs = r at hserves hm hd hmoved ⊢
    obtain ⟨t', moved⟩ := r
    dsimp only at hserves hm hd hmoved ⊢
    rw [obeys_bind]
    refine custody_modify (f := fun _ => t') ht.balanced g hserves hlog hbatches hm fun _ => ?_
    cases moved with
    | none => exact (charged_nil.1 hd).1
    | some n =>
      obtain ⟨hn, hle⟩ := hmoved n rfl
      exact (obeys_bind _ _ _ _).2 (custody_persistOffset hd hn hle fun _ _ hx => hx)
  · change (Program.bind (Tables.change S.place _) fun _ => Program.fail e).Obeys _ _ _ _ u
    exact (obeys_bind _ _ _ _).2 (custody_leave hu fun _ ht => ht)

end Persist

section Write

/-- A batch is appended, recorded, and persisted or left to the next write, unless something fails
before that. -/
theorem custody_update (hm : S.config.mode = .inline) (hw : S.Poised i [] w)
    (hb : batch.Lists S.config.hasher rs) (hrs : rs ≠ []) :
    (Tables.update S.config S.segment batch
      (request (.append S.segment (Record.encodeAll recordChecksum rs)))).Obeys S.custody i
      (fun _ => S.Poised i []) (fun _ => S.Poised i []) w := by
  unfold Tables.update
  refine (obeys_bind _ _ _ _).2 ((Rules.obeys_checkIndex hw).mono (fun _ w hw => ?_)
    fun _ _ h => h)
  refine custody_withLocks hw fun v hv => ?_
  refine (obeys_bind _ _ _ _).2 ((custody_access hv).mono ?_ fun _ _ h => h)
  rintro ref u ⟨rfl, hu⟩
  refine (obeys_bind _ _ _ _).2 ?_
  refine ((steady_ready S i batch.hashes).looks hu (Tables.looks_headsWith ..)).mono
    (fun current t ht => ?_) fun _ _ h => h.1
  refine (obeys_bind (request (.append S.segment _)) _ _ _).2 ?_
  refine custody_append (m := current) ht hb hrs (fun n c hc => ?_) fun _ _ h => h
  refine (obeys_bind _ _ _ _).2 (custody_record hc fun d hd => ?_)
  rw [if_pos hm, obeys_bind]
  exact (custody_persist hd).mono (fun _ _ h => h) fun _ _ h => h

/-- Whatever comes of a write, the thread is left with nothing. -/
theorem custody_write (hm : S.config.mode = .inline) (hw : S.Poised i [] w) (kind : RecordKind) :
    (Tables.write S.config S.name kind rs).Obeys S.custody i (fun _ => S.Poised i [])
      (fun _ => S.Poised i []) w := by
  have hsteady := steady_poised S i []
  unfold Tables.write
  refine (obeys_bind _ _ _ _).2 ((Rules.obeys_checkOpen hw).mono (fun _ w hw => ?_) fun _ _ h => h)
  refine (obeys_bind (request (.resolve S.name)) _ _ _).2 ?_
  refine (hsteady.resolve (fun hv => hv.balanced.stores.resolve) hw).mono ?_ fun _ _ h => h
  rintro segment v ⟨rfl, hv⟩
  split
  · exact hv
  · next hempty =>
    refine (obeys_bind _ _ _ _).2 ?_
    cases hof : Batch.ofRecords S.config.hasher S.config.maxBatchLength kind rs with
    | error e => exact hv
    | ok b =>
      rw [obeys_ofExcept_ok]
      refine (obeys_bind _ _ _ _).2 ?_
      exact custody_update hm hv (Batch.lists_ofRecords hof) fun h => hempty (by rw [h]; rfl)

/-- No operation leaves anything behind that nobody sees to. -/
theorem custody_operation {op : Operation} (hm : S.config.mode = .inline)
    (hop : op.Fits S.config S.name S.segment i) (hw : S.Poised i [] w) :
    (op.program S.config S.name).Obeys S.custody i (fun _ => S.Poised i [])
      (fun _ => S.Poised i []) w := by
  cases op with
  | put entries => exact (obeys_map _ _ _).2 (custody_write hm hw _)
  | remove keys =>
    refine (obeys_map _ _ _).2 ?_
    exact (obeys_bind _ _ _ _).2 ((custody_write hm hw _).mono (fun _ _ h => h) fun _ _ h => h)
  | get keys =>
    refine (obeys_map _ _ _).2 ?_
    exact (obeys_bind _ _ _ _).2 ((custody_lookup hw keys).mono (fun _ _ h => h) fun _ _ h => h)
  | getKeys keys =>
    refine (obeys_map _ _ _).2 ?_
    exact (obeys_bind _ _ _ _).2 ((custody_lookup hw keys).mono (fun _ _ h => h) fun _ _ h => h)
  | index connector limit =>
    obtain ⟨hd, -⟩ := hop
    rw [hm] at hd
    cases hd

end Write

end Site
end KeyedLog
