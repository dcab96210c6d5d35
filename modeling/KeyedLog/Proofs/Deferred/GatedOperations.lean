import KeyedLog.Proofs.Deferred.WatermarkGate
import KeyedLog.Proofs.Write.AppendLast

/-! Operations that pass the gate to a segment, and the indexer that opens it. -/
namespace KeyedLog

/-- The index offset rises, at least to what is written. -/
theorem Attributes.index_updateAll {a : Attributes} {us : List AttributeUpdate}
    (hus : ∀ u ∈ us, u.id ≠ .indexOffset) (n : Nat) :
    let next := (a.updateAll (us ++ [.replaceIfGreater .indexOffset n]))[AttributeId.indexOffset]?
    n ≤ next.getD 0 ∧ a[AttributeId.indexOffset]?.getD 0 ≤ next.getD 0 := by
  intro next
  have hrule : ∀ u ∈ us ++ [AttributeUpdate.replaceIfGreater .indexOffset n],
      u.id = .indexOffset → u.rule = .replaceIfGreater := by
    intro u hu hid
    rcases List.mem_append.1 hu with hu | hu
    · exact absurd hid (hus u hu)
    · rw [List.mem_singleton.1 hu]
      rfl
  constructor
  · obtain ⟨x, hx, hle⟩ := Attributes.updateAll_grows (m := a) (v := n) hrule
      (.inl ⟨.replaceIfGreater .indexOffset n, by simp, rfl, Nat.le_refl n⟩)
    rw [show next = some x from hx]
    exact hle
  · cases hold : a[AttributeId.indexOffset]? with
    | none => exact Nat.zero_le _
    | some v =>
      obtain ⟨x, hx, hle⟩ := Attributes.updateAll_grows (v := v) hrule
        (.inr ⟨v, hold, Nat.le_refl _⟩)
      rw [show next = some x from hx]
      exact hle

namespace Site

open Program

variable {S : Site} {judged : Nat → Prop} {i n : Nat} {w v : World Tables Toll} {α : Type}
  {E : TableError → World Tables Toll → Prop} {bs : List Bucket}

/-- A thread has nothing to see to but some locks. -/
abbrev Bound (S : Site) (i : Nat) (bs : List Bucket) : World Tables Toll → Prop :=
  S.Waits i bs fun _ => True

abbrev Admitted (S : Site) (i : Nat) (bs : List Bucket) : World Tables Toll → Prop :=
  S.Waits i bs fun z => True ∧ z.Open

theorem Admitted.recovered (hw : S.Admitted i bs w) : (S.sight w).state.recovered ≠ none := by
  obtain ⟨-, n, -, hn⟩ := hw.known
  simp [hn]

theorem Admitted.tracked (hw : S.Admitted i bs w) : (S.sight w).tracked = true := by
  obtain ⟨-, n, -, hn⟩ := hw.known
  exact (hw.guarded.orderly.recovered hn).1

theorem Admitted.shift (hw : S.Admitted i bs w) (hv : S.Guarded v)
    (h : (S.sight w).Onward (S.sight v)) (hg : v.ghost = w.ghost) : S.Admitted i bs v where
  guarded := hv
  recoverer := hg ▸ hw.recoverer
  notices := hg ▸ hw.notices
  owner := hg ▸ hw.owner
  known := stays_true.open h hw.known

theorem steady_admitted : (S.gate judged).Steady i (S.Admitted i bs) :=
  steady_gate stays_true.open fun _ _ h => h.2

/-- Lookups pass the gate before they look. -/
theorem gate_lookup {mode : ReadMode} (hm : S.config.mode = .deferred) (hw : S.Bound i bs w)
    (keys : List Bytes) :
    (Tables.lookup S.config mode S.name keys).Obeys (S.gate judged) i (fun _ => S.Bound i bs)
      (fun _ => S.Bound i bs) w := by
  have hsteady : (S.gate judged).Steady i (S.Admitted i bs) := steady_admitted
  refine hsteady.lookup id Waits.forget (gate_resolve stays_true) (fun hv => ?_) (fun hv => ?_) hw
    keys
  · exact (gate_access hm stays_true hv).mono (fun _ _ h => h.2) fun _ _ h => h
  · exact (gate_access hm stays_true.open hv).mono (fun _ _ h => h.2.forget) fun _ _ h => h

section Writing

theorem gate_withLocks {p : Program Tables α} (hw : S.Bound i [] w)
    (hp : ∀ v, S.Bound i bs v →
      p.Obeys (S.gate judged) i (fun _ => S.Bound i bs) (fun _ => S.Bound i bs) v) :
    (Tables.withLocks bs p).Obeys (S.gate judged) i (fun _ => S.Bound i [])
      (fun _ => S.Bound i []) w := by
  unfold Tables.withLocks
  rw [obeys_bind, obeys_waitUntil]
  refine ⟨hw.notices, fun v hv hwv => ?_⟩
  have hv := hw.go stays_true hv hwv
  refine ⟨fun hready => ?_, fun _ => ⟨trivial, fun _ => hv⟩⟩
  have hfree (b : Bucket) (hb : b ∈ bs) : v.ghost.owner b = none := by
    have hheld := Locks.free_iff.1 hready b hb
    have := (hv.guarded.orderly.held b).symm.trans hheld
    simpa [sight] using this
  have hserves := hv.guarded.serves
  rw [obeys_bind]
  refine gate_modify (f := fun t : Tables => { t with locks := t.locks.take bs }) hv.guarded
    (v.ghost.lock i bs) ⟨hserves.opened, hserves.indexOpened, hserves.tracked⟩
    (Sight.shifts_lock hv.guarded.orderly hfree fun b => Locks.contains_take) fun hu => ?_
  rw [obeys_ensuring]
  refine (hp _ ⟨hu, hv.recoverer, hv.notices, fun b => ?_, trivial⟩).mono ?_ ?_
  · by_cases hb : b ∈ bs
    · simp [Toll.lock, hb]
    · simp [Toll.lock, hb, hv.owner b]
  all_goals
    intro _ t ht
    have hserves := ht.guarded.serves
    refine gate_modify (f := fun t : Tables => { t with locks := t.locks.release bs }) ht.guarded
      (t.ghost.unlock bs) ⟨hserves.opened, hserves.indexOpened, hserves.tracked⟩
      (Sight.shifts_unlock ht.guarded.orderly (fun b hb => (ht.owner b).2 hb)
        fun b => Locks.contains_release) fun hu => ?_
    refine ⟨hu, ht.recoverer, ht.notices, fun b => ?_, trivial⟩
    by_cases hb : b ∈ bs
    · simp [Toll.unlock, hb]
    · simp [Toll.unlock, hb, ht.owner b]

/-- Something is appended, or not, once the gate is passed. -/
theorem gate_append {data : Bytes} {K : Nat → World Tables Toll → Prop} (hw : S.Admitted i bs w)
    (hK : ∀ n v, S.Admitted i bs v → K n v) (hE : ∀ e v, S.Admitted i bs v → E e v) :
    (request (.append S.segment data) : Program Tables Nat).Obeys (S.gate judged) i K E w := by
  have hsteady : (S.gate judged).Steady i (S.Admitted i bs) := steady_admitted
  refine (obeys_bind checkTime (fun _ => ask (.append S.segment data)) K w).2 ?_
  refine (obeys_checkTime _).2 ⟨hw.notices, fun v hv hwv => ?_⟩
  have hv := hsteady.go hw hv hwv
  refine ⟨(obeys_ask (.append S.segment data) K).2 ⟨hv.notices, fun u hu hvu fate hfate => ?_⟩,
    fun _ => hE _ v hv⟩
  have hu := hsteady.go hv hu hvu
  have hheeds (x : World Tables Toll) (fate : Fate) :
      S.Heeds (judged i) u x (.append S.segment data) fate :=
    ⟨fun _ => .inr hu.known.2, fun us e h => by cases h⟩
  cases fate with
  | served =>
    have hresolve := hu.guarded.resolve
    have hserve : u.container.serve (.append S.segment data) .served =
        (u.container.modify S.segment (·.append data []), .ok _) :=
      Container.perform_append hresolve data
    rw [hserve]
    generalize hc : u.container.modify S.segment (·.append data []) = c
    have hsegment : c.segment S.segment = (u.container.segment S.segment).append data [] := by
      rw [← hc]
      exact Container.segment_modify _ (Container.live_of_resolve hresolve).1
    have hsight : S.sight ⟨c, u.state, u.ghost⟩ =
        { S.sight u with length := (c.segment S.segment).data.length } := by
      simp only [sight, hsegment]
      rfl
    have hshift := Sight.shifts_append (i := i) hu.guarded.orderly hu.recovered
      (c.segment S.segment).data.length
    rw [← hsight] at hshift
    have hguarded : S.Guarded ⟨c, u.state, u.ghost⟩ := by
      refine ⟨?_, hu.guarded.serves, hshift.orderly⟩
      rw [← hc]
      exact (Container.resolve_modify (·.append data []) fun _ => rfl).trans hresolve
    refine ⟨u.ghost, ⟨hguarded, hshift.leaves, fun q fate hact => ?_⟩, fun t ht hut => hK _ t ?_⟩
    · obtain ⟨rfl, rfl⟩ := Prod.mk.inj (Option.some.inj hact)
      exact hheeds _ _
    · exact hsteady.go (hu.shift hguarded hshift.onward rfl) ht hut
  | refused e =>
    refine ⟨u.ghost, ⟨hu.guarded, fun j _ => .refl j _, fun q fate hact => ?_⟩,
      fun t ht hut => hE e t (hsteady.go hu ht hut)⟩
    obtain ⟨rfl, rfl⟩ := Prod.mk.inj (Option.some.inj hact)
    exact hheeds _ _
  | lost e => exact absurd rfl (hfate e S.segment data rfl)

/-- The links of what was appended are recorded. -/
theorem gate_record {K : Unit → World Tables Toll → Prop} (hw : S.Admitted i bs w) (links : Links)
    (hK : ∀ v, S.Admitted i bs v → K () v) :
    (modify (Tables.record S.segment S.place links)).Obeys (S.gate judged) i K E w := by
  generalize hr : (w.state.state S.place).record w.state.cache S.segment links = r
  have hrecord : Tables.record S.segment S.place links w.state =
      { w.state.modifyState S.place fun _ => r.1 with cache := r.2 } := by
    rw [← hr]
    rfl
  have hsight : S.sight ⟨w.container, Tables.record S.segment S.place links w.state, w.ghost⟩ =
      { S.sight w with state := r.1 } := by
    rw [hrecord]
    exact sight_modifyState hw.guarded.serves hw.tracked (fun _ => r.1) w.ghost
  have hshift : (S.sight w).Shifts i S.start { S.sight w with state := r.1 } := by
    apply Sight.shifts_state hw.guarded.orderly
    all_goals
      rw [← hr]
      rfl
  refine gate_modify hw.guarded w.ghost (hrecord ▸ serves_exchange hw.guarded.serves r.1 r.2)
    (hsight ▸ hshift) fun hv => hK _ ?_
  exact hw.shift hv (hsight ▸ hshift.onward) rfl

theorem gate_update {batch : Batch} {data : Bytes} (hm : S.config.mode = .deferred)
    (hw : S.Bound i [] w) :
    (Tables.update S.config S.segment batch (request (.append S.segment data))).Obeys
      (S.gate judged) i (fun _ => S.Bound i []) (fun _ => S.Bound i []) w := by
  unfold Tables.update
  refine (obeys_bind _ _ _ _).2 ((Rules.obeys_checkIndex hw).mono (fun _ w hw => ?_)
    fun _ _ h => h)
  refine gate_withLocks hw fun v hv => ?_
  refine (obeys_bind _ _ _ _).2 ((gate_access hm stays_true hv).mono ?_ fun _ _ h => h)
  rintro ref u ⟨rfl, hu⟩
  refine (obeys_bind _ _ _ _).2 ?_
  refine (steady_admitted.looks hu (Tables.looks_headsWith ..)).mono (fun current t ht => ?_)
    fun _ _ h => h.forget
  refine (obeys_bind (request (.append S.segment data)) _ _ _).2 ?_
  refine gate_append ht (fun n c hc => ?_) fun _ _ h => h.forget
  refine (obeys_bind _ _ _ _).2 (gate_record hc _ fun d hd => ?_)
  rw [if_neg (by simp [hm])]
  exact hd.forget

/-- Writes pass the gate before they append. -/
theorem gate_write {rs : List Record} (hm : S.config.mode = .deferred) (hw : S.Bound i [] w)
    (kind : RecordKind) :
    (Tables.write S.config S.name kind rs).Obeys (S.gate judged) i (fun _ => S.Bound i [])
      (fun _ => S.Bound i []) w := by
  unfold Tables.write
  refine (obeys_bind _ _ _ _).2 ((Rules.obeys_checkOpen hw).mono (fun _ w hw => ?_) fun _ _ h => h)
  refine (obeys_bind (request (.resolve S.name)) _ _ _).2 ?_
  refine (gate_resolve stays_true hw).mono ?_ fun _ _ h => h
  rintro segment v ⟨rfl, hv⟩
  split
  · exact hv
  refine (obeys_bind _ _ _ _).2 ?_
  cases Batch.ofRecords S.config.hasher S.config.maxBatchLength kind rs with
  | error e => exact hv
  | ok b =>
    rw [obeys_ofExcept_ok]
    exact (obeys_bind _ _ _ _).2 (gate_update hm hv)

end Writing

section Indexing

variable (hj : ¬judged 0)
include hj

theorem steady_indexer : (S.gate judged).Steady 0 (S.Bound 0 []) :=
  steady_gate stays_true fun h => absurd h hj

/-- What is written of an entry is anything but the index offset. -/
theorem gate_linkEntry {heads : Heads} (hheads : ∀ e ∈ heads.toList, e.1.Proper)
    (hw : S.Bound 0 [] w) (r : Scanned) :
    (Indexer.linkEntry S.config S.segment heads r).Obeys (S.gate judged) 0
      (fun p v => S.Bound 0 [] v ∧ (∀ e ∈ p.1.toList, e.1.Proper) ∧ ∀ u ∈ p.2, u.id ≠ .indexOffset)
      (fun _ => S.Bound 0 []) w := by
  unfold Indexer.linkEntry
  refine (obeys_bind _ _ _ _).2 ?_
  cases hh : S.config.hasher.hash r.record.key with
  | error e => exact hw
  | ok h =>
    rw [obeys_ofExcept_ok]
    have hinsert : ∀ e ∈ (heads.insert h r.offset).toList, e.1.Proper := by
      rintro ⟨k, x⟩ he
      rw [Std.ExtTreeMap.mem_toList_iff_getElem?_eq_some, Heads.getElem?_insert] at he
      split at he
      · next hk => exact hk ▸ Hasher.proper_of_hash hh
      · exact hheads (k, x) (Std.ExtTreeMap.mem_toList_iff_getElem?_eq_some.2 he)
    have hlink (y : Nat) :
        ∀ u ∈ [AttributeUpdate.replace (.backpointer r.offset) y], u.id ≠ .indexOffset := by
      intro u hu
      rw [List.mem_singleton.1 hu]
      exact AttributeId.backpointer_ne_indexOffset _
    dsimp only
    cases heads[h]? with
    | some y => exact ⟨hw, hinsert, hlink y⟩
    | none =>
      refine (obeys_bind (ask (.getAttributes S.segment [.bucket h])) _ _ _).2 ?_
      refine (steady_indexer hj).ask (q := .getAttributes ..) trivial hw
        (fun _ _ (values : List (Option Nat)) _ _ u hu _ => ⟨hu, hinsert, ?_⟩) fun _ _ h => h
      cases values.head?.join with
      | some y => exact hlink y
      | none => exact fun u hu => by cases hu

theorem gate_linkEntries {heads : Heads} (hheads : ∀ e ∈ heads.toList, e.1.Proper)
    (hw : S.Bound 0 [] w) (records : List Scanned) :
    (Indexer.linkEntries S.config S.segment heads records).Obeys (S.gate judged) 0
      (fun p v => S.Bound 0 [] v ∧ (∀ e ∈ p.1.toList, e.1.Proper) ∧ ∀ u ∈ p.2, u.id ≠ .indexOffset)
      (fun _ => S.Bound 0 []) w := by
  induction records generalizing heads w with
  | nil => exact ⟨hw, hheads, by simp⟩
  | cons r records ih =>
    unfold Indexer.linkEntries
    refine (obeys_bind _ _ _ _).2 ((gate_linkEntry hj hheads hw r).mono ?_ fun _ _ h => h)
    rintro ⟨heads, first⟩ v ⟨hv, hheads, hfirst⟩
    refine (obeys_bind _ _ _ _).2 ((ih hheads hv).mono ?_ fun _ _ h => h)
    rintro ⟨heads, rest⟩ u ⟨hu, hheads, hrest⟩
    refine ⟨hu, hheads, fun x hx => ?_⟩
    exact (List.mem_append.1 hx).elim (hfirst x) (hrest x)

/-- The indexer is about to give notice of an index offset that it has persisted. -/
structure Reports (S : Site) (n : Nat) (w : World Tables Toll) : Prop where
  guarded : S.Guarded w
  recoverer : w.ghost.recoverer ≠ some 0
  due : w.ghost.due = some n
  owner : ∀ b, w.ghost.owner b = some 0 ↔ b ∈ []

omit hj in
/-- An index offset is persisted along with some links, whether the indexer learns of it or not. -/
theorem shifts_report {us : List AttributeUpdate} (hus : ∀ u ∈ us, u.id ≠ .indexOffset)
    (hw : S.Guarded w) (hdue : w.ghost.due = none) (n : Nat) :
    ∃ c, w.container.perform (.updateAttributes S.segment
        (us ++ [.replaceIfGreater .indexOffset n])) = (c, .ok ()) ∧
      ∀ due, (∀ e, due = some e → e = n) → S.Guarded ⟨c, w.state, { w.ghost with due }⟩ ∧
        (S.sight w).Shifts 0 S.start (S.sight ⟨c, w.state, { w.ghost with due }⟩) := by
  have hperform := Container.perform_updateAttributes hw.resolve
    (us ++ [.replaceIfGreater .indexOffset n])
  obtain ⟨hle, hgrows⟩ :=
    Attributes.index_updateAll (a := (w.container.segment S.segment).attributes) hus n
  generalize us ++ [AttributeUpdate.replaceIfGreater .indexOffset n] = updates at *
  refine ⟨_, hperform, fun due hn => ?_⟩
  have hsight : S.sight ⟨w.container.modify S.segment fun s =>
        { s with attributes := s.attributes.updateAll updates }, w.state,
        { w.ghost with due }⟩ = { S.sight w with
      toll := { (S.sight w).toll with due }
      index := ((w.container.segment S.segment).attributes.updateAll
        updates)[AttributeId.indexOffset]?.getD 0 } := by
    simp only [sight, Container.segment_modify _ (Container.live_of_resolve hw.resolve).1]
  have hshift := Sight.shifts_index hw.orderly hgrows hdue fun {e} (he : due = some e) =>
    hn e he ▸ hle
  rw [← hsight] at hshift
  refine ⟨⟨?_, hw.serves, hshift.orderly⟩, hshift⟩
  rw [Container.resolve_modify]
  · exact hw.resolve
  · exact fun _ => rfl

theorem heeds_report {us : List AttributeUpdate} {fate : Fate}
    (hv : fate = .served → v.ghost.due = some n) :
    S.Heeds (judged 0) w v
      (.updateAttributes S.segment (us ++ [.replaceIfGreater .indexOffset n])) fate := by
  refine ⟨fun h => absurd h hj, fun us' e hq hserved => ?_⟩
  injection hq with _ hq
  obtain ⟨-, hlast⟩ := List.append_inj' hq rfl
  injection hlast with hlast
  injection hlast with _ _ hlast
  exact hlast ▸ hv hserved

/-- An index offset is persisted, or not. It is due to be notified only if it is known to be. -/
theorem gate_report {us : List AttributeUpdate} (hus : ∀ u ∈ us, u.id ≠ .indexOffset)
    (hw : S.Bound 0 [] w) {K : Unit → World Tables Toll → Prop}
    (hK : ∀ v, S.Reports n v → K () v) (hE : ∀ e v, S.Bound 0 [] v → E e v) :
    (ask (.updateAttributes S.segment (us ++ [.replaceIfGreater .indexOffset n]))).Obeys
      (S.gate judged) 0 K E w := by
  have hsteady : (S.gate judged).Steady 0 (S.Bound 0 []) := steady_indexer hj
  refine (obeys_ask (.updateAttributes S.segment _) K).2
    ⟨hw.notices, fun v hv hwv fate hfate => ?_⟩
  have hv := hsteady.go hw hv hwv
  obtain ⟨c, hperform, hreport⟩ := shifts_report hus hv.guarded (hv.notices rfl) n
  cases fate with
  | served =>
    obtain ⟨hguarded, hshift⟩ := hreport (some n) fun e he => (Option.some.inj he).symm
    have hserve : v.container.serve
        (.updateAttributes S.segment (us ++ [.replaceIfGreater .indexOffset n])) .served =
        (c, .ok ()) := hperform
    rw [hserve]
    refine ⟨{ v.ghost with due := some n },
      ⟨hguarded, hshift.leaves, fun q fate hact => ?_⟩, fun u hu hvu => ?_⟩
    · obtain ⟨rfl, rfl⟩ := Prod.mk.inj (Option.some.inj hact)
      exact heeds_report hj fun _ => rfl
    · have hvu : (S.sight _).Leaves 0 (S.sight u) := hvu
      exact hK u ⟨hu, fun hr => hv.recoverer (hvu.recoverer.1 hr), hvu.notices rfl,
        fun b => (hvu.owner b).trans (hv.owner b)⟩
  | refused e =>
    refine ⟨v.ghost, ⟨hv.guarded, fun j _ => .refl j _, fun q fate hact => ?_⟩,
      fun u hu hvu => hE e u (hsteady.go hv hu hvu)⟩
    obtain ⟨rfl, rfl⟩ := Prod.mk.inj (Option.some.inj hact)
    exact heeds_report hj fun h => by cases h
  | lost e =>
    obtain ⟨hguarded, hshift⟩ := hreport none fun e he => by cases he
    have hserve : v.container.serve
        (.updateAttributes S.segment (us ++ [.replaceIfGreater .indexOffset n])) (.lost e) =
        (c, .error e) := by
      simp only [Container.serve, hperform]
    rw [hserve]
    refine ⟨{ v.ghost with due := none }, ⟨hguarded, hshift.leaves, fun q fate hact => ?_⟩,
      fun u hu hvu => hE e u ?_⟩
    · obtain ⟨rfl, rfl⟩ := Prod.mk.inj (Option.some.inj hact)
      exact heeds_report hj fun h => by cases h
    · have hvu : (S.sight _).Leaves 0 (S.sight u) := hvu
      exact ⟨hu, fun hr => hv.recoverer (hvu.recoverer.1 hr), fun _ => hvu.notices rfl,
        fun b => (hvu.owner b).trans (hv.owner b), trivial⟩

omit hj in
/-- A notice raises the watermark of the segment, if there is any state of it. -/
theorem sight_notify (hs : w.state.Serves S.segment S.place) (n : Nat) (g : Toll) :
    (w.state.notify S.segment (some n)).Serves S.segment S.place ∧
      S.sight ⟨w.container, w.state.notify S.segment (some n), g⟩ = { S.sight w with
        toll := g
        state := if (S.sight w).tracked then
            { (S.sight w).state with
              watermark := ((S.sight w).state.watermark.raise n).1 }.prune n
          else (S.sight w).state } := by
  unfold Tables.notify
  rcases hs.tracked with ⟨ht, -⟩ | ⟨ht, -⟩
  · have htracked : (S.sight w).tracked = false := by simp [sight, ht]
    rw [ht, htracked]
    exact ⟨hs, rfl⟩
  · have htracked : (S.sight w).tracked = true := by simp [sight, ht]
    rw [ht]
    change (Tables.modifyState (Tables.modifyState _ _ _) _ _).Serves _ _ ∧
      S.sight ⟨_, Tables.modifyState (Tables.modifyState _ _ _) _ _, _⟩ = _
    rw [modifyState_modifyState, sight_modifyState hs htracked, if_pos htracked]
    exact ⟨serves_modifyState hs S.place _, rfl⟩

omit hj in
/-- Once the indexer has given notice it has nothing to see to. -/
theorem gate_notify {connector : Connector} {K : Unit → World Tables Toll → Prop}
    (hid : connector.info.id = S.segment) (hw : S.Reports n w) (hK : ∀ v, S.Bound 0 [] v → K () v) :
    (modify (connector.notify n)).Obeys (S.gate judged) 0 K E w := by
  unfold Connector.notify
  rw [hid]
  generalize hg : ({ w.ghost with due := none } : Toll) = g
  obtain ⟨hserves, hsight⟩ := sight_notify hw.guarded.serves n g
  have hraise := Watermark.raise_le (w := (S.sight w).state.watermark) n
  have hopened := hw.guarded.orderly.opened
  have hshift : (S.sight w).Shifts 0 S.start
      (S.sight ⟨w.container, w.state.notify S.segment (some n), g⟩) := by
    rw [hsight, ← hg]
    apply Sight.shifts_notify hw.guarded.orderly hw.due
    · split
      · exact (Watermark.closed_raise n).trans hopened
      · exact hopened
    · split <;> rfl
    · split <;> rfl
    · split
      · exact hraise.1
      · exact Nat.le_refl _
    · intro ht
      rw [if_pos ht]
      exact hraise.2
  refine gate_modify (f := fun t => t.notify S.segment (some n)) hw.guarded g hserves hshift
    fun hv => hK _ ⟨hv, ?_, ?_, ?_, trivial⟩
  · rw [← hg]
    exact hw.recoverer
  · rw [← hg]
    exact fun _ => rfl
  · rw [← hg]
    exact hw.owner

/-- The indexer gives notice of every index offset that it has persisted. -/
theorem gate_index {connector : Connector} {limit : Option Nat}
    (hname : connector.info.name = S.name) (hid : connector.info.id = S.segment)
    (hw : S.Bound 0 [] w) :
    (Indexer.runWithin S.config connector limit).Obeys (S.gate judged) 0 (fun _ => S.Bound 0 [])
      (fun _ => S.Bound 0 []) w := by
  have hsteady : (S.gate judged).Steady 0 (S.Bound 0 []) := steady_indexer hj
  have hask (q : Call) (hq : q.Looks) {f : q.Answer → Program Tables Nat} {w : World Tables Toll}
      (hw : S.Bound 0 [] w) (hf : ∀ v answer c, S.Bound 0 [] v →
        (∃ u, S.Bound 0 [] u ∧ u.container.perform q = (c, .ok answer)) →
        (f answer).Obeys (S.gate judged) 0 (fun _ => S.Bound 0 []) (fun _ => S.Bound 0 []) v) :
      (ask q >>= f).Obeys (S.gate judged) 0 (fun _ => S.Bound 0 []) (fun _ => S.Bound 0 []) w :=
    (obeys_bind _ _ _ _).2 (hsteady.ask hq hw
      (fun v c answer hv hp u hu _ => hf u answer c hu ⟨v, hv, hp⟩) fun _ _ h => h)
  unfold Indexer.runWithin
  rw [hname]
  refine hask (.resolve S.name) trivial hw fun v segment c hv ⟨u, hu, hp⟩ => ?_
  rw [Container.perform_resolve hu.guarded.resolve] at hp
  obtain rfl : S.segment = segment := Except.ok.inj (Prod.mk.inj hp).2
  refine hask (.getAttributes S.segment [.indexOffset]) trivial hv fun v _ _ hv _ => ?_
  refine hask (.length S.segment) trivial hv fun v _ _ hv _ => ?_
  split
  · exact hv
  refine hask (.read S.segment _ _) trivial hv fun v data _ hv _ => ?_
  dsimp only
  -- Which entries get linked is nothing to the gate.
  generalize Indexer.portion limit _ = records
  refine (obeys_bind _ _ _ _).2 ?_
  have hnone : ∀ e ∈ (∅ : Heads).toList, e.1.Proper := by simp
  refine (gate_linkEntries hj hnone hv records).mono ?_ fun _ _ h => h
  rintro ⟨heads, backpointers⟩ v ⟨hv, hheads, hbackpointers⟩
  refine (obeys_bind _ _ _ _).2 ?_
  generalize Scan.outcome _ = outcome
  cases outcome with
  | error e => exact hv
  | ok _ =>
    have hus : ∀ u ∈ backpointers ++ Links.headUpdates heads.toList, u.id ≠ .indexOffset := by
      intro u hu
      rcases List.mem_append.1 hu with hu | hu
      · exact hbackpointers u hu
      · obtain ⟨h, x, hx, rfl⟩ := Links.mem_headUpdates.1 hu
        exact AttributeId.bucket_ne_indexOffset (hheads (h, x) hx)
    rw [obeys_ofExcept_ok]
    refine (obeys_bind (ask (.updateAttributes S.segment _)) _ _ _).2 ?_
    refine gate_report hj hus hv (fun u hu => ?_) fun _ _ h => h
    exact (obeys_bind _ _ _ _).2 (gate_notify hid hu fun t ht => ht)

end Indexing

/-- Every operation goes by the rules, if only the indexer is not judged. -/
theorem gate_operation {op : Operation} (hm : S.config.mode = .deferred)
    (hop : op.Fits S.config S.name S.segment i) (hj : judged i → op.Accesses)
    (hw : S.Bound i [] w) :
    (op.program S.config S.name).Obeys (S.gate judged) i (fun _ => S.Bound i [])
      (fun _ => S.Bound i []) w := by
  cases op with
  | put entries => exact (obeys_map _ _ _).2 (gate_write hm hw _)
  | remove keys =>
    refine (obeys_map _ _ _).2 ?_
    exact (obeys_bind _ _ _ _).2 ((gate_write hm hw _).mono (fun _ _ h => h) fun _ _ h => h)
  | get keys =>
    refine (obeys_map _ _ _).2 ?_
    exact (obeys_bind _ _ _ _).2 ((gate_lookup hm hw keys).mono (fun _ _ h => h) fun _ _ h => h)
  | getKeys keys =>
    refine (obeys_map _ _ _).2 ?_
    exact (obeys_bind _ _ _ _).2 ((gate_lookup hm hw keys).mono (fun _ _ h => h) fun _ _ h => h)
  | index connector limit =>
    obtain ⟨-, rfl, hname, hid⟩ := hop
    exact (obeys_map _ _ _).2 (gate_index hj hname hid hw)

end Site
end KeyedLog
