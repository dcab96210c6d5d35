import KeyedLog.Proofs.Custody.Rules
import KeyedLog.Proofs.Operation.ReadOnly
import KeyedLog.Proofs.Run.Sessions

/-! The gate to a segment that an indexer keeps. Nobody passes it before all that was there at the
first access is indexed, and no notice of the indexer is lost, whenever it comes. -/
namespace KeyedLog

/-- The call asks where the segment is, how long it is, or how far it is indexed. -/
def Call.Prepares : Call → Prop
  | .resolve _ | .length _ => True
  | .getAttributes _ ids => ids = [.indexOffset]
  | _ => False

theorem Call.Prepares.looks {q : Call} (h : q.Prepares) : q.Looks := by
  cases q with
  | resolve | length | getAttributes | read => trivial
  | create | delete | append | updateAttributes => exact h.elim

/-- How the first access to a segment goes on, what the indexer has to give notice of, and who holds
what. -/
structure Toll where
  /-- The persisted index offset when the state of the segment was made. -/
  base : Nat
  /-- Who accounts for the entries from before the first access. -/
  recoverer : Option Nat
  /-- An index offset that is persisted and not notified yet. -/
  due : Option Nat
  /-- Who holds the lock of a bucket. -/
  owner : Bucket → Option Nat

namespace Toll

def lock (g : Toll) (i : Nat) (bs : List Bucket) : Toll :=
  { g with owner := fun b => if b ∈ bs then some i else g.owner b }

def unlock (g : Toll) (bs : List Bucket) : Toll :=
  { g with owner := fun b => if b ∈ bs then none else g.owner b }

end Toll

/-- What there is to see of a segment for those who wait for the indexer. -/
structure Sight where
  toll : Toll
  length : Nat
  /-- The persisted index offset. -/
  index : Nat
  tracked : Bool
  state : SegmentState
  held : Bucket → Bool

namespace Sight

variable {z z' z'' : Sight} {i length e n : Nat} {s : SegmentState}

def Open (z : Sight) : Prop := ∃ n ≤ z.state.watermark.offset, z.state.recovered = some n

/-- The indexer gave notice of an offset, and a state that was not there yet will know of it. -/
structure Noticed (z : Sight) (e : Nat) : Prop where
  persisted : e ≤ z.index
  known : z.tracked = true → e ≤ z.state.watermark.offset ∨ e ≤ z.toll.base

/-- All is in order around a segment that had a certain length when the index was opened. -/
structure Orderly (z : Sight) (length : Nat) : Prop where
  opened : z.state.watermark.closed = false
  recovering : z.state.recovering = z.toll.recoverer.isSome
  unrecovered : z.state.recovered = none → z.length = length
  recovered : ∀ {n}, z.state.recovered = some n →
    z.tracked = true ∧ n = length ∧ z.toll.base ≤ z.state.watermark.offset
  base : z.tracked = true → z.toll.base ≤ z.index
  due : ∀ {e}, z.toll.due = some e → e ≤ z.index
  held : ∀ b, z.held b = (z.toll.owner b).isSome

structure Onward (z z' : Sight) : Prop where
  index : z.index ≤ z'.index
  tracked : z.tracked = true → z'.tracked = true
  base : z.tracked = true → z'.toll.base = z.toll.base
  made : z.tracked = false → z'.tracked = true → z.index ≤ z'.toll.base
  recovered : ∀ {n}, z.state.recovered = some n → z'.state.recovered = some n
  watermark : z.state.watermark.offset ≤ z'.state.watermark.offset
  due : ∀ {e}, z.toll.due = some e → z'.toll.due = some e ∨ z'.Noticed e

/-- What a thread may count on. Notices are given by the thread with number 0. -/
structure Leaves (i : Nat) (z z' : Sight) : Prop extends Onward z z' where
  recoverer : z'.toll.recoverer = some i ↔ z.toll.recoverer = some i
  recovering : z.toll.recoverer = some i → z.state.recovered = none → z'.state.recovered = none
  notices : i = 0 → z'.toll.due = z.toll.due
  owner : ∀ b, z'.toll.owner b = some i ↔ z.toll.owner b = some i

theorem Noticed.go (h : z.Noticed e) (hz : z.Onward z') : z'.Noticed e where
  persisted := Nat.le_trans h.persisted hz.index
  known ht' := by
    cases ht : z.tracked with
    | false => exact .inr (Nat.le_trans h.persisted (hz.made ht ht'))
    | true =>
      rw [hz.base ht]
      exact (h.known ht).imp_left fun hle => Nat.le_trans hle hz.watermark

theorem Open.go (h : z.Open) (hz : z.Onward z') : z'.Open := by
  obtain ⟨n, hle, hn⟩ := h
  exact ⟨n, Nat.le_trans hle hz.watermark, hz.recovered hn⟩

theorem Onward.refl (z : Sight) : z.Onward z where
  index := Nat.le_refl _
  tracked := id
  base _ := rfl
  made h h' := by
    rw [h] at h'
    cases h'
  recovered := id
  watermark := Nat.le_refl _
  due := .inl

theorem Onward.trans (h : z.Onward z') (h' : z'.Onward z'') : z.Onward z'' where
  index := Nat.le_trans h.index h'.index
  tracked ht := h'.tracked (h.tracked ht)
  base ht := (h'.base (h.tracked ht)).trans (h.base ht)
  made hn ht := by
    cases ht' : z'.tracked with
    | false => exact Nat.le_trans h.index (h'.made ht' ht)
    | true =>
      rw [h'.base ht']
      exact h.made hn ht'
  recovered hn := h'.recovered (h.recovered hn)
  watermark := Nat.le_trans h.watermark h'.watermark
  due he := by
    rcases h.due he with he | he
    · exact h'.due he
    · exact .inr (he.go h')

theorem Leaves.refl (i : Nat) (z : Sight) : z.Leaves i z :=
  { Onward.refl z with
    recoverer := Iff.rfl
    recovering := fun _ => id
    notices := fun _ => rfl
    owner := fun _ => Iff.rfl }

theorem Leaves.trans (h : z.Leaves i z') (h' : z'.Leaves i z'') : z.Leaves i z'' :=
  { h.toOnward.trans h'.toOnward with
    recoverer := h'.recoverer.trans h.recoverer
    recovering := fun hr hn => h'.recovering (h.recoverer.2 hr) (h.recovering hr hn)
    notices := fun hi => (h'.notices hi).trans (h.notices hi)
    owner := fun b => (h'.owner b).trans (h.owner b) }

structure Shifts (i length : Nat) (z z' : Sight) : Prop where
  orderly : z'.Orderly length
  leaves : ∀ j, j ≠ i → z.Leaves j z'

theorem Shifts.onward (h : z.Shifts i length z') : z.Onward z' :=
  (h.leaves (i + 1) (by omega)).toOnward

/-- What concerns links is nothing to those who wait. -/
theorem shifts_state (h : z.Orderly length) (hwatermark : s.watermark = z.state.watermark)
    (hrecovered : s.recovered = z.state.recovered)
    (hrecovering : s.recovering = z.state.recovering) :
    z.Shifts i length { z with state := s } where
  orderly :=
    { h with
      opened := by rw [hwatermark, h.opened]
      recovering := hrecovering.trans h.recovering
      unrecovered := fun hn => h.unrecovered (hrecovered.symm.trans hn)
      recovered := fun hn => by
        rw [hwatermark]
        exact h.recovered (hrecovered.symm.trans hn) }
  leaves j _ :=
    { Leaves.refl j z with
      recovered := fun hn => hrecovered.trans hn
      watermark := Nat.le_of_eq (congrArg _ hwatermark.symm)
      due := .inl
      recovering := fun _ hn => hrecovered.trans hn }

/-- Some locks are taken that nobody holds. -/
theorem shifts_lock (h : z.Orderly length) {bs : List Bucket} {held : Bucket → Bool}
    (hfree : ∀ b ∈ bs, z.toll.owner b = none)
    (hheld : ∀ b, held b = (decide (b ∈ bs) || z.held b)) :
    z.Shifts i length { z with toll := z.toll.lock i bs, held } where
  orderly :=
    { h with
      held := fun b => by
        by_cases hb : b ∈ bs
        · simp [hheld, Toll.lock, hb]
        · simp [hheld, Toll.lock, hb, h.held] }
  leaves j hj :=
    { Leaves.refl j z with
      due := .inl
      owner := fun b => by
        by_cases hb : b ∈ bs
        · simp [Toll.lock, hb, hfree b hb, hj.symm]
        · simp [Toll.lock, hb] }

/-- Some locks are released by the one who holds them. -/
theorem shifts_unlock (h : z.Orderly length) {bs : List Bucket} {held : Bucket → Bool}
    (hmine : ∀ b ∈ bs, z.toll.owner b = some i)
    (hheld : ∀ b, held b = (!decide (b ∈ bs) && z.held b)) :
    z.Shifts i length { z with toll := z.toll.unlock bs, held } where
  orderly :=
    { h with
      held := fun b => by
        by_cases hb : b ∈ bs
        · simp [hheld, Toll.unlock, hb]
        · simp [hheld, Toll.unlock, hb, h.held] }
  leaves j hj :=
    { Leaves.refl j z with
      due := .inl
      owner := fun b => by
        by_cases hb : b ∈ bs
        · simp [Toll.unlock, hb, hmine b hb, hj.symm]
        · simp [Toll.unlock, hb] }

/-- The state of the segment is made, unless it is there. -/
theorem shifts_track (h : z.Orderly length) :
    z.Shifts i length { z with
      toll := { z.toll with base := if z.tracked then z.toll.base else z.index }
      tracked := true } where
  orderly :=
    { h with
      recovered := fun hn => by
        obtain ⟨ht, hlength, hbase⟩ := h.recovered hn
        rw [if_pos ht]
        exact ⟨rfl, hlength, hbase⟩
      base := fun _ => by
        dsimp only
        split
        · next ht => exact h.base ht
        · exact Nat.le_refl _ }
  leaves j _ :=
    { Leaves.refl j z with
      tracked := fun _ => rfl
      base := fun ht => if_pos ht
      made := fun hn _ => by
        dsimp only
        rw [hn]
        exact Nat.le_refl _
      due := .inl }

theorem shifts_beginRecovery (h : z.Orderly length) (hr : z.toll.recoverer = none) :
    z.Shifts i length { z with
      toll := { z.toll with recoverer := some i }
      state := { z.state with recovering := true } } where
  orderly := { h with recovering := rfl }
  leaves j hj :=
    { Leaves.refl j z with
      recoverer := by
        dsimp only
        rw [hr]
        simp [hj.symm]
      due := .inl
      recovering := fun hr' => by cases hr.symm.trans hr' }

theorem shifts_endRecovery (h : z.Orderly length) (hr : z.toll.recoverer = some i) :
    z.Shifts i length { z with
      toll := { z.toll with recoverer := none }
      state := { z.state with recovering := false } } where
  orderly := { h with recovering := rfl }
  leaves j hj :=
    { Leaves.refl j z with
      recoverer := by
        dsimp only
        rw [hr]
        simp [hj.symm]
      due := .inl
      recovering := fun _ hn => hn }

theorem shifts_raise (h : z.Orderly length) (n : Nat) :
    z.Shifts i length { z with
      state := { z.state with watermark := (z.state.watermark.raise n).1 } } where
  orderly :=
    { h with
      opened := (Watermark.closed_raise n).trans h.opened
      recovered := fun hn => by
        obtain ⟨ht, hlength, hbase⟩ := h.recovered hn
        exact ⟨ht, hlength, Nat.le_trans hbase (Watermark.raise_le n).1⟩ }
  leaves j _ := { Leaves.refl j z with watermark := (Watermark.raise_le n).1, due := .inl }

theorem shifts_recovered (h : z.Orderly length) (hr : z.toll.recoverer = some i)
    (ht : z.tracked = true) (hn : z.state.recovered = none)
    (hbase : z.toll.base ≤ z.state.watermark.offset) :
    z.Shifts i length { z with state := { z.state with recovered := some length } } where
  orderly :=
    { h with
      unrecovered := fun hn => by cases hn
      recovered := fun hm => ⟨ht, (Option.some.inj hm).symm, hbase⟩ }
  leaves j hj :=
    { Leaves.refl j z with
      recovered := fun hm => by cases hn.symm.trans hm
      due := .inl
      recovering := fun hj' => absurd (Option.some.inj (hj'.symm.trans hr)) hj }

theorem shifts_append (h : z.Orderly length) (hn : z.state.recovered ≠ none) (m : Nat) :
    z.Shifts i length { z with length := m } where
  orderly := { h with unrecovered := fun hm => absurd hm hn }
  leaves j _ := { Leaves.refl j z with due := .inl }

theorem shifts_index (h : z.Orderly length) (hle : z.index ≤ n) (hdue : z.toll.due = none)
    {due : Option Nat} (hn : ∀ {e}, due = some e → e ≤ n) :
    z.Shifts 0 length { z with toll := { z.toll with due }, index := n } where
  orderly :=
    { h with
      base := fun ht => Nat.le_trans (h.base ht) hle
      due := hn }
  leaves j hj :=
    { Leaves.refl j z with
      index := hle
      made := fun hm ht => by cases hm.symm.trans ht
      due := fun he => by cases hdue.symm.trans he
      notices := fun h0 => absurd h0 hj }

/-- The indexer gives notice of what it has persisted. -/
theorem shifts_notify (h : z.Orderly length) (hdue : z.toll.due = some e)
    (hopened : s.watermark.closed = false) (hrecovered : s.recovered = z.state.recovered)
    (hrecovering : s.recovering = z.state.recovering)
    (hle : z.state.watermark.offset ≤ s.watermark.offset)
    (he : z.tracked = true → e ≤ s.watermark.offset) :
    z.Shifts 0 length { z with toll := { z.toll with due := none }, state := s } where
  orderly :=
    { h with
      opened := hopened
      recovering := hrecovering.trans h.recovering
      unrecovered := fun hn => h.unrecovered (hrecovered.symm.trans hn)
      recovered := fun hn => by
        obtain ⟨ht, hlength, hbase⟩ := h.recovered (hrecovered.symm.trans hn)
        exact ⟨ht, hlength, Nat.le_trans hbase hle⟩
      due := fun hd => by cases hd }
  leaves j hj :=
    { Leaves.refl j z with
      recovered := fun hn => hrecovered.trans hn
      watermark := hle
      due := fun he' => by
        obtain rfl := Option.some.inj (hdue.symm.trans he')
        exact .inr ⟨h.due hdue, fun ht => .inl (he ht)⟩
      recovering := fun _ hn => hrecovered.trans hn
      notices := fun h0 => absurd h0 hj }

end Sight

namespace Site

open Program

variable (S : Site)

def sight (w : World Tables Toll) : Sight where
  toll := w.ghost
  length := (w.container.segment S.segment).data.length
  index := (w.container.segment S.segment).attributes[AttributeId.indexOffset]?.getD 0
  tracked := w.state.tracked[S.segment]?.isSome
  state := w.state.state S.place
  held b := w.state.locks.held.contains b

structure Guarded (w : World Tables Toll) : Prop where
  resolve : w.container.resolve S.name = .ok S.segment
  serves : w.state.Serves S.segment S.place
  orderly : (S.sight w).Orderly S.start

/-- What a call owes: one that is judged waits until the gate is open unless it prepares for that,
and an index offset that was persisted is due to be notified. -/
def Heeds (judged : Prop) (w v : World Tables Toll) (q : Call) (fate : Fate) : Prop :=
  (judged → q.Prepares ∨ (S.sight w).Open) ∧
    ∀ us e, q = .updateAttributes S.segment (us ++ [.replaceIfGreater .indexOffset e]) →
      fate = .served → v.ghost.due = some e

/-- Rules for all who wait for the indexer, and for the indexer. Some of the threads are judged by
whether they keep to the gate. -/
def gate (judged : Nat → Prop) : Rules Tables Toll where
  fates := Pool.surroundings.fates
  lapses := True
  inv := S.Guarded
  rely i w v := (S.sight w).Leaves i (S.sight v)
  guar i act w v := (∀ j, j ≠ i → (S.sight w).Leaves j (S.sight v)) ∧
    ∀ q fate, act = some (q, fate) → S.Heeds (judged i) w v q fate
  tidy i w := i = 0 → w.ghost.due = none
  rest i w := w.ghost.recoverer ≠ some i ∧ (i = 0 → w.ghost.due = none) ∧
    ∀ b, w.ghost.owner b ≠ some i

variable {S} {judged : Nat → Prop} {i : Nat} {w v u : World Tables Toll} {α : Type}
  {E : TableError → World Tables Toll → Prop} {c : Container} {bs : List Bucket}
  {F : Sight → Prop}

theorem gate_lawful (S : Site) (judged : Nat → Prop) : (S.gate judged).Lawful where
  refl i w := .refl i (S.sight w)
  trans h h' := Sight.Leaves.trans h h'
  rely_of_guar hj h := h.1 _ hj
  tidy h ht hi := (Sight.Leaves.notices h hi).trans (ht hi)
  rest h hr := ⟨fun hn => hr.1 ((Sight.Leaves.recoverer h).1 hn),
    fun hi => (Sight.Leaves.notices h hi).trans (hr.2.1 hi),
    fun b hb => hr.2.2 b ((Sight.Leaves.owner h b).1 hb)⟩
  tidy_of_rest h := h.2.1

theorem sight_unread (hc : S.Unread w.container c) :
    S.sight ⟨c, w.state, w.ghost⟩ = S.sight w := by
  simp only [sight, hc.data, hc.attributes]

theorem Guarded.unread (hw : S.Guarded w) (hc : S.Unread w.container c) :
    S.Guarded ⟨c, w.state, w.ghost⟩ :=
  ⟨hc.resolve.trans hw.resolve, hw.serves, sight_unread hc ▸ hw.orderly⟩

theorem Guarded.cached (hw : S.Guarded w) (cache : Cache) :
    S.Guarded ⟨w.container, { w.state with cache }, w.ghost⟩ :=
  have hs := hw.serves
  ⟨hw.resolve, ⟨hs.opened, hs.indexOpened, hs.tracked⟩, hw.orderly⟩

theorem heeds_of_looks {q : Call} {P : Prop} (hq : q.Looks) (hp : P → q.Prepares ∨ (S.sight w).Open)
    (fate : Fate) : S.Heeds P w v q fate := by
  refine ⟨hp, ?_⟩
  rintro us e rfl
  exact hq.elim

/-- A thread has nothing to see to but some locks, and knows something that stays true. -/
structure Waits (S : Site) (i : Nat) (bs : List Bucket) (F : Sight → Prop)
    (w : World Tables Toll) : Prop where
  guarded : S.Guarded w
  recoverer : w.ghost.recoverer ≠ some i
  notices : i = 0 → w.ghost.due = none
  owner : ∀ b, w.ghost.owner b = some i ↔ b ∈ bs
  known : F (S.sight w)

def Stays (F : Sight → Prop) : Prop := ∀ {z z' : Sight}, z.Onward z' → F z → F z'

theorem stays_true : Stays fun _ => True := fun _ _ => trivial

theorem Stays.open (hF : Stays F) : Stays fun z => F z ∧ z.Open :=
  fun hz h => ⟨hF hz h.1, h.2.go hz⟩

theorem Waits.go (hF : Stays F) (hw : S.Waits i bs F w) (hv : S.Guarded v)
    (h : (S.sight w).Leaves i (S.sight v)) : S.Waits i bs F v where
  guarded := hv
  recoverer hr := hw.recoverer (h.recoverer.1 hr)
  notices hi := (h.notices hi).trans (hw.notices hi)
  owner b := (h.owner b).trans (hw.owner b)
  known := hF h.toOnward hw.known

theorem Waits.forget (hw : S.Waits i bs (fun z => F z ∧ z.Open) w) : S.Waits i bs F w :=
  ⟨hw.guarded, hw.recoverer, hw.notices, hw.owner, hw.known.1⟩

theorem Waits.rests (hw : S.Waits i [] F w) : (S.gate judged).rest i w :=
  ⟨hw.recoverer, hw.notices, fun b hb => by cases (hw.owner b).1 hb⟩

/-- Whoever may pass the gate, or is not judged, may look at anything. -/
theorem steady_gate (hF : Stays F) (ho : judged i → ∀ z, F z → z.Open) :
    (S.gate judged).Steady i (S.Waits i bs F) where
  inv hw := hw.guarded
  tidy hw := hw.notices
  go hw hv h := hw.go hF hv h
  look {w q} hw hq fate := by
    have hc := unread_of_serve hw.guarded.resolve hq fate
    have hsight := sight_unread (w := w) hc
    refine ⟨⟨hw.guarded.unread hc, hw.recoverer, hw.notices, hw.owner, hsight ▸ hw.known⟩,
      fun j _ => hsight ▸ .refl j _, ?_⟩
    intro q' fate' hact
    obtain ⟨rfl, rfl⟩ := Prod.mk.inj (Option.some.inj hact)
    exact heeds_of_looks hq (fun hj => .inr (ho hj _ hw.known)) fate
  cached {w} hw cache := by
    refine ⟨⟨hw.guarded.cached cache, hw.recoverer, hw.notices, hw.owner, hw.known⟩,
      fun j _ => .refl j _, ?_⟩
    intro q fate hact
    cases hact

/-- Whoever prepares to pass the gate goes by the rules. -/
theorem gate_prepare {Q : World Tables Toll → Prop} (hinv : ∀ {w}, Q w → S.Guarded w)
    (htidy : ∀ {w}, Q w → i = 0 → w.ghost.due = none)
    (hgo : ∀ {w v}, Q w → S.Guarded v → (S.sight w).Leaves i (S.sight v) → Q v) {q : Call}
    (hq : q.Prepares) {K : q.Answer → World Tables Toll → Prop} (hw : Q w)
    (hK : ∀ v c answer, Q v → v.container.perform q = (c, .ok answer) →
      ∀ u, Q u → (S.sight v).Leaves i (S.sight u) → K answer u)
    (hE : ∀ e u, Q u → E e u) : (ask q).Obeys (S.gate judged) i K E w := by
  refine (obeys_ask q K).2 ⟨htidy hw, fun v hv hwv fate _ => ?_⟩
  have hv := hgo hw hv hwv
  have hc := unread_of_serve (hinv hv).resolve hq.looks fate
  have hsight := sight_unread (w := v) hc
  refine ⟨v.ghost, ⟨(hinv hv).unread hc, fun j _ => hsight ▸ .refl j _, ?_⟩, fun u hu hvu => ?_⟩
  · intro q' fate' hact
    obtain ⟨rfl, rfl⟩ := Prod.mk.inj (Option.some.inj hact)
    exact heeds_of_looks hq.looks (fun _ => .inl hq) fate
  have hleaves : (S.sight v).Leaves i (S.sight u) := hsight ▸ hvu
  have hu := hgo hv hu hleaves
  cases fate with
  | served =>
    cases hp : v.container.perform q with
    | mk c r =>
      have hs : v.container.serve q .served = (c, r) := hp
      rw [hs]
      cases r with
      | ok answer => exact hK v c answer hv hp u hu hleaves
      | error e => exact hE e u hu
  | refused e | lost e => exact hE e u hu

theorem gate_resolve (hF : Stays F) (hw : S.Waits i bs F w) :
    (request (.resolve S.name) : Program Tables Nat).Obeys (S.gate judged) i
      (fun n v => n = S.segment ∧ S.Waits i bs F v) (fun _ => S.Waits i bs F) w := by
  refine (obeys_bind checkTime (fun _ => ask (.resolve S.name)) _ w).2 ((obeys_checkTime _).2 ?_)
  refine ⟨hw.notices, fun v hv hwv => ?_⟩
  have hv := hw.go hF hv hwv
  refine ⟨?_, fun _ => hv⟩
  refine gate_prepare (q := .resolve S.name) (fun hw => hw.guarded) (fun hw => hw.notices)
    (fun hw hv h => hw.go hF hv h) trivial hv (fun v c answer hv hp u hu _ => ⟨?_, hu⟩)
    fun _ _ hu => hu
  rw [Container.perform_resolve hv.guarded.resolve] at hp
  exact (Except.ok.inj (Prod.mk.inj hp).2).symm

section Memory

variable {K : Unit → World Tables Toll → Prop}

theorem gate_modify (hw : S.Guarded w) {f : Tables → Tables} (g : Toll)
    (ht : (f w.state).Serves S.segment S.place)
    (hm : (S.sight w).Shifts i S.start (S.sight ⟨w.container, f w.state, g⟩))
    (hK : S.Guarded ⟨w.container, f w.state, g⟩ → K () ⟨w.container, f w.state, g⟩) :
    (modify f).Obeys (S.gate judged) i K E w := by
  have hv : S.Guarded ⟨w.container, f w.state, g⟩ := ⟨hw.resolve, ht, hm.orderly⟩
  refine ⟨g, ⟨hv, hm.leaves, ?_⟩, hK hv⟩
  intro q fate hact
  cases hact

theorem sight_modifyState (hs : w.state.Serves S.segment S.place) (ht : (S.sight w).tracked = true)
    (f : SegmentState → SegmentState) (g : Toll) :
    S.sight ⟨w.container, w.state.modifyState S.place f, g⟩ =
      { S.sight w with toll := g, state := f (S.sight w).state } := by
  have hstate : (w.state.modifyState S.place f).state S.place = f (w.state.state S.place) :=
    ((hs.keeps ht).modifyState f).state
  simp only [sight, hstate]
  rfl

theorem gate_change (hw : S.Guarded w) (ht : (S.sight w).tracked = true)
    {f : SegmentState → SegmentState} (g : Toll)
    (hm : (S.sight w).Shifts i S.start
      { S.sight w with toll := g, state := f (S.sight w).state })
    (hK : ∀ v, S.Guarded v →
      S.sight v = { S.sight w with toll := g, state := f (S.sight w).state } → K () v) :
    (Tables.change S.place f).Obeys (S.gate judged) i K E w := by
  have hsight := sight_modifyState hw.serves ht f g
  exact gate_modify hw g (serves_modifyState hw.serves S.place f) (hsight ▸ hm)
    fun hv => hK _ hv hsight

end Memory

section Access

structure Counts (S : Site) (i : Nat) (bs : List Bucket) (F : Sight → Prop)
    (w : World Tables Toll) : Prop where
  guarded : S.Guarded w
  recoverer : w.ghost.recoverer = some i
  notices : i = 0 → w.ghost.due = none
  owner : ∀ b, w.ghost.owner b = some i ↔ b ∈ bs
  tracked : (S.sight w).tracked = true
  known : F (S.sight w)

theorem Counts.go (hF : Stays F) (hw : S.Counts i bs F w) (hv : S.Guarded v)
    (h : (S.sight w).Leaves i (S.sight v)) : S.Counts i bs F v where
  guarded := hv
  recoverer := h.recoverer.2 hw.recoverer
  notices hi := (h.notices hi).trans (hw.notices hi)
  owner b := (h.owner b).trans (hw.owner b)
  tracked := h.tracked hw.tracked
  known := hF h.toOnward hw.known

theorem Counts.shift (hF : Stays F) (hw : S.Counts i bs F w) (hv : S.Guarded v)
    (h : (S.sight w).Onward (S.sight v)) (hg : v.ghost = w.ghost) : S.Counts i bs F v where
  guarded := hv
  recoverer := hg ▸ hw.recoverer
  notices hi := hg ▸ hw.notices hi
  owner := hg ▸ hw.owner
  tracked := h.tracked hw.tracked
  known := hF h hw.known

/-- The old entries are not counted yet, and what was persisted before the state was made lies below
an offset. -/
structure Counting (S : Site) (i : Nat) (bs : List Bucket) (F : Sight → Prop) (m : Nat)
    (w : World Tables Toll) : Prop extends S.Counts i bs F w where
  unrecovered : (S.sight w).state.recovered = none
  base : (S.sight w).toll.base ≤ m

theorem Counting.go {m : Nat} (hF : Stays F) (hw : S.Counting i bs F m w) (hv : S.Guarded v)
    (h : (S.sight w).Leaves i (S.sight v)) : S.Counting i bs F m v where
  toCounts := hw.toCounts.go hF hv h
  unrecovered := h.recovering hw.recoverer hw.unrecovered
  base := (h.base hw.tracked).symm ▸ hw.base

/-- The watermark is raised as far as is known to be persisted, and the entries are counted. -/
theorem Counting.gate_complete {m : Nat} (hF : Stays F) (hw : S.Counting i bs F m w)
    (hm : m ≤ (S.sight w).state.watermark.offset) :
    (do
      Tables.change S.place ({ · with recovered := some S.start })
      return S.start : Program Tables Nat).Obeys (S.gate judged) i
      (fun n v => S.Counts i bs F v ∧ (S.sight v).state.recovered = some n)
      (fun _ => S.Counts i bs F) w := by
  have hcount := Sight.shifts_recovered hw.guarded.orderly hw.recoverer hw.tracked hw.unrecovered
    (Nat.le_trans hw.base hm)
  refine (obeys_bind _ _ _ _).2 ?_
  refine gate_change (f := fun s => { s with recovered := some S.start }) hw.guarded hw.tracked
    w.ghost hcount fun v hv hs => ⟨?_, ?_⟩
  · exact hw.shift hF hv (hs ▸ hcount.onward) (congrArg Sight.toll hs)
  · rw [hs]

theorem Counting.gate_raise {m : Nat} {K : Unit → World Tables Toll → Prop} (hF : Stays F)
    (hw : S.Counting i bs F m w)
    (hK : ∀ v, S.Counting i bs F m v → m ≤ (S.sight v).state.watermark.offset → K () v) :
    (Program.modify fun t : Tables => t.raise S.place m).Obeys (S.gate judged) i K E w := by
  have hraise := Sight.shifts_raise (i := i) hw.guarded.orderly m
  refine gate_change (f := fun s => { s with watermark := (s.watermark.raise m).1 }) hw.guarded
    hw.tracked w.ghost hraise fun v hv hs => hK v ?_ ?_
  · exact
      { hw.shift hF hv (hs ▸ hraise.onward) (congrArg Sight.toll hs) with
        unrecovered := by
          rw [hs]
          exact hw.unrecovered
        base := by
          rw [hs]
          exact hw.base }
  · rw [hs]
    exact (Watermark.raise_le m).2

/-- In the end the old entries are counted, and all that was persisted before the state was made is
below the watermark, or the attempt has failed. -/
theorem gate_recoverState (hm : S.config.mode = .deferred) (hF : Stays F) (hw : S.Counts i bs F w) :
    (Tables.recoverState S.config S.segment S.place).Obeys (S.gate judged) i
      (fun n v => S.Counts i bs F v ∧ (S.sight v).state.recovered = some n)
      (fun _ => S.Counts i bs F) w := by
  unfold Tables.recoverState
  rw [obeys_bind, obeys_look]
  split
  · next n hn => exact ⟨hw, hn⟩
  next hn =>
  unfold Tables.attributeOf
  refine (obeys_bind _ _ _ _).2 ((obeys_bind (request (.getAttributes S.segment [.indexOffset]))
    _ _ _).2 ?_)
  refine (obeys_bind checkTime (fun _ => ask (.getAttributes S.segment [.indexOffset])) _ w).2 ?_
  refine (obeys_checkTime _).2 ⟨hw.notices, fun v hv hwv => ?_⟩
  have hv : S.Counting i bs F (S.sight w).toll.base v :=
    Counting.go hF ⟨hw, hn, Nat.le_refl _⟩ hv hwv
  refine ⟨?_, fun _ => hv.toCounts⟩
  refine gate_prepare (q := .getAttributes S.segment [.indexOffset]) (fun h => h.guarded)
    (fun h => h.notices) (fun hv hu h => hv.go hF hu h) rfl hv (fun v c answer hv hp u hu hvu => ?_)
    fun e u hu => hu.toCounts
  -- The offset that is read is no less than the one when the state was made.
  rw [Container.perform_getAttributes hv.guarded.resolve] at hp
  obtain rfl : answer = [(v.container.segment S.segment).attributes[AttributeId.indexOffset]?] :=
    (Except.ok.inj (Prod.mk.inj hp).2).symm
  generalize hindex :
    (v.container.segment S.segment).attributes[AttributeId.indexOffset]?.getD 0 = index
  have hbase : (S.sight u).toll.base ≤ index := by
    rw [hvu.base hv.tracked, ← hindex]
    exact hv.guarded.orderly.base hv.tracked
  have hu : S.Counting i bs F index u := { hu with base := hbase }
  dsimp only [List.head?_cons, Option.join_some, pure]
  change Obeys _ _ _ _ (Program.ask (.length S.segment) >>= _) u
  refine (obeys_bind (Program.ask (.length S.segment)) _ _ _).2 ?_
  refine gate_prepare (q := .length S.segment) (fun h => h.guarded) (fun h => h.notices)
    (fun hv hu h => hv.go hF hu h) trivial hu (fun a d m ha hp b hb _ => ?_)
    fun e b hb => hb.toCounts
  obtain rfl : m = S.start :=
    (Except.ok.inj (Prod.mk.inj hp).2).symm.trans (ha.guarded.orderly.unrecovered ha.unrecovered)
  rw [hindex]
  refine (obeys_bind _ _ _ _).2 (hb.gate_raise hF fun d hd hle => ?_)
  split
  · rw [hm]
    exact hd.gate_complete hF hle
  · exact hd.gate_complete hF hle

/-- One thread at a time counts the old entries. -/
theorem gate_recover (hm : S.config.mode = .deferred) (hF : Stays F) (hw : S.Waits i bs F w)
    (ht : (S.sight w).tracked = true) :
    (Tables.recover S.config S.segment S.place).Obeys (S.gate judged) i
      (fun n v => S.Waits i bs F v ∧ (S.sight v).state.recovered = some n)
      (fun _ => S.Waits i bs F) w := by
  unfold Tables.recover
  rw [obeys_bind]
  refine ⟨hw.notices, fun v hv hwv => ⟨fun hready => ?_, fun _ => ⟨trivial, fun h => by cases h⟩⟩⟩
  have hwv : (S.sight w).Leaves i (S.sight v) := hwv
  have hv' := hw.go hF hv hwv
  have htv := hwv.tracked ht
  have hfree : (S.sight v).toll.recoverer = none := by
    have hready : (S.sight v).state.recovering = false := by
      simp only [Bool.not_eq_true'] at hready
      exact hready
    rw [hv.orderly.recovering] at hready
    simpa using hready
  have hbegin := Sight.shifts_beginRecovery (i := i) hv.orderly hfree
  change Obeys _ _ _ _ (Tables.change S.place _ >>= _) v
  rw [obeys_bind]
  refine gate_change (f := fun s => { s with recovering := true }) hv htv
    { v.ghost with recoverer := some i } hbegin fun t htg hs => ?_
  have hghost : t.ghost = { v.ghost with recoverer := some i } := congrArg Sight.toll hs
  have hcounts : S.Counts i bs F t :=
    { guarded := htg
      recoverer := by rw [hghost]
      notices := by
        rw [hghost]
        exact hv'.notices
      owner := by
        rw [hghost]
        exact hv'.owner
      tracked := by
        rw [hs]
        exact htv
      known := hs ▸ hF hbegin.onward hv'.known }
  -- Whatever the outcome, the attempt comes to its end.
  have hend {K : Unit → World Tables Toll → Prop} {b : World Tables Toll} (hb : S.Counts i bs F b)
      (hK : ∀ c, S.Waits i bs F c → (S.sight c).state.recovered = (S.sight b).state.recovered →
        K () c) :
      (Tables.change S.place ({ · with recovering := false })).Obeys (S.gate judged) i K
        (fun _ => S.Waits i bs F) b := by
    have hstop := Sight.shifts_endRecovery hb.guarded.orderly hb.recoverer
    refine gate_change (f := fun s => { s with recovering := false }) hb.guarded hb.tracked
      { b.ghost with recoverer := none } hstop fun c hc hcs => ?_
    have hghost : c.ghost = { b.ghost with recoverer := none } := congrArg Sight.toll hcs
    refine hK c ⟨hc, ?_, ?_, ?_, hcs ▸ hF hstop.onward hb.known⟩ (by rw [hcs])
    · rw [hghost]
      exact fun h => by cases h
    · rw [hghost]
      exact hb.notices
    · rw [hghost]
      exact hb.owner
  rw [obeys_ensuring]
  refine (gate_recoverState hm hF hcounts).mono ?_ ?_
  · rintro n b ⟨hb, hn⟩
    exact hend hb fun c hc hsame => ⟨hc, hsame.trans hn⟩
  · exact fun e b hb => hend hb fun c hc _ => hc

theorem gate_awaitWatermark {n : Nat} (hF : Stays F) (hw : S.Waits i bs F w)
    (hn : (S.sight w).state.recovered = some n) :
    (Tables.awaitWatermark S.place n).Obeys (S.gate judged) i
      (fun _ => S.Waits i bs fun z => F z ∧ z.Open) (fun _ => S.Waits i bs F) w := by
  unfold Tables.awaitWatermark
  rw [obeys_bind, obeys_waitUntil]
  refine ⟨hw.notices, fun v hv hwv => ?_⟩
  have hwv : (S.sight w).Leaves i (S.sight v) := hwv
  have hv' := hw.go hF hv hwv
  refine ⟨fun hready => ?_, fun _ => ⟨trivial, fun _ => hv'⟩⟩
  have hopen : (v.state.state S.place).watermark.closed = false := hv.orderly.opened
  have hready : n ≤ (v.state.state S.place).watermark.offset := by
    unfold Watermark.settled at hready
    simpa [hopen] using hready
  rw [obeys_bind, obeys_look, if_neg (by simp [hopen])]
  exact ⟨hv, hv'.recoverer, hv'.notices, hv'.owner, hv'.known, n, hready, hwv.recovered hn⟩

theorem sight_track (hs : w.state.Serves S.segment S.place) (g : Toll) :
    (w.state.track S.segment).2 = S.place ∧ (w.state.track S.segment).1.Serves S.segment S.place ∧
      S.sight ⟨w.container, (w.state.track S.segment).1, g⟩ =
        { S.sight w with toll := g, tracked := true } := by
  obtain ⟨href, hserves, hscene⟩ := @track_spec S ⟨w.container, w.state, idle []⟩ hs
  refine ⟨href, hserves, ?_⟩
  have ht := congrArg Scene.tracked hscene
  have hs := congrArg Scene.state hscene
  have hlocks : (w.state.track S.segment).1.locks = w.state.locks := by
    unfold Tables.track
    split <;> rfl
  simp only [scene] at ht hs
  simp only [sight, ht, hs, hlocks]

/-- The gate is open to whoever has accessed the segment. -/
theorem gate_access (hm : S.config.mode = .deferred) (hF : Stays F) (hw : S.Waits i bs F w) :
    (Tables.access S.config S.segment).Obeys (S.gate judged) i
      (fun ref v => ref = S.place ∧ S.Waits i bs (fun z => F z ∧ z.Open) v)
      (fun _ => S.Waits i bs F) w := by
  unfold Tables.access
  refine (obeys_bind _ _ _ _).2 ((Rules.obeys_checkIndex hw).mono (fun _ w hw => ?_)
    fun _ _ h => h)
  simp only [obeys_bind, obeys_read]
  generalize hg : ({ w.ghost with
    base := if (S.sight w).tracked then w.ghost.base else (S.sight w).index } : Toll) = g
  obtain ⟨href, hserves, hsight⟩ := sight_track hw.guarded.serves g
  rw [href]
  have htrack : (S.sight w).Shifts i S.start
      (S.sight ⟨w.container, (w.state.track S.segment).1, g⟩) := by
    rw [hsight, ← hg]
    exact Sight.shifts_track hw.guarded.orderly
  refine gate_modify (f := fun _ => (w.state.track S.segment).1) hw.guarded g hserves htrack
    fun ht => ?_
  have hwaits : S.Waits i bs F ⟨w.container, (w.state.track S.segment).1, g⟩ := by
    refine ⟨ht, ?_, ?_, ?_, hF htrack.onward hw.known⟩
    · rw [← hg]
      exact hw.recoverer
    · rw [← hg]
      exact hw.notices
    · rw [← hg]
      exact hw.owner
  have htracked : (S.sight ⟨w.container, (w.state.track S.segment).1, g⟩).tracked = true := by
    rw [hsight]
  have hawait (n : Nat) {v : World Tables Toll}
      (hv : S.Waits i bs F v ∧ (S.sight v).state.recovered = some n) :
      (Tables.awaitWatermark S.place n >>= fun _ => (pure S.place : Program Tables Nat)).Obeys
        (S.gate judged) i (fun ref v => ref = S.place ∧ S.Waits i bs (fun z => F z ∧ z.Open) v)
        (fun _ => S.Waits i bs F) v :=
    (obeys_bind _ _ _ _).2 ((gate_awaitWatermark hF hv.1 hv.2).mono (fun _ _ hu => ⟨rfl, hu⟩)
      fun _ _ hu => hu)
  split
  · next n hn => exact hawait n ⟨hwaits, hn⟩
  · exact (obeys_bind _ _ _ _).2 ((gate_recover hm hF hwaits htracked).mono
      (fun n v hv => hawait n hv) fun _ _ h => h)

end Access

end Site
end KeyedLog
