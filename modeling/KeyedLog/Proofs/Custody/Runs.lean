import KeyedLog.Proofs.Custody.Operations
import KeyedLog.Proofs.LostAppend.Reflection

/-! Custody in runs: what was appended is with those who have yet to see to it, and the links that
are taken along are true. -/
namespace KeyedLog

theorem Row.offset_eq {n : Nat} {bs : List PendingLinks} {b : PendingLinks}
    (h : Row n (bs ++ [b])) : b.offset = Row.stop n bs := by
  induction bs generalizing n with
  | nil => exact h.1
  | cons c bs ih => exact ih h.of_cons

/-- What was appended remains, and so does what was lost. -/
structure Register.Grows (g g' : Register) : Prop where
  log : g.log <+: g'.log
  batches : g.batches <+: g'.batches
  lost : ∀ {b}, b ∈ g.batches → g.stage b.offset = .lost → g'.stage b.offset = .lost

theorem Register.Grows.refl (g : Register) : g.Grows g :=
  ⟨List.prefix_rfl, List.prefix_rfl, fun _ hs => hs⟩

theorem Register.Grows.trans {g g' g'' : Register} (h : g.Grows g') (h' : g'.Grows g'') :
    g.Grows g'' where
  log := h.log.trans h'.log
  batches := h.batches.trans h'.batches
  lost hb hs := h'.lost (h.batches.subset hb) (h.lost hb hs)

namespace Pool

variable {σ α : Type}

def Event.appended : Event σ α → Option Nat
  | .call _ (.append _ _) (.refused _) => none
  | .call _ (.append _ data) _ => some data.length
  | _ => none

/-- An append takes effect and is reported as failed. -/
def Event.Deceives : Event σ α → Prop
  | .call _ (.append ..) (.lost _) => True
  | _ => False

/-- The ranges that were appended one after another, and where the last one ends. -/
def Event.extend (r : List (Nat × Nat) × Nat) (e : Event σ α) : List (Nat × Nat) × Nat :=
  match e.appended with
  | some n => (r.1 ++ [(r.2, r.2 + n)], r.2 + n)
  | none => r

/-- The ranges that the appends of a run took up in an empty segment. -/
def ranges (es : List (Event σ α)) : List (Nat × Nat) := (es.foldl Event.extend ([], 0)).1

/-- A thread that has appended something is still at work. -/
def Underway (es : List (Event σ α)) (i : Nat) : Prop :=
  ∃ ds segment data fs, es = ds ++ .call i (.append segment data) .served :: fs ∧
    ∀ r, .finish i r ∉ fs

theorem Underway.extend {es : List (Event σ α)} {e : Event σ α} {i : Nat} (h : Underway es i)
    (he : ∀ r, e ≠ .finish i r) : Underway (es ++ [e]) i := by
  obtain ⟨ds, segment, data, fs, rfl, hfs⟩ := h
  refine ⟨ds, segment, data, fs ++ [e], by simp, fun r hr => ?_⟩
  rcases List.mem_append.1 hr with hr | hr
  · exact hfs r hr
  · exact he r (List.mem_singleton.1 hr).symm

theorem Steps.not_underway {around : Surroundings σ} {y z : Pool σ α} {es : List (Event σ α)}
    {i : Nat} (h : Steps around y es z) (hi : z.threads i = none) : ¬Underway es i := by
  rintro ⟨ds, segment, data, fs, rfl, hfs⟩
  obtain ⟨m, -, hm⟩ := h.split
  cases hm with
  | @head _ m' _ _ _ hcall hfs' =>
    have hbusy : (m'.threads i).isSome := by
      cases hcall
      simp [assign]
    -- A thread that is at work is not started anew, so it cannot be started now.
    have hstart := hfs'.append (.head (.start (.fail .timeout) hi) (.refl _))
    exact hstart.busy hbusy (fun r hr => by simp [hfs r] at hr) (.fail .timeout) (by simp)

/-- What the events of a run tell of the register. -/
structure Explains (es : List (Event σ α)) (g : Register) : Prop where
  ranges : es.foldl Event.extend ([], 0) = (g.batches.map (·.range), Row.stop 0 g.batches)
  /-- Whoever has a batch with him is still at work. -/
  underway : ∀ i, ¬g.Empty i → Underway es i
  lost : ∀ {b}, b ∈ g.batches → g.stage b.offset = .lost → ∃ e ∈ es, e.Deceives
  /-- As long as no append was lost, the trail leads to what has yet to be recorded. -/
  trail : (∀ e ∈ es, ¬e.Deceives) →
    (es.foldl Trail.after (.quiet 0)).length = Row.stop 0 g.batches ∧
    ∀ {i s e}, (es.foldl Trail.after (.quiet 0)).unlinked i = some (s, e) →
      ∃ b ∈ g.batches, b.range = (s, e) ∧ g.stage b.offset = .fresh i

namespace Explains

variable {es : List (Event σ α)} {e : Event σ α} {g g' : Register} {i : Nat}

theorem nil (hg : g.batches = []) : Explains ([] : List (Event σ α)) g where
  ranges := by rw [hg]; rfl
  underway i hi := by
    refine absurd (fun b hb => ?_) hi
    rw [hg] at hb
    cases hb
  lost hb := by
    rw [hg] at hb
    cases hb
  trail _ := by
    rw [hg]
    exact ⟨rfl, fun h => by cases h⟩

theorem idly (h : Explains es g) (he : e.appended = none) (htrail : ∀ t : Trail, t.after e = t)
    (hfinish : ∀ i r, e = .finish i r → g.Empty i) : Explains (es ++ [e]) g where
  ranges := by
    rw [List.foldl_append, h.ranges]
    simp only [List.foldl_cons, List.foldl_nil, Event.extend, he]
  underway i hi := (h.underway i hi).extend fun r hr => hi (hfinish i r hr)
  lost hb hs := by
    obtain ⟨f, hf, hlost⟩ := h.lost hb hs
    exact ⟨f, by simp [hf], hlost⟩
  trail hes := by
    rw [List.foldl_append, List.foldl_cons, List.foldl_nil, htrail]
    exact h.trail fun f hf => hes f (by simp [hf])

/-- A thread goes on, and has nothing left to record. -/
theorem proceed (h : Explains es g) (hbatches : g'.batches = g.batches)
    (hempty : ∀ j, g.Empty j → g'.Empty j)
    (hlost : ∀ {b}, b ∈ g.batches → (g'.stage b.offset = .lost ↔ g.stage b.offset = .lost))
    (hfresh : ∀ {b j}, b ∈ g.batches → j ≠ i → g.stage b.offset = .fresh j →
      g'.stage b.offset = .fresh j) : Explains (es ++ [.proceed i]) g' where
  ranges := by
    rw [List.foldl_append, h.ranges, hbatches]
    rfl
  underway j hj := (h.underway j fun hg => hj (hempty j hg)).extend fun r hr => by cases hr
  lost {b} hb hs := by
    rw [hbatches] at hb
    obtain ⟨f, hf, hlost⟩ := h.lost hb ((hlost hb).1 hs)
    exact ⟨f, by simp [hf], hlost⟩
  trail hes := by
    obtain ⟨hlength, hunlinked⟩ := h.trail fun f hf => hes f (by simp [hf])
    rw [List.foldl_append, List.foldl_cons, List.foldl_nil, hbatches]
    refine ⟨hlength, fun {j s e} hj => ?_⟩
    have hj : (if j = i then none else _) = some (s, e) := hj
    split at hj
    · cases hj
    · next hji =>
      obtain ⟨b, hb, hrange, hs⟩ := hunlinked hj
      exact ⟨b, hb, hrange, hfresh hb hji hs⟩

/-- A batch is appended. -/
theorem append {segment : Nat} {data : Bytes} {fate : Fate} {b : PendingLinks}
    (h : Explains es g) (hrow : Row 0 g'.batches) (hbatches : g'.batches = g.batches ++ [b])
    (hlength : b.length = data.length)
    (hfate : fate = .served ∧ g'.stage b.offset = .fresh i ∨
      (∃ e, fate = .lost e) ∧ g'.stage b.offset = .lost ∧ (g.Empty i → g'.Empty i))
    (hempty : ∀ j, j ≠ i → g.Empty j → g'.Empty j)
    (hlost : ∀ {b}, b ∈ g.batches → (g'.stage b.offset = .lost ↔ g.stage b.offset = .lost))
    (hfresh : ∀ {b j}, b ∈ g.batches → j ≠ i → g.stage b.offset = .fresh j →
      g'.stage b.offset = .fresh j) :
    Explains (es ++ [.call i (.append segment data) fate]) g' := by
  have hoffset : b.offset = Row.stop 0 g.batches := (hbatches ▸ hrow).offset_eq
  have hstop : Row.stop 0 g'.batches = b.stop := by
    rw [hbatches, Row.stop_append]
  have hrange : b.range = (Row.stop 0 g.batches, Row.stop 0 g.batches + data.length) := by
    unfold PendingLinks.range PendingLinks.stop
    rw [hoffset, hlength]
  -- An append takes up room even if it is reported as failed.
  have happended : (Event.call i (.append segment data) fate : Event σ α).appended =
      some data.length := by
    rcases hfate with ⟨rfl, -⟩ | ⟨⟨e, rfl⟩, -⟩
    · rfl
    · rfl
  refine
    { ranges := ?_
      underway := fun j hj => ?_
      lost := fun {c} hc hs => ?_
      trail := fun hes => ?_ }
  · rw [List.foldl_append, h.ranges, hstop, hbatches]
    simp only [List.foldl_cons, List.foldl_nil, Event.extend, happended, List.map_append,
      List.map_cons, List.map_nil, hrange]
    rw [PendingLinks.stop, hoffset, hlength]
  · by_cases hji : j = i
    · subst hji
      rcases hfate with ⟨rfl, -⟩ | ⟨-, -, hj'⟩
      · exact ⟨es, segment, data, [], rfl, fun r hr => by cases hr⟩
      · exact (h.underway j fun hg => hj (hj' hg)).extend fun r hr => by cases hr
    · exact (h.underway j fun hg => hj (hempty j hji hg)).extend fun r hr => by cases hr
  · rw [hbatches] at hc
    rcases List.mem_append.1 hc with hc | hc
    · obtain ⟨f, hf, hlost⟩ := h.lost hc ((hlost hc).1 hs)
      exact ⟨f, by simp [hf], hlost⟩
    · rw [List.mem_singleton.1 hc] at hs
      rcases hfate with ⟨-, hs'⟩ | ⟨⟨e, rfl⟩, -⟩
      · cases hs'.symm.trans hs
      · exact ⟨_, List.mem_append_right _ (List.mem_singleton_self _), trivial⟩
  · rcases hfate with ⟨rfl, hs⟩ | ⟨⟨e, rfl⟩, -⟩
    · obtain ⟨htrail, hunlinked⟩ := h.trail fun f hf => hes f (by simp [hf])
      rw [List.foldl_append, List.foldl_cons, List.foldl_nil, hstop]
      generalize es.foldl Trail.after (.quiet 0) = t at htrail hunlinked ⊢
      have hb : b.stop = t.length + data.length := by
        rw [htrail, PendingLinks.stop, hoffset, hlength]
      refine ⟨hb.symm, fun {j s e} hj => ?_⟩
      have hj : (if j = i then some (t.length, t.length + data.length) else t.unlinked j) =
        some (s, e) := hj
      split at hj
      · next hji =>
        refine ⟨b, by simp [hbatches], ?_, hji ▸ hs⟩
        rw [hrange, ← htrail]
        exact Option.some.inj hj
      · next hji =>
        obtain ⟨c, hc, hcrange, hcs⟩ := hunlinked hj
        exact ⟨c, by simp [hbatches, hc], hcrange, hfresh hc hji hcs⟩
    · exact absurd trivial (hes (.call i (.append segment data) (.lost e)) (by simp))

end Explains

end Pool

namespace Site

open Program Pool

variable {S : Site} {i : Nat} {w v : World Tables Register}
  {posts : Nat → Reply → World Tables Register → Prop} {es : List (Event Tables Reply)}
  {e : Event Tables Reply}

theorem batches_of_leaves (hw : S.Balanced w) (hv : S.Balanced v)
    (h : (S.view w).Leaves i (S.view v)) (hc : v.container = w.container) :
    v.ghost.batches = w.ghost.batches := by
  have hsize : Log.size v.ghost.log = Log.size w.ghost.log := by
    rw [← hv.length, ← hw.length, hc]
  refine (hv.balances.row.eq_of_prefix h.batches ?_).symm
  exact hw.balances.size.trans (hsize.symm.trans hv.balances.size.symm)

/-- Every step is told of. -/
theorem explains_step (hw : S.Balanced w) (hv : S.Balanced v) (h : Explains es w.ghost)
    (ha : S.custody.Accounts posts e w v) : Explains (es ++ [e]) v.ghost := by
  have hempty {j : Nat} (hj : (S.view w).Leaves j (S.view v)) (he : w.ghost.Empty j) :
      v.ghost.Empty j := hj.empty he
  cases e with
  | start i p =>
    obtain rfl : v = w := ha
    exact h.idly rfl (fun _ => rfl) fun i r hr => by cases hr
  | drift =>
    rw [show v.ghost = w.ghost from ha.1]
    exact h.idly rfl (fun _ => rfl) fun i r hr => by cases hr
  | finish i r =>
    obtain ⟨rfl, hrest⟩ : v = w ∧ w.ghost.Rests i := by
      cases r with
      | ok a => exact ⟨ha.1, ha.2.1⟩
      | error e => exact ha
    refine h.idly rfl (fun _ => rfl) fun j r hr => ?_
    obtain ⟨rfl, -⟩ := Event.finish.inj hr
    exact hrest.empty
  | proceed i =>
    obtain ⟨hc, hr, -⟩ := ha
    have hr (j : Nat) (hj : j ≠ i) : (S.view w).Leaves j (S.view v) := hr j hj
    have hleaves := hr (i + 1) (by omega)
    have hbatches := batches_of_leaves hw hv hleaves hc
    exact h.proceed hbatches (fun j hj => hleaves.unmoved hbatches j hj) hleaves.lost
      fun hb hj hs => ((hr _ hj).fresh.2 ⟨hb, hs⟩).2
  | call i q fate =>
    obtain ⟨hr, henters⟩ := ha
    have hidly (hg : v.ghost = w.ghost)
        (he : (Event.call i q fate : Event Tables Reply).appended = none)
        (htrail : ∀ t : Trail, t.call i q fate = t) :
        Explains (es ++ [.call i q fate]) v.ghost := by
      rw [hg]
      exact h.idly he htrail fun i r hr => by cases hr
    cases q with
    | append segment data =>
      have hleaves := hr (i + 1) (by omega)
      cases fate with
      | served =>
        obtain ⟨b, hbatches, hlength, hs⟩ := henters
        exact h.append hv.balances.row hbatches hlength (.inl ⟨rfl, hs⟩)
          (fun j hj => hempty (hr j hj)) hleaves.lost fun hb hj hs => ((hr _ hj).fresh.2 ⟨hb, hs⟩).2
      | lost e =>
        obtain ⟨b, hbatches, hlength, hs, he⟩ := henters
        exact h.append hv.balances.row hbatches hlength (.inr ⟨⟨e, rfl⟩, hs, he⟩)
          (fun j hj => hempty (hr j hj)) hleaves.lost fun hb hj hs => ((hr _ hj).fresh.2 ⟨hb, hs⟩).2
      | refused e => exact hidly henters rfl fun _ => rfl
    | resolve | create | delete | read | getAttributes | updateAttributes | length =>
      exact hidly (by cases fate <;> exact henters) (by cases fate <;> rfl) fun _ => rfl

theorem grows_of_accounts (ha : S.custody.Accounts posts e w v) : w.ghost.Grows v.ghost := by
  have hleaves {j : Nat} (h : (S.view w).Leaves j (S.view v)) : w.ghost.Grows v.ghost :=
    ⟨h.log, h.batches, fun hb hs => (h.lost hb).2 hs⟩
  cases e with
  | start i p =>
    obtain rfl : v = w := ha
    exact .refl _
  | drift => exact hleaves (ha.2 0)
  | finish i r =>
    obtain rfl : v = w := by
      cases r with
      | ok a => exact ha.1
      | error e => exact ha.1
    exact .refl _
  | proceed i => exact hleaves (ha.2.1 (i + 1) (by omega))
  | call i q fate => exact hleaves (ha.1 (i + 1) (by omega))

section Opened

variable {config : Config} {name : String} {segment : Nat} {c c' : Container}
  {y z : Pool Tables Reply}

def blank : Register := ⟨[], [], fun _ => .done, fun _ => none, none⟩

theorem rests_blank (i : Nat) : blank.Rests i where
  empty := fun _ hb => by cases hb
  owner _ := fun h => by cases h
  recoverer := fun h => by cases h

theorem balanced_created (hc : c.create name initialAttributes = .ok c')
    (hn : c'.resolve name = .ok segment) :
    (created config name segment False).Balanced ⟨c', .initial config, blank⟩ := by
  have hseg := Container.segment_create hc hn
  have hattr (id : AttributeId) : (c'.segment segment).attributes[id]? =
      if AttributeId.indexOffset = id then some 0 else none := by
    rw [hseg]
    exact getElem?_initialAttributes id
  have hdata : (c'.segment segment).data = Record.encodeAll recordChecksum [] := by
    rw [hseg]
    rfl
  have hnone {b : PendingLinks} {P : Prop} (hb : b ∈ blank.batches) : P := by cases hb
  refine ⟨⟨hn, hdata⟩, ⟨rfl, rfl, .inl ⟨?_, rfl⟩⟩, ?_⟩
  · simp [Tables.initial]
  exact
    { wellformed := fun r hr => by cases hr
      row := trivial
      size := rfl
      spans := hnone
      held := fun h => by simp [view, blank, Tables.initial, Locks.empty]
      recovering := rfl
      unrecovered := fun _ => rfl
      recovered := fun h => by cases h
      fresh := fun hb => hnone hb
      pending := ⟨fun h => (by cases h), fun h => hnone h.1⟩
      nodup := List.nodup_nil
      backpointer := by
        simp [view, blank, created, Tables.state, Tables.initial, SegmentState.initial]
      head := by
        simp [view, blank, created, Tables.state, Tables.initial, SegmentState.initial]
      watermark := rfl
      linked := fun {x q} hq => by
        have hq : (c'.segment segment).attributes[AttributeId.backpointer x]? = some q := hq
        rw [hattr, if_neg (AttributeId.backpointer_ne_indexOffset x).symm] at hq
        cases hq
      kept := fun hb => hnone hb
      index := ⟨0, (hattr _).trans (if_pos rfl), Nat.le_refl 0, Log.boundary_zero []⟩ }

theorem custody_within {around : Surroundings Tables}
    (hd : ∀ {t t'}, around.drifts t t' → t.Evicts t') : around.Within S.custody where
  fates _ := trivial
  lapses := trivial
  drifts hw ht := by
    obtain ⟨b, rfl⟩ := hd ht
    exact ⟨Balanced.cached hw _, fun j => .refl j _⟩

/-- In every run all that was appended is accounted for. -/
theorem custody_of_fits {past : List (Event Tables Reply)} {g : Register}
    (hm : S.config.mode = .inline) (hrun : Steps treacherous y es z)
    (hf : ∀ e ∈ es, e.Fits S.config S.name S.segment)
    (hy : y.Sound S.custody (fun _ _ _ => True) g) (hpast : Explains past g) :
    ∃ g', z.Sound S.custody (fun _ _ _ => True) g' ∧ Explains (past ++ es) g' ∧ g.Grows g' := by
  refine hrun.sound (custody_lawful S) (custody_within id)
    (H := fun es w => Explains es w.ghost ∧ g.Grows w.ghost)
    (fun hw hv hp ha _ => ⟨explains_step hw hv hp.1 ha, hp.2.trans (grows_of_accounts ha)⟩)
    (fun {i p w} hp hw hrest => ?_) hf hy ⟨hpast, .refl g⟩
  obtain ⟨op, hop, rfl⟩ := hp
  intro v hv hwv
  have hrest := View.Leaves.rests hwv hrest
  have hdone {v : World Tables Register} (hv : S.Poised i [] v) : v.ghost.Rests i :=
    ⟨hv.empty, fun h ho => (by cases (hv.owner h).1 ho), hv.recoverer⟩
  refine (custody_operation hm hop
    ⟨hv, hrest.empty, hrest.recoverer, fun h => iff_of_false (hrest.owner h) (by simp)⟩).mono
    (fun _ u hu => ⟨hdone hu, fun _ _ _ => trivial⟩) fun _ u hu => hdone hu

theorem exists_register (hm : config.mode = .inline)
    (hc : c.create name initialAttributes = .ok c') (hn : c'.resolve name = .ok segment)
    (hrun : Steps treacherous (.opened config c') es z)
    (hf : ∀ e ∈ es, e.Fits config name segment) :
    ∃ g, z.Sound (created config name segment False).custody (fun _ _ _ => True) g ∧
      Explains es g := by
  have hopened : (Pool.opened config c').Sound (created config name segment False).custody
      (fun _ _ _ => True) blank :=
    { inv := balanced_created hc hn
      parked := fun h => by cases h
      rest := fun _ => rests_blank _ }
  obtain ⟨g, hz, hes, -⟩ := custody_of_fits (S := created config name segment False) hm hrun hf
    hopened (.nil rfl)
  exact ⟨g, hz, hes⟩

theorem not_deceives {α : Type} {y z : Pool Tables α}
    {es : List (Event Tables α)} (h : Steps surroundings y es z) : ∀ e ∈ es, ¬e.Deceives := by
  induction h with
  | refl => simp
  | head h _ ih =>
    refine List.forall_mem_cons.2 ⟨fun he => ?_, ih⟩
    cases h with
    | @call i q k fate _ hf =>
      cases q with
      | append segment data =>
        cases fate with
        | lost e => exact hf e segment data rfl rfl
        | served | refused => exact he
      | resolve | create | delete | read | getAttributes | updateAttributes | length => exact he
    | start | get | set | awaited | gaveUp | clock | pause | returned | failed | drift => exact he

/-- Whoever is about to record a batch goes on at once. -/
theorem exists_step_of_fresh {y : Pool Tables Reply} {g : Register} {b : PendingLinks}
    (hy : y.Sound S.custody posts g) (hb : b ∈ g.batches) (hs : g.stage b.offset = .fresh i) :
    ∃ z, Step surroundings y (.proceed i) z := by
  have hbusy : ¬g.Empty i := fun he => (he b hb).1 hs
  have htidy : ¬S.custody.tidy i (y.world g) := fun ht => ht b hb hs
  cases hp : y.threads i with
  | none =>
    have hrest : g.Rests i := hy.rest hp
    exact absurd hrest.empty hbusy
  | some p =>
    have hobeys := hy.parked hp _ hy.inv ((custody_lawful S).refl i _)
    cases p with
    | get k => exact ⟨_, .get hp⟩
    | set s k => exact ⟨_, .set hp⟩
    | ret a =>
      have hrest : g.Rests i := hobeys.1
      exact absurd hrest.empty hbusy
    | fail e =>
      have hrest : g.Rests i := hobeys
      exact absurd hrest.empty hbusy
    | await | clock | call | pause => exact absurd hobeys.1 htidy

section True

variable {z : Pool Tables Reply} {g : Register} {b : PendingLinks} {x : Nat} {p : Option Nat}
  {h : KeyHash}

/-- What was recorded is true, as is what the index tells of it. -/
theorem true_of_recorded (hc : c.create name initialAttributes = .ok c')
    (hn : c'.resolve name = .ok segment) (hrun : Steps surroundings (.opened config c') es z)
    (hf : ∀ e ∈ es, e.Fits config name segment)
    (hz : (created config name segment False).Balanced (z.world g)) (hes : Explains es g)
    (hb : b ∈ g.batches) (hs : ∀ i, g.stage b.offset ≠ .fresh i)
    (hp : (x, p) ∈ b.links.backpointers) (hx : Log.Entry config.hasher g.log x h) :
    LastBefore (Log.Entry config.hasher g.log · h) x p := by
  obtain ⟨a, ha, htrail⟩ := exists_account hc hn hrun hf
  have ha : (created config name segment False).Inv (z.world a) := ha.inv
  have hentry {y : Nat} {k : KeyHash} : Log.Entry config.hasher g.log y k ↔
      (created config name segment False).Entry a.log y k := by
    have hbucket := (hz.stores.bucket hz.balances.wellformed k).symm.trans (ha.bucket k)
    have hiff : Log.Entry config.hasher g.log y k ↔ Log.Entry config.hasher a.log y k := by
      rw [← Log.mem_bucket, ← Log.mem_bucket]
      exact Iff.of_eq (congrArg (y ∈ ·) hbucket)
    exact hiff.trans ⟨fun he => .of_start he (Nat.zero_le y), fun he => he.1⟩
  have hlast (hlast : LastBefore ((created config name segment False).Entry a.log · h) x p) :
      LastBefore (Log.Entry config.hasher g.log · h) x p := hlast.congr fun y _ => hentry.symm
  have htail {q : Option Nat} :
      (z.state.state 0).backpointers[x]? = some q ↔
        ∃ c ∈ g.batches, (g.stage c.offset).Tailed ∧ (x, q) ∈ c.links.backpointers :=
    hz.balances.backpointer
  refine hlast ?_
  -- While the batch is in the tail the index tells of its links; later it tells of those that are
  -- persisted.
  by_cases htailed : (g.stage b.offset).Tailed
  · obtain ⟨h', he', htrue⟩ := ha.coherent.tail.backpointer (htail.2 ⟨b, hb, htailed, hp⟩)
    exact (hentry.1 hx).unique he' ▸ htrue
  · have hdone : g.stage b.offset = .done := by
      cases hstage : g.stage b.offset with
      | done => rfl
      | fresh i => exact absurd hstage (hs i)
      | held | pending =>
        rw [hstage] at htailed
        exact absurd trivial htailed
      | lost =>
        obtain ⟨e, he, hd⟩ := hes.lost hb hstage
        exact absurd hd (not_deceives hrun e he)
    have hsettled : a.Settled x := by
      refine ⟨(hentry.1 hx).lt, fun ⟨i, s, e, hi, hlo, hhi⟩ => ?_⟩
      have hi : (es.foldl Trail.after (.quiet 0)).unlinked i = some (s, e) := by
        rw [← htrail]
        exact hi
      obtain ⟨c, hc, hrange, hfresh⟩ := (hes.trail (not_deceives hrun)).2 hi
      obtain ⟨rfl, rfl⟩ := Prod.mk.inj hrange
      obtain rfl := hz.balances.row.eq_of_range hb hc ((hz.balances.spans hb).entry hp) ⟨hlo, hhi⟩
      exact hs i hfresh
    have hnone : (z.state.state 0).backpointers[x]? = none := by
      cases hq : (z.state.state 0).backpointers[x]? with
      | none => rfl
      | some q =>
        obtain ⟨c, hc, hct, hcq⟩ := htail.1 hq
        rw [(hz.balances.eq_of_backpointer hb hc hp hcq).1] at htailed
        exact absurd hct htailed
    have htrue := ha.coherent.previous (hentry.1 hx) (.inr ⟨hsettled, .inl (Nat.zero_le x)⟩)
    have hkept : (z.container.segment segment).attributes[AttributeId.backpointer x]? = p :=
      (hz.balances.kept hb hdone).backpointer hp
    have hprevious : ((z.state.state 0).backpointers[x]?.getD
        (z.container.segment segment).attributes[AttributeId.backpointer x]?) = p := by
      rw [hnone, hkept]
      rfl
    exact hprevious ▸ htrue

/-- The links of all that was appended are true. -/
theorem links_true (hc : c.create name initialAttributes = .ok c')
    (hn : c'.resolve name = .ok segment) (hrun : Steps surroundings (.opened config c') es z)
    (hf : ∀ e ∈ es, e.Fits config name segment)
    (hz : z.Sound (created config name segment False).custody (fun _ _ _ => True) g)
    (hes : Explains es g) (hb : b ∈ g.batches) (hp : (x, p) ∈ b.links.backpointers)
    (hx : Log.Entry config.hasher g.log x h) :
    LastBefore (Log.Entry config.hasher g.log · h) x p := by
  have hbalanced : (created config name segment False).Balanced (z.world g) := hz.inv
  by_cases hs : ∀ i, g.stage b.offset ≠ .fresh i
  · exact true_of_recorded hc hn hrun hf hbalanced hes hb hs hp hx
  -- Once the links were recorded, they would be true, and what is appended remains the same.
  obtain ⟨i, hs⟩ := not_forall_not.1 hs
  obtain ⟨z', hstep⟩ := exists_step_of_fresh hz hb hs
  obtain ⟨g', hz', hacc⟩ := hstep.sound (custody_lawful _) (custody_within id) hz
    fun j q hq => by cases hq
  have hbalanced' : (created config name segment False).Balanced (z'.world g') := hz'.inv
  obtain ⟨hcont, hr, htidy⟩ := id hacc
  have hr (j : Nat) (hj : j ≠ i) : ((created config name segment False).view (z.world g)).Leaves j
      ((created config name segment False).view (z'.world g')) := hr j hj
  have hleaves := hr (i + 1) (by omega)
  have hbatches : g'.batches = g.batches := batches_of_leaves hbalanced hbalanced' hleaves hcont
  have hlog : g'.log = g.log := by
    refine (Log.eq_of_prefix_of_size hleaves.log ?_).symm
    have hsize := hbalanced.balances.size
    have hsize' := hbalanced'.balances.size
    exact hsize.symm.trans ((congrArg (Row.stop 0) hbatches.symm).trans hsize')
  have hb' : b ∈ g'.batches := hbatches ▸ hb
  have hs' (j : Nat) : g'.stage b.offset ≠ .fresh j := by
    intro hj
    by_cases hji : j = i
    · exact htidy b hb' (hji ▸ hj)
    · exact hji (Stage.fresh.inj (((hr j hji).fresh.1 ⟨hb', hj⟩).2.symm.trans hs))
  have htrue := true_of_recorded hc hn (hrun.append (.head hstep (.refl z')))
    (fun e he => (List.mem_append.1 he).elim (hf e) fun he => by
      rw [List.mem_singleton.1 he]
      trivial)
    hbalanced' (explains_step hbalanced hbalanced' hes hacc) hb' hs' hp (hlog ▸ hx)
  rwa [hlog] at htrue

end True

end Opened

end Site
end KeyedLog
