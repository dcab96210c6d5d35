import KeyedLog.Proofs.Alone.Index
import KeyedLog.Proofs.Custody.Steps
import KeyedLog.Proofs.Operation.ReadOnly

/-! Rules under which every batch stays accounted for, whichever calls fail, and how programs that
access a segment keep to them. -/
namespace KeyedLog

theorem Tables.Serves.keeps {t : Tables} {segment place : Nat} (hs : t.Serves segment place)
    (ht : t.tracked[segment]?.isSome = true) : t.Keeps segment place (t.state place) := by
  rcases hs.tracked with ⟨hn, -⟩ | ⟨hn, hsize⟩
  · rw [hn] at ht
    cases ht
  · exact ⟨hn, by omega, rfl⟩

/-- What a step enters into the register: a batch for each append that takes effect. -/
def Register.Enters (i : Nat) (g g' : Register) : Option (Call × Fate) → Prop
  | none => g'.batches = g.batches
  | some (.append _ data, .served) => ∃ b, g'.batches = g.batches ++ [b] ∧ b.length = data.length ∧
      g'.stage b.offset = .fresh i
  | some (.append _ data, .lost _) => ∃ b, g'.batches = g.batches ++ [b] ∧ b.length = data.length ∧
      g'.stage b.offset = .lost ∧ (g.Empty i → g'.Empty i)
  | some _ => g' = g

namespace Site

open Program

variable (S : Site)

def view (w : World Tables Register) : View where
  register := w.ghost
  attributes := (w.container.segment S.segment).attributes
  tracked := w.state.tracked[S.segment]?.isSome
  state := w.state.state S.place
  held h := w.state.locks.held.contains ⟨S.segment, h⟩

structure Balanced (w : World Tables Register) : Prop where
  stores : S.Stores w.container w.ghost.log
  serves : w.state.Serves S.segment S.place
  balances : (S.view w).Balances S.config.hasher

/-- Rules under which any call may fail either way. -/
def custody : Rules Tables Register where
  fates _ _ := True
  lapses := True
  inv := S.Balanced
  rely i w v := (S.view w).Leaves i (S.view v)
  guar i act w v := (∀ j, j ≠ i → (S.view w).Leaves j (S.view v)) ∧ w.ghost.Enters i v.ghost act
  tidy i w := ∀ b ∈ w.ghost.batches, w.ghost.stage b.offset ≠ .fresh i
  rest i w := w.ghost.Rests i

variable {S} {i : Nat} {hs : List KeyHash} {w v u : World Tables Register} {α : Type}
  {E : TableError → World Tables Register → Prop} {c : Container} {g : Register}

theorem custody_lawful (S : Site) : S.custody.Lawful where
  refl i w := .refl i (S.view w)
  trans h h' := View.Leaves.trans h h'
  rely_of_guar hj h := h.1 _ hj
  tidy {i v w} h ht b hb hf := by
    obtain ⟨hb, hf⟩ := (View.Leaves.fresh h).1 ⟨hb, hf⟩
    exact ht b hb hf
  rest h hr := View.Leaves.rests h hr
  tidy_of_rest h b hb := (h.empty b hb).1

theorem Balanced.unread (hw : S.Balanced w) (hc : S.Unread w.container c) :
    S.Balanced ⟨c, w.state, w.ghost⟩ ∧ S.view ⟨c, w.state, w.ghost⟩ = S.view w := by
  have hview : S.view ⟨c, w.state, w.ghost⟩ = S.view w := by
    simp only [view, hc.attributes]
  exact ⟨⟨⟨hc.resolve.trans hw.stores.resolve, hc.data.trans hw.stores.data⟩, hw.serves,
    hview ▸ hw.balances⟩, hview⟩

theorem Balanced.cached (hw : S.Balanced w) (cache : Cache) :
    S.Balanced ⟨w.container, { w.state with cache }, w.ghost⟩ :=
  have hs := hw.serves
  ⟨hw.stores, ⟨hs.opened, hs.indexOpened, hs.tracked⟩, hw.balances⟩

theorem Balanced.length (hw : S.Balanced w) :
    (w.container.segment S.segment).data.length = Log.size w.ghost.log := hw.stores.length

theorem steady_custody {Q : World Tables Register → Prop} (hinv : ∀ {w}, Q w → S.Balanced w)
    (htidy : ∀ {w}, Q w → ∀ b ∈ w.ghost.batches, w.ghost.stage b.offset ≠ .fresh i)
    (hgo : ∀ {w v}, Q w → S.Balanced v → (S.view w).Leaves i (S.view v) → Q v) :
    S.custody.Steady i Q where
  inv := hinv
  tidy := htidy
  go := hgo
  look {w q} hw hq fate := by
    obtain ⟨hb, hview⟩ := (hinv hw).unread (unread_of_serve (hinv hw).stores.resolve hq fate)
    refine ⟨hgo hw hb (hview ▸ .refl i _), fun j _ => hview ▸ .refl j _, ?_⟩
    cases q with
    | append => exact hq.elim
    | resolve | create | delete | read | getAttributes | updateAttributes | length => rfl
  cached {w} hw cache := ⟨hgo hw ((hinv hw).cached cache) (.refl i _), fun j _ => .refl j _, rfl⟩

section Memory

variable {K : Unit → World Tables Register → Prop}

theorem custody_modify (hw : S.Balanced w) {f : Tables → Tables} (g : Register)
    (ht : (f w.state).Serves S.segment S.place) (hl : g.log = w.ghost.log)
    (hb : g.batches = w.ghost.batches)
    (hm : (S.view w).Shifts S.config.hasher i (S.view ⟨w.container, f w.state, g⟩))
    (hK : S.Balanced ⟨w.container, f w.state, g⟩ → K () ⟨w.container, f w.state, g⟩) :
    (modify f).Obeys S.custody i K E w := by
  have hv : S.Balanced ⟨w.container, f w.state, g⟩ := ⟨hl ▸ hw.stores, ht, hm.balances⟩
  exact ⟨g, ⟨hv, hm.leaves, hb⟩, hK hv⟩

theorem view_modifyState (hs : w.state.Serves S.segment S.place) (ht : (S.view w).tracked = true)
    (f : SegmentState → SegmentState) (g : Register) :
    S.view ⟨w.container, w.state.modifyState S.place f, g⟩ =
      { S.view w with register := g, state := f (S.view w).state } := by
  have hstate : (w.state.modifyState S.place f).state S.place = f (w.state.state S.place) :=
    ((hs.keeps ht).modifyState f).state
  simp only [view, hstate]
  rfl

theorem custody_change (hw : S.Balanced w) (ht : (S.view w).tracked = true)
    {f : SegmentState → SegmentState} (g : Register) (hl : g.log = w.ghost.log)
    (hb : g.batches = w.ghost.batches)
    (hm : (S.view w).Shifts S.config.hasher i
      { S.view w with register := g, state := f (S.view w).state })
    (hK : ∀ v, S.Balanced v →
      S.view v = { S.view w with register := g, state := f (S.view w).state } → K () v) :
    (Tables.change S.place f).Obeys S.custody i K E w := by
  have hview := view_modifyState hw.serves ht f g
  exact custody_modify hw g (serves_modifyState hw.serves S.place f) hl hb (hview ▸ hm)
    fun hv => hK _ hv hview

end Memory

/-- A thread holds the locks of some buckets, and nothing else. -/
structure Poised (S : Site) (i : Nat) (hs : List KeyHash) (w : World Tables Register) : Prop where
  balanced : S.Balanced w
  empty : w.ghost.Empty i
  recoverer : w.ghost.recoverer ≠ some i
  owner : ∀ h, w.ghost.owner h = some i ↔ h ∈ hs

def Recovered (S : Site) (w : World Tables Register) : Prop := (S.view w).state.recovered ≠ none

theorem Poised.go (hw : S.Poised i hs w) (hv : S.Balanced v)
    (h : (S.view w).Leaves i (S.view v)) : S.Poised i hs v where
  balanced := hv
  empty := h.empty hw.empty
  recoverer hr := hw.recoverer (h.recoverer.1 hr)
  owner k := (h.owner k).trans (hw.owner k)

theorem Recovered.go (hw : S.Recovered w) (h : (S.view w).Leaves i (S.view v)) :
    S.Recovered v := by
  obtain ⟨n, hn⟩ := Option.ne_none_iff_exists'.1 hw
  exact Option.ne_none_iff_exists'.2 ⟨n, h.recovered hn⟩

theorem Balanced.tracked (hw : S.Balanced w) (hr : S.Recovered w) :
    (S.view w).tracked = true := by
  obtain ⟨n, hn⟩ := Option.ne_none_iff_exists'.1 hr
  exact (hw.balances.recovered hn).1

theorem steady_poised (S : Site) (i : Nat) (hs : List KeyHash) :
    S.custody.Steady i (S.Poised i hs) :=
  steady_custody (fun hw => hw.balanced) (fun hw b hb => (hw.empty b hb).1)
    fun hw hv h => hw.go hv h

theorem steady_ready (S : Site) (i : Nat) (hs : List KeyHash) :
    S.custody.Steady i (fun w => S.Poised i hs w ∧ S.Recovered w) :=
  steady_custody (fun hw => hw.1.balanced) (fun hw b hb => (hw.1.empty b hb).1)
    fun hw hv h => ⟨hw.1.go hv h, hw.2.go h⟩

section Access

structure Attends (S : Site) (i : Nat) (hs : List KeyHash) (w : World Tables Register) :
    Prop where
  balanced : S.Balanced w
  empty : w.ghost.Empty i
  recoverer : w.ghost.recoverer = some i
  owner : ∀ h, w.ghost.owner h = some i ↔ h ∈ hs
  tracked : (S.view w).tracked = true

theorem Attends.go (hw : S.Attends i hs w) (hv : S.Balanced v)
    (h : (S.view w).Leaves i (S.view v)) : S.Attends i hs v where
  balanced := hv
  empty := h.empty hw.empty
  recoverer := h.recoverer.2 hw.recoverer
  owner k := (h.owner k).trans (hw.owner k)
  tracked := h.tracked hw.tracked

theorem Balanced.size_of_unrecovered (hw : S.Balanced w)
    (hr : (S.view w).state.recovered = none) : Log.size w.ghost.log = 0 := by
  have hsize := hw.balances.size
  rw [hw.balances.unrecovered hr] at hsize
  exact hsize.symm

theorem custody_raise {K : Unit → World Tables Register → Prop} {n : Nat} (hw : S.Balanced w)
    (ht : (S.view w).tracked = true) (hn : n ≤ (S.view w).state.watermark.offset)
    (hK : ∀ v, S.Balanced v → (S.view w).Leaves i (S.view v) → K () v) :
    (Program.modify (·.raise S.place n)).Obeys S.custody i K E w := by
  have hsame : { (S.view w).state with watermark := ((S.view w).state.watermark.raise n).1 } =
      (S.view w).state := by
    unfold Watermark.raise
    rw [if_pos hn]
  refine custody_change (f := fun s => { s with watermark := (s.watermark.raise n).1 }) hw ht
    w.ghost rfl rfl ?_ fun v hv hs => ?_
  · rw [hsame]
    exact ⟨hw.balances, fun j _ => .refl j _⟩
  · refine hK v hv ?_
    rw [hs, hsame]
    exact .refl i _

/-- In the end all entries from before are accounted for, or the attempt has failed. -/
theorem custody_recoverState (hw : S.Attends i hs w) :
    (Tables.recoverState S.config S.segment S.place).Obeys S.custody i
      (fun _ v => S.Attends i hs v ∧ S.Recovered v) (fun _ => S.Attends i hs) w := by
  unfold Tables.recoverState
  rw [obeys_bind, obeys_look]
  split
  · next n hn => exact ⟨hw, Option.ne_none_iff_exists'.2 ⟨n, hn⟩⟩
  next hn =>
  have hsteady (m : Nat) : S.custody.Steady i fun v => S.Attends i hs v ∧
      (S.view v).state.recovered = none ∧ m ≤ (S.view v).state.watermark.offset :=
    steady_custody (fun hv => hv.1.balanced) (fun hv b hb => (hv.1.empty b hb).1)
      fun {v u} hv hu h => ⟨hv.1.go hu h, h.recovering hv.1.recoverer hv.2.1,
        Nat.le_trans hv.2.2 h.watermark⟩
  refine (obeys_bind _ _ _ _).2 ?_
  unfold Tables.attributeOf
  refine (obeys_bind (request (.getAttributes S.segment [.indexOffset])) _ _ _).2 ?_
  refine (hsteady 0).request (q := .getAttributes S.segment [.indexOffset]) trivial
    ⟨hw, hn, Nat.zero_le _⟩ (fun v c answer hv hp u hu hcu => ?_) fun e u hu => hu.1
  -- The persisted index offset never was beyond the watermark.
  obtain ⟨n, hindex, hle, -⟩ := hv.1.balanced.balances.index
  rw [Container.perform_getAttributes hv.1.balanced.stores.resolve] at hp
  obtain ⟨rfl, hanswer⟩ := Prod.mk.inj hp
  obtain rfl : answer = [some n] :=
    (Except.ok.inj hanswer).symm.trans (congrArg (fun o => [o]) hindex)
  have hview : S.view ⟨v.container.modify S.segment fun s =>
      { s with attributeReads := s.attributeReads + 1 }, v.state, v.ghost⟩ = S.view v := by
    simp only [view, Container.segment_modify _
      (Container.live_of_resolve hv.1.balanced.stores.resolve).1]
  have hvu : (S.view v).Leaves i (S.view u) := hview ▸ hcu
  have hnu := Nat.le_trans hle hvu.watermark
  dsimp only [List.head?_cons, Option.join_some, Option.getD_some, pure]
  change Obeys _ _ _ _ (Program.ask (.length S.segment) >>= _) u
  refine (obeys_bind (Program.ask (.length S.segment)) _ _ _).2 ?_
  refine (hsteady n).ask (q := .length S.segment) trivial ⟨hu.1, hu.2.1, hnu⟩
    (fun a d m ha hp b hb hdb => ?_) fun e b hb => hb.1
  obtain ⟨rfl, hanswer⟩ := Prod.mk.inj hp
  obtain rfl : @Eq Nat m 0 := by
    refine (Except.ok.inj hanswer).symm.trans ?_
    rw [ha.1.balanced.length, ha.1.balanced.size_of_unrecovered ha.2.1]
  refine (obeys_bind _ _ _ _).2 ?_
  refine custody_raise hb.1.balanced hb.1.tracked hb.2.2 fun d hd hbd => ?_
  have hd' := hb.1.go hd hbd
  have hnd := hbd.recovering hb.1.recoverer hb.2.1
  rw [if_neg (Nat.not_lt_zero _)]
  have hm := View.shifts_recovered (i := i) hd.balances hd'.recoverer hd'.tracked hnd
  refine (obeys_bind _ _ _ _).2 (custody_change hd hd'.tracked d.ghost rfl rfl hm fun e he hs => ?_)
  have hghost : e.ghost = d.ghost := congrArg View.register hs
  refine ⟨⟨he, hghost ▸ hd'.empty, hghost ▸ hd'.recoverer, fun h => hghost ▸ hd'.owner h, ?_⟩, ?_⟩
  · rw [hs]
    exact hd'.tracked
  · unfold Recovered
    rw [hs]
    simp

/-- One thread at a time accounts for old entries. -/
theorem custody_recover (hw : S.Poised i hs w) (ht : (S.view w).tracked = true) :
    (Tables.recover S.config S.segment S.place).Obeys S.custody i
      (fun _ v => S.Poised i hs v ∧ S.Recovered v) (fun _ => S.Poised i hs) w := by
  unfold Tables.recover
  rw [obeys_bind]
  refine ⟨(steady_poised S i hs).tidy hw, fun v hv hwv =>
    ⟨fun hready => ?_, fun _ => ⟨trivial, fun h => by cases h⟩⟩⟩
  have hwv : (S.view w).Leaves i (S.view v) := hwv
  have hv' := hw.go hv hwv
  have htv := hwv.tracked ht
  have hfree : v.ghost.recoverer = none := by
    have hready : (S.view v).state.recovering = false := by
      simp only [Bool.not_eq_true'] at hready
      exact hready
    rw [hv.balances.recovering] at hready
    simpa [view] using hready
  change Obeys _ _ _ _ (Tables.change S.place _ >>= _) v
  rw [obeys_bind]
  refine custody_change (f := fun s => { s with recovering := true }) hv htv
    { v.ghost with recoverer := some i } rfl rfl (View.shifts_beginRecovery hv.balances hfree)
    fun t ht hst => ?_
  have hghost : t.ghost = { v.ghost with recoverer := some i } := congrArg View.register hst
  have hatt : S.Attends i hs t :=
    { balanced := ht
      empty := by rw [hghost]; exact hv'.empty
      recoverer := by rw [hghost]
      owner := by rw [hghost]; exact hv'.owner
      tracked := by rw [hst]; exact htv }
  -- Whatever the outcome, the attempt comes to its end.
  have hend {K : Unit → World Tables Register → Prop} {b : World Tables Register}
      (hb : S.Attends i hs b)
      (hK : ∀ c, S.Poised i hs c → (S.Recovered b → S.Recovered c) → K () c) :
      (Tables.change S.place ({ · with recovering := false })).Obeys S.custody i K
        (fun _ => S.Poised i hs) b := by
    refine custody_change (f := fun s => { s with recovering := false }) hb.balanced hb.tracked
      { b.ghost with recoverer := none } rfl rfl
      (View.shifts_endRecovery hb.balanced.balances hb.recoverer) fun c hc hcs => ?_
    have hghost : c.ghost = { b.ghost with recoverer := none } := congrArg View.register hcs
    refine hK c ⟨hc, ?_, ?_, ?_⟩ fun hrec => ?_
    · rw [hghost]
      exact hb.empty
    · rw [hghost]
      exact fun h => by cases h
    · rw [hghost]
      exact hb.owner
    · unfold Recovered
      rw [hcs]
      exact hrec
  rw [obeys_ensuring]
  refine (custody_recoverState hatt).mono ?_ ?_
  · rintro n b ⟨hb, hrec⟩
    exact hend hb fun c hc hsame => ⟨hc, hsame hrec⟩
  · exact fun e b hb => hend hb fun c hc _ => hc

theorem custody_awaitWatermark (hw : S.Poised i hs w ∧ S.Recovered w) (n : Nat) :
    (Tables.awaitWatermark S.place n).Obeys S.custody i
      (fun _ v => S.Poised i hs v ∧ S.Recovered v) (fun _ => S.Poised i hs) w := by
  have hsteady := steady_ready S i hs
  unfold Tables.awaitWatermark
  rw [obeys_bind, obeys_waitUntil]
  refine ⟨hsteady.tidy hw, fun v hv hwv => ?_⟩
  have hv' := hsteady.go hw hv hwv
  refine ⟨fun _ => ?_, fun _ => ⟨trivial, fun _ => hv'.1⟩⟩
  rw [obeys_bind, obeys_look]
  split
  · exact hv'.1
  · exact hv'

theorem view_track (hs : w.state.Serves S.segment S.place) :
    (w.state.track S.segment).2 = S.place ∧ (w.state.track S.segment).1.Serves S.segment S.place ∧
      S.view ⟨w.container, (w.state.track S.segment).1, w.ghost⟩ =
        { S.view w with tracked := true } := by
  obtain ⟨href, hserves, hscene⟩ := @track_spec S ⟨w.container, w.state, idle []⟩ hs
  refine ⟨href, hserves, ?_⟩
  have ht := congrArg Scene.tracked hscene
  have hs := congrArg Scene.state hscene
  have hh := congrArg Scene.held hscene
  simp only [scene] at ht hs hh
  simp only [view, ht, hs, hh]

/-- After access old entries are accounted for. -/
theorem custody_access (hw : S.Poised i hs w) :
    (Tables.access S.config S.segment).Obeys S.custody i
      (fun ref v => ref = S.place ∧ S.Poised i hs v ∧ S.Recovered v)
      (fun _ => S.Poised i hs) w := by
  unfold Tables.access
  refine (obeys_bind _ _ _ _).2 ((Rules.obeys_checkIndex hw).mono (fun _ w hw => ?_)
    fun _ _ h => h)
  simp only [obeys_bind, obeys_read]
  obtain ⟨href, hserves, hview⟩ := view_track hw.balanced.serves
  rw [href]
  refine custody_modify (f := fun _ => (w.state.track S.segment).1) hw.balanced w.ghost hserves rfl
    rfl (hview ▸ View.shifts_track hw.balanced.balances) fun ht => ?_
  generalize hgen : (⟨w.container, (w.state.track S.segment).1, w.ghost⟩ :
    World Tables Register) = t at ht hview
  have htt : (S.view t).tracked = true := by rw [hview]
  have ht' : S.Poised i hs t := by
    refine hw.go ht ?_
    rw [hview]
    exact .of_memory rfl rfl (fun _ => rfl) rfl (Nat.le_refl _)
  have hawait (n : Nat) {v : World Tables Register} (hv : S.Poised i hs v ∧ S.Recovered v) :
      (Tables.awaitWatermark S.place n >>= fun _ => (pure S.place : Program Tables Nat)).Obeys
        S.custody i (fun ref v => ref = S.place ∧ S.Poised i hs v ∧ S.Recovered v)
        (fun _ => S.Poised i hs) v :=
    (obeys_bind _ _ _ _).2 ((custody_awaitWatermark hv n).mono (fun _ _ hu => ⟨rfl, hu⟩)
      fun _ _ hu => hu)
  have hstate : (w.state.track S.segment).1.state S.place = (S.view t).state := by
    rw [← hgen]
    rfl
  rw [hstate]
  split
  · next n hn => exact hawait n ⟨ht', Option.ne_none_iff_exists'.2 ⟨n, hn⟩⟩
  · refine (obeys_bind _ _ _ _).2 ((custody_recover ht' htt).mono (fun n v hv => hawait n hv)
      fun _ _ h => h)

theorem custody_lookup {mode : ReadMode} (hw : S.Poised i hs w) (keys : List Bytes) :
    (Tables.lookup S.config mode S.name keys).Obeys S.custody i (fun _ => S.Poised i hs)
      (fun _ => S.Poised i hs) w := by
  have hsteady := steady_poised S i hs
  have haccess {v : World Tables Register} (hv : S.Poised i hs v) :
      (Tables.access S.config S.segment).Obeys S.custody i (fun _ => S.Poised i hs)
        (fun _ => S.Poised i hs) v :=
    (custody_access hv).mono (fun _ u hu => hu.2.1) fun _ _ h => h
  exact hsteady.lookup id id (hsteady.resolve fun hv => hv.balanced.stores.resolve) haccess haccess
    hw keys

end Access

end Site
end KeyedLog
