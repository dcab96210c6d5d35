import KeyedLog.Proofs.Operation.Recovery

/-! Access to a segment: in the end its state is sound to use, and everything from before the first
access is persisted. -/
namespace KeyedLog.Site

open Program

variable {S : Site} {i : Nat} {z : Scene} {w v u : World Tables Account}
  {E : TableError → World Tables Account → Prop}

/-- The state of the segment may be used. -/
structure Accessed (S : Site) (w : World Tables Account) : Prop where
  inv : S.Inv w
  tracked : (S.scene w).tracked = true
  recovered : (S.scene w).state.recovered = some S.start
  reached : S.start ≤ (S.scene w).state.watermark.offset

theorem Accessed.grow (h : S.Accessed w) (hv : S.Inv v) (hg : Grows (S.scene w) (S.scene v)) :
    S.Accessed v where
  inv := hv
  tracked := hg.tracked h.tracked
  recovered := hg.recovered h.recovered
  reached := Nat.le_trans h.reached hg.watermark

/-- Nobody stands in the way of the only thread. -/
theorem Inv.free_of_calm (hw : S.Inv w) (hi : S.calm → i = 0) (hc : S.calm) :
    (w.ghost.recoverer ≠ some i → (S.scene w).state.recovering = false) ∧
      ∀ h, w.ghost.owner h ≠ some i → (S.scene w).held h = false := by
  have h0 := hi hc
  constructor
  · intro hr
    rw [hw.coherent.recovering]
    cases hrec : w.ghost.recoverer with
    | none => simpa [scene] using hrec
    | some j =>
      have hj : j ≠ 0 := fun hj => hr (by rw [hrec, hj, h0])
      exact absurd hrec (hw.coherent.calm hc j hj).recoverer
  · intro h ho
    rw [hw.coherent.held]
    cases hown : w.ghost.owner h with
    | none => simpa [scene] using hown
    | some j =>
      have hj : j ≠ 0 := fun hj => ho (by rw [hown, hj, h0])
      exact absurd hown ((hw.coherent.calm hc j hj).owner h)

/-- Beginning and ending to attend to old entries is nothing to the rest. -/
theorem Minds.attend {z z' : Scene} (hr : z.ghost.recoverer ≠ some i)
    (h : S.Minds i
      { z with
        ghost := { z.ghost with recoverer := some i }
        state := { z.state with recovering := true } } z') :
    S.Minds i z
      { z' with
        ghost := { z'.ghost with recoverer := none }
        state := { z'.state with recovering := false } } where
  log := h.log
  settled := h.settled
  attributes := h.attributes
  head := h.head
  generation := h.generation
  unmoved := h.unmoved
  tracked := h.tracked
  recovered := h.recovered
  watermark := h.watermark
  fresh := h.fresh
  owner := h.owner
  recoverer := iff_of_false (fun hn => by cases hn) hr
  mine := h.mine
  alone := h.alone

theorem obeys_recover (hi : S.calm → i = 0) (ht : (S.scene w).tracked = true)
    (hf : w.ghost.fresh i = none) (hr : w.ghost.recoverer ≠ some i) :
    (Tables.recover S.config S.segment S.place).Obeys S.rules i
      (fun n v => S.Inv v ∧ S.Minds i (S.scene w) (S.scene v) ∧ n = S.start ∧
        (S.scene v).state.recovered = some S.start)
      (fun _ v => S.Inv v ∧ S.Minds i (S.scene w) (S.scene v) ∧
        (S.calm → ¬S.Bounded v.ghost.log)) w := by
  unfold Tables.recover
  rw [obeys_bind]
  refine ⟨hf, fun v hv hwv => ⟨fun hready => ?_, fun hready => ⟨fun hc => ?_, fun h => by cases h⟩⟩⟩
  · have hwv : S.Sees i (S.scene w) (S.scene v) := hwv
    have htv := hwv.tracked ht
    have hrv : v.ghost.recoverer ≠ some i := fun h => hr (hwv.recoverer.1 h)
    have hfree : v.ghost.recoverer = none := by
      have hready : (S.scene v).state.recovering = false := by
        simp only [Bool.not_eq_true'] at hready
        exact hready
      rw [hv.coherent.recovering] at hready
      simpa [scene] using hready
    have hbegin := moves_beginRecovery hv.coherent hi hfree
    change Obeys _ _ _ _ (Tables.change S.place _ >>= _) v
    rw [obeys_bind]
    refine obeys_change (f := fun s => { s with recovering := true }) hv htv
      { v.ghost with recoverer := some i } rfl hbegin fun t ht hs => ?_
    have hatt : S.Attending i (S.scene t) t :=
      { inv := ht
        minds := .refl i _
        fresh := by rw [hs]; exact hwv.fresh.trans hf
        mine := by rw [hs]
        tracked := by rw [hs]; exact htv }
    -- Whatever the outcome, the attempt comes to its end.
    have hend {K : Unit → World Tables Account → Prop} {b : World Tables Account}
        (hb : S.Attending i (S.scene t) b)
        (hK : ∀ c, S.Inv c → S.Minds i (S.scene w) (S.scene c) →
          (S.scene c).state.recovered = (S.scene b).state.recovered →
          c.ghost.log = b.ghost.log → K () c) :
        (Tables.change S.place ({ · with recovering := false })).Obeys S.rules i K
          (fun _ v => S.Inv v ∧ S.Minds i (S.scene w) (S.scene v) ∧
            (S.calm → ¬S.Bounded v.ghost.log)) b := by
      have hm := moves_endRecovery hb.inv.coherent hb.mine'
      refine obeys_change (f := fun s => { s with recovering := false }) hb.inv hb.tracked'
        { b.ghost with recoverer := none } rfl hm fun c hc hcs => ?_
      refine hK c hc ?_ (by rw [hcs]) (congrArg (·.ghost.log) hcs)
      have hmid := hb.minds
      rw [hs] at hmid
      have hall := Minds.attend (show (S.scene v).ghost.recoverer ≠ some i from hrv) hmid
      rw [hcs]
      exact hwv.toMinds.trans hall
    rw [obeys_ensuring]
    refine (obeys_recoverState hatt).mono ?_ ?_
    · rintro n b ⟨hb, rfl, hrec⟩
      exact hend hb fun c hc hm hs _ => ⟨hc, hm, rfl, hs.trans hrec⟩
    · rintro e b ⟨hb, hbad⟩
      exact hend hb fun c hc hm _ hl => ⟨hc, hm, fun hc' => hl ▸ hbad hc'⟩
  · have hwv : S.Sees i (S.scene w) (S.scene v) := hwv
    have hfree := (hv.free_of_calm hi hc).1 fun h => hr (hwv.recoverer.1 h)
    have hready : (!(S.scene v).state.recovering) = false := hready
    rw [hfree] at hready
    cases hready

theorem track_spec (hs : w.state.Serves S.segment S.place) :
    (w.state.track S.segment).2 = S.place ∧ (w.state.track S.segment).1.Serves S.segment S.place ∧
      S.scene ⟨w.container, (w.state.track S.segment).1, w.ghost⟩ =
        { S.scene w with tracked := true } := by
  rcases hs.tracked with ⟨hn, hsize⟩ | ⟨hn, hsize⟩
  · unfold Tables.track
    rw [hn]
    dsimp only
    refine ⟨by simp [hsize],
      ⟨hs.opened, hs.indexOpened, .inr ⟨by simp [hsize], by simp [hsize]⟩⟩, ?_⟩
    simp [scene, Tables.state, Array.getElem_push, hsize]
  · unfold Tables.track
    rw [hn]
    refine ⟨rfl, hs, ?_⟩
    simp [scene, hn]

theorem obeys_awaitWatermark (ht : (S.scene w).tracked = true)
    (hf : w.ghost.fresh i = none) (hrec : (S.scene w).state.recovered = some S.start) :
    (Tables.awaitWatermark S.place S.start).Obeys S.rules i
      (fun _ v => S.Accessed v ∧ S.Minds i (S.scene w) (S.scene v))
      (fun _ v => S.Inv v ∧ S.Minds i (S.scene w) (S.scene v) ∧ ¬S.calm) w := by
  unfold Tables.awaitWatermark
  rw [obeys_bind, obeys_waitUntil]
  refine ⟨hf, fun v hv hwv => ⟨fun hready => ?_, fun hready => ?_⟩⟩
  · have hwv : S.Sees i (S.scene w) (S.scene v) := hwv
    have hopen : (v.state.state S.place).watermark.closed = false := hv.coherent.marked.opened
    rw [obeys_bind, obeys_look, if_neg (by simp [hopen])]
    have hle : S.start ≤ (v.state.state S.place).watermark.offset := by
      simpa [Watermark.settled, hopen] using hready
    exact ⟨⟨hv, hwv.tracked ht, hwv.recovered hrec, hle⟩, hwv.toMinds⟩
  · have hwv : S.Sees i (S.scene w) (S.scene v) := hwv
    have hcalm (hc : S.calm) : False := by
      have hle : ¬S.start ≤ (S.scene v).state.watermark.offset := by
        simp only [Watermark.settled, Bool.or_eq_false_iff, decide_eq_false_iff_not] at hready
        exact hready.2
      cases hm : S.config.mode with
      | inline => exact hle ((hv.coherent.recovered (hwv.recovered hrec)).2.2 hm)
      | deferred => exact hle (S.ready hc hm ▸ Nat.zero_le _)
    exact ⟨hcalm, fun _ => ⟨hv, hwv.toMinds, hcalm⟩⟩

/-- After access the state is sound to use. -/
theorem obeys_access (hi : S.calm → i = 0) (hw : S.Inv w) (hf : w.ghost.fresh i = none)
    (hr : w.ghost.recoverer ≠ some i) :
    (Tables.access S.config S.segment).Obeys S.rules i
      (fun ref v => ref = S.place ∧ S.Accessed v ∧ S.Minds i (S.scene w) (S.scene v))
      (fun _ v => S.Inv v ∧ S.Minds i (S.scene w) (S.scene v) ∧
        (S.calm → ¬S.Bounded v.ghost.log)) w := by
  unfold Tables.access
  rw [obeys_bind]
  refine obeys_checkIndex hw ?_
  simp only [obeys_bind, obeys_read]
  obtain ⟨href, hserves, hscene⟩ := track_spec hw.serves
  rw [href]
  have htrack := moves_track (i := i) hw.coherent
  refine obeys_modify_of_moves (f := fun _ => (w.state.track S.segment).1) hw w.ghost hserves rfl
    (hscene ▸ htrack) fun ht => ?_
  generalize hgen : (⟨w.container, (w.state.track S.segment).1, w.ghost⟩ :
    World Tables Account) = t at ht hscene
  have hwt : S.Minds i (S.scene w) (S.scene t) := hscene ▸ htrack.minds rfl
  have htt : (S.scene t).tracked = true := by rw [hscene]
  have hstate : ((w.state.track S.segment).1.state S.place) = (S.scene t).state := by
    rw [← hgen]
    rfl
  -- Whoever has accounted for the old entries, the watermark is waited for.
  have hawait {v : World Tables Account} (hv : S.Inv v) (hm : S.Minds i (S.scene w) (S.scene v))
      (htv : (S.scene v).tracked = true) (hrec : (S.scene v).state.recovered = some S.start) :
      (Tables.awaitWatermark S.place S.start >>=
          fun _ => (pure S.place : Program Tables Nat)).Obeys S.rules i
        (fun ref v => ref = S.place ∧ S.Accessed v ∧ S.Minds i (S.scene w) (S.scene v))
        (fun _ v => S.Inv v ∧ S.Minds i (S.scene w) (S.scene v) ∧
          (S.calm → ¬S.Bounded v.ghost.log)) v := by
    rw [obeys_bind]
    refine (obeys_awaitWatermark htv (hm.fresh.trans hf) hrec).mono ?_ ?_
    · rintro _ u ⟨hu, hvu⟩
      exact ⟨rfl, hu, hm.trans hvu⟩
    · rintro _ u ⟨hu, hvu, hc⟩
      exact ⟨hu, hm.trans hvu, fun hc' => absurd hc' hc⟩
  rw [hstate]
  split
  · next n hn =>
    obtain ⟨-, rfl, -⟩ := ht.coherent.recovered hn
    exact hawait ht hwt htt hn
  · have htf : t.ghost.fresh i = none := hwt.fresh.trans hf
    have htr : t.ghost.recoverer ≠ some i := fun h => hr (hwt.recoverer.1 h)
    rw [obeys_bind]
    refine (obeys_recover hi htt htf htr).mono ?_ ?_
    · rintro n v ⟨hv, hm, rfl, hrec⟩
      exact hawait hv (hwt.trans hm) (hm.tracked htt) hrec
    · rintro e v ⟨hv, hm, hbad⟩
      exact ⟨hv, hwt.trans hm, hbad⟩

end KeyedLog.Site
