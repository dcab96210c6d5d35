import KeyedLog.Proofs.LostAppend.Invariant
import KeyedLog.Proofs.Operation.Indexer
import KeyedLog.Proofs.Operation.ReadOnly

/-! What every operation keeps to when appends may take effect and be reported as failed. -/
namespace KeyedLog

namespace Site

open Program

variable {S : Site} {α β : Type} {i : Nat} {w v u : World Tables Account} {c : Container}
  {E : TableError → World Tables Account → Prop}

theorem Withstands.unread (hw : S.Withstands w) (hc : S.Unread w.container c) :
    S.Withstands ⟨c, w.state, w.ghost⟩ ∧ S.scene ⟨c, w.state, w.ghost⟩ = S.scene w := by
  have hscene : S.scene ⟨c, w.state, w.ghost⟩ = S.scene w := by
    simp only [scene, hc.attributes]
  exact ⟨⟨⟨hc.resolve.trans hw.stores.resolve, hc.data.trans hw.stores.data⟩, hw.serves,
    hscene ▸ hw.robust⟩, hscene⟩

/-- Cached heads may be anything. -/
theorem Withstands.cached (hw : S.Withstands w) (cache : Cache) :
    S.Withstands ⟨w.container, { w.state with cache }, w.ghost⟩ ∧
      ∀ j, S.Bears j (S.scene w) (S.scene ⟨w.container, { w.state with cache }, w.ghost⟩) := by
  have hm (j : Nat) := steers_cache (i := j + 1) hw.robust fun h => cache.get? ⟨S.segment, h⟩
  have hs := hw.serves
  exact ⟨⟨hw.stores, ⟨hs.opened, hs.indexOpened, hs.tracked⟩, (hm 0).robust⟩,
    fun j => (hm j).bears j (by omega)⟩

/-- What a program leaves behind that holds nothing of its own. -/
abbrev Passes (S : Site) (i : Nat) (w v : World Tables Account) : Prop :=
  S.Withstands v ∧ S.Bears i (S.scene w) (S.scene v)

theorem steady_lossy (S : Site) (i : Nat) (w : World Tables Account) :
    S.lossy.Steady i (S.Passes i w) where
  inv hv := hv.1
  tidy _ := trivial
  go hv hu hvu := ⟨hu, Bears.trans hv.2 hvu⟩
  look {v q} hv hq fate := by
    obtain ⟨hc, hscene⟩ := hv.1.unread (unread_of_serve hv.1.stores.resolve hq fate)
    exact ⟨⟨hc, by rw [hscene]; exact hv.2⟩, fun j _ => hscene ▸ .refl j _⟩
  cached hv cache := by
    obtain ⟨hc, hbears⟩ := hv.1.cached cache
    exact ⟨⟨hc, hv.2.trans (hbears i)⟩, fun j _ => hbears j⟩

section Calls

variable (q : Call) {f : q.Answer → Program Tables β} {K : β → World Tables Account → Prop}

/-- A call takes effect, unless it fails. Then it may take effect all the same. -/
theorem lossy_ask {K : q.Answer → World Tables Account → Prop}
    (hl : ∀ v, S.Withstands v → S.Bears i (S.scene w) (S.scene v) → ∃ c g answer,
      v.container.perform q = (c, .ok answer) ∧ S.Withstands ⟨c, v.state, g⟩ ∧
      (∀ j, j ≠ i → S.Bears j (S.scene v) (S.scene ⟨c, v.state, g⟩)) ∧
      ∀ u, S.Withstands u → S.Bears i (S.scene ⟨c, v.state, g⟩) (S.scene u) →
        K answer u ∧ ∀ e, E e u)
    (hE : ∀ e u, S.Withstands u → S.Bears i (S.scene w) (S.scene u) → E e u) :
    (ask q).Obeys S.lossy i K E w := by
  refine (obeys_ask q K).2 ⟨trivial, fun v hv hwv fate _ => ?_⟩
  obtain ⟨c, g, answer, hp, hc, hbears, hnext⟩ := hl v hv hwv
  cases fate with
  | served =>
    have hs : v.container.serve q .served = (c, .ok answer) := hp
    rw [hs]
    exact ⟨g, ⟨hc, hbears⟩, fun u hu hvu => (hnext u hu hvu).1⟩
  | refused e =>
    exact ⟨v.ghost, ⟨hv, fun j _ => .refl j _⟩,
      fun u hu hvu => hE e u hu (Bears.trans hwv hvu)⟩
  | lost e =>
    have hs : v.container.serve q (.lost e) = (c, .error e) := by
      simp only [Container.serve, hp]
    rw [hs]
    exact ⟨g, ⟨hc, hbears⟩, fun u hu hvu => (hnext u hu hvu).2 e⟩

theorem lossy_ask_bind
    (hl : ∀ v, S.Withstands v → S.Bears i (S.scene w) (S.scene v) → ∃ answer, S.Looks q v answer ∧
      ∀ u, S.Withstands u → S.Bears i (S.scene v) (S.scene u) → (f answer).Obeys S.lossy i K E u)
    (hE : ∀ e u, S.Withstands u → S.Bears i (S.scene w) (S.scene u) → E e u) :
    (ask q >>= f).Obeys S.lossy i K E w := by
  refine (obeys_bind _ _ _ _).2 (lossy_ask q (fun v hv hwv => ?_) hE)
  obtain ⟨answer, ⟨c, hp, hc⟩, hK⟩ := hl v hv hwv
  obtain ⟨hstands, hscene⟩ := hv.unread hc
  refine ⟨c, v.ghost, answer, hp, hstands, fun j _ => hscene ▸ .refl j _, fun u hu hvu => ?_⟩
  have hvu : S.Bears i (S.scene v) (S.scene u) := hscene ▸ hvu
  exact ⟨hK u hu hvu, fun e => hE e u hu (Bears.trans hwv hvu)⟩

theorem lossy_request_bind
    (hl : ∀ v, S.Withstands v → S.Bears i (S.scene w) (S.scene v) → ∃ answer, S.Looks q v answer ∧
      ∀ u, S.Withstands u → S.Bears i (S.scene v) (S.scene u) → (f answer).Obeys S.lossy i K E u)
    (hE : ∀ e u, S.Withstands u → S.Bears i (S.scene w) (S.scene u) → E e u) :
    (request q >>= f).Obeys S.lossy i K E w := by
  rw [obeys_bind]
  unfold request
  rw [obeys_bind, obeys_checkTime]
  refine ⟨trivial, fun v hv hwv => ⟨?_, fun _ => hE _ v hv hwv⟩⟩
  rw [← obeys_bind]
  refine lossy_ask_bind q (fun u hu hvu => ?_) fun e u hu hvu => ?_
  · exact hl u hu (Bears.trans hwv hvu)
  · exact hE e u hu (Bears.trans hwv hvu)

end Calls

theorem lossy_attributeOf (id : AttributeId) {K : Option Nat → World Tables Account → Prop}
    (hK : ∀ v u, S.Withstands v → S.Bears i (S.scene w) (S.scene v) → S.Withstands u →
      S.Bears i (S.scene v) (S.scene u) → K (S.scene v).attributes[id]? u)
    (hE : ∀ e u, S.Withstands u → S.Bears i (S.scene w) (S.scene u) → E e u) :
    (Tables.attributeOf S.segment id).Obeys S.lossy i K E w := by
  unfold Tables.attributeOf
  exact lossy_request_bind (.getAttributes S.segment [id])
    (fun v hv hwv => ⟨_, looks_attributes hv.stores [id], fun u hu hvu => hK v u hv hwv hu hvu⟩) hE

section Memory

variable {K : Unit → World Tables Account → Prop}

theorem lossy_modify (hw : S.Withstands w) {f : Tables → Tables} (g : Account)
    (ht : (f w.state).Serves S.segment S.place) (hg : g.log = w.ghost.log)
    (hm : S.Steers i (S.scene w) (S.scene ⟨w.container, f w.state, g⟩))
    (hK : S.Withstands ⟨w.container, f w.state, g⟩ → K () ⟨w.container, f w.state, g⟩) :
    (modify f).Obeys S.lossy i K E w := by
  have hv : S.Withstands ⟨w.container, f w.state, g⟩ := ⟨hg ▸ hw.stores, ht, hm.robust⟩
  exact ⟨g, ⟨hv, hm.bears⟩, hK hv⟩

theorem lossy_change (hw : S.Withstands w) (ht : (S.scene w).tracked = true)
    {f : SegmentState → SegmentState} (g : Account) (hg : g.log = w.ghost.log)
    (hm : S.Steers i (S.scene w) { S.scene w with ghost := g, state := f (S.scene w).state })
    (hK : ∀ v, S.Withstands v →
      S.scene v = { S.scene w with ghost := g, state := f (S.scene w).state } → K () v) :
    (Tables.change S.place f).Obeys S.lossy i K E w := by
  have hscene := scene_modifyState hw.serves ht f g
  exact lossy_modify hw g (serves_modifyState hw.serves S.place f) hg (hscene ▸ hm)
    fun hv => hK _ hv hscene

theorem lossy_checkOpen (hw : S.Withstands w) (hK : K () w) :
    Tables.checkOpen.Obeys S.lossy i K E w := by
  unfold Tables.checkOpen
  rw [obeys_bind, obeys_read, hw.serves.opened]
  exact hK

theorem lossy_checkIndex (hw : S.Withstands w) (hK : K () w) :
    Tables.checkIndex.Obeys S.lossy i K E w := by
  unfold Tables.checkIndex
  rw [obeys_bind, obeys_read, hw.serves.indexOpened]
  exact hK

end Memory

section Access

structure Recovers (S : Site) (i : Nat) (w v : World Tables Account) : Prop where
  stands : S.Withstands v
  tends : S.Tends i (S.scene w) (S.scene v)
  recoverer : v.ghost.recoverer = some i

theorem Recovers.go (hv : S.Recovers i w v) (hu : S.Withstands u)
    (h : S.Bears i (S.scene v) (S.scene u)) : S.Recovers i w u where
  stands := hu
  tends := hv.tends.trans h.toTends
  recoverer := h.recoverer.2 hv.recoverer

theorem Robust.index {z : Scene} (hz : S.Robust z) :
    ∃ n, z.attributes[AttributeId.indexOffset]? = some n := by
  obtain ⟨p, -, ha⟩ := hz.linked
  exact ⟨_, ha.index⟩

/-- In the end all entries from before are accounted for, or the attempt has failed. -/
theorem lossy_recoverState (hm : S.config.mode = .deferred) (hw : S.Withstands w)
    (ht : (S.scene w).tracked = true) (hr : w.ghost.recoverer = some i) :
    (Tables.recoverState S.config S.segment S.place).Obeys S.lossy i
      (fun _ v => S.Recovers i w v ∧ (S.scene v).state.recovered ≠ none)
      (fun _ v => S.Recovers i w v) w := by
  have hw' : S.Recovers i w w := ⟨hw, .refl i _, hr⟩
  unfold Tables.recoverState
  rw [obeys_bind, obeys_look]
  split
  · next n hn => exact ⟨hw', Option.ne_none_iff_exists'.2 ⟨n, hn⟩⟩
  next hn =>
  refine (obeys_bind _ _ _ _).2 (lossy_attributeOf _ (fun v u hv hwv hu hvu => ?_)
    fun e u hu hwu => hw'.go hu hwu)
  have hwu := Bears.trans hwv hvu
  have hu' := hw'.go hu hwu
  obtain ⟨n, hindex⟩ := hv.robust.index
  rw [hindex]
  dsimp only [Option.getD_some]
  refine lossy_ask_bind (.length S.segment) (fun c hc huc =>
    ⟨_, looks_length hc.stores, fun d hd hcd => ?_⟩) fun e d hd hud => hu'.go hd hud
  have hc' := hu'.go hc huc
  have hd' := hc'.go hd hcd
  have hwd := (hwu.trans huc).trans hcd
  -- Nobody else has accounted for the entries in the meantime.
  have hnone : (S.scene d).state.recovered = none := hwd.recovering hr hn
  obtain ⟨m, hmd, hle⟩ := ((hvu.trans huc).trans hcd).index hindex
  have hraise := steers_raise (i := i) hd.robust hnone hmd hle
  rw [obeys_bind]
  refine lossy_change (f := fun s => { s with watermark := (s.watermark.raise n).1 }) hd
    (hwd.tracked ht) d.ghost rfl hraise fun a ha hs => ?_
  have hda : S.Bears i (S.scene d) (S.scene a) := by
    rw [hs]
    exact .of_memory rfl rfl id rfl
  have ha' := hd'.go ha hda
  have hta := (hwd.trans hda).tracked ht
  have hdone : (Tables.change S.place ({ · with recovered := some (Log.size c.ghost.log) }) >>=
      fun _ => (pure (Log.size c.ghost.log) : Program Tables Nat)).Obeys S.lossy i
      (fun _ v => S.Recovers i w v ∧ (S.scene v).state.recovered ≠ none)
      (fun _ v => S.Recovers i w v) a := by
    have hna := hda.recovering hd'.recoverer hnone
    have hsize := Log.size_le_of_prefix (Bears.trans hcd hda).log
    rw [obeys_bind]
    refine lossy_change (f := fun s => { s with recovered := some (Log.size c.ghost.log) }) ha hta
      a.ghost rfl (steers_recovered ha.robust ha'.recoverer hta hna hsize) fun b hb hs => ?_
    refine ⟨⟨hb, ha'.tends.trans ?_, ?_⟩, by rw [hs]; simp⟩
    · rw [hs]
      exact
        { Tends.refl i (S.scene a) with
          recovered := fun h => by rw [hna] at h; cases h }
    · exact (congrArg (·.ghost.recoverer) hs).trans ha'.recoverer
  split
  · rw [hm]
    exact hdone
  · exact hdone

theorem lossy_recover (hm : S.config.mode = .deferred) (ht : (S.scene w).tracked = true)
    (hr : w.ghost.recoverer ≠ some i) :
    (Tables.recover S.config S.segment S.place).Obeys S.lossy i
      (fun _ v => S.Passes i w v ∧ (S.scene v).state.recovered ≠ none)
      (fun _ v => S.Passes i w v) w := by
  unfold Tables.recover
  rw [obeys_bind]
  refine ⟨trivial, fun v hv hwv => ⟨fun hready => ?_, fun _ => ⟨trivial, fun h => by cases h⟩⟩⟩
  have hwv : S.Bears i (S.scene w) (S.scene v) := hwv
  have htv := hwv.tracked ht
  have hrv := hwv.recoverer_ne hr
  have hfree : v.ghost.recoverer = none := by
    have hready : (S.scene v).state.recovering = false := by
      simp only [Bool.not_eq_true'] at hready
      exact hready
    rw [hv.robust.recovering] at hready
    simpa [scene] using hready
  change Obeys _ _ _ _ (Tables.change S.place _ >>= _) v
  rw [obeys_bind]
  refine lossy_change (f := fun s => { s with recovering := true }) hv htv
    { v.ghost with recoverer := some i } rfl (steers_beginRecovery hv.robust hfree)
    fun t ht hs => ?_
  have hmine : t.ghost.recoverer = some i := congrArg (·.ghost.recoverer) hs
  have htt : (S.scene t).tracked = true := by
    rw [hs]
    exact htv
  have hvt : S.Tends i (S.scene v) (S.scene t) := by
    rw [hs]
    exact { Tends.refl i (S.scene v) with }
  -- Whatever the outcome, the attempt comes to its end.
  have hend {K : Unit → World Tables Account → Prop} {b : World Tables Account}
      (hb : S.Recovers i t b)
      (hK : ∀ c, S.Passes i w c →
        (S.scene c).state.recovered = (S.scene b).state.recovered → K () c) :
      (Tables.change S.place ({ · with recovering := false })).Obeys S.lossy i K
        (fun _ v => S.Passes i w v) b := by
    refine lossy_change (f := fun s => { s with recovering := false }) hb.stands
      (hb.tends.tracked htt) { b.ghost with recoverer := none } rfl
      (steers_endRecovery hb.stands.robust hb.recoverer) fun c hc hcs => ?_
    have hbc : S.Tends i (S.scene b) (S.scene c) := by
      rw [hcs]
      exact { Tends.refl i (S.scene b) with }
    have hnone : c.ghost.recoverer = none := congrArg (·.ghost.recoverer) hcs
    have hvc := (hvt.trans hb.tends).trans hbc
    exact hK c ⟨hc, Bears.trans hwv (.of_tends hvc hrv fun h => by cases hnone.symm.trans h)⟩
      (by rw [hcs])
  rw [obeys_ensuring]
  refine (lossy_recoverState hm ht htt hmine).mono ?_ ?_
  · rintro n b ⟨hb, hrec⟩
    exact hend hb fun c hc hsame => ⟨hc, by rwa [hsame]⟩
  · exact fun e b hb => hend hb fun c hc _ => hc

theorem lossy_awaitWatermark (n : Nat) :
    (Tables.awaitWatermark S.place n).Obeys S.lossy i (fun _ => S.Passes i w)
      (fun _ => S.Passes i w) w := by
  unfold Tables.awaitWatermark
  rw [obeys_bind, obeys_waitUntil]
  refine ⟨trivial, fun v hv hwv => ⟨fun _ => ?_, fun _ => ⟨trivial, fun _ => ⟨hv, hwv⟩⟩⟩⟩
  have hopen : (v.state.state S.place).watermark.closed = false := hv.robust.opened
  rw [obeys_bind, obeys_look, if_neg (by simp [hopen])]
  exact ⟨hv, hwv⟩

theorem lossy_access (hm : S.config.mode = .deferred) (hw : S.Withstands w)
    (hr : w.ghost.recoverer ≠ some i) :
    (Tables.access S.config S.segment).Obeys S.lossy i
      (fun ref v => ref = S.place ∧ S.Passes i w v ∧ (S.scene v).state.recovered ≠ none)
      (fun _ v => S.Passes i w v) w := by
  unfold Tables.access
  rw [obeys_bind]
  refine lossy_checkIndex hw ?_
  simp only [obeys_bind, obeys_read]
  obtain ⟨href, hserves, hscene⟩ := track_spec hw.serves
  rw [href]
  refine lossy_modify (f := fun _ => (w.state.track S.segment).1) hw w.ghost hserves rfl
    (hscene ▸ steers_track hw.robust) fun ht => ?_
  generalize hgen : (⟨w.container, (w.state.track S.segment).1, w.ghost⟩ :
    World Tables Account) = t at ht hscene
  have htt : (S.scene t).tracked = true := by rw [hscene]
  have hwt : S.Bears i (S.scene w) (S.scene t) := by
    rw [hscene]
    exact .of_memory rfl rfl (fun _ => rfl) rfl
  have hawait (n : Nat) {v : World Tables Account} (hv : S.Passes i w v)
      (hrec : (S.scene v).state.recovered ≠ none) :
      (Tables.awaitWatermark S.place n >>= fun _ => (pure S.place : Program Tables Nat)).Obeys
        S.lossy i
        (fun ref v => ref = S.place ∧ S.Passes i w v ∧ (S.scene v).state.recovered ≠ none)
        (fun _ v => S.Passes i w v) v := by
    rw [obeys_bind]
    refine (lossy_awaitWatermark n).mono (fun _ u hu => ?_)
      fun _ u hu => ⟨hu.1, Bears.trans hv.2 hu.2⟩
    exact ⟨rfl, ⟨hu.1, Bears.trans hv.2 hu.2⟩, hu.2.recovered_ne hrec⟩
  have hstate : (w.state.track S.segment).1.state S.place = (S.scene t).state := by
    rw [← hgen]
    rfl
  rw [hstate]
  split
  · next n hn => exact hawait n ⟨ht, hwt⟩ (Option.ne_none_iff_exists'.2 ⟨n, hn⟩)
  · rw [obeys_bind]
    refine (lossy_recover hm htt (hwt.recoverer_ne hr)).mono (fun n v hv => ?_)
      fun e v hv => ⟨hv.1, Bears.trans hwt hv.2⟩
    exact hawait n ⟨hv.1.1, Bears.trans hwt hv.1.2⟩ hv.2

end Access

end Site
end KeyedLog
