import KeyedLog.Proofs.Program.Container
import KeyedLog.Proofs.Segment.TailSteps

/-! How calls and changes of the shared state appear in the scene. -/
namespace KeyedLog.Site

open Program

variable {S : Site} {α : Type} {i : Nat} {w v u : World Tables Account}
  {E : TableError → World Tables Account → Prop}

theorem Stores.length {c : Container} {log : List Record} (hc : S.Stores c log) :
    (c.segment S.segment).data.length = Log.size log := by
  rw [hc.data, Log.length_encodeAll]

theorem Inv.length (hw : S.Inv w) :
    (w.container.segment S.segment).data.length = Log.size w.ghost.log := hw.stores.length

theorem Stores.modify {c : Container} {log : List Record} (hc : S.Stores c log)
    {f : Segment → Segment} {log' : List Record}
    (hlive : ∀ s, Container.Live S.name (f s) = Container.Live S.name s)
    (hdata : ∀ s, s.data = Record.encodeAll recordChecksum log →
      (f s).data = Record.encodeAll recordChecksum log') :
    S.Stores (c.modify S.segment f) log' where
  resolve := (Container.resolve_modify f hlive).trans hc.resolve
  data := by
    rw [Container.segment_modify f (Container.live_of_resolve hc.resolve).1]
    exact hdata _ hc.data

/-- Only the count of attribute lookups has changed. -/
structure Unread (S : Site) (c c' : Container) : Prop where
  resolve : c'.resolve S.name = c.resolve S.name
  data : (c'.segment S.segment).data = (c.segment S.segment).data
  attributes : (c'.segment S.segment).attributes = (c.segment S.segment).attributes

theorem Unread.refl (c : Container) : S.Unread c c := ⟨rfl, rfl, rfl⟩

def Looks (S : Site) (q : Call) (v : World Tables Account) (answer : q.Answer) : Prop :=
  ∃ c, v.container.perform q = (c, .ok answer) ∧ S.Unread v.container c

section Looks

variable (hv : S.Stores v.container v.ghost.log)
include hv

theorem looks_resolve : S.Looks (.resolve S.name) v S.segment :=
  ⟨_, Container.perform_resolve hv.resolve, .refl _⟩

theorem looks_length : S.Looks (.length S.segment) v (Log.size v.ghost.log) :=
  ⟨v.container, congrArg (fun n => (v.container, Except.ok n)) hv.length, .refl _⟩

theorem looks_read {offset length : Nat} (h : offset + length ≤ Log.size v.ghost.log) :
    S.Looks (.read S.segment offset length) v
      ((Record.encodeAll recordChecksum v.ghost.log).slice offset (offset + length)) := by
  refine ⟨v.container, ?_, .refl _⟩
  rw [← hv.data]
  exact Container.perform_read hv.resolve (by rw [hv.length]; exact h)

theorem looks_attributes (ids : List AttributeId) :
    S.Looks (.getAttributes S.segment ids) v
      (ids.map fun a => (S.scene v).attributes[a]?) := by
  refine ⟨_, Container.perform_getAttributes hv.resolve ids, ?_⟩
  have hlt := (Container.live_of_resolve hv.resolve).1
  refine ⟨Container.resolve_modify _ fun _ => rfl, ?_, ?_⟩
  · rw [Container.segment_modify _ hlt]
  · rw [Container.segment_modify _ hlt]

end Looks

theorem obeys_look {γ : Type} {R : Rules Tables γ} {w : World Tables γ}
    {E : TableError → World Tables γ → Prop} (ref : Nat)
    {K : SegmentState → World Tables γ → Prop} :
    (Tables.look ref).Obeys R i K E w ↔ K (w.state.state ref) w := Iff.rfl

theorem admits_of_moves (hw : S.Inv w) {t : Tables} {g : Account} (ht : t.Serves S.segment S.place)
    (hg : g.log = w.ghost.log)
    (hm : S.Moves i (S.scene w) (S.scene ⟨w.container, t, g⟩)) :
    S.rules.Admits i none w ⟨w.container, t, g⟩ := by
  refine ⟨⟨?_, ht, hm.coherent⟩, hm.sees, fun q fate h => by cases h⟩
  exact hg ▸ hw.stores

theorem obeys_modify_of_moves {K : Unit → World Tables Account → Prop} (hw : S.Inv w)
    {f : Tables → Tables} (g : Account) (ht : (f w.state).Serves S.segment S.place)
    (hg : g.log = w.ghost.log)
    (hm : S.Moves i (S.scene w) (S.scene ⟨w.container, f w.state, g⟩))
    (hK : S.Inv ⟨w.container, f w.state, g⟩ → K () ⟨w.container, f w.state, g⟩) :
    (modify f).Obeys S.rules i K E w := by
  have ha := admits_of_moves hw ht hg hm
  exact ⟨g, ha, hK ha.1⟩

theorem serves_modifyState {t : Tables} (ht : t.Serves S.segment S.place) (ref : Nat)
    (f : SegmentState → SegmentState) : (t.modifyState ref f).Serves S.segment S.place where
  opened := ht.opened
  indexOpened := ht.indexOpened
  tracked := by
    rcases ht.tracked with ⟨hn, hs⟩ | ⟨hn, hs⟩
    · exact .inl ⟨hn, by simp [Tables.modifyState, hs]⟩
    · exact .inr ⟨hn, by simp [Tables.modifyState, hs]⟩

theorem place_of_tracked (hs : w.state.Serves S.segment S.place) (ht : (S.scene w).tracked = true) :
    w.state.tracked[S.segment]? = some S.place ∧ w.state.states.size = S.place + 1 := by
  rcases hs.tracked with ⟨hn, -⟩ | h
  · have ht : w.state.tracked[S.segment]?.isSome = true := ht
    rw [hn] at ht
    cases ht
  · exact h

theorem scene_modifyState (hs : w.state.Serves S.segment S.place)
    (ht : (S.scene w).tracked = true) (f : SegmentState → SegmentState) (g : Account) :
    S.scene ⟨w.container, w.state.modifyState S.place f, g⟩ =
      { S.scene w with ghost := g, state := f (S.scene w).state } := by
  have hsize := (place_of_tracked hs ht).2
  have hstate : (w.state.modifyState S.place f).state S.place = f (w.state.state S.place) := by
    simp [Tables.state, Tables.modifyState, hsize, Array.getElem_modify_self]
  simp only [scene, hstate]
  rfl

theorem obeys_change {K : Unit → World Tables Account → Prop} (hw : S.Inv w)
    (ht : (S.scene w).tracked = true) {f : SegmentState → SegmentState} (g : Account)
    (hg : g.log = w.ghost.log)
    (hm : S.Moves i (S.scene w) { S.scene w with ghost := g, state := f (S.scene w).state })
    (hK : ∀ v, S.Inv v →
      S.scene v = { S.scene w with ghost := g, state := f (S.scene w).state } → K () v) :
    (Tables.change S.place f).Obeys S.rules i K E w := by
  have hscene := scene_modifyState hw.serves ht f g
  exact obeys_modify_of_moves hw g (serves_modifyState hw.serves S.place f) hg (hscene ▸ hm)
    fun hv => hK _ hv hscene

theorem scene_exchange (hs : w.state.Serves S.segment S.place) (ht : (S.scene w).tracked = true)
    (s : SegmentState) (c : Cache) (g : Account) :
    S.scene ⟨w.container, { w.state.modifyState S.place fun _ => s with cache := c }, g⟩ =
      { S.scene w with ghost := g, state := s, cache := fun h => c.get? ⟨S.segment, h⟩ } :=
  congrArg (fun z : Scene => { z with cache := fun h => c.get? ⟨S.segment, h⟩ })
    (scene_modifyState hs ht (fun _ => s) g)

theorem serves_exchange {t : Tables} (ht : t.Serves S.segment S.place) (s : SegmentState)
    (c : Cache) :
    ({ t.modifyState S.place fun _ => s with cache := c } : Tables).Serves S.segment S.place :=
  have hs := serves_modifyState ht S.place fun _ => s
  ⟨hs.opened, hs.indexOpened, hs.tracked⟩

theorem obeys_raise {K : Unit → World Tables Account → Prop} (hw : S.Inv w)
    (ht : (S.scene w).tracked = true) {n : Nat} (hb : Log.Boundary w.ghost.log n)
    (hp : ∀ {x h}, S.Entry w.ghost.log x h → x < n →
      S.Persisted w.ghost.log (S.scene w).attributes x h)
    (hK : ∀ v, S.Inv v → S.Minds i (S.scene w) (S.scene v) →
      (S.scene v).state =
        { (S.scene w).state with watermark := ((S.scene w).state.watermark.raise n).1 } →
      (S.scene v).attributes = (S.scene w).attributes → K () v) :
    (Program.modify fun t => t.raise S.place n).Obeys S.rules i K E w := by
  have hm := moves_raise (i := i) hw.coherent hb hp
  exact obeys_change (f := fun s => { s with watermark := (s.watermark.raise n).1 }) hw ht w.ghost
    rfl hm fun v hv hs => hK v hv (hs ▸ hm.minds rfl) (by rw [hs]) (by rw [hs])

theorem obeys_cache {K : Unit → World Tables Account → Prop} (hw : S.Inv w) (f : Tables → Cache)
    (hc : ∀ {h y}, h.Proper → (f w.state).get? ⟨S.segment, h⟩ = some y →
      S.Newest w.ghost.toLedger (S.scene w).attributes y h)
    (hK : ∀ v, S.Inv v → S.Minds i (S.scene w) (S.scene v) →
      (S.scene v).state = (S.scene w).state →
      (S.scene v).attributes = (S.scene w).attributes → K () v) :
    (Program.modify fun t => { t with cache := f t }).Obeys S.rules i K E w := by
  have hm := moves_cache (i := i) hw.coherent hc
  have hs : ({ w.state with cache := f w.state } : Tables).Serves S.segment S.place :=
    ⟨hw.serves.opened, hw.serves.indexOpened, hw.serves.tracked⟩
  exact obeys_modify_of_moves (f := fun t => { t with cache := f t }) hw w.ghost hs rfl hm
    fun hv => hK _ hv (hm.minds rfl) rfl rfl

theorem obeys_checkIndex {K : Unit → World Tables Account → Prop} (hw : S.Inv w) (hK : K () w) :
    Tables.checkIndex.Obeys S.rules i K E w := by
  unfold Tables.checkIndex
  rw [obeys_bind, obeys_read, hw.serves.indexOpened]
  exact hK

section Ask

variable (q : Call) {β : Type} {f : q.Answer → Program Tables β}
  {K : β → World Tables Account → Prop}

/-- A call that only looks changes nothing, and is answered unless something fails. -/
theorem admits_looks {q : Call} {answer : q.Answer} {fate : Fate} (hv : S.Inv v)
    (hq : ∀ segment data, q ≠ .append segment data) (hl : S.Looks q v answer)
    (hfate : S.fates q fate) :
    S.rules.Admits i (some (q, fate)) v ⟨(v.container.serve q fate).1, v.state, v.ghost⟩ ∧
      S.scene ⟨(v.container.serve q fate).1, v.state, v.ghost⟩ = S.scene v ∧
      ((v.container.serve q fate).2 = .ok answer ∨
        ¬S.calm ∧ ∃ e, (v.container.serve q fate).2 = .error e) := by
  obtain ⟨c, hp, hc⟩ := hl
  have hunread : S.Unread v.container (v.container.serve q fate).1 := by
    cases fate with
    | served =>
      rw [show v.container.serve q .served = (c, .ok answer) from hp]
      exact hc
    | refused e => exact .refl _
    | lost e =>
      rw [show v.container.serve q (.lost e) = (c, .error e) by simp only [Container.serve, hp]]
      exact hc
  have hscene : S.scene ⟨(v.container.serve q fate).1, v.state, v.ghost⟩ = S.scene v := by
    simp only [scene, hunread.attributes]
  have hafter : v.ghost.trail.call i q fate = v.ghost.trail := by
    cases q with
    | append segment data => exact absurd rfl (hq segment data)
    | _ => rfl
  refine ⟨⟨⟨?_, hv.serves, hscene ▸ hv.coherent⟩, fun j _ => hscene ▸ .refl j _, ?_⟩, hscene, ?_⟩
  · exact ⟨hunread.resolve.trans hv.stores.resolve, hunread.data.trans hv.stores.data⟩
  · intro q' fate' h
    obtain ⟨rfl, rfl⟩ := Prod.mk.inj (Option.some.inj h)
    exact hafter.symm
  · cases fate with
    | served => exact .inl (congrArg Prod.snd hp)
    | refused e => exact .inr ⟨hfate, e, rfl⟩
    | lost e => exact .inr ⟨hfate.1, e, rfl⟩

theorem obeys_ask_bind (hfresh : w.ghost.fresh i = none)
    (hq : ∀ segment data, q ≠ .append segment data)
    (hl : ∀ v, S.Inv v → S.Sees i (S.scene w) (S.scene v) → ∃ answer, S.Looks q v answer ∧
      ∀ u, S.Inv u → S.Sees i (S.scene v) (S.scene u) → (f answer).Obeys S.rules i K E u)
    (hE : ∀ e u, ¬S.calm → S.Inv u → S.Sees i (S.scene w) (S.scene u) → E e u) :
    (ask q >>= f).Obeys S.rules i K E w := by
  rw [obeys_bind, obeys_ask]
  refine ⟨hfresh, fun v hv hwv fate hfate => ?_⟩
  obtain ⟨answer, hlook, hK⟩ := hl v hv hwv
  obtain ⟨hadmits, hscene, hserved⟩ := admits_looks hv hq hlook hfate
  refine ⟨v.ghost, hadmits, fun u hu hvu => ?_⟩
  have hvu : S.Sees i (S.scene v) (S.scene u) := hscene ▸ hvu
  rcases hserved with hserved | ⟨hc, e, hserved⟩
  · rw [hserved]
    exact hK u hu hvu
  · rw [hserved]
    exact hE e u hc hu (hwv.trans hvu)

theorem obeys_request_bind (hfresh : w.ghost.fresh i = none)
    (hq : ∀ segment data, q ≠ .append segment data)
    (hl : ∀ v, S.Inv v → S.Sees i (S.scene w) (S.scene v) → ∃ answer, S.Looks q v answer ∧
      ∀ u, S.Inv u → S.Sees i (S.scene v) (S.scene u) → (f answer).Obeys S.rules i K E u)
    (hE : ∀ e u, ¬S.calm → S.Inv u → S.Sees i (S.scene w) (S.scene u) → E e u) :
    (request q >>= f).Obeys S.rules i K E w := by
  rw [obeys_bind]
  unfold request
  rw [obeys_bind, obeys_checkTime]
  refine ⟨hfresh, fun v hv hwv => ⟨?_, fun hlapse => hE _ v hlapse hv hwv⟩⟩
  rw [← obeys_bind]
  refine obeys_ask_bind q (hwv.fresh.trans hfresh) hq (fun u hu hvu => ?_) fun e u hc hu hvu => ?_
  · exact hl u hu (hwv.trans hvu)
  · exact hE e u hc hu (hwv.trans hvu)

end Ask

theorem obeys_attributeOf (id : AttributeId) {K : Option Nat → World Tables Account → Prop}
    (hfresh : w.ghost.fresh i = none)
    (hK : ∀ v u, S.Inv v → S.Sees i (S.scene w) (S.scene v) → S.Inv u →
      S.Sees i (S.scene v) (S.scene u) → K (S.scene v).attributes[id]? u)
    (hE : ∀ e u, ¬S.calm → S.Inv u → S.Sees i (S.scene w) (S.scene u) → E e u) :
    (Tables.attributeOf S.segment id).Obeys S.rules i K E w := by
  unfold Tables.attributeOf
  refine obeys_request_bind (.getAttributes S.segment [id]) hfresh (by simp)
    (fun v hv hwv => ⟨_, looks_attributes hv.stores [id], fun u hu hvu => ?_⟩) hE
  exact hK v u hv hwv hu hvu

theorem stores_updated (hv : S.Stores v.container v.ghost.log) (us : List AttributeUpdate) :
    ∃ c, v.container.perform (.updateAttributes S.segment us) = (c, .ok ()) ∧
      S.Stores c v.ghost.log ∧ S.scene ⟨c, v.state, v.ghost⟩ = (S.scene v).updated us := by
  have hlt := (Container.live_of_resolve hv.resolve).1
  refine ⟨_, Container.perform_updateAttributes hv.resolve us,
    hv.modify (fun _ => rfl) (fun _ h => h), ?_⟩
  simp only [scene, Scene.updated, Container.segment_modify _ hlt]

/-- Attributes are updated, unless that fails. Then they may be updated all the same. -/
theorem admits_update {us : List AttributeUpdate} {fate : Fate} (hv : S.Inv v)
    (hm : S.Moves i (S.scene v) ((S.scene v).updated us))
    (hfate : S.fates (.updateAttributes S.segment us) fate) :
    let r := v.container.serve (.updateAttributes S.segment us) fate
    S.rules.Admits i (some (.updateAttributes S.segment us, fate)) v
        ⟨r.1, v.state, v.ghost⟩ ∧
      (S.scene ⟨r.1, v.state, v.ghost⟩ = (S.scene v).updated us ∧
          (r.2 = .ok () ∨ ¬S.calm ∧ ∃ e, r.2 = .error e) ∨
        r.1 = v.container ∧ ¬S.calm ∧ ∃ e, r.2 = .error e) := by
  obtain ⟨c, hp, hstores, hscene⟩ := stores_updated hv.stores us
  have hinv : S.Inv ⟨c, v.state, v.ghost⟩ := ⟨hstores, hv.serves, hscene ▸ hm.coherent⟩
  have hadmits {fate : Fate} {c' : Container} (hc : c' = v.container ∨ c' = c) :
      S.rules.Admits i (some (.updateAttributes S.segment us, fate)) v
        ⟨c', v.state, v.ghost⟩ := by
    rcases hc with rfl | rfl
    · refine ⟨hv, fun j _ => .refl j _, fun q fate h => ?_⟩
      obtain ⟨rfl, rfl⟩ := Prod.mk.inj (Option.some.inj h)
      rfl
    · refine ⟨hinv, fun j hj => hscene ▸ hm.sees j hj, fun q fate h => ?_⟩
      obtain ⟨rfl, rfl⟩ := Prod.mk.inj (Option.some.inj h)
      rfl
  cases fate with
  | served =>
    have hs : v.container.serve (.updateAttributes S.segment us) .served = (c, .ok ()) := hp
    rw [hs]
    exact ⟨hadmits (.inr rfl), .inl ⟨hscene, .inl rfl⟩⟩
  | refused e => exact ⟨hadmits (.inl rfl), .inr ⟨rfl, hfate, e, rfl⟩⟩
  | lost e =>
    have hs : v.container.serve (.updateAttributes S.segment us) (.lost e) = (c, .error e) := by
      simp only [Container.serve, hp]
    rw [hs]
    exact ⟨hadmits (.inr rfl), .inl ⟨hscene, .inr ⟨hfate.1, e, rfl⟩⟩⟩

theorem obeys_ask_update {us : List AttributeUpdate} {K : Unit → World Tables Account → Prop}
    (hfresh : w.ghost.fresh i = none)
    (hm : ∀ v, S.Inv v → S.Sees i (S.scene w) (S.scene v) →
      S.Moves i (S.scene v) ((S.scene v).updated us) ∧
        ∀ u, S.Inv u → S.Sees i ((S.scene v).updated us) (S.scene u) →
          K () u ∧ ∀ e, ¬S.calm → E e u)
    (hE : ∀ e u, ¬S.calm → S.Inv u → S.Sees i (S.scene w) (S.scene u) → E e u) :
    (ask (.updateAttributes S.segment us)).Obeys S.rules i K E w := by
  refine (obeys_ask (.updateAttributes S.segment us) K).2 ⟨hfresh, fun v hv hwv fate hfate => ?_⟩
  obtain ⟨hmove, hnext⟩ := hm v hv hwv
  obtain ⟨hadmits, hafter⟩ := admits_update hv hmove hfate
  refine ⟨v.ghost, hadmits, fun u hu hvu => ?_⟩
  have hvu : S.Sees i (S.scene ⟨_, v.state, v.ghost⟩) (S.scene u) := hvu
  rcases hafter with ⟨hscene, hserved | ⟨hc, e, hserved⟩⟩ | ⟨hcontainer, hc, e, hserved⟩
  · rw [hserved]
    exact (hnext u hu (hscene ▸ hvu)).1
  · rw [hserved]
    exact (hnext u hu (hscene ▸ hvu)).2 e hc
  · rw [hserved]
    rw [hcontainer] at hvu
    exact hE e u hc hu (hwv.trans hvu)

theorem obeys_request_update {us : List AttributeUpdate} {K : Unit → World Tables Account → Prop}
    (hfresh : w.ghost.fresh i = none)
    (hm : ∀ v, S.Inv v → S.Sees i (S.scene w) (S.scene v) →
      S.Moves i (S.scene v) ((S.scene v).updated us) ∧
        ∀ u, S.Inv u → S.Sees i ((S.scene v).updated us) (S.scene u) →
          K () u ∧ ∀ e, ¬S.calm → E e u)
    (hE : ∀ e u, ¬S.calm → S.Inv u → S.Sees i (S.scene w) (S.scene u) → E e u) :
    (request (.updateAttributes S.segment us)).Obeys S.rules i K E w := by
  refine (obeys_bind checkTime (fun _ => ask (.updateAttributes S.segment us)) K w).2 ?_
  refine (obeys_checkTime _).2 ⟨hfresh, fun v hv hwv => ⟨?_, fun hlapse => hE _ v hlapse hv hwv⟩⟩
  refine obeys_ask_update (hwv.fresh.trans hfresh) (fun u hu hvu => ?_) fun e u hc hu hvu => ?_
  · exact hm u hu (hwv.trans hvu)
  · exact hE e u hc hu (hwv.trans hvu)

end KeyedLog.Site
