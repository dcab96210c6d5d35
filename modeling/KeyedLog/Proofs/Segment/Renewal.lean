import KeyedLog.Proofs.Operation.Engaged
import KeyedLog.Proofs.Program.Succession
import KeyedLog.Proofs.Segment.Calls

/-! An index that drops the state of its segment works on with a new one. What a thread that holds
nothing has found out by then remains true. -/
namespace KeyedLog.Site

open Program

variable {S T U : Site} {i : Nat} {w v u : World Tables Account}

/-- The index works on with a state of the segment that was begun later. -/
inductive Renews (S : Site) : Site → Prop
  | mk (place start : Nat) (hs : S.start ≤ start) (hf : ∀ h, S.floor h ≤ start)
      (hr : S.calm → S.config.mode = .deferred → start = 0) :
      Renews S { S with place, start, floor_le := hf, ready := hr }

theorem Renews.refl (S : Site) : S.Renews S :=
  .mk S.place S.start (Nat.le_refl _) S.floor_le S.ready

theorem Renews.trans (h : S.Renews T) (h' : T.Renews U) : S.Renews U := by
  cases h with
  | mk place start hs hf hr =>
    cases h' with
    | mk place' start' hs' hf' hr' => exact .mk place' start' (Nat.le_trans hs hs') hf' hr'

theorem Renews.start_le (h : S.Renews T) : S.start ≤ T.start := by
  cases h
  assumption

theorem Renews.config (h : S.Renews T) : T.config = S.config := by
  cases h
  rfl

theorem Renews.segment (h : S.Renews T) : T.segment = S.segment := by
  cases h
  rfl

theorem Renews.calm (h : S.Renews T) : T.calm ↔ S.calm := by
  cases h
  rfl

/-- What an index goes on from, and what it has not forgotten. -/
structure Continues (S : Site) (w : World Tables Account) (T : Site) (v : World Tables Account) :
    Prop where
  renews : S.Renews T
  endures : Endures (S.scene w) (T.scene v)

theorem Continues.refl (S : Site) (w : World Tables Account) : Continues S w S w :=
  ⟨.refl S, .refl _⟩

theorem Continues.trans (h : Continues S w T v) (h' : Continues T v U u) : Continues S w U u :=
  ⟨h.renews.trans h'.renews, h.endures.trans h'.endures⟩

/-- What a thread can count on from one point of its way to another. -/
structure Carries (i : Nat) (S : Site) (w : World Tables Account) (T : Site)
    (v : World Tables Account) : Prop extends Continues S w T v where
  alone : S.calm → i = 0 → v.ghost.log = w.ghost.log

theorem Carries.of_minds (h : S.Minds i (S.scene w) (S.scene v)) : Carries i S w S v :=
  ⟨⟨.refl S, h.toEndures⟩, h.alone⟩

theorem Carries.refl (i : Nat) (S : Site) (w : World Tables Account) : Carries i S w S w :=
  .of_minds (.refl i _)

theorem Carries.trans (h : Carries i S w T v) (h' : Carries i T v U u) : Carries i S w U u where
  toContinues := h.toContinues.trans h'.toContinues
  alone hc hi := (h'.alone (h.renews.calm.2 hc) hi).trans (h.alone hc hi)

/-- What a thread that holds nothing sees of the others, who may also drop the state. -/
structure Succeeds (i : Nat) (S : Site) (w : World Tables Account) (T : Site)
    (v : World Tables Account) : Prop extends Carries i S w T v where
  rests : w.ghost.Rests i → v.ghost.Rests i
  indexing : S.config.mode = .deferred → i = 0 →
    (T.scene v).attributes = (S.scene w).attributes

theorem Succeeds.of_sees (h : S.Sees i (S.scene w) (S.scene v)) : Succeeds i S w S v where
  toCarries := .of_minds h.toMinds
  rests hr := h.toMinds.rests hr
  indexing := h.indexing

theorem Succeeds.trans (h : Succeeds i S w T v) (h' : Succeeds i T v U u) : Succeeds i S w U u where
  toCarries := h.toCarries.trans h'.toCarries
  rests hr := h'.rests (h.rests hr)
  indexing hm hi := (h'.indexing (h.renews.config ▸ hm) hi).trans (h.indexing hm hi)

/-- The state may be dropped unless somebody is at work with it. -/
def succession : Succession Site Tables Account where
  rules := rules
  free S _ p := ¬Tables.Engaged S.config S.segment p
  free_of_bind hf h := hf (h.bind _)
  passes := Succeeds

theorem succession_lawful : succession.Lawful where
  rules := rules_lawful
  free_of_passes := by
    rintro i S w T v α p ⟨⟨⟨⟨⟩, -⟩, -⟩, -, -⟩ hf
    exact hf
  passes_of_rely h := .of_sees h
  trans h h' := h.trans h'
  rest h hr := h.rests hr

/-- A thread that holds nothing, and what it can count on since some point of its way. -/
structure Reading (i : Nat) (S : Site) (w : World Tables Account) (T : Site)
    (v : World Tables Account) : Prop where
  inv : T.Inv v
  rests : v.ghost.Rests i
  carries : Carries i S w T v

namespace Reading

theorem refl (hw : S.Inv w) (hrest : w.ghost.Rests i) : Reading i S w S w :=
  ⟨hw, hrest, .refl i S w⟩

theorem of_minds (hv : S.Inv v) (hrest : w.ghost.Rests i)
    (h : S.Minds i (S.scene w) (S.scene v)) : Reading i S w S v :=
  ⟨hv, h.rests hrest, .of_minds h⟩

theorem go (hv : Reading i S w T v) (hu : U.Inv u) (hvu : Succeeds i T v U u) :
    Reading i S w U u :=
  ⟨hu, hvu.rests hv.rests, hv.carries.trans hvu.toCarries⟩

theorem trans (hv : Reading i S w T v) (hu : Reading i T v U u) : Reading i S w U u :=
  ⟨hu.inv, hu.rests, hv.carries.trans hu.carries⟩

end Reading

section Looking

variable {β : Type} {K : β → Site → World Tables Account → Prop}
  {E : TableError → Site → World Tables Account → Prop}

theorem abides_checkOpen {K : Unit → Site → World Tables Account → Prop} (hw : S.Inv w)
    (hK : K () S w) : Tables.checkOpen.Abides succession i K E S w := by
  unfold Tables.checkOpen
  refine Abides.bind ?_
  change (if w.state.closed then _ else _ : Program Tables Unit).Abides _ _ _ _ _ _
  rw [hw.serves.opened]
  exact hK

theorem abides_checkIndex {K : Unit → Site → World Tables Account → Prop} (hw : S.Inv w)
    (hK : K () S w) : Tables.checkIndex.Abides succession i K E S w := by
  unfold Tables.checkIndex
  refine Abides.bind ?_
  change (if w.state.indexClosed then _ else _ : Program Tables Unit).Abides _ _ _ _ _ _
  rw [hw.serves.indexOpened]
  exact hK

/-- Who holds nothing may be interrupted anywhere. -/
theorem awaits_of_rests {α : Type} {p : Program Tables α}
    {next : Site → World Tables Account → Prop} (hrest : w.ghost.Rests i)
    (hnext : ∀ T v, T.Inv v → Succeeds i S w T v → next T v) : succession.Awaits i p S w next :=
  ⟨fun _ => hrest, fun T v hv => hnext T v hv.1 (hv.passes succession_lawful)⟩

theorem yields_of_rests {α : Type} {p : Program Tables α}
    {next : Site → World Tables Account → Prop} (hrest : w.ghost.Rests i)
    (hnext : ∀ T v, T.Inv v → Succeeds i S w T v → next T v) : succession.Yields i p S w next :=
  ⟨hrest.fresh, awaits_of_rests hrest hnext⟩

/-- A program during which nobody may drop the state need not know of renewal, if what it finds out
outlasts that. -/
theorem abides_of_within {α : Type} {p : Program Tables α}
    {K : α → Site → World Tables Account → Prop} {K' : α → World Tables Account → Prop}
    {E' : TableError → World Tables Account → Prop}
    (hp : ∀ q : Program Tables α, q.Within p .ret → Tables.Engaged S.config S.segment q)
    (hw : S.Inv w) (h : p.Obeys S.rules i K' E' w)
    (hK : ∀ a v, S.Inv v → K' a v →
      v.ghost.Rests i ∧ ∀ T u, T.Inv u → Succeeds i S v T u → K a T u)
    (hE : ∀ e v, S.Inv v → E' e v →
      v.ghost.Rests i ∧ ∀ T u, T.Inv u → Succeeds i S v T u → E e T u) :
    p.Abides succession i K E S w :=
  h.abides succession_lawful hw
    (fun q hq hover hfree => hfree (hp q (within_of_comesTo hq hover))) hK hE

/-- A call that only looks is answered, unless something fails. -/
theorem abides_ask_bind (q : Call) {f : q.Answer → Program Tables β} (hrest : w.ghost.Rests i)
    (hq : ∀ segment data, q ≠ .append segment data)
    (hl : ∀ T v, T.Inv v → Succeeds i S w T v → ∃ answer, T.Looks q v answer ∧
      ∀ U u, U.Inv u → Succeeds i T v U u → (f answer).Abides succession i K E U u)
    (hE : ∀ e U u, ¬S.calm → U.Inv u → Succeeds i S w U u → E e U u) :
    (ask q >>= f).Abides succession i K E S w := by
  refine Abides.bind ((abides_ask q _).2 (yields_of_rests hrest ?_))
  intro T v hv hwv fate hfate
  obtain ⟨answer, hlook, hK⟩ := hl T v hv hwv
  obtain ⟨hadmits, hscene, hserved⟩ := admits_looks hv hq hlook hfate
  refine ⟨v.ghost, hadmits, fun _ => hwv.rests hrest, fun U u hu => ?_⟩
  have hvu : Succeeds i T v U u := by
    obtain ⟨⟨⟨hrenews, hendures⟩, halone⟩, hrests, hindexing⟩ := hu.passes succession_lawful
    exact ⟨⟨⟨hrenews, hscene ▸ hendures⟩, halone⟩, hrests, hscene ▸ hindexing⟩
  rcases hserved with hserved | ⟨hc, e, hserved⟩
  · rw [hserved]
    exact hK U u hu.1 hvu
  · rw [hserved]
    exact hE e U u (fun hc' => hc (hwv.renews.calm.2 hc')) hu.1 (hwv.trans hvu)

theorem abides_request_bind (q : Call) {f : q.Answer → Program Tables β}
    (hrest : w.ghost.Rests i) (hq : ∀ segment data, q ≠ .append segment data)
    (hl : ∀ T v, T.Inv v → Succeeds i S w T v → ∃ answer, T.Looks q v answer ∧
      ∀ U u, U.Inv u → Succeeds i T v U u → (f answer).Abides succession i K E U u)
    (hE : ∀ e U u, ¬S.calm → U.Inv u → Succeeds i S w U u → E e U u) :
    (request q >>= f).Abides succession i K E S w := by
  unfold request
  rw [LawfulMonad.bind_assoc]
  refine Abides.bind ((abides_checkTime _).2 (yields_of_rests hrest ?_))
  refine fun T v hv hwv => ⟨?_, fun hlapse => ?_⟩
  · refine abides_ask_bind q (hwv.rests hrest) hq (fun U u hu hvu => ?_) ?_
    · exact hl U u hu (hwv.trans hvu)
    · intro e U u hc hu hvu
      exact hE e U u (fun hc' => hc (hwv.renews.calm.2 hc')) hu (hwv.trans hvu)
  · exact hE _ T v (fun hc' => hlapse (hwv.renews.calm.2 hc')) hv hwv

end Looking

theorem abides_attributeOf (id : AttributeId) {K : Option Nat → Site → World Tables Account → Prop}
    {E : TableError → Site → World Tables Account → Prop} (hrest : w.ghost.Rests i)
    (hK : ∀ T v U u, T.Inv v → Succeeds i S w T v → U.Inv u → Succeeds i T v U u →
      K (T.scene v).attributes[id]? U u)
    (hE : ∀ e U u, ¬S.calm → U.Inv u → Succeeds i S w U u → E e U u) :
    (Tables.attributeOf S.segment id).Abides succession i K E S w := by
  unfold Tables.attributeOf
  refine abides_request_bind (.getAttributes S.segment [id]) hrest (by simp)
    (fun T v hv hwv => ⟨[(T.scene v).attributes[id]?], ?_, fun U u hu hvu => ?_⟩) hE
  · cases hwv.renews
    exact looks_attributes hv.stores [id]
  · exact hK T v U u hv hwv hu hvu

theorem abides_modify_of_moves {K : Unit → Site → World Tables Account → Prop}
    {E : TableError → Site → World Tables Account → Prop} (hw : S.Inv w) {f : Tables → Tables}
    (g : Account) (ht : (f w.state).Serves S.segment S.place) (hg : g.log = w.ghost.log)
    (hm : S.Moves i (S.scene w) (S.scene ⟨w.container, f w.state, g⟩))
    (hK : S.Inv ⟨w.container, f w.state, g⟩ → K () S ⟨w.container, f w.state, g⟩) :
    (modify f).Abides succession i K E S w := by
  have ha : S.rules.Admits i none w ⟨w.container, f w.state, g⟩ := admits_of_moves hw ht hg hm
  exact ⟨g, ha, hK ha.1⟩

theorem abides_ask_update {us : List AttributeUpdate}
    {K : Unit → Site → World Tables Account → Prop}
    {E : TableError → Site → World Tables Account → Prop} (hrest : w.ghost.Rests i)
    (hm : ∀ T v, T.Inv v → Succeeds i S w T v →
      T.Moves i (T.scene v) ((T.scene v).updated us) ∧
        ∀ x, T.Inv x → T.scene x = (T.scene v).updated us → ∀ U u, U.Inv u → Succeeds i T x U u →
          K () U u ∧ ∀ e, ¬S.calm → E e U u)
    (hE : ∀ e U u, ¬S.calm → U.Inv u → Succeeds i S w U u → E e U u) :
    (ask (.updateAttributes S.segment us)).Abides succession i K E S w := by
  refine (abides_ask (.updateAttributes S.segment us) K).2 (yields_of_rests hrest ?_)
  intro T v hv hwv fate hfate
  obtain ⟨hmove, hnext⟩ := hm T v hv hwv
  have hcalm (hc : ¬T.calm) : ¬S.calm := fun hc' => hc (hwv.renews.calm.2 hc')
  cases hwv.renews
  obtain ⟨hadmits, hafter⟩ := admits_update hv hmove hfate
  refine ⟨v.ghost, hadmits, fun _ => hwv.rests hrest, fun U u hu => ?_⟩
  have hxu := hu.passes succession_lawful
  rcases hafter with ⟨hscene, hserved | ⟨hc, e, hserved⟩⟩ | ⟨hcontainer, hc, e, hserved⟩
  · rw [hserved]
    exact (hnext _ hadmits.1 hscene U u hu.1 hxu).1
  · rw [hserved]
    exact (hnext _ hadmits.1 hscene U u hu.1 hxu).2 e (hcalm hc)
  · rw [hserved]
    rw [hcontainer] at hxu
    exact hE e U u (hcalm hc) hu.1 (hwv.trans hxu)

end KeyedLog.Site
