import KeyedLog.Proofs.Alone.PendingWrite
import KeyedLog.Proofs.Program.Inquiry

/-! What the first access to a segment will come to, which is settled before anybody makes it. A
thread that works alone changes nothing about that, wherever it breaks off. -/
namespace KeyedLog

/-- What comes of waiting for an offset if nobody else is at work. -/
def Watermark.reach (w : Watermark) (target : Nat) : Except TableError Unit :=
  if target ≤ w.offset then .ok () else .error .timeout

theorem Watermark.reach_of_le {w : Watermark} {target : Nat} (h : target ≤ w.offset) :
    w.reach target = .ok () := if_pos h

theorem Watermark.raise_raise (w : Watermark) (n : Nat) :
    ((w.raise n).1.raise n).1 = (w.raise n).1 := by
  have hle := (raise_le (w := w) n).2
  generalize (w.raise n).1 = v at hle ⊢
  unfold raise
  rw [if_pos hle]

/-- What there is of a segment and of what is known about it while nobody is at work, and the links
that the first access would have to make good. -/
structure Outlook extends Site where
  log : List Record
  attributes : Attributes
  state : SegmentState
  links : Except TableError (List AttributeUpdate × List KeyHash)
  tells : (Tables.rangeLinks config segment (attributes[AttributeId.indexOffset]?.getD 0)
    (Log.size log)).Tells name segment log attributes links

namespace Outlook

open Program Tables

/-- Whether an access would succeed, and which attributes it would leave. -/
def foresee (O : Outlook) (a : Attributes) (s : SegmentState) :
    Except TableError Unit × Attributes :=
  match s.recovered with
  | some length => (s.watermark.reach length, a)
  | none =>
    let persisted := a[AttributeId.indexOffset]?.getD 0
    if O.config.mode = .inline ∧ persisted < Log.size O.log then
      match O.links with
      | .ok links =>
        (.ok (), a.updateAll (links.1 ++ [.replaceIfGreater .indexOffset (Log.size O.log)]))
      | .error e => (.error e, a)
    else ((s.watermark.raise persisted).1.reach (Log.size O.log), a)

def prospect (O : Outlook) : Except TableError Unit × Attributes := O.foresee O.attributes O.state

/-- The tail is as it was, and an access comes to the same as before. -/
structure Intact (O : Outlook) (a : Attributes) (s : SegmentState) : Prop where
  heads : s.heads = O.state.heads
  backpointers : s.backpointers = O.state.backpointers
  pending : s.pending = O.state.pending
  unclosed : s.watermark.closed = false
  attributes : a = O.attributes ∨ a = O.prospect.2
  behind : a[AttributeId.indexOffset]?.getD 0 < Log.size O.log → a = O.attributes
  foresees : O.foresee a s = O.prospect

variable {O : Outlook} {a : Attributes} {s : SegmentState} {n : Nat}

theorem foresee_of_recovered (hs : s.recovered = some n) :
    O.foresee a s = (s.watermark.reach n, a) := by
  unfold foresee
  rw [hs]

theorem foresee_of_persisted (hs : s.recovered = none)
    (hn : ¬(O.config.mode = .inline ∧ a[AttributeId.indexOffset]?.getD 0 < Log.size O.log)) :
    O.foresee a s =
      ((s.watermark.raise (a[AttributeId.indexOffset]?.getD 0)).1.reach (Log.size O.log), a) := by
  unfold foresee
  rw [hs]
  exact if_neg hn

theorem foresee_of_links {links : List AttributeUpdate × List KeyHash} (hs : s.recovered = none)
    (hn : O.config.mode = .inline ∧ a[AttributeId.indexOffset]?.getD 0 < Log.size O.log)
    (hl : O.links = .ok links) :
    O.foresee a s =
      (.ok (), a.updateAll (links.1 ++ [.replaceIfGreater .indexOffset (Log.size O.log)])) := by
  unfold foresee
  rw [hs, hl]
  exact if_pos hn

theorem foresee_of_no_links {e : TableError} (hs : s.recovered = none)
    (hn : O.config.mode = .inline ∧ a[AttributeId.indexOffset]?.getD 0 < Log.size O.log)
    (hl : O.links = .error e) : O.foresee a s = (.error e, a) := by
  unfold foresee
  rw [hs, hl]
  exact if_pos hn

namespace Intact

variable (h : O.Intact a s)
include h

theorem raise (hs : s.recovered = none) :
    O.Intact a { s with
      watermark := (s.watermark.raise (a[AttributeId.indexOffset]?.getD 0)).1 } :=
  { h with
    unclosed := (Watermark.closed_raise _).trans h.unclosed
    foresees := by
      rw [← h.foresees]
      unfold foresee
      dsimp only
      rw [hs, Watermark.raise_raise] }

theorem persist {links : List AttributeUpdate × List KeyHash} (hs : s.recovered = none)
    (hn : O.config.mode = .inline ∧ a[AttributeId.indexOffset]?.getD 0 < Log.size O.log)
    (hl : O.links = .ok links) {a' : Attributes}
    (ha : a' = a.updateAll (links.1 ++ [.replaceIfGreater .indexOffset (Log.size O.log)])) :
    O.Intact a' s ∧ Log.size O.log ≤ a'[AttributeId.indexOffset]?.getD 0 := by
  have hprospect := h.foresees.symm.trans (foresee_of_links hs hn hl)
  have hindex : Log.size O.log ≤ a'[AttributeId.indexOffset]?.getD 0 :=
    ha ▸ le_indexOffset_of_range ..
  rw [← ha] at hprospect
  refine ⟨{ h with attributes := ?_, behind := ?_, foresees := ?_ }, hindex⟩
  · exact .inr (congrArg Prod.snd hprospect).symm
  · intro hlt
    omega
  · rw [foresee_of_persisted hs fun hn => Nat.not_lt.2 hindex hn.2, hprospect]
    have hraise := (Watermark.raise_le (w := s.watermark) (a'[AttributeId.indexOffset]?.getD 0)).2
    rw [Watermark.reach_of_le (Nat.le_trans hindex hraise)]

theorem raiseAll (hs : s.recovered = none)
    (hindex : Log.size O.log ≤ a[AttributeId.indexOffset]?.getD 0) :
    O.Intact a { s with watermark := (s.watermark.raise (Log.size O.log)).1 } := by
  have hreach (w : Watermark) :
      (w.raise (a[AttributeId.indexOffset]?.getD 0)).1.reach (Log.size O.log) = .ok () :=
    Watermark.reach_of_le (Nat.le_trans hindex (Watermark.raise_le _).2)
  refine { h with unclosed := (Watermark.closed_raise _).trans h.unclosed, foresees := ?_ }
  rw [← h.foresees, foresee_of_persisted hs fun hn => Nat.not_lt.2 hindex hn.2, hreach]
  refine (foresee_of_persisted (by exact hs) fun hn => Nat.not_lt.2 hindex hn.2).trans ?_
  rw [hreach]

theorem recover (hs : s.recovered = none)
    (hn : ¬(O.config.mode = .inline ∧ a[AttributeId.indexOffset]?.getD 0 < Log.size O.log))
    (hw : (s.watermark.raise (a[AttributeId.indexOffset]?.getD 0)).1.reach (Log.size O.log) =
      s.watermark.reach (Log.size O.log)) :
    O.Intact a { s with recovered := some (Log.size O.log) } :=
  { h with
    foresees := by
      rw [← h.foresees, foresee_of_persisted hs hn, hw]
      exact foresee_of_recovered rfl }

theorem recovering (b : Bool) : O.Intact a { s with recovering := b } := { h with }

end Intact

structure Near (w v : World Tables Unit) : Prop where
  container : v.container = w.container
  state : ∃ cache, v.state = { w.state with cache }

theorem Near.refl (w : World Tables Unit) : Near w w := ⟨rfl, w.state.cache, rfl⟩

theorem Near.trans {u v w : World Tables Unit} (h : Near u v) (h' : Near v w) : Near u w := by
  obtain ⟨cache, hcache⟩ := h.state
  obtain ⟨cache', hcache'⟩ := h'.state
  exact ⟨h'.container.trans h.container, cache', by rw [hcache', hcache]⟩

theorem Near.stands {name : String} {segment ref : Nat} {log : List Record}
    {w v : World Tables Unit} (hv : Near w v) (h : Stands name segment ref log a s w) :
    Stands name segment ref log a s v := by
  obtain ⟨c, t, ⟨⟩⟩ := v
  obtain ⟨cache, hcache⟩ := hv.state
  obtain rfl : t = { w.state with cache } := hcache
  exact ⟨hv.container ▸ h.shows, h.keeps.withCache cache, h.opened, h.indexOpened⟩

/-- Rules for one thread that works while the others rest, and that is to leave things in some
order. If it is calm no call fails. A wait is given up only if it is in vain. -/
def lone (O : Outlook) (calm : Prop) (i : Nat) (Q : World Tables Unit → Prop) :
    Rules Tables Unit where
  fates q fate := fate = .served ∨ ¬calm ∧ Pool.surroundings.fates q fate
  lapses := calm → O.prospect.1 = .error .timeout
  inv _ := True
  rely j w v := j = i → Near w v
  guar j _ _ _ := j = i
  tidy _ _ := True
  rest j w := j = i → Q w

section Lone

variable {calm : Prop} {i ref : Nat} {Q : World Tables Unit → Prop} {w v u : World Tables Unit}
  {α : Type} {E : TableError → World Tables Unit → Prop} {rs : List Record}

theorem lone_lawful (hQ : ∀ {w v}, Near w v → Q w → Q v) : (O.lone calm i Q).Lawful where
  refl _ w _ := .refl w
  trans h h' hj := (h hj).trans (h' hj)
  rely_of_guar hj hg hi := absurd (hi.trans hg.symm) hj
  tidy _ _ := trivial
  rest h hv hj := hQ (h hj) (hv hj)
  tidy_of_rest _ := trivial

theorem lone_within (hc : ¬calm) : Pool.surroundings.Within (O.lone calm i Q) where
  fates h := .inr ⟨hc, h⟩
  lapses h := absurd h hc
  drifts _ hd := by
    obtain ⟨b, rfl⟩ := hd
    exact ⟨trivial, fun _ _ => ⟨rfl, _, rfl⟩⟩

abbrev At (O : Outlook) (ref : Nat) (a : Attributes) (s : SegmentState) (w : World Tables Unit) :
    Prop := Stands O.name O.segment ref O.log a s w

theorem At.near (h : O.At ref a s w) (hv : Near w v) : O.At ref a s v := hv.stands h

theorem At.serve {c : Container} {log : List Record} {a' : Attributes} (h : O.At ref a s w)
    (hc : c.Shows O.name O.segment log a') :
    Stands O.name O.segment ref log a' s ⟨c, w.state, ()⟩ :=
  ⟨hc, h.keeps, h.opened, h.indexOpened⟩

theorem lone_modify {K : Unit → World Tables Unit → Prop} {f : Tables → Tables}
    (hK : K () ⟨w.container, f w.state, ()⟩) :
    (Program.modify f).Obeys (O.lone calm i Q) i K E w :=
  ⟨(), ⟨trivial, rfl⟩, hK⟩

theorem lone_change {K : Unit → World Tables Unit → Prop} {f : SegmentState → SegmentState}
    (h : O.At ref a s w) (hK : ∀ v, O.At ref a (f s) v → K () v) :
    (Tables.change ref f).Obeys (O.lone calm i Q) i K E w :=
  lone_modify (hK _ ⟨h.shows, h.keeps.modifyState f, h.opened, h.indexOpened⟩)

/-- Whoever inquires learns what there is to learn, unless a call fails or there is no time. -/
theorem lone_inquires {p : Program Tables α} (hp : p.Inquires O.name O.segment)
    {K : α → World Tables Unit → Prop} (h : O.At ref a s w)
    (hK : ∀ b v, O.At ref a s v → p.Tells O.name O.segment O.log a (.ok b) → K b v)
    (hE : ∀ e v, O.At ref a s v → (calm → p.Tells O.name O.segment O.log a (.error e) ∨
      O.prospect.1 = .error e) → E e v) :
    p.Obeys (O.lone calm i Q) i K E w := by
  induction p generalizing w with
  | ret b => exact hK b w h fun c t hc => ⟨c, rfl, hc⟩
  | fail e => exact hE e w h fun _ => .inl fun c t hc => ⟨c, rfl, hc⟩
  | clock k ih =>
    refine ⟨trivial, fun v _ hv => ⟨ih true hp.2 (h.near (hv rfl)) hK hE, fun hlapse => ?_⟩⟩
    rw [hp.1]
    exact hE _ v (h.near (hv rfl)) fun hc => .inr (hlapse hc)
  | call q k ih =>
    refine ⟨trivial, fun v _ hv fate hfate => ⟨(), ⟨trivial, rfl⟩, fun u _ hserve => ?_⟩⟩
    have hv := h.near (hv rfl)
    obtain ⟨answer, hanswer⟩ := hp.1.exists_answer O.log a
    obtain ⟨c, hperform, hc⟩ := hanswer v.container hv.shows
    have hshows : (v.container.serve q fate).1.Shows O.name O.segment O.log a := by
      cases fate with
      | served | lost =>
        change (v.container.perform q).1.Shows _ _ _ _
        rw [hperform]
        exact hc
      | refused => exact hv.shows
    have hu : O.At ref a s u := At.near (hv.serve hshows) (hserve rfl)
    -- What is told after the answer is told before it is asked for.
    have htells {r : Except TableError α} (hr : (k answer).Tells O.name O.segment O.log a r) :
        (Program.call q k).Tells O.name O.segment O.log a r := by
      intro c t hc
      obtain ⟨c', hp', hc'⟩ := hanswer c hc
      unfold run
      rw [hp']
      exact hr c' t hc'
    cases fate with
    | served =>
      change (k (v.container.perform q).2).Obeys _ _ _ _ u
      rw [hperform]
      cases answer with
      | ok answer =>
        refine ih _ (hp.2.2 answer) hu (fun b v hv hb => hK b v hv (htells hb)) fun e v hv he => ?_
        exact hE e v hv fun hcalm => (he hcalm).imp_left htells
      | error e =>
        rw [hp.2.1 e] at htells ⊢
        exact hE e u hu fun _ => .inl (htells fun c t hc => ⟨c, rfl, hc⟩)
    | refused e | lost e =>
      change (k (.error e)).Obeys _ _ _ _ u
      rw [hp.2.1 e]
      refine hE e u hu fun hcalm => ?_
      obtain hf | hf := hfate
      · cases hf
      · exact absurd hcalm hf.1
  | get | set | await | pause => exact hp.elim

theorem tells_unique {p : Program Tables α} {r r' : Except TableError α} (h : O.At ref a s w)
    (hr : p.Tells O.name O.segment O.log a r) (hr' : p.Tells O.name O.segment O.log a r') :
    r = r' := hr.unique hr' w.state h.shows

/-- A call takes effect, unless it fails. Then it may take effect all the same. -/
theorem lone_request {q : Call} {K : q.Answer → World Tables Unit → Prop} {log : List Record}
    {a' : Attributes} (h : O.At ref a s w)
    (hp : ∀ c : Container, c.Shows O.name O.segment O.log a → ∃ c' answer,
      c.perform q = (c', .ok answer) ∧ c'.Shows O.name O.segment log a')
    (hK : ∀ answer v, Stands O.name O.segment ref log a' s v → K answer v)
    (hlost : ∀ e v, ¬calm → Pool.surroundings.fates q (.lost e) →
      Stands O.name O.segment ref log a' s v → E e v)
    (hE : ∀ e v, O.At ref a s v → (calm → O.prospect.1 = .error e) → E e v) :
    (request q : Program Tables q.Answer).Obeys (O.lone calm i Q) i K E w := by
  refine (obeys_bind checkTime (fun _ => ask q) K w).2 ?_
  refine (obeys_checkTime _).2 ⟨trivial, fun v _ hv => ⟨?_, fun hlapse => ?_⟩⟩
  swap
  · exact hE _ v (h.near (hv rfl)) hlapse
  refine (obeys_ask q K).2
    ⟨trivial, fun u _ hu fate hfate => ⟨(), ⟨trivial, rfl⟩, fun x _ hx => ?_⟩⟩
  have hu := (h.near (hv rfl)).near (hu rfl)
  obtain ⟨c, answer, hperform, hc⟩ := hp u.container hu.shows
  have hafter (hserve : (u.container.serve q fate).1 = c) :
      Stands O.name O.segment ref log a' s x := by
    rw [hserve] at hx
    exact (hx rfl).stands (hu.serve hc)
  have hserve := congrArg Prod.fst hperform
  cases fate with
  | served =>
    have hx := hafter hserve
    have hs : u.container.serve q .served = (c, .ok answer) := hperform
    rw [hs]
    exact hK answer x hx
  | refused e =>
    refine hE e x (hu.near (hx rfl)) fun hcalm => ?_
    obtain hf | hf := hfate
    · cases hf
    · exact absurd hcalm hf.1
  | lost e =>
    obtain hf | hf := hfate
    · cases hf
    · exact hlost e x hf.1 hf.2 (hafter hserve)

theorem tells_attributeOf (id : AttributeId) :
    (attributeOf O.segment id : Program Tables (Option Nat)).Tells O.name O.segment O.log a
      (.ok a[id]?) := by
  intro c t hc
  obtain ⟨c', hp, hc'⟩ := hc.performs_getAttributes [id]
  refine ⟨c', ?_, hc'⟩
  change ((ofExcept (c.perform (.getAttributes O.segment [id])).2 >>= _ :
    Program Tables (Option Nat))).run true (c.perform (.getAttributes O.segment [id])).1 t = _
  rw [hp]
  rfl

theorem tells_length :
    (ask (.length O.segment) : Program Tables Nat).Tells O.name O.segment O.log a
      (.ok (Log.size O.log)) := by
  intro c t hc
  refine ⟨c, ?_, hc⟩
  change (ofExcept (.ok (c.segment O.segment).data.length) : Program Tables Nat).run true c t = _
  rw [hc.length]
  rfl

/-- Things are as good as before. -/
def Standing (O : Outlook) (ref : Nat) (P : SegmentState → Prop) (w : World Tables Unit) : Prop :=
  ∃ a s, O.At ref a s w ∧ O.Intact a s ∧ P s

theorem lone_settle (h : O.At ref a s w) (hs : O.Intact a s) (hr : s.recovered = none)
    (hn : ¬(O.config.mode = .inline ∧ a[AttributeId.indexOffset]?.getD 0 < Log.size O.log))
    (hw : (s.watermark.raise (a[AttributeId.indexOffset]?.getD 0)).1.reach (Log.size O.log) =
      s.watermark.reach (Log.size O.log)) :
    (Tables.change ref ({ · with recovered := some (Log.size O.log) }) >>= fun _ =>
      (pure (Log.size O.log) : Program Tables Nat)).Obeys (O.lone calm i Q) i
      (fun n => O.Standing ref fun s => s.recovered = some n) E w := by
  rw [obeys_bind]
  exact lone_change h fun u hu => ⟨a, _, hu, hs.recover hr hn hw, rfl⟩

/-- The links are made good at once, or an access comes to the same as before. -/
theorem lone_indexRange {K : Unit → World Tables Unit → Prop} (h : O.At ref a s w)
    (hs : O.Intact a s) (hr : s.recovered = none)
    (hn : O.config.mode = .inline ∧ a[AttributeId.indexOffset]?.getD 0 < Log.size O.log)
    (hK : ∀ a v, O.At ref a s v → O.Intact a s →
      Log.size O.log ≤ a[AttributeId.indexOffset]?.getD 0 → K () v)
    (hE : ∀ e v, O.Standing ref (fun _ => True) v → (calm → O.prospect.1 = .error e) → E e v) :
    (indexRange O.config O.segment (a[AttributeId.indexOffset]?.getD 0) (Log.size O.log)).Obeys
      (O.lone calm i Q) i K E w := by
  have htells := O.tells
  rw [← hs.behind hn.2] at htells
  rw [indexRange_eq]
  refine (obeys_bind _ _ _ _).2 ?_
  refine lone_inquires (inquires_rangeLinks _ _) h (fun links v h hl => ?_) fun e v h he => ?_
  swap
  · refine hE e v ⟨a, s, h, hs, trivial⟩ fun hcalm => (he hcalm).elim (fun he => ?_) id
    rw [← hs.foresees, foresee_of_no_links hr hn (tells_unique h htells he)]
  obtain ⟨hs', hindex⟩ := hs.persist hr hn (tells_unique h htells hl) rfl
  generalize hus : links.1 ++ [.replaceIfGreater .indexOffset (Log.size O.log)] = us at hs' hindex
  have hserve (c : Container) (hc : c.Shows O.name O.segment O.log a) :
      ∃ c' answer, c.perform (.updateAttributes O.segment us) = (c', .ok answer) ∧
        c'.Shows O.name O.segment O.log (a.updateAll us) := by
    obtain ⟨c', hp, hc'⟩ := hc.performs_updateAttributes us
    exact ⟨c', (), hp, hc'⟩
  unfold persistRange
  rw [hus]
  refine (obeys_bind (request (.updateAttributes O.segment us)) _ _ _).2 ?_
  refine lone_request h hserve (fun _ v h => ?_) (fun e v hcalm _ h => ?_) fun e v h he => ?_
  · refine lone_modify (hK _ _ ?_ hs' hindex)
    exact ⟨h.shows, h.keeps.withCache _, h.opened, h.indexOpened⟩
  · exact hE e v ⟨_, s, h, hs', trivial⟩ fun h => absurd h hcalm
  · exact hE e v ⟨a, s, h, hs, trivial⟩ he

/-- Wherever an attempt to account for the entries breaks off, the next one comes to the same. -/
theorem lone_recoverState (h : O.At ref a s w) (hs : O.Intact a s) :
    (recoverState O.config O.segment ref).Obeys (O.lone calm i Q) i
      (fun n => O.Standing ref fun s => s.recovered = some n)
      (fun e v => O.Standing ref (fun _ => True) v ∧ (calm → O.prospect.1 = .error e)) w := by
  unfold recoverState
  rw [obeys_bind, Site.obeys_look, h.keeps.state]
  cases hr : s.recovered with
  | some n => exact ⟨a, s, h, hs, hr⟩
  | none =>
  refine (obeys_bind _ _ _ _).2 ?_
  refine lone_inquires (inquires_attributeOf _) h (fun n v h hn => ?_) fun e v h he => ?_
  swap
  · refine ⟨⟨a, s, h, hs, trivial⟩, fun hcalm => (he hcalm).elim (fun he => ?_) id⟩
    cases tells_unique h he (tells_attributeOf _)
  obtain rfl := Except.ok.inj (tells_unique h hn (tells_attributeOf _))
  refine (obeys_bind (ask (.length O.segment)) _ _ _).2 ?_
  refine lone_inquires (inquires_ask (q := .length O.segment) rfl) h (fun m v h hm => ?_)
    fun e v h he => ?_
  swap
  · refine ⟨⟨a, s, h, hs, trivial⟩, fun hcalm => (he hcalm).elim (fun he => ?_) id⟩
    cases tells_unique h he tells_length
  obtain rfl : m = Log.size O.log := Except.ok.inj (tells_unique h hm tells_length)
  refine (obeys_bind _ _ _ _).2 (lone_change (f := fun s => { s with
    watermark := (s.watermark.raise (a[AttributeId.indexOffset]?.getD 0)).1 }) h fun v h => ?_)
  have hs := hs.raise hr
  have hraised := Watermark.raise_raise s.watermark (a[AttributeId.indexOffset]?.getD 0)
  split
  swap
  · next hlt => exact lone_settle h hs hr (fun hn => hlt hn.2) (by rw [hraised])
  next hlt =>
  cases hmode : O.config.mode with
  | deferred =>
    refine lone_settle h hs hr (fun hn => ?_) (by rw [hraised])
    rw [hmode] at hn
    cases hn.1
  | inline =>
    refine (obeys_bind _ _ _ _).2 ?_
    refine lone_indexRange h hs hr ⟨hmode, hlt⟩ (fun a v h hs hindex => ?_)
      fun e v hv he => ⟨hv, he⟩
    refine (obeys_bind _ _ _ _).2 (lone_change
      (f := fun s => { s with watermark := (s.watermark.raise (Log.size O.log)).1 }) h
      fun v h => ?_)
    refine lone_settle h (hs.raiseAll hr hindex) hr (fun hn => Nat.not_lt.2 hindex hn.2) ?_
    rw [Watermark.reach_of_le (Nat.le_trans hindex (Watermark.raise_le _).2),
      Watermark.reach_of_le (Watermark.raise_le _).2]

theorem lone_recover (h : O.At ref a s w) (hs : O.Intact a s) (hidle : s.recovering = false) :
    (Tables.recover O.config O.segment ref).Obeys (O.lone calm i Q) i
      (fun n => O.Standing ref fun s => s.recovered = some n)
      (fun e v => O.Standing ref (fun _ => True) v ∧ (calm → O.prospect.1 = .error e)) w := by
  unfold Tables.recover
  rw [obeys_bind]
  refine ⟨trivial, fun v _ hv => ?_⟩
  have h := h.near (hv rfl)
  have hready : (!(v.state.state ref).recovering) = true := by
    rw [h.keeps.state, hidle]
    rfl
  refine ⟨fun _ => ?_, fun hn => by cases hready.symm.trans hn⟩
  change Obeys _ _ _ _ (Tables.change ref _ >>= _) v
  refine (obeys_bind _ _ _ _).2 (lone_change h fun v h => ?_)
  rw [obeys_ensuring]
  refine (lone_recoverState h (hs.recovering true)).mono ?_ ?_
  · rintro n v ⟨a, s, h, hs, hn⟩
    exact lone_change h fun u hu => ⟨a, _, hu, hs.recovering false, hn⟩
  · rintro e v ⟨⟨a, s, h, hs, -⟩, he⟩
    exact lone_change h fun u hu => ⟨⟨a, _, hu, hs.recovering false, trivial⟩, he⟩

theorem lone_awaitWatermark (h : O.At ref a s w) (hs : O.Intact a s) (hr : s.recovered = some n) :
    (awaitWatermark ref n).Obeys (O.lone calm i Q) i
      (fun _ v => O.At ref a s v ∧ n ≤ s.watermark.offset)
      (fun e v => O.At ref a s v ∧ (calm → O.prospect.1 = .error e)) w := by
  unfold awaitWatermark
  rw [obeys_bind, obeys_waitUntil]
  refine ⟨trivial, fun v _ hv => ?_⟩
  have h := h.near (hv rfl)
  have hsettled : (v.state.state ref).watermark.settled n = decide (n ≤ s.watermark.offset) := by
    rw [h.keeps.state]
    simp [Watermark.settled, hs.unclosed]
  refine ⟨fun hle => ?_, fun hle => ?_⟩
  · rw [obeys_bind, Site.obeys_look, h.keeps.state, hs.unclosed]
    exact ⟨h, of_decide_eq_true (hsettled.symm.trans hle)⟩
  · have htimeout : O.prospect.1 = .error .timeout := by
      rw [← hs.foresees, foresee_of_recovered hr]
      exact if_neg (of_decide_eq_false (hsettled.symm.trans hle))
    exact ⟨fun _ => htimeout, fun _ => ⟨h, fun _ => htimeout⟩⟩

/-- The segment and what is known of it are as good as before, and an access comes to the same. -/
def Spared (O : Outlook) (w : World Tables Unit) : Prop :=
  ∃ a, w.container.Shows O.name O.segment O.log a ∧ O.Intact a (w.state.memory O.segment)

theorem Standing.spared {P : SegmentState → Prop} (h : O.Standing ref P w) : O.Spared w := by
  obtain ⟨a, s, h, hs, -⟩ := h
  exact ⟨a, h.shows, h.keeps.memory ▸ hs⟩

/-- Whoever accesses the segment finds out what the prospect was. -/
theorem lone_access (hw : O.Spared w) (hindex : w.state.indexClosed = false)
    (hopen : w.state.closed = false)
    (hplace : ∀ ref, w.state.tracked[O.segment]? = some ref → ref < w.state.states.size)
    (hidle : (w.state.memory O.segment).recovering = false) :
    (access O.config O.segment).Obeys (O.lone calm i Q) i
      (fun ref => O.Standing ref fun s => ∃ n ≤ s.watermark.offset, s.recovered = some n)
      (fun e v => O.Spared v ∧ (calm → O.prospect.1 = .error e)) w := by
  obtain ⟨a, hshows, hs⟩ := hw
  obtain ⟨hkeeps, halike⟩ := keeps_track hplace
  unfold access checkIndex
  rw [obeys_bind, obeys_bind, obeys_read, hindex, if_neg (by simp)]
  change Obeys _ _ _ _ (Program.read >>= _) w
  rw [obeys_bind, obeys_read]
  generalize w.state.track O.segment = r at hkeeps halike ⊢
  obtain ⟨t, ref⟩ := r
  dsimp only at hkeeps halike ⊢
  rw [obeys_bind]
  refine lone_modify ?_
  have h : O.At ref a (w.state.memory O.segment) ⟨w.container, t, ()⟩ :=
    ⟨hshows, hkeeps, halike.opened.trans hopen, halike.indexOpened.trans hindex⟩
  have hawait {a : Attributes} {s : SegmentState} {v : World Tables Unit} {n : Nat}
      (h : O.At ref a s v) (hs : O.Intact a s) (hr : s.recovered = some n) :
      (awaitWatermark ref n >>= fun _ => (pure ref : Program Tables Nat)).Obeys
        (O.lone calm i Q) i
        (fun ref => O.Standing ref fun s => ∃ n ≤ s.watermark.offset, s.recovered = some n)
        (fun e v => O.Spared v ∧ (calm → O.prospect.1 = .error e)) v := by
    rw [obeys_bind]
    refine (lone_awaitWatermark h hs hr).mono (fun _ u hu => ?_) fun e u hu => ?_
    · exact ⟨a, s, hu.1, hs, n, hu.2, hr⟩
    · exact ⟨⟨a, hu.1.shows, hu.1.keeps.memory ▸ hs⟩, hu.2⟩
  rw [hkeeps.state]
  cases hr : (w.state.memory O.segment).recovered with
  | some n => exact hawait h hs hr
  | none =>
    refine (obeys_bind _ _ _ _).2 ?_
    refine (lone_recover h hs hidle).mono ?_ fun e v hv => ⟨hv.1.spared, hv.2⟩
    rintro n v ⟨a, s, h, hs, hr⟩
    exact hawait h hs hr

end Lone
end Outlook
end KeyedLog
