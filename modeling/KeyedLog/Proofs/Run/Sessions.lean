import KeyedLog.Proofs.Operation.Operations

/-! Sessions: operations on a table run side by side in an extension, from its opening on. -/
namespace KeyedLog

namespace Pool

variable {σ α : Type} {around : Surroundings σ} {y z m : Pool σ α} {es fs : List (Event σ α)}

theorem Steps.split (h : Steps around y (es ++ fs) z) :
    ∃ m, Steps around y es m ∧ Steps around m fs z := by
  induction es generalizing y with
  | nil => exact ⟨y, .refl y, h⟩
  | cons e es ih =>
    cases h with
    | head h hs =>
      obtain ⟨m, hm, hz⟩ := ih hs
      exact ⟨m, .head h hm, hz⟩

/-- A step is also taken in other surroundings in which what the call met, or the drift, may
occur. -/
theorem Step.mono {around' : Surroundings σ} {e : Event σ α} (h : Step around y e z)
    (hf : ∀ {i q fate}, e = .call i q fate → around.fates q fate → around'.fates q fate)
    (hd : ∀ {s s'}, around.drifts s s' → around'.drifts s s') : Step around' y e z := by
  cases h with
  | start p hp => exact .start p hp
  | get hp => exact .get hp
  | set hp => exact .set hp
  | awaited hp hr => exact .awaited hp hr
  | gaveUp hp hr => exact .gaveUp hp hr
  | clock hasTime hp => exact .clock hasTime hp
  | pause hp => exact .pause hp
  | call fate hp hmet => exact .call fate hp (hf rfl hmet)
  | returned hp => exact .returned hp
  | failed hp => exact .failed hp
  | drift hdrift => exact .drift (hd hdrift)

/-- A thread that is at work goes on to be until it is over, and is not started anew. -/
theorem Step.busy {e : Event σ α} {i : Nat} (h : Step around y e z) (hi : (y.threads i).isSome)
    (hno : ∀ r, e ≠ .finish i r) : (z.threads i).isSome ∧ ∀ p, e ≠ .start i p := by
  have hassign {y : Pool σ α} {j : Nat} {p : Program σ α} (hi : (y.threads i).isSome) :
      ((y.assign j (some p)).threads i).isSome := by
    unfold assign
    dsimp only
    split
    · rfl
    · exact hi
  have hretire {j : Nat} (hji : j ≠ i) : ((y.assign j none).threads i).isSome := by
    unfold assign
    dsimp only
    rwa [if_neg hji.symm]
  cases h with
  | @start j p hj =>
    refine ⟨hassign hi, fun q hq => ?_⟩
    obtain ⟨rfl, -⟩ := Event.start.inj hq
    rw [hj] at hi
    cases hi
  | @returned j a _ => exact ⟨hretire fun hji => hno (.ok a) (by rw [hji]), by simp⟩
  | @failed j e _ => exact ⟨hretire fun hji => hno (.error e) (by rw [hji]), by simp⟩
  | drift => exact ⟨hi, by simp⟩
  | get | set | awaited | gaveUp | clock | pause | call => exact ⟨hassign hi, by simp⟩

theorem Steps.busy {i : Nat} (h : Steps around y es z) (hi : (y.threads i).isSome)
    (hno : ∀ r, .finish i r ∉ es) : ∀ p, .start i p ∉ es := by
  induction h with
  | refl => simp
  | head h _ ih =>
    obtain ⟨hi, hstart⟩ := h.busy hi fun r hr => hno r (by simp [hr])
    intro p hp
    rcases List.mem_cons.1 hp with hp | hp
    · exact hstart p hp.symm
    · exact ih hi (fun r hr => hno r (by simp [hr])) p hp

theorem Step.idle {e : Event σ α} {i : Nat} (h : Step around y e z) (hi : y.threads i = none)
    (hno : ∀ p, e ≠ .start i p) : z.threads i = none := by
  have hassign {y : Pool σ α} {j : Nat} {p : Option (Program σ α)} (hi : y.threads i = none)
      (hji : i ≠ j) : (y.assign j p).threads i = none := by
    unfold assign
    dsimp only
    rwa [if_neg hji]
  cases h with
  | @start j p => exact hassign hi fun hji => hno p (by rw [hji])
  | drift => exact hi
  | @get j _ hj | @set j _ _ hj | @awaited j _ _ _ hj | @gaveUp j _ _ hj | @clock j _ _ hj
  | @pause j _ _ hj | @call j _ _ _ hj | @returned j _ hj | @failed j _ hj =>
    refine hassign hi fun hji => ?_
    rw [hji, hj] at hi
    cases hi

theorem Steps.idle {i : Nat} (h : Steps around y es z) (hi : y.threads i = none)
    (hno : ∀ p, .start i p ∉ es) : z.threads i = none := by
  have hes : ∀ e ∈ es, ∀ p, e ≠ .start i p := fun e he p hp => hno p (hp ▸ he)
  exact h.keep (I := fun y => y.threads i = none) (fun hstep he hi => hstep.idle hi he) hes hi

def Event.actor : Event σ α → Option Nat
  | .start i _ | .proceed i | .call i _ _ | .finish i _ => some i
  | .drift => none

/-- If nobody is at work but one operation, nobody is when it is over. -/
theorem Steps.idle_of_alone {i : Nat} {p : Program σ α} {r : Except TableError α}
    (h : Steps around y (.start i p :: fs ++ [.finish i r]) z) (hidle : ∀ j, y.threads j = none)
    (halone : ∀ f ∈ fs, ∀ j, f.actor = some j → j = i) (hno : ∀ r, .finish i r ∉ fs) :
    (∀ j q, .start j q ∉ fs) ∧ ∀ j, z.threads j = none := by
  cases h with
  | @head _ m _ _ _ hstart hrest =>
    have hwork : (m.threads i).isSome := by
      cases hstart
      simp [assign]
    obtain ⟨m', hfs, hlast⟩ := hrest.split
    have hstarts : ∀ j q, .start j q ∉ fs := by
      intro j q hq
      obtain rfl : j = i := halone _ hq j rfl
      exact hfs.busy hwork hno q hq
    refine ⟨hstarts, fun j => ?_⟩
    by_cases hji : j = i
    · subst hji
      cases hlast with
      | head h hend =>
        cases hend
        cases h <;> simp [assign]
    · have hj : m.threads j = none := hstart.idle (hidle j) fun q hq => by
        exact hji (Event.start.inj hq).1.symm
      refine hrest.idle hj fun q hq => ?_
      rcases List.mem_append.1 hq with hq | hq
      · exact hstarts j q hq
      · simp at hq

def opened (config : Config) (c : Container) : Pool Tables Reply :=
  ⟨c, .initial config, fun _ => none⟩

/-- Calls may fail, with or without effect, but an append that fails has none. Cached heads may be
lost at any time. -/
def surroundings : Surroundings Tables where
  fates q fate := ∀ e segment data, fate = .lost e → q ≠ .append segment data
  drifts := Tables.Evicts

def Event.Fits (config : Config) (name : String) (segment : Nat) : Event Tables Reply → Prop
  | .start i p => ∃ op : Operation, op.Fits config name segment i ∧ p = op.program config name
  | _ => True

end Pool

namespace Trail

def quiet (length : Nat) : Trail := ⟨length, fun _ => none⟩

def after {σ α : Type} (t : Trail) : Pool.Event σ α → Trail
  | .call i q fate => t.call i q fate
  | .proceed i => t.proceed i
  | _ => t

theorem foldl_after_window {σ α : Type} (t : Trail) (i : Nat) (p : Program σ α)
    (r : Except TableError α) (ds fs : List (Pool.Event σ α)) :
    (ds ++ (Pool.Event.start i p :: fs ++ [Pool.Event.finish i r])).foldl after t =
      (ds ++ fs).foldl after t := by
  simp [after]

/-- An entry was appended, and its links have yet to be recorded. -/
def Linking (t : Trail) (x : Nat) : Prop := ∃ i s e, t.unlinked i = some (s, e) ∧ s ≤ x ∧ x < e

/-- An entry is there, and its links were recorded. -/
def Recorded (t : Trail) (x : Nat) : Prop := x < t.length ∧ ¬t.Linking x

theorem unlinked_after {σ α : Type} {e : Pool.Event σ α} (t : Trail) {i : Nat}
    (he : e.actor ≠ some i) : (t.after e).unlinked i = t.unlinked i := by
  cases e with
  | call j q fate =>
    have hji : i ≠ j := fun h => he (congrArg some h.symm)
    simp only [after, call]
    split
    · exact if_neg hji
    · rfl
  | proceed j => exact if_neg fun h => he (congrArg some h.symm)
  | start | finish | drift => rfl

theorem unlinked_foldl {σ α : Type} {es : List (Pool.Event σ α)} {t : Trail} {i : Nat}
    (hi : t.unlinked i = none) (hes : ∀ e ∈ es, e.actor ≠ some i) :
    (es.foldl after t).unlinked i = none := by
  induction es generalizing t with
  | nil => exact hi
  | cons e es ih =>
    exact ih ((unlinked_after t (hes e (by simp))).trans hi) fun e he => hes e (by simp [he])

/-- Where only some threads have done anything, nobody else is about to link. -/
theorem not_linking_of_actors {σ α : Type} {es : List (Pool.Event σ α)} {n x : Nat} (is : List Nat)
    (hes : es.all (fun e => is.any fun i => e.actor = some i) = true)
    (hi : ∀ i ∈ is, ∀ p ∈ (es.foldl after (.quiet n)).unlinked i, ¬(p.1 ≤ x ∧ x < p.2)) :
    ¬(es.foldl after (.quiet n)).Linking x := by
  rintro ⟨j, s, e, hj, hx⟩
  by_cases hji : j ∈ is
  · exact hi j hji (s, e) hj hx
  · rw [unlinked_foldl rfl fun e he hej => ?_] at hj
    · cases hj
    · obtain ⟨i, his, hei⟩ := List.any_eq_true.1 (List.all_eq_true.1 hes e he)
      have := (of_decide_eq_true hei).symm.trans hej
      exact hji (Option.some.inj this ▸ his)

theorem not_linking {σ α : Type} {es : List (Pool.Event σ α)} {n i x : Nat}
    (hes : es.all (·.actor = some i) = true)
    (hi : ∀ p ∈ (es.foldl after (.quiet n)).unlinked i, ¬(p.1 ≤ x ∧ x < p.2)) :
    ¬(es.foldl after (.quiet n)).Linking x :=
  not_linking_of_actors [i] (by simpa using hes) (by simpa using hi)

end Trail

namespace Site

open Program

variable {S : Site} {c : Container} {log : List Record}

def idle (log : List Record) : Account := ⟨⟨log, fun _ => none⟩, fun _ => none, none⟩

/-- An index that does not track the segment remembers no more of it than cached heads. All else is
what is persisted. -/
theorem inv_untracked {t : Tables} (hs : S.Stores c log)
    (hw : Log.Wellformed S.config.hasher log) (hstart : Log.size log = S.start)
    (hf : S.Faithful ⟨log, fun _ => none⟩ (c.segment S.segment).attributes)
    (hu : S.config.mode = .inline → S.Uncut log (c.segment S.segment).attributes)
    (ht : t.Serves S.segment S.place) (hn : t.tracked[S.segment]? = none)
    (hl : ∀ h, t.locks.held.contains ⟨S.segment, h⟩ = false)
    (hc : ∀ {h y}, h.Proper → t.cache.get? ⟨S.segment, h⟩ = some y →
      S.Newest ⟨log, fun _ => none⟩ (c.segment S.segment).attributes y h) :
    S.Inv ⟨c, t, idle log⟩ := by
  have hlate {x : Nat} (hx : (idle log).Settled x) (hs : S.start ≤ x) : False := by
    have : x < Log.size log := hx.1
    omega
  have hstate : t.state S.place = .initial := by
    rcases ht.tracked with ⟨-, hsize⟩ | ⟨hsome, -⟩
    · simp [Tables.state, hsize]
    · rw [hn] at hsome
      cases hsome
  refine ⟨hs, ht, ?_⟩
  have hscene : S.scene ⟨c, t, idle log⟩ =
      ⟨idle log, (c.segment S.segment).attributes, false, .initial,
        fun h => t.cache.get? ⟨S.segment, h⟩, fun h => t.locks.held.contains ⟨S.segment, h⟩⟩ := by
    simp only [scene, hstate, hn, Option.isSome_none]
  rw [hscene]
  exact
    { wellformed := hw
      start := hstart ▸ Log.boundary_size log
      fresh_start := fun h => by cases h
      fresh_le := fun h => by cases h
      fresh_owned := fun h => by cases h
      fresh_last := fun h => by cases h
      held := hl
      recovering := rfl
      unrecovered := fun _ => ⟨hstart, hu⟩
      recovered := fun h => by cases h
      calm := fun _ i _ => ⟨rfl, fun h ho => (by cases ho), fun hr => (by cases hr)⟩
      faithful := hf
      tail :=
        { backpointer := fun h => by simp [SegmentState.initial] at h
          chained := fun hx hs => (hlate hx hs).elim
          head := fun h => by simp [SegmentState.initial] at h
          rooted := fun hx hs => (hlate hx hs).elim }
      cache := hc
      marked :=
        { opened := rfl
          boundary := Log.boundary_zero log
          below := fun _ hx => absurd hx (Nat.not_lt_zero _)
          ranges := fun h => by cases h }
      pending := fun h => by cases h }

/-- An extension remembers nothing when it is opened. What is persisted is all there is. -/
theorem inv_opened (hs : S.Stores c log) (hw : Log.Wellformed S.config.hasher log)
    (hstart : Log.size log = S.start) (hp : S.place = 0)
    (hf : S.Faithful ⟨log, fun _ => none⟩ (c.segment S.segment).attributes)
    (hu : S.config.mode = .inline → S.Uncut log (c.segment S.segment).attributes) :
    S.Inv ⟨c, .initial S.config, idle log⟩ := by
  have hn : (Tables.initial S.config).tracked[S.segment]? = none := by simp [Tables.initial]
  refine inv_untracked hs hw hstart hf hu ⟨rfl, rfl, .inl ⟨hn, hp.symm⟩⟩ hn (fun h => ?_)
    fun _ hy => ?_
  · simp [Tables.initial, Locks.empty]
  · simp [Tables.initial, Cache.get?, Cache.empty] at hy

theorem inv_evict {t t' : Tables} {g : Account} (hw : S.Inv ⟨c, t, g⟩) (hd : t.Evicts t') :
    S.Inv ⟨c, t', g⟩ ∧ ∀ i, S.Sees i (S.scene ⟨c, t, g⟩) (S.scene ⟨c, t', g⟩) := by
  obtain ⟨b, rfl⟩ := hd
  have hm (i : Nat) := moves_cache (i := i) hw.coherent
    fun {h y} hh (hy : (t.cache.erase b).get? ⟨S.segment, h⟩ = some y) =>
      hw.coherent.cache hh (Cache.of_get?_erase hy).1
  have hs := hw.serves
  exact ⟨⟨hw.stores, ⟨hs.opened, hs.indexOpened, hs.tracked⟩, (hm 0).coherent⟩,
    fun i => (hm (i + 1)).sees i (by omega)⟩

theorem surroundings_within (hc : ¬S.calm) : Pool.surroundings.Within S.rules where
  fates {q fate} h := by
    cases fate with
    | served => trivial
    | refused e => exact hc
    | lost e => exact ⟨hc, fun segment data => h e segment data rfl⟩
  lapses := hc
  drifts hw hd := inv_evict hw hd

theorem sound_opened {α : Type} {posts : Nat → α → World Tables Account → Prop}
    (hinv : S.Inv ⟨c, .initial S.config, idle log⟩) :
    (⟨c, .initial S.config, fun _ => none⟩ : Pool Tables α).Sound S.rules posts (idle log) where
  inv := hinv
  parked h := by cases h
  rest _ := ⟨rfl, fun _ h => (by cases h), fun h => (by cases h)⟩

theorem parked_of_fits (hc : ¬S.calm) {i : Nat} {p : Program Tables Reply}
    {w : World Tables Account} (hp : (Pool.Event.start i p).Fits S.config S.name S.segment)
    (hrest : w.ghost.Rests i) : S.rules.Parked i (fun _ _ => True) p w := by
  obtain ⟨op, hop, rfl⟩ := hp
  intro v hv hwv
  have hop := abides_operation hv ((Sees.toMinds hwv).rests hrest) (fun h => absurd h hc) hop
  exact hop.obeys.mono (fun _ u hu => ⟨hu.1, fun _ _ _ => trivial⟩) fun _ u hu => hu

section Run

variable {α : Type} {posts : Nat → α → World Tables Account → Prop}
  {ok : Pool.Event Tables α → Prop} {y z : Pool Tables α}
  {es : List (Pool.Event Tables α)} {g : Account}

/-- No event undoes anything, and the account follows the trail. -/
theorem trail_of_accounts {e : Pool.Event Tables α} {w v : World Tables Account} (hw : S.Inv w)
    (hv : S.Inv v) (ha : S.rules.Accounts posts e w v) :
    v.ghost.trail = w.ghost.trail.after e ∧ Grows (S.scene w) (S.scene v) := by
  cases e with
  | start i p =>
    obtain rfl : v = w := ha
    exact ⟨rfl, .refl _⟩
  | proceed i =>
    obtain ⟨hcont, hr, ht⟩ := ha
    have hsize : Log.size v.ghost.log = Log.size w.ghost.log := by
      rw [← hv.length, ← hw.length, hcont]
    refine ⟨?_, (Sees.toMinds (hr (i + 1) (by omega))).toGrows⟩
    have hfresh : v.ghost.fresh = fun j => if j = i then none else w.ghost.fresh j := by
      funext j
      by_cases hj : j = i
      · rw [if_pos hj, hj]
        exact ht
      · rw [if_neg hj]
        exact (Sees.toMinds (hr j hj)).fresh
    simp only [Ledger.trail, Trail.after, Trail.proceed, hsize, hfresh]
  | call i q fate => exact ⟨ha.2 q fate rfl, (Sees.toMinds (ha.1 (i + 1) (by omega))).toGrows⟩
  | finish i r =>
    have hvw : v = w := by
      cases r with
      | ok a => exact ha.1
      | error e => exact ha.1
    rw [hvw]
    exact ⟨rfl, .refl _⟩
  | drift => exact ⟨by rw [ha.1]; rfl, (Sees.toMinds (ha.2 0)).toGrows⟩

/-- In every run all stays in order, nothing is undone, and the account follows the trail. -/
theorem sound_of_steps (hc : ¬S.calm)
    (hs : ∀ {i p w}, ok (.start i p) → S.Inv w → w.ghost.Rests i → S.rules.Parked i (posts i) p w)
    (h : Pool.Steps Pool.surroundings y es z) (hok : ∀ e ∈ es, ok e)
    (hy : y.Sound S.rules posts g) :
    ∃ g', z.Sound S.rules posts g' ∧ g'.trail = es.foldl Trail.after g.trail ∧
      Grows (S.scene (y.world g)) (S.scene (z.world g')) := by
  refine h.sound (rules_lawful S) (surroundings_within hc)
    (H := fun es w => w.ghost.trail = es.foldl Trail.after g.trail ∧
      Grows (S.scene (y.world g)) (S.scene w))
    (fun hw hv hp ha _ => ?_) hs hok hy
    (show _ = List.foldl Trail.after g.trail [] ∧ _ from ⟨rfl, .refl _⟩)
  obtain ⟨htrail, hgrow⟩ := trail_of_accounts hw hv ha
  refine ⟨?_, hp.2.trans hgrow⟩
  rw [List.foldl_append, List.foldl_cons, List.foldl_nil, ← hp.1]
  exact htrail

/-- What a program that is over has found out, whatever went on beside it. -/
theorem sound_of_program {Q : α → World Tables Account → Prop} {i : Nat}
    {p : Program Tables α} {fs : List (Pool.Event Tables α)} {r : α} (hc : ¬S.calm)
    (hpark : ∀ {i p w}, ok (.start i p) → S.Inv w → w.ghost.Rests i →
      S.rules.Parked i (fun _ _ => True) p w)
    (hQ : ∀ {r v u}, S.Sees i (S.scene v) (S.scene u) → Q r v → Q r u)
    (hp : ∀ v, S.Inv v → v.ghost.Rests i → S.Sees i (S.scene (y.world g)) (S.scene v) →
      p.Obeys S.rules i (fun r u => u.ghost.Rests i ∧ Q r u) (fun _ u => u.ghost.Rests i) v)
    (hy : y.Sound S.rules (fun _ _ _ => True) g)
    (h : Pool.Steps Pool.surroundings y (.start i p :: fs ++ [.finish i (.ok r)]) z)
    (hf : ∀ e ∈ fs, ok e) (hno : ∀ r, .finish i r ∉ fs) :
    ∃ g', z.Sound S.rules (fun _ _ _ => True) g' ∧ Q r (z.world g') ∧
      g'.trail = fs.foldl Trail.after g.trail ∧
      Grows (S.scene (y.world g)) (S.scene (z.world g')) := by
  obtain ⟨m, hm, hfinish⟩ := Pool.Steps.split h
  cases hm with
  | @head _ y' _ _ _ hstart hfs =>
    have hidle : y.threads i = none := by
      cases hstart
      assumption
    have hwork : (y'.threads i).isSome := by
      cases hstart
      simp [Pool.assign]
    -- Only of this one operation there is anything to be shown.
    have hy' : y.Sound S.rules (fun j r w => j = i → Q r w) g := hy.repost fun hj _ _ _ hji => by
      rw [hji, hidle] at hj
      cases hj
    obtain ⟨g₁, hs₁, hg₁⟩ := hstart.sound (rules_lawful S) (surroundings_within hc) hy'
      fun j q hq hrest v hv hr => by
        obtain ⟨rfl, rfl⟩ := Pool.Event.start.inj hq
        refine (hp v hv ((rules_lawful S).rest hr hrest) hr).mono (fun r u hu => ?_)
          fun _ u hu => hu
        exact ⟨hu.1, fun t _ hut _ => hQ hut hu.2⟩
    have hg₁ : y'.world g₁ = y.world g := hg₁
    have hothers : ∀ e ∈ fs, ok e ∧ ∀ p, e ≠ .start i p :=
      fun e he => ⟨hf e he, fun p hp => Pool.Steps.busy hfs hwork hno p (hp ▸ he)⟩
    obtain ⟨g₂, hs₂, ht₂, hgrow⟩ := sound_of_steps hc
      (fun {j q w} hq hw hrest => by
        refine (hpark hq.1 hw hrest).mono fun r v _ hji => ?_
        exact absurd (by rw [hji]) (hq.2 q))
      hfs hothers hs₁
    cases hfinish with
    | @head _ z' _ _ _ hlast hend =>
      cases hend
      obtain ⟨g₃, hs₃, hg₃, -, hpost⟩ := hlast.sound (rules_lawful S) (surroundings_within hc) hs₂
        fun j q hq => by cases hq
      have hgg : g₁ = g := congrArg World.ghost hg₁
      have hgg' : g₃ = g₂ := congrArg World.ghost hg₃
      refine ⟨g₃, hs₃.repost fun _ _ _ _ => trivial, ?_, ?_, ?_⟩
      · rw [hg₃]
        exact hpost rfl
      · rw [hgg', ht₂, hgg]
      · rw [hg₃, ← hg₁]
        exact hgrow

end Run

section Operations

variable {y z : Pool Tables Reply} {es fs : List (Pool.Event Tables Reply)} {g : Account}

theorem sound_of_fits (hc : ¬S.calm) (h : Pool.Steps Pool.surroundings y es z)
    (hf : ∀ e ∈ es, e.Fits S.config S.name S.segment)
    (hy : y.Sound S.rules (fun _ _ _ => True) g) :
    ∃ g', z.Sound S.rules (fun _ _ _ => True) g' ∧ g'.trail = es.foldl Trail.after g.trail ∧
      Grows (S.scene (y.world g)) (S.scene (z.world g')) :=
  sound_of_steps hc (fun hp _ hr => parked_of_fits hc hp hr) h hf hy

theorem sound_of_operation {Q : Reply → World Tables Account → Prop} {i : Nat}
    {p : Program Tables Reply} {r : Reply} (hc : ¬S.calm)
    (hQ : ∀ {r v u}, S.Sees i (S.scene v) (S.scene u) → Q r v → Q r u)
    (hp : ∀ v, S.Inv v → v.ghost.Rests i → S.Sees i (S.scene (y.world g)) (S.scene v) →
      p.Obeys S.rules i (fun r u => u.ghost.Rests i ∧ Q r u) (fun _ u => u.ghost.Rests i) v)
    (hy : y.Sound S.rules (fun _ _ _ => True) g)
    (h : Pool.Steps Pool.surroundings y (.start i p :: fs ++ [.finish i (.ok r)]) z)
    (hf : ∀ e ∈ fs, e.Fits S.config S.name S.segment) (hno : ∀ r, .finish i r ∉ fs) :
    ∃ g', z.Sound S.rules (fun _ _ _ => True) g' ∧ Q r (z.world g') ∧
      g'.trail = fs.foldl Trail.after g.trail ∧
      Grows (S.scene (y.world g)) (S.scene (z.world g')) :=
  sound_of_program hc (fun hp _ hr => parked_of_fits hc hp hr) hQ hp hy h hf hno

end Operations

end Site
end KeyedLog
