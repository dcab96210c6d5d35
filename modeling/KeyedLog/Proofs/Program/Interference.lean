import KeyedLog.Schedule

/-! Programs in flight are judged one at a time: each counts on what the others may do, keeps an
invariant, and does no more than the others count on. -/
namespace KeyedLog

/-- What programs act on, with an account of it that none of them reads. -/
structure World (σ γ : Type) where
  container : Container
  state : σ
  ghost : γ

/-- What programs in flight owe each other, each known by its number. -/
structure Rules (σ γ : Type) where
  /-- The fates that a call may meet. -/
  fates : Call → Fate → Prop
  /-- Whether time may run out, and a wait be in vain. -/
  lapses : Prop
  inv : World σ γ → Prop
  /-- What the others may do. -/
  rely : Nat → World σ γ → World σ γ → Prop
  /-- What a program may do, in a call or apart from calls. -/
  guar : Nat → Option (Call × Fate) → World σ γ → World σ γ → Prop
  /-- Holds wherever a program can be interrupted, except right after a call. -/
  tidy : Nat → World σ γ → Prop
  /-- Holds of a program that is over, or was never started. -/
  rest : Nat → World σ γ → Prop

variable {σ γ α β : Type}

namespace Rules

/-- The laws by which programs that obey the rules can run side by side. -/
structure Lawful (R : Rules σ γ) : Prop where
  refl : ∀ i w, R.rely i w w
  trans : ∀ {i u v w}, R.rely i u v → R.rely i v w → R.rely i u w
  rely_of_guar : ∀ {i j act v w}, j ≠ i → R.guar i act v w → R.rely j v w
  tidy : ∀ {i v w}, R.rely i v w → R.tidy i v → R.tidy i w
  rest : ∀ {i v w}, R.rely i v w → R.rest i v → R.rest i w
  tidy_of_rest : ∀ {i w}, R.rest i w → R.tidy i w

/-- A point of interruption, after which the others may have done anything that they may do. -/
def Yields (R : Rules σ γ) (i : Nat) (w : World σ γ) (next : World σ γ → Prop) : Prop :=
  R.tidy i w ∧ ∀ v, R.inv v → R.rely i w v → next v

/-- A step that keeps the invariant, for some account of it. -/
def Admits (R : Rules σ γ) (i : Nat) (act : Option (Call × Fate)) (w v : World σ γ) : Prop :=
  R.inv v ∧ R.guar i act w v

end Rules

namespace Program

/-- The program keeps to the rules from here on, and ends well. -/
def Obeys (R : Rules σ γ) (i : Nat) (K : α → World σ γ → Prop)
    (E : TableError → World σ γ → Prop) : Program σ α → World σ γ → Prop
  | .ret a, w => K a w
  | .fail e, w => E e w
  | .get k, w => (k w.state).Obeys R i K E w
  | .set s k, w => ∃ g, R.Admits i none w ⟨w.container, s, g⟩ ∧ k.Obeys R i K E ⟨w.container, s, g⟩
  | .await bounded ready k, w => R.Yields i w fun v =>
      (ready v.state = true → (k true).Obeys R i K E v) ∧
      (ready v.state = false → R.lapses ∧ (bounded = true → (k false).Obeys R i K E v))
  | .clock k, w => R.Yields i w fun v =>
      (k true).Obeys R i K E v ∧ (R.lapses → (k false).Obeys R i K E v)
  | .call q k, w => R.Yields i w fun v => ∀ fate, R.fates q fate →
      ∃ g, R.Admits i (some (q, fate)) v ⟨(v.container.serve q fate).1, v.state, g⟩ ∧
        ∀ u, R.inv u → R.rely i ⟨(v.container.serve q fate).1, v.state, g⟩ u →
          (k (v.container.serve q fate).2).Obeys R i K E u
  | .pause _ k, w => R.Yields i w fun v => k.Obeys R i K E v

variable {R : Rules σ γ} {i : Nat} {E : TableError → World σ γ → Prop}

theorem obeys_bind (p : Program σ α) (f : α → Program σ β) (K : β → World σ γ → Prop)
    (w : World σ γ) :
    (p >>= f).Obeys R i K E w ↔ p.Obeys R i (fun a v => (f a).Obeys R i K E v) E w := by
  change (p.bind f).Obeys R i K E w ↔ _
  induction p generalizing w with
  | ret | fail => rfl
  | get k ih => exact ih w.state w
  | set s k ih => simp only [Program.bind, Obeys, ih]
  | await b r k ih => simp only [Program.bind, Obeys, ih]
  | clock k ih => simp only [Program.bind, Obeys, ih]
  | call q k ih => simp only [Program.bind, Obeys, ih]
  | pause n k ih => simp only [Program.bind, Obeys, ih]

theorem Obeys.mono {K K' : α → World σ γ → Prop} {E' : TableError → World σ γ → Prop}
    {p : Program σ α} {w : World σ γ} (h : p.Obeys R i K E w) (hK : ∀ a v, K a v → K' a v)
    (hE : ∀ e v, E e v → E' e v) : p.Obeys R i K' E' w := by
  induction p generalizing w with
  | ret a => exact hK a w h
  | fail e => exact hE e w h
  | get k ih => exact ih w.state h
  | set s k ih =>
    obtain ⟨g, hg, hk⟩ := h
    exact ⟨g, hg, ih hk⟩
  | await b r k ih =>
    refine ⟨h.1, fun v hv hr => ⟨fun hm => ih true ((h.2 v hv hr).1 hm), fun hm => ?_⟩⟩
    obtain ⟨hl, hk⟩ := (h.2 v hv hr).2 hm
    exact ⟨hl, fun hb => ih false (hk hb)⟩
  | clock k ih =>
    refine ⟨h.1, fun v hv hr => ⟨ih true (h.2 v hv hr).1, fun hl => ih false ((h.2 v hv hr).2 hl)⟩⟩
  | call q k ih =>
    refine ⟨h.1, fun v hv hr fate hf => ?_⟩
    obtain ⟨g, hg, hk⟩ := h.2 v hv hr fate hf
    exact ⟨g, hg, fun u hu hru => ih _ (hk u hu hru)⟩
  | pause n k ih => exact ⟨h.1, fun v hv hr => ih (h.2 v hv hr)⟩

theorem obeys_attempt (p : Program σ α) (K : Except TableError α → World σ γ → Prop)
    (w : World σ γ) :
    p.attempt.Obeys R i K E w ↔
      p.Obeys R i (fun a => K (.ok a)) (fun e => K (.error e)) w := by
  induction p generalizing w with
  | ret | fail => rfl
  | get k ih => exact ih w.state w
  | set s k ih => simp only [attempt, Obeys, ih]
  | await b r k ih => simp only [attempt, Obeys, ih]
  | clock k ih => simp only [attempt, Obeys, ih]
  | call q k ih => simp only [attempt, Obeys, ih]
  | pause n k ih => simp only [attempt, Obeys, ih]

variable {K : α → World σ γ → Prop} {w : World σ γ}

@[simp] theorem obeys_pure (a : α) : (pure a : Program σ α).Obeys R i K E w ↔ K a w := Iff.rfl

@[simp] theorem obeys_fail (e : TableError) :
    (Program.fail e : Program σ α).Obeys R i K E w ↔ E e w := Iff.rfl

@[simp] theorem obeys_map (p : Program σ α) (f : α → β) (K : β → World σ γ → Prop) :
    (f <$> p).Obeys R i K E w ↔ p.Obeys R i (fun a => K (f a)) E w :=
  obeys_bind p (fun a => .ret (f a)) K w

@[simp] theorem obeys_read (K : σ → World σ γ → Prop) :
    (read : Program σ σ).Obeys R i K E w ↔ K w.state w := Iff.rfl

@[simp] theorem obeys_modify (f : σ → σ) (K : Unit → World σ γ → Prop) :
    (modify f).Obeys R i K E w ↔
      ∃ g, R.Admits i none w ⟨w.container, f w.state, g⟩ ∧ K () ⟨w.container, f w.state, g⟩ :=
  Iff.rfl

@[simp] theorem obeys_ofExcept_ok (a : α) :
    (ofExcept (.ok a) : Program σ α).Obeys R i K E w ↔ K a w := Iff.rfl

@[simp] theorem obeys_ofExcept_error (e : TableError) :
    (ofExcept (.error e) : Program σ α).Obeys R i K E w ↔ E e w := Iff.rfl

theorem obeys_checkTime (K : Unit → World σ γ → Prop) :
    checkTime.Obeys R i K E w ↔
      R.Yields i w fun v => K () v ∧ (R.lapses → E .timeout v) := Iff.rfl

theorem obeys_waitUntil (ready : σ → Bool) (K : Unit → World σ γ → Prop) :
    (waitUntil ready).Obeys R i K E w ↔ R.Yields i w fun v =>
      (ready v.state = true → K () v) ∧
      (ready v.state = false → R.lapses ∧ (true = true → E .timeout v)) := Iff.rfl

theorem obeys_ask (q : Call) (K : q.Answer → World σ γ → Prop) :
    (ask q).Obeys R i K E w ↔ R.Yields i w fun v => ∀ fate, R.fates q fate →
      ∃ g, R.Admits i (some (q, fate)) v ⟨(v.container.serve q fate).1, v.state, g⟩ ∧
        ∀ u, R.inv u → R.rely i ⟨(v.container.serve q fate).1, v.state, g⟩ u →
          (ofExcept (v.container.serve q fate).2 : Program σ q.Answer).Obeys R i K E u := Iff.rfl

theorem obeys_ensuring (p : Program σ α) (last : Program σ Unit) :
    (p.ensuring last).Obeys R i K E w ↔
      p.Obeys R i (fun a v => last.Obeys R i (fun _ => K a) E v)
        (fun e v => last.Obeys R i (fun _ => E e) E v) w := by
  unfold ensuring
  rw [obeys_bind, obeys_attempt]
  simp only [obeys_bind, obeys_ofExcept_ok, obeys_ofExcept_error]

/-- Neither reads nor writes the state next. -/
def Point : Program σ α → Prop
  | .get _ | .set .. => False
  | _ => True

theorem point_advance (p : Program σ α) (s : σ) : (p.advance s).1.Point := by
  induction p generalizing s with
  | get k ih => exact ih s s
  | set t k ih => exact ih t
  | ret | fail | await | clock | call | pause => trivial

end Program

namespace Rules

variable {R : Rules σ γ} {i : Nat}

/-- The program leaves nothing behind, and its answer is right whenever it is taken up. -/
def Ends (R : Rules σ γ) (i : Nat) (post : α → World σ γ → Prop) (a : α) (w : World σ γ) : Prop :=
  R.rest i w ∧ ∀ v, R.inv v → R.rely i w v → post a v

/-- The program keeps to the rules to its end, whatever the others do before it goes on. -/
def Parked (R : Rules σ γ) (i : Nat) (post : α → World σ γ → Prop) (p : Program σ α)
    (w : World σ γ) : Prop :=
  ∀ v, R.inv v → R.rely i w v → p.Obeys R i (R.Ends i post) (fun _ => R.rest i) v

theorem Parked.mono {post post' : α → World σ γ → Prop} {p : Program σ α} {w : World σ γ}
    (h : R.Parked i post p w) (hp : ∀ a v, post a v → post' a v) : R.Parked i post' p w :=
  fun v hv hr => (h v hv hr).mono (fun a _ he => ⟨he.1, fun u hu hru => hp a u (he.2 u hu hru)⟩)
    fun _ _ he => he

def Accounts (R : Rules σ γ) (posts : Nat → α → World σ γ → Prop) :
    Pool.Event σ α → World σ γ → World σ γ → Prop
  | .proceed i, w, v => v.container = w.container ∧ (∀ j, j ≠ i → R.rely j w v) ∧ R.tidy i v
  | .call i q fate, w, v => R.guar i (some (q, fate)) w v
  | .finish i (.ok a), w, v => v = w ∧ R.rest i w ∧ posts i a w
  | .finish i (.error _), w, v => v = w ∧ R.rest i w
  | .start .., w, v => v = w
  | .drift, w, v => v.ghost = w.ghost ∧ ∀ i, R.rely i w v

end Rules

namespace Pool

def world (y : Pool σ α) (g : γ) : World σ γ := ⟨y.container, y.state, g⟩

/-- Everybody in flight keeps to the rules. -/
structure Sound (R : Rules σ γ) (posts : Nat → α → World σ γ → Prop) (y : Pool σ α) (g : γ) :
    Prop where
  inv : R.inv (y.world g)
  parked : ∀ {i p}, y.threads i = some p → R.Parked i (posts i) p (y.world g)
  rest : ∀ {i}, y.threads i = none → R.rest i (y.world g)

structure Surroundings.Within (around : Surroundings σ) (R : Rules σ γ) : Prop where
  fates : ∀ {q fate}, around.fates q fate → R.fates q fate
  lapses : R.lapses
  drifts : ∀ {c s s' g}, R.inv ⟨c, s, g⟩ → around.drifts s s' →
    R.inv ⟨c, s', g⟩ ∧ ∀ i, R.rely i ⟨c, s, g⟩ ⟨c, s', g⟩

end Pool
end KeyedLog
