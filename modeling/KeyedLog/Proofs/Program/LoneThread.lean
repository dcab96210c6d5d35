import KeyedLog.Proofs.Alone.Index
import KeyedLog.Proofs.Program.Interference

/-! Programs that run alone as threads of a pool. -/
namespace KeyedLog

namespace Program

variable {σ α β : Type}

/-- No wait that cannot be given up is in vain when the program runs alone. -/
def Unblocked : Program σ α → Container → σ → Prop
  | .ret _, _, _ | .fail _, _, _ => True
  | .get k, c, s => (k s).Unblocked c s
  | .set s k, c, _ => k.Unblocked c s
  | .await bounded ready k, c, s =>
    (bounded = true ∨ ready s = true) ∧ (k (ready s)).Unblocked c s
  | .clock k, c, s => (k true).Unblocked c s
  | .call q k, c, s => (k (c.perform q).2).Unblocked (c.perform q).1 s
  | .pause _ k, c, s => k.Unblocked c s

def Bounded : Program σ α → Prop
  | .ret _ | .fail _ => True
  | .get k => ∀ s, (k s).Bounded
  | .set _ k | .pause _ k => k.Bounded
  | .await bounded _ k => bounded = true ∧ ∀ met, (k met).Bounded
  | .clock k => ∀ left, (k left).Bounded
  | .call _ k => ∀ r, (k r).Bounded

variable {p : Program σ α} {c : Container} {s : σ}

theorem Bounded.unblocked (h : p.Bounded) : p.Unblocked c s := by
  induction p generalizing c s with
  | ret | fail => trivial
  | get k ih => exact ih s (h s)
  | set t k ih => exact ih h
  | await b ready k ih => exact ⟨.inl h.1, ih _ (h.2 _)⟩
  | clock k ih => exact ih true (h true)
  | call q k ih => exact ih _ (h _)
  | pause n k ih => exact ih h

theorem Unblocked.bind {f : α → Program σ β} (h : p.Unblocked c s)
    (hf : ∀ a c' s', p.run true c s = (.ok a, c', s') → (f a).Unblocked c' s') :
    (p >>= f).Unblocked c s := by
  change (p.bind f).Unblocked c s
  induction p generalizing c s with
  | ret a => exact hf a c s rfl
  | fail e => trivial
  | get k ih => exact ih s h hf
  | set t k ih => exact ih h hf
  | await b ready k ih => exact ⟨h.1, ih _ h.2 hf⟩
  | clock k ih => exact ih true h hf
  | call q k ih => exact ih _ h hf
  | pause n k ih => exact ih h hf

theorem unblocked_read_bind {f : σ → Program σ β} :
    (read >>= f).Unblocked c s ↔ (f s).Unblocked c s := Iff.rfl

theorem unblocked_modify_bind {f : σ → σ} {k : Unit → Program σ β} :
    (modify f >>= k).Unblocked c s ↔ (k ()).Unblocked c (f s) := Iff.rfl

theorem Bounded.bind {f : α → Program σ β} (h : p.Bounded) (hf : ∀ a, (f a).Bounded) :
    (p >>= f).Bounded := by
  change (p.bind f).Bounded
  induction p with
  | ret a => exact hf a
  | fail e => trivial
  | get k ih => exact fun s => ih s (h s)
  | set t k ih => exact ih h
  | await b ready k ih => exact ⟨h.1, fun met => ih met (h.2 met)⟩
  | clock k ih => exact fun left => ih left (h left)
  | call q k ih => exact fun r => ih r (h r)
  | pause n k ih => exact ih h

theorem Bounded.attempt (h : p.Bounded) : p.attempt.Bounded := by
  induction p with
  | ret | fail => trivial
  | get k ih => exact fun s => ih s (h s)
  | set t k ih => exact ih h
  | await b ready k ih => exact ⟨h.1, fun met => ih met (h.2 met)⟩
  | clock k ih => exact fun left => ih left (h left)
  | call q k ih => exact fun r => ih r (h r)
  | pause n k ih => exact ih h

theorem bounded_ofExcept (r : Except TableError α) : (ofExcept r : Program σ α).Bounded := by
  cases r <;> trivial

theorem bounded_ask (q : Call) : (ask q : Program σ q.Answer).Bounded := fun r => bounded_ofExcept r

theorem bounded_request (q : Call) : (request q : Program σ q.Answer).Bounded := by
  refine Bounded.bind (fun left => ?_) fun _ => bounded_ask q
  cases left <;> trivial

theorem bounded_waitUntil (ready : σ → Bool) : (waitUntil ready).Bounded := by
  refine ⟨rfl, fun met => ?_⟩
  cases met <;> trivial

theorem Bounded.ensuring {last : Program σ Unit} (h : p.Bounded) (hl : last.Bounded) :
    (p.ensuring last).Bounded :=
  h.attempt.bind fun r => hl.bind fun _ => bounded_ofExcept r

end Program

namespace Pool

variable {σ α : Type} {around : Surroundings σ} {y z : Pool σ α} {i : Nat} {p : Program σ α}

structure Beside (i : Nat) (y z : Pool σ α) : Prop where
  threads : ∀ j, j ≠ i → z.threads j = y.threads j

theorem Beside.refl (y : Pool σ α) : Beside i y y := ⟨fun _ _ => rfl⟩

theorem Beside.trans {w : Pool σ α} (h : Beside i y z) (h' : Beside i z w) : Beside i y w :=
  ⟨fun j hj => (h'.threads j hj).trans (h.threads j hj)⟩

theorem beside_assign (c : Container) (s : σ) (q : Option (Program σ α)) :
    Beside i y (Pool.assign { y with container := c, state := s } i q) :=
  ⟨fun _ hj => if_neg hj⟩

theorem assign_of_beside (h : Beside i y z) (q : Option (Program σ α)) :
    z.assign i q = ⟨z.container, z.state, (y.assign i q).threads⟩ := by
  have hthreads : (z.assign i q).threads = (y.assign i q).threads := by
    funext j
    by_cases hj : j = i
    · simp [assign, hj]
    · simp [assign, hj, h.threads j hj]
  exact congrArg (Pool.mk z.container z.state) hthreads

/-- A thread comes to its next point of interruption. -/
theorem exists_steps_advance (around : Surroundings σ) (hi : y.threads i = some p) :
    ∃ es z, Steps around y es z ∧ (∀ e ∈ es, ∀ j q, e ≠ .start j q) ∧ Beside i y z ∧
      z.container = y.container ∧ z.state = (p.advance y.state).2 ∧
      z.threads i = some (p.advance y.state).1 := by
  have hself (hp : p.advance y.state = (p, y.state)) :
      ∃ es z, Steps around y es z ∧ (∀ e ∈ es, ∀ j q, e ≠ .start j q) ∧ Beside i y z ∧
        z.container = y.container ∧ z.state = (p.advance y.state).2 ∧
        z.threads i = some (p.advance y.state).1 :=
    ⟨[], y, .refl y, by simp, .refl y, rfl, by rw [hp], by rw [hp, hi]⟩
  cases p with
  | get k =>
    exact ⟨[.proceed i], _, .head (.get hi) (.refl _), by simp, beside_assign .., rfl, rfl,
      if_pos rfl⟩
  | set s k =>
    exact ⟨[.proceed i], _, .head (.set hi) (.refl _), by simp, beside_assign .., rfl, rfl,
      if_pos rfl⟩
  | ret | fail | await | clock | call | pause => exact hself rfl

/-- From where it stands a thread comes to its end as if it ran alone. -/
def Concludes (around : Surroundings σ) (i : Nat) (p : Program σ α) (c : Container) (s : σ)
    (y : Pool σ α) : Prop :=
  ∃ fs, Steps around y (fs ++ [.finish i (p.run true c s).1])
      ⟨(p.run true c s).2.1, (p.run true c s).2.2, (y.assign i none).threads⟩ ∧
    ∀ e ∈ fs, ∀ j q, e ≠ .start j q

theorem Concludes.of_steps {q : Program σ α} {c c' : Container} {s s' : σ}
    {es : List (Event σ α)} (hrun : p.run true c s = q.run true c' s') (hes : Steps around y es z)
    (hstart : ∀ e ∈ es, ∀ j q, e ≠ .start j q) (hy : Beside i y z)
    (h : Concludes around i q c' s' z) : Concludes around i p c s y := by
  obtain ⟨fs, hfs, hno⟩ := h
  refine ⟨es ++ fs, ?_, List.forall_mem_append.2 ⟨hstart, hno⟩⟩
  have hthreads := congrArg Pool.threads (assign_of_beside hy none)
  rw [List.append_assoc, hrun]
  exact hes.append (hthreads ▸ hfs)

variable (hserved : ∀ q, around.fates q .served)
include hserved

theorem concludes_of_advanced {c : Container} {s : σ} (h : p.Unblocked c s) (hc : y.container = c)
    (hs : y.state = (p.advance s).2) (hi : y.threads i = some (p.advance s).1) :
    Concludes around i p c s y := by
  have hgoOn {q k : Program σ α} {c : Container} {s : σ} {y : Pool σ α}
      (hc : y.container = c) (hs : y.state = s) (hstep : Step around y (.proceed i) (y.goOn i k))
      (hrun : q.run true c s = k.run true c s)
      (ih : ∀ {z : Pool σ α}, z.container = c → z.state = (k.advance s).2 →
        z.threads i = some (k.advance s).1 → Concludes around i k c s z) :
      Concludes around i q c s y := by
    refine .of_steps hrun (.head hstep (.refl _)) (by simp) (beside_assign ..) (ih hc ?_ ?_)
    · rw [← hs]
      rfl
    · rw [← hs]
      exact if_pos rfl
  induction p generalizing c s y with
  | ret a =>
    subst hc hs
    exact ⟨[], .head (.returned hi) (.refl _), by simp⟩
  | fail e =>
    subst hc hs
    exact ⟨[], .head (.failed hi) (.refl _), by simp⟩
  | get k ih => exact (ih s h hc hs hi).of_steps rfl (.refl y) (by simp) (.refl y)
  | set t k ih => exact (ih h hc hs hi).of_steps rfl (.refl y) (by simp) (.refl y)
  | await b ready k ih =>
    have hs : y.state = s := hs
    have hready : ready y.state = ready s := congrArg ready hs
    have hstep : Step around y (.proceed i) (y.goOn i (k (ready s))) := by
      cases hr : ready s with
      | true => exact .awaited hi (hready.trans hr)
      | false =>
        obtain rfl := h.1.resolve_right (by simp [hr])
        exact .gaveUp hi (hready.trans hr)
    exact hgoOn hc hs hstep rfl fun hc hs hi => ih _ h.2 hc hs hi
  | clock k ih =>
    exact hgoOn hc hs (.clock true hi) rfl fun hc hs hi => ih true h hc hs hi
  | pause n k ih => exact hgoOn hc hs (.pause hi) rfl fun hc hs hi => ih h hc hs hi
  | call q k ih =>
    have hs : y.state = s := hs
    subst hc hs
    have hstep : Step around y (.call i q .served) _ := .call .served hi (hserved q)
    obtain ⟨es, z, hes, hstart, hbeside, hzc, hzs, hzi⟩ := exists_steps_advance around
      (y := Pool.assign { y with container := (y.container.serve q .served).1 } i
        (some (k (y.container.serve q .served).2))) (i := i) (if_pos rfl)
    exact (ih _ h hzc hzs hzi).of_steps rfl (.head hstep hes)
      (List.forall_mem_cons.2 ⟨by simp, hstart⟩) ((beside_assign ..).trans hbeside)

/-- To run alone is a run of the pool. -/
theorem steps_of_unblocked (hi : y.threads i = none) (h : p.Unblocked y.container y.state) :
    ∃ fs, Steps around y (.start i p :: fs ++ [.finish i (p.run true y.container y.state).1])
        ⟨(p.run true y.container y.state).2.1, (p.run true y.container y.state).2.2, y.threads⟩ ∧
      ∀ e ∈ fs, ∀ j q, e ≠ .start j q := by
  obtain ⟨es, z, hes, hstart, hbeside, hzc, hzs, hzi⟩ := exists_steps_advance around
    (y := y.assign i (some p)) (i := i) (if_pos rfl)
  obtain ⟨fs, hfs, hno⟩ := (concludes_of_advanced hserved h hzc hzs hzi).of_steps rfl hes hstart
    hbeside
  have hthreads : ((y.assign i (some p)).assign i none).threads = y.threads := by
    funext j
    by_cases hj : j = i
    · simp [assign, hj, hi]
    · simp [assign, hj]
  rw [hthreads] at hfs
  exact ⟨fs, .head (.start p hi) hfs, hno⟩

end Pool

/-- A program that keeps to the rules ends well when it runs alone, if no wait stands in its way. -/
theorem Program.Obeys.run {σ γ α : Type} {R : Rules σ γ} {i : Nat} {p : Program σ α}
    {K : α → World σ γ → Prop} {E : TableError → World σ γ → Prop} {w : World σ γ}
    (hrefl : ∀ w, R.rely i w w) (hserved : ∀ q, R.fates q .served) (hw : R.inv w)
    (h : p.Obeys R i K E w) (hun : p.Unblocked w.container w.state) :
    ∃ r c s g, p.run true w.container w.state = (r, c, s) ∧ R.inv ⟨c, s, g⟩ ∧
      ((∃ a, r = .ok a ∧ K a ⟨c, s, g⟩) ∨ ∃ e, r = .error e ∧ E e ⟨c, s, g⟩) := by
  induction p generalizing w with
  | ret a => exact ⟨_, w.container, w.state, w.ghost, rfl, hw, .inl ⟨a, rfl, h⟩⟩
  | fail e => exact ⟨_, w.container, w.state, w.ghost, rfl, hw, .inr ⟨e, rfl, h⟩⟩
  | get k ih => exact ih w.state hw h hun
  | set t k ih =>
    obtain ⟨g, hg, hk⟩ := h
    exact @ih ⟨w.container, t, g⟩ hg.1 hk hun
  | await b ready k ih =>
    have hk := h.2 w hw (hrefl w)
    cases hr : ready w.state with
    | true =>
      unfold Program.run
      rw [hr]
      exact ih true hw (hk.1 hr) (hr ▸ hun.2)
    | false =>
      obtain rfl := hun.1.resolve_right (by simp [hr])
      unfold Program.run
      rw [hr]
      exact ih false hw ((hk.2 hr).2 rfl) (hr ▸ hun.2)
  | clock k ih => exact ih true hw (h.2 w hw (hrefl w)).1 hun
  | pause n k ih => exact ih hw (h.2 w hw (hrefl w)) hun
  | call q k ih =>
    obtain ⟨g, hg, hk⟩ := h.2 w hw (hrefl w) .served (hserved q)
    exact @ih _ ⟨_, _, g⟩ hg.1 (hk _ hg.1 (hrefl _)) hun

/-- Rules for a thread that is left alone. -/
def Rules.alone (σ : Type) : Rules σ Unit where
  fates _ fate := fate = .served
  lapses := False
  inv _ := True
  rely _ w v := v = w
  guar _ _ _ _ := True
  tidy _ _ := True
  rest _ _ := True

/-- A program that ends well when it is left alone waits for nothing in vain. -/
theorem Program.Obeys.unblocked {σ α : Type} {i : Nat} {p : Program σ α}
    {K : α → World σ Unit → Prop} {E : TableError → World σ Unit → Prop} {c : Container} {s : σ}
    (h : p.Obeys (.alone σ) i K E ⟨c, s, ()⟩) :
    p.Unblocked c s ∧ ∃ r c' s', p.run true c s = (r, c', s') ∧
      ((∃ a, r = .ok a ∧ K a ⟨c', s', ()⟩) ∨ ∃ e, r = .error e ∧ E e ⟨c', s', ()⟩) := by
  induction p generalizing c s with
  | ret a => exact ⟨trivial, _, c, s, rfl, .inl ⟨a, rfl, h⟩⟩
  | fail e => exact ⟨trivial, _, c, s, rfl, .inr ⟨e, rfl, h⟩⟩
  | get k ih => exact ih s h
  | set t k ih =>
    obtain ⟨g, -, hk⟩ := h
    exact ih hk
  | await b ready k ih =>
    have hk := h.2 _ trivial rfl
    have hready : ready s = true := by
      cases hr : ready s with
      | true => rfl
      | false => exact (hk.2 hr).1.elim
    obtain ⟨hun, hrun⟩ := ih true (hk.1 hready)
    unfold Unblocked Program.run
    rw [hready]
    exact ⟨⟨.inr rfl, hun⟩, hrun⟩
  | clock k ih => exact ih true (h.2 _ trivial rfl).1
  | pause n k ih => exact ih (h.2 _ trivial rfl)
  | call q k ih =>
    obtain ⟨⟨⟩, -, hk⟩ := h.2 _ trivial rfl .served rfl
    exact ih _ (hk _ trivial rfl)

end KeyedLog
