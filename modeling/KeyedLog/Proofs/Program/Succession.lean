import KeyedLog.Proofs.Program.Interference
import KeyedLog.Proofs.Program.Remainders

/-! Programs in flight whose rules may be replaced by others. That happens only while all of them
are free, and what they have found out by then stays true under the new rules. Rules that are never
replaced are the special case in which nobody ever is free. -/
namespace KeyedLog

/-- Rules that may be replaced by others. -/
structure Succession (ι σ γ : Type) where
  rules : ι → Rules σ γ
  /-- Whether the rules may be replaced while this is left of a program. -/
  free : ι → ∀ {α : Type}, Program σ α → Prop
  /-- What comes after a program makes it no more free than it is. -/
  free_of_bind : ∀ {s : ι} {α β : Type} {p : Program σ α} {f : α → Program σ β},
    free s (p.bind f) → free s p
  /-- What a program that holds nothing sees of the others, who may also replace the rules. -/
  passes : Nat → ι → World σ γ → ι → World σ γ → Prop

variable {ι σ γ α β : Type}

namespace Succession

/-- Rules that are never replaced. -/
def const (R : Rules σ γ) : Succession Unit σ γ where
  rules _ := R
  free _ _ _ := False
  free_of_bind := id
  passes i _ w _ v := R.rely i w v

structure Lawful (N : Succession ι σ γ) : Prop where
  rules : ∀ s, (N.rules s).Lawful
  free_of_passes : ∀ {i s w t v} {α : Type} {p : Program σ α},
    N.passes i s w t v → N.free t p → N.free s p
  passes_of_rely : ∀ {i s w v}, (N.rules s).rely i w v → N.passes i s w s v
  trans : ∀ {i s w t v r u}, N.passes i s w t v → N.passes i t v r u → N.passes i s w r u
  rest : ∀ {i s w t v}, N.passes i s w t v → (N.rules s).rest i w → (N.rules t).rest i v

/-- What the others may have made of things. They replace the rules only if the program is free. -/
def Later (N : Succession ι σ γ) (i : Nat) (p : Program σ α) (s : ι) (w : World σ γ) (t : ι)
    (v : World σ γ) : Prop :=
  (N.rules t).inv v ∧ ((t = s ∧ (N.rules s).rely i w v) ∨ (N.free s p ∧ N.passes i s w t v))

/-- The others may do anything that they may do, also before the program can be interrupted. -/
def Awaits (N : Succession ι σ γ) (i : Nat) (p : Program σ α) (s : ι) (w : World σ γ)
    (next : ι → World σ γ → Prop) : Prop :=
  (N.free s p → (N.rules s).rest i w) ∧ ∀ t v, N.Later i p s w t v → next t v

def Yields (N : Succession ι σ γ) (i : Nat) (p : Program σ α) (s : ι) (w : World σ γ)
    (next : ι → World σ γ → Prop) : Prop :=
  (N.rules s).tidy i w ∧ N.Awaits i p s w next

variable {N : Succession ι σ γ} {i : Nat} {p : Program σ α} {s t r : ι} {w v u : World σ γ}
  {next : ι → World σ γ → Prop}

theorem Later.refl (hN : N.Lawful) (hw : (N.rules s).inv w) : N.Later i p s w s w :=
  ⟨hw, .inl ⟨rfl, (hN.rules s).refl i w⟩⟩

theorem Later.of_rely (hv : (N.rules s).inv v) (hr : (N.rules s).rely i w v) :
    N.Later i p s w s v := ⟨hv, .inl ⟨rfl, hr⟩⟩

theorem Later.passes (hN : N.Lawful) (h : N.Later i p s w t v) : N.passes i s w t v := by
  rcases h.2 with ⟨rfl, hr⟩ | ⟨-, hp⟩
  · exact hN.passes_of_rely hr
  · exact hp

theorem Later.trans (hN : N.Lawful) (h : N.Later i p s w t v) (h' : N.Later i p t v r u) :
    N.Later i p s w r u := by
  refine ⟨h'.1, ?_⟩
  rcases h.2 with ⟨rfl, hr⟩ | ⟨hf, hp⟩
  · rcases h'.2 with ⟨rfl, hr'⟩ | ⟨hf, hp⟩
    · exact .inl ⟨rfl, (hN.rules _).trans hr hr'⟩
    · exact .inr ⟨hf, hN.trans (hN.passes_of_rely hr) hp⟩
  · exact .inr ⟨hf, hN.trans hp (h'.passes hN)⟩

theorem Later.mono {β : Type} {q : Program σ β} (h : N.Later i p s w t v)
    (hf : N.free s p → N.free s q) : N.Later i q s w t v :=
  ⟨h.1, h.2.imp_right fun ⟨hfree, hp⟩ => ⟨hf hfree, hp⟩⟩

theorem Later.rest (hN : N.Lawful) (h : N.Later i p s w t v) (hw : (N.rules s).rest i w) :
    (N.rules t).rest i v := hN.rest (h.passes hN) hw

theorem Awaits.mono {next' : ι → World σ γ → Prop} {β : Type} {q : Program σ β}
    (h : N.Awaits i p s w next) (hf : N.free s q → N.free s p)
    (hn : ∀ t v, next t v → next' t v) : N.Awaits i q s w next' :=
  ⟨fun hfree => h.1 (hf hfree), fun t v hv => hn t v (h.2 t v (hv.mono hf))⟩

theorem Awaits.later (hN : N.Lawful) (h : N.Awaits i p s w next)
    (hv : N.Later i p s w t v) : N.Awaits i p t v next :=
  ⟨fun hf => hv.rest hN (h.1 (hN.free_of_passes (hv.passes hN) hf)),
    fun r u hu => h.2 r u (hv.trans hN hu)⟩

theorem Yields.later (hN : N.Lawful) (h : N.Yields i p s w next)
    (hv : N.Later i p s w t v) : N.Yields i p t v next := by
  refine ⟨?_, h.2.later hN hv⟩
  rcases hv.2 with ⟨rfl, hr⟩ | ⟨hf, -⟩
  · exact (hN.rules _).tidy hr h.1
  · exact (hN.rules t).tidy_of_rest (hv.rest hN (h.2.1 hf))

end Succession

namespace Program

/-- The program keeps to the rules from here on, whichever are in force by then, and ends well. -/
def Abides (N : Succession ι σ γ) (i : Nat) (K : α → ι → World σ γ → Prop)
    (E : TableError → ι → World σ γ → Prop) : Program σ α → ι → World σ γ → Prop
  | .ret a, s, w => K a s w
  | .fail e, s, w => E e s w
  | .get k, s, w => (k w.state).Abides N i K E s w
  | .set x k, s, w => ∃ g, (N.rules s).Admits i none w ⟨w.container, x, g⟩ ∧
      k.Abides N i K E s ⟨w.container, x, g⟩
  | .await bounded ready k, s, w => N.Yields i (.await bounded ready k) s w fun t v =>
      (ready v.state = true → (k true).Abides N i K E t v) ∧
      (ready v.state = false → (N.rules t).lapses ∧
        (bounded = true → (k false).Abides N i K E t v))
  | .clock k, s, w => N.Yields i (.clock k) s w fun t v =>
      (k true).Abides N i K E t v ∧ ((N.rules t).lapses → (k false).Abides N i K E t v)
  | .call q k, s, w => N.Yields i (.call q k) s w fun t v =>
      ∀ fate, (N.rules t).fates q fate → ∃ g, (N.rules t).Admits i (some (q, fate)) v
          ⟨(v.container.serve q fate).1, v.state, g⟩ ∧
        N.Awaits i (k (v.container.serve q fate).2) t
          ⟨(v.container.serve q fate).1, v.state, g⟩ fun r u =>
            (k (v.container.serve q fate).2).Abides N i K E r u
  | .pause n k, s, w => N.Yields i (.pause n k) s w fun t v => k.Abides N i K E t v

variable {N : Succession ι σ γ} {i : Nat} {s : ι} {w : World σ γ}
  {E : TableError → ι → World σ γ → Prop}

section Abides

variable {K : α → ι → World σ γ → Prop} {p : Program σ α}

@[simp] theorem abides_pure (a : α) :
    (pure a : Program σ α).Abides N i K E s w ↔ K a s w := Iff.rfl

@[simp] theorem abides_ofExcept_ok (a : α) :
    (ofExcept (.ok a) : Program σ α).Abides N i K E s w ↔ K a s w := Iff.rfl

@[simp] theorem abides_ofExcept_error (e : TableError) :
    (ofExcept (.error e) : Program σ α).Abides N i K E s w ↔ E e s w := Iff.rfl

theorem abides_checkTime (K : Unit → ι → World σ γ → Prop) :
    checkTime.Abides N i K E s w ↔ N.Yields i checkTime s w fun t v =>
      K () t v ∧ ((N.rules t).lapses → E .timeout t v) := Iff.rfl

theorem abides_waitUntil (ready : σ → Bool) (K : Unit → ι → World σ γ → Prop) :
    (waitUntil ready).Abides N i K E s w ↔
      N.Yields i (waitUntil ready) s w fun t v => (ready v.state = true → K () t v) ∧
        (ready v.state = false → (N.rules t).lapses ∧ (true = true → E .timeout t v)) := Iff.rfl

theorem abides_ask (q : Call) (K : q.Answer → ι → World σ γ → Prop) :
    (ask q).Abides N i K E s w ↔ N.Yields i (ask q) s w fun t v =>
      ∀ fate, (N.rules t).fates q fate → ∃ g, (N.rules t).Admits i (some (q, fate)) v
          ⟨(v.container.serve q fate).1, v.state, g⟩ ∧
        N.Awaits i (ofExcept (v.container.serve q fate).2 : Program σ q.Answer) t
          ⟨(v.container.serve q fate).1, v.state, g⟩ fun r u =>
            (ofExcept (v.container.serve q fate).2 : Program σ q.Answer).Abides N i K E r u :=
  Iff.rfl

theorem Abides.mono {K' : α → ι → World σ γ → Prop} {E' : TableError → ι → World σ γ → Prop}
    (h : p.Abides N i K E s w) (hK : ∀ a t v, K a t v → K' a t v)
    (hE : ∀ e t v, E e t v → E' e t v) : p.Abides N i K' E' s w := by
  induction p generalizing s w with
  | ret a => exact hK a s w h
  | fail e => exact hE e s w h
  | get k ih => exact ih w.state h
  | set x k ih =>
    obtain ⟨g, hg, hk⟩ := h
    exact ⟨g, hg, ih hk⟩
  | await b r k ih =>
    refine ⟨h.1, h.2.mono id fun t v hv => ⟨fun hm => ih true (hv.1 hm), fun hm => ?_⟩⟩
    exact ⟨(hv.2 hm).1, fun hb => ih false ((hv.2 hm).2 hb)⟩
  | clock k ih =>
    exact ⟨h.1, h.2.mono id fun t v hv => ⟨ih true hv.1, fun hl => ih false (hv.2 hl)⟩⟩
  | call q k ih =>
    refine ⟨h.1, h.2.mono id fun t v hv fate hf => ?_⟩
    obtain ⟨g, hg, hk⟩ := hv fate hf
    exact ⟨g, hg, hk.mono id fun r u hu => ih _ hu⟩
  | pause n k ih => exact ⟨h.1, h.2.mono id fun t v hv => ih hv⟩

theorem Abides.bind {f : α → Program σ β} {K : β → ι → World σ γ → Prop}
    (h : p.Abides N i (fun a => (f a).Abides N i K E) E s w) :
    (p >>= f).Abides N i K E s w := by
  change (p.bind f).Abides N i K E s w
  have hfree {s : ι} (q : Program σ α) : N.free s (q.bind f) → N.free s q := N.free_of_bind
  induction p generalizing s w with
  | ret | fail => exact h
  | get k ih => exact ih w.state h
  | set x k ih =>
    obtain ⟨g, hg, hk⟩ := h
    exact ⟨g, hg, ih hk⟩
  | await b r k ih =>
    refine ⟨h.1, h.2.mono (hfree (.await b r k)) fun t v hv => ⟨fun hm => ?_, fun hm => ?_⟩⟩
    · exact ih true (hv.1 hm)
    · exact ⟨(hv.2 hm).1, fun hb => ih false ((hv.2 hm).2 hb)⟩
  | clock k ih =>
    refine ⟨h.1, h.2.mono (hfree (.clock k)) fun t v hv => ⟨ih true hv.1, fun hl => ?_⟩⟩
    exact ih false (hv.2 hl)
  | call q k ih =>
    refine ⟨h.1, h.2.mono (hfree (.call q k)) fun t v hv fate hf => ?_⟩
    obtain ⟨g, hg, hk⟩ := hv fate hf
    exact ⟨g, hg, hk.mono (hfree _) fun r u hu => ih _ hu⟩
  | pause n k ih => exact ⟨h.1, h.2.mono (hfree (.pause n k)) fun t v hv => ih hv⟩

theorem Abides.map {f : α → β} {K : β → ι → World σ γ → Prop}
    (h : p.Abides N i (fun a => K (f a)) E s w) : (f <$> p).Abides N i K E s w :=
  Abides.bind (f := fun a => .ret (f a)) h

/-- As long as the rules are not replaced, the program obeys them. -/
theorem Abides.obeys (h : p.Abides N i K E s w) :
    p.Obeys (N.rules s) i (fun a => K a s) (fun e => E e s) w := by
  induction p generalizing w with
  | ret | fail => exact h
  | get k ih => exact ih w.state h
  | set x k ih =>
    obtain ⟨g, hg, hk⟩ := h
    exact ⟨g, hg, ih hk⟩
  | await b r k ih =>
    refine ⟨h.1, fun v hv hr => ⟨fun hm => ?_, fun hm => ?_⟩⟩
    · exact ih true ((h.2.2 s v (.of_rely hv hr)).1 hm)
    · obtain ⟨hl, hk⟩ := (h.2.2 s v (.of_rely hv hr)).2 hm
      exact ⟨hl, fun hb => ih false (hk hb)⟩
  | clock k ih =>
    refine ⟨h.1, fun v hv hr => ⟨ih true (h.2.2 s v (.of_rely hv hr)).1, fun hl => ?_⟩⟩
    exact ih false ((h.2.2 s v (.of_rely hv hr)).2 hl)
  | call q k ih =>
    refine ⟨h.1, fun v hv hr fate hf => ?_⟩
    obtain ⟨g, hg, -, hk⟩ := h.2.2 s v (.of_rely hv hr) fate hf
    exact ⟨g, hg, fun u hu hru => ih _ (hk s u (.of_rely hu hru))⟩
  | pause n k ih => exact ⟨h.1, fun v hv hr => ih (h.2.2 s v (.of_rely hv hr))⟩

/-- What abides by rules that are never replaced is what obeys them. -/
theorem abides_const {R : Rules σ γ} {K : α → World σ γ → Prop}
    {E : TableError → World σ γ → Prop} :
    p.Abides (.const R) i (fun a _ => K a) (fun e _ => E e) () w ↔ p.Obeys R i K E w := by
  refine ⟨Abides.obeys, fun h => ?_⟩
  have hyield {p : Program σ α} {w : World σ γ} {next : World σ γ → Prop}
      {next' : Unit → World σ γ → Prop} (h : R.Yields i w next) (hn : ∀ t v, next v → next' t v) :
      (Succession.const R).Yields i p () w next' := by
    refine ⟨h.1, False.elim, fun t v hv => hn t v ?_⟩
    rcases hv.2 with ⟨-, hr⟩ | ⟨hf, -⟩
    · exact h.2 v hv.1 hr
    · exact hf.elim
  induction p generalizing w with
  | ret | fail => exact h
  | get k ih => exact ih w.state h
  | set x k ih =>
    obtain ⟨g, hg, hk⟩ := h
    exact ⟨g, hg, ih hk⟩
  | await b r k ih =>
    refine hyield h fun t v hv => ⟨fun hm => ih true (hv.1 hm), fun hm => ?_⟩
    exact ⟨(hv.2 hm).1, fun hb => ih false ((hv.2 hm).2 hb)⟩
  | clock k ih => exact hyield h fun t v hv => ⟨ih true hv.1, fun hl => ih false (hv.2 hl)⟩
  | call q k ih =>
    refine hyield h fun t v hv fate hf => ?_
    obtain ⟨g, hg, hk⟩ := hv fate hf
    refine ⟨g, hg, False.elim, fun _ u hu => ih _ ?_⟩
    rcases hu.2 with ⟨-, hr⟩ | ⟨hf, -⟩
    · exact hk u hu.1 hr
    · exact hf.elim
  | pause n k ih => exact hyield h fun t v hv => ih hv

/-- A program that obeys the rules and is not free before it ends abides, if what it has found out
by then stays true. -/
theorem Obeys.abides (hN : N.Lawful) {K' : α → World σ γ → Prop}
    {E' : TableError → World σ γ → Prop} (h : p.Obeys (N.rules s) i K' E' w)
    (hw : (N.rules s).inv w) (hfree : ∀ q, p.ComesTo q → ¬q.Over → ¬N.free s q)
    (hK : ∀ a v, (N.rules s).inv v → K' a v → (N.rules s).rest i v ∧
      ∀ t u, (N.rules t).inv u → N.passes i s v t u → K a t u)
    (hE : ∀ e v, (N.rules s).inv v → E' e v → (N.rules s).rest i v ∧
      ∀ t u, (N.rules t).inv u → N.passes i s v t u → E e t u) :
    p.Abides N i K E s w := by
  have hrefl {v : World σ γ} : N.passes i s v s v := hN.passes_of_rely ((hN.rules s).refl i v)
  have hyield {p : Program σ α} (hp : ¬p.Over) (hfree : ∀ q, p.ComesTo q → ¬q.Over → ¬N.free s q)
      {w : World σ γ} {next : ι → World σ γ → Prop} {next' : World σ γ → Prop}
      (h : (N.rules s).Yields i w next')
      (hnext : ∀ v, (N.rules s).inv v → next' v → next s v) : N.Yields i p s w next := by
    refine ⟨h.1, fun hf => absurd hf (hfree p (.refl p) hp), fun t v hv => ?_⟩
    rcases hv.2 with ⟨rfl, hr⟩ | ⟨hf, -⟩
    · exact hnext v hv.1 (h.2 v hv.1 hr)
    · exact absurd hf (hfree p (.refl p) hp)
  have hne {p : Program σ α} (hret : ∀ a, p ≠ .ret a) (hfail : ∀ e, p ≠ .fail e) : ¬p.Over := by
    rintro ⟨o, ho⟩
    cases o with
    | ok a => exact hret a ho
    | error e => exact hfail e ho
  induction p generalizing w with
  | ret a => exact (hK a w hw h).2 s w hw hrefl
  | fail e => exact (hE e w hw h).2 s w hw hrefl
  | get k ih => exact ih w.state h hw fun q hq => hfree q (.get _ hq)
  | set x k ih =>
    obtain ⟨g, hg, hk⟩ := h
    exact ⟨g, hg, ih hk hg.1 fun q hq => hfree q (.set hq)⟩
  | await b r k ih =>
    refine hyield (hne (by simp) (by simp)) hfree h fun v hv hk => ⟨fun hm => ?_, fun hm => ?_⟩
    · exact ih true (hk.1 hm) hv fun q hq => hfree q (.await true hq)
    · exact ⟨(hk.2 hm).1, fun hb => ih false ((hk.2 hm).2 hb) hv fun q hq => hfree q (.await _ hq)⟩
  | clock k ih =>
    refine hyield (hne (by simp) (by simp)) hfree h fun v hv hk => ⟨?_, fun hl => ?_⟩
    · exact ih true hk.1 hv fun q hq => hfree q (.clock true hq)
    · exact ih false (hk.2 hl) hv fun q hq => hfree q (.clock false hq)
  | call c k ih =>
    refine hyield (hne (by simp) (by simp)) hfree h fun v hv hk fate hf => ?_
    obtain ⟨g, hg, hk⟩ := hk fate hf
    refine ⟨g, hg, ?_⟩
    have hfree (q : Program σ α) (hq : (k (v.container.serve c fate).2).ComesTo q) :=
      hfree q (.call _ hq)
    have hhere := hk _ hg.1 ((hN.rules s).refl i _)
    generalize hq : k (v.container.serve c fate).2 = q at hk hfree hhere ⊢
    by_cases hover : q.Over
    -- A call was the last step, and its answer is what has been found out.
    · obtain ⟨o, rfl⟩ := hover
      cases o with
      | ok a =>
        obtain ⟨hrest, hnext⟩ := hK a _ hg.1 hhere
        exact ⟨fun _ => hrest, fun t u hu => hnext t u hu.1 (hu.passes hN)⟩
      | error e =>
        obtain ⟨hrest, hnext⟩ := hE e _ hg.1 hhere
        exact ⟨fun _ => hrest, fun t u hu => hnext t u hu.1 (hu.passes hN)⟩
    · refine ⟨fun hf => absurd hf (hfree q (.refl q) hover), fun t u hu => ?_⟩
      rcases hu.2 with ⟨rfl, hr⟩ | ⟨hf, -⟩
      · rw [← hq] at hfree ⊢
        exact ih _ (hq ▸ hk u hu.1 hr) hu.1 hfree
      · exact absurd hf (hfree q (.refl q) hover)
  | pause n k ih =>
    exact hyield (hne (by simp) (by simp)) hfree h fun v hv hk => ih hk hv fun q hq =>
      hfree q (.pause hq)

theorem Abides.advance (hN : N.Lawful) (hw : (N.rules s).inv w)
    (h : p.Abides N i K E s w) :
    ∃ g, (N.rules s).inv ⟨w.container, (p.advance w.state).2, g⟩ ∧
      (∀ j, j ≠ i → (N.rules s).rely j w ⟨w.container, (p.advance w.state).2, g⟩) ∧
      (p.advance w.state).1.Abides N i K E s ⟨w.container, (p.advance w.state).2, g⟩ := by
  induction p generalizing w with
  | get k ih => exact ih w.state hw h
  | set x k ih =>
    obtain ⟨g, ⟨hv, hg⟩, hk⟩ := h
    obtain ⟨g', hv', hr, hp⟩ := ih hv hk
    have hR := hN.rules s
    exact ⟨g', hv', fun j hj => hR.trans (hR.rely_of_guar hj hg) (hr j hj), hp⟩
  | ret | fail | await | clock | call | pause =>
    exact ⟨w.ghost, hw, fun j _ => (hN.rules s).refl j w, h⟩

end Abides

end Program

namespace Succession

/-- The program leaves nothing behind, and its answer is right whenever it is taken up. -/
def Ends (N : Succession ι σ γ) (i : Nat) (post : α → ι → World σ γ → Prop) (a : α) (s : ι)
    (w : World σ γ) : Prop :=
  (N.rules s).rest i w ∧
    ∀ t v, (N.rules t).inv v → N.passes i s w t v → post a t v

/-- The program abides to its end, whatever the others do before it goes on. -/
def Parked (N : Succession ι σ γ) (i : Nat) (post : α → ι → World σ γ → Prop)
    (p : Program σ α) (s : ι) (w : World σ γ) : Prop :=
  N.Awaits i p s w fun t v =>
    p.Abides N i (N.Ends i post) (fun _ t v => (N.rules t).rest i v) t v

variable {N : Succession ι σ γ} {i : Nat} {s t : ι} {w v : World σ γ}
  {post : α → ι → World σ γ → Prop} {p : Program σ α}

theorem Parked.mono {post' : α → ι → World σ γ → Prop} (h : N.Parked i post p s w)
    (hp : ∀ a t v, post a t v → post' a t v) : N.Parked i post' p s w := by
  refine ⟨h.1, fun t v hv => (h.2 t v hv).mono (fun a r u ha => ?_) fun _ _ _ he => he⟩
  exact ⟨ha.1, fun r' u' hu hpass => hp a r' u' (ha.2 r' u' hu hpass)⟩

theorem parked_of_abides (hN : N.Lawful) (hp : p.Point)
    (h : p.Abides N i (N.Ends i post) (fun _ t v => (N.rules t).rest i v) s w) :
    (N.rules s).tidy i w ∧ N.Parked i post p s w := by
  have hpark {next : ι → World σ γ → Prop} (h : N.Yields i p s w next) :
      (N.rules s).tidy i w ∧ N.Awaits i p s w fun t v => N.Yields i p t v next :=
    ⟨h.1, h.2.1, fun t v hv => h.later hN hv⟩
  cases p with
  | get | set => exact hp.elim
  | ret a =>
    have hend : N.Ends i post a s w := h
    refine ⟨(hN.rules s).tidy_of_rest hend.1, fun _ => hend.1, fun t v hv => ?_⟩
    exact ⟨hv.rest hN hend.1, fun r u hu hp => hend.2 r u hu (hN.trans (hv.passes hN) hp)⟩
  | fail e =>
    have hrest : (N.rules s).rest i w := h
    exact ⟨(hN.rules s).tidy_of_rest hrest, fun _ => hrest, fun t v hv => hv.rest hN hrest⟩
  | await | clock | call | pause => exact hpark h

theorem const_lawful {R : Rules σ γ} (hR : R.Lawful) : (const R).Lawful where
  rules _ := hR
  free_of_passes _ hf := hf
  passes_of_rely hr := hr
  trans hr hr' := hR.trans hr hr'
  rest hr hw := hR.rest hr hw

theorem parked_const {R : Rules σ γ} {post : α → World σ γ → Prop} :
    (const R).Parked i (fun a _ => post a) p () w ↔ R.Parked i post p w := by
  constructor
  · intro h v hv hr
    refine Program.abides_const.1 ((h.2 () v (.of_rely hv hr)).mono ?_ fun _ _ _ he => he)
    exact fun a _ u ha => ⟨ha.1, fun u' => ha.2 () u'⟩
  · intro h
    refine ⟨False.elim, fun t v hv => ?_⟩
    rcases hv.2 with ⟨-, hr⟩ | ⟨hf, -⟩
    · refine (Program.abides_const.2 (h v hv.1 hr)).mono ?_ fun _ _ _ he => he
      exact fun a _ u ha => ⟨ha.1, fun _ u' => ha.2 u'⟩
    · exact hf.elim

end Succession

namespace Pool

/-- Everybody in flight abides by the rules in force. -/
structure Abiding (N : Succession ι σ γ)
    (posts : Nat → α → ι → World σ γ → Prop) (s : ι) (y : Pool σ α) (g : γ) : Prop where
  inv : (N.rules s).inv (y.world g)
  parked : ∀ {i p}, y.threads i = some p → N.Parked i (posts i) p s (y.world g)
  rest : ∀ {i}, y.threads i = none → (N.rules s).rest i (y.world g)

variable {N : Succession ι σ γ}
  {posts : Nat → α → ι → World σ γ → Prop} {s t : ι} {y z : Pool σ α} {g g' : γ} {i : Nat}

namespace Abiding

theorem assign (hN : N.Lawful) (h : y.Abiding N posts s g) {c : Container} {x : σ}
    {p : Program σ α} (hinv : (N.rules s).inv ⟨c, x, g'⟩)
    (hr : ∀ j, j ≠ i → (N.rules s).rely j (y.world g) ⟨c, x, g'⟩)
    (hp : N.Parked i (posts i) p s ⟨c, x, g'⟩) :
    (Pool.assign { y with container := c, state := x } i (some p)).Abiding N posts s g' where
  inv := hinv
  parked {j q} hj := by
    by_cases hij : j = i
    · subst hij
      have hq : p = q := by simpa [Pool.assign] using hj
      exact hq ▸ hp
    · have hq : y.threads j = some q := by simpa [Pool.assign, hij] using hj
      exact (h.parked hq).later hN ⟨hinv, .inl ⟨rfl, hr j hij⟩⟩
  rest {j} hj := by
    by_cases hij : j = i
    · simp [Pool.assign, hij] at hj
    · have hq : y.threads j = none := by simpa [Pool.assign, hij] using hj
      exact (hN.rules s).rest (hr j hij) (h.rest hq)

theorem retire (h : y.Abiding N posts s g) (hi : (N.rules s).rest i (y.world g)) :
    (y.assign i none).Abiding N posts s g where
  inv := h.inv
  parked {j q} hj := by
    by_cases hij : j = i
    · simp [Pool.assign, hij] at hj
    · exact h.parked (by simpa [Pool.assign, hij] using hj)
  rest {j} hj := by
    by_cases hij : j = i
    · subst hij
      exact hi
    · exact h.rest (by simpa [Pool.assign, hij] using hj)

theorem repost {posts' : Nat → α → ι → World σ γ → Prop} (h : y.Abiding N posts s g)
    (hp : ∀ {i p}, y.threads i = some p → ∀ a t v, posts i a t v → posts' i a t v) :
    y.Abiding N posts' s g where
  inv := h.inv
  parked hi := (h.parked hi).mono (hp hi)
  rest := h.rest

theorem goOn (hN : N.Lawful) (h : y.Abiding N posts s g) {p : Program σ α}
    (hp : p.Abides N i (N.Ends i (posts i)) (fun _ t v => (N.rules t).rest i v) s
      (y.world g)) :
    ∃ g', (y.goOn i p).Abiding N posts s g' ∧
      (N.rules s).Accounts (fun i a w => posts i a s w) (.proceed i) (y.world g)
        ((y.goOn i p).world g') := by
  obtain ⟨g', hinv, hr, hk⟩ := hp.advance hN h.inv
  obtain ⟨ht, hpark⟩ := Succession.parked_of_abides hN (p.point_advance y.state) hk
  exact ⟨g', h.assign hN hinv hr hpark, rfl, hr, ht⟩

/-- The rules may be replaced as long as nobody holds anything. -/
theorem renew (hN : N.Lawful) (h : y.Abiding N posts s g)
    (hfree : ∀ {i p}, y.threads i = some p → N.free s p) (hthreads : z.threads = y.threads)
    (hinv : (N.rules t).inv (z.world g'))
    (hpass : ∀ i, N.passes i s (y.world g) t (z.world g')) : z.Abiding N posts t g' where
  inv := hinv
  parked {i p} hi := by
    rw [hthreads] at hi
    exact (h.parked hi).later hN ⟨hinv, .inr ⟨hfree hi, hpass i⟩⟩
  rest {i} hi := by
    rw [hthreads] at hi
    exact hN.rest (hpass i) (h.rest hi)

end Abiding

variable {around : Surroundings σ}

/-- Each step of a pool keeps everybody abiding, if whoever starts does. -/
theorem Step.abiding (hN : N.Lawful) (ha : around.Within (N.rules s)) {e : Event σ α}
    (h : Step around y e z) (hy : y.Abiding N posts s g)
    (hs : ∀ i p, e = .start i p → (N.rules s).rest i (y.world g) →
      N.Parked i (posts i) p s (y.world g)) :
    ∃ g', z.Abiding N posts s g' ∧
      (N.rules s).Accounts (fun i a w => posts i a s w) e (y.world g) (z.world g') := by
  have here {i p} (hp : y.threads i = some p) :=
    (hy.parked hp).2 s (y.world g) (.refl hN hy.inv)
  cases h with
  | start p hp =>
    exact ⟨g, hy.assign hN hy.inv (fun j _ => (hN.rules s).refl j _) (hs _ p rfl (hy.rest hp)),
      rfl⟩
  | get hp => exact hy.goOn hN (here hp)
  | set hp => exact hy.goOn hN (here hp)
  | awaited hp hr => exact hy.goOn hN (((here hp).2.2 s _ (.refl hN hy.inv)).1 hr)
  | gaveUp hp hr => exact hy.goOn hN ((((here hp).2.2 s _ (.refl hN hy.inv)).2 hr).2 rfl)
  | clock hasTime hp =>
    have hk := (here hp).2.2 s _ (.refl hN hy.inv)
    cases hasTime with
    | true => exact hy.goOn hN hk.1
    | false => exact hy.goOn hN (hk.2 ha.lapses)
  | pause hp => exact hy.goOn hN ((here hp).2.2 s _ (.refl hN hy.inv))
  | call fate hp hf =>
    obtain ⟨g', ⟨hinv, hg⟩, hk⟩ := (here hp).2.2 s _ (.refl hN hy.inv) fate (ha.fates hf)
    exact ⟨g', hy.assign hN hinv (fun j hj => (hN.rules s).rely_of_guar hj hg) hk, hg⟩
  | @returned i a hp =>
    have hk : N.Ends i (posts i) a s (y.world g) := here hp
    have hpost := hk.2 s _ hy.inv (hN.passes_of_rely ((hN.rules s).refl i _))
    exact ⟨g, hy.retire hk.1, rfl, hk.1, hpost⟩
  | failed hp => exact ⟨g, hy.retire (here hp), rfl, here hp⟩
  | drift hd =>
    obtain ⟨hinv, hr⟩ := ha.drifts hy.inv hd
    refine ⟨g, ⟨hinv, fun hj => ?_, fun hj => (hN.rules s).rest (hr _) (hy.rest hj)⟩, rfl, hr⟩
    exact (hy.parked hj).later hN ⟨hinv, .inl ⟨rfl, hr _⟩⟩

section Const

variable {R : Rules σ γ} {posts : Nat → α → World σ γ → Prop}

theorem abiding_const : y.Abiding (.const R) (fun i a _ => posts i a) () g ↔ y.Sound R posts g where
  mp h := ⟨h.inv, fun hi => Succession.parked_const.1 (h.parked hi), h.rest⟩
  mpr h := ⟨h.inv, fun hi => Succession.parked_const.2 (h.parked hi), h.rest⟩

theorem Sound.repost {posts' : Nat → α → World σ γ → Prop} (h : y.Sound R posts g)
    (hp : ∀ {i p}, y.threads i = some p → ∀ a w, posts i a w → posts' i a w) :
    y.Sound R posts' g :=
  abiding_const.1 ((abiding_const.2 h).repost fun hi a _ w => hp hi a w)

/-- Each step of a pool keeps everybody in order, if whoever starts is. -/
theorem Step.sound (hR : R.Lawful) (ha : around.Within R) {e : Event σ α}
    (h : Step around y e z) (hy : y.Sound R posts g)
    (hs : ∀ i p, e = .start i p → R.rest i (y.world g) → R.Parked i (posts i) p (y.world g)) :
    ∃ g', z.Sound R posts g' ∧ R.Accounts posts e (y.world g) (z.world g') := by
  obtain ⟨g', hz, hacc⟩ := h.abiding (Succession.const_lawful hR) ha (abiding_const.2 hy)
    fun i p he hrest => Succession.parked_const.2 (hs i p he hrest)
  exact ⟨g', abiding_const.1 hz, hacc⟩

theorem Steps.stays_sound (hR : R.Lawful) (ha : around.Within R) {ok : Event σ α → Prop}
    (hs : ∀ {i p w}, ok (.start i p) → R.inv w → R.rest i w → R.Parked i (posts i) p w)
    {es : List (Event σ α)} (h : Steps around y es z) (hok : ∀ e ∈ es, ok e)
    (hy : y.Sound R posts g) : ∃ g', z.Sound R posts g' := by
  refine h.keep (I := fun y => ∃ g, y.Sound R posts g) (fun {_ _ _} hstep he ⟨g, hy⟩ => ?_) hok
    ⟨g, hy⟩
  obtain ⟨g', hz, -⟩ := hstep.sound hR ha hy fun i p heq hi => hs (heq ▸ he) hy.inv hi
  exact ⟨g', hz⟩

/-- Every run keeps everybody in order, along with any relation between what happened and the
account of it that single steps keep. -/
theorem Steps.sound (hR : R.Lawful) (ha : around.Within R)
    {H : List (Event σ α) → World σ γ → Prop} {ok : Event σ α → Prop}
    (hH : ∀ {es e w v}, R.inv w → R.inv v → H es w → R.Accounts posts e w v → ok e →
      H (es ++ [e]) v)
    (hs : ∀ {i p w}, ok (.start i p) → R.inv w → R.rest i w → R.Parked i (posts i) p w)
    {es : List (Event σ α)} (h : Steps around y es z) (hok : ∀ e ∈ es, ok e)
    {past : List (Event σ α)} (hy : y.Sound R posts g) (hp : H past (y.world g)) :
    ∃ g', z.Sound R posts g' ∧ H (past ++ es) (z.world g') := by
  induction h generalizing past g with
  | refl => exact ⟨g, hy, by simpa using hp⟩
  | @head _ _ _ e es h _ ih =>
    have he : ok e := hok e (by simp)
    obtain ⟨g', hz, hacc⟩ := h.sound hR ha hy
      (fun i p hep hi => hs (hep ▸ he) hy.inv hi)
    obtain ⟨g'', hz', hp'⟩ := ih (fun f hf => hok f (by simp [hf])) hz (hH hy.inv hz.inv hp hacc he)
    exact ⟨g'', hz', by simpa using hp'⟩

end Const

end Pool
end KeyedLog
