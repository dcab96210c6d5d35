import KeyedLog.Proofs.Program.Inquiry
import KeyedLog.Proofs.Program.Remainders
import KeyedLog.Proofs.Write.AppendLast

/-! Stages of programs: where a program stops on its way, what it may still come to from there, and
what its changes leave as it is. -/
namespace KeyedLog

namespace Program

variable {σ α β γ : Type} {p q r : Program σ α}

/-- The program is on its way through another one, after which it goes on. -/
def Amid (p : Program σ β) (whole : Program σ α) (f : Except TableError α → Program σ β) : Prop :=
  ∃ q, whole.ComesTo q ∧ q.Suspended ∧ p = q.attempt.bind f

theorem Amid.attempt_bind {p : Program σ β} {whole : Program σ α}
    {f : Except TableError α → Program σ β} (h : p.Amid whole f)
    (g : Except TableError β → Program σ γ) :
    (p.attempt.bind g).Amid whole fun r => (f r).attempt.bind g := by
  obtain ⟨q, hq, hs, rfl⟩ := h
  refine ⟨q, hq, hs, ?_⟩
  rw [attempt_bind_attempt]
  exact bind_assoc ..

theorem Bounded.comesTo (h : p.Bounded) (hq : p.ComesTo q) : q.Bounded := by
  induction hq with
  | refl => exact h
  | get s _ ih => exact ih (h s)
  | set _ ih | pause _ ih => exact ih h
  | await met _ ih => exact ih (h.2 met)
  | clock left _ ih => exact ih (h left)
  | call r _ ih => exact ih (h r)

def Fails (e : TableError) : Program σ α → Prop
  | .fail e' => e' = e
  | .get k => ∀ s, (k s).Fails e
  | .set _ k => k.Fails e
  | .ret _ | .await .. | .clock _ | .call .. | .pause .. => False

/-- What follows an attempt fails when the attempt does. -/
def Passes (f : Except TableError α → Program σ β) : Prop := ∀ e, (f (.error e)).Fails e

theorem Fails.attempt_bind {e : TableError} {f : Except TableError α → Program σ β}
    (h : p.Fails e) (hf : Passes f) : (p.attempt.bind f).Fails e := by
  induction p with
  | fail e' =>
    obtain rfl : e' = e := h
    exact hf e'
  | get k ih => exact fun s => ih s (h s)
  | set s k ih => exact ih h
  | ret | await | clock | call | pause => exact h.elim

theorem Fails.bind {e : TableError} {f : α → Program σ β} (h : p.Fails e) : (p.bind f).Fails e := by
  rw [bind_eq_attempt_bind]
  exact h.attempt_bind fun _ => rfl

theorem Passes.comp {f : Except TableError α → Program σ β} {g : Except TableError β → Program σ γ}
    (hf : Passes f) (hg : Passes g) : Passes fun r => (f r).attempt.bind g :=
  fun e => (hf e).attempt_bind hg

theorem passes_ofExcept : Passes (ofExcept : Except TableError α → Program σ α) := fun _ => rfl

theorem passes_bind (f : α → Program σ β) : Passes fun r : Except TableError α =>
    (ofExcept r).bind f := fun _ => rfl

section Stops

/-- Wherever the program stops there is something to be said of what is left of it and of the state.
Between two steps of the program the state is changed by others, in some ways. -/
def Stops (alters : σ → σ → Prop) (P : Program σ α → σ → Prop) (K : α → σ → Prop)
    (E : TableError → σ → Prop) : Program σ α → σ → Prop
  | .ret a, s => K a s
  | .fail e, s => E e s
  | .get k, s => (k s).Stops alters P K E s
  | .set s k, _ => k.Stops alters P K E s
  | .await b ready k, s => ∀ t, alters s t →
      P (.await b ready k) t ∧ ∀ met, (k met).Stops alters P K E t
  | .clock k, s => ∀ t, alters s t → P (.clock k) t ∧ ∀ left, (k left).Stops alters P K E t
  | .call c k, s => ∀ t, alters s t →
      P (.call c k) t ∧ ∀ r u, alters t u → (k r).Stops alters P K E u
  | .pause n k, s => ∀ t, alters s t → P (.pause n k) t ∧ k.Stops alters P K E t

variable {alters : σ → σ → Prop} {P P' : Program σ α → σ → Prop} {K K' : α → σ → Prop}
  {E E' : TableError → σ → Prop} {s : σ}

theorem Stops.mono (h : p.Stops alters P K E s) (hP : ∀ q t, q.Suspended → P q t → P' q t)
    (hK : ∀ a t, K a t → K' a t) (hE : ∀ e t, E e t → E' e t) : p.Stops alters P' K' E' s := by
  induction p generalizing s with
  | ret a => exact hK a s h
  | fail e => exact hE e s h
  | get k ih => exact ih s h
  | set t k ih => exact ih h
  | await b ready k ih =>
    exact fun t ht => ⟨hP _ t trivial (h t ht).1, fun met => ih met ((h t ht).2 met)⟩
  | clock k ih =>
    exact fun t ht => ⟨hP _ t trivial (h t ht).1, fun left => ih left ((h t ht).2 left)⟩
  | call c k ih =>
    exact fun t ht => ⟨hP _ t trivial (h t ht).1, fun r u hu => ih r ((h t ht).2 r u hu)⟩
  | pause n k ih => exact fun t ht => ⟨hP _ t trivial (h t ht).1, ih (h t ht).2⟩

theorem stops_attempt_bind (p : Program σ α) (f : Except TableError α → Program σ β)
    {P : Program σ β → σ → Prop} {K : β → σ → Prop} :
    (p.attempt.bind f).Stops alters P K E s ↔
      p.Stops alters (fun q => P (q.attempt.bind f)) (fun a => (f (.ok a)).Stops alters P K E)
        (fun e => (f (.error e)).Stops alters P K E) s := by
  induction p generalizing s with
  | ret | fail => exact Iff.rfl
  | get k ih => exact ih s
  | set t k ih => exact ih
  | await b ready k ih => simp only [attempt, Program.bind, Stops, ih]
  | clock k ih => simp only [attempt, Program.bind, Stops, ih]
  | call c k ih => simp only [attempt, Program.bind, Stops, ih]
  | pause n k ih => simp only [attempt, Program.bind, Stops, ih]

theorem Stops.advance (h : p.Stops alters P K E s) :
    (p.advance s).1.Stops alters P K E (p.advance s).2 := by
  induction p generalizing s with
  | get k ih => exact ih s h
  | set t k ih => exact ih h
  | ret | fail | await | clock | call | pause => exact h

end Stops

section Makes

/-- Each change that the program makes to the state is of one kind, and each call of another. -/
def Makes (I : σ → σ → Prop) (C : Call → Prop) : Program σ α → σ → Prop
  | .ret _, _ | .fail _, _ => True
  | .get k, s => (k s).Makes I C s
  | .set t k, s => I s t ∧ k.Makes I C t
  | .await _ _ k, _ => ∀ met s, (k met).Makes I C s
  | .clock k, _ => ∀ left s, (k left).Makes I C s
  | .call q k, _ => C q ∧ ∀ r s, (k r).Makes I C s
  | .pause _ k, _ => ∀ s, k.Makes I C s

variable {I J : σ → σ → Prop} {C D : Call → Prop} {s : σ}

theorem Makes.mono (h : p.Makes I C s) (hI : ∀ s t, I s t → J s t) (hC : ∀ q, C q → D q) :
    p.Makes J D s := by
  induction p generalizing s with
  | ret | fail => trivial
  | get k ih => exact ih s h
  | set t k ih => exact ⟨hI _ _ h.1, ih h.2⟩
  | await b ready k ih => exact fun met s => ih met (h met s)
  | clock k ih => exact fun left s => ih left (h left s)
  | call q k ih => exact ⟨hC q h.1, fun r s => ih r (h.2 r s)⟩
  | pause n k ih => exact fun s => ih (h s)

theorem Makes.bind {f : α → Program σ β} (hp : p.Makes I C s) (hf : ∀ a s, (f a).Makes I C s) :
    (p >>= f).Makes I C s := by
  change (p.bind f).Makes I C s
  induction p generalizing s with
  | ret a => exact hf a s
  | fail e => trivial
  | get k ih => exact ih s hp
  | set t k ih => exact ⟨hp.1, ih hp.2⟩
  | await b ready k ih => exact fun met s => ih met (hp met s)
  | clock k ih => exact fun left s => ih left (hp left s)
  | call q k ih => exact ⟨hp.1, fun r s => ih r (hp.2 r s)⟩
  | pause n k ih => exact fun s => ih (hp s)

theorem Makes.map (f : α → β) (hp : p.Makes I C s) : (f <$> p).Makes I C s :=
  hp.bind (f := fun a => .ret (f a)) fun _ _ => trivial

theorem Makes.attempt (hp : p.Makes I C s) : p.attempt.Makes I C s := by
  induction p generalizing s with
  | ret | fail => trivial
  | get k ih => exact ih s hp
  | set t k ih => exact ⟨hp.1, ih hp.2⟩
  | await b ready k ih => exact fun met s => ih met (hp met s)
  | clock k ih => exact fun left s => ih left (hp left s)
  | call q k ih => exact ⟨hp.1, fun r s => ih r (hp.2 r s)⟩
  | pause n k ih => exact fun s => ih (hp s)

theorem makes_ofExcept (r : Except TableError α) : (ofExcept r : Program σ α).Makes I C s := by
  cases r <;> trivial

theorem makes_modify {f : σ → σ} (hf : ∀ s, I s (f s)) : (modify f).Makes I C s :=
  ⟨hf s, trivial⟩

theorem Makes.ensuring {last : Program σ Unit} (hp : p.Makes I C s)
    (hl : ∀ s, last.Makes I C s) : (p.ensuring last).Makes I C s :=
  hp.attempt.bind fun r s => (hl s).bind fun _ _ => makes_ofExcept r

theorem makes_waitUntil (ready : σ → Bool) : (waitUntil ready).Makes I C s := by
  intro met s
  cases met <;> trivial

theorem makes_ask {q : Call} (hq : C q) : (ask q : Program σ q.Answer).Makes I C s :=
  ⟨hq, fun r _ => makes_ofExcept r⟩

theorem makes_request {q : Call} (hq : C q) : (request q : Program σ q.Answer).Makes I C s := by
  refine Makes.bind (p := checkTime) (fun left s => ?_) fun _ _ => makes_ask hq
  cases left <;> trivial

theorem Makes.resume (hp : ∀ s, p.Makes I C s) (h : p.Resumes q) (s : σ) : q.Makes I C s := by
  cases h with
  | get | set => exact hp s
  | await met => exact hp s met s
  | clock left => exact hp s left s
  | pause => exact hp s s

/-- Whoever only inquires changes nothing. -/
theorem Inquires.makes {name : String} {segment : Nat} (hp : p.Inquires name segment)
    (hC : ∀ q, q.Inquires name segment → C q) : p.Makes I C s := by
  induction p generalizing s with
  | ret | fail => trivial
  | clock k ih =>
    intro left s
    cases left with
    | true => exact ih true hp.2
    | false =>
      rw [hp.1]
      trivial
  | call q k ih =>
    refine ⟨hC q hp.1, fun r s => ?_⟩
    cases r with
    | ok a => exact ih (.ok a) (hp.2.2 a)
    | error e =>
      rw [hp.2.1 e]
      trivial
  | get | set | await | pause => exact hp.elim

/-- What the changes of a program and those of others keep up stays true wherever it stops. -/
theorem stops_of_makes {alters : σ → σ → Prop} {H : σ → Prop} (hp : p.Makes I C s)
    (hI : ∀ s t, I s t → H s → H t) (ha : ∀ s t, alters s t → H s → H t) (hs : H s)
    (hq : q.ComesTo p) :
    p.Stops alters (fun r t => q.ComesTo r ∧ H t) (fun _ => H) (fun _ => H) s := by
  induction p generalizing s with
  | ret | fail => exact hs
  | get k ih => exact ih s hp hs (hq.trans (.get s (.refl _)))
  | set t k ih => exact ih hp.2 (hI _ _ hp.1 hs) (hq.trans (.set (.refl _)))
  | await b ready k ih =>
    exact fun t ht => ⟨⟨hq, ha s t ht hs⟩, fun met =>
      ih met (hp met t) (ha s t ht hs) (hq.trans (.await met (.refl _)))⟩
  | clock k ih =>
    exact fun t ht => ⟨⟨hq, ha s t ht hs⟩, fun left =>
      ih left (hp left t) (ha s t ht hs) (hq.trans (.clock left (.refl _)))⟩
  | call c k ih =>
    exact fun t ht => ⟨⟨hq, ha s t ht hs⟩, fun r u hu =>
      ih r (hp.2 r u) (ha t u hu (ha s t ht hs)) (hq.trans (.call r (.refl _)))⟩
  | pause n k ih =>
    exact fun t ht => ⟨⟨hq, ha s t ht hs⟩,
      ih (hp t) (ha s t ht hs) (hq.trans (.pause (.refl _)))⟩

theorem stops_amid {alters : σ → σ → Prop} {H : σ → Prop} (hp : p.Makes I C s)
    (hI : ∀ s t, I s t → H s → H t) (ha : ∀ s t, alters s t → H s → H t) (hs : H s) :
    p.Stops alters (fun q t => q.Amid p ofExcept ∧ H t) (fun _ => H) (fun _ => H) s :=
  (stops_of_makes hp hI ha hs (.refl p)).mono
    (fun q _ hq h => ⟨⟨q, h.1, hq, (attempt_bind_ofExcept q).symm⟩, h.2⟩) (fun _ _ => id)
    fun _ _ => id

theorem Makes.advance (hp : p.Makes I C s) (hrefl : ∀ s, I s s)
    (htrans : ∀ {s t u}, I s t → I t u → I s u) :
    I s (p.advance s).2 ∧ ∀ t, (p.advance s).1.Makes I C t := by
  induction p generalizing s with
  | get k ih => exact ih s hp
  | set t k ih => exact ⟨htrans hp.1 (ih hp.2).1, (ih hp.2).2⟩
  | ret | fail | await | clock | call | pause => exact ⟨hrefl s, fun _ => hp⟩

end Makes

section Barred

/-- In states of some kind, the program makes no more appends, passes on the errors of calls, and
ends only as it should. -/
def Barred (M : σ → Prop) (K : α → Prop) (E : TableError → Prop) : Program σ α → Prop
  | .ret a => K a
  | .fail e => E e
  | .get k => ∀ s, M s → (k s).Barred M K E
  | .set _ k | .pause _ k => k.Barred M K E
  | .await _ _ k => ∀ met, (k met).Barred M K E
  | .clock k => ∀ left, (k left).Barred M K E
  | .call q k => ¬q.Appends ∧ (∀ a, (k (.ok a)).Barred M K E) ∧ ∀ e, (k (.error e)).Fails e

variable {M M' I : σ → Prop} {K K' : α → Prop} {E E' : TableError → Prop}

theorem Barred.mono (h : p.Barred M K E) (hM : ∀ s, M' s → M s) (hK : ∀ a, K a → K' a)
    (hE : ∀ e, E e → E' e) : p.Barred M' K' E' := by
  induction p with
  | ret a => exact hK a h
  | fail e => exact hE e h
  | get k ih => exact fun s hs => ih s (h s (hM s hs))
  | set s k ih => exact ih h
  | await b ready k ih => exact fun met => ih met (h met)
  | clock k ih => exact fun left => ih left (h left)
  | call q k ih => exact ⟨h.1, fun a => ih _ (h.2.1 a), h.2.2⟩
  | pause n k ih => exact ih h

theorem Fails.barred {e : TableError} (h : p.Fails e) (he : E e) : p.Barred M K E := by
  induction p with
  | fail e' =>
    obtain rfl : e' = e := h
    exact he
  | get k ih => exact fun s _ => ih s (h s)
  | set s k ih => exact ih h
  | ret | await | clock | call | pause => exact h.elim

theorem Barred.attempt_bind {K' : β → Prop} {f : Except TableError α → Program σ β}
    (h : p.Barred M K E) (hok : ∀ a, K a → (f (.ok a)).Barred M K' E) (hf : Passes f) :
    (p.attempt.bind f).Barred M K' E := by
  induction p with
  | ret a => exact hok a h
  | fail e => exact (hf e).barred h
  | get k ih => exact fun s hs => ih s (h s hs)
  | set s k ih => exact ih h
  | await b ready k ih => exact fun met => ih met (h met)
  | clock k ih => exact fun left => ih left (h left)
  | call q k ih => exact ⟨h.1, fun a => ih _ (h.2.1 a), fun e => (h.2.2 e).attempt_bind hf⟩
  | pause n k ih => exact ih h

theorem Barred.bind {K' : β → Prop} {f : α → Program σ β} (h : p.Barred M K E)
    (hf : ∀ a, K a → (f a).Barred M K' E) : (p >>= f).Barred M K' E := by
  change (p.bind f).Barred M K' E
  rw [bind_eq_attempt_bind]
  exact h.attempt_bind hf (passes_bind f)

theorem Barred.map {K' : β → Prop} (f : α → β) (h : p.Barred M K E) (hf : ∀ a, K a → K' (f a)) :
    (f <$> p).Barred M K' E :=
  h.bind (f := fun a => .ret (f a)) hf

theorem Barred.ensuring (h : p.Barred M K E) (f : σ → σ) :
    (p.ensuring (modify f)).Barred M K E :=
  h.attempt_bind (fun _ ha _ _ => ha) fun _ _ => rfl

theorem barred_ofExcept {r : Except TableError α} (hr : ∀ e, r = .error e → E e) :
    (ofExcept r : Program σ α).Barred M (fun _ => True) E := by
  cases r with
  | ok a => trivial
  | error e => exact hr e rfl

theorem barred_foldlM {γ : Type} {f : α → γ → Program σ α}
    (hf : ∀ a c, (f a c).Barred M (fun _ => True) E) (l : List γ) (a : α) :
    (l.foldlM f a).Barred M (fun _ => True) E := by
  induction l generalizing a with
  | nil => trivial
  | cons c l ih =>
    rw [List.foldlM_cons]
    exact (hf a c).bind fun a _ => ih a

theorem barred_ask {q : Call} (hq : ¬q.Appends) : (ask q).Barred M (fun _ => True) E :=
  ⟨hq, fun _ => trivial, fun _ => rfl⟩

theorem barred_checkTime (he : E .timeout) : checkTime.Barred M (fun _ => True) E := by
  intro left
  cases left with
  | true => trivial
  | false => exact he

theorem barred_request {q : Call} (hq : ¬q.Appends) (he : E .timeout) :
    (request q).Barred M (fun _ => True) E :=
  (barred_checkTime he).bind fun _ _ => barred_ask hq

theorem barred_waitUntil (he : E .timeout) (ready : σ → Bool) :
    (waitUntil ready).Barred M (fun _ => True) E := by
  intro met
  cases met with
  | true => trivial
  | false => exact he

theorem Fails.comesTo {e : TableError} (h : p.Fails e) (hq : p.ComesTo q) : q.Fails e := by
  induction hq with
  | refl => exact h
  | get s _ ih => exact ih (h s)
  | set _ ih => exact ih h
  | await | clock | call | pause => exact h.elim

/-- What is left of a program that is barred in every state is barred, or about to fail. -/
theorem Barred.comesTo (h : p.Barred (fun _ => True) K E) (hq : p.ComesTo q) :
    q.Barred (fun _ => True) K E ∨ ∃ e, q.Fails e := by
  induction hq with
  | refl => exact .inl h
  | get s _ ih => exact ih (h s trivial)
  | set _ ih => exact ih h
  | await met _ ih => exact ih (h met)
  | clock left _ ih => exact ih (h left)
  | @call c k q r hq ih =>
    cases r with
    | ok a => exact ih (h.2.1 a)
    | error e => exact .inr ⟨e, (h.2.2 e).comesTo hq⟩
  | pause _ ih => exact ih h

theorem not_fails_of_suspended {e : TableError} (h : p.Suspended) : ¬p.Fails e := by
  cases p with
  | ret | fail | get | set => exact h.elim
  | await | clock | call | pause => exact id

variable {J : σ → σ → Prop} {C : Call → Prop} {s : σ}

theorem Fails.advance {e : TableError} (h : p.Fails e) (s : σ) : (p.advance s).1.Fails e := by
  induction p generalizing s with
  | get k ih => exact ih s (h s) s
  | set t k ih => exact ih h t
  | fail => exact h
  | ret | await | clock | call | pause => exact h.elim

theorem Barred.resume (h : p.Barred M K E) (hq : p.Resumes q) : q.Barred M K E := by
  cases hq with
  | get | set | pause => exact h
  | await met => exact h met
  | clock left => exact h left

theorem Barred.advance (h : p.Barred M K E) (hp : p.Makes J C s) (hJ : ∀ s t, J s t → M s → M t)
    (hs : M s) : (p.advance s).1.Barred M K E := by
  induction p generalizing s with
  | get k ih => exact ih s (h s hs) hp hs
  | set t k ih => exact ih h hp.2 (hJ _ _ hp.1 hs)
  | ret | fail | await | clock | call | pause => exact h

theorem Fails.resume {e : TableError} (h : p.Fails e) (hq : p.Resumes q) : q.Fails e := by
  cases hq with
  | get | set => exact h
  | await | clock | pause => exact h.elim

theorem Fails.run {e : TableError} (h : p.Fails e) (hasTime : Bool) (c : Container) (s : σ) :
    (p.run hasTime c s).1 = .error e := by
  induction p generalizing s with
  | fail e' => exact congrArg Except.error h
  | get k ih => exact ih s (h s) s
  | set t k ih => exact ih h t
  | ret | await | clock | call | pause => exact h.elim

theorem Barred.run (h : p.Barred M (fun _ => False) E) (hp : p.Makes J C s)
    (hJ : ∀ s t, J s t → M s → M t) (hs : M s) (hasTime : Bool) (c : Container) :
    ∃ e, (p.run hasTime c s).1 = .error e := by
  induction p generalizing s c with
  | ret a => exact h.elim
  | fail e => exact ⟨e, rfl⟩
  | get k ih => exact ih s (h s hs) hp hs c
  | set t k ih => exact ih h hp.2 (hJ _ _ hp.1 hs) c
  | await b ready k ih => exact ih (ready s) (h _) (hp _ s) hs c
  | clock k ih => exact ih hasTime (h _) (hp _ s) hs c
  | call q k ih =>
    simp only [Program.run]
    cases hr : (c.perform q).2 with
    | ok a => exact ih (.ok a) (h.2.1 a) (hp.2 _ s) hs _
    | error e => exact ⟨e, (h.2.2 e).run hasTime _ s⟩
  | pause n k ih => exact ih h (hp s) hs c

end Barred

end Program
end KeyedLog
