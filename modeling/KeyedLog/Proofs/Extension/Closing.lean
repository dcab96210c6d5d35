import KeyedLog.Proofs.Deferred.Admission
import KeyedLog.Proofs.Extension.EntryStages
import KeyedLog.Proofs.LostAppend.Reflection

/-! Closing an extension is final, also for the operations that are in flight: only what was let in
before still appends, whoever is at the door fails, and nothing is tracked any more. -/
namespace KeyedLog

namespace Program

variable {σ α : Type}

/-- Is at some point of its way, or was there and has just got an answer. -/
def At (P : Program σ α → Prop) (p : Program σ α) : Prop :=
  P p ∨ ∃ q k r, P (.call q k) ∧ p = k r

/-- Was at some point of its way and has just been told of an error. -/
def Told (P : Program σ α → Prop) (p : Program σ α) (e : TableError) : Prop :=
  ∃ q k, P (.call q k) ∧ p = k (.error e)

theorem At.mono {P P' : Program σ α → Prop} {p : Program σ α} (h : p.At P)
    (hP : ∀ q, P q → P' q) : p.At P' :=
  h.imp (hP p) fun ⟨q, k, r, h, hp⟩ => ⟨q, k, r, hP _ h, hp⟩

end Program

open Program

namespace Tables

variable {t u v : Tables}

/-- How things are from the closing on, given how they were before. -/
structure Shut (t u : Tables) : Prop where
  closed : u.closed = true
  indexClosed : u.indexClosed = true
  untracked : ∀ segment : Nat, u.tracked[segment]? = none
  let_go : ∀ {segment ref : Nat}, t.tracked[segment]? = some ref →
    (u.state ref).watermark.closed = true

theorem Shut.lasts (h : t.Shut u) (hu : u.Lasts v) : t.Shut v where
  closed := hu.closed.trans h.closed
  indexClosed := hu.indexClosed.trans h.indexClosed
  untracked k := hu.untracked h.indexClosed (h.untracked k)
  let_go href := hu.let_go (h.let_go href)

/-- Whoever is at the door when it is shut gets no further. -/
theorem AtDoor.barred {config : Config} {α : Type} {p : Program Tables α}
    (h : AtDoor config t p) : p.Barred t.Shut (fun _ => False) config.Halts := by
  cases h with
  | locks hf h =>
    subst h
    exact (barred_withLocks.mono (fun _ h => h.indexClosed) (fun _ => id) fun _ => id).attempt_bind
      (fun _ h => h.elim) hf
  | admission href hf h =>
    obtain ⟨q, hq, hs, rfl⟩ := h
    exact ((barred_of_admission hq hs).mono (fun _ h => h.let_go href) (fun _ => id)
      fun _ => id).attempt_bind (fun _ h => h.elim) hf

end Tables

namespace Pool

section Step

variable {σ α : Type} {around : Surroundings σ} {y z : Pool σ α} {e : Event σ α}

/-- What a step does, and to whom. -/
theorem Step.inv (h : Step around y e z) :
    (∃ i p, e = .start i p ∧ y.threads i = none ∧ z = y.assign i (some p)) ∨
    (∃ i p q, e = .proceed i ∧ y.threads i = some p ∧ p.Resumes q ∧ z = y.goOn i q) ∨
    (∃ i q k fate, e = .call i q fate ∧ y.threads i = some (.call q k) ∧
      z = { y with container := (y.container.serve q fate).1 }.assign i
        (some (k (y.container.serve q fate).2))) ∨
    (∃ i r, e = .finish i r ∧ y.threads i = some (ofExcept r) ∧ z = y.assign i none) ∨
    ∃ s, e = .drift ∧ around.drifts y.state s ∧ z = { y with state := s } := by
  cases h with
  | @start i p hi => exact .inl ⟨i, p, rfl, hi, rfl⟩
  | @get i k hi => exact .inr (.inl ⟨i, _, _, rfl, hi, .get k, rfl⟩)
  | @set i s k hi => exact .inr (.inl ⟨i, _, _, rfl, hi, .set s k, rfl⟩)
  | @awaited i _ _ _ hi _ => exact .inr (.inl ⟨i, _, _, rfl, hi, .await true, rfl⟩)
  | @gaveUp i _ _ hi _ => exact .inr (.inl ⟨i, _, _, rfl, hi, .await false, rfl⟩)
  | @clock i _ hasTime hi => exact .inr (.inl ⟨i, _, _, rfl, hi, .clock hasTime, rfl⟩)
  | @pause i _ _ hi => exact .inr (.inl ⟨i, _, _, rfl, hi, .pause, rfl⟩)
  | @call i q k fate hi _ => exact .inr (.inr (.inl ⟨i, q, k, fate, rfl, hi, rfl⟩))
  | @returned i a hi => exact .inr (.inr (.inr (.inl ⟨i, .ok a, rfl, hi, rfl⟩)))
  | @failed i e hi => exact .inr (.inr (.inr (.inl ⟨i, .error e, rfl, hi, rfl⟩)))
  | @drift s hs => exact .inr (.inr (.inr (.inr ⟨s, rfl, hs, rfl⟩)))

theorem Step.finished {i : Nat} {r : Except TableError α} (h : Step around y (.finish i r) z) :
    z.threads i = none := by
  cases h <;> exact if_pos rfl

end Step

variable {config : Config} {y z : Pool Tables (Option Reply)}
  {e : Event Tables (Option Reply)} {es fs : List (Event Tables (Option Reply))}

def Event.OfRequest (config : Config) : Event Tables (Option Reply) → Prop
  | .start _ p => ∃ r : Request, p = r.program config
  | _ => True

/-- Runs in which the state of a segment is dropped only if nobody else is at work. -/
inductive Undisturbed : Pool Tables (Option Reply) → List (Event Tables (Option Reply)) →
    Pool Tables (Option Reply) → Prop
  | refl (y : Pool Tables (Option Reply)) : Undisturbed y [] y
  | head {y z w : Pool Tables (Option Reply)} {e : Event Tables (Option Reply)}
      {es : List (Event Tables (Option Reply))} (h : Step treacherous y e z)
      (hk : y.state.Retains z.state ∨ ∀ i, e.actor ≠ some i → y.threads i = none)
      (hs : Undisturbed z es w) : Undisturbed y (e :: es) w

def Serves (config : Config) (es : List (Event Tables (Option Reply))) (i : Nat) (r : Request) :
    Prop :=
  ∃ as bs, es = as ++ .start i (r.program config) :: bs ∧ ∀ o, .finish i o ∉ bs

theorem serves_start (config : Config) (es : List (Event Tables (Option Reply))) (i : Nat)
    (r : Request) : Serves config (es ++ [.start i (r.program config)]) i r :=
  ⟨es, [], rfl, fun o ho => by cases ho⟩

theorem Serves.snoc {i : Nat} {r : Request} (h : Serves config es i r)
    (he : ∀ o, e ≠ .finish i o) : Serves config (es ++ [e]) i r := by
  obtain ⟨as, bs, rfl, hno⟩ := h
  refine ⟨as, bs ++ [e], by simp, fun o ho => ?_⟩
  rcases List.mem_append.1 ho with ho | ho
  · exact hno o ho
  · exact he o (List.mem_singleton.1 ho).symm

theorem Serves.of_snoc {i : Nat} {r : Request} (h : Serves config (es ++ [e]) i r) :
    e = .start i (r.program config) ∨ Serves config es i r ∧ ∀ o, e ≠ .finish i o := by
  obtain ⟨as, bs, heq, hno⟩ := h
  rcases List.eq_nil_or_concat bs with rfl | ⟨bs, e', rfl⟩
  · exact .inl (List.singleton_inj.1 (List.append_inj' heq rfl).2)
  · rw [List.concat_eq_append] at heq hno
    rw [← List.cons_append, ← List.append_assoc] at heq
    obtain ⟨rfl, he⟩ := List.append_inj' heq rfl
    obtain rfl := List.singleton_inj.1 he
    refine .inr ⟨⟨as, bs, rfl, fun o ho => hno o (List.mem_append_left _ ho)⟩, fun o ho => ?_⟩
    exact hno o (List.mem_append_right _ (List.mem_singleton.2 ho.symm))

structure Poised (config : Config) (r : Request) (t : Tables)
    (p : Program Tables (Option Reply)) : Prop where
  makes : ∀ u, p.Makes Tables.Lasts (fun q => r.Reads → Tables.Unwritten q) u
  stands : r.OnTable → ∀ u, t.Retains u → Tables.Stationed config r.Reads p u
  at_last : r.OnTable →
    p = r.program config ∨ p.Over ∨ p.At (Tables.Standing config r.Reads t)

variable {r : Request} {t u : Tables} {p q : Program Tables (Option Reply)}

theorem poised_program (config : Config) (r : Request) (t : Tables) :
    Poised config r t (r.program config) where
  makes _ := r.makes
  stands hr u _ := r.stands config u hr
  at_last _ := .inl rfl

theorem Poised.retains (h : Poised config r t p) (ht : t.Retains u) : Poised config r u p where
  makes := h.makes
  stands hr v hv := h.stands hr v (ht.trans hv)
  at_last hr := by
    rcases h.at_last hr with hp | hp | hp
    · exact .inl hp
    · exact .inr (.inl hp)
    · exact .inr (.inr (hp.mono fun _ h => h.retains ht))

theorem Poised.goOn (h : Poised config r t p) (hq : p.Resumes q) :
    t.Lasts (q.advance t).2 ∧ Poised config r (q.advance t).2 (q.advance t).1 := by
  obtain ⟨hlasts, hmakes⟩ := (Makes.resume h.makes hq t).advance .refl .trans
  have hstop := suspended_or_over_advance q t
  have hstands (hr : r.OnTable) : Tables.Stationed config r.Reads (q.advance t).1 (q.advance t).2 :=
    ((h.stands hr t (.refl t)).resume hq).advance
  refine ⟨hlasts, hmakes, fun hr u hu => (hstands hr).retains hstop hu, fun hr => ?_⟩
  rcases hstop with hs | ho
  · exact .inr (.inr (.inl ((hstands hr).standing hs)))
  · exact .inr (.inl ho)

theorem Poised.answered {c : Call} {k : Except TableError c.Answer → Program Tables (Option Reply)}
    (h : Poised config r t (.call c k)) (a : Except TableError c.Answer) :
    Poised config r t (k a) where
  makes u := (h.makes u).2 a u
  stands hr u hu := (h.stands hr t (.refl t) t (.refl t)).2 a u hu
  at_last hr := .inr (.inr (.inr ⟨c, k, a, (h.stands hr t (.refl t) t (.refl t)).1, rfl⟩))

/-- How an extension is that was not closed yet. -/
structure Course (config : Config) (es : List (Event Tables (Option Reply)))
    (y : Pool Tables (Option Reply)) : Prop where
  opened : y.state.closed = false
  indexOpened : y.state.indexClosed = false
  placed : y.state.Placed
  threads : ∀ {i}, (y.threads i).isSome → ∃ r, Serves config es i r
  serves : ∀ {i r}, Serves config es i r →
    ∃ p, y.threads i = some p ∧ Poised config r y.state p

theorem Course.poised (h : Course config es y) {i : Nat} (hr : Serves config es i r)
    (hi : y.threads i = some p) : Poised config r y.state p := by
  obtain ⟨p', hi', hp⟩ := h.serves hr
  obtain rfl := Option.some.inj (hi.symm.trans hi')
  exact hp

theorem Course.exists_poised (h : Course config es y) {i : Nat} (hi : y.threads i = some p) :
    ∃ r, Poised config r y.state p := by
  obtain ⟨r, hr⟩ := h.threads (by rw [hi]; rfl)
  exact ⟨r, h.poised hr hi⟩

/-- What a step does to the state of a thread, and to the thread itself. -/
theorem Course.keeps (h : Course config es y) (hstep : Step treacherous y e z) :
    y.state.Lasts z.state ∧ ∀ {i r}, Serves config es i r → (∀ o, e ≠ .finish i o) →
      (y.state.Retains z.state ∨ ∀ i, e.actor ≠ some i → y.threads i = none) →
      ∃ p, z.threads i = some p ∧ Poised config r z.state p := by
  have hother {i j : Nat} {r : Request} {x : Option (Program Tables (Option Reply))}
      (ha : e.actor = some j) (hr : Serves config es i r)
      (hk : y.state.Retains z.state ∨ ∀ i, e.actor ≠ some i → y.threads i = none)
      (hx : i = j → ∃ p, x = some p ∧ Poised config r z.state p) :
      ∃ p, (if i = j then x else y.threads i) = some p ∧ Poised config r z.state p := by
    split
    · next hij => exact hx hij
    · next hij =>
      obtain ⟨p, hi, hp⟩ := h.serves hr
      rcases hk with hk | hk
      · exact ⟨p, hi, hp.retains hk⟩
      · rw [hk i fun hi => hij (Option.some.inj (hi.symm.trans ha))] at hi
        cases hi
  rcases hstep.inv with ⟨j, q, rfl, hj, rfl⟩ | ⟨j, p, q, rfl, hj, hq, rfl⟩ |
    ⟨j, q, k, fate, rfl, hj, rfl⟩ | ⟨j, o, rfl, hj, rfl⟩ | ⟨s, rfl, ⟨b, rfl⟩, rfl⟩
  · refine ⟨.refl _, fun hr _ hk => hother rfl hr hk fun hij => ?_⟩
    obtain ⟨p, hi, -⟩ := h.serves hr
    rw [hij, hj] at hi
    cases hi
  · obtain ⟨r', hp⟩ := h.exists_poised hj
    refine ⟨(hp.goOn hq).1, fun hr _ hk => hother rfl hr hk fun hij => ⟨_, rfl, ?_⟩⟩
    exact ((h.poised (hij ▸ hr) hj).goOn hq).2
  · refine ⟨.refl _, fun hr _ hk => hother rfl hr hk fun hij => ⟨_, rfl, ?_⟩⟩
    exact (h.poised (hij ▸ hr) hj).answered _
  · refine ⟨.refl _, fun hr hno hk => hother rfl hr hk fun hij => ?_⟩
    exact absurd (congrArg (Event.finish · o) hij.symm) (hno o)
  · refine ⟨(Tables.stays_cache _ _).lasts, fun hr _ _ => ?_⟩
    obtain ⟨p, hi, hp⟩ := h.serves hr
    exact ⟨p, hi, hp.retains fun _ _ => id⟩

/-- One step more. -/
theorem Course.step (h : Course config es y) (hstep : Step treacherous y e z)
    (he : e.OfRequest config)
    (hk : y.state.Retains z.state ∨ ∀ i, e.actor ≠ some i → y.threads i = none) :
    Course config (es ++ [e]) z := by
  obtain ⟨hlasts, hkeeps⟩ := h.keeps hstep
  refine ⟨hlasts.closed.trans h.opened, hlasts.indexClosed.trans h.indexOpened,
    hlasts.placed h.placed, fun {i} hi => ?_, fun {i r} hr => ?_⟩
  · by_cases hstart : ∃ p, e = .start i p
    · obtain ⟨p, rfl⟩ := hstart
      obtain ⟨r, rfl⟩ := he
      exact ⟨r, serves_start config es i r⟩
    · cases hy : y.threads i with
      | none =>
        rw [hstep.idle hy fun p hp => hstart ⟨p, hp⟩] at hi
        cases hi
      | some p =>
        obtain ⟨r, hr⟩ := h.threads (by rw [hy]; rfl)
        refine ⟨r, hr.snoc fun o ho => ?_⟩
        subst ho
        rw [hstep.finished] at hi
        cases hi
  · rcases hr.of_snoc with rfl | ⟨hr, hno⟩
    · cases hstep
      exact ⟨_, if_pos rfl, poised_program config r _⟩
    · exact hkeeps hr hno hk

theorem Undisturbed.course {hs : List (Event Tables (Option Reply))} (h : Undisturbed y es z)
    (hes : ∀ e ∈ es, e.OfRequest config) (hy : Course config hs y) :
    Course config (hs ++ es) z := by
  induction h generalizing hs with
  | refl => exact (List.append_nil hs).symm ▸ hy
  | @head y z w e es hstep hk _ ih =>
    obtain ⟨he, hes⟩ := List.forall_mem_cons.1 hes
    have hnext := ih hes (hy.step hstep he hk)
    rwa [List.append_assoc] at hnext

structure Aftermath (t : Tables) (z : Pool Tables (Option Reply)) : Prop where
  shut : t.Shut z.state
  makes : ∀ {i p}, z.threads i = some p → ∀ u, p.Makes Tables.Lasts (fun _ => True) u

theorem Aftermath.step (h : Aftermath t y) (hstep : Step treacherous y e z)
    (he : e.OfRequest config) : Aftermath t z := by
  have hthreads {i j : Nat} {x : Option (Program Tables (Option Reply))}
      {p : Program Tables (Option Reply)}
      (hx : x = some p → ∀ u, p.Makes Tables.Lasts (fun _ => True) u)
      (hj : (if j = i then x else y.threads j) = some p) (u : Tables) :
      p.Makes Tables.Lasts (fun _ => True) u := by
    split at hj
    · exact hx hj u
    · exact h.makes hj u
  rcases hstep.inv with ⟨i, p, rfl, hi, rfl⟩ | ⟨i, p, q, rfl, hi, hq, rfl⟩ |
    ⟨i, q, k, fate, rfl, hi, rfl⟩ | ⟨i, o, rfl, hi, rfl⟩ | ⟨s, rfl, hs, rfl⟩
  · obtain ⟨r, rfl⟩ := he
    refine ⟨h.shut, hthreads fun hp u => ?_⟩
    obtain rfl := Option.some.inj hp
    exact r.makes.mono (fun _ _ => id) fun _ _ => trivial
  · obtain ⟨hlasts, hnext⟩ := (Makes.resume (h.makes hi) hq y.state).advance .refl .trans
    refine ⟨h.shut.lasts hlasts, hthreads fun hp => ?_⟩
    obtain rfl := Option.some.inj hp
    exact hnext
  · refine ⟨h.shut, hthreads fun hp u => ?_⟩
    obtain rfl := Option.some.inj hp
    exact (h.makes hi u).2 _ u
  · exact ⟨h.shut, hthreads fun hp => (by cases hp)⟩
  · obtain ⟨b, rfl⟩ := hs
    exact ⟨h.shut.lasts (Tables.stays_cache _ _).lasts, h.makes⟩

def Quiet (t : Tables) (p : Program Tables (Option Reply)) : Prop :=
  p.Barred t.Shut (fun _ => True) (fun _ => True) ∨
    ∀ u, p.Makes Tables.Lasts Tables.Unwritten u

theorem Quiet.answered {c : Call} {k : Except TableError c.Answer → Program Tables (Option Reply)}
    (h : Quiet t (.call c k)) (a : Except TableError c.Answer) : Quiet t (k a) := by
  rcases h with h | h
  · cases a with
    | ok a => exact .inl (h.2.1 a)
    | error e => exact .inl ((h.2.2 e).barred trivial)
  · exact .inr fun u => (h u).2 a u

theorem quiet_program (config : Config) (t : Tables) (r : Request) :
    Quiet t (r.program config) := by
  by_cases hr : r.Reads
  · exact .inr fun u => r.makes.mono (fun _ _ => id) fun _ h => h hr
  · exact .inl ((r.barred hr).mono (fun _ h => h.closed) (fun _ => id) fun _ => id)

/-- Whoever is quiet remains so, and so is whoever comes after. -/
theorem Aftermath.quiet (h : Aftermath t y) {i : Nat} (hstep : Step treacherous y e z)
    (he : e.OfRequest config) (hi : ∀ p, y.threads i = some p → Quiet t p) :
    (∀ segment data fate, e ≠ .call i (.append segment data) fate) ∧
      ∀ p, z.threads i = some p → Quiet t p := by
  have hthreads {j : Nat} {x : Option (Program Tables (Option Reply))}
      (hx : j = i → ∀ p, x = some p → Quiet t p) (p : Program Tables (Option Reply))
      (hp : (if i = j then x else y.threads i) = some p) : Quiet t p := by
    split at hp
    · next hji => exact hx hji.symm p hp
    · exact hi p hp
  rcases hstep.inv with ⟨j, p, rfl, hj, rfl⟩ | ⟨j, p, q, rfl, hj, hq, rfl⟩ |
    ⟨j, q, k, fate, rfl, hj, rfl⟩ | ⟨j, o, rfl, hj, rfl⟩ | ⟨s, rfl, hs, rfl⟩
  · obtain ⟨r, rfl⟩ := he
    refine ⟨fun _ _ _ => by simp, hthreads fun hji p hp => ?_⟩
    obtain rfl := Option.some.inj hp
    exact quiet_program config t r
  · refine ⟨fun _ _ _ => by simp, hthreads fun hji p' hp => ?_⟩
    obtain rfl := Option.some.inj hp
    rcases hi p (hji ▸ hj) with hp | hp
    · exact .inl ((hp.resume hq).advance (Makes.resume (h.makes hj) hq y.state)
        (fun _ _ hlasts hs => hs.lasts hlasts) h.shut)
    · exact .inr (Makes.advance (Makes.resume hp hq y.state) .refl .trans).2
  · constructor
    · intro segment data fate' heq
      obtain ⟨rfl, rfl, rfl⟩ := Event.call.inj heq
      rcases hi _ hj with hq | hq
      · exact hq.1 trivial
      · exact (hq y.state).1 trivial
    · refine hthreads fun hji p hp => ?_
      obtain rfl := Option.some.inj hp
      exact (hi _ (hji ▸ hj)).answered _
  · exact ⟨fun _ _ _ => by simp, hthreads fun _ p hp => (by cases hp)⟩
  · exact ⟨fun _ _ _ => by simp, hi⟩

def Answered (y : Pool Tables (Option Reply)) (es : List (Event Tables (Option Reply))) (i : Nat)
    (error : TableError) : Prop :=
  ∃ as q fate bs u, es = as ++ .call i q fate :: bs ∧ Steps treacherous y as u ∧
    (u.container.serve q fate).2 = .error error

theorem Answered.cons {i : Nat} {error : TableError} (h : Answered z es i error)
    (hstep : Step treacherous y e z) : Answered y (e :: es) i error := by
  obtain ⟨as, q, fate, bs, u, rfl, hs, herror⟩ := h
  exact ⟨e :: as, q, fate, bs, u, rfl, .head hstep hs, herror⟩

/-- Will fail and append nothing, or fails right now for some reason. -/
def Doomed (config : Config) (t : Tables) (T : TableError → Prop)
    (p : Program Tables (Option Reply)) : Prop :=
  p.Barred t.Shut (fun _ => False) config.Halts ∨ ∃ error, T error ∧ p.Fails error

theorem Doomed.quiet {T : TableError → Prop} (h : Doomed config t T p) : Quiet t p := by
  rcases h with h | ⟨error, -, h⟩
  · exact .inl (h.mono (fun _ => id) (fun _ _ => trivial) fun _ _ => trivial)
  · exact .inl (h.barred trivial)

theorem Doomed.mono {T T' : TableError → Prop} (h : Doomed config t T p)
    (hT : ∀ error, T error → T' error) : Doomed config t T' p :=
  h.imp_right fun ⟨error, herror, h⟩ => ⟨error, hT error herror, h⟩

def shut (y : Pool Tables (Option Reply)) : Pool Tables (Option Reply) :=
  { y with state := y.state.close }

theorem ofRequest_of_play {ts : List (Turn (Option Reply))}
    (hts : ∀ i p, Turn.start i p ∈ ts → ∃ r : Request, p = r.program config) (y) :
    ∀ e ∈ (play ts y).1, e.OfRequest config := by
  intro e he
  cases e with
  | start i p => exact hts i p ((steps_play ts y).2 i p he)
  | proceed | call | finish | drift => trivial

end Pool

namespace Pool

end Pool
end KeyedLog
