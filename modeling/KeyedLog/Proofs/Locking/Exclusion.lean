import KeyedLog.Proofs.Extension.Isolation
import KeyedLog.Proofs.Locking.Nesting

/-! Exclusion: updates of a segment that share a hash are amid their work one at a time, and no
others keep each other out. -/
namespace KeyedLog

namespace Program

variable {α β : Type} {p : Program Tables β} {body : Program Tables α}
  {f : Except TableError α → Program Tables β} {bs : List Bucket}

/-- On its way through a program that runs while some buckets are locked. -/
def Holding (p : Program Tables β) (bs : List Bucket) (body : Program Tables α)
    (f : Except TableError α → Program Tables β) : Prop :=
  ∃ q, body.Reaches q ∧ p = q.attempt.bind fun o => (unlock bs).bind fun _ => f o

def holding (bs : List Bucket) (body : Program Tables α)
    (f : Except TableError α → Program Tables β) : Program Tables β :=
  body.attempt.bind fun o => (unlock bs).bind fun _ => f o

theorem withLocks_attempt_bind (bs : List Bucket) (body : Program Tables α)
    (f : Except TableError α → Program Tables β) :
    (Tables.withLocks bs body).attempt.bind f =
      .await true (fun t => t.locks.free bs) fun met =>
        if met then
          .get fun t => .set { t with locks := t.locks.take bs } (holding bs body f)
        else f (.error .timeout) := by
  have hensuring : (body.ensuring (unlock bs)).attempt.bind f = holding bs body f := by
    change (body.attempt.bind fun o => (unlock bs).bind fun _ => ofExcept o).attempt.bind f = _
    rw [attempt_bind_attempt]
    refine (bind_assoc ..).trans (congrArg body.attempt.bind (funext fun o => ?_))
    cases o <;> rfl
  refine congrArg (Program.await true _) (funext fun met => ?_)
  cases met with
  | true => exact congrArg Program.get (funext fun t => congrArg (Program.set _) hensuring)
  | false => rfl

theorem Reaches.of_unlock {f : Program Tables β} (h : ((unlock bs).bind fun _ => f).Reaches p) :
    p = (unlock bs).bind (fun _ => f) ∨ f.Reaches p := by
  cases h with
  | refl => exact .inl rfl
  | goOn hp h =>
    cases hp
    exact .inr ((reaches_advance f _).trans h)

theorem Reaches.of_holding (h : (holding bs body f).Reaches p) :
    p.Holding bs body f ∨ ∃ o, body.Reaches (ofExcept o) ∧ (f o).Reaches p := by
  rcases h.of_attempt_bind with h | ⟨o, ho, h⟩
  · exact .inl h
  rcases h.of_unlock with rfl | h
  · refine .inl ⟨ofExcept o, ho, ?_⟩
    rw [attempt_ofExcept_bind]
  · exact .inr ⟨o, ho, h⟩

/-- Whoever is to lock some buckets waits, or has locked them, or is past all that. -/
theorem Reaches.of_withLocks (h : ((Tables.withLocks bs body).attempt.bind f).Reaches p) :
    p = (Tables.withLocks bs body).attempt.bind f ∨ p.Holding bs body f ∨
      ∃ o, (f o).Reaches p := by
  rw [withLocks_attempt_bind] at h ⊢
  cases h with
  | refl => exact .inl rfl
  | @goOn _ _ _ s hp h =>
    cases hp with
    | await met hm hb =>
      refine .inr ?_
      cases met with
      | true =>
        let u : Tables := { s with locks := s.locks.take bs }
        have hholding : (holding bs body f).Reaches p := (reaches_advance _ u).trans h
        exact hholding.of_holding.imp_right fun ⟨o, _, hf⟩ => ⟨o, hf⟩
      | false => exact .inr ⟨_, (reaches_advance (f (.error .timeout)) s).trans h⟩

/-- What is left of a program after a step of a pool that does not take it away. -/
inductive Proceeds : Program Tables β → Program Tables β → Prop
  | rest (p : Program Tables β) : Proceeds p p
  | goOn {p q : Program Tables β} {t : Tables} (h : p.Goes t q) : Proceeds p (q.advance t).1
  | answered {c : Call} {k : Except TableError c.Answer → Program Tables β}
      (answer : Except TableError c.Answer) : Proceeds (.call c k) (k answer)

theorem Proceeds.reaches {q : Program Tables β} (h : p.Proceeds q) : p.Reaches q := by
  cases h with
  | rest => exact .refl p
  | goOn h => exact .goOn h (.refl _)
  | answered answer => exact .answered answer (.refl _)

theorem Reaches.eq_ofExcept {o : Except TableError β}
    (h : (ofExcept o : Program Tables β).Reaches p) : p = ofExcept o := by
  cases o with
  | ok a =>
    cases h with
    | refl => rfl
    | goOn hp => cases hp
  | error e =>
    cases h with
    | refl => rfl
    | goOn hp => cases hp

end Program

namespace Tables

open Program

variable {α β : Type} {config : Config} {segment : Nat} {batch : Batch}
  {commit : Program Tables Nat} {b : Bucket} {t : Tables}

theorem mem_bucketsOf :
    b ∈ bucketsOf segment batch ↔ b.segment = segment ∧ b.hash ∈ batch.hashes := by
  unfold bucketsOf
  rw [List.mem_map]
  constructor
  · rintro ⟨h, hh, rfl⟩
    exact ⟨rfl, hh⟩
  · rintro ⟨rfl, hh⟩
    exact ⟨b.hash, hh, rfl⟩

theorem update_attempt_bind (config : Config) (segment : Nat) (batch : Batch)
    (commit : Program Tables Nat) (f : Except TableError Nat → Program Tables α) :
    (update config segment batch commit).attempt.bind f = .get fun t =>
      if t.indexClosed then f (.error .closed)
      else (withLocks (bucketsOf segment batch)
        (guarded config segment batch commit)).attempt.bind f := by
  refine congrArg Program.get (funext fun t => ?_)
  change (((ite _ _ _ : Program Tables Unit).bind _).attempt.bind f) = _
  split <;> rfl

/-- Programs that touch no locks but by updates. What an update commits may be any of them. -/
inductive Orderly (config : Config) : {α : Type} → Program Tables α → Prop
  | plain {α : Type} {p : Program Tables α} (h : ∀ t, p.Makes Unlocking (fun _ => True) t) :
      Orderly config p
  | attempt_bind {α β : Type} {p : Program Tables α} {f : Except TableError α → Program Tables β}
      (hp : Orderly config p) (hf : ∀ o, Orderly config (f o)) :
      Orderly config (p.attempt.bind f)
  | locked {segment : Nat} {batch : Batch} {commit : Program Tables Nat}
      (h : Orderly config (guarded config segment batch commit)) :
      Orderly config (withLocks (bucketsOf segment batch) (guarded config segment batch commit))

section Orderly

variable {p : Program Tables α}

theorem Orderly.bind {f : α → Program Tables β} (hp : Orderly config p)
    (hf : ∀ a, Orderly config (f a)) : Orderly config (p >>= f) := by
  change Orderly config (p.bind f)
  rw [bind_eq_attempt_bind]
  refine hp.attempt_bind fun o => ?_
  cases o with
  | ok a => exact hf a
  | error e => exact .plain fun _ => trivial

theorem Orderly.map (f : α → β) (hp : Orderly config p) : Orderly config (f <$> p) :=
  hp.bind (f := fun a => .ret (f a)) fun _ => .plain fun _ => trivial

theorem orderly_guarded (hc : Orderly config commit) :
    Orderly config (guarded config segment batch commit) := by
  have hmild := usual_unlocking.toMild
  have hplain {γ : Type} {p : Program Tables γ} (hp : ∀ t, p.Makes Unlocking Unwritten t) :
      Orderly config p := .plain fun t => (hp t).mono (fun _ _ => id) fun _ _ => trivial
  unfold guarded linking
  refine (hplain fun _ => makes_access usual_unlocking).bind fun ref => ?_
  refine (hplain fun _ => makes_headsWith hmild _).bind fun heads => hc.bind fun x => ?_
  refine Orderly.bind (hplain fun _ => makes_modify fun t => ?_) fun _ => ?_
  · exact hmild.trans (hmild.modifyState t ref id) (hmild.cache _ _)
  split
  · exact (hplain fun _ => makes_persist hmild _).bind fun _ => .plain fun _ => trivial
  · exact .plain fun _ => trivial

theorem orderly_update (hc : Orderly config commit) :
    Orderly config (update config segment batch commit) :=
  (Orderly.plain fun _ => makes_checkIndex).bind fun _ => .locked (orderly_guarded hc)

theorem orderly_write (name : String) (kind : RecordKind) (rs : List Record) :
    Orderly config (write config name kind rs) := by
  have hrequest (q : Call) : Orderly config (request q : Program Tables q.Answer) :=
    .plain fun _ => makes_request trivial
  unfold write
  refine (Orderly.plain fun _ => makes_checkOpen).bind fun _ =>
    (hrequest (.resolve name)).bind fun segment => ?_
  split
  · exact .plain fun _ => trivial
  refine (Orderly.plain fun _ => makes_ofExcept _).bind fun batch => ?_
  exact (orderly_update (hrequest _)).bind fun _ => .plain fun _ => trivial

theorem Orderly.nested (h : Orderly config p) : p.Nested := by
  induction h with
  | plain h => exact nested_of_makes h
  | attempt_bind _ _ ihp ihf => exact fun gs t => (ihp gs t).attempt_bind fun o t => ihf o gs t
  | locked _ ih => exact nested_withLocks ih

end Orderly

/-- Amid an update that has locked its buckets, from before the heads are read until all is done.
Something else follows it. -/
def UpdatingWith (config : Config) (segment : Nat) (batch : Batch) (commit : Program Tables Nat)
    (f : Except TableError Nat → Program Tables α) (p : Program Tables α) : Prop :=
  Orderly config (guarded config segment batch commit) ∧
    p.Holding (bucketsOf segment batch) (guarded config segment batch commit) f

/-- The same, whatever the update commits and whatever follows it. -/
def Updating (config : Config) (segment : Nat) (batch : Batch) (p : Program Tables α) : Prop :=
  ∃ commit f, UpdatingWith config segment batch commit f p

/-- Where an update stands on its way, if something else follows it: before it, about to lock its
buckets, amid what it locks them for, or past it. It gets past them only if it has had the locks, or
was refused them. -/
inductive UpdateStage (config : Config) (segment : Nat) (batch : Batch)
    (commit : Program Tables Nat) (f : Except TableError Nat → Program Tables α) (met : Prop) :
    Program Tables α → Prop
  | begins : UpdateStage config segment batch commit f met
      ((update config segment batch commit).attempt.bind f)
  | waits : UpdateStage config segment batch commit f met
      ((withLocks (bucketsOf segment batch)
        (guarded config segment batch commit)).attempt.bind f)
  | locked {p : Program Tables α} (h : UpdatingWith config segment batch commit f p) :
      UpdateStage config segment batch commit f met p
  | refused {p : Program Tables α} {e : TableError} (he : e = .closed ∨ e = .timeout)
      (h : (f (.error e)).Reaches p) : UpdateStage config segment batch commit f met p
  | left {p : Program Tables α} (hmet : met) (outcome : Except TableError Nat)
      (h : (f outcome).Reaches p) : UpdateStage config segment batch commit f met p

section UpdateStage

variable {met met' : Prop} {p q : Program Tables α} {f : Except TableError Nat → Program Tables α}

theorem UpdateStage.mono (h : UpdateStage config segment batch commit f met p)
    (hmet : met → met') : UpdateStage config segment batch commit f met' p := by
  cases h with
  | begins => exact .begins
  | waits => exact .waits
  | locked h => exact .locked h
  | refused he h => exact .refused he h
  | left hm o h => exact .left (hmet hm) o h

/-- Whoever gets the locks stops before it gives them back, unless the index is closed. -/
theorem suspended_advance_guarded (h : t.indexClosed = false) :
    ((guarded config segment batch commit).advance t).1.Suspended := by
  unfold guarded
  rw [access_eq]
  change (((((ite t.indexClosed _ _ : Program Tables Unit).bind _).bind _)).advance t).1.Suspended
  rw [h]
  change ((((admission config segment (t.track segment).2
    ((t.track segment).1.state
      (t.track segment).2).recovered).bind _).bind _).advance _).1.Suspended
  cases ((t.track segment).1.state (t.track segment).2).recovered with
  | some length => trivial
  | none => trivial

/-- Once the locks are taken, the update is amid what they are for, unless the index is closed. -/
theorem holding_guarded_or_closed (hp : ((holding (bucketsOf segment batch)
      (guarded config segment batch commit) f).advance t).1 = p) :
    p.Holding (bucketsOf segment batch) (guarded config segment batch commit) f ∨
      (f (.error .closed)).Reaches p := by
  unfold holding at hp
  rw [advance_attempt_bind] at hp
  cases hclosed : t.indexClosed with
  | true =>
    have hfails : (guarded config segment batch commit).advance t = (.fail .closed, t) := by
      change (((ite t.indexClosed _ _ : Program Tables Unit).bind _).bind _).advance t = _
      rw [hclosed]
      rfl
    rw [hfails] at hp
    subst hp
    exact .inr (reaches_advance (f (.error .closed))
      { t with locks := t.locks.release (bucketsOf segment batch) })
  | false =>
    have hstops : ((guarded config segment batch commit).advance t).1.Suspended :=
      suspended_advance_guarded hclosed
    refine .inl ⟨_, reaches_advance _ t, ?_⟩
    subst hp
    cases hq : ((guarded config segment batch commit).advance t).1 with
    | await | clock | call | pause => rfl
    | ret | fail | get | set => exact (hq ▸ hstops).elim

theorem UpdateStage.proceeds (h : UpdateStage config segment batch commit f met p)
    (hc : Orderly config commit) (hq : p.Proceeds q) :
    UpdateStage config segment batch commit f
      (met ∨ UpdatingWith config segment batch commit f p) q := by
  cases h with
  | begins =>
    have hbegins := update_attempt_bind config segment batch commit f
    rw [hbegins] at hq
    cases hq with
    | rest => exact hbegins ▸ .begins
    | @goOn _ _ s hp =>
      cases hp
      change UpdateStage _ _ _ _ _ _
        ((ite (s.indexClosed = true) _ _ : Program Tables α).advance s).1
      split
      · exact .refused (.inl rfl) (reaches_advance _ s)
      · exact .waits
  | waits =>
    have hwaits := withLocks_attempt_bind (bucketsOf segment batch)
      (guarded config segment batch commit) f
    rw [hwaits] at hq
    cases hq with
    | rest => exact hwaits ▸ .waits
    | @goOn _ _ s hp =>
      cases hp with
      | await met hm hb =>
        cases met with
        | true =>
          rcases holding_guarded_or_closed rfl with hq | hq
          · exact .locked ⟨orderly_guarded hc, hq⟩
          · exact .refused (.inl rfl) hq
        | false => exact .refused (.inr rfl) (reaches_advance _ s)
  | locked h =>
    obtain ⟨hguarded, x, hx, rfl⟩ := id h
    have hq : (holding (bucketsOf segment batch) x f).Reaches q := hq.reaches
    rcases hq.of_holding with ⟨x', hx', rfl⟩ | ⟨o, -, hq⟩
    · exact .locked ⟨hguarded, x', hx.trans hx', rfl⟩
    · exact .left (.inr h) o hq
  | refused he h => exact .refused he (h.trans hq.reaches)
  | left hm o h => exact .left (.inl hm) o (h.trans hq.reaches)

end UpdateStage

theorem Updating.attempt_bind {p : Program Tables α} (h : Updating config segment batch p)
    (g : Except TableError α → Program Tables β) :
    Updating config segment batch (p.attempt.bind g) := by
  obtain ⟨commit, f, hc, q, hq, rfl⟩ := h
  refine ⟨commit, fun o => (f o).attempt.bind g, hc, q, hq, ?_⟩
  rw [attempt_bind_attempt]
  exact bind_assoc ..

/-- Whatever is locked by a program that is orderly is locked by an update that it is amid. -/
theorem Orderly.exists_updating {p x : Program Tables α} (h : Orderly config p) (hx : p.Reaches x)
    (hb : t.locks.held.contains b = true) (ho : x.Owes b t) :
    ∃ segment batch, Updating config segment batch x ∧ b ∈ bucketsOf segment batch := by
  have hfree {γ : Type} {p : Program Tables γ} (hp : p.Nested) : ¬p.Owes b t :=
    (hp [] t).not_owes (by simp) hb
  induction h with
  | plain h => exact absurd ho (hfree (nested_of_makes (Makes.reaches h hx)))
  | @attempt_bind _ _ p f hp hf ihp ihf =>
    rcases hx.of_attempt_bind with ⟨q, hq, rfl⟩ | ⟨o, -, hx⟩
    · obtain ⟨gs, hgs⟩ := Nests.reaches (hp.nested []) hq
      have hall : (q.attempt.bind f).Nests [] gs t :=
        (hgs t).attempt_bind fun o u => (hf o).nested [] u
      have hmem : b ∈ gs.flatten := Classical.not_not.1 fun hno => hall.not_owes hno hb ho
      obtain ⟨segment, batch, hupdating, hbs⟩ := ihp hq ((hgs t).owes hmem hb)
      exact ⟨segment, batch, hupdating.attempt_bind f, hbs⟩
    · exact ihf o hx ho
  | @locked segment batch commit h ih =>
    rw [← attempt_bind_ofExcept (withLocks _ _)] at hx
    rcases hx.of_withLocks with rfl | ⟨q, hq, rfl⟩ | ⟨o, hx⟩
    · rw [attempt_bind_ofExcept] at ho
      exact absurd ho (hfree (nested_withLocks h.nested))
    · by_cases hbs : b ∈ bucketsOf segment batch
      · exact ⟨segment, batch, ⟨commit, ofExcept, h, q, hq, rfl⟩, hbs⟩
      -- It is locked by an update amid the commit of this one.
      obtain ⟨gs, hgs⟩ := Nests.reaches (h.nested []) hq
      have hall := ((hgs t).frame [bucketsOf segment batch]).ensuring_unlock
      have hmem : b ∈ gs.flatten := by
        have hmem := Classical.not_not.1 fun hno => hall.not_owes hno hb ho
        rw [List.flatten_append, List.mem_append] at hmem
        exact hmem.resolve_right (by simpa using hbs)
      obtain ⟨segment', batch', hupdating, hbs'⟩ := ih hq ((hgs t).owes hmem hb)
      exact ⟨segment', batch', hupdating.attempt_bind _, hbs'⟩
    · obtain rfl := hx.eq_ofExcept
      exact absurd ho (hfree fun _ _ => nests_ofExcept ..)

end Tables

namespace Request

theorem orderly (config : Config) (r : Request) : Tables.Orderly config (r.program config) := by
  by_cases hr : r.Reads
  · refine .plain fun t => ?_
    exact (makes_of_reads Tables.usual_unlocking hr).mono (fun _ _ => id) fun _ _ => trivial
  cases r with
  | table name op =>
    cases op with
    | put entries => exact (Tables.orderly_write ..).map _ |>.map _
    | remove keys =>
      have hwrite : Tables.Orderly config (Tables.write config name .tombstone
          (keys.map fun k => .removal k.key)) := Tables.orderly_write ..
      have hdone : Tables.Orderly config (pure () : Program Tables Unit) :=
        .plain fun _ => trivial
      exact (hwrite.bind fun _ => hdone).map _ |>.map _
    | get | getKeys | index => exact absurd trivial hr
  | create | delete | connect | prepare | unsupported | notify => exact absurd trivial hr

end Request

namespace Pool

open Tables

variable {α : Type} {around : Surroundings Tables} {config : Config} {y z : Pool Tables α}
  {e : Event Tables α} {es : List (Event Tables α)} {i : Nat} {p : Program Tables α}
  {G : Nat → List (List Bucket)}

/-- Until it is done, a thread is at something that its program may go on as. -/
theorem Step.proceeds (h : Step around y e z) (hi : y.threads i = some p)
    (hno : ∀ r, e ≠ .finish i r) : ∃ q, z.threads i = some q ∧ p.Proceeds q := by
  cases e with
  | start j q =>
    cases h with
    | start _ hj =>
      have hij : i ≠ j := fun hij => by simp [← hij, hi] at hj
      exact ⟨p, (if_neg hij).trans hi, .rest p⟩
  | proceed j =>
    obtain ⟨p', q, hj, hq, rfl⟩ := exists_goes h
    by_cases hij : i = j
    · subst hij
      obtain rfl := Option.some.inj (hi.symm.trans hj)
      exact ⟨_, if_pos rfl, .goOn hq⟩
    · exact ⟨p, (if_neg hij).trans hi, .rest p⟩
  | call j q fate =>
    cases h with
    | call _ hj hf =>
      by_cases hij : i = j
      · subst hij
        obtain rfl := Option.some.inj (hi.symm.trans hj)
        exact ⟨_, if_pos rfl, .answered _⟩
      · exact ⟨p, (if_neg hij).trans hi, .rest p⟩
  | finish j r =>
    have hij : i ≠ j := fun hij => hno r (by rw [hij])
    cases h with
    | returned | failed => exact ⟨p, (if_neg hij).trans hi, .rest p⟩
  | drift =>
    cases h
    exact ⟨p, hi, .rest p⟩

/-- Somewhere in a run, a thread is amid an update that has locked its buckets. -/
def HasLocked (around : Surroundings Tables) (config : Config) (segment : Nat) (batch : Batch)
    (commit : Program Tables Nat) (f : Except TableError Nat → Program Tables α) (i : Nat)
    (y : Pool Tables α) (es : List (Event Tables α)) (z : Pool Tables α) : Prop :=
  ∃ as bs m p, es = as ++ bs ∧ Steps around y as m ∧ Steps around m bs z ∧
    m.threads i = some p ∧ UpdatingWith config segment batch commit f p

section HasLocked

variable {segment : Nat} {batch : Batch} {commit : Program Tables Nat}
  {f : Except TableError Nat → Program Tables α} {m : Pool Tables α}

theorem hasLocked_head (h : Step around y e m) (hs : Steps around m es z)
    (hi : y.threads i = some p) (hp : UpdatingWith config segment batch commit f p) :
    HasLocked around config segment batch commit f i y (e :: es) z :=
  ⟨[], e :: es, y, p, rfl, .refl y, .head h hs, hi, hp⟩

theorem HasLocked.cons (h : Step around y e m)
    (hm : HasLocked around config segment batch commit f i m es z) :
    HasLocked around config segment batch commit f i y (e :: es) z := by
  obtain ⟨as, bs, x, p, rfl, has, hbs, hx, hp⟩ := hm
  exact ⟨e :: as, bs, x, p, rfl, .head h has, hbs, hx, hp⟩

theorem Steps.updateStage {met : Prop} (h : Steps around y es z) (hc : Orderly config commit)
    (hi : y.threads i = some p) (hp : UpdateStage config segment batch commit f met p)
    (hno : ∀ r, .finish i r ∉ es) :
    ∃ q, z.threads i = some q ∧ UpdateStage config segment batch commit f
      (met ∨ HasLocked around config segment batch commit f i y es z) q := by
  induction h generalizing p met with
  | refl => exact ⟨p, hi, hp.mono .inl⟩
  | @head y _ _ _ _ h hs ih =>
    obtain ⟨q, hq, hproceeds⟩ := h.proceeds hi fun r hr => hno r (by simp [hr])
    have hstage := hp.proceeds hc hproceeds
    obtain ⟨x, hx, hstage⟩ := ih hq hstage fun r hr => hno r (by simp [hr])
    refine ⟨x, hx, hstage.mono ?_⟩
    rintro ((hmet | hlocked) | hlocked)
    · exact .inl hmet
    · exact .inr (hasLocked_head h hs hi hlocked)
    · exact .inr (hlocked.cons h)

end HasLocked

/-- The guards of all threads come to what is locked, and each thread is to drop its own. -/
structure Guards (config : Config) (y : Pool Tables α) (G : Nat → List (List Bucket)) : Prop where
  history : Locks.History y.state.locks G
  idle : ∀ {i}, y.threads i = none → G i = []
  orderly : ∀ {i p}, y.threads i = some p → ∃ p₀, Orderly config p₀ ∧ p₀.Reaches p
  nests : ∀ {i p}, y.threads i = some p → ∀ t, p.Nests [] (G i) t

/-- A thread takes a step, in which it may have locked and unlocked some buckets. -/
theorem Guards.assign (hG : Guards config y G) {c : Container} {t : Tables}
    {o : Option (Program Tables α)} {gs : List (List Bucket)}
    (ht : Locks.History t.locks (Function.update G i gs)) (hnone : o = none → gs = [])
    (hsome : ∀ p, o = some p → (∃ p₀, Orderly config p₀ ∧ p₀.Reaches p) ∧
      ∀ t, p.Nests [] gs t) :
    Guards config (Pool.assign { y with container := c, state := t } i o)
      (Function.update G i gs) where
  history := ht
  idle {j} hj := by
    by_cases hji : j = i
    · subst hji
      rw [Function.update_self]
      exact hnone ((if_pos rfl).symm.trans hj)
    · rw [Function.update_of_ne hji]
      exact hG.idle ((if_neg hji).symm.trans hj)
  orderly {j p} hj := by
    by_cases hji : j = i
    · subst hji
      exact (hsome p ((if_pos rfl).symm.trans hj)).1
    · exact hG.orderly ((if_neg hji).symm.trans hj)
  nests {j p} hj := by
    by_cases hji : j = i
    · subst hji
      rw [Function.update_self]
      exact (hsome p ((if_pos rfl).symm.trans hj)).2
    · rw [Function.update_of_ne hji]
      exact hG.nests ((if_neg hji).symm.trans hj)

section Account

variable (hdrift : ∀ s t, around.drifts s t → Unlocking s t)
include hdrift

theorem Guards.step (hG : Guards config y G) (h : Step around y e z)
    (he : ∀ i p, e = .start i p → Orderly config p) : ∃ G', Guards config z G' := by
  have hsame (i : Nat) : Locks.History y.state.locks (Function.update G i (G i)) := by
    rw [Function.update_eq_self]
    exact hG.history
  cases e with
  | start i p =>
    cases h with
    | start _ hi =>
      have hp := he i p rfl
      refine ⟨_, hG.assign (hsame i) (fun _ => hG.idle hi) ?_⟩
      rintro _ ⟨⟩
      refine ⟨⟨p, hp, .refl p⟩, ?_⟩
      rw [hG.idle hi]
      exact hp.nested []
  | proceed i =>
    obtain ⟨p, q, hi, hq, rfl⟩ := exists_goes h
    obtain ⟨p₀, hp₀, hreach⟩ := hG.orderly hi
    obtain ⟨gs, hshifts, hnests⟩ := (Program.Nests.goes (hG.nests hi) hq).advance
    refine ⟨_, hG.assign (hG.history.shifts hshifts rfl) (fun h => by cases h) ?_⟩
    rintro _ ⟨⟩
    exact ⟨⟨p₀, hp₀, hreach.trans (.goOn hq (.refl _))⟩, hnests⟩
  | call i q fate =>
    cases h with
    | call _ hi hf =>
      obtain ⟨p₀, hp₀, hreach⟩ := hG.orderly hi
      refine ⟨_, hG.assign (hsame i) (fun h => by cases h) ?_⟩
      rintro _ ⟨⟩
      exact ⟨⟨p₀, hp₀, hreach.trans (.answered _ (.refl _))⟩, fun t => hG.nests hi t _ t⟩
  | finish i r =>
    cases h with
    | returned hi | failed hi =>
      exact ⟨_, hG.assign (hsame i) (fun _ => hG.nests hi y.state) fun _ h => by cases h⟩
  | drift =>
    cases h with
    | @drift t ht =>
      refine ⟨G, ?_, hG.idle, hG.orderly, hG.nests⟩
      rw [hdrift _ _ ht]
      exact hG.history

theorem Guards.steps (hG : Guards config y G) (h : Steps around y es z)
    (hes : ∀ i p, .start i p ∈ es → Orderly config p) : ∃ G', Guards config z G' := by
  induction h generalizing G with
  | refl => exact ⟨G, hG⟩
  | head h _ ih =>
    obtain ⟨G', hG'⟩ := hG.step hdrift h fun i p he => hes i p (by simp [he])
    exact ih hG' fun i p hp => hes i p (by simp [hp])

end Account

theorem guards_initial (config : Config) (c : Container) :
    Guards config (⟨c, .initial config, fun _ => none⟩ : Pool Tables α) fun _ => [] where
  history := .empty
  idle _ := rfl
  orderly h := by cases h
  nests h := by cases h

/-- What a thread has in its guards are the buckets of updates that it is amid. -/
theorem Guards.mem_iff (hG : Guards config y G) {b : Bucket} :
    b ∈ (G i).flatten ↔ ∃ p segment batch, y.threads i = some p ∧
      Updating config segment batch p ∧ b ∈ bucketsOf segment batch := by
  constructor
  · intro hb
    cases hi : y.threads i with
    | none =>
      rw [hG.idle hi] at hb
      cases hb
    | some p =>
      obtain ⟨bs, hbs, hmem⟩ := List.mem_flatten.1 hb
      have hheld := (hG.history.held.mem b).2 ⟨i, bs, hbs, hmem⟩
      obtain ⟨p₀, hp₀, hreach⟩ := hG.orderly hi
      obtain ⟨segment, batch, hupdating, hb⟩ :=
        hp₀.exists_updating hreach hheld ((hG.nests hi _).owes hb hheld)
      exact ⟨p, segment, batch, rfl, hupdating, hb⟩
  · rintro ⟨p, segment, batch, hi, ⟨commit, f, hc, q, hq, rfl⟩, hb⟩
    obtain ⟨gs, hgs⟩ := Program.Nests.reaches (hc.nested []) hq
    exact Program.Nests.mem_of_unlock (hG.nests hi) hgs hb y.state

theorem Step.attempted {β : Type} {bs : List Bucket} {body : Program Tables β}
    {f : Except TableError β → Program Tables α} (h : Step around y (.proceed i) z)
    (hi : y.threads i = some ((withLocks bs body).attempt.bind f)) :
    y.state.locks.free bs = true ∧
        z = Pool.goOn { y with state := { y.state with locks := y.state.locks.take bs } } i
          (Program.holding bs body f) ∨
      y.state.locks.free bs = false ∧ z = y.goOn i (f (.error .timeout)) := by
  obtain ⟨p, q, hi', hq, rfl⟩ := exists_goes h
  obtain rfl := Option.some.inj (hi'.symm.trans hi)
  rw [Program.withLocks_attempt_bind] at hq
  cases hq with
  | await met hm hb =>
    cases met with
    | true => exact .inl ⟨hm, rfl⟩
    | false => exact .inr ⟨hm, rfl⟩

/-- How updates stand to each other at some point of a run. -/
structure Exclusive (around : Surroundings Tables) (config : Config) (y : Pool Tables α) :
    Prop where
  /-- What is locked is what is in the guards of all threads. No two guards share a bucket, and the
  buckets in those of a thread are those of updates that it is amid. -/
  guards : ∃ G, Locks.History y.state.locks G ∧ Locks.Held y.state.locks G ∧
    ∀ i b, b ∈ (G i).flatten ↔ ∃ p segment batch, y.threads i = some p ∧
      Updating config segment batch p ∧ b ∈ bucketsOf segment batch
  /-- An attempt to lock some buckets takes all of them, if they are free, or none. -/
  attempt : ∀ (β : Type) (i : Nat) (z : Pool Tables α) (bs : List Bucket) (body : Program Tables β)
    (f : Except TableError β → Program Tables α),
    y.threads i = some ((withLocks bs body).attempt.bind f) → Step around y (.proceed i) z →
    y.state.locks.free bs = true ∧
        z = Pool.goOn { y with state := { y.state with locks := y.state.locks.take bs } } i
          (Program.holding bs body f) ∨
      y.state.locks.free bs = false ∧ z = y.goOn i (f (.error .timeout))
  /-- Whatever happens meanwhile, an update that has locked its buckets is amid what it has locked
  them for until it is left, in success or in failure. Unless it is refused the locks, it is not
  left before it has had them. -/
  course : ∀ met i p segment batch commit f fs z, Orderly config commit → y.threads i = some p →
    UpdateStage config segment batch commit f met p → Steps around y fs z →
    (∀ r, .finish i r ∉ fs) →
    ∃ q, z.threads i = some q ∧ UpdateStage config segment batch commit f
      (met ∨ HasLocked around config segment batch commit f i y fs z) q
  /-- Two updates of a segment that share a hash are not under way at once. -/
  apart : ∀ i j p q segment batch batch' hash, y.threads i = some p → y.threads j = some q →
    Updating config segment batch p → Updating config segment batch' q →
    hash ∈ batch.hashes → hash ∈ batch'.hashes → i = j
  /-- No others keep an update waiting. -/
  free_iff : ∀ segment batch, y.state.locks.free (bucketsOf segment batch) = true ↔
    ∀ i p batch', y.threads i = some p → Updating config segment batch' p →
      batch.hashes.Disjoint batch'.hashes

theorem Guards.exclusive (hG : Guards config y G) : Exclusive around config y where
  guards := ⟨G, hG.history, hG.history.held, fun i b => hG.mem_iff⟩
  attempt _ _ _ _ _ _ hi hz := hz.attempted hi
  course _ _ _ _ _ _ _ _ _ hc hi hp hz hno := hz.updateStage hc hi hp hno
  apart i j p q segment batch batch' hash hi hj hp hq hb hb' := by
    by_contra hij
    have hi : ⟨segment, hash⟩ ∈ (G i).flatten :=
      hG.mem_iff.2 ⟨p, segment, batch, hi, hp, mem_bucketsOf.2 ⟨rfl, hb⟩⟩
    have hj : ⟨segment, hash⟩ ∈ (G j).flatten :=
      hG.mem_iff.2 ⟨q, segment, batch', hj, hq, mem_bucketsOf.2 ⟨rfl, hb'⟩⟩
    obtain ⟨bs, hbs, hmem⟩ := List.mem_flatten.1 hi
    obtain ⟨cs, hcs, hmem'⟩ := List.mem_flatten.1 hj
    exact hG.history.held.exclusive hij bs hbs cs hcs hmem hmem'
  free_iff segment batch := by
    rw [hG.history.held.free_iff]
    constructor
    · intro hfree i p batch' hi hp hash hb hb'
      have hmem : ⟨segment, hash⟩ ∈ (G i).flatten :=
        hG.mem_iff.2 ⟨p, segment, batch', hi, hp, mem_bucketsOf.2 ⟨rfl, hb'⟩⟩
      obtain ⟨cs, hcs, hmem⟩ := List.mem_flatten.1 hmem
      exact hfree i cs hcs (mem_bucketsOf.2 ⟨rfl, hb⟩) hmem
    · intro hapart i cs hcs b hb hbc
      obtain ⟨p, segment', batch', hi, hp, hb'⟩ :=
        hG.mem_iff.1 (List.mem_flatten.2 ⟨cs, hcs, hbc⟩)
      obtain ⟨rfl, hhash⟩ := mem_bucketsOf.1 hb
      obtain ⟨rfl, hhash'⟩ := mem_bucketsOf.1 hb'
      exact hapart i p batch' hi hp hhash hhash'

/-- Whatever buckets are locked together and unlocked together, nobody locks what another holds.
Hence updates of a segment that share a hash exclude each other from before the heads are read until
all is done, and no others do. -/
theorem updates_exclude {c : Container} (hdrift : ∀ s t, around.drifts s t → Unlocking s t)
    (h : Steps around ⟨c, .initial config, fun _ => none⟩ es y)
    (hes : ∀ i p, .start i p ∈ es → Orderly config p) :
    (∀ l G, Locks.History l G → Locks.Held l G ∧
      ∀ bs, l.free bs = true ↔ ∀ i, ∀ cs ∈ G i, bs.Disjoint cs) ∧
    Exclusive around config y := by
  obtain ⟨G, hG⟩ := (guards_initial config c).steps hdrift h hes
  exact ⟨fun l G hl => ⟨hl.held, fun bs => hl.held.free_iff⟩, hG.exclusive⟩

theorem unlocking_of_drifts {s t : Tables} (h : surroundings.drifts s t) : Unlocking s t := by
  obtain ⟨b, rfl⟩ := h
  rfl

def stalled (t : Tables) : Program Tables α → Bool
  | .await true ready _ => !ready t
  | _ => false

def Event.started? : Event Tables α → Option (Nat × Program Tables α)
  | .start i p => some (i, p)
  | _ => none

theorem Event.eq_start {x : Nat × Program Tables α} (h : e.started? = some x) :
    e = .start x.1 x.2 := by
  cases e with
  | start i p => exact Option.some.inj h ▸ rfl
  | proceed | call | finish | drift => cases h

/-- Two entries go into different buckets at once, while a third one has to wait. -/
theorem updates_exclude_amid_three_puts :
    let config := Config.parity .inline
    let put (key : UInt8) := (Request.table "t" (.put [⟨⟨[key], none⟩, [1]⟩])).program config
    ∃ (es : List (Event Tables (Option Reply))) (y : Pool Tables (Option Reply)) (g h : KeyHash),
      Steps surroundings ⟨.solo, .initial config, fun _ => none⟩ es y ∧
      es.filterMap Event.started? = [(1, put 97), (2, put 98), (3, put 99)] ∧
      (∀ i p, .start i p ∈ es → Orderly config p) ∧
      g ≠ h ∧ y.state.locks.held.contains ⟨0, g⟩ = true ∧
      y.state.locks.held.contains ⟨0, h⟩ = true ∧
      (y.threads 3).any (stalled y.state) = true ∧
      (∀ l G, Locks.History l G → Locks.Held l G ∧
        ∀ bs, l.free bs = true ↔ ∀ i, ∀ cs ∈ G i, bs.Disjoint cs) ∧
      Exclusive surroundings config y := by
  intro config put
  let go (i : Nat) : List (Turn (Option Reply)) := List.replicate 14 (.go i)
  let turns : List (Turn (Option Reply)) :=
    .start 1 (put 97) :: go 1 ++ .start 2 (put 98) :: go 2 ++ .start 3 (put 99) :: go 3
  let y : Pool Tables (Option Reply) := ⟨.solo, .initial config, fun _ => none⟩
  have hsteps := steps_play turns y
  have hputs : ∀ x ∈ (play turns y).1.filterMap Event.started?,
      x = (1, put 97) ∨ x = (2, put 98) ∨ x = (3, put 99) := by
    intro x hx
    obtain ⟨e, he, hex⟩ := List.mem_filterMap.1 hx
    obtain ⟨i, p⟩ := x
    obtain rfl := Event.eq_start hex
    simpa [turns, go, List.mem_replicate] using hsteps.2 i p he
  have hthreads : ((play turns y).1.filterMap Event.started?).map Prod.fst = [1, 2, 3] := by
    decide +kernel
  have hstarted : (play turns y).1.filterMap Event.started? =
      [(1, put 97), (2, put 98), (3, put 99)] := by
    generalize (play turns y).1.filterMap Event.started? = started at hputs hthreads
    obtain ⟨a, as, rfl, ha, hthreads⟩ := List.map_eq_cons_iff.1 hthreads
    obtain ⟨b, bs, rfl, hb, hthreads⟩ := List.map_eq_cons_iff.1 hthreads
    obtain ⟨c, cs, rfl, hc, hthreads⟩ := List.map_eq_cons_iff.1 hthreads
    obtain rfl := List.map_eq_nil_iff.1 hthreads
    have ha' := hputs a (by simp)
    have hb' := hputs b (by simp)
    have hc' := hputs c (by simp)
    grind
  have hstarts : ∀ i p, .start i p ∈ (play turns y).1 → Orderly config p := by
    intro i p hp
    have hmem : (i, p) ∈ (play turns y).1.filterMap Event.started? :=
      List.mem_filterMap.2 ⟨_, hp, rfl⟩
    simp only [hstarted, List.mem_cons, List.not_mem_nil, or_false, Prod.mk.injEq] at hmem
    rcases hmem with ⟨-, rfl⟩ | ⟨-, rfl⟩ | ⟨-, rfl⟩
    all_goals exact Request.orderly config _
  obtain ⟨hlocks, hexclusive⟩ := updates_exclude (fun _ _ => unlocking_of_drifts) hsteps.1 hstarts
  exact ⟨_, _, ⟨0x0100000000000000, 0⟩, ⟨0, 0⟩, hsteps.1, hstarted, hstarts, by decide,
    by decide +kernel, by decide +kernel, by decide +kernel, hlocks, hexclusive⟩

end Pool
end KeyedLog
