import KeyedLog.Proofs.Extension.Closing
import KeyedLog.Proofs.Write.Batch

/-! What threads note down of the answers to their calls, and what they may do with that in hand:
the changes of the state and the calls that an extension makes, one by one. -/
namespace KeyedLog

/-- What a thread has been told and has yet to act upon. -/
inductive Due where
  | nothing
  /-- Records were appended at an offset. -/
  | record (data : Bytes) (offset : Nat)
  /-- Attributes were written. -/
  | announce (us : List AttributeUpdate)
  /-- A segment was deleted. -/
  | forget
  /-- There is a notice to be passed on. -/
  | notice (segment : Nat) (offset : Option Nat)

/-- What a thread knows of the segment it works on, and what it has to do. -/
structure Notes where
  /-- The name that is looked up. -/
  name : Option String
  /-- The segment that an indexer reports on. -/
  reports : Option Nat
  /-- The segment that was found under a name. -/
  met : Option Nat
  /-- Where the state of that segment is kept. -/
  held : Option Nat
  /-- Links that are to be persisted. -/
  carried : List PendingLinks
  due : Due

/-- An update that links entries: the head of the bucket of a key, or the predecessor of an entry.
-/
inductive AttributeUpdate.Links (hasher : Hasher) : AttributeUpdate → Prop
  | head {key : Bytes} {h : KeyHash} (hk : hasher.hash key = .ok h) (x : Nat) :
    Links hasher (.replaceIfGreater (.bucket h) x)
  | backpointer (x y : Nat) : Links hasher (.replace (.backpointer x) y)

namespace Notes

def blank : Notes := ⟨none, none, none, none, [], .nothing⟩

def told (n : Notes) : (q : Call) → Except TableError q.Answer → Notes
  | .resolve _, .ok segment => { n with met := some segment }
  | .append _ data, .ok offset => { n with due := .record data offset }
  | .updateAttributes _ us, .ok _ => { n with due := .announce us }
  | .delete _, .ok _ => { n with due := .forget }
  | _, _ => n

variable (config : Config)

/-- Nothing is left to be done. Who persists the links of a write need not tell anybody. -/
def Settled (n : Notes) : Prop :=
  n.due = .nothing ∨ config.mode = .inline ∧ ∃ us, n.due = .announce us

/-- The calls that may be made. There is one name to look up, which is deleted only if there was a
segment. Writes concern the segment that was found, and only links and the index offset are written
to its attributes. -/
def Asks (n : Notes) : Call → Prop
  | .create _ us => us = initialAttributes
  | .resolve name => n.name = some name
  | .delete name => n.name = some name ∧ ∃ segment, n.met = some segment
  | .append segment data => n.met = some segment ∧
      ∃ (b : Batch) (rs : List Record), b.Lists config.hasher rs ∧
        data = Record.encodeAll recordChecksum rs
  | .updateAttributes segment us => n.met = some segment ∧
      (us = n.carried.flatMap (·.links.updates) ∨
        ∃ ls stop, (∀ u ∈ ls, AttributeUpdate.Links config.hasher u) ∧
          us = ls ++ [.replaceIfGreater .indexOffset stop])
  | _ => True

/-- The changes that may be made to the state, and what of the notes is settled by them. -/
inductive Act : Notes → Tables → Tables → Notes → Prop
  | cache (n : Notes) (t : Tables) (cache : Cache) : Act n t { t with cache } n
  | locks (n : Notes) (t : Tables) (locks : Locks) : Act n t { t with locks } n
  /-- No links are concerned. -/
  | level (n : Notes) (t : Tables) (ref : Nat) {f : SegmentState → SegmentState}
    (hf : ∀ s, (f s).heads = s.heads ∧ (f s).backpointers = s.backpointers ∧
      (f s).pending = s.pending) : Act n t (t.modifyState ref f) n
  | track {n : Notes} {segment : Nat} (t : Tables) (hmet : n.met = some segment) :
    Act n t (t.track segment).1 { n with held := some (t.track segment).2 }
  | record {n : Notes} {segment ref offset : Nat} {b : Batch} {rs : List Record} (t : Tables)
    (current : Heads) (hmet : n.met = some segment) (hheld : n.held = some ref)
    (hdue : n.due = .record (Record.encodeAll recordChecksum rs) offset)
    (hb : b.Lists config.hasher rs) :
    Act n t (Tables.record segment ref (Links.ofBatch b offset current) t)
      { n with carried := [⟨Links.ofBatch b offset current, offset, b.length⟩], due := .nothing }
  | takeOver (n : Notes) (t : Tables) (ref : Nat) (hm : config.mode = .inline) :
    Act n t (t.modifyState ref ({ · with pending := [] }))
      { n with carried := (t.state ref).pending ++ n.carried }
  | giveBack (n : Notes) (t : Tables) (ref : Nat) (hm : config.mode = .inline) :
    Act n t (t.modifyState ref fun s => { s with pending := s.pending ++ n.carried }) n
  | retire (n : Notes) (t : Tables) (segment ref : Nat) (hm : config.mode = .inline) :
    Act n t (Tables.retireAll segment ref t n.carried).1 n
  /-- All links below an offset were persisted, and the index offset as well. -/
  | report {n : Notes} {segment stop : Nat} {ls : List AttributeUpdate} (t : Tables)
    (hreports : n.reports = some segment)
    (hdue : n.due = .announce (ls ++ [.replaceIfGreater .indexOffset stop])) :
    Act n t (t.notify segment (some stop)) { n with due := .nothing }
  /-- The segment is gone, and so is what was known of it. -/
  | forget {n : Notes} {segment : Nat} (t : Tables) (hmet : n.met = some segment)
    (hdue : n.due = .forget) :
    Act n t (t.notify segment none) { n with met := none, due := .nothing }
  | notice {n : Notes} {segment : Nat} {offset : Option Nat} (t : Tables)
    (hdue : n.due = .notice segment offset) :
    Act n t (t.notify segment offset) { n with due := .nothing }

inductive Acts : Notes → Tables → Tables → Notes → Prop
  | refl (n : Notes) (t : Tables) : Acts n t t n
  | head {n m l : Notes} {t u v : Tables} (h : Act config n t u m) (hs : Acts m u v l) :
    Acts n t v l

end Notes

namespace Program

open Notes

variable {α β : Type} {config : Config} {p : Program Tables α} {t : Tables} {n : Notes}
  {K L : Except TableError α → Notes → Prop}

/-- The program does no more than its notes allow, and settles what it has noted before it can be
interrupted. At its end there is something to be said of the notes. -/
def Heeds (config : Config) (K : Except TableError α → Notes → Prop) :
    Program Tables α → Tables → Notes → Prop
  | .ret a, _, n => K (.ok a) n
  | .fail e, _, n => K (.error e) n
  | .get k, t, n => (k t).Heeds config K t n
  | .set u k, t, n => ∃ m, Act config n t u m ∧ k.Heeds config K u m
  | .await _ _ k, _, n => n.Settled config ∧ ∀ met t, (k met).Heeds config K t n
  | .clock k, _, n => n.Settled config ∧ ∀ left t, (k left).Heeds config K t n
  | .call q k, _, n =>
    n.Settled config ∧ n.Asks config q ∧ ∀ r t, (k r).Heeds config K t (n.told q r)
  | .pause _ k, _, n => n.Settled config ∧ ∀ t, k.Heeds config K t n

theorem Heeds.mono (h : p.Heeds config K t n) (hK : ∀ r m, K r m → L r m) :
    p.Heeds config L t n := by
  induction p generalizing t n with
  | ret a => exact hK (.ok a) n h
  | fail e => exact hK (.error e) n h
  | get k ih => exact ih t h
  | set u k ih =>
    obtain ⟨m, hm, hk⟩ := h
    exact ⟨m, hm, ih hk⟩
  | await b ready k ih => exact ⟨h.1, fun met t => ih met (h.2 met t)⟩
  | clock k ih => exact ⟨h.1, fun left t => ih left (h.2 left t)⟩
  | call q k ih => exact ⟨h.1, h.2.1, fun r t => ih r (h.2.2 r t)⟩
  | pause i k ih => exact ⟨h.1, fun t => ih (h.2 t)⟩

theorem Heeds.bind {f : α → Program Tables β} {J : Except TableError β → Notes → Prop}
    (hp : p.Heeds config K t n) (hok : ∀ a u m, K (.ok a) m → (f a).Heeds config J u m)
    (herror : ∀ e m, K (.error e) m → J (.error e) m) : (p >>= f).Heeds config J t n := by
  change (p.bind f).Heeds config J t n
  induction p generalizing t n with
  | ret a => exact hok a t n hp
  | fail e => exact herror e n hp
  | get k ih => exact ih t hp
  | set u k ih =>
    obtain ⟨m, hm, hk⟩ := hp
    exact ⟨m, hm, ih hk⟩
  | await b ready k ih => exact ⟨hp.1, fun met t => ih met (hp.2 met t)⟩
  | clock k ih => exact ⟨hp.1, fun left t => ih left (hp.2 left t)⟩
  | call q k ih => exact ⟨hp.1, hp.2.1, fun r t => ih r (hp.2.2 r t)⟩
  | pause i k ih => exact ⟨hp.1, fun t => ih (hp.2 t)⟩

theorem heeds_map {f : α → β} {J : Except TableError β → Notes → Prop}
    (hp : p.Heeds config (fun r => J (r.map f)) t n) : (f <$> p).Heeds config J t n :=
  hp.bind (f := fun a => .ret (f a)) (fun _ _ _ h => h) fun _ _ h => h

theorem Heeds.attempt {J : Except TableError (Except TableError α) → Notes → Prop}
    (hp : p.Heeds config (fun r => J (.ok r)) t n) : p.attempt.Heeds config J t n := by
  induction p generalizing t n with
  | ret | fail => exact hp
  | get k ih => exact ih t hp
  | set u k ih =>
    obtain ⟨m, hm, hk⟩ := hp
    exact ⟨m, hm, ih hk⟩
  | await b ready k ih => exact ⟨hp.1, fun met t => ih met (hp.2 met t)⟩
  | clock k ih => exact ⟨hp.1, fun left t => ih left (hp.2 left t)⟩
  | call q k ih => exact ⟨hp.1, hp.2.1, fun r t => ih r (hp.2.2 r t)⟩
  | pause i k ih => exact ⟨hp.1, fun t => ih (hp.2 t)⟩

theorem heeds_ofExcept {r : Except TableError α} (h : K r n) :
    (ofExcept r).Heeds config K t n := by
  cases r <;> exact h

theorem heeds_read_bind {f : Tables → Program Tables α} :
    (read >>= f).Heeds config K t n ↔ (f t).Heeds config K t n := Iff.rfl

theorem heeds_modify {f : Tables → Tables} {J : Except TableError Unit → Notes → Prop} {m : Notes}
    (hf : Act config n t (f t) m) (h : J (.ok ()) m) : (modify f).Heeds config J t n :=
  ⟨m, hf, h⟩

theorem Heeds.ensuring {f : Tables → Tables} (hp : p.Heeds config K t n)
    (hf : ∀ m u, Act config m u (f u) m) : (p.ensuring (modify f)).Heeds config K t n := by
  -- The attempt itself does not fail, nor does the last step.
  refine (Heeds.attempt (J := fun r m => ∃ o, r = .ok o ∧ K o m)
    (hp.mono fun r m h => ⟨r, rfl, h⟩)).bind (fun o u m h => ?_) fun e m h => ?_
  · obtain ⟨_, ho, h⟩ := h
    obtain rfl := Except.ok.inj ho
    exact ⟨m, hf m u, heeds_ofExcept h⟩
  · obtain ⟨_, ho, -⟩ := h
    cases ho

theorem heeds_checkTime {J : Except TableError Unit → Notes → Prop} (hs : n.Settled config)
    (hok : J (.ok ()) n) (herror : J (.error .timeout) n) : checkTime.Heeds config J t n := by
  refine ⟨hs, fun left t => ?_⟩
  cases left with
  | true => exact hok
  | false => exact herror

theorem heeds_ask {q : Call} {J : Except TableError q.Answer → Notes → Prop}
    (hs : n.Settled config) (hq : n.Asks config q) (h : ∀ r, J r (n.told q r)) :
    (ask q).Heeds config J t n :=
  ⟨hs, hq, fun r _ => heeds_ofExcept (h r)⟩

theorem heeds_request {q : Call} {J : Except TableError q.Answer → Notes → Prop}
    (hs : n.Settled config) (hq : n.Asks config q) (htimeout : J (.error .timeout) n)
    (h : ∀ r, J r (n.told q r)) : (request q).Heeds config J t n := by
  refine (heeds_checkTime (J := fun r m => m = n ∧ ∀ e, r = .error e → e = .timeout) hs
    ⟨rfl, fun _ h => (by cases h)⟩ ⟨rfl, fun _ h => (Except.error.inj h).symm⟩).bind
    (fun _ _ m h' => ?_) fun e m h' => ?_
  · rw [h'.1]
    exact heeds_ask hs hq h
  · rw [h'.1, h'.2 e rfl]
    exact htimeout

theorem heeds_waitUntil {J : Except TableError Unit → Notes → Prop} (ready : Tables → Bool)
    (hs : n.Settled config) (hok : J (.ok ()) n) (herror : J (.error .timeout) n) :
    (waitUntil ready).Heeds config J t n := by
  refine ⟨hs, fun met t => ?_⟩
  cases met with
  | true => exact hok
  | false => exact herror

/-- Whoever only asks what a segment says has nothing to note. -/
theorem heeds_of_inquires {segment : Nat} (hp : ∀ name, p.Inquires name segment)
    (hs : n.Settled config) (hK : ∀ r, K r n) : p.Heeds config K t n := by
  induction p generalizing t with
  | ret a => exact hK (.ok a)
  | fail e => exact hK (.error e)
  | clock k ih =>
    refine ⟨hs, fun left t => ?_⟩
    cases left with
    | true => exact ih true fun name => (hp name).2
    | false =>
      rw [(hp "").1]
      exact hK (.error .timeout)
  | call q k ih =>
    have hquiet : n.Asks config q ∧ ∀ r, n.told q r = n := by
      cases q with
      | resolve name => exact absurd ((hp "").1.symm.trans (hp "a").1) (by decide)
      | read | getAttributes | length => exact ⟨trivial, fun r => by cases r <;> rfl⟩
      | create | delete | append | updateAttributes => exact (hp "").1.elim
    refine ⟨hs, hquiet.1, fun r t => ?_⟩
    rw [hquiet.2 r]
    cases r with
    | ok a => exact ih (.ok a) fun name => (hp name).2.2 a
    | error e =>
      rw [(hp "").2.1 e]
      exact hK (.error e)
  | get | set | await | pause => exact (hp "").elim

theorem Heeds.advance (h : p.Heeds config K t n) :
    ∃ m, Acts config n t (p.advance t).2 m ∧ ∀ u, (p.advance t).1.Heeds config K u m := by
  induction p generalizing t n with
  | get k ih => exact ih t h
  | set u k ih =>
    obtain ⟨m, hm, hk⟩ := h
    obtain ⟨l, hl, hp⟩ := ih hk
    exact ⟨l, .head hm hl, hp⟩
  | ret | fail | await | clock | call | pause => exact ⟨n, .refl n t, fun _ => h⟩

theorem Heeds.settled (h : p.Heeds config (fun _ n => n.Settled config) t n) (hp : p.Point) :
    n.Settled config := by
  cases p with
  | ret | fail => exact h
  | await | clock | call | pause => exact h.1
  | get | set => exact hp.elim

theorem Heeds.resumes {q : Program Tables α} (h : ∀ t, p.Heeds config K t n) (hq : p.Resumes q)
    (t : Tables) : q.Heeds config K t n := by
  cases hq with
  | get | set => exact h t
  | await met => exact (h t).2 met t
  | clock left => exact (h t).2 left t
  | pause => exact (h t).2 t

end Program

namespace Pool

open Notes Program

variable {α : Type} {config : Config} {begins : Nat → Notes → Prop} {y z : Pool Tables α}
  {e : Event Tables α} {es past : List (Event Tables α)} {ns : Nat → Notes}
  {around : Surroundings Tables}

/-- Everybody in flight heeds their notes. -/
def Noted (config : Config) (y : Pool Tables α) (ns : Nat → Notes) : Prop :=
  ∀ {i p}, y.threads i = some p → ∀ t, p.Heeds config (fun _ n => n.Settled config) t (ns i)

/-- How a step shows in the notes. Only who goes on changes the state, drifts apart. -/
inductive Jots (config : Config) (begins : Nat → Notes → Prop) (y z : Pool Tables α)
    (ns : Nat → Notes) : Event Tables α → (Nat → Notes) → Prop
  | start {i : Nat} {n : Notes} (p : Program Tables α) (hstate : z.state = y.state)
    (hn : begins i n) : Jots config begins y z ns (.start i p) (Function.update ns i n)
  | proceed {i : Nat} {n : Notes} (hacts : Acts config (ns i) y.state z.state n)
    (hn : n.Settled config) : Jots config begins y z ns (.proceed i) (Function.update ns i n)
  | call {i : Nat} (q : Call) (fate : Fate) (hstate : z.state = y.state)
    (hn : (ns i).Settled config) (hq : (ns i).Asks config q) :
    Jots config begins y z ns (.call i q fate)
      (Function.update ns i ((ns i).told q (y.container.serve q fate).2))
  | finish {i : Nat} (r : Except TableError α) (hstate : z.state = y.state)
    (hn : (ns i).Settled config) : Jots config begins y z ns (.finish i r) ns
  | drift : Jots config begins y z ns .drift ns

theorem Noted.assign (hy : y.Noted config ns) {c : Container} {t : Tables} {i : Nat} {n : Notes}
    {p : Program Tables α} (hp : ∀ u, p.Heeds config (fun _ n => n.Settled config) u n) :
    (Pool.assign { y with container := c, state := t } i (some p)).Noted config
      (Function.update ns i n) := by
  intro j q hj
  by_cases hji : j = i
  · subst hji
    have hq : p = q := by simpa [Pool.assign] using hj
    rw [Function.update_self]
    exact hq ▸ hp
  · have hq : y.threads j = some q := by simpa [Pool.assign, hji] using hj
    rw [Function.update_of_ne hji]
    exact hy hq

/-- In every step everybody goes on to heed their notes, if whoever starts does. -/
theorem Step.noted (h : Step around y e z) (hy : y.Noted config ns)
    (hs : ∀ i p, e = .start i p →
      ∃ n, begins i n ∧ ∀ t, p.Heeds config (fun _ n => n.Settled config) t n) :
    ∃ ms, z.Noted config ms ∧ Jots config begins y z ns e ms := by
  rcases h.inv with ⟨i, p, rfl, -, rfl⟩ | ⟨i, p, q, rfl, hi, hq, rfl⟩ |
    ⟨i, q, k, fate, rfl, hi, rfl⟩ | ⟨i, r, rfl, hi, rfl⟩ | ⟨s, rfl, -, rfl⟩
  · obtain ⟨n, hn, hp⟩ := hs i p rfl
    exact ⟨_, hy.assign hp, .start p rfl hn⟩
  · obtain ⟨m, hacts, hm⟩ := (Heeds.resumes (hy hi) hq y.state).advance
    exact ⟨_, hy.assign hm, .proceed hacts ((hm y.state).settled (q.point_advance y.state))⟩
  · obtain ⟨hn, hq, hk⟩ := hy hi y.state
    exact ⟨_, hy.assign fun t => hk _ t, .call q fate rfl hn hq⟩
  · refine ⟨ns, fun {j p} hj => ?_, .finish r rfl ?_⟩
    · by_cases hji : j = i
      · simp [Pool.assign, hji] at hj
      · exact hy (by simpa [Pool.assign, hji] using hj)
    · have hended := hy hi y.state
      cases r <;> exact hended
  · exact ⟨ns, fun hj => hy hj, .drift⟩

theorem Jots.others {ms : Nat → Notes} (h : Jots config begins y z ns e ms) {j : Nat}
    (hj : e.actor ≠ some j) : ms j = ns j := by
  cases h with
  | start | proceed | call =>
    exact Function.update_of_ne (fun hji => hj (congrArg some hji.symm)) ..
  | finish | drift => rfl

/-- Who is not at work has nothing left to be done. -/
theorem Jots.settled {ms : Nat → Notes} (h : Jots config begins y z ns e ms)
    (hstep : Step around y e z) (hy : ∀ j, y.threads j = none → (ns j).Settled config) (j : Nat)
    (hj : z.threads j = none) : (ms j).Settled config := by
  have hother {i : Nat} (he : e.actor = some i) (hji : j ≠ i) (hj : y.threads j = none) :
      (ms j).Settled config := by
    rw [h.others fun hej => hji (Option.some.inj (hej.symm.trans he))]
    exact hy j hj
  have hbusy {c : Container} {t : Tables} {i : Nat} {p : Program Tables α}
      (hz : (Pool.assign { y with container := c, state := t } i (some p)).threads j = none) :
      j ≠ i ∧ y.threads j = none := by
    by_cases hji : j = i
    · simp [Pool.assign, hji] at hz
    · exact ⟨hji, by simpa [Pool.assign, hji] using hz⟩
  rcases hstep.inv with ⟨i, p, rfl, -, rfl⟩ | ⟨i, p, q, rfl, -, -, rfl⟩ |
    ⟨i, q, k, fate, rfl, -, rfl⟩ | ⟨i, r, rfl, -, rfl⟩ | ⟨s, rfl, -, rfl⟩
  · exact hother rfl (hbusy hj).1 (hbusy hj).2
  · exact hother rfl (hbusy hj).1 (hbusy hj).2
  · exact hother rfl (hbusy hj).1 (hbusy hj).2
  · by_cases hji : j = i
    · subst hji
      cases h with
      | finish r _ hn => exact hn
    · exact hother rfl hji (by simpa [Pool.assign, hji] using hj)
  · cases h
    exact hy j hj

/-- Whatever single steps keep of what happened, of the pool and of the notes, runs keep as well. -/
theorem Steps.noted (config : Config) (begins : Nat → Notes → Prop)
    {ok : Event Tables α → Prop}
    {H : List (Event Tables α) → Pool Tables α → (Nat → Notes) → Prop}
    (hH : ∀ {past e y z ns ms}, Step around y e z → Jots config begins y z ns e ms → ok e →
      H past y ns → H (past ++ [e]) z ms)
    (hs : ∀ {i p}, ok (.start i p) →
      ∃ n, begins i n ∧ ∀ t, p.Heeds config (fun _ n => n.Settled config) t n)
    (h : Steps around y es z) (hok : ∀ e ∈ es, ok e) (hy : y.Noted config ns) (hp : H past y ns) :
    ∃ ms, z.Noted config ms ∧ H (past ++ es) z ms := by
  induction h generalizing past ns with
  | refl => exact ⟨ns, hy, by simpa using hp⟩
  | @head _ _ _ e es h _ ih =>
    have he : ok e := hok e (by simp)
    obtain ⟨ms, hm, hjots⟩ := h.noted hy fun i p hep => hs (hep ▸ he)
    obtain ⟨ls, hl, hp⟩ := ih (fun f hf => hok f (by simp [hf])) hm (hH h hjots he hp)
    exact ⟨ls, hl, by simpa using hp⟩

end Pool
end KeyedLog
