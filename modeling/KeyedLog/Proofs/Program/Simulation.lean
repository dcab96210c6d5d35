import KeyedLog.Proofs.Program.Stages

/-! Programs side by side: one extension seen next to another, and programs that do to the one what
others do to the other. -/
namespace KeyedLog

/-- Both outcomes are answers that go together, or they are the same error. -/
inductive Concurs {α β : Type} (R : α → β → Prop) :
    Except TableError α → Except TableError β → Prop
  | ok {a : α} {b : β} (h : R a b) : Concurs R (.ok a) (.ok b)
  | error (e : TableError) : Concurs R (.error e) (.error e)

def Tables.Roomy (t : Tables) : Prop := t.cache.size < t.cache.capacity

/-- In what way two extensions are alike. It depends on a world, which moves on. -/
structure Pairing where
  World : Type
  /-- How the world may move on without one's doing. -/
  later : World → World → Prop
  /-- How one may move the world on. -/
  next : World → World → Prop
  /-- Segments that go together. -/
  segments : Nat → Nat → Prop
  /-- Places of states that go together. -/
  places : World → Nat → Nat → Prop
  alike : World → Tables → Tables → Prop
  later_refl : ∀ w, later w w
  later_trans : ∀ {w u v}, later w u → later u v → later w v
  next_refl : ∀ w, next w w
  later_of_next : ∀ {w u}, next w u → later w u
  next_trans : ∀ {w u v}, next w u → next u v → next w v
  places_later : ∀ {w u r r'}, later w u → places w r r' → places u r r'
  closed : ∀ {w t t'}, alike w t t' → t.closed = t'.closed
  indexClosed : ∀ {w t t'}, alike w t t' → t.indexClosed = t'.indexClosed
  state : ∀ {w t t' r r'}, alike w t t' → places w r r' → t.state r = t'.state r'
  tracked : ∀ {w t t' k k'}, alike w t t' → segments k k' →
    Option.Rel (places w) t.tracked[k]? t'.tracked[k']?
  cached : ∀ {w t t' k k'}, alike w t t' → segments k k' → ∀ hash : KeyHash,
    t.cache.get? ⟨k, hash⟩ = t'.cache.get? ⟨k', hash⟩
  locked : ∀ {w t t' k k'}, alike w t t' → segments k k' → ∀ hash : KeyHash,
    t.locks.held.contains ⟨k, hash⟩ = t'.locks.held.contains ⟨k', hash⟩
  modifyState : ∀ {w t t' r r'} (f : SegmentState → SegmentState), alike w t t' →
    places w r r' → alike w (t.modifyState r f) (t'.modifyState r' f)
  track : ∀ {w t t' k k'}, alike w t t' → segments k k' → t.tracked[k]? = none →
    ∃ u, next w u ∧ alike u (t.track k).1 (t'.track k').1 ∧
      places u (t.track k).2 (t'.track k').2
  untrack : ∀ {w t t' k k'}, alike w t t' → segments k k' →
    alike w (t.notify k none) (t'.notify k' none)
  insert : ∀ {w t t' k k'} (hash : KeyHash) (x : Nat), alike w t t' → segments k k' → t.Roomy →
    alike w { t with cache := t.cache.insert ⟨k, hash⟩ x }
      { t' with cache := t'.cache.insert ⟨k', hash⟩ x }
  erase : ∀ {w t t' k k'} (hash : KeyHash), alike w t t' → segments k k' →
    alike w { t with cache := t.cache.erase ⟨k, hash⟩ }
      { t' with cache := t'.cache.erase ⟨k', hash⟩ }
  take : ∀ {w t t' k k'} (hashes : List KeyHash), alike w t t' → segments k k' →
    alike w { t with locks := t.locks.take (hashes.map (⟨k, ·⟩)) }
      { t' with locks := t'.locks.take (hashes.map (⟨k', ·⟩)) }
  release : ∀ {w t t' k k'} (hashes : List KeyHash), alike w t t' → segments k k' →
    alike w { t with locks := t.locks.release (hashes.map (⟨k, ·⟩)) }
      { t' with locks := t'.locks.release (hashes.map (⟨k', ·⟩)) }

/-- Calls that ask the same of segments that go together, and the answers that go together then. -/
inductive Pairing.Asks (P : Pairing) :
    (q q' : Call) → (q.Answer → q'.Answer → Prop) → Prop
  | resolve (name : String) : P.Asks (.resolve name) (.resolve name) P.segments
  | create (name : String) (updates : List AttributeUpdate) :
      P.Asks (.create name updates) (.create name updates) Eq
  | delete (name : String) : P.Asks (.delete name) (.delete name) Eq
  | append {k k' : Nat} (h : P.segments k k') (data : Bytes) :
      P.Asks (.append k data) (.append k' data) Eq
  | read {k k' : Nat} (h : P.segments k k') (offset length : Nat) :
      P.Asks (.read k offset length) (.read k' offset length) Eq
  | getAttributes {k k' : Nat} (h : P.segments k k') (ids : List AttributeId) :
      P.Asks (.getAttributes k ids) (.getAttributes k' ids) Eq
  | updateAttributes {k k' : Nat} (h : P.segments k k') (updates : List AttributeUpdate) :
      P.Asks (.updateAttributes k updates) (.updateAttributes k' updates) Eq
  | length {k k' : Nat} (h : P.segments k k') : P.Asks (.length k) (.length k') Eq

namespace Program

variable {σ α β α' β' : Type}

/-- Whatever the program passes through on its way to its next stop is of some kind. -/
def Through (M : σ → Prop) : Program σ α → σ → Prop
  | .get k, s => (k s).Through M s
  | .set t k, _ => M t ∧ k.Through M t
  | .ret _, _ | .fail _, _ | .await .., _ | .clock _, _ | .call .., _ | .pause .., _ => True

/-- What a program goes on as in a certain state, unless it waits for an answer. -/
inductive Goes (s : σ) : Program σ α → Program σ α → Prop
  | get (k : σ → Program σ α) : Goes s (.get k) (.get k)
  | set (t : σ) (k : Program σ α) : Goes s (.set t k) (.set t k)
  | await {b : Bool} {ready : σ → Bool} {k : Bool → Program σ α} (met : Bool)
      (hm : ready s = met) (hb : met = false → b = true) : Goes s (.await b ready k) (k met)
  | clock {k : Bool → Program σ α} (left : Bool) : Goes s (.clock k) (k left)
  | pause {n : Nat} {k : Program σ α} : Goes s (.pause n k) k

/-- As long as there is room in the cache, the second program does to the second state what the
first one does to the first. Whenever they stop, the world moves on. -/
def Echoes (P : Pairing) (K : P.World → α → β → Prop) :
    Program Tables α → Program Tables β → P.World → Tables → Tables → Prop
  | .ret a, .ret b, w, _, _ => K w a b
  | .fail e, .fail e', _, _, _ => e = e'
  | .get k, .get k', w, t, t' => (k t).Echoes P K (k' t') w t t'
  | .set u k, .set u' k', w, _, _ => u.Roomy →
      ∃ v, P.next w v ∧ P.alike v u u' ∧ k.Echoes P K k' v u u'
  | .await b ready k, .await b' ready' k', w, _, _ => b = b' ∧
      ∀ v u u', P.later w v → P.alike v u u' → ready u = ready' u' ∧
        ∀ met, (k met).Echoes P K (k' met) v u u'
  | .clock k, .clock k', w, _, _ => ∀ v u u', P.later w v → P.alike v u u' →
      ∀ left, (k left).Echoes P K (k' left) v u u'
  | .call q k, .call q' k', w, _, _ => ∃ R, P.Asks q q' R ∧ ∀ r r', Concurs R r r' →
      ∀ v u u', P.later w v → P.alike v u u' → (k r).Echoes P K (k' r') v u u'
  | .pause n k, .pause n' k', w, _, _ => n = n' ∧
      ∀ v u u', P.later w v → P.alike v u u' → k.Echoes P K k' v u u'
  | _, _, _, _, _ => False

/-- From now on, in whatever states that are alike, the programs do the same. -/
def Mirrors (P : Pairing) (K : P.World → α → β → Prop) (p : Program Tables α)
    (p' : Program Tables β) (w : P.World) : Prop :=
  ∀ v t t', P.later w v → P.alike v t t' → p.Echoes P K p' v t t'

variable {P : Pairing} {K : P.World → α → β → Prop} {K' : P.World → α' → β' → Prop}
  {Q : α → β → Prop} {p q : Program Tables α} {p' : Program Tables β} {w v : P.World}
  {t t' : Tables}

theorem Echoes.bind {f : α → Program Tables α'} {f' : β → Program Tables β'}
    (h : p.Echoes P K p' w t t') (ht : P.alike w t t')
    (hf : ∀ v a b, P.later w v → K v a b → (f a).Mirrors P K' (f' b) v) :
    (p >>= f).Echoes P K' (p' >>= f') w t t' := by
  change (p.bind f).Echoes P K' (p'.bind f') w t t'
  -- Once the world has moved on, what follows is only owed from there.
  have hfrom {w v : P.World} (hw : P.later w v)
      (hf : ∀ v a b, P.later w v → K v a b → (f a).Mirrors P K' (f' b) v) :
      ∀ u a b, P.later v u → K u a b → (f a).Mirrors P K' (f' b) u :=
    fun u a b hu => hf u a b (P.later_trans hw hu)
  induction p generalizing p' w t t' with
  | ret a =>
    cases p' with
    | ret b => exact hf w a b (P.later_refl w) h w t t' (P.later_refl w) ht
    | _ => exact h.elim
  | fail e =>
    cases p' with
    | fail e' => exact h
    | _ => exact h.elim
  | get k ih =>
    cases p' with
    | get k' => exact ih t h ht hf
    | _ => exact h.elim
  | set u k ih =>
    cases p' with
    | set u' k' =>
      intro hu
      obtain ⟨v, hn, hv, hk⟩ := h hu
      exact ⟨v, hn, hv, ih hk hv (hfrom (P.later_of_next hn) hf)⟩
    | _ => exact h.elim
  | await b ready k ih =>
    cases p' with
    | await b' ready' k' =>
      refine ⟨h.1, fun v u u' hv hu => ?_⟩
      obtain ⟨hready, hk⟩ := h.2 v u u' hv hu
      exact ⟨hready, fun met => ih met (hk met) hu (hfrom hv hf)⟩
    | _ => exact h.elim
  | clock k ih =>
    cases p' with
    | clock k' => exact fun v u u' hv hu left => ih left (h v u u' hv hu left) hu (hfrom hv hf)
    | _ => exact h.elim
  | call q k ih =>
    cases p' with
    | call q' k' =>
      obtain ⟨R, hq, hk⟩ := h
      exact ⟨R, hq, fun r r' hr v u u' hv hu =>
        ih r (hk r r' hr v u u' hv hu) hu (hfrom hv hf)⟩
    | _ => exact h.elim
  | pause n k ih =>
    cases p' with
    | pause n' k' => exact ⟨h.1, fun v u u' hv hu => ih (h.2 v u u' hv hu) hu (hfrom hv hf)⟩
    | _ => exact h.elim

theorem Echoes.attempt (h : p.Echoes P K p' w t t') :
    p.attempt.Echoes P (fun v => Concurs (K v)) p'.attempt w t t' := by
  induction p generalizing p' w t t' with
  | ret a =>
    cases p' with
    | ret b => exact .ok h
    | _ => exact h.elim
  | fail e =>
    cases p' with
    | fail e' =>
      obtain rfl : e = e' := h
      exact .error e
    | _ => exact h.elim
  | get k ih =>
    cases p' with
    | get k' => exact ih t h
    | _ => exact h.elim
  | set u k ih =>
    cases p' with
    | set u' k' =>
      intro hu
      obtain ⟨v, hn, hv, hk⟩ := h hu
      exact ⟨v, hn, hv, ih hk⟩
    | _ => exact h.elim
  | await b ready k ih =>
    cases p' with
    | await b' ready' k' =>
      refine ⟨h.1, fun v u u' hv hu => ?_⟩
      obtain ⟨hready, hk⟩ := h.2 v u u' hv hu
      exact ⟨hready, fun met => ih met (hk met)⟩
    | _ => exact h.elim
  | clock k ih =>
    cases p' with
    | clock k' => exact fun v u u' hv hu left => ih left (h v u u' hv hu left)
    | _ => exact h.elim
  | call q k ih =>
    cases p' with
    | call q' k' =>
      obtain ⟨R, hq, hk⟩ := h
      exact ⟨R, hq, fun r r' hr v u u' hv hu => ih r (hk r r' hr v u u' hv hu)⟩
    | _ => exact h.elim
  | pause n k ih =>
    cases p' with
    | pause n' k' => exact ⟨h.1, fun v u u' hv hu => ih (h.2 v u u' hv hu)⟩
    | _ => exact h.elim

/-- The programs go on in the same way. -/
theorem Echoes.goes (h : p.Echoes P K p' w t t') (ht : P.alike w t t') (hq : p.Goes t q) :
    ∃ q', p'.Goes t' q' ∧ q.Echoes P K q' w t t' := by
  cases hq with
  | get k =>
    cases p' with
    | get k' => exact ⟨_, .get k', h⟩
    | _ => exact h.elim
  | set u k =>
    cases p' with
    | set u' k' => exact ⟨_, .set u' k', h⟩
    | _ => exact h.elim
  | await met hm hb =>
    cases p' with
    | await b' ready' k' =>
      obtain ⟨hready, hk⟩ := h.2 w t t' (P.later_refl w) ht
      exact ⟨_, .await met (hready ▸ hm) (h.1 ▸ hb), hk met⟩
    | _ => exact h.elim
  | clock left =>
    cases p' with
    | clock k' => exact ⟨_, .clock left, h w t t' (P.later_refl w) ht left⟩
    | _ => exact h.elim
  | pause =>
    cases p' with
    | pause n' k' => exact ⟨_, .pause, h.2 w t t' (P.later_refl w) ht⟩
    | _ => exact h.elim

/-- Up to their next stops the programs make the world move on in step, and from there they go on
whatever happens in between. -/
theorem Echoes.advance (h : p.Echoes P (fun _ => Q) p' w t t') (ht : P.alike w t t')
    (hp : p.Through Tables.Roomy t) :
    ∃ v, P.next w v ∧ P.alike v (p.advance t).2 (p'.advance t').2 ∧
      (p.advance t).1.Mirrors P (fun _ => Q) (p'.advance t').1 v := by
  induction p generalizing p' w t t' with
  | ret a =>
    cases p' with
    | ret b => exact ⟨w, P.next_refl w, ht, fun _ _ _ _ _ => h⟩
    | _ => exact h.elim
  | fail e =>
    cases p' with
    | fail e' => exact ⟨w, P.next_refl w, ht, fun _ _ _ _ _ => h⟩
    | _ => exact h.elim
  | get k ih =>
    cases p' with
    | get k' =>
      have hk : (k t).Echoes P (fun _ => Q) (k' t') w t t' := h
      have hadvance := ih t hk ht hp
      exact hadvance
    | _ => exact h.elim
  | set u k ih =>
    cases p' with
    | set u' k' =>
      obtain ⟨v, hn, hv, hk⟩ := h hp.1
      obtain ⟨v', hn', hv'⟩ := ih hk hv hp.2
      exact ⟨v', P.next_trans hn hn', hv'⟩
    | _ => exact h.elim
  | await b ready k ih =>
    cases p' with
    | await b' ready' k' =>
      refine ⟨w, P.next_refl w, ht, fun v _ _ hv _ => ⟨h.1, fun u x x' hu => ?_⟩⟩
      exact h.2 u x x' (P.later_trans hv hu)
    | _ => exact h.elim
  | clock k ih =>
    cases p' with
    | clock k' =>
      refine ⟨w, P.next_refl w, ht, fun v _ _ hv _ u x x' hu => ?_⟩
      exact h u x x' (P.later_trans hv hu)
    | _ => exact h.elim
  | call q k ih =>
    cases p' with
    | call q' k' =>
      obtain ⟨R, hq, hk⟩ := h
      refine ⟨w, P.next_refl w, ht, fun v _ _ hv _ => ⟨R, hq, fun r r' hr u x x' hu => ?_⟩⟩
      exact hk r r' hr u x x' (P.later_trans hv hu)
    | _ => exact h.elim
  | pause n k ih =>
    cases p' with
    | pause n' k' =>
      refine ⟨w, P.next_refl w, ht, fun v _ _ hv _ => ⟨h.1, fun u x x' hu => ?_⟩⟩
      exact h.2 u x x' (P.later_trans hv hu)
    | _ => exact h.elim

theorem Mirrors.later (h : p.Mirrors P K p' w) (hw : P.later w v) : p.Mirrors P K p' v :=
  fun u t t' hu => h u t t' (P.later_trans hw hu)

theorem Mirrors.bind {f : α → Program Tables α'} {f' : β → Program Tables β'}
    (h : p.Mirrors P K p' w)
    (hf : ∀ v a b, P.later w v → K v a b → (f a).Mirrors P K' (f' b) v) :
    (p >>= f).Mirrors P K' (p' >>= f') w :=
  fun v t t' hv ht => (h v t t' hv ht).bind ht fun u a b hu => hf u a b (P.later_trans hv hu)

theorem mirrors_pure {a : α} {b : β} (h : ∀ v, P.later w v → K v a b) :
    (pure a : Program Tables α).Mirrors P K (pure b) w := fun v _ _ hv _ => h v hv

theorem mirrors_fail (e : TableError) :
    (Program.fail e : Program Tables α).Mirrors P K (Program.fail e : Program Tables β) w :=
  fun _ _ _ _ _ => rfl

theorem Mirrors.map {Q' : α' → β' → Prop} {f : α → α'} {f' : β → β'}
    (h : p.Mirrors P (fun _ => Q) p' w) (hf : ∀ a b, Q a b → Q' (f a) (f' b)) :
    (f <$> p).Mirrors P (fun _ => Q') (f' <$> p') w :=
  h.bind fun _ a b _ hab => mirrors_pure fun _ _ => hf a b hab

abbrev Agrees (P : Pairing) (p p' : Program Tables α) (w : P.World) : Prop :=
  p.Mirrors P (fun _ => Eq) p' w

theorem Agrees.bind {p' : Program Tables α} {f : α → Program Tables α'}
    {f' : α → Program Tables β'} (h : p.Agrees P p' w)
    (hf : ∀ v a, P.later w v → (f a).Mirrors P K' (f' a) v) :
    (p >>= f).Mirrors P K' (p' >>= f') w := by
  apply Mirrors.bind h
  rintro v a _ hv rfl
  exact hf v a hv

theorem agrees_pure (a : α) : (pure a : Program Tables α).Agrees P (pure a) w :=
  mirrors_pure fun _ _ => rfl

theorem agrees_ofExcept (r : Except TableError α) :
    (ofExcept r : Program Tables α).Agrees P (ofExcept r) w := by
  cases r with
  | ok a => exact agrees_pure a
  | error e => exact mirrors_fail e

theorem Mirrors.attempt (h : p.Mirrors P K p' w) :
    p.attempt.Mirrors P (fun v => Concurs (K v)) p'.attempt w :=
  fun v t t' hv ht => (h v t t' hv ht).attempt

theorem mirrors_ofExcept {r : Except TableError α} {r' : Except TableError β}
    (h : Concurs Q r r') :
    (ofExcept r : Program Tables α).Mirrors P (fun _ => Q) (ofExcept r') w := by
  cases h with
  | ok h => exact mirrors_pure fun _ _ => h
  | error e => exact mirrors_fail e

theorem Mirrors.ensuring {last last' : Program Tables Unit}
    (h : p.Mirrors P (fun _ => Q) p' w)
    (hl : ∀ v, P.later w v → last.Mirrors P (fun _ => Eq) last' v) :
    (p.ensuring last).Mirrors P (fun _ => Q) (p'.ensuring last') w := by
  unfold Program.ensuring
  apply h.attempt.bind
  intro v r r' hv hr
  apply (hl v hv).bind
  intro u _ _ _ _
  exact mirrors_ofExcept hr

theorem mirrors_read_bind {f : Tables → Program Tables α} {f' : Tables → Program Tables β}
    (h : ∀ v t t', P.later w v → P.alike v t t' → (f t).Echoes P K (f' t') v t t') :
    (read >>= f).Mirrors P K (read >>= f') w :=
  fun v t t' hv ht => h v t t' hv ht

theorem Mirrors.echoes (h : p.Mirrors P K p' w) (ht : P.alike w t t') : p.Echoes P K p' w t t' :=
  h w t t' (P.later_refl w) ht

theorem echoes_exchange {f : Unit → Program Tables α} {f' : Unit → Program Tables β}
    {u u' : Tables}
    (hu : u.Roomy → ∃ v, P.next w v ∧ P.alike v u u' ∧ (f ()).Mirrors P K (f' ()) v) :
    (modify (fun _ => u) >>= f).Echoes P K (modify (fun _ => u') >>= f') w t t' := by
  intro hroomy
  obtain ⟨v, hn, hv, hf⟩ := hu hroomy
  exact ⟨v, hn, hv, hf.echoes hv⟩

theorem mirrors_modify {f f' : Tables → Tables}
    (h : ∀ v t t', P.later w v → P.alike v t t' → (f t).Roomy → P.alike v (f t) (f' t')) :
    (modify f).Mirrors P (fun _ => Eq) (modify f') w :=
  fun v t t' hv ht hroomy => ⟨v, P.next_refl v, h v t t' hv ht hroomy, rfl⟩

theorem mirrors_ask {q q' : Call} {R : q.Answer → q'.Answer → Prop} (h : P.Asks q q' R) :
    (ask q).Mirrors P (fun _ => R) (ask q') w :=
  fun _ _ _ _ _ => ⟨R, h, fun _ _ hr _ _ _ _ hu => (mirrors_ofExcept hr).echoes hu⟩

theorem mirrors_checkTime : checkTime.Mirrors P (fun _ => Eq) checkTime w := by
  intro v t t' hv ht u x x' hu hx left
  cases left with
  | true => exact rfl
  | false => exact rfl

theorem mirrors_request {q q' : Call} {R : q.Answer → q'.Answer → Prop} (h : P.Asks q q' R) :
    (request q).Mirrors P (fun _ => R) (request q') w :=
  mirrors_checkTime.bind fun _ _ _ _ _ => mirrors_ask h

theorem mirrors_await {ready ready' : Tables → Bool} {b : Bool}
    {k k' : Bool → Program Tables Unit}
    (h : ∀ v t t', P.later w v → P.alike v t t' → ready t = ready' t')
    (hk : ∀ met v, P.later w v → (k met).Mirrors P (fun _ => Eq) (k' met) v) :
    (Program.await b ready k).Mirrors P (fun _ => Eq) (.await b ready' k') w := by
  intro v t t' hv ht
  refine ⟨rfl, fun u x x' hu hx => ?_⟩
  have hw := P.later_trans hv hu
  exact ⟨h u x x' hw hx, fun met => (hk met u hw).echoes hx⟩

theorem mirrors_waitUntil {ready ready' : Tables → Bool}
    (h : ∀ v t t', P.later w v → P.alike v t t' → ready t = ready' t') :
    (waitUntil ready).Mirrors P (fun _ => Eq) (waitUntil ready') w := by
  refine mirrors_await h fun met v _ => ?_
  cases met with
  | true => exact mirrors_pure fun _ _ => rfl
  | false => exact mirrors_fail _

theorem mirrors_waitForever {ready ready' : Tables → Bool}
    (h : ∀ v t t', P.later w v → P.alike v t t' → ready t = ready' t') :
    (waitForever ready).Mirrors P (fun _ => Eq) (waitForever ready') w := by
  refine mirrors_await h fun met v _ => ?_
  cases met with
  | true => exact mirrors_pure fun _ _ => rfl
  | false => exact mirrors_fail _

theorem mirrors_mapM {γ : Type} {f f' : γ → Program Tables α} (l : List γ)
    (h : ∀ v x, P.later w v → (f x).Mirrors P (fun _ => Eq) (f' x) v) :
    (l.mapM f).Mirrors P (fun _ => Eq) (l.mapM f') w := by
  induction l generalizing w with
  | nil => exact mirrors_pure fun _ _ => rfl
  | cons x l ih =>
    rw [List.mapM_cons, List.mapM_cons]
    apply (h w x (P.later_refl w)).bind
    rintro v a _ hv rfl
    apply (ih fun u y hu => h u y (P.later_trans hv hu)).bind
    rintro u as _ _ rfl
    exact mirrors_pure fun _ _ => rfl

theorem mirrors_foldlM {γ : Type} {f f' : α → γ → Program Tables α} (l : List γ) (a : α)
    (h : ∀ v a x, P.later w v → (f a x).Mirrors P (fun _ => Eq) (f' a x) v) :
    (l.foldlM f a).Mirrors P (fun _ => Eq) (l.foldlM f' a) w := by
  induction l generalizing w a with
  | nil => exact mirrors_pure fun _ _ => rfl
  | cons x l ih =>
    rw [List.foldlM_cons, List.foldlM_cons]
    apply (h w a x (P.later_refl w)).bind
    rintro v b _ hv rfl
    exact ih b fun u c y hu => h u c y (P.later_trans hv hu)

end Program
end KeyedLog
