import KeyedLog.Proofs.Operation.ReadOnly
import KeyedLog.Proofs.Program.Inquiry
import KeyedLog.Proofs.Program.Remainders
import KeyedLog.Proofs.Run.Sessions

/-! Operations that fail spare what is stored: what they append they append last, when nothing can
fail any more. -/
namespace KeyedLog

def Call.Appends : Call → Prop
  | .append .. => True
  | _ => False

theorem Call.Inquires.looks {segment : Nat} {q : Call} (hq : q.Inquires "" segment) :
    q.Looks := by
  cases q with
  | resolve | read | getAttributes | length => trivial
  | create | delete | append | updateAttributes => exact hq.elim

namespace Program

variable {σ α β : Type} {P : Call → Prop}

/-- Whatever happens, all calls are of some kind. -/
def Calls (P : Call → Prop) : Program σ α → Prop
  | .ret _ | .fail _ => True
  | .get k => ∀ s, (k s).Calls P
  | .set _ k | .pause _ k => k.Calls P
  | .await _ _ k => ∀ met, (k met).Calls P
  | .clock k => ∀ left, (k left).Calls P
  | .call q k => P q ∧ ∀ r, (k r).Calls P

variable {p : Program σ α}

theorem Calls.bind {f : α → Program σ β} (hp : p.Calls P) (hf : ∀ a, (f a).Calls P) :
    (p >>= f).Calls P := by
  change (p.bind f).Calls P
  induction p with
  | ret a => exact hf a
  | fail e => trivial
  | get k ih => exact fun s => ih s (hp s)
  | set s k ih => exact ih hp
  | await b ready k ih => exact fun met => ih met (hp met)
  | clock k ih => exact fun left => ih left (hp left)
  | call q k ih => exact ⟨hp.1, fun r => ih r (hp.2 r)⟩
  | pause n k ih => exact ih hp

theorem Calls.attempt (hp : p.Calls P) : p.attempt.Calls P := by
  induction p with
  | ret | fail => trivial
  | get k ih => exact fun s => ih s (hp s)
  | set s k ih => exact ih hp
  | await b ready k ih => exact fun met => ih met (hp met)
  | clock k ih => exact fun left => ih left (hp left)
  | call q k ih => exact ⟨hp.1, fun r => ih r (hp.2 r)⟩
  | pause n k ih => exact ih hp

theorem calls_request {q : Call} (hq : P q) : (request q : Program σ q.Answer).Calls P := by
  refine Calls.bind (fun left => ?_) fun _ => ⟨hq, fun r => ?_⟩
  · cases left <;> trivial
  · cases r <;> trivial

theorem Calls.ensuring {last : Program σ Unit} (hp : p.Calls P) (hl : last.Calls P) :
    (p.ensuring last).Calls P :=
  hp.attempt.bind fun r => hl.bind fun _ => by cases r <;> trivial

theorem calls_waitUntil (ready : σ → Bool) : (waitUntil ready).Calls P := by
  intro met
  cases met <;> trivial

theorem calls_ofExcept (r : Except TableError α) : (ofExcept r : Program σ α).Calls P := by
  cases r <;> trivial

theorem Calls.comesTo {q : Program σ α} (hp : p.Calls P) (h : p.ComesTo q) : q.Calls P := by
  induction h with
  | refl => exact hp
  | get s _ ih => exact ih (hp s)
  | set _ ih | pause _ ih => exact ih hp
  | await met _ ih => exact ih (hp met)
  | clock left _ ih => exact ih (hp left)
  | call r _ ih => exact ih (hp.2 r)

theorem calls_of_inquires {name : String} {segment : Nat} (hp : p.Inquires name segment)
    (h : ∀ q : Call, q.Inquires name segment → P q) : p.Calls P := by
  induction p with
  | ret | fail => trivial
  | clock k ih =>
    intro left
    cases left with
    | true => exact ih true hp.2
    | false =>
      rw [hp.1]
      trivial
  | call q k ih =>
    refine ⟨h q hp.1, fun r => ?_⟩
    cases r with
    | ok answer => exact ih _ (hp.2.2 answer)
    | error e =>
      rw [hp.2.1 e]
      trivial
  | get | set | await | pause => exact hp.elim

/-- Whatever happens, no more calls are made, and the program does not fail. -/
def Faultless : Program σ α → Prop
  | .ret _ => True
  | .fail _ | .call .. => False
  | .get k => ∀ s, (k s).Faultless
  | .set _ k | .pause _ k => k.Faultless
  | .await _ _ k => ∀ met, (k met).Faultless
  | .clock k => ∀ left, (k left).Faultless

/-- Whatever happens, all calls only look, but for an append after which nothing fails. -/
def Spares : Program σ α → Prop
  | .ret _ | .fail _ => True
  | .get k => ∀ s, (k s).Spares
  | .set _ k | .pause _ k => k.Spares
  | .await _ _ k => ∀ met, (k met).Spares
  | .clock k => ∀ left, (k left).Spares
  | .call q k => (q.Looks ∧ ∀ r, (k r).Spares) ∨
      (q.Appends ∧ (∀ a, (k (.ok a)).Faultless) ∧ ∀ e, (k (.error e)).Spares)

theorem Faultless.bind {f : α → Program σ β} (hp : p.Faultless) (hf : ∀ a, (f a).Faultless) :
    (p >>= f).Faultless := by
  change (p.bind f).Faultless
  induction p with
  | ret a => exact hf a
  | fail | call => exact hp.elim
  | get k ih => exact fun s => ih s (hp s)
  | set s k ih => exact ih hp
  | await b ready k ih => exact fun met => ih met (hp met)
  | clock k ih => exact fun left => ih left (hp left)
  | pause n k ih => exact ih hp

theorem Faultless.calls (hp : p.Faultless) : p.Calls P := by
  induction p with
  | ret => trivial
  | fail | call => exact hp.elim
  | get k ih => exact fun s => ih s (hp s)
  | set s k ih => exact ih hp
  | await b ready k ih => exact fun met => ih met (hp met)
  | clock k ih => exact fun left => ih left (hp left)
  | pause n k ih => exact ih hp

theorem Faultless.ensuring {last : Program σ Unit} (hp : p.Faultless) (hl : last.Faultless) :
    (p.ensuring last).Faultless := by
  change (p.attempt.bind _).Faultless
  induction p with
  | ret a => exact hl.bind fun _ => trivial
  | fail | call => exact hp.elim
  | get k ih => exact fun s => ih s (hp s)
  | set s k ih => exact ih hp
  | await b ready k ih => exact fun met => ih met (hp met)
  | clock k ih => exact fun left => ih left (hp left)
  | pause n k ih => exact ih hp

theorem Calls.spares (hp : p.Calls Call.Looks) : p.Spares := by
  induction p with
  | ret | fail => trivial
  | get k ih => exact fun s => ih s (hp s)
  | set s k ih => exact ih hp
  | await b ready k ih => exact fun met => ih met (hp met)
  | clock k ih => exact fun left => ih left (hp left)
  | call q k ih => exact .inl ⟨hp.1, fun r => ih r (hp.2 r)⟩
  | pause n k ih => exact ih hp

theorem Calls.spares_bind {f : α → Program σ β} (hp : p.Calls Call.Looks)
    (hf : ∀ a, (f a).Spares) : (p >>= f).Spares := by
  change (p.bind f).Spares
  induction p with
  | ret a => exact hf a
  | fail e => trivial
  | get k ih => exact fun s => ih s (hp s)
  | set s k ih => exact ih hp
  | await b ready k ih => exact fun met => ih met (hp met)
  | clock k ih => exact fun left => ih left (hp left)
  | call q k ih => exact .inl ⟨hp.1, fun r => ih r (hp.2 r)⟩
  | pause n k ih => exact ih hp

theorem Spares.bind {f : α → Program σ β} (hp : p.Spares) (hf : ∀ a, (f a).Faultless) :
    (p >>= f).Spares := by
  change (p.bind f).Spares
  induction p with
  | ret a => exact (hf a).calls.spares
  | fail e => trivial
  | get k ih => exact fun s => ih s (hp s)
  | set s k ih => exact ih hp
  | await b ready k ih => exact fun met => ih met (hp met)
  | clock k ih => exact fun left => ih left (hp left)
  | call q k ih =>
    rcases hp with ⟨hq, hk⟩ | ⟨hq, hok, herror⟩
    · exact .inl ⟨hq, fun r => ih r (hk r)⟩
    · exact .inr ⟨hq, fun a => (hok a).bind hf, fun e => ih _ (herror e)⟩
  | pause n k ih => exact ih hp

theorem Spares.map (f : α → β) (hp : p.Spares) : (f <$> p).Spares :=
  hp.bind (f := fun a => .ret (f a)) fun _ => trivial

theorem Spares.ensuring {last : Program σ Unit} (hp : p.Spares) (hl : last.Faultless) :
    (p.ensuring last).Spares := by
  have hlast (r : Except TableError α) : (last >>= fun _ => ofExcept r).Spares :=
    (hl.calls.bind fun _ => calls_ofExcept r).spares
  change (p.attempt.bind _).Spares
  induction p with
  | ret a => exact hlast (.ok a)
  | fail e => exact hlast (.error e)
  | get k ih => exact fun s => ih s (hp s)
  | set s k ih => exact ih hp
  | await b ready k ih => exact fun met => ih met (hp met)
  | clock k ih => exact fun left => ih left (hp left)
  | call q k ih =>
    rcases hp with ⟨hq, hk⟩ | ⟨hq, hok, herror⟩
    · exact .inl ⟨hq, fun r => ih r (hk r)⟩
    · exact .inr ⟨hq, fun a => (hok a).ensuring hl, fun e => ih _ (herror e)⟩
  | pause n k ih => exact ih hp

theorem spares_append (segment : Nat) (data : Bytes) :
    (request (.append segment data) : Program σ Nat).Spares := by
  refine Calls.spares_bind (p := checkTime) (fun left => ?_) fun _ => .inr ⟨trivial, ?_, ?_⟩
  · cases left <;> trivial
  · exact fun _ => trivial
  · exact fun _ => trivial

end Program

open Program

namespace Tables

variable {config : Config} {segment ref : Nat}

theorem calls_checkOpen {P : Call → Prop} : checkOpen.Calls P := by
  intro t
  change (ite _ _ _ : Program Tables Unit).Calls P
  split <;> trivial

theorem calls_checkIndex {P : Call → Prop} : checkIndex.Calls P := by
  intro t
  change (ite _ _ _ : Program Tables Unit).Calls P
  split <;> trivial

section Segment

variable {P : Call → Prop} {name : String} (hl : ∀ q : Call, q.Inquires name segment → P q)
include hl

theorem calls_indexRange (hu : ∀ us, P (.updateAttributes segment us)) (start stop : Nat) :
    (indexRange config segment start stop).Calls P := by
  rw [indexRange_eq]
  refine (calls_of_inquires (inquires_rangeLinks start stop) hl).bind fun links => ?_
  exact (calls_request (q := .updateAttributes ..) (hu _)).bind fun _ _ => trivial

theorem calls_recoverState (hu : config.mode = .inline → ∀ us, P (.updateAttributes segment us)) :
    (recoverState config segment ref).Calls P := by
  unfold recoverState
  refine Calls.bind (fun _ => trivial) fun s => ?_
  split
  · trivial
  refine (calls_of_inquires (inquires_attributeOf .indexOffset) hl).bind fun persisted => ?_
  refine Calls.bind (p := ask (.length segment)) ⟨hl _ rfl, calls_ofExcept⟩ fun length => ?_
  refine Calls.bind (fun _ => trivial) fun _ => ?_
  have hend : (change ref ({ · with recovered := some length }) >>= fun _ =>
      pure length).Calls P := Calls.bind (fun _ => trivial) fun _ => trivial
  split
  · split
    · next hm =>
      exact (calls_indexRange hl (hu hm) _ _).bind fun _ =>
        Calls.bind (fun _ => trivial) fun _ => hend
    · exact hend
  · exact hend

theorem calls_access (hu : config.mode = .inline → ∀ us, P (.updateAttributes segment us)) :
    (access config segment).Calls P := by
  have hrecover (ref : Nat) : (recover config segment ref).Calls P := by
    refine Calls.bind (fun met => ?_) fun _ => Calls.bind (fun _ => trivial) fun _ => ?_
    · cases met <;> trivial
    · exact (calls_recoverState hl hu).ensuring fun _ => trivial
  have hawait (ref target : Nat) : (awaitWatermark ref target).Calls P := by
    refine (calls_waitUntil _).bind fun _ => Calls.bind (fun _ => trivial) fun s => ?_
    split <;> trivial
  unfold access
  refine calls_checkIndex.bind fun _ => Calls.bind (fun _ => trivial) fun t => ?_
  generalize t.track segment = r
  obtain ⟨t, ref⟩ := r
  refine Calls.bind (fun _ => trivial) fun _ => ?_
  split
  · exact (hawait ref _).bind fun _ => trivial
  · exact (hrecover ref).bind fun target => (hawait ref target).bind fun _ => trivial

theorem calls_headsWith (hashes : List KeyHash) : (headsWith segment ref hashes).Calls P := by
  unfold headsWith
  refine Calls.bind (fun _ => trivial) fun t => ?_
  dsimp only
  split
  · trivial
  · refine (calls_request (q := .getAttributes ..) (hl _ rfl)).bind fun values => ?_
    exact Calls.bind (fun _ => trivial) fun t => Calls.bind (fun _ => trivial) fun _ => trivial

end Segment

theorem calls_persist {P : Call → Prop} (hu : ∀ us, P (.updateAttributes segment us)) (ref : Nat)
    (batch : PendingLinks) : (persist segment ref batch).Calls P := by
  have hrequest (us : List AttributeUpdate) :
      (request (.updateAttributes segment us) : Program Tables Unit).Calls P :=
    calls_request (q := .updateAttributes segment us) (hu us)
  unfold persist
  refine Calls.bind (fun _ => trivial) fun s => Calls.bind (fun _ => trivial) fun _ => ?_
  refine (hrequest _).attempt.bind fun r => ?_
  cases r with
  | error e => exact Calls.bind (fun _ => trivial) fun _ => trivial
  | ok _ =>
    refine Calls.bind (p := Program.read) (fun _ => trivial) fun t => ?_
    generalize retireAll segment ref t _ = r
    obtain ⟨t, moved⟩ := r
    refine Calls.bind (fun _ => trivial) fun _ => ?_
    cases moved with
    | none => trivial
    | some offset => exact (hrequest _).attempt.bind fun _ => trivial

theorem calls_looks {σ α : Type} {p : Program σ α} (hp : p.Inquires "" segment) :
    p.Calls Call.Looks := calls_of_inquires hp fun _ => Call.Inquires.looks

theorem calls_access_of_deferred (hm : config.mode = .deferred) :
    (access config segment).Calls Call.Looks :=
  calls_access (fun _ => Call.Inquires.looks) fun hi => by simp [hm] at hi

theorem calls_findFrom (hm : config.mode = .deferred) (mode : ReadMode) (key : Bytes)
    (left hops offset : Nat) :
    (Walk.findFrom mode segment (backpointer config segment) key left hops offset).Calls
      Call.Looks := by
  have hbackpointer (x : Nat) : (backpointer config segment x).Calls Call.Looks := by
    refine (calls_access_of_deferred hm).bind fun ref => Calls.bind (fun _ => trivial) fun s => ?_
    split
    · trivial
    · exact calls_looks (inquires_attributeOf _)
  induction left generalizing hops offset with
  | zero =>
    unfold Walk.findFrom
    refine (calls_looks (Walk.inquires_visit mode key offset)).bind fun a => ?_
    cases a <;> trivial
  | succ left ih =>
    unfold Walk.findFrom
    refine (calls_looks (Walk.inquires_visit mode key offset)).bind fun a => ?_
    cases a with
    | found | removed => trivial
    | other =>
      refine (hbackpointer offset).bind fun p => ?_
      cases p with
      | none => trivial
      | some y =>
        dsimp only
        split
        · exact ih _ _
        · trivial

theorem calls_lookup (hm : config.mode = .deferred) (mode : ReadMode) (name : String)
    (keys : List Bytes) : (lookup config mode name keys).Calls Call.Looks := by
  unfold lookup
  refine calls_checkOpen.bind fun _ => ?_
  split
  · trivial
  refine (calls_ofExcept _).bind fun hashes => ?_
  refine (calls_request (q := .resolve name) trivial).bind fun segment => ?_
  refine ((calls_access_of_deferred hm).bind fun ref =>
    calls_headsWith (fun _ => Call.Inquires.looks) _).bind fun heads => ?_
  induction keys.zip hashes with
  | nil => trivial
  | cons e l ih =>
    obtain ⟨key, hash⟩ := e
    rw [List.mapM_cons]
    refine Calls.bind ?_ fun _ => ih.bind fun _ => trivial
    dsimp only
    split
    · exact calls_findFrom hm mode _ _ _ _
    · trivial

/-- Writes that leave their links to an indexer cannot fail once they have appended. -/
theorem spares_update (hm : config.mode = .deferred) (batch : Batch) (data : Bytes) :
    (update config segment batch (request (.append segment data))).Spares := by
  unfold update
  refine calls_checkIndex.spares_bind fun _ => ?_
  refine (calls_waitUntil _).spares_bind fun _ => Calls.spares_bind (fun _ => trivial) fun _ => ?_
  refine Spares.ensuring ?_ fun _ => trivial
  refine (calls_access_of_deferred hm).spares_bind fun ref => ?_
  refine (calls_headsWith (fun _ => Call.Inquires.looks) _).spares_bind fun m => ?_
  refine (spares_append segment data).bind fun offset => ?_
  refine Faultless.bind (fun _ => trivial) fun _ => ?_
  rw [if_neg (by simp [hm])]
  trivial

theorem spares_write (hm : config.mode = .deferred) (name : String) (kind : RecordKind)
    (rs : List Record) : (write config name kind rs).Spares := by
  unfold write
  refine calls_checkOpen.spares_bind fun _ => ?_
  refine (calls_request (q := .resolve name) trivial).spares_bind fun segment => ?_
  split
  · trivial
  refine (calls_ofExcept _).spares_bind fun batch => ?_
  exact (spares_update hm batch _).bind fun _ => trivial

end Tables

/-- The operation goes through the index, and is not a run of the indexer. -/
def Operation.Accesses : Operation → Prop
  | .index .. => False
  | _ => True

theorem Operation.Accesses.spares {config : Config} {op : Operation} (hop : op.Accesses)
    (hm : config.mode = .deferred) (name : String) : (op.program config name).Spares := by
  cases op with
  | put entries => exact (Tables.spares_write hm name _ _).map _
  | remove keys =>
    refine Spares.map _ ?_
    exact (Tables.spares_write hm name _ _).bind fun _ => trivial
  | get keys =>
    refine Spares.map _ ?_
    exact (Tables.calls_lookup hm _ name keys).spares.bind fun _ => trivial
  | getKeys keys =>
    refine Spares.map _ ?_
    exact (Tables.calls_lookup hm _ name keys).spares.bind fun _ => trivial
  | index => exact hop.elim

def Container.Spared (c d : Container) : Prop :=
  ∀ id, (d.segment id).data = (c.segment id).data ∧
    (d.segment id).attributes = (c.segment id).attributes

namespace Container

variable {c : Container} {q : Call}

theorem Spared.refl (c : Container) : c.Spared c := fun _ => ⟨rfl, rfl⟩

theorem spared_modify (id : Nat) {f : Segment → Segment} (hd : ∀ s, (f s).data = s.data)
    (ha : ∀ s, (f s).attributes = s.attributes) : c.Spared (c.modify id f) := by
  intro other
  by_cases hid : id = other
  · subst hid
    by_cases hlt : id < c.segments.size
    · rw [segment_modify f hlt]
      exact ⟨hd _, ha _⟩
    · have hnone : c.segments[id]? = none := Array.getElem?_eq_none (by omega)
      simp [segment, modify, Array.getElem?_modify, hnone]
  · rw [segment_modify_of_ne f hid]
    exact ⟨rfl, rfl⟩

theorem spared_of_looks (hq : q.Looks) (fate : Fate) : c.Spared (c.serve q fate).1 := by
  have hperform : c.Spared (c.perform q).1 := by
    cases q with
    | resolve | read | length => exact .refl c
    | getAttributes id ids =>
      change c.Spared (c.settle (c.getAttributes id ids)).1
      unfold getAttributes
      cases c.existing id with
      | error e => exact .refl c
      | ok s => exact spared_modify id (fun _ => rfl) fun _ => rfl
    | create | delete | append | updateAttributes => exact hq.elim
  cases fate with
  | served | lost => exact hperform
  | refused => exact .refl c

theorem spared_of_append (hq : q.Appends) {e : TableError} (he : (c.perform q).2 = .error e) :
    c.Spared (c.perform q).1 := by
  cases q with
  | append id data =>
    change (c.settle (c.append id data [])).2 = _ at he
    change c.Spared (c.settle (c.append id data [])).1
    cases happend : c.append id data [] with
    | ok r =>
      rw [happend] at he
      cases he
    | error e => exact .refl c
  | resolve | create | delete | read | getAttributes | updateAttributes | length => exact hq.elim

end Container

namespace Pool

variable {σ α : Type} {around : Surroundings σ} {Q : Program σ α → Prop} {p : Program σ α}
  {y z u v : Pool σ α} {e : Event σ α} {es gs hs : List (Event σ α)} {i : Nat}

/-- What holds of a program holds of it however it goes on. -/
structure Hereditary (Q : Program σ α → Prop) : Prop where
  get : ∀ {k}, Q (.get k) → ∀ s, Q (k s)
  set : ∀ {s k}, Q (.set s k) → Q k
  await : ∀ {b ready k}, Q (.await b ready k) → ∀ met, Q (k met)
  clock : ∀ {k}, Q (.clock k) → ∀ left, Q (k left)
  call : ∀ {q k}, Q (.call q k) → ∀ r, Q (k r)
  pause : ∀ {n k}, Q (.pause n k) → Q k

theorem hereditary_faultless : Hereditary (Faultless : Program σ α → Prop) where
  get h := h
  set h := h
  await h := h
  clock h := h
  call h := h.elim
  pause h := h

theorem hereditary_spares : Hereditary (Spares : Program σ α → Prop) where
  get h := h
  set h := h
  await h := h
  clock h := h
  call {q k} h r := by
    rcases h with ⟨-, h⟩ | ⟨-, hok, herror⟩
    · exact h r
    · cases r with
      | ok a => exact (hok a).calls.spares
      | error e => exact herror e
  pause h := h

theorem Hereditary.advance (hQ : Hereditary Q) (hp : Q p) (s : σ) : Q (p.advance s).1 := by
  induction p generalizing s with
  | get k ih => exact ih s (hQ.get hp s) s
  | set t k ih => exact ih (hQ.set hp) t
  | ret | fail | await | clock | call | pause => exact hp

theorem Step.inherits (hQ : Hereditary Q) (h : Step around y e z) (hi : y.threads i = some p)
    (hp : Q p) (hno : ∀ r, e ≠ .finish i r) : ∃ p', z.threads i = some p' ∧ Q p' := by
  have hassign {w : Pool σ α} (hw : w.threads = y.threads) {j : Nat} {o : Option (Program σ α)}
      (ho : j = i → ∃ p', o = some p' ∧ Q p') :
      ∃ p', (w.assign j o).threads i = some p' ∧ Q p' := by
    unfold assign
    dsimp only
    by_cases hji : i = j
    · rw [if_pos hji]
      exact ho hji.symm
    · rw [if_neg hji, hw]
      exact ⟨p, hi, hp⟩
  have hmine {j : Nat} {p' : Program σ α} (hj : y.threads j = some p') (hji : j = i) : Q p' := by
    subst hji
    exact Option.some.inj (hj.symm.trans hi) ▸ hp
  cases h with
  | @start j q hj =>
    refine hassign rfl fun hji => ?_
    rw [hji, hi] at hj
    cases hj
  | get hj => exact hassign rfl fun hji => ⟨_, rfl, hQ.advance (hmine hj hji) _⟩
  | set hj => exact hassign rfl fun hji => ⟨_, rfl, hQ.advance (hmine hj hji) _⟩
  | awaited hj _ => exact hassign rfl fun hji => ⟨_, rfl, hQ.advance (hQ.await (hmine hj hji) _) _⟩
  | gaveUp hj _ => exact hassign rfl fun hji => ⟨_, rfl, hQ.advance (hQ.await (hmine hj hji) _) _⟩
  | clock _ hj => exact hassign rfl fun hji => ⟨_, rfl, hQ.advance (hQ.clock (hmine hj hji) _) _⟩
  | pause hj => exact hassign rfl fun hji => ⟨_, rfl, hQ.advance (hQ.pause (hmine hj hji)) _⟩
  | call fate hj _ => exact hassign rfl fun hji => ⟨_, rfl, hQ.call (hmine hj hji) _⟩
  | @returned j a hj => exact hassign rfl fun hji => absurd (by rw [hji]) (hno (.ok a))
  | @failed j e hj => exact hassign rfl fun hji => absurd (by rw [hji]) (hno (.error e))
  | drift => exact ⟨p, hi, hp⟩

theorem Steps.inherits (hQ : Hereditary Q) (h : Steps around y es z) (hi : y.threads i = some p)
    (hp : Q p) (hno : ∀ r, .finish i r ∉ es) : ∃ p', z.threads i = some p' ∧ Q p' := by
  induction h generalizing p with
  | refl => exact ⟨p, hi, hp⟩
  | head h _ ih =>
    obtain ⟨p', hi', hp'⟩ := h.inherits hQ hi hp fun r hr => hno r (by simp [hr])
    exact ih hi' hp' fun r hr => hno r (by simp [hr])

/-- No call of a program that comes to fail has altered anything that is stored. -/
theorem Step.spared {y z u v : Pool Tables α} {p : Program Tables α} {q : Call} {fate : Fate}
    {error : TableError} {gs hs : List (Event Tables α)} (hi : y.threads i = some p)
    (hp : p.Spares) (hbefore : Steps surroundings y gs u) (hg : ∀ r, .finish i r ∉ gs)
    (hcall : Step surroundings u (.call i q fate) v) (hafter : Steps surroundings v hs z)
    (hh : ∀ r, .finish i r ∉ hs) (hz : z.threads i = some (.fail error)) :
    u.container.Spared v.container := by
  obtain ⟨p', hi', hp'⟩ := hbefore.inherits hereditary_spares hi hp hg
  cases hcall with
  | @call _ _ k _ hu hfate =>
    obtain rfl := Option.some.inj (hi'.symm.trans hu)
    rcases hp' with ⟨hq, -⟩ | ⟨hq, hok, -⟩
    · exact Container.spared_of_looks hq fate
    cases fate with
    | refused e => exact .refl _
    | lost e =>
      cases q with
      | append segment data => exact absurd rfl (hfate e segment data rfl)
      | resolve | create | delete | read | getAttributes | updateAttributes | length =>
        exact hq.elim
    | served =>
      cases hr : (u.container.perform q).2 with
      | error e => exact Container.spared_of_append hq hr
      | ok a =>
        -- Whatever is appended, nothing fails from then on.
        have hv : (assign { u with container := (u.container.serve q .served).1 } i
            (some (k (u.container.serve q .served).2))).threads i = some (k (.ok a)) := by
          have hserve : (u.container.serve q .served).2 = .ok a := hr
          rw [hserve]
          exact if_pos rfl
        obtain ⟨p'', hz', hp''⟩ := hafter.inherits hereditary_faultless hv (hok a) hh
        obtain rfl := Option.some.inj (hz.symm.trans hz')
        exact hp''.elim

end Pool
end KeyedLog
