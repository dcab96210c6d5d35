import KeyedLog.Proofs.Extension.Requests

/-! Where an operation stands when it stops: outside of the index, at its door or let in. Whoever is
at the door when the index is closed gets no further. -/
namespace KeyedLog

open Program

/-- Stored bytes are malformed or damaged, a key has no hash, or a chain is too long or leads
forward. -/
def TableError.Unsound : TableError → Prop
  | .decode _ | .hashLength .. | .checksumMismatch .. | .corruptedBucket .. => True
  | _ => False

/-- How an operation ends at the door of a closed index, unless one of its calls fails. Whoever
accounts for old entries may find that they are not sound. -/
def Config.Halts (config : Config) (e : TableError) : Prop :=
  e = .closed ∨ e = .timeout ∨ config.mode = .inline ∧ e.Unsound

namespace Tables

variable {config : Config} {segment ref : Nat} {t u : Tables} {M : Tables → Prop}
  {E : TableError → Prop} {e : TableError}

section Barred

theorem unsound_of_decode {b : Bytes} (h : Record.decode recordChecksum b = .error e) :
    e.Unsound := by
  unfold Record.decode at h
  split at h
  · obtain rfl := Except.error.inj h
    trivial
  dsimp only at h
  split at h
  · obtain rfl := Except.error.inj h
    trivial
  · split at h
    · cases h
    · obtain rfl := Except.error.inj h
      trivial

theorem unsound_of_scan {offset : Nat} {b : Bytes}
    (h : (Scan.ofBytes recordChecksum offset b).error? = some e) : e.Unsound := by
  induction hn : b.length using Nat.strongRecOn generalizing offset b with
  | ind n ih =>
    unfold Scan.ofBytes at h
    split at h
    · cases h
    next hb =>
    split at h
    · next hd =>
      obtain rfl := Option.some.inj h
      exact unsound_of_decode hd
    · next header r hd =>
      refine ih _ ?_ h rfl
      have := Record.headerLength_le_totalLength header
      have := List.length_pos_iff.2 hb
      simp only [List.length_drop, headerLength] at *
      omega

theorem unsound_of_hash {hasher : Hasher} {key : Bytes} (h : hasher.hash key = .error e) :
    e.Unsound := by
  unfold Hasher.hash KeyHash.ofDigest at h
  split at h
  · obtain rfl := Except.error.inj h
    trivial
  · cases h

theorem unsound_of_hashRecords {start : Nat} {data : Bytes}
    (h : hashRecords config start data = .error e) : e.Unsound := by
  have hmap (rs : List Scanned) (h : (rs.mapM fun r => do
      return (r.offset, ← config.hasher.hash r.record.key) :
      Except TableError (List (Nat × KeyHash))) = .error e) : e.Unsound := by
    induction rs with
    | nil => cases h
    | cons r rs ih =>
      rw [List.mapM_cons] at h
      cases hr : config.hasher.hash r.record.key with
      | error e' =>
        rw [hr] at h
        obtain rfl := Except.error.inj h
        exact unsound_of_hash hr
      | ok hash =>
        rw [hr] at h
        refine ih ?_
        revert h
        cases rs.mapM fun r => do return (r.offset, ← config.hasher.hash r.record.key) with
        | error e' => exact id
        | ok _ => exact fun h => (by cases h)
  unfold hashRecords at h
  dsimp only at h
  generalize hscan : Scan.ofBytes recordChecksum start data = scan at h
  cases hentries : scan.records.mapM fun r => do
      return (r.offset, ← config.hasher.hash r.record.key) with
  | error e' =>
    rw [hentries] at h
    obtain rfl := Except.error.inj h
    exact hmap _ hentries
  | ok entries =>
    rw [hentries] at h
    cases herror : scan.error? with
    | none =>
      rw [Scan.outcome, herror] at h
      cases h
    | some e' =>
      rw [Scan.outcome, herror] at h
      obtain rfl := Except.error.inj h
      exact unsound_of_scan (hscan ▸ herror)

theorem barred_attributeOf {σ : Type} {M : σ → Prop} (ht : E .timeout) (id : AttributeId) :
    (attributeOf segment id).Barred M (fun _ => True) E :=
  (barred_request (q := .getAttributes segment [id]) (fun h => h) ht).bind fun _ _ => trivial

theorem barred_rewind (ht : E .timeout) (hu : ∀ e, e.Unsound → E e) (before hops left : Nat)
    (cur : Option Nat) :
    (rewind segment before hops left cur).Barred M (fun _ => True) E := by
  induction left generalizing hops cur with
  | zero =>
    cases cur with
    | none => trivial
    | some offset =>
      unfold rewind
      split
      · trivial
      · refine (barred_attributeOf ht _).bind fun previous _ => ?_
        split <;> exact hu _ trivial
  | succ left ih =>
    cases cur with
    | none => trivial
    | some offset =>
      unfold rewind
      split
      · trivial
      · refine (barred_attributeOf ht _).bind fun previous _ => ?_
        split
        · exact hu _ trivial
        · exact ih _ _

theorem barred_indexRange (ht : E .timeout) (hu : ∀ e, e.Unsound → E e) (start stop : Nat) :
    (indexRange config segment start stop).Barred M (fun _ => True) E := by
  unfold indexRange
  refine (barred_request id ht).bind fun data _ => ?_
  refine (barred_ofExcept fun e he => hu e (unsound_of_hashRecords he)).bind fun entries _ => ?_
  refine (barred_request id ht).bind fun persisted _ => ?_
  refine (barred_foldlM (fun heads e => ?_) _ ∅).bind fun before _ => ?_
  · refine (barred_rewind ht hu ..).bind fun offset _ => ?_
    cases offset <;> trivial
  refine (barred_request id ht).bind fun _ _ => ?_
  exact fun _ _ => trivial

/-- Whoever accounts for old entries appends nothing. -/
theorem barred_recover : (recover config segment ref).Barred M (fun _ => True) config.Halts := by
  have ht : config.Halts .timeout := .inr (.inl rfl)
  have hstate : (recoverState config segment ref).Barred M (fun _ => True) config.Halts := by
    unfold recoverState
    refine Barred.bind (K := fun _ => True) (fun _ _ => trivial) fun s _ => ?_
    split
    · trivial
    refine (barred_attributeOf ht _).bind fun persisted _ =>
      (barred_ask id).bind fun length _ => ?_
    refine Barred.bind (K := fun _ => True) (fun _ _ => trivial) fun _ _ => ?_
    have hend : (change ref ({ · with recovered := some length }) >>= fun _ =>
        pure length).Barred M (fun _ => True) config.Halts := fun _ _ => trivial
    split
    · split
      · next hm =>
        refine (barred_indexRange ht (fun e he => .inr (.inr ⟨hm, he⟩)) _ _).bind fun _ _ => ?_
        exact Barred.bind (K := fun _ => True) (fun _ _ => trivial) fun _ _ => hend
      · exact hend
    · exact hend
  unfold recover
  refine Barred.bind (K := fun _ => True) (fun met => ?_) fun _ _ => ?_
  · cases met with
    | true => trivial
    | false => exact ht
  · exact Barred.bind (K := fun _ => True) (fun _ _ => trivial) fun _ _ => hstate.ensuring _

theorem barred_awaitWatermark (target : Nat) :
    (awaitWatermark ref target).Barred (fun t => (t.state ref).watermark.closed = true)
      (fun _ => False) config.Halts := by
  refine (barred_waitUntil (.inr (.inl rfl)) _).bind fun _ _ t ht => ?_
  change (ite _ _ _ : Program Tables Unit).Barred _ _ _
  rw [if_pos ht]
  exact .inl rfl

/-- Wherever somebody stops on the way in, a closed watermark is the end of the way. -/
theorem barred_of_admission {known : Option Nat} {q : Program Tables Unit}
    (h : (admission config segment ref known).ComesTo q) (hq : q.Suspended) :
    q.Barred (fun t => (t.state ref).watermark.closed = true) (fun _ => False) config.Halts := by
  have hwaits {target : Nat} (h : (awaitWatermark ref target).ComesTo q) :
      q = awaitWatermark ref target := by
    cases h with
    | refl => rfl
    | await met h =>
      cases met with
      | false =>
        cases h
        exact hq.elim
      | true =>
        cases h with
        | refl => exact hq.elim
        | get t h =>
          change (ite _ _ _ : Program Tables Unit).ComesTo q at h
          split at h
          · cases h
            exact hq.elim
          · cases h
            exact hq.elim
  cases known with
  | some length =>
    have h : (awaitWatermark ref length).ComesTo q := h
    obtain rfl := hwaits h
    exact barred_awaitWatermark length
  | none =>
    rcases ComesTo.of_bind (p := recover config segment ref) (f := awaitWatermark ref) h with
      ⟨p, hp, rfl⟩ | ⟨target, h⟩
    · rcases barred_recover.comesTo hp with hp | ⟨e, he⟩
      · exact (hp.mono (fun _ _ => trivial) (fun _ => id) fun _ => id).bind fun target _ =>
          barred_awaitWatermark target
      · exact absurd he.bind (not_fails_of_suspended hq)
    · obtain rfl := hwaits h
      exact barred_awaitWatermark target

theorem barred_checkIndex (he : E .closed) :
    checkIndex.Barred (fun t => t.indexClosed = true) (fun _ => False) E := by
  intro t ht
  change (ite _ _ _ : Program Tables Unit).Barred _ _ _
  rw [if_pos ht]
  exact he

theorem barred_access : (access config segment).Barred (fun t => t.indexClosed = true)
    (fun _ => False) config.Halts :=
  (barred_checkIndex (.inl rfl)).bind fun _ h => h.elim

theorem barred_update (batch : Batch) (data : Bytes) :
    (update config segment batch (request (.append segment data))).Barred
      (fun t => t.indexClosed = true) (fun _ => False) fun _ => True := by
  unfold update
  exact (barred_checkIndex trivial).bind fun _ h => h.elim

theorem barred_withLocks {β : Type} {bs : List Bucket} {k : Nat → Program Tables β} :
    (withLocks bs (access config segment >>= k)).Barred (fun t => t.indexClosed = true)
      (fun _ => False) config.Halts := by
  refine (barred_waitUntil (.inr (.inl rfl)) _).bind fun _ _ => ?_
  refine Barred.bind (K := fun _ => True) (fun _ _ => trivial) fun _ _ => ?_
  exact (barred_access.bind fun _ h => h.elim).ensuring _

end Barred

def Retains (t u : Tables) : Prop :=
  ∀ segment ref : Nat, t.tracked[segment]? = some ref → u.tracked[segment]? = some ref

theorem Retains.refl (t : Tables) : t.Retains t := fun _ _ => id

theorem Retains.trans {v : Tables} (h : t.Retains u) (h' : u.Retains v) : t.Retains v :=
  fun k ref href => h' k ref (h k ref href)

section Standing

variable {α β : Type}

/-- Waits for its locks with the index ahead, or is on its way in: it accounts for old entries, or
waits until they are indexed. -/
inductive AtDoor (config : Config) (t : Tables) (p : Program Tables α) : Prop
  | locks {bs : List Bucket} {segment : Nat} {k : Nat → Program Tables Nat}
      {f : Except TableError Nat → Program Tables α} (hf : Passes f)
      (h : p = (withLocks bs (access config segment >>= k)).attempt.bind f)
  | admission {segment ref : Nat} {known : Option Nat}
      {f : Except TableError Unit → Program Tables α} (href : t.tracked[segment]? = some ref)
      (hf : Passes f) (h : p.Amid (admission config segment ref known) f)

def LetIn (config : Config) (t : Tables) (p : Program Tables α) : Prop :=
  ∃ (segment ref : Nat) (batch : Batch) (data : Bytes)
    (f : Except TableError Nat → Program Tables α), t.tracked[segment]? = some ref ∧
      p.Amid (linking config segment batch (request (.append segment data)) ref) f

/-- Was let in to read, and asks where a bucket begins, for an entry or for the one before it. -/
inductive Searches (p : Program Tables α) : Prop
  | heads {segment ref : Nat} {hashes : List KeyHash}
      {f : Except TableError Heads → Program Tables α}
      (h : p.Amid (headsWith segment ref hashes) f)
  | entry {mode : ReadMode} {segment : Nat} {key : Bytes} {offset : Nat}
      {f : Except TableError Walk.Answer → Program Tables α}
      (h : p.Amid (Walk.visit mode segment key offset) f)
  | backpointer {segment offset : Nat} {f : Except TableError (Option Nat) → Program Tables α}
      (h : p.Amid (attributeOf segment (.backpointer offset)) f)

/-- Where an operation on a table stops once it has found its segment. -/
inductive Inside (config : Config) (reads : Prop) (t : Tables) (p : Program Tables α) : Prop
  | door (h : AtDoor config t p)
  | writes (hr : ¬reads) (h : LetIn config t p)
  | searches (hr : reads) (h : Searches p)

/-- Where an operation on a table stops. -/
inductive Standing (config : Config) (reads : Prop) (t : Tables) (p : Program Tables α) : Prop
  | outside {name : String} {f : Except TableError Nat → Program Tables α}
      (h : p.Amid (request (.resolve name)) f)
      (hb : p.Barred (fun t => t.indexClosed = true) (fun _ => True) fun _ => True)
  | inside (h : Inside config reads t p)

variable {reads : Prop} {p : Program Tables α}

theorem AtDoor.attempt_bind {f : Except TableError α → Program Tables β} (h : AtDoor config t p)
    (hf : Passes f) : AtDoor config t (p.attempt.bind f) := by
  cases h with
  | @locks bs segment k g hg h =>
    have heq : p.attempt.bind f = (withLocks bs (access config segment >>= k)).attempt.bind
        fun r => (g r).attempt.bind f := by
      rw [h, attempt_bind_attempt]
      exact bind_assoc ..
    exact .locks (hg.comp hf) heq
  | admission href hg h => exact .admission href (hg.comp hf) (h.attempt_bind f)

theorem Inside.attempt_bind {f : Except TableError α → Program Tables β}
    (h : Inside config reads t p) (hf : Passes f) : Inside config reads t (p.attempt.bind f) := by
  cases h with
  | door h => exact .door (h.attempt_bind hf)
  | writes hr h =>
    obtain ⟨segment, ref, batch, data, g, href, h⟩ := h
    exact .writes hr ⟨segment, ref, batch, data, _, href, h.attempt_bind f⟩
  | searches hr h =>
    cases h with
    | heads h => exact .searches hr (.heads (h.attempt_bind f))
    | entry h => exact .searches hr (.entry (h.attempt_bind f))
    | backpointer h => exact .searches hr (.backpointer (h.attempt_bind f))

theorem Inside.retains (h : Inside config reads t p) (ht : t.Retains u) :
    Inside config reads u p := by
  cases h with
  | door h =>
    cases h with
    | locks hf h => exact .door (.locks hf h)
    | admission href hf h => exact .door (.admission (ht _ _ href) hf h)
  | writes hr h =>
    obtain ⟨segment, ref, batch, data, g, href, h⟩ := h
    exact .writes hr ⟨segment, ref, batch, data, g, ht _ _ href, h⟩
  | searches hr h => exact .searches hr h

theorem Standing.retains (h : Standing config reads t p) (ht : t.Retains u) :
    Standing config reads u p := by
  cases h with
  | outside h hb => exact .outside h hb
  | inside h => exact .inside (h.retains ht)

theorem Standing.map (h : Standing config reads t p) (f : α → β) :
    Standing config reads t (p.attempt.bind fun r => (ofExcept r).bind fun a => .ret (f a)) := by
  cases h with
  | outside h hb =>
    exact .outside (h.attempt_bind _) (hb.attempt_bind (fun _ _ => trivial) (passes_bind _))
  | inside h => exact .inside (h.attempt_bind (passes_bind _))

def Enters (config : Config) (reads : Prop) (K : α → Tables → Prop) (p : Program Tables α)
    (t : Tables) : Prop :=
  p.Stops Retains (fun q t => Inside config reads t q) K (fun _ _ => True) t

theorem Enters.bind {K : α → Tables → Prop} {K' : β → Tables → Prop} {f : α → Program Tables β}
    (hp : Enters config reads K p t) (hf : ∀ a t, K a t → Enters config reads K' (f a) t) :
    Enters config reads K' (p >>= f) t := by
  change (p.bind f).Stops _ _ _ _ _
  rw [bind_eq_attempt_bind, stops_attempt_bind]
  exact Stops.mono hp (fun q u _ h => h.attempt_bind (passes_bind f)) hf fun _ _ _ => trivial

theorem Enters.mono {K K' : α → Tables → Prop} (hp : Enters config reads K p t)
    (hK : ∀ a t, K a t → K' a t) : Enters config reads K' p t :=
  Stops.mono hp (fun _ _ _ => id) hK fun _ _ => id

theorem Enters.ensuring (hp : Enters config reads (fun _ _ => True) p t) (f : Tables → Tables) :
    Enters config reads (fun _ _ => True) (p.ensuring (modify f)) t := by
  have hf : Passes fun r : Except TableError α =>
      Program.modify f >>= fun _ => (ofExcept r : Program Tables α) := fun _ _ => rfl
  change (p.attempt.bind _).Stops _ _ _ _ _
  rw [stops_attempt_bind]
  exact Stops.mono hp (fun q u _ h => h.attempt_bind hf) (fun _ _ _ => trivial) fun _ _ _ => trivial

theorem enters_amid {I : Tables → Tables → Prop} {C : Call → Prop} {H : Tables → Prop}
    (hp : p.Makes I C t) (hI : ∀ t u, I t u → H t → H u) (ha : ∀ t u, t.Retains u → H t → H u)
    (ht : H t) (hP : ∀ q u, q.Amid p ofExcept → H u → Inside config reads u q) :
    Enters config reads (fun _ => H) p t :=
  (stops_amid hp hI ha ht).mono (fun q u _ h => hP q u h.1 h.2) (fun _ _ => id)
    fun _ _ _ => trivial

theorem enters_access :
    Enters config reads (fun ref t => t.tracked[segment]? = some ref) (access config segment)
      t := by
  rw [access_eq]
  change ((ite _ _ _ : Program Tables Unit).bind _).Stops _ _ _ _ _
  split
  · trivial
  have htracked : (t.track segment).1.tracked[segment]? = some (t.track segment).2 := by
    unfold track
    cases hn : t.tracked[segment]? with
    | some ref => exact hn
    | none => exact Std.ExtTreeMap.getElem?_insert_self
  change Enters config reads (fun ref t => t.tracked[segment]? = some ref)
    (admission config segment (t.track segment).2 _ >>= fun _ => pure (t.track segment).2) _
  refine Enters.bind (K := fun _ t' => t'.tracked[segment]? = some (t.track segment).2) ?_
    fun _ _ => id
  refine enters_amid (makes_admission mild_stays _) (fun _ _ h href => h.tracked ▸ href)
      (fun _ _ h => h _ _)
    htracked fun q u hq href => ?_
  exact .door (.admission href passes_ofExcept hq)

theorem enters_linking (hr : ¬reads) (batch : Batch) (data : Bytes)
    (href : t.tracked[segment]? = some ref) :
    Enters config reads (fun _ _ => True)
      (linking config segment batch (request (.append segment data)) ref) t := by
  apply Enters.mono (K := fun _ t => t.tracked[segment]? = some ref)
  · have hmakes : (linking config segment batch (request (.append segment data)) ref).Makes Stays
        (fun _ => True) t :=
      makes_linking (fun _ => makes_request trivial) (fun _ _ => trivial) mild_stays batch
    refine enters_amid hmakes (fun _ _ h href => h.tracked ▸ href) (fun _ _ h => h _ _) href
      fun q u hq href => ?_
    exact .writes hr ⟨segment, ref, batch, data, _, href, hq⟩
  · exact fun _ _ _ => trivial

theorem enters_withLocks {bs : List Bucket} {k : Nat → Program Tables Nat}
    (hk : ∀ ref t, t.tracked[segment]? = some ref →
      Enters config reads (fun _ _ => True) (k ref) t) :
    Enters config reads (fun _ _ => True) (withLocks bs (access config segment >>= k)) t := by
  intro u hu
  constructor
  · exact .door (.locks passes_ofExcept (attempt_bind_ofExcept _).symm)
  · intro met
    cases met with
    | false => trivial
    | true => exact Enters.ensuring (enters_access.bind hk) _

theorem enters_update (hr : ¬reads) (batch : Batch) (data : Bytes) :
    Enters config reads (fun _ _ => True)
      (update config segment batch (request (.append segment data))) t := by
  unfold update
  change ((ite _ _ _ : Program Tables Unit).bind _).Stops _ _ _ _ _
  split
  · trivial
  · exact enters_withLocks fun ref t href => enters_linking hr batch data href

theorem enters_searches {I : Tables → Tables → Prop} {C : Call → Prop} (hp : p.Makes I C t)
    (hr : reads) (hP : ∀ q : Program Tables α, q.Amid p ofExcept → Searches q) :
    Enters config reads (fun _ _ => True) p t :=
  enters_amid (H := fun _ => True) hp (fun _ _ _ => id) (fun _ _ _ => id) trivial fun q _ hq _ =>
    .searches hr (hP q hq)

theorem enters_backpointer (hr : reads) (offset : Nat) :
    Enters config reads (fun _ _ => True) (backpointer config segment offset) t := by
  unfold backpointer
  refine enters_access.bind fun ref u _ =>
    Enters.bind (K := fun _ _ => True) trivial fun s v _ => ?_
  split
  · trivial
  · refine enters_searches (C := Unwritten) (I := Stays) ?_ hr fun q hq => .backpointer hq
    exact makes_of_inquires (inquires_attributeOf _)

theorem enters_findFrom (hr : reads) (mode : ReadMode) (key : Bytes) (left hops offset : Nat) :
    Enters config reads (fun _ _ => True)
      (Walk.findFrom mode segment (backpointer config segment) key left hops offset) t := by
  have hvisit (offset : Nat) (t : Tables) : Enters config reads (fun _ _ => True)
      (Walk.visit mode segment key offset) t :=
    enters_searches (I := Stays) (makes_visit mode key offset) hr fun q hq => .entry hq
  induction left generalizing hops offset t with
  | zero =>
    unfold Walk.findFrom
    refine (hvisit offset t).bind fun a t _ => ?_
    cases a <;> trivial
  | succ left ih =>
    unfold Walk.findFrom
    refine (hvisit offset t).bind fun a t _ => ?_
    cases a with
    | found | removed => trivial
    | other =>
      refine (enters_backpointer hr offset).bind fun p t _ => ?_
      cases p with
      | none => trivial
      | some y =>
        dsimp only
        split
        · exact ih _ _
        · trivial

def Stationed (config : Config) (reads : Prop) (p : Program Tables α) (t : Tables) : Prop :=
  p.Stops Retains (fun q t => Standing config reads t q) (fun _ _ => True) (fun _ _ => True) t

theorem Stationed.map (hp : Stationed config reads p t) (f : α → β) :
    Stationed config reads (f <$> p) t := by
  change (p.bind fun a => .ret (f a)).Stops _ _ _ _ _
  rw [bind_eq_attempt_bind, stops_attempt_bind]
  exact Stops.mono hp (fun q u _ h => h.map f) (fun _ _ _ => trivial) fun _ _ _ => trivial

theorem Stationed.retains (hp : Stationed config reads p t) (hs : p.Suspended ∨ p.Over)
    (ht : t.Retains u) : Stationed config reads p u := by
  cases p with
  | ret | fail => trivial
  | get | set =>
    rcases hs with hs | ⟨o, ho⟩
    · exact hs.elim
    · cases o <;> cases ho
  | await | clock | call | pause => exact fun v hv => hp v (ht.trans hv)

theorem Stationed.standing (hp : Stationed config reads p t) (hs : p.Suspended) :
    Standing config reads t p := by
  cases p with
  | ret | fail | get | set => exact hs.elim
  | await | clock | call | pause => exact (hp t (.refl t)).1

theorem Stationed.resume {q : Program Tables α} (hp : Stationed config reads p t)
    (h : p.Resumes q) : Stationed config reads q t := by
  cases h with
  | get | set => exact hp
  | await met => exact (hp t (.refl t)).2 met
  | clock left => exact (hp t (.refl t)).2 left
  | pause => exact (hp t (.refl t)).2

/-- First the segment is asked for, and then the index. -/
theorem stationed_resolve {name : String} {f : (Call.resolve name).Answer → Program Tables α}
    (hb : ∀ segment,
      (f segment).Barred (fun t => t.indexClosed = true) (fun _ => True) fun _ => True)
    (hf : ∀ segment t, Enters config reads (fun _ _ => True) (f segment) t) :
    Stationed config reads (request (.resolve name) >>= f) t := by
  have hresolve : (request (.resolve name) : Program Tables _).Barred (fun _ => True)
      (fun _ => True) fun _ => True :=
    barred_request (q := .resolve name) (fun h => h) trivial
  change (Program.bind (request (.resolve name)) f).Stops _ _ _ _ _
  rw [bind_eq_attempt_bind, stops_attempt_bind]
  have hstops : (request (.resolve name) : Program Tables _).Stops Retains
      (fun q _ => q.Amid (request (.resolve name)) ofExcept ∧ True) (fun _ _ => True)
      (fun _ _ => True) t :=
    stops_amid (I := Stays) (H := fun _ => True)
      (makes_request (q := .resolve name) (C := fun _ => True) trivial) (fun _ _ _ => id)
      (fun _ _ _ => id) trivial
  refine hstops.mono (fun q u hq h => ?_) (fun segment u _ => ?_) fun _ _ _ => trivial
  · obtain ⟨⟨q', hq', hs, heq⟩, -⟩ := h
    rw [attempt_bind_ofExcept] at heq
    subst heq
    refine .outside ⟨q, hq', hs, rfl⟩ ?_
    rcases hresolve.comesTo hq' with hb' | ⟨e, he⟩
    · exact (hb'.mono (fun _ _ => trivial) (fun _ => id) fun _ => id).attempt_bind
        (fun segment _ => hb segment) (passes_bind f)
    · exact absurd he (not_fails_of_suspended hs)
  · exact Stops.mono (hf segment u) (fun _ _ _ => .inside) (fun _ _ => id) fun _ _ => id

theorem stationed_lookup (mode : ReadMode) (name : String) (keys : List Bytes) :
    Stationed config True (lookup config mode name keys) t := by
  unfold lookup
  change ((ite _ _ _ : Program Tables Unit).bind _).Stops _ _ _ _ _
  split
  · trivial
  change Stationed _ _ (ite _ _ _) _
  split
  · trivial
  cases keys.mapM config.hasher.hash with
  | error e => trivial
  | ok hashes =>
    refine stationed_resolve (fun segment => ?_) fun segment t => ?_
    · have hheads : (heads config segment hashes.eraseDups).Barred
          (fun t => t.indexClosed = true) (fun _ => False) config.Halts :=
        barred_access.bind fun _ h => h.elim
      exact (hheads.mono (fun _ => id) (fun _ => id) fun _ _ => trivial).bind fun _ h => h.elim
    · have hheads : Enters config True (fun _ _ => True)
          (heads config segment hashes.eraseDups) t :=
        enters_access.bind fun ref t _ =>
          enters_searches (makes_headsWith mild_stays _) trivial fun q hq => .heads hq
      refine hheads.bind fun heads t _ => ?_
      induction keys.zip hashes generalizing t with
      | nil => trivial
      | cons e l ih =>
        obtain ⟨key, hash⟩ := e
        rw [List.mapM_cons]
        refine Enters.bind (K := fun _ _ => True) ?_ fun _ t _ =>
          Enters.bind (ih t) fun _ _ _ => trivial
        dsimp only
        split
        · exact enters_findFrom trivial mode _ _ _ _
        · trivial

theorem stationed_write (name : String) (kind : RecordKind) (rs : List Record) :
    Stationed config False (write config name kind rs) t := by
  unfold write
  change ((ite _ _ _ : Program Tables Unit).bind _).Stops _ _ _ _ _
  split
  · trivial
  refine stationed_resolve (fun segment => ?_) fun segment t => ?_
  · split
    · trivial
    refine (barred_ofExcept fun _ _ => trivial).bind fun batch _ => ?_
    exact (barred_update batch _).bind fun _ h => h.elim
  · split
    · trivial
    apply Enters.bind (K := fun _ _ => True)
    · cases Batch.ofRecords config.hasher config.maxBatchLength kind rs <;> trivial
    · exact fun batch t _ => (enters_update id batch _).bind fun _ _ _ => trivial

end Standing

end Tables

namespace Request

variable {config : Config} {t : Tables}

def OnTable : Request → Prop
  | .table _ op => op.Accesses
  | _ => False

theorem stands (config : Config) (t : Tables) {r : Request} (hr : r.OnTable) :
    Tables.Stationed config r.Reads (r.program config) t := by
  cases r with
  | table name op =>
    cases op with
    | put => exact ((Tables.stationed_write ..).map _).map _
    | remove => exact (((Tables.stationed_write ..).map _).map _).map _
    | get => exact (((Tables.stationed_lookup ..).map _).map _).map _
    | getKeys => exact (((Tables.stationed_lookup ..).map _).map _).map _
    | index => exact hr.elim
  | create | delete | connect | prepare | unsupported | notify => exact hr.elim

/-- A closed extension accepts no writes. -/
theorem barred {r : Request} (hr : ¬r.Reads) :
    (r.program config).Barred (fun t => t.closed = true) (fun _ => True) fun _ => True := by
  have hwrite (name : String) (kind : RecordKind) (rs : List Record) :
      (Tables.write config name kind rs).Barred (fun t => t.closed = true) (fun _ => True)
        fun _ => True := by
    refine Barred.bind (K := fun _ => False) (fun t ht => ?_) fun _ h => h.elim
    change (ite _ _ _ : Program Tables Unit).Barred _ _ _
    rw [if_pos ht]
    trivial
  cases r with
  | table name op =>
    cases op with
    | put =>
      refine Barred.map (K := fun _ => True) some ?_ fun _ _ => trivial
      exact (hwrite _ _ _).map _ fun _ _ => trivial
    | remove =>
      refine Barred.map (K := fun _ => True) some ?_ fun _ _ => trivial
      refine Barred.map (K := fun _ => True) _ ?_ fun _ _ => trivial
      exact (hwrite _ _ _).map _ fun _ _ => trivial
    | get | getKeys | index => exact absurd trivial hr
  | create | delete | connect | prepare | unsupported | notify => exact absurd trivial hr

end Request
end KeyedLog
