import KeyedLog.Proofs.Extension.NotedOperations
import KeyedLog.Proofs.Extension.Restriction
import KeyedLog.Proofs.Log.Format

/-! Bucket heads, backpointers and the index offset are kept apart: where one of them is, nothing
else is ever written. -/
namespace KeyedLog

namespace KeyHash

def bytes (h : KeyHash) : Bytes :=
  Bytes.bigEndian 8 h.hi.toNat ++ Bytes.bigEndian 8 h.lo.toNat

/-- A hash as the leading bytes of a digest spell it, and what it becomes: only reserved high words
are changed, to their free neighbours. -/
structure Evades (w h : KeyHash) : Prop where
  proper : h.Proper
  lo : h.lo = w.lo
  hi : h.hi = w.hi ∨ w.hi = coreWord ∧ h.hi = w.hi + 1 ∨ w.hi = backpointerWord ∧ h.hi = w.hi - 1
  unchanged : w.Proper → h = w

theorem evades_evade (w : KeyHash) : w.Evades ⟨evade w.hi, w.lo⟩ where
  proper := evade_ne w.hi
  lo := rfl
  hi := by
    unfold evade
    split
    · next h => exact .inr (.inl ⟨h, rfl⟩)
    · split
      · next h => exact .inr (.inr ⟨h, rfl⟩)
      · exact .inl rfl
  unchanged hw := by
    unfold evade
    rw [if_neg hw.1, if_neg hw.2]

theorem bigEndian_word {b : Bytes} (hb : b.length = 8) :
    Bytes.bigEndian 8 (UInt64.ofNat b.toNat).toNat = b := by
  have hlt : b.toNat < 1 <<< (8 * b.length) := Bytes.toNat_lt b
  rw [hb] at hlt
  rw [UInt64.toNat_ofNat_of_lt' hlt, ← hb, Bytes.bigEndian_toNat]

theorem exists_ofDigest {digest : Bytes} (h : size ≤ digest.length) :
    ∃ w k : KeyHash, w.bytes = digest.take size ∧ ofDigest digest = .ok k ∧ w.Evades k := by
  have hsize : 16 ≤ digest.length := h
  refine ⟨⟨.ofNat (Bytes.toNat (digest.slice 0 8)), .ofNat (Bytes.toNat (digest.slice 8 16))⟩, _,
    ?_, if_neg (Nat.not_lt.2 h), evades_evade _⟩
  have hhi : (digest.slice 0 8).length = 8 := by simp [Bytes.slice]; omega
  have hlo : (digest.slice 8 16).length = 8 := by simp [Bytes.slice]; omega
  rw [bytes, bigEndian_word hhi, bigEndian_word hlo]
  simp only [Bytes.slice, List.drop_zero]
  exact (List.take_add ..).symm

end KeyHash

/-- What a hasher answers for a key. Digests that are too short are rejected. -/
structure Hasher.Separates (hasher : Hasher) (key : Bytes) : Prop where
  rejects : (hasher.digest key).length < KeyHash.size ↔
    hasher.hash key = .error (.hashLength KeyHash.size (hasher.digest key).length)
  hashes : KeyHash.size ≤ (hasher.digest key).length → ∃ w h : KeyHash,
    w.bytes = (hasher.digest key).take KeyHash.size ∧ hasher.hash key = .ok h ∧ w.Evades h

theorem Hasher.separates (hasher : Hasher) (key : Bytes) : hasher.Separates key where
  rejects := by
    refine ⟨fun h => if_pos h, fun h => ?_⟩
    by_contra hlong
    obtain ⟨w, k, -, hk, -⟩ := KeyHash.exists_ofDigest (Nat.not_lt.1 hlong)
    cases hk.symm.trans h
  hashes := KeyHash.exists_ofDigest

theorem Hasher.custom_eq (digest : Bytes → Bytes) :
    custom digest = if (digest []).length < KeyHash.size
      then .error (.hashLength KeyHash.size (digest []).length) else .ok ⟨digest, false⟩ := by
  unfold custom hash KeyHash.ofDigest
  dsimp only
  split <;> rfl

namespace AttributeUpdate

/-- The updates that a table is ever asked for. -/
inductive Known (hasher : Hasher) : AttributeUpdate → Prop
  | link {u : AttributeUpdate} (h : u.Links hasher) : Known hasher u
  | indexOffset (n : Nat) : Known hasher (.replaceIfGreater .indexOffset n)

variable {hasher : Hasher} {u : AttributeUpdate}

theorem Links.not_isCore (h : u.Links hasher) : u.id.isCore = false := by
  cases h with
  | head hk => exact beq_eq_false_iff_ne.2 (Hasher.proper_of_hash hk).1
  | backpointer x y => exact beq_eq_false_iff_ne.2 (show KeyHash.backpointerWord ≠ _ by decide)

theorem Known.eq_of_indexOffset (h : u.Known hasher) (hid : u.id = .indexOffset) :
    u = .replaceIfGreater .indexOffset u.value := by
  cases h with
  | indexOffset n => rfl
  | link h =>
    have hcore := h.not_isCore
    rw [hid] at hcore
    cases hcore

theorem Known.eq_of_backpointer (h : u.Known hasher) {x : Nat} (hid : u.id = .backpointer x) :
    u = .replace (.backpointer x) u.value := by
  cases h with
  | indexOffset n => exact absurd hid.symm (AttributeId.backpointer_ne_indexOffset x)
  | link h =>
    cases h with
    | head hk y => exact absurd hid (AttributeId.bucket_ne_backpointer (Hasher.proper_of_hash hk) x)
    | backpointer y z =>
      obtain rfl := AttributeId.backpointer_inj.1 hid
      rfl

theorem Known.eq_of_bucket (h : u.Known hasher) {k : KeyHash} (hk : k.Proper)
    (hid : u.id = .bucket k) : u = .replaceIfGreater (.bucket k) u.value := by
  cases h with
  | indexOffset n => exact absurd hid.symm (AttributeId.bucket_ne_indexOffset hk)
  | link h =>
    cases h with
    | head _ y =>
      obtain rfl := AttributeId.bucket_inj.1 hid
      rfl
    | backpointer y z => exact absurd hid.symm (AttributeId.bucket_ne_backpointer hk y)

theorem Known.id_cases (h : u.Known hasher) : u.id = .indexOffset ∨ (∃ x, u.id = .backpointer x) ∨
    ∃ key k, hasher.hash key = .ok k ∧ u.id = .bucket k := by
  cases h with
  | indexOffset n => exact .inl rfl
  | link h =>
    cases h with
    | head hk y => exact .inr (.inr ⟨_, _, hk, rfl⟩)
    | backpointer x y => exact .inr (.inl ⟨x, rfl⟩)

end AttributeUpdate

/-- Attributes change only where something is written, and what is written there is of one kind. -/
structure Attributes.KeptApart (hasher : Hasher) (wrote : AttributeUpdate → Prop)
    (m m' : Attributes) : Prop where
  indexOffset : m'[AttributeId.indexOffset]? = m[AttributeId.indexOffset]? ∨
    ∃ n, wrote (.replaceIfGreater .indexOffset n) ∧ m'[AttributeId.indexOffset]? = some n
  backpointer : ∀ x, m'[AttributeId.backpointer x]? = m[AttributeId.backpointer x]? ∨
    ∃ p, wrote (.replace (.backpointer x) p) ∧ m'[AttributeId.backpointer x]? = some p
  head : ∀ {key h}, hasher.hash key = .ok h →
    m'[AttributeId.bucket h]? = m[AttributeId.bucket h]? ∨
      ∃ x, wrote (.replaceIfGreater (.bucket h) x) ∧ m'[AttributeId.bucket h]? = some x
  other : ∀ id : AttributeId, id ≠ .indexOffset → (∀ x, id ≠ .backpointer x) →
    (∀ key h, hasher.hash key = .ok h → id ≠ .bucket h) → m'[id]? = m[id]?

theorem Attributes.keptApart {hasher : Hasher} {wrote : AttributeUpdate → Prop}
    {m m' : Attributes} (hknown : ∀ u, wrote u → u.Known hasher)
    (h : ∀ id, m'[id]? = m[id]? ∨ ∃ u, wrote u ∧ u.id = id ∧ m'[id]? = some u.value) :
    KeptApart hasher wrote m m' where
  indexOffset := (h _).imp_right fun ⟨u, hu, hid, hv⟩ =>
    ⟨u.value, (hknown u hu).eq_of_indexOffset hid ▸ hu, hv⟩
  backpointer x := (h _).imp_right fun ⟨u, hu, hid, hv⟩ =>
    ⟨u.value, (hknown u hu).eq_of_backpointer hid ▸ hu, hv⟩
  head hk := (h _).imp_right fun ⟨u, hu, hid, hv⟩ =>
    ⟨u.value, (hknown u hu).eq_of_bucket (Hasher.proper_of_hash hk) hid ▸ hu, hv⟩
  other id hoffset hback hbucket := by
    refine (h id).resolve_right fun ⟨u, hu, hid, _⟩ => ?_
    rcases (hknown u hu).id_cases with ho | ⟨x, hx⟩ | ⟨key, k, hk, hb⟩
    · exact hoffset (hid.symm.trans ho)
    · exact hback x (hid.symm.trans hx)
    · exact hbucket key k hk (hid.symm.trans hb)

namespace Container

variable {c d : Container} {q : Call} {k : Nat} {id : AttributeId}

/-- Nothing but updates changes the attributes of a segment. -/
theorem Becomes.attribute (h : c.Becomes q d) (hk : k < c.segments.size) (id : AttributeId) :
    (d.segment k).attributes[id]? = (c.segment k).attributes[id]? ∨
      ∃ us, q = .updateAttributes k us ∧ ∃ u ∈ us, u.id = id ∧
        (d.segment k).attributes[id]? = some u.value := by
  have hother (j : Nat) (f : Segment → Segment) (hf : ∀ s, (f s).attributes = s.attributes) :
      ((c.modify j f).segment k).attributes[id]? = (c.segment k).attributes[id]? := by
    by_cases hjk : j = k
    · rw [hjk, segment_modify f hk, hf]
    · rw [segment_modify_of_ne f hjk]
  cases h with
  | same => exact .inl rfl
  | create us => exact .inl (by simp [segment, Array.getElem?_push_lt hk, hk])
  | delete hj => exact .inl (hother _ _ fun _ => rfl)
  | append j data => exact .inl (hother _ _ fun _ => rfl)
  | getAttributes j ids => exact .inl (hother _ _ fun _ => rfl)
  | updateAttributes j us =>
    by_cases hjk : j = k
    · subst hjk
      rw [segment_modify _ hk]
      exact (Attributes.getElem?_updateAll_or _ us id).imp_right fun hu => ⟨us, rfl, hu⟩
    · exact .inl (by rw [segment_modify_of_ne _ hjk])

end Container

open Notes

theorem Batch.Lists.links {hasher : Hasher} {b : Batch} {rs : List Record}
    (hb : b.Lists hasher rs) (offset : Nat) (current : Heads) :
    ∀ u ∈ (Links.ofBatch b offset current).updates, u.Links hasher := by
  intro u hu
  rcases List.mem_append.1 hu with hu | hu
  · obtain ⟨⟨h, x⟩, hx, rfl⟩ := List.mem_map.1 hu
    obtain ⟨k, hk, hkx⟩ := List.mem_filterMap.1 hx
    obtain ⟨y, -, hy⟩ := Option.map_eq_some_iff.1 hkx
    obtain ⟨rfl, rfl⟩ := Prod.mk.inj hy
    obtain ⟨r, -, hr⟩ := hb.mem_hashes.1 hk
    exact .head hr y
  · obtain ⟨⟨x, p⟩, -, hp⟩ := List.mem_filterMap.1 hu
    obtain ⟨y, -, rfl⟩ := Option.map_eq_some_iff.1 hp
    exact .backpointer x y

def LinksOnly (hasher : Hasher) (bs : List PendingLinks) : Prop :=
  ∀ b ∈ bs, ∀ u ∈ b.links.updates, u.Links hasher

structure Prepared (hasher : Hasher) (t : Tables) (n : Notes) : Prop where
  pending : ∀ ref, LinksOnly hasher (t.state ref).pending
  carried : LinksOnly hasher n.carried

namespace Prepared

variable {config : Config} {hasher : Hasher} {t u : Tables} {n m : Notes}

theorem of_states (h : Prepared hasher t n)
    (hu : ∀ ref, (u.state ref).pending = (t.state ref).pending) (hm : m.carried = n.carried) :
    Prepared hasher u m where
  pending ref := hu ref ▸ h.pending ref
  carried := hm ▸ h.carried

theorem modifyState (h : Prepared hasher t n) (ref : Nat) {f : SegmentState → SegmentState}
    (hf : LinksOnly hasher (f (t.state ref)).pending) (hm : LinksOnly hasher m.carried) :
    Prepared hasher (t.modifyState ref f) m where
  pending r := by
    rw [Tables.state_modifyState]
    split
    · next hr => rwa [← hr.1]
    · exact h.pending r
  carried := hm

theorem pending_modifyState {ref : Nat} (f : SegmentState → SegmentState)
    (hf : (f (t.state ref)).pending = (t.state ref).pending) (r : Nat) :
    ((t.modifyState ref f).state r).pending = (t.state r).pending := by
  rw [Tables.state_modifyState]
  split
  · next hr => rw [← hr.1, hf]
  · rfl

theorem pending_retireAll (segment ref : Nat) (bs : List PendingLinks) (t : Tables) (r : Nat) :
    ((Tables.retireAll segment ref t bs).1.state r).pending = (t.state r).pending := by
  unfold Tables.retireAll
  generalize (none : Option Nat) = moved
  induction bs generalizing t moved with
  | nil => rfl
  | cons b bs ih =>
    rw [List.foldl_cons]
    exact (ih _ _).trans (pending_modifyState (t := t) _ rfl r)

theorem pending_notify (segment : Nat) (offset : Option Nat) (t : Tables) (r : Nat) :
    ((t.notify segment offset).state r).pending = (t.state r).pending := by
  cases offset with
  | none => rfl
  | some n =>
    unfold Tables.notify
    dsimp only
    split
    · exact (pending_modifyState _ rfl r).trans (pending_modifyState _ rfl r)
    · rfl

/-- Whatever is done, only links come to be persisted later. -/
theorem act (h : Prepared config.hasher t n) (ha : Act config n t u m) :
    Prepared config.hasher u m := by
  cases ha with
  | cache | locks => exact h.of_states (fun _ => rfl) rfl
  | level _ ref hf => exact h.of_states (pending_modifyState _ (hf _).2.2) rfl
  | track _ hmet =>
    exact h.of_states (fun r => congrArg SegmentState.pending (Tables.state_track t _ r)) rfl
  | @record segment ref offset b rs _ current _ _ _ hb =>
    have hstates (r : Nat) : ((Tables.record segment ref (Links.ofBatch b offset current) t).state
        r).pending = (t.state r).pending := pending_modifyState _ rfl r
    refine ⟨fun r => hstates r ▸ h.pending r, fun c hc => ?_⟩
    obtain rfl := List.mem_singleton.1 hc
    exact hb.links offset current
  | takeOver _ ref _ =>
    refine h.modifyState ref (fun b hb => by cases hb) fun b hb => ?_
    exact (List.mem_append.1 hb).elim (h.pending ref b) (h.carried b)
  | giveBack _ ref _ =>
    refine h.modifyState ref (fun b hb => ?_) h.carried
    exact (List.mem_append.1 hb).elim (h.pending ref b) (h.carried b)
  | retire _ segment ref _ => exact h.of_states (pending_retireAll segment ref _ _) rfl
  | report | forget | notice => exact h.of_states (pending_notify _ _ _) rfl

end Prepared

namespace Pool

section Attributes

variable {σ α : Type} {around : Surroundings σ} {y z : Pool σ α} {es : List (Event σ α)}

def Wrote (es : List (Event σ α)) (segment : Nat) (u : AttributeUpdate) : Prop :=
  ∃ i us fate, .call i (.updateAttributes segment us) fate ∈ es ∧ u ∈ us

/-- In a run, an attribute stays as it is or is given a value that was asked for. -/
theorem Steps.attribute (h : Steps around y es z) {k : Nat} (hk : k < y.container.segments.size)
    (id : AttributeId) :
    (z.container.segment k).attributes[id]? = (y.container.segment k).attributes[id]? ∨
      ∃ u, Wrote es k u ∧ u.id = id ∧
        (z.container.segment k).attributes[id]? = some u.value := by
  induction h with
  | refl => exact .inl rfl
  | @head y m z e es h _ ih =>
    have hstep : k < m.container.segments.size ∧
        ((m.container.segment k).attributes[id]? = (y.container.segment k).attributes[id]? ∨
          ∃ u, Wrote [e] k u ∧ u.id = id ∧
            (m.container.segment k).attributes[id]? = some u.value) := by
      rcases h.inv with ⟨i, p, -, -, rfl⟩ | ⟨i, p, q, -, -, -, rfl⟩ | ⟨i, q, r, fate, rfl, -, rfl⟩ |
        ⟨i, r, -, -, rfl⟩ | ⟨s, -, -, rfl⟩
      · exact ⟨hk, .inl rfl⟩
      · exact ⟨hk, .inl rfl⟩
      · have hserve := y.container.becomes_serve q fate
        refine ⟨Nat.lt_of_lt_of_le hk hserve.size_le, ?_⟩
        refine (hserve.attribute hk id).imp_right fun ⟨us, hq, u, hu, hid, hv⟩ => ?_
        exact ⟨u, ⟨i, us, fate, by simp [hq], hu⟩, hid, hv⟩
      · exact ⟨hk, .inl rfl⟩
      · exact ⟨hk, .inl rfl⟩
    rcases ih hstep.1 with hz | ⟨u, ⟨i, us, fate, hc, hu⟩, hid, hv⟩
    · rw [hz]
      refine hstep.2.imp_right fun ⟨u, ⟨i, us, fate, hc, hu⟩, hid, hv⟩ => ?_
      exact ⟨u, ⟨i, us, fate, List.mem_cons.2 (.inl (List.mem_singleton.1 hc)), hu⟩, hid, hv⟩
    · exact .inr ⟨u, ⟨i, us, fate, List.mem_cons_of_mem _ hc, hu⟩, hid, hv⟩

end Attributes

variable {config : Config} {y z : Pool Tables (Option Reply)} {e : Event Tables (Option Reply)}
  {es past : List (Event Tables (Option Reply))} {ns ms : Nat → Notes}

/-- Only known updates were asked for, and no others are going to be. -/
structure WritesKnown (config : Config) (past : List (Event Tables (Option Reply)))
    (y : Pool Tables (Option Reply)) (ns : Nat → Notes) : Prop where
  prepared : ∀ i, Prepared config.hasher y.state (ns i)
  wrote : ∀ {k u}, Wrote past k u → u.Known config.hasher

namespace WritesKnown

theorem update (h : WritesKnown config past y ns) {i : Nat} {n : Notes}
    (hn : Prepared config.hasher z.state n)
    (hwrote : ∀ {k u}, Wrote [e] k u → u.Known config.hasher) :
    WritesKnown config (past ++ [e]) z (Function.update ns i n) where
  prepared j := by
    by_cases hji : j = i
    · subst hji
      rwa [Function.update_self]
    · rw [Function.update_of_ne hji]
      exact ⟨hn.pending, (h.prepared j).carried⟩
  wrote := by
    rintro k u ⟨j, us, fate, hc, hu⟩
    rcases List.mem_append.1 hc with hc | hc
    · exact h.wrote ⟨j, us, fate, hc, hu⟩
    · exact hwrote ⟨j, us, fate, hc, hu⟩

theorem acts {t u : Tables} {n m : Notes} (ha : Acts config n t u m)
    (hn : Prepared config.hasher t n) : Prepared config.hasher u m := by
  induction ha with
  | refl => exact hn
  | head ha _ ih => exact ih (hn.act ha)

theorem told {t : Tables} {n : Notes} {q : Call} (r : Except TableError q.Answer)
    (hn : Prepared config.hasher t n) : Prepared config.hasher t (n.told q r) := by
  refine ⟨hn.pending, ?_⟩
  unfold Notes.told
  split <;> exact hn.carried

theorem asks {t : Tables} {n : Notes} {k : Nat} {us : List AttributeUpdate}
    (hn : Prepared config.hasher t n) (hq : n.Asks config (.updateAttributes k us)) :
    ∀ u ∈ us, u.Known config.hasher := by
  intro u hu
  obtain ⟨-, rfl | ⟨ls, stop, hls, rfl⟩⟩ := hq
  · obtain ⟨b, hb, hu⟩ := List.mem_flatMap.1 hu
    exact .link (hn.carried b hb u hu)
  · rcases List.mem_append.1 hu with hu | hu
    · exact .link (hls u hu)
    · obtain rfl := List.mem_singleton.1 hu
      exact .indexOffset stop

theorem step (h : WritesKnown config past y ns) (hstep : Step treacherous y e z)
    (hjots : Jots config (fun _ n => n.carried = []) y z ns e ms) :
    WritesKnown config (past ++ [e]) z ms := by
  have hquiet (he : ∀ i q fate, e ≠ .call i q fate) {k : Nat} {u : AttributeUpdate} :
      Wrote [e] k u → u.Known config.hasher :=
    fun ⟨i, us, fate, hc, _⟩ => absurd (List.mem_singleton.1 hc).symm (he _ _ _)
  have hstays (hp : ∀ ref, (z.state.state ref).pending = (y.state.state ref).pending) (i : Nat) :
      Prepared config.hasher z.state (ns i) := (h.prepared i).of_states hp rfl
  cases hjots with
  | @start i n p hstate hn =>
    refine h.update ⟨(hstays (fun _ => by rw [hstate]) i).pending, fun b hb => ?_⟩
      (hquiet (by simp))
    rw [hn] at hb
    cases hb
  | @proceed i n hacts hn => exact h.update (acts hacts (h.prepared i)) (hquiet (by simp))
  | @call i q fate hstate hn hq =>
    have hi : Prepared config.hasher z.state (ns i) := hstays (fun _ => by rw [hstate]) i
    refine h.update (told _ hi) fun ⟨j, us, fate', hc, hu⟩ => ?_
    obtain ⟨-, rfl, -⟩ := Event.call.inj (List.mem_singleton.1 hc)
    exact asks hi hq _ hu
  | finish r hstate hn =>
    have hz := h.update (hstays (fun _ => by rw [hstate]) 0) (hquiet (by simp)) (i := 0)
    rwa [Function.update_eq_self] at hz
  | drift =>
    obtain ⟨s, ⟨b, rfl⟩, rfl⟩ : ∃ s, y.state.Evicts s ∧ z = { y with state := s } := by
      cases hstep with
      | drift hs => exact ⟨_, hs, rfl⟩
    have hz := h.update (hstays (fun _ => rfl) 0) (hquiet (by simp)) (i := 0)
    rwa [Function.update_eq_self] at hz

end WritesKnown

theorem known_of_wrote {c : Container}
    (hrun : Steps treacherous ⟨c, .initial config, fun _ => none⟩ es z)
    (hes : ∀ e ∈ es, e.OfRequest config) {k : Nat} {u : AttributeUpdate} (hu : Wrote es k u) :
    u.Known config.hasher := by
  have hbegins (r : Request) : r.notes.carried = [] := by
    cases r with
    | table _ op => cases op <;> rfl
    | _ => rfl
  have hstart : WritesKnown config [] ⟨c, .initial config, fun _ => none⟩ fun _ => .blank := by
    refine ⟨fun i => ⟨fun ref b hb => ?_, fun b hb => by cases hb⟩, fun hw => ?_⟩
    · simp [Tables.initial, Tables.state, SegmentState.initial] at hb
    · obtain ⟨_, _, _, hc, -⟩ := hw
      cases hc
  obtain ⟨ns, hz⟩ :=
    Steps.noted_of_requests hbegins (fun hstep hjots h => h.step hstep hjots) hrun hes hstart
  exact hz.wrote hu

/-- Hashes of keys keep clear of the reserved high words, and change the digest no more than that
takes. So no two of the index offset, the backpointers of offsets and the heads of hashes share an
attribute, and in every run each of them changes only by an update that is meant for it. -/
theorem attribute_kinds_apart (config : Config) :
    (∀ key, config.hasher.Separates key) ∧
    (∀ digest : Bytes → Bytes, Hasher.custom digest =
      if (digest []).length < KeyHash.size
        then .error (.hashLength KeyHash.size (digest []).length) else .ok ⟨digest, false⟩) ∧
    (∀ {key h}, config.hasher.hash key = .ok h → ∀ id : AttributeId,
      id.isCore ∨ id.isBackpointer → .bucket h ≠ id) ∧
    (∀ x (id : AttributeId), id.isCore → .backpointer x ≠ id) ∧
    (∀ h h', AttributeId.bucket h = .bucket h' ↔ h = h') ∧
    (∀ x y, AttributeId.backpointer x = .backpointer y ↔ x = y) ∧
    (∀ (us : List AttributeUpdate) (m : Attributes), (∀ u ∈ us, u.Links config.hasher) →
      (∀ id : AttributeId, id.isCore → (m.updateAll us)[id]? = m[id]?) ∧
        Attributes.KeptApart config.hasher (· ∈ us) m (m.updateAll us)) ∧
    ∀ {c : Container} {y z : Pool Tables (Option Reply)}
      {es fs : List (Event Tables (Option Reply))},
      Steps treacherous ⟨c, .initial config, fun _ => none⟩ es y → Steps treacherous y fs z →
      (∀ e ∈ es ++ fs, e.OfRequest config) → ∀ k < y.container.segments.size,
      Attributes.KeptApart config.hasher (Wrote fs k) (y.container.segment k).attributes
        (z.container.segment k).attributes := by
  refine ⟨config.hasher.separates, Hasher.custom_eq, fun {key h} hk id hid => ?_,
    fun x id hid => ?_, fun _ _ => AttributeId.bucket_inj, fun _ _ => AttributeId.backpointer_inj,
    fun us m hus => ?_, fun {c y z es fs} hes hfs hreq k hk => ?_⟩
  · have hproper := Hasher.proper_of_hash hk
    rintro rfl
    exact hid.elim (fun h => hproper.1 (eq_of_beq h)) fun h => hproper.2 (eq_of_beq h)
  · rintro rfl
    cases hid
  · refine ⟨fun id hid => Attributes.updateAll_of_ne fun u hu h => ?_,
      Attributes.keptApart (fun u hu => .link (hus u hu)) fun id => ?_⟩
    · have hcore := (hus u hu).not_isCore
      rw [h, hid] at hcore
      cases hcore
    · exact Attributes.getElem?_updateAll_or m us id
  · refine Attributes.keptApart (fun u ⟨i, us, fate, hc, hu⟩ => ?_) fun id => hfs.attribute hk id
    exact known_of_wrote (hes.append hfs) hreq ⟨i, us, fate, List.mem_append_right _ hc, hu⟩

/-- The put of a key moves its head and the index offset, each by an update of its own. -/
theorem attribute_kinds_apart_amid_put :
    ∃ (fs : List (Event Tables (Option Reply))) (z : Pool Tables (Option Reply)),
      Steps treacherous ⟨.solo, .initial (.parity .inline), fun _ => none⟩ fs z ∧
      (∀ e ∈ fs, e.OfRequest (.parity .inline)) ∧
      Wrote fs 0 (.replaceIfGreater .indexOffset 20) ∧
      Wrote fs 0 (.replaceIfGreater (.bucket ⟨0x0100000000000000, 0⟩) 0) := by
  let config : Config := .parity .inline
  let put : Request := .table "t" (.put [⟨⟨[97], none⟩, [49]⟩])
  let x : Pool Tables (Option Reply) := ⟨.solo, .initial config, fun _ => none⟩
  let turns : List (Turn (Option Reply)) :=
    .start 0 (put.program config) :: List.replicate 40 (.go 0)
  have hreq : ∀ e ∈ (play turns x).1, e.OfRequest config := ofRequest_of_play (fun i p hp => by
    rcases List.mem_cons.1 hp with hp | hp
    · exact ⟨put, (Turn.start.inj hp).2⟩
    · cases (List.mem_replicate.1 hp).2) x
  have hrun := (steps_play turns x).1.treacherous
  obtain ⟨-, -, -, -, -, -, -, hruns⟩ := attribute_kinds_apart config
  have hapart := hruns (.refl x) hrun hreq 0 (by decide)
  have hoffset : ((play turns x).2.container.segment 0).attributes[AttributeId.indexOffset]? =
      some 20 := by decide +kernel
  have hhead : ((play turns x).2.container.segment 0).attributes[AttributeId.bucket
      ⟨0x0100000000000000, 0⟩]? = some 0 := by decide +kernel
  refine ⟨_, _, hrun, hreq, ?_, ?_⟩
  · rcases hapart.indexOffset with h | ⟨n, hn, h⟩
    · exact absurd (hoffset.symm.trans h) (by decide +kernel)
    · obtain rfl := Option.some.inj (hoffset.symm.trans h)
      exact hn
  · have hkey : config.hasher.hash [97] = .ok ⟨0x0100000000000000, 0⟩ := by decide +kernel
    rcases hapart.head hkey with h | ⟨n, hn, h⟩
    · exact absurd (hhead.symm.trans h) (by decide +kernel)
    · obtain rfl := Option.some.inj (hhead.symm.trans h)
      exact hn

end Pool
end KeyedLog
