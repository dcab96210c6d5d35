import KeyedLog.Proofs.Alone.Index
import KeyedLog.Proofs.Run.Freshness

/-! Looking up keys while nobody else is at work: whoever goes along a bucket from its last entry
finds the newest one of each key. -/
namespace KeyedLog

open Program

namespace Program

variable {σ α β : Type} {c : Container} {s : σ}

theorem succeeds_mapM {f : α → Program σ β} {I : Container → σ → Prop} {Q : α → β → Prop}
    {l : List α}
    (hf : ∀ a ∈ l, ∀ c s, I c s → (f a).Succeeds (fun b c s => I c s ∧ Q a b) c s) (h : I c s) :
    (l.mapM f).Succeeds (fun bs c s => I c s ∧ List.Forall₂ Q l bs) c s := by
  induction l generalizing c s with
  | nil => exact (succeeds_pure _).2 ⟨h, .nil⟩
  | cons a l ih =>
    rw [List.mapM_cons]
    refine succeeds_bind.2 ((hf a (by simp) c s h).mono fun b c₁ s₁ hb => ?_)
    refine succeeds_bind.2 ((ih (fun a ha => hf a (by simp [ha])) hb.1).mono fun bs c₂ s₂ hbs => ?_)
    exact (succeeds_pure _).2 ⟨hbs.1, .cons hb.2 hbs.2⟩

end Program

variable {config : Config} {name : String} {segment ref x : Nat} {log : List Record}
  {a : Attributes} {c : Container} {t : Tables} {s : SegmentState} {mode : ReadMode} {key : Bytes}
  {h : KeyHash}

def Log.About (log : List Record) (key : Bytes) (x : Nat) : Prop :=
  ∃ r, (x, r) ∈ Log.placed 0 log ∧ r.key = key

theorem Log.About.entry (hx : Log.About log key x) (hk : config.hasher.hash key = .ok h) :
    Log.Entry config.hasher log x h := by
  obtain ⟨r, hr, rfl⟩ := hx
  exact ⟨r, hr, hk⟩

/-- The record at an offset is judged for what it is. -/
theorem Walk.succeeds_visit {σ : Type} {J : Walk.Answer → Container → σ → Prop} {s : σ} {r : Record}
    (hc : c.Shows name segment log a) (hr : (x, r) ∈ Log.placed 0 log) (hvalid : r.Valid)
    (hJ : J (Walk.answerOf mode key x r) c s) :
    (Walk.visit mode segment key x : Program σ Walk.Answer).Succeeds J c s := by
  have hread {k : Nat} (hk : k ≤ r.length) : ∃ rest, c.perform (.read segment x k) =
      (c, .ok ((r.encode recordChecksum ++ rest).take k)) := by
    obtain ⟨rest, hrest⟩ := Log.slice_record recordChecksum (k := k) hr
    have hbound := (Log.placed_bounds hr).2
    refine ⟨rest, ?_⟩
    rw [← hrest, ← hc.data]
    exact Container.perform_read hc.resolve (by rw [hc.length]; omega)
  unfold Walk.visit
  obtain ⟨rest, hp⟩ := hread r.headerLength_le_length
  refine succeeds_bind.2 (succeeds_request hp ?_)
  rw [Walk.decode_start hvalid rest]
  refine succeeds_bind.2 ((succeeds_ofExcept_ok (r.header recordChecksum)).2 ?_)
  rw [Record.header_keyLength recordChecksum hvalid.writable]
  split
  · next hne =>
    rw [Walk.answerOf_of_ne mode fun hk => hne (by rw [hk])] at hJ
    exact (succeeds_pure _).2 hJ
  · obtain ⟨rest, hp⟩ := hread (Walk.extent_le mode hvalid)
    refine succeeds_bind.2 (succeeds_request hp ?_)
    rw [Walk.judge_eq mode hvalid rest]
    exact (succeeds_ofExcept_ok _).2 hJ

namespace Tables

/-- The state of a segment is kept at a place, and whoever comes back to it need not wait. -/
structure Ready (t : Tables) (segment ref : Nat) (s : SegmentState) : Prop where
  indexOpened : t.indexClosed = false
  keeps : t.Keeps segment ref s
  unclosed : s.watermark.closed = false
  recovered : ∃ n ≤ s.watermark.offset, s.recovered = some n

/-- The entry before another one is told by the tail, or else by an attribute. -/
theorem succeeds_backpointer {J : Option Nat → Container → Tables → Prop}
    (hc : c.Shows name segment log a) (h : t.Ready segment ref s)
    (hJ : ∀ c', c'.Shows name segment log a →
      J (s.backpointers[x]?.getD a[AttributeId.backpointer x]?) c' t) :
    (backpointer config segment x).Succeeds J c t := by
  obtain ⟨n, hn, hrecovered⟩ := h.recovered
  unfold backpointer
  refine succeeds_bind.2 (succeeds_access_of_recovered h.indexOpened h.keeps h.unclosed hrecovered
    hn ?_)
  rw [succeeds_look_bind h.keeps.state]
  cases hp : s.backpointers[x]? with
  | some p =>
    rw [hp] at hJ
    exact (succeeds_pure _).2 (hJ c hc)
  | none =>
    rw [hp] at hJ
    refine succeeds_bind.2 (hc.getAttributes [.backpointer x] fun c' hc' => ?_)
    exact (succeeds_pure _).2 (hJ c' hc')

/-- Whoever goes along a bucket from one of its entries finds the newest entry of a key up to
there. -/
theorem succeeds_findFrom {J : Option Found → Container → Tables → Prop} {left hops : Nat}
    (hwf : Log.Wellformed config.hasher log) (hk : config.hasher.hash key = .ok h)
    (hprev : ∀ y, Log.Entry config.hasher log y h → LastBefore (Log.Entry config.hasher log · h) y
      (s.backpointers[y]?.getD a[AttributeId.backpointer y]?))
    (hc : c.Shows name segment log a) (ht : t.Ready segment ref s)
    (hx : Log.Entry config.hasher log x h)
    (hleft : Log.rank config.hasher log h x < left)
    (hJ : ∀ o c' q, c'.Shows name segment log a →
      LastBefore (Log.About log key) (x + 1) q → Tells log mode key q o → J o c' t) :
    (Walk.findFrom mode segment (backpointer config segment) key left hops x).Succeeds J c t := by
  induction left generalizing hops x c with
  | zero => exact absurd hleft (Nat.not_lt_zero _)
  | succ left ih =>
    obtain ⟨r, hr, -⟩ := id hx
    unfold Walk.findFrom
    refine succeeds_bind.2 (Walk.succeeds_visit hc hr (hwf r (Log.mem_of_mem_placed hr)).1 ?_)
    by_cases hkey : r.key = key
    · have hlast : LastBefore (Log.About log key) (x + 1) (some x) := by
        refine LastBefore.some_iff.2 ⟨⟨r, hr, hkey⟩, Nat.lt_succ_self x, fun y _ hy => ?_⟩
        exact Nat.le_of_lt_succ hy
      have hfound := hJ _ c (some x) hc hlast ⟨r, hr, hkey, rfl⟩
      unfold Walk.answerOf
      rw [if_pos hkey]
      cases hv : r.value? with
      | none =>
        rw [hv] at hfound
        exact (succeeds_pure _).2 hfound
      | some v =>
        rw [hv] at hfound
        exact (succeeds_pure _).2 hfound
    rw [Walk.answerOf_of_ne mode hkey]
    refine succeeds_bind.2 (succeeds_backpointer hc ht fun c₁ hc₁ => ?_)
    have hlast := hprev x hx
    -- The entry at hand is about another key.
    have hbelow {y : Nat} (hy : Log.About log key y) (hyx : y < x + 1) : y < x := by
      refine Nat.lt_of_le_of_ne (Nat.le_of_lt_succ hyx) ?_
      rintro rfl
      obtain ⟨r', hr', hkey'⟩ := hy
      exact hkey (Log.placed_unique hr hr' ▸ hkey')
    generalize s.backpointers[x]?.getD a[AttributeId.backpointer x]? = p at hlast ⊢
    cases p with
    | none =>
      have hnone : LastBefore (Log.About log key) (x + 1) none :=
        LastBefore.none_iff.2 fun y hy hyx =>
          LastBefore.none_iff.1 hlast y (hy.entry hk) (hbelow hy hyx)
      exact (succeeds_pure _).2 (hJ none c₁ none hc₁ hnone rfl)
    | some p =>
      dsimp only
      rw [if_pos hlast.lt]
      refine ih hc₁ hlast.mem ?_ fun o c₂ q hc₂ hq htells => hJ o c₂ q hc₂ ?_ htells
      · have := Log.rank_lt_rank hlast.mem hlast.lt
        omega
      · refine hq.widen (Nat.succ_le_succ (Nat.le_of_lt hlast.lt)) fun y hy hyx => ?_
        exact Nat.lt_succ_of_le (hlast.le (hy.entry hk) (hbelow hy hyx))

/-- The head of a bucket that whoever asks is told. The tail comes before the cache, and the cache
before attributes. -/
def told (t : Tables) (c : Container) (segment : Nat) (h : KeyHash) : Option Nat :=
  ((t.memory segment).heads[h]?.or (t.cache.get? ⟨segment, h⟩)).or
    (c.segment segment).attributes[AttributeId.bucket h]?

/-- Whoever asks for the head of a bucket, and then for the entry before each entry, is led through
all of it. -/
structure Leads (t : Tables) (c : Container) (segment : Nat) (hasher : Hasher) (log : List Record)
    (h : KeyHash) : Prop where
  head : LastBefore (Log.Entry hasher log · h) (Log.size log) (t.told c segment h)
  previous : ∀ x, Log.Entry hasher log x h →
    LastBefore (Log.Entry hasher log · h) x (t.previous c segment x)

/-- The heads that are told. -/
theorem succeeds_heads {K : Heads → Container → Tables → Prop} {n : Nat}
    {hashes : List KeyHash} (hc : c.Shows name segment log a) (ht : t.AtEase segment)
    (hn : a[AttributeId.indexOffset]? = some n)
    (hpersisted : (t.memory segment).recovered = none → Log.size log ≤ n)
    (hK : ∀ m c' t' ref s, c'.Shows name segment log a → t'.Ready segment ref s →
      s.backpointers = (t.memory segment).backpointers →
      (∀ h ∈ hashes, m[h]? = t.told c segment h) → K m c' t') :
    (heads config segment hashes).Succeeds K c t := by
  unfold heads
  refine succeeds_bind.2 (succeeds_access hc.holds (Log.length_encodeAll ..) ht
    (congrArg (·.getD 0) hn) hpersisted fun c₁ t₁ ref hc₁ halike h₁ => ?_)
  refine succeeds_headsWith hc₁ fun m c₂ cache hc₂ hm _ => ?_
  obtain ⟨-, hclosed, k, hk, hrecovered⟩ := ht.accessed hpersisted
  have hready : ({ t₁ with cache } : Tables).Ready segment ref
      ((t.memory segment).accessed n (Log.size log)) :=
    ⟨halike.indexOpened.trans ht.indexOpened, h₁.withCache cache, hclosed, k, hk, hrecovered⟩
  refine hK m c₂ _ ref _ (.of_holds hc₂) hready (SegmentState.tail_accessed ..).2 fun h hh => ?_
  rw [hm h hh, knownHead_eq, h₁.state, halike.cache, (SegmentState.tail_accessed ..).1, told,
    hc.attributes]

/-- What is found of a key is what the newest record about it says. -/
def Finds (log : List Record) (mode : ReadMode) (key : Bytes) (o : Option Found) : Prop :=
  ∃ q, LastBefore (Log.About log key) (Log.size log) q ∧ Tells log mode key q o

/-- Every key is found in its bucket, if one is led through all of it. -/
theorem succeeds_lookup {J : List (Option Found) → Container → Tables → Prop} {n : Nat}
    {keys : List Bytes} (hc : c.Shows name segment log a)
    (hwf : Log.Wellformed config.hasher log) (ht : t.AtEase segment)
    (hn : a[AttributeId.indexOffset]? = some n)
    (hpersisted : (t.memory segment).recovered = none → Log.size log ≤ n)
    (hkeys : ∀ key ∈ keys, ∃ h, config.hasher.hash key = .ok h ∧
      t.Leads c segment config.hasher log h ∧
      (Log.bucket config.hasher log h).length ≤ config.maxChainLength)
    (hJ : ∀ os c' t', List.Forall₂ (Finds log mode) keys os → J os c' t') :
    (lookup config mode name keys).Succeeds J c t := by
  unfold lookup
  refine succeeds_bind.2 (succeeds_checkOpen ht.opened ?_)
  split
  · next hempty =>
    rw [List.isEmpty_iff.1 hempty] at hJ
    exact (succeeds_pure _).2 (hJ [] c t .nil)
  obtain ⟨hashes, hhashes⟩ := mapM_eq_ok fun key hkey => (hkeys key hkey).imp fun _ h => h.1
  have hpairs := mapM_ok hhashes
  rw [hhashes]
  refine succeeds_bind.2 ((succeeds_ofExcept_ok hashes).2 (succeeds_bind.2 (hc.resolves ?_)))
  refine succeeds_bind.2 (succeeds_heads hc ht hn hpersisted
    fun m c₁ t₁ ref s hc₁ h₁ hbackpointers hm => ?_)
  refine (succeeds_mapM (I := fun c' t' => c'.Shows name segment log a ∧ t' = t₁)
    (Q := fun e o => Finds log mode e.1 o) ?_ ⟨hc₁, rfl⟩).mono ?_
  · rintro ⟨key, h⟩ he c' _ ⟨hc', rfl⟩
    obtain ⟨hkey, hh⟩ := List.of_mem_zip he
    obtain ⟨h', hk', hleads, hlength⟩ := hkeys key hkey
    have hk := List.forall₂_zip hpairs he
    obtain rfl := Except.ok.inj (hk.symm.trans hk')
    have hhead := hleads.head
    rw [← hm h (List.mem_eraseDups.2 hh)] at hhead
    dsimp only
    cases hy : m[h]? with
    | none =>
      rw [hy] at hhead
      refine (succeeds_pure _).2 ⟨⟨hc', rfl⟩, none, LastBefore.none_iff.2 fun y hy hlt => ?_, rfl⟩
      exact LastBefore.none_iff.1 hhead y (hy.entry hk) hlt
    | some head =>
      rw [hy] at hhead
      have hprevious (x : Nat) (hx : Log.Entry config.hasher log x h) :
          LastBefore (Log.Entry config.hasher log · h) x
            (s.backpointers[x]?.getD a[AttributeId.backpointer x]?) := by
        have := hleads.previous x hx
        rwa [Tables.previous, hc.attributes, ← hbackpointers] at this
      refine succeeds_findFrom hwf hk hprevious hc' h₁ hhead.mem
        (Nat.lt_of_lt_of_le (Log.rank_lt_length hhead.mem) hlength) fun o c₂ q hc₂ hq htells => ?_
      refine ⟨⟨hc₂, rfl⟩, q, hq.widen (Nat.succ_le_of_lt hhead.lt) fun y hy hlt => ?_, htells⟩
      exact Nat.lt_succ_of_le (hhead.le (hy.entry hk) hlt)
  · rintro os c' t' ⟨-, hall⟩
    rw [← List.forall₂_map_left_iff, List.map_fst_zip (Nat.le_of_eq hpairs.length_eq)] at hall
    exact hJ os c' t' hall

/-- Whoever is led through the buckets of all keys gets the newest state of each. -/
theorem succeeds_get {n : Nat} {keys : List Bytes} (hc : c.Shows name segment log a)
    (hwf : Log.Wellformed config.hasher log) (ht : t.AtEase segment)
    (hn : a[AttributeId.indexOffset]? = some n)
    (hpersisted : (t.memory segment).recovered = none → Log.size log ≤ n)
    (hkeys : ∀ key ∈ keys, ∃ h, config.hasher.hash key = .ok h ∧
      t.Leads c segment config.hasher log h ∧
      (Log.bucket config.hasher log h).length ≤ config.maxChainLength) :
    (get config name keys).Succeeds (fun os _ _ =>
      List.Forall₂ (UpToDate (Log.placed 0 log) fun _ => True) keys os) c t := by
  unfold get
  refine succeeds_bind.2 (succeeds_lookup hc hwf ht hn hpersisted hkeys fun os c' t' hall => ?_)
  refine (succeeds_pure _).2 (List.forall₂_map_right_iff.2 (hall.imp fun key o ho => ?_))
  obtain ⟨q, hq, htells⟩ := ho
  cases q with
  | none =>
    refine .inr ⟨by rw [show o = none from htells]; rfl, fun y r hr hkey _ => ?_⟩
    exact LastBefore.none_iff.1 hq y ⟨r, hr, hkey⟩ (Log.placed_lt hr)
  | some x =>
    obtain ⟨r, hr, hkey, rfl⟩ := htells
    refine .inl ⟨x, r, hr, hkey, ?_, fun y r' hr' hkey' _ =>
      hq.le ⟨r', hr', hkey'⟩ (Log.placed_lt hr')⟩
    rw [← hkey, Record.entryAt, Option.map_map]
    rfl

end Tables
end KeyedLog
