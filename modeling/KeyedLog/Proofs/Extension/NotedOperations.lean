import KeyedLog.Proofs.Extension.Notes

/-! Every operation of an extension keeps to what its threads note down. -/
namespace KeyedLog

open Program Notes

namespace Notes

variable {config : Config} {n m l : Notes}

/-- Nothing has changed but what is due, and nothing of that is left to be done. -/
def Same (config : Config) (n m : Notes) : Prop :=
  (∃ due, m = { n with due }) ∧ m.Settled config

theorem Same.refl (hn : n.Settled config) : n.Same config n := ⟨⟨n.due, rfl⟩, hn⟩

theorem Same.trans (h : n.Same config m) (h' : m.Same config l) : n.Same config l := by
  obtain ⟨⟨d, rfl⟩, -⟩ := h
  obtain ⟨⟨d', rfl⟩, hl⟩ := h'
  exact ⟨⟨d', rfl⟩, hl⟩

def Near (config : Config) (n m : Notes) : Prop :=
  (∃ held due, m = { n with held, due }) ∧ m.Settled config

theorem Same.near (h : n.Same config m) : n.Near config m := by
  obtain ⟨⟨d, rfl⟩, hm⟩ := h
  exact ⟨⟨n.held, d, rfl⟩, hm⟩

theorem Near.trans (h : n.Near config m) (h' : m.Near config l) : n.Near config l := by
  obtain ⟨⟨p, d, rfl⟩, -⟩ := h
  obtain ⟨⟨p', d', rfl⟩, hl⟩ := h'
  exact ⟨⟨p', d', rfl⟩, hl⟩

theorem Near.met (h : n.Near config m) : m.met = n.met := by
  obtain ⟨⟨_, _, rfl⟩, -⟩ := h
  rfl

theorem Same.held (h : n.Same config m) : m.held = n.held := by
  obtain ⟨⟨_, rfl⟩, -⟩ := h
  rfl

theorem Same.met (h : n.Same config m) : m.met = n.met := h.near.met

end Notes

namespace Tables

variable {config : Config} {segment ref : Nat} {t : Tables} {n : Notes}

section Checks

variable {K : Except TableError Unit → Notes → Prop}

theorem heeds_checkOpen (hok : K (.ok ()) n) (herror : K (.error .closed) n) :
    checkOpen.Heeds config K t n := by
  change (ite _ _ _ : Program Tables Unit).Heeds config K t n
  split
  · exact herror
  · exact hok

theorem heeds_checkIndex (hok : K (.ok ()) n) (herror : K (.error .closed) n) :
    checkIndex.Heeds config K t n := by
  change (ite _ _ _ : Program Tables Unit).Heeds config K t n
  split
  · exact herror
  · exact hok

end Checks

/-- Who scans a range finds hashes of keys. -/
theorem exists_key_of_hashRecords {start : Nat} {data : Bytes} {entries : List (Nat × KeyHash)}
    (h : hashRecords config start data = .ok entries) :
    ∀ e ∈ entries, ∃ key, config.hasher.hash key = .ok e.2 := by
  unfold hashRecords at h
  dsimp only at h
  generalize Scan.ofBytes recordChecksum start data = scan at h
  cases hmap : scan.records.mapM fun r => do
      return (r.offset, ← config.hasher.hash r.record.key) with
  | error e =>
    rw [hmap] at h
    cases h
  | ok es =>
    rw [hmap] at h
    cases houtcome : scan.outcome with
    | error e =>
      rw [houtcome] at h
      cases h
    | ok u =>
      rw [houtcome] at h
      obtain rfl := Except.ok.inj h
      intro e he
      obtain ⟨r, -, hr⟩ := exists_of_forall₂ (mapM_ok hmap) he
      cases hhash : config.hasher.hash r.record.key with
      | error e' =>
        rw [hhash] at hr
        cases hr
      | ok k =>
        rw [hhash] at hr
        exact ⟨r.record.key, hhash.trans (congrArg (fun e => Except.ok e.2) (Except.ok.inj hr))⟩

def OfKeys (config : Config) (heads : Heads) : Prop :=
  ∀ h x, heads[h]? = some x → ∃ key, config.hasher.hash key = .ok h

theorem OfKeys.insert {heads : Heads} (hh : OfKeys config heads) {key : Bytes} {h : KeyHash}
    (hk : config.hasher.hash key = .ok h) (x : Nat) : OfKeys config (heads.insert h x) := by
  intro g y hy
  rw [Heads.getElem?_insert] at hy
  split at hy
  · next hg => exact ⟨key, hg ▸ hk⟩
  · exact hh g y hy

theorem ofKeys_empty : OfKeys config ∅ := by
  intro h x hx
  simp at hx

theorem OfKeys.chain {heads : Heads} {entries : List (Nat × KeyHash)} (hh : OfKeys config heads)
    (he : ∀ e ∈ entries, ∃ key, config.hasher.hash key = .ok e.2) :
    OfKeys config (Links.chain heads entries).1 := by
  induction entries generalizing heads with
  | nil => exact hh
  | cons e entries ih =>
    obtain ⟨x, h⟩ := e
    obtain ⟨key, hk⟩ := he (x, h) (by simp)
    rw [Links.chain_cons]
    exact ih (hh.insert hk x) fun e h => he e (by simp [h])

theorem OfKeys.links {heads : Heads} (hh : OfKeys config heads) {u : AttributeUpdate}
    (hu : u ∈ Links.headUpdates heads.toList) : u.Links config.hasher := by
  obtain ⟨h, x, hx, rfl⟩ := Links.mem_headUpdates.1 hu
  obtain ⟨key, hk⟩ := hh h x (Std.ExtTreeMap.mem_toList_iff_getElem?_eq_some.1 hx)
  exact .head hk x

theorem links_backpointerUpdates {bs : List (Nat × Option Nat)} {u : AttributeUpdate}
    (hu : u ∈ Links.backpointerUpdates bs) : u.Links config.hasher := by
  obtain ⟨x, p, -, rfl⟩ := Links.mem_backpointerUpdates.1 hu
  exact .backpointer x p

theorem heeds_rewindAll {before : Nat} {hashes : List KeyHash} {persisted : List (Option Nat)}
    (hhashes : ∀ h ∈ hashes, ∃ key, config.hasher.hash key = .ok h) (hn : n.Settled config) :
    (rewindAll config segment before hashes persisted).Heeds config
      (fun r m => m = n ∧ ∀ heads, r = .ok heads → OfKeys config heads) t n := by
  have hfold (l : List (KeyHash × Option Nat))
      (hl : ∀ e ∈ l, ∃ key, config.hasher.hash key = .ok e.1) (heads : Heads)
      (hheads : OfKeys config heads) (t : Tables) :
      (l.foldlM (Site.rewindStep config segment before) heads).Heeds config
        (fun r m => m = n ∧ ∀ heads, r = .ok heads → OfKeys config heads) t n := by
    induction l generalizing heads t with
    | nil => exact ⟨rfl, fun _ h => Except.ok.inj h ▸ hheads⟩
    | cons e l ih =>
      obtain ⟨h, head⟩ := e
      obtain ⟨key, hk⟩ := hl (h, head) (by simp)
      have hrest := ih fun e he => hl e (by simp [he])
      rw [List.foldlM_cons]
      refine Heeds.bind (K := fun r m => m = n ∧ ∀ heads, r = .ok heads → OfKeys config heads) ?_
        (fun heads t m hm => ?_) fun e m hm => ⟨hm.1, fun _ h => (by cases h)⟩
      · refine (heeds_of_inquires (K := fun _ m => m = n) (fun name => inquires_rewind ..) hn
          fun _ => rfl).bind (fun o t m hm => ?_) fun e m hm => ⟨hm, fun _ h => (by cases h)⟩
        cases o with
        | none => exact ⟨hm, fun _ h => Except.ok.inj h ▸ hheads⟩
        | some x => exact ⟨hm, fun _ ho => Except.ok.inj ho ▸ hheads.insert hk x⟩
      · obtain ⟨rfl, hok⟩ := hm
        exact hrest heads (hok heads rfl) t
  refine hfold _ (fun e he => ?_) ∅ ofKeys_empty t
  exact hhashes e.1 (List.of_mem_zip he).1

/-- The links of a range are those of keys. -/
theorem heeds_rangeLinks (start stop : Nat) (hn : n.Settled config) :
    (rangeLinks config segment start stop).Heeds config
      (fun r m => m = n ∧ ∀ links, r = .ok links → ∀ u ∈ links.1, u.Links config.hasher) t n := by
  have hask {q : Call} (hq : ∀ name, q.Inquires name segment) (t : Tables) :
      (request q).Heeds config (fun _ m => m = n) t n :=
    heeds_of_inquires (fun name => inquires_request (hq name)) hn fun _ => rfl
  unfold rangeLinks
  refine (hask (q := .read ..) (fun _ => rfl) t).bind (fun data t m hm => ?_)
    fun e m hm => ⟨hm, fun _ h => (by cases h)⟩
  subst hm
  refine (heeds_ofExcept (K := fun r l => l = m ∧ r = hashRecords config start data)
    ⟨rfl, rfl⟩).bind (fun entries t m' hm => ?_) fun e m hm => ⟨hm.1, fun _ h => (by cases h)⟩
  obtain ⟨rfl, hentries⟩ := hm
  have hkeys := exists_key_of_hashRecords hentries.symm
  refine (hask (q := .getAttributes ..) (fun _ => rfl) t).bind (fun persisted t l hl => ?_)
    fun e m hm => ⟨hm, fun _ h => (by cases h)⟩
  subst hl
  refine (heeds_rewindAll (fun h hh => ?_) hn).bind (fun before t m hm => ?_)
    fun e m hm => ⟨hm.1, fun _ h => (by cases h)⟩
  · obtain ⟨e, he, rfl⟩ := List.mem_map.1 (List.mem_eraseDups.1 hh)
    exact hkeys e he
  · obtain ⟨rfl, hbefore⟩ := hm
    refine ⟨rfl, fun links hlinks u hu => ?_⟩
    obtain rfl := Except.ok.inj hlinks
    rcases List.mem_append.1 hu with hu | hu
    · exact links_backpointerUpdates hu
    · exact ((hbefore before rfl).chain hkeys).links hu

end Tables

namespace Notes

/-- A relation between notes before and after, in which nothing is left to be done. -/
structure Lasting (config : Config) (R : Notes → Notes → Prop) : Prop where
  refl : ∀ {n}, n.Settled config → R n n
  trans : ∀ {n m l}, R n m → R m l → R n l
  settled : ∀ {n m}, R n m → m.Settled config
  met : ∀ {n m}, R n m → m.met = n.met

theorem lasting_same (config : Config) : Lasting config (Same config) where
  refl := Same.refl
  trans := Same.trans
  settled h := h.2
  met := Same.met

theorem lasting_near (config : Config) : Lasting config (Near config) where
  refl h := (Same.refl h).near
  trans := Near.trans
  settled h := h.2
  met := Near.met

end Notes

namespace Program

variable {α β : Type} {config : Config} {segment : Nat} {R : Notes → Notes → Prop}
  {p : Program Tables α}

/-- Who has found the segment, and has nothing to do, has nothing to do afterwards. -/
def Keeps (config : Config) (segment : Nat) (R : Notes → Notes → Prop) (p : Program Tables α) :
    Prop :=
  ∀ t n, n.Settled config → n.met = some segment → p.Heeds config (fun _ m => R n m) t n

section Keeps

variable (hR : Lasting config R)
include hR

theorem Keeps.bind {f : α → Program Tables β} (hp : p.Keeps config segment R)
    (hf : ∀ a, (f a).Keeps config segment R) : (p >>= f).Keeps config segment R := by
  intro t n hn hmet
  refine (hp t n hn hmet).bind (fun a u m hm => ?_) fun e m hm => hm
  refine (hf a u m (hR.settled hm) ((hR.met hm).trans hmet)).mono fun r l hl => ?_
  exact hR.trans hm hl

theorem keeps_of_inquires (hp : ∀ name, p.Inquires name segment) : p.Keeps config segment R :=
  fun _ _ hn _ => heeds_of_inquires hp hn fun _ => hR.refl hn

theorem keeps_ofExcept (r : Except TableError α) :
    (ofExcept r : Program Tables α).Keeps config segment R :=
  fun _ _ hn _ => heeds_ofExcept (hR.refl hn)

theorem keeps_pure (a : α) : (pure a : Program Tables α).Keeps config segment R :=
  keeps_ofExcept hR (.ok a)

theorem keeps_fail (e : TableError) : (.fail e : Program Tables α).Keeps config segment R :=
  keeps_ofExcept hR (.error e)

theorem keeps_read : (read : Program Tables Tables).Keeps config segment R :=
  fun _ _ hn _ => hR.refl hn

theorem keeps_modify {f : Tables → Tables} (hf : ∀ n t, Act config n t (f t) n) :
    (modify f).Keeps config segment R :=
  fun t n hn _ => heeds_modify (hf n t) (hR.refl hn)

theorem keeps_waitUntil (ready : Tables → Bool) :
    (waitUntil ready).Keeps config segment R :=
  fun _ _ hn _ => heeds_waitUntil ready hn (hR.refl hn) (hR.refl hn)

theorem keeps_request {q : Call} (hq : ∀ name, q.Inquires name segment) :
    (request q : Program Tables q.Answer).Keeps config segment R :=
  keeps_of_inquires hR fun name => inquires_request (hq name)

theorem keeps_ask {q : Call} (hq : ∀ name, q.Inquires name segment) :
    (ask q : Program Tables q.Answer).Keeps config segment R :=
  keeps_of_inquires hR fun name => inquires_ask (hq name)

end Keeps

theorem Keeps.ensuring (hp : p.Keeps config segment R) {f : Tables → Tables}
    (hf : ∀ n t, Act config n t (f t) n) : (p.ensuring (modify f)).Keeps config segment R :=
  fun t n hn hmet => (hp t n hn hmet).ensuring hf

end Program

namespace Tables

variable {config : Config} {segment ref : Nat} {t : Tables} {n : Notes} {R : Notes → Notes → Prop}

theorem act_raise (n : Notes) (t : Tables) (ref offset : Nat) :
    Act config n t (t.raise ref offset) n :=
  .level n t ref fun _ => ⟨rfl, rfl, rfl⟩

theorem keeps_change (hR : Lasting config R) {f : SegmentState → SegmentState}
    (hf : ∀ s, (f s).heads = s.heads ∧ (f s).backpointers = s.backpointers ∧
      (f s).pending = s.pending) : (change ref f).Keeps config segment R :=
  keeps_modify hR fun n t => .level n t ref hf

/-- Who indexes a range writes links and the index offset, and need not tell anybody. -/
theorem keeps_indexRange (hm : config.mode = .inline) (start stop : Nat) :
    (indexRange config segment start stop).Keeps config segment (Same config) := by
  intro t n hn hmet
  rw [indexRange_eq]
  refine (heeds_rangeLinks start stop hn).bind (fun links t m hlinks => ?_)
    fun e m hm => by rw [hm.1]; exact .refl hn
  obtain ⟨rfl, hlinks⟩ := hlinks
  have hasks : m.Asks config
      (.updateAttributes segment (links.1 ++ [.replaceIfGreater .indexOffset stop])) :=
    ⟨hmet, .inr ⟨links.1, stop, hlinks links rfl, rfl⟩⟩
  have htold (r : Except TableError Unit) : m.Same config (m.told
      (.updateAttributes segment (links.1 ++ [.replaceIfGreater .indexOffset stop])) r) := by
    cases r with
    | error e => exact .refl hn
    | ok u => exact ⟨⟨_, rfl⟩, .inr ⟨hm, _, rfl⟩⟩
  refine (heeds_request (J := fun _ l => m.Same config l) hn hasks (.refl hn) htold).bind
    (fun _ t l hl => ?_) fun e l hl => hl
  exact heeds_modify (.cache ..) hl

theorem keeps_recover :
    (recover config segment ref).Keeps config segment (Same config) := by
  have hR := lasting_same config
  have hstate : (recoverState config segment ref).Keeps config segment (Same config) := by
    unfold recoverState
    refine Keeps.bind hR (keeps_read hR |>.bind hR fun _ => keeps_pure hR _) fun s => ?_
    split
    · exact keeps_pure hR _
    refine (keeps_of_inquires hR fun name => inquires_attributeOf .indexOffset).bind hR
      fun persisted => (keeps_ask hR (q := .length segment) fun _ => rfl).bind hR
      fun length => ?_
    refine (keeps_modify hR fun n t => act_raise n t ref _).bind hR fun _ => ?_
    have hend : (change ref ({ · with recovered := some length }) >>= fun _ =>
        pure length).Keeps config segment (Same config) := by
      refine Keeps.bind hR ?_ fun _ => keeps_pure hR _
      exact keeps_change hR fun _ => ⟨rfl, rfl, rfl⟩
    split
    · split
      · next hm =>
        refine (keeps_indexRange hm _ _).bind hR fun _ => ?_
        exact (keeps_modify hR fun n t => act_raise n t ref _).bind hR fun _ => hend
      · exact hend
    · exact hend
  unfold recover
  refine Keeps.bind hR (fun t n hn _ => ⟨hn, fun met t => ?_⟩) fun _ => ?_
  · cases met <;> exact .refl hn
  refine Keeps.bind hR ?_ fun _ => ?_
  · exact keeps_change hR fun _ => ⟨rfl, rfl, rfl⟩
  · exact hstate.ensuring fun n t => .level n t ref fun _ => ⟨rfl, rfl, rfl⟩

theorem keeps_admission (known : Option Nat) :
    (admission config segment ref known).Keeps config segment (Same config) := by
  have hR := lasting_same config
  have hawait (target : Nat) :
      (awaitWatermark ref target).Keeps config segment (Same config) := by
    refine (keeps_waitUntil hR _).bind hR fun _ => ?_
    refine Keeps.bind hR (keeps_read hR |>.bind hR fun _ => keeps_pure hR _) fun s => ?_
    split
    · exact keeps_fail hR _
    · exact keeps_pure hR _
  cases known with
  | some length => exact hawait length
  | none => exact keeps_recover.bind hR fun target => hawait target

/-- Who is let in holds the state of the segment. -/
theorem heeds_access (hn : n.Settled config) (hmet : n.met = some segment) :
    (access config segment).Heeds config
      (fun r m => n.Near config m ∧ ∀ ref, r = .ok ref → m.held = some ref) t n := by
  rw [access_eq]
  change ((ite _ _ _ : Program Tables Unit).bind _).Heeds config _ t n
  split
  · exact ⟨(Same.refl hn).near, fun _ h => (by cases h)⟩
  · refine ⟨_, .track t hmet, ?_⟩
    have hnear {m : Notes}
        (hm : ({ n with held := some (t.track segment).2 } : Notes).Same config m) :
        n.Near config m := by
      obtain ⟨⟨d, rfl⟩, hs⟩ := hm
      exact ⟨⟨_, d, rfl⟩, hs⟩
    change (admission config segment _ _ >>= fun _ => pure _).Heeds config _ _ _
    refine Heeds.bind (keeps_admission _ _ _ hn hmet) (fun _ u m hm => ?_)
      fun e m hm => ⟨hnear hm, fun _ h => (by cases h)⟩
    exact ⟨hnear hm, fun ref h => Except.ok.inj h ▸ hm.held⟩

theorem keeps_access : (access config segment).Keeps config segment (Near config) :=
  fun _ _ hn hmet => (heeds_access hn hmet).mono fun _ _ h => h.1

theorem keeps_headsWith (hR : Lasting config R) (hashes : List KeyHash) :
    (headsWith segment ref hashes).Keeps config segment R := by
  unfold headsWith
  refine (keeps_read hR).bind hR fun s => ?_
  dsimp only
  split
  · exact keeps_pure hR _
  · refine (keeps_request hR (q := .getAttributes ..) fun _ => rfl).bind hR fun values => ?_
    intro t n hn hmet
    have hact (m : Heads) (l : List (KeyHash × Option Nat)) :
        Act config n t (settleHeads segment ref (s.state ref).generation t m l).1 n := by
      obtain ⟨cache, hcache⟩ := @settleHeads_cache t segment ref (s.state ref).generation m l
      rw [hcache]
      exact .cache n t cache
    exact ⟨n, hact _ _, hR.refl hn⟩

theorem keeps_backpointer (offset : Nat) :
    (backpointer config segment offset).Keeps config segment (Near config) := by
  have hR := lasting_near config
  unfold backpointer
  refine keeps_access.bind hR fun ref => ?_
  refine Keeps.bind hR (keeps_read hR |>.bind hR fun _ => keeps_pure hR _) fun s => ?_
  split
  · exact keeps_pure hR _
  · exact keeps_of_inquires hR fun name => inquires_attributeOf _

theorem keeps_findFrom (mode : ReadMode) (key : Bytes) (left hops offset : Nat) :
    (Walk.findFrom mode segment (backpointer config segment) key left hops offset).Keeps config
      segment (Near config) := by
  have hR := lasting_near config
  have hvisit (offset : Nat) :
      (Walk.visit mode segment key offset).Keeps config segment (Near config) :=
    keeps_of_inquires hR fun name => Walk.inquires_visit mode key offset
  induction left generalizing hops offset with
  | zero =>
    unfold Walk.findFrom
    refine (hvisit offset).bind hR fun a => ?_
    cases a with
    | found | removed => exact keeps_pure hR _
    | other => exact keeps_fail hR _
  | succ left ih =>
    unfold Walk.findFrom
    refine (hvisit offset).bind hR fun a => ?_
    cases a with
    | found | removed => exact keeps_pure hR _
    | other =>
      refine (keeps_backpointer offset).bind hR fun p => ?_
      cases p with
      | none => exact keeps_pure hR _
      | some y =>
        dsimp only
        split
        · exact ih _ _
        · exact keeps_fail hR _

/-- Whoever has nothing to do when the segment is found has nothing to do in the end. -/
theorem heeds_resolve {α : Type} {name : String} {f : Nat → Program Tables α}
    (hname : n.name = some name) (hn : n.Settled config)
    (hf : ∀ segment t, (f segment).Heeds config (fun _ m => m.Settled config) t
      { n with met := some segment }) :
    (request (.resolve name) >>= f).Heeds config (fun _ m => m.Settled config) t n := by
  refine Heeds.bind (K := fun (r : Except TableError Nat) m => m.Settled config ∧
    ∀ segment, r = .ok segment → m = { n with met := some segment })
    (heeds_request (q := .resolve name) hn hname ⟨hn, fun _ h => (by cases h)⟩ fun r => ?_)
    (fun segment t m hm => ?_) fun e m hm => hm.1
  · cases r with
    | ok segment => exact ⟨hn, fun _ h => Except.ok.inj h ▸ rfl⟩
    | error e => exact ⟨hn, fun _ h => (by cases h)⟩
  · rw [hm.2 segment rfl]
    exact hf segment t

theorem Keeps.heeds {α : Type} {p : Program Tables α}
    (hp : p.Keeps config segment (Near config)) (hn : n.Settled config) :
    p.Heeds config (fun _ m => m.Settled config) t { n with met := some segment } :=
  (hp t { n with met := some segment } hn rfl).mono fun _ _ h => h.2

theorem heeds_lookup (mode : ReadMode) {name : String} (keys : List Bytes)
    (hname : n.name = some name) (hn : n.Settled config) :
    (lookup config mode name keys).Heeds config (fun _ m => m.Settled config) t n := by
  have hR := lasting_near config
  unfold lookup
  refine Heeds.bind (K := fun _ m => m = n) (heeds_checkOpen rfl rfl) (fun _ t m hm => ?_)
    fun e m hm => hm ▸ hn
  subst hm
  split
  · exact hn
  refine Heeds.bind (K := fun _ l => l = m) (heeds_ofExcept rfl) (fun hashes t l hl => ?_)
    fun e l hl => hl ▸ hn
  subst hl
  refine heeds_resolve hname hn fun segment t => Keeps.heeds ?_ hn
  have hheads : (heads config segment hashes.eraseDups).Keeps config segment (Near config) :=
    keeps_access.bind hR fun ref => keeps_headsWith hR _
  refine hheads.bind hR fun heads => ?_
  induction keys.zip hashes with
  | nil => exact keeps_pure hR _
  | cons e l ih =>
    obtain ⟨key, hash⟩ := e
    rw [List.mapM_cons]
    refine Keeps.bind hR ?_ fun _ => ih.bind hR fun _ => keeps_pure hR _
    dsimp only
    split
    · exact keeps_findFrom mode _ _ _ _
    · exact keeps_pure hR _

theorem heeds_withLocks {α : Type} {K : Except TableError α → Notes → Prop} {bs : List Bucket}
    {p : Program Tables α} (hn : n.Settled config) (hp : ∀ t, p.Heeds config K t n)
    (htimeout : K (.error .timeout) n) : (withLocks bs p).Heeds config K t n := by
  unfold withLocks
  refine Heeds.bind (K := fun r m => m = n ∧ ∀ e, r = .error e → e = .timeout)
    (heeds_waitUntil _ hn ⟨rfl, fun _ h => (by cases h)⟩
      ⟨rfl, fun _ h => (Except.error.inj h).symm⟩) (fun _ t m hm => ?_) fun e m hm => ?_
  · obtain ⟨rfl, -⟩ := hm
    refine Heeds.bind (K := fun r l => l = m ∧ ∀ e, r ≠ .error e)
      (heeds_modify (.locks ..) ⟨rfl, fun _ h => (by cases h)⟩) (fun _ t l hl => ?_)
      fun e l hl => absurd rfl (hl.2 e)
    rw [hl.1]
    exact (hp t).ensuring fun l t => .locks ..
  · rw [hm.1, hm.2 e rfl]
    exact htimeout

/-- Who persists links writes those that it carries. -/
theorem heeds_persist (hm : config.mode = .inline) (hn : n.Settled config)
    (hmet : n.met = some segment) {batch : PendingLinks} (hbatch : n.carried = [batch]) :
    (persist segment ref batch).Heeds config (fun _ m => m.Settled config) t n := by
  have htold {m : Notes} (hs : m.Settled config) (us : List AttributeUpdate)
      (r : Except TableError Unit) : (m.told (.updateAttributes segment us) r).Settled config := by
    cases r with
    | error e => exact hs
    | ok u => exact .inr ⟨hm, us, rfl⟩
  let m : Notes := { n with carried := (t.state ref).pending ++ n.carried }
  have hms : m.Settled config := hn
  have hcarried : (t.state ref).pending ++ [batch] = m.carried := by rw [← hbatch]
  unfold persist
  refine ⟨m, .takeOver n t ref hm, ?_⟩
  rw [hcarried]
  change (Program.attempt _ >>= _).Heeds config _ _ _
  refine Heeds.bind (K := fun r l => ∃ o, r = .ok o ∧ l.Settled config ∧ l.met = some segment ∧
    l.carried = m.carried) (Heeds.attempt (heeds_request hms ⟨hmet, .inl rfl⟩
      ⟨_, rfl, hms, hmet, rfl⟩ fun r => ⟨r, rfl, htold hms _ r, ?_⟩)) (fun o t l hl => ?_)
    fun e l hl => (by obtain ⟨_, h, -⟩ := hl; cases h)
  · cases r <;> exact ⟨hmet, rfl⟩
  obtain ⟨_, -, hl, hlmet, hlcarried⟩ := hl
  rw [← hlcarried]
  cases o with
  | error e =>
    exact Heeds.bind (K := fun _ k => k.Settled config)
      (heeds_modify (.giveBack l t ref hm) hl) (fun _ _ _ h => h) fun _ _ h => h
  | ok u =>
    obtain rfl : u = () := rfl
    refine heeds_read_bind.2 ?_
    have hact := Act.retire l t segment ref hm
    generalize retireAll segment ref t l.carried = retired at hact
    refine ⟨l, hact, ?_⟩
    dsimp only [Program.bind]
    cases retired.2 with
    | none => exact hl
    | some offset =>
      refine Heeds.bind (K := fun _ k => k.Settled config) (Heeds.attempt (heeds_request hl ?_ hl
        fun r => htold hl _ r)) (fun _ _ _ h => h) fun _ _ h => h
      exact ⟨hlmet, .inr ⟨[], offset, by simp, rfl⟩⟩

/-- Who appends a batch links it at once. -/
theorem heeds_linking {b : Batch} {rs : List Record} (hb : b.Lists config.hasher rs)
    (hn : n.Settled config) (hmet : n.met = some segment) (hheld : n.held = some ref) :
    (linking config segment b (request (.append segment (Record.encodeAll recordChecksum rs)))
      ref).Heeds config (fun _ m => m.Settled config) t n := by
  have hR := lasting_same config
  unfold linking
  refine Heeds.bind (keeps_headsWith hR _ _ n hn hmet) (fun current t m hm => ?_)
    fun e m hm => hm.2
  have hmmet : m.met = some segment := hm.met.trans hmet
  refine Heeds.bind (K := fun r l => (∀ e, r = .error e → l.Settled config) ∧
      ∀ offset, r = .ok offset →
        l = { m with due := .record (Record.encodeAll recordChecksum rs) offset })
    (heeds_request (q := .append segment _) hm.2 ⟨hmmet, b, rs, hb, rfl⟩
      ⟨fun _ _ => hm.2, fun _ h => (by cases h)⟩ fun r => ?_)
    (fun offset t l hl => ?_) fun e l hl => hl.1 e rfl
  · cases r with
    | ok offset => exact ⟨fun _ h => (by cases h), fun _ h => Except.ok.inj h ▸ rfl⟩
    | error e => exact ⟨fun _ _ => hm.2, fun _ h => (by cases h)⟩
  rw [hl.2 offset rfl]
  refine Heeds.bind (K := fun r k => r = .ok () ∧ k =
      { m with carried := [⟨Links.ofBatch b offset current, offset, b.length⟩], due := .nothing })
    (heeds_modify (.record t current hmmet (hm.held.trans hheld) rfl hb) ⟨rfl, rfl⟩)
    (fun _ t k hk => ?_) fun e k hk => (by cases hk.1)
  rw [hk.2]
  split
  · next hinline =>
    refine Heeds.bind (K := fun _ m => m.Settled config)
      (heeds_persist hinline (.inl rfl) ?_ rfl) (fun _ _ _ h => h) fun _ _ h => h
    exact hmmet
  · exact .inl rfl

theorem heeds_write {name : String} (kind : RecordKind) (rs : List Record)
    (hname : n.name = some name) (hn : n.Settled config) :
    (write config name kind rs).Heeds config (fun _ m => m.Settled config) t n := by
  unfold write
  refine Heeds.bind (K := fun _ m => m = n) (heeds_checkOpen rfl rfl) (fun _ t m hm => ?_)
    fun e m hm => hm ▸ hn
  subst hm
  refine heeds_resolve hname hn fun segment t => ?_
  split
  · exact hn
  generalize hl : ({ m with met := some segment } : Notes) = l
  have hls : l.Settled config := hl ▸ hn
  have hmet : l.met = some segment := hl ▸ rfl
  refine Heeds.bind (K := fun r k => k = l ∧
      r = Batch.ofRecords config.hasher config.maxBatchLength kind rs)
    (heeds_ofExcept ⟨rfl, rfl⟩) (fun batch t k hk => ?_) fun e k hk => hk.1 ▸ hls
  obtain ⟨rfl, hbatch⟩ := hk
  have hb := Batch.lists_ofRecords hbatch.symm
  refine Heeds.bind (K := fun _ m => m.Settled config) ?_ (fun _ _ _ h => h) fun _ _ h => h
  unfold update
  refine Heeds.bind (K := fun _ m => m = k) (heeds_checkIndex rfl rfl) (fun _ t m hm => ?_)
    fun e m hm => hm ▸ hls
  subst hm
  refine heeds_withLocks hls (fun t => ?_) hls
  refine (heeds_access hls hmet).bind (fun ref t k hk => ?_) fun e k hk => hk.1.2
  exact heeds_linking hb hk.1.2 (hk.1.met.trans hmet) (hk.2 ref rfl)

end Tables

namespace Indexer

open Tables

variable {config : Config} {t : Tables} {n : Notes}

/-- An indexer links entries to the heads of buckets of keys. -/
theorem heeds_linkEntries (segment : Nat) (hn : n.Settled config) (heads : Heads)
    (rs : List Scanned) (hheads : OfKeys config heads) :
    (linkEntries config segment heads rs).Heeds config (fun r m => m = n ∧
      ∀ e, r = .ok e → OfKeys config e.1 ∧ ∀ u ∈ e.2, u.Links config.hasher) t n := by
  induction rs generalizing heads t with
  | nil => exact ⟨rfl, fun _ h => Except.ok.inj h ▸ ⟨hheads, by simp⟩⟩
  | cons r rs ih =>
    unfold linkEntries
    refine Heeds.bind (K := fun r m => m = n ∧
      ∀ e, r = .ok e → OfKeys config e.1 ∧ ∀ u ∈ e.2, u.Links config.hasher) ?_
      (fun first t m hm => ?_) fun e m hm => ⟨hm.1, fun _ h => (by cases h)⟩
    · unfold linkEntry
      refine Heeds.bind (K := fun o m => m = n ∧ o = config.hasher.hash r.record.key)
        (heeds_ofExcept ⟨rfl, rfl⟩) (fun hash t m hm => ?_)
        fun e m hm => ⟨hm.1, fun _ h => (by cases h)⟩
      obtain ⟨rfl, hhash⟩ := hm
      -- The head is known or asked for, and the entry then follows it.
      have hnext {us : List AttributeUpdate} (hus : ∀ u ∈ us, u.Links config.hasher) (t : Tables) :
          (pure (heads.insert hash r.offset, us) :
            Program Tables (Heads × List AttributeUpdate)).Heeds config
              (fun r l => l = m ∧ ∀ e, r = .ok e →
                OfKeys config e.1 ∧ ∀ u ∈ e.2, u.Links config.hasher) t m := by
        refine ⟨rfl, fun e he => ?_⟩
        obtain rfl := Except.ok.inj he
        exact ⟨hheads.insert hhash.symm r.offset, hus⟩
      have hlink (x : Nat) :
          ∀ u ∈ [AttributeUpdate.replace (.backpointer r.offset) x], u.Links config.hasher := by
        simpa using .backpointer r.offset x
      split
      · next head _ => exact hnext (hlink head) t
      · have hinquires (name : String) : (ask (.getAttributes segment [.bucket hash]) :
            Program Tables (List (Option Nat))).Inquires name segment := inquires_ask rfl
        refine Heeds.bind (K := fun _ l => l = m) (heeds_of_inquires hinquires hn fun _ => rfl)
          (fun values t l hl => ?_) fun e l hl => ⟨hl, fun _ h => (by cases h)⟩
        subst hl
        refine hnext ?_ t
        split
        · next head _ => exact hlink head
        · simp
    · obtain ⟨rfl, hfirst⟩ := hm
      obtain ⟨hheads', hus⟩ := hfirst first rfl
      refine (ih first.1 hheads').bind (fun rest t l hl => ?_)
        fun e l hl => ⟨hl.1, fun _ h => (by cases h)⟩
      refine ⟨hl.1, fun e he => ?_⟩
      obtain rfl := Except.ok.inj he
      obtain ⟨hheads'', hus'⟩ := hl.2 rest rfl
      refine ⟨hheads'', fun u hu => ?_⟩
      rcases List.mem_append.1 hu with hu | hu
      · exact hus u hu
      · exact hus' u hu

variable {connector : Connector}

/-- Who has written links and the index offset reports at once how far that reaches. -/
theorem heeds_report {segment stop : Nat} {us : List AttributeUpdate} (hn : n.Settled config)
    (hmet : n.met = some segment) (hreports : n.reports = some connector.info.id)
    (hus : ∀ u ∈ us, u.Links config.hasher) :
    (do ask (.updateAttributes segment (us ++ [.replaceIfGreater .indexOffset stop]))
        modify (connector.notify stop)
        return stop : Program Tables Nat).Heeds config (fun _ m => m.Settled config) t n := by
  refine Heeds.bind (K := fun r m => (∀ e, r = .error e → m.Settled config) ∧ ∀ u, r = .ok u →
      m = { n with due := .announce (us ++ [.replaceIfGreater .indexOffset stop]) })
    (heeds_ask (q := .updateAttributes ..) hn ⟨hmet, .inr ⟨us, stop, hus, rfl⟩⟩ fun r => ?_)
    (fun _ t m hm => ?_) fun e m hm => hm.1 e rfl
  · cases r with
    | ok u => exact ⟨fun _ h => (by cases h), fun _ _ => rfl⟩
    | error e => exact ⟨fun _ _ => hn, fun _ h => (by cases h)⟩
  · rw [hm.2 () rfl]
    exact Heeds.bind (K := fun _ m => m.Settled config)
      (heeds_modify (.report t hreports rfl) (.inl rfl)) (fun _ _ _ h => h) fun _ _ h => h

theorem heeds_runWithin (limit : Option Nat) (hname : n.name = some connector.info.name)
    (hn : n.Settled config) (hreports : n.reports = some connector.info.id) :
    (runWithin config connector limit).Heeds config (fun _ m => m.Settled config) t n := by
  unfold runWithin
  refine Heeds.bind (K := fun (r : Except TableError Nat) m => m.Settled config ∧
    ∀ segment, r = .ok segment → m = { n with met := some segment })
    (heeds_ask (q := .resolve _) hn hname fun r => ?_) (fun segment t m hm => ?_)
    fun e m hm => hm.1
  · cases r with
    | ok segment => exact ⟨hn, fun _ h => Except.ok.inj h ▸ rfl⟩
    | error e => exact ⟨hn, fun _ h => (by cases h)⟩
  have hml := hm.2 segment rfl
  generalize hl : ({ n with met := some segment } : Notes) = l at hml
  have hls : l.Settled config := hl ▸ hn
  have hmet : l.met = some segment := hl ▸ rfl
  have hlreports : l.reports = some connector.info.id := hl ▸ hreports
  rw [hml]
  have hask {q : Call} (hq : ∀ name, q.Inquires name segment) (t : Tables) :
      (ask q).Heeds config (fun _ m => m = l) t l :=
    heeds_of_inquires (fun name => inquires_ask (hq name)) hls fun _ => rfl
  refine (hask (q := .getAttributes ..) (fun _ => rfl) t).bind (fun values t k hk => ?_)
    fun e k hk => (by rw [hk]; exact hls)
  rw [hk]
  refine (hask (q := .length _) (fun _ => rfl) t).bind (fun length t k hk => ?_)
    fun e k hk => (by rw [hk]; exact hls)
  rw [hk]
  dsimp only
  split
  · exact hls
  refine (hask (q := .read ..) (fun _ => rfl) t).bind (fun data t k hk => ?_)
    fun e k hk => (by rw [hk]; exact hls)
  rw [hk]
  refine (heeds_linkEntries segment hls ∅ _ ofKeys_empty).bind (fun links t k hk => ?_)
    fun e k hk => (by rw [hk.1]; exact hls)
  obtain ⟨rfl, hlinks⟩ := hk
  obtain ⟨hheads, hus⟩ := hlinks links rfl
  refine Heeds.bind (K := fun _ m => m = k) (heeds_ofExcept rfl) (fun _ t m hm => ?_)
    fun e m hm => (by rw [hm]; exact hls)
  rw [hm]
  refine heeds_report hls hmet hlreports fun u hu => ?_
  rcases List.mem_append.1 hu with hu | hu
  · exact hus u hu
  · exact hheads.links hu

end Indexer

def Operation.notes (name : String) : Operation → Notes
  | .index connector _ =>
    { Notes.blank with name := some connector.info.name, reports := some connector.info.id }
  | _ => { Notes.blank with name := some name }

theorem Operation.heeds (config : Config) (name : String) (op : Operation) (t : Tables) :
    (op.program config name).Heeds config (fun _ n => n.Settled config) t (op.notes name) := by
  have hmap {α β : Type} {p : Program Tables α} {f : α → β} {n : Notes}
      (hp : p.Heeds config (fun _ n => n.Settled config) t n) :
      (f <$> p).Heeds config (fun _ n => n.Settled config) t n := heeds_map hp
  have hnamed : { Notes.blank with name := some name }.Settled config := .inl rfl
  cases op with
  | put entries => exact hmap (Tables.heeds_write _ _ rfl hnamed)
  | remove keys =>
    exact hmap (Heeds.bind (K := fun _ n => n.Settled config) (Tables.heeds_write _ _ rfl hnamed)
      (fun _ _ _ h => h) fun _ _ h => h)
  | get keys => exact hmap (hmap (Tables.heeds_lookup _ _ rfl hnamed))
  | getKeys keys => exact hmap (hmap (Tables.heeds_lookup _ _ rfl hnamed))
  | index connector limit => exact hmap (Indexer.heeds_runWithin limit rfl (.inl rfl) rfl)

def Request.notes : Request → Notes
  | .table name op => op.notes name
  | .delete name _ | .connect name => { Notes.blank with name := some name }
  | .notify segment offset => { Notes.blank with due := .notice segment offset }
  | _ => .blank

/-- Every request heeds its notes. -/
theorem Request.heeds (config : Config) (r : Request) (t : Tables) :
    (r.program config).Heeds config (fun _ n => n.Settled config) t r.notes := by
  have hmap {α β : Type} {p : Program Tables α} {f : α → β} {n : Notes}
      (hp : p.Heeds config (fun _ n => n.Settled config) t n) :
      (f <$> p).Heeds config (fun _ n => n.Settled config) t n := heeds_map hp
  have hblank : Notes.blank.Settled config := .inl rfl
  have hopen {α : Type} {f : Unit → Program Tables α} {n : Notes} (hn : n.Settled config)
      (hf : ∀ t, (f ()).Heeds config (fun _ n => n.Settled config) t n) :
      (Tables.checkOpen >>= f).Heeds config (fun _ n => n.Settled config) t n :=
    Heeds.bind (K := fun _ m => m = n) (Tables.heeds_checkOpen rfl rfl)
      (fun _ t m hm => hm ▸ hf t) fun e m hm => hm ▸ hn
  cases r with
  | table name op => exact hmap (op.heeds config name t)
  | create name =>
    refine hmap (hopen hblank fun t => heeds_ask (q := .create ..) hblank rfl fun r => ?_)
    cases r <;> exact hblank
  | delete name mustBeEmpty =>
    apply hmap
    cases mustBeEmpty with
    | true => exact .inl rfl
    | false =>
      have hn : { Notes.blank with name := some name }.Settled config := .inl rfl
      refine hopen hn fun t => Tables.heeds_resolve rfl hn fun segment t => ?_
      refine Heeds.bind (K := fun r m => (∀ e, r = .error e → m.Settled config) ∧
        ∀ u, r = .ok u →
          m = { Notes.blank with name := some name, met := some segment, due := .forget })
        (heeds_request (q := .delete name) hn ⟨rfl, segment, rfl⟩
          ⟨fun _ _ => hn, fun _ h => (by cases h)⟩ fun r => ?_) (fun _ t m hm => ?_)
        fun e m hm => hm.1 e rfl
      · cases r with
        | ok u => exact ⟨fun _ h => (by cases h), fun _ _ => rfl⟩
        | error e => exact ⟨fun _ _ => hn, fun _ h => (by cases h)⟩
      · rw [hm.2 () rfl]
        exact heeds_modify (.forget t rfl rfl) (.inl rfl)
  | connect name =>
    have hn : { Notes.blank with name := some name }.Settled config := .inl rfl
    refine hmap (hopen hn fun t => Tables.heeds_resolve rfl hn fun segment t =>
      Tables.Keeps.heeds ?_ hn)
    have hR := lasting_near config
    refine (keeps_of_inquires hR fun name => Tables.inquires_attributeOf _).bind hR fun o => ?_
    cases o with
    | none => exact keeps_pure hR _
    | some _ => exact (keeps_ask hR (q := .length _) fun _ => rfl).bind hR fun _ => keeps_pure hR _
  | prepare => exact hmap (Tables.heeds_checkOpen hblank hblank)
  | unsupported operation => exact hmap (hopen hblank fun t => hblank)
  | notify segment offset => exact hmap (heeds_modify (.notice t rfl) (.inl rfl))

/-- Whatever single steps keep, all runs of requests keep from the opening on. -/
theorem Pool.Steps.noted_of_requests {config : Config} {P : Notes → Prop}
    (hP : ∀ r : Request, P r.notes) {around : Surroundings Tables} {c : Container} {t : Tables}
    {H : List (Event Tables (Option Reply)) → Pool Tables (Option Reply) → (Nat → Notes) → Prop}
    (hH : ∀ {past e y z ns ms}, Step around y e z → Jots config (fun _ n => P n) y z ns e ms →
      H past y ns → H (past ++ [e]) z ms)
    {es : List (Event Tables (Option Reply))} {z : Pool Tables (Option Reply)}
    (hrun : Steps around ⟨c, t, fun _ => none⟩ es z) (hes : ∀ e ∈ es, e.OfRequest config)
    (hstart : H [] ⟨c, t, fun _ => none⟩ fun _ => .blank) : ∃ ns, H es z ns := by
  have hs {i : Nat} {p : Program Tables (Option Reply)}
      (hi : (Event.start i p).OfRequest config) :
      ∃ n, P n ∧ ∀ t, p.Heeds config (fun _ n => n.Settled config) t n := by
    obtain ⟨r, rfl⟩ := hi
    exact ⟨r.notes, hP r, r.heeds config⟩
  obtain ⟨ns, -, hz⟩ := Steps.noted config (fun _ n => P n)
    (fun hstep hjots _ h => hH hstep hjots h) hs hrun hes (fun hi => by cases hi) hstart
  exact ⟨ns, hz⟩

end KeyedLog
