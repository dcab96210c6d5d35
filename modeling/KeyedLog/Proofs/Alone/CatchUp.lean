import KeyedLog.Proofs.Alone.Index
import KeyedLog.Proofs.Attribute.LinkMap
import KeyedLog.Proofs.Operation.Indexer

/-! Catching up: records that were appended without being linked are linked later on, by an index
that is opened on them or by an indexer. -/
namespace KeyedLog

open Program

namespace Log.LinkMap

variable {hasher : Hasher} {log rs : List Record} {a : Attributes} {before heads full : Heads}
  {x : Nat} {h : KeyHash}

/-- What links some records, once the persisted heads of their buckets were looked up. -/
theorem linkRun_of_collect {hashes : List KeyHash}
    (hin : ∀ h, h ∈ hashes ↔ ∃ x, (x, h) ∈ hashed hasher (size log) rs)
    (hbefore : Heads.collect (fun h => a[AttributeId.bucket h]?) ∅ hashes = before) :
    Attributes.LinkRun hasher log rs a before
      (Links.chain before (hashed hasher (size log) rs)).1.toList
      (Site.rangeUpdates (Links.chain before (hashed hasher (size log) rs)).2
        (Links.chain before (hashed hasher (size log) rs)).1.toList (size (log ++ rs))) := by
  have hget (h : KeyHash) :
      before[h]? = if h ∈ hashes then a[AttributeId.bucket h]? else none := by
    rw [← hbefore, Heads.getElem?_collect]
    simp
  refine ⟨fun hx => by rw [hget, if_pos ((hin _).2 ⟨_, hx⟩)], fun {h y} => ?_, fun u => Iff.rfl⟩
  rw [Std.ExtTreeMap.mem_toList_iff_getElem?_eq_some]
  refine ⟨fun hy => ⟨?_, hy⟩, And.right⟩
  obtain ⟨q, hq, hc⟩ := @Links.chain_heads before _ (hashed_pairwise hasher (size log) rs)
    (size (log ++ rs)) (fun e he => (Attributes.JustLinks.mem_hashed_append.1 he).2.2) h
  cases q with
  | some z => exact ⟨z, hq.mem⟩
  | none =>
    rw [hy, Option.none_or, hget] at hc
    split at hc
    · next hh => exact (hin h).1 hh
    · cases hc

end Log.LinkMap

namespace Tables

variable {config : Config} {name : String} {segment ref : Nat} {log rs : List Record}
  {a : Attributes} {c : Container} {t : Tables} {s : SegmentState}

section Recover

theorem succeeds_rewind {σ : Type} {J : Option Nat → Container → σ → Prop} {s : σ}
    {before hops left : Nat} {cur : Option Nat} (hcur : ∀ x, cur = some x → x < before)
    (hJ : J cur c s) : (rewind segment before hops left cur).Succeeds J c s := by
  cases cur with
  | none =>
    unfold rewind
    exact (succeeds_pure _).2 hJ
  | some x =>
    unfold rewind
    rw [if_pos (hcur x rfl)]
    exact (succeeds_pure _).2 hJ

theorem succeeds_rewindAll {J : Heads → Container → Tables → Prop} {before : Nat}
    {hashes : List KeyHash} {value : KeyHash → Option Nat}
    (hvalue : ∀ h ∈ hashes, ∀ x, value h = some x → x < before)
    (hJ : J (Heads.collect value ∅ hashes) c t) :
    (rewindAll config segment before hashes (hashes.map value)).Succeeds J c t := by
  have hfold : ∀ (hs : List KeyHash) (m : Heads),
      (∀ h ∈ hs, ∀ x, value h = some x → x < before) → J (Heads.collect value m hs) c t →
      ((hs.zip (hs.map value)).foldlM (Site.rewindStep config segment before) m).Succeeds J
        c t := by
    intro hs
    induction hs with
    | nil => exact fun m _ hJ => (succeeds_pure m).2 hJ
    | cons h hs ih =>
      intro m hvalue hJ
      rw [List.map_cons, List.zip_cons_cons, List.foldlM_cons]
      have hrest (m' : Heads) := ih m' fun g hg => hvalue g (by simp [hg])
      rw [Heads.collect, List.foldl_cons] at hJ
      refine succeeds_bind.2 (succeeds_bind.2 (succeeds_rewind (hvalue h (by simp)) ?_))
      cases hv : value h with
      | none =>
        rw [hv] at hJ
        exact (succeeds_pure _).2 (hrest m hJ)
      | some y =>
        rw [hv] at hJ
        exact (succeeds_pure _).2 (hrest (m.insert h y) hJ)
  exact hfold hashes ∅ hvalue hJ

/-- Records behind the index offset are linked, if those before it are. -/
theorem succeeds_indexRange {J : Unit → Container → Tables → Prop}
    (hc : c.Shows name segment (log ++ rs) a) (ha : Log.LinkMap config.hasher log a)
    (hrs : Log.Wellformed config.hasher rs)
    (hJ : ∀ c' b cache, c'.Shows name segment (log ++ rs) b →
      Log.LinkMap config.hasher (log ++ rs) b → J () c' { t with cache }) :
    (indexRange config segment (Log.size log) (Log.size (log ++ rs))).Succeeds J c t := by
  unfold indexRange
  have hlength : Log.size (log ++ rs) - Log.size log = Log.size rs := by
    rw [Log.size_append]
    omega
  refine succeeds_bind.2 (succeeds_request (hc.performs_read List.prefix_rfl hlength) ?_)
  rw [Log.hashRecords_encodeAll config _ hrs]
  refine succeeds_bind.2 ((succeeds_ofExcept_ok _).2 ?_)
  generalize hhashes : ((Log.hashed config.hasher (Log.size log) rs).map (·.2)).eraseDups = hashes
  have hin (h : KeyHash) :
      h ∈ hashes ↔ ∃ x, (x, h) ∈ Log.hashed config.hasher (Log.size log) rs := by
    rw [← hhashes, List.mem_eraseDups]
    simp
  refine succeeds_bind.2 (hc.getAttributes _ fun c₁ hc₁ => ?_)
  rw [List.map_map]
  refine succeeds_bind.2 (succeeds_rewindAll (fun h hh x hx => ?_) ?_)
  · obtain ⟨y, hy⟩ := (hin h).1 hh
    have hlast := ha.head_lastBefore (Attributes.JustLinks.mem_hashed_append.1 hy).1.proper
    rw [show a[AttributeId.bucket h]? = some x from hx] at hlast
    exact hlast.lt
  generalize hbefore : Heads.collect _ ∅ hashes = before
  have hrun := Log.LinkMap.linkRun_of_collect hin hbefore
  obtain ⟨c₂, hp, hc₂⟩ := hc₁.performs_updateAttributes (Site.rangeUpdates
    (Links.chain before (Log.hashed config.hasher (Log.size log) rs)).2
    (Links.chain before (Log.hashed config.hasher (Log.size log) rs)).1.toList
    (Log.size (log ++ rs)))
  refine succeeds_bind.2 (succeeds_request hp ?_)
  exact (succeeds_modify _).2 (hJ c₂ _ _ hc₂ (ha.append hrun))

/-- Whoever is the first to access a segment links what has yet to be linked. -/
theorem succeeds_recoverState_inline {J : Nat → Container → Tables → Prop}
    (hm : config.mode = .inline) (hc : c.Shows name segment (log ++ rs) a)
    (ha : Log.LinkMap config.hasher log a) (hrs : Log.Wellformed config.hasher rs)
    (h : t.Keeps segment ref s) (hs : s.recovered = none)
    (hJ : ∀ c' t' b s', c'.Shows name segment (log ++ rs) b →
      Log.LinkMap config.hasher (log ++ rs) b → t'.Keeps segment ref s' →
      t'.indexClosed = t.indexClosed → s'.watermark.closed = s.watermark.closed →
      Log.size (log ++ rs) ≤ s'.watermark.offset → J (Log.size (log ++ rs)) c' t') :
    (recoverState config segment ref).Succeeds J c t := by
  by_cases hlt : Log.size log < Log.size (log ++ rs)
  · unfold recoverState
    rw [succeeds_look_bind h.state, hs]
    refine succeeds_bind.2 (succeeds_bind.2 (hc.getAttributes [.indexOffset] fun c₁ hc₁ => ?_))
    refine (succeeds_pure _).2 (succeeds_bind.2 (hc₁.asksLength ?_))
    rw [List.map_cons, List.map_nil, List.head?_cons, Option.join_some, ha.index, Option.getD_some]
    refine succeeds_bind.2 ((succeeds_modify _).2 ?_)
    have h₁ := h.modifyState fun s => { s with watermark := (s.watermark.raise (Log.size log)).1 }
    rw [if_pos hlt, hm]
    refine succeeds_bind.2 (succeeds_indexRange hc₁ ha hrs fun c₂ b cache hc₂ hb => ?_)
    have h₂ := (h₁.withCache cache).modifyState fun s =>
      { s with watermark := (s.watermark.raise (Log.size (log ++ rs))).1 }
    refine succeeds_bind.2 ((succeeds_modify _).2 (succeeds_change_bind.2 ((succeeds_pure _).2 ?_)))
    refine hJ c₂ _ b _ hc₂ hb (h₂.modifyState _) rfl ?_ ?_
    · exact (Watermark.closed_raise _).trans (Watermark.closed_raise _)
    · exact (Watermark.raise_le _).2
  · have hle := Nat.le_of_not_lt hlt
    have hsame : log = log ++ rs := by
      refine Log.eq_of_prefix_of_size (List.prefix_append ..) (Nat.le_antisymm ?_ hle)
      rw [Log.size_append]
      omega
    refine succeeds_recoverState hc.holds (Log.length_encodeAll ..) h hs
      (congrArg (·.getD 0) ha.index) hle fun c' t' hc' h' halike => ?_
    rw [SegmentState.accessed_of_unrecovered hs] at h'
    refine hJ c' t' a _ (.of_holds hc') (hsame ▸ ha) h' halike.indexOpened
      (Watermark.closed_raise _) ?_
    exact Nat.le_trans hle (Watermark.raise_le _).2

/-- An index that is opened on records that were only appended links them on first access. -/
theorem succeeds_access_inline {K : Nat → Container → Tables → Prop} (hm : config.mode = .inline)
    (hc : c.Shows name segment (log ++ rs) a) (ha : Log.LinkMap config.hasher log a)
    (hrs : Log.Wellformed config.hasher rs) (ht : t.AtEase segment)
    (hs : (t.memory segment).recovered = none)
    (hK : ∀ ref c' t' b, c'.Shows name segment (log ++ rs) b →
      Log.LinkMap config.hasher (log ++ rs) b → K ref c' t') :
    (access config segment).Succeeds K c t := by
  refine succeeds_access_of_unrecovered (n := Log.size (log ++ rs)) ht hs fun t₁ h₁ halike => ?_
  refine succeeds_recoverState_inline hm hc ha hrs h₁ hs
    fun c₂ t₂ b s hc₂ hb h₂ hopen hclosed hle => ?_
  refine ⟨rfl, s, h₂, ?_, ?_, hle, fun u _ _ => hK _ c₂ u b hc₂ hb⟩
  · rw [hopen, halike.indexOpened, ht.indexOpened]
  · exact hclosed.trans ht.unclosed

end Recover

end Tables

namespace Indexer

variable {config : Config} {name : String} {segment x : Nat} {log rs full : List Record}
  {a : Attributes} {H : KeyHash → Prop} {heads all : Heads} {c : Container} {t : Tables}

theorem succeeds_linkEntry {J : Heads × List AttributeUpdate → Container → Tables → Prop}
    {r : Record} {h : KeyHash} (hc : c.Shows name segment full a) (ht : Site.Tracks a H heads all)
    (hh : config.hasher.hash r.key = .ok h) (hH : H h)
    (hJ : ∀ c', c'.Shows name segment full a →
      J (heads.insert h x, Links.backpointerUpdates [(x, all[h]?)]) c' t) :
    (linkEntry config segment heads ⟨x, r.header recordChecksum, r⟩).Succeeds J c t := by
  unfold linkEntry
  rw [hh]
  refine succeeds_bind.2 ((succeeds_ofExcept_ok h).2 ?_)
  dsimp only
  cases hy : heads[h]? with
  | some y =>
    have hJ := hJ c hc
    rw [ht.sound hy] at hJ
    exact (succeeds_pure _).2 hJ
  | none =>
    refine succeeds_bind.2 (hc.asksAttributes [.bucket h] fun c₁ hc₁ => ?_)
    have hJ := hJ c₁ hc₁
    rw [ht.fallback hH hy] at hJ
    simp only [List.map_cons, List.map_nil, List.head?_cons, Option.join_some]
    cases hp : a[AttributeId.bucket h]? with
    | none =>
      rw [hp] at hJ
      exact (succeeds_pure _).2 hJ
    | some p =>
      rw [hp] at hJ
      exact (succeeds_pure _).2 hJ

/-- All entries are linked as if every head had been known from the start. -/
theorem succeeds_linkEntries {J : Heads × List AttributeUpdate → Container → Tables → Prop}
    (hc : c.Shows name segment full a) (ht : Site.Tracks a H heads all)
    (hrs : Log.Wellformed config.hasher rs)
    (hH : ∀ {y h}, (y, h) ∈ Log.hashed config.hasher x rs → H h)
    (hJ : ∀ c' heads', c'.Shows name segment full a →
      Site.Tracks a H heads' (Links.chain all (Log.hashed config.hasher x rs)).1 →
      (∀ h, heads'[h]? ≠ none ↔
        heads[h]? ≠ none ∨ ∃ y, (y, h) ∈ Log.hashed config.hasher x rs) →
      J (heads', Links.backpointerUpdates (Links.chain all (Log.hashed config.hasher x rs)).2)
        c' t) :
    (linkEntries config segment heads (Log.scanned x rs)).Succeeds J c t := by
  induction rs generalizing heads all c x J with
  | nil =>
    refine (succeeds_pure _).2 (hJ c heads hc ht fun h => (or_iff_left ?_).symm)
    rintro ⟨y, hy⟩
    cases hy
  | cons r rs ih =>
    obtain ⟨-, h, hh⟩ := hrs r (by simp)
    have hcons : Log.hashed config.hasher x (r :: rs) =
        (x, h) :: Log.hashed config.hasher (x + r.length) rs := by
      simp [Log.hashed, hh, Except.toOption]
    rw [hcons] at hH hJ
    unfold Log.scanned
    rw [Log.placed_cons, List.map_cons]
    unfold linkEntries
    refine succeeds_bind.2 (succeeds_linkEntry hc ht hh (hH List.mem_cons_self) fun c₁ hc₁ => ?_)
    refine succeeds_bind.2 (ih hc₁ (ht.insert h x) (fun s hs => hrs s (by simp [hs]))
      (fun hy => hH (List.mem_cons_of_mem _ hy)) fun c₂ heads' hc₂ ht' hin => ?_)
    have hupdates : Links.backpointerUpdates [(x, all[h]?)] ++ Links.backpointerUpdates
        (Links.chain (all.insert h x) (Log.hashed config.hasher (x + r.length) rs)).2 =
          Links.backpointerUpdates
            (Links.chain all ((x, h) :: Log.hashed config.hasher (x + r.length) rs)).2 :=
      (List.filterMap_append (l := [(x, all[h]?)])).symm
    refine (succeeds_pure _).2 (hupdates ▸ hJ c₂ heads' hc₂ ht' fun k => (hin k).trans ?_)
    rw [Heads.getElem?_insert]
    by_cases hk : h = k
    · subst hk
      simp
    · rw [if_neg hk]
      simp [Ne.symm hk]

/-- What links some records, once the heads of their buckets were tracked. -/
theorem linkRun_of_tracks {hashes : List KeyHash}
    (hin : ∀ h, h ∈ hashes ↔ ∃ x, (x, h) ∈ Log.hashed config.hasher (Log.size log) rs)
    (hall : Heads.collect (fun h => a[AttributeId.bucket h]?) ∅ hashes = all)
    (ht : Site.Tracks a H heads (Links.chain all (Log.hashed config.hasher (Log.size log) rs)).1)
    (hheads : ∀ h, heads[h]? ≠ none ↔
      ∃ x, (x, h) ∈ Log.hashed config.hasher (Log.size log) rs) :
    Attributes.LinkRun config.hasher log rs a all heads.toList
      (Site.rangeUpdates (Links.chain all (Log.hashed config.hasher (Log.size log) rs)).2
        heads.toList (Log.size (log ++ rs))) := by
  have hrun := Log.LinkMap.linkRun_of_collect hin hall
  refine ⟨hrun.known, fun {h y} => ?_, fun u => Iff.rfl⟩
  rw [Std.ExtTreeMap.mem_toList_iff_getElem?_eq_some]
  constructor
  · intro hy
    exact ⟨(hheads h).1 (by simp [hy]), ht.sound hy⟩
  · rintro ⟨hx, hy⟩
    cases hk : heads[h]? with
    | none => exact absurd hk ((hheads h).2 hx)
    | some z => rw [← hy, ← ht.sound hk]

/-- An indexer links all records that are not indexed yet. -/
theorem succeeds_run {J : Nat → Container → Tables → Prop} {connector : Connector}
    (hname : connector.info.name = name) (hc : c.Shows name segment (log ++ rs) a)
    (ha : Log.LinkMap config.hasher log a) (hrs : Log.Wellformed config.hasher rs)
    (hJ : ∀ n c' t' b, c'.Shows name segment (log ++ rs) b →
      Log.LinkMap config.hasher (log ++ rs) b → J n c' t') :
    (run config connector).Succeeds J c t := by
  unfold run runWithin
  rw [hname]
  refine succeeds_bind.2 (succeeds_ask (Container.perform_resolve hc.resolve) ?_)
  refine succeeds_bind.2 (hc.asksAttributes [.indexOffset] fun c₁ hc₁ => ?_)
  refine succeeds_bind.2 (hc₁.asksLength ?_)
  rw [List.map_cons, List.map_nil, List.head?_cons, Option.join_some, ha.index, Option.getD_some]
  split
  · next hle =>
    have hsame : log = log ++ rs := by
      refine Log.eq_of_prefix_of_size (List.prefix_append ..) (Nat.le_antisymm ?_ hle)
      rw [Log.size_append]
      omega
    exact (succeeds_pure _).2 (hJ _ c₁ t a hc₁ (hsame ▸ ha))
  · have hlength : Log.size (log ++ rs) - Log.size log = Log.size rs := by
      rw [Log.size_append]
      omega
    refine succeeds_bind.2 (succeeds_ask (hc₁.performs_read List.prefix_rfl hlength) ?_)
    have hscan : Scan.ofBytes recordChecksum (Log.size log) (Record.encodeAll recordChecksum rs) =
        ⟨Log.scanned (Log.size log) rs, none⟩ :=
      Log.ofBytes_encodeAll recordChecksum _ rs fun r hr => (hrs r hr).1.writable
    rw [hscan]
    dsimp only [portion]
    rw [Log.foldl_totalLength (fun r hr => (hrs r hr).1), ← Log.size_append]
    generalize hhashes : (Log.hashed config.hasher (Log.size log) rs).map (·.2) = hashes
    have hin (h : KeyHash) :
        h ∈ hashes ↔ ∃ x, (x, h) ∈ Log.hashed config.hasher (Log.size log) rs := by
      rw [← hhashes]
      simp
    refine succeeds_bind.2 (succeeds_linkEntries hc₁ (Site.tracks_collect a hashes) hrs
      (fun hy => (hin _).2 ⟨_, hy⟩) fun c₂ heads hc₂ ht hheads => ?_)
    have hrun := linkRun_of_tracks hin rfl ht fun h => (hheads h).trans (by simp)
    obtain ⟨c₃, hp, hc₃⟩ := hc₂.performs_updateAttributes _
    refine succeeds_bind.2 ((succeeds_ofExcept_ok ()).2 ?_)
    refine succeeds_bind.2 (succeeds_ask hp ?_)
    refine succeeds_bind.2 ((succeeds_modify _).2 ((succeeds_pure _).2 ?_))
    exact hJ _ c₃ _ _ hc₃ (ha.append hrun)

end Indexer
end KeyedLog
