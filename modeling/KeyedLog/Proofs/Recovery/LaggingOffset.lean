import KeyedLog.Proofs.Custody.Backlog
import KeyedLog.Proofs.Recovery.FirstAccess
import KeyedLog.Proofs.Recovery.Relinking

/-! An index that is opened on a segment whose index offset lags behind its links. -/
namespace KeyedLog

open Program Tables

/-- All links of the entries of a segment are persisted, wherever the index offset may be. -/
def Container.HasLinks (c : Container) (hasher : Hasher) (segment : Nat) : Prop :=
  (c.segment segment).attributes.HasLinks (c.segment segment).data.length (c.bucket segment hasher)

def Container.withIndexOffset (c : Container) (segment offset : Nat) : Container :=
  c.modify segment fun s => { s with attributes := s.attributes.insert .indexOffset offset }

theorem Container.Shows.withIndexOffset {c : Container} {name : String} {segment : Nat}
    {log : List Record} {a : Attributes} (hc : c.Shows name segment log a) (offset : Nat) :
    (c.withIndexOffset segment offset).Shows name segment log (a.insert .indexOffset offset) := by
  apply hc.modify
  · exact fun _ => rfl
  · exact hc.data
  · exact congrArg (·.insert AttributeId.indexOffset offset) hc.attributes

namespace Attributes

variable {a : Attributes} {id : AttributeId} {n m length : Nat} {bucket : KeyHash → List Nat}

theorem getElem?_insert_index (hid : id ≠ .indexOffset) :
    (a.insert .indexOffset n)[id]? = a[id]? := by
  rw [Std.ExtTreeMap.getElem?_insert, if_neg]
  rw [Std.LawfulEqCmp.compare_eq_iff_eq]
  exact hid.symm

theorem update_index (hle : n ≤ m) :
    update (a.insert .indexOffset n) (.replaceIfGreater .indexOffset m) =
      a.insert .indexOffset m := by
  have hvalue : AttributeUpdate.apply (.replaceIfGreater .indexOffset m) (some n) = m := by
    change max n m = m
    omega
  apply Std.ExtTreeMap.ext_getElem?
  intro id
  rw [getElem?_update, show (AttributeUpdate.replaceIfGreater .indexOffset m).id = .indexOffset
    from rfl]
  by_cases hid : id = .indexOffset
  · subst hid
    rw [if_pos rfl, Std.ExtTreeMap.getElem?_insert_self, Std.ExtTreeMap.getElem?_insert_self,
      hvalue]
  · rw [if_neg (Ne.symm hid), getElem?_insert_index hid, getElem?_insert_index hid]

/-- If all links of a range are there already, nothing but the index offset moves. -/
theorem updateAll_range_of_present {us : List AttributeUpdate} (hle : n ≤ m)
    (h : ∀ u ∈ us, (a.insert .indexOffset n)[u.id]? = some u.value) :
    updateAll (a.insert .indexOffset n) (us ++ [.replaceIfGreater .indexOffset m]) =
      a.insert .indexOffset m := by
  have hsame := updateAll_of_present h
  unfold updateAll at hsame ⊢
  rw [List.foldl_append, hsame]
  exact update_index hle

theorem HasLinks.withIndex (h : a.HasLinks length bucket) (n : Nat) :
    HasLinks (a.insert .indexOffset n) length bucket where
  head k hk := by
    rw [getElem?_insert_index (AttributeId.bucket_ne_indexOffset hk)]
    exact h.head k hk
  backpointer k x hx := by
    rw [getElem?_insert_index (AttributeId.backpointer_ne_indexOffset x)]
    exact h.backpointer k x hx

end Attributes

namespace Site

variable {S : Site} {log : List Record} {a : Attributes} {n x : Nat} {h : KeyHash} {z : Scene}

section Opened

variable (hfloor : ∀ h, S.floor h = 0)
  (ha : a.HasLinks (Log.size log) (Log.bucket S.config.hasher log))
include hfloor ha

theorem chained_of_hasLinks (he : S.Entry log x h) : S.Chained log a x h := by
  apply (ha.backpointer h x (Log.mem_bucket.2 he.1)).congr
  intro y _
  rw [Log.mem_bucket]
  simp [Entry, hfloor]

/-- What is persisted is true, however little of it counts as indexed. -/
theorem faithful_of_hasLinks (hm : S.config.mode = .inline)
    (hindex : a[AttributeId.indexOffset]? = some n) (hn : Log.Boundary log n)
    (hlt : ∀ {x p}, a[AttributeId.backpointer x]? = some p → x < Log.size log) :
    S.Faithful ⟨log, fun _ => none⟩ a where
  index := by
    refine ⟨n, hindex, hn, fun h => ?_⟩
    rw [hfloor]
    exact Nat.zero_le n
  indexed {x h} he _ := by
    refine ⟨chained_of_hasLinks hfloor ha he, ?_⟩
    exact (ha.head h he.proper).2 x (Log.mem_bucket.2 he.1) he.lt
  backpointer_lt := hlt
  backpointer {x p h} hp he := by
    have hchained := chained_of_hasLinks hfloor ha he
    unfold Chained at hchained
    rwa [hp] at hchained
  bucket {h y} hh hy := by
    obtain ⟨hmem, -⟩ := (ha.head h hh).1 y hy
    have he : Log.Entry S.config.hasher log y h := Log.mem_bucket.1 hmem
    refine ⟨⟨he, ?_⟩, .inl ?_⟩
    · rw [hfloor]
      exact Nat.zero_le y
    · rintro ⟨i, s, e, hi, -⟩
      cases hi
  deferred hd := by
    rw [hm] at hd
    cases hd

theorem uncut_of_hasLinks : S.Uncut log a := by
  rintro h ⟨x, f, y, hx, hxi, hf, hfi, -, -, -, hnone⟩
  have hchained := chained_of_hasLinks hfloor ha hf
  unfold Chained at hchained
  rw [hnone] at hchained
  have hxf : x < f := by
    obtain ⟨n, hn, hlt⟩ := hxi
    have hle : ¬f < n := fun hlt => hfi ⟨n, hn, hlt⟩
    omega
  exact LastBefore.none_iff.1 hchained x hx hxf

end Opened

theorem Coherent.floor_le_of_hasLinks (hz : S.Coherent z)
    (ha : z.attributes.HasLinks (Log.size z.ghost.log)
      (Log.bucket S.config.hasher z.ghost.log))
    (hx : Log.Entry S.config.hasher z.ghost.log x h) : S.floor h ≤ x := by
  -- From the last entry all others are come to.
  have hdown (y : Nat) (hy : S.Entry z.ghost.log y h) (hxy : x ≤ y) : S.floor h ≤ x := by
    induction y using Nat.strongRecOn with
    | ind y ih =>
      by_cases hsame : x = y
      · exact hsame ▸ hy.2
      have hlast := ha.backpointer h y (Log.mem_bucket.2 hy.1)
      obtain ⟨p, hp, hle⟩ := hlast.2 x (Log.mem_bucket.2 hx) (by omega)
      have hprevious := hz.faithful.backpointer hp hy
      exact ih p hprevious.lt hprevious.mem hle
  obtain ⟨y, hy, hle⟩ := (ha.head h hx.proper).2 x (Log.mem_bucket.2 hx) hx.lt
  exact hdown y (hz.faithful.bucket hx.proper hy).1 hle

theorem Inv.accessed {w : World Tables Account} (hw : S.Inv w) (hm : S.config.mode = .inline)
    (hr : (w.state.memory S.segment).recovered ≠ none) : S.Accessed w := by
  rw [hw.memory] at hr
  obtain ⟨n, hn⟩ := Option.ne_none_iff_exists'.1 hr
  obtain ⟨htracked, rfl, hreached⟩ := hw.coherent.recovered hn
  exact ⟨hw, htracked, hn, hreached hm⟩

end Site

namespace Guide

def ofLinks (config : Config) (name : String) (segment : Nat) (log : List Record)
    (a : Attributes) : Guide where
  config := config
  name := name
  segment := segment
  log := log
  entry := .ok ()
  head h := a[AttributeId.bucket h]?
  previous x := a[AttributeId.backpointer x]?

variable {G : Guide} {ref : Nat} {a : Attributes} {s : SegmentState} {c : Container} {t : Tables}

/-- What a guide says of hashes that no key has does not matter. -/
theorem Leads.reroute (h : G.Leads c t) (head : KeyHash → Option Nat)
    (previous : Nat → Option Nat) (hhead : ∀ k : KeyHash, k.Proper → G.head k = head k)
    (hprevious : ∀ x, G.previous x = previous x) :
    Guide.Leads { G with head, previous } c t := by
  refine ⟨h.opened, h.resolve, ?_⟩
  obtain ⟨r, d, u, hrun, ⟨ref, a, s, hr, hentry, husable⟩ | hfailed⟩ := h.access
  · refine ⟨r, d, u, hrun, .inl ⟨ref, a, s, hr, hentry, husable.shows, husable.ready, ?_, ?_⟩⟩
    · exact fun x => (husable.previous x).trans (hprevious x)
    · exact fun k hk => (husable.head k hk).trans (hhead k hk)
  · exact ⟨r, d, u, hrun, .inr hfailed⟩

theorem Usable.leads (h : G.Usable ref a s c t) (hopen : t.closed = false)
    (hentry : G.entry = .ok ()) : G.Leads c t := by
  obtain ⟨n, hle, hn⟩ := h.ready.recovered
  have hsucceeds : (Tables.access G.config G.segment).Succeeds
      (fun r d u => r = ref ∧ d = c ∧ u = t) c t :=
    succeeds_access_of_recovered h.ready.indexOpened h.ready.keeps h.ready.unclosed hn hle
      ⟨rfl, rfl, rfl⟩
  obtain ⟨ref', d, u, hrun, rfl, rfl, rfl⟩ := hsucceeds
  exact ⟨hopen, h.shows.resolve, _, _, _, hrun, .inl ⟨_, a, s, rfl, hentry, h⟩⟩

end Guide

/-- An index that nobody is at work with goes by what is persisted, if all links are. -/
theorem Site.Accessed.leads {S : Site} {w : World Tables Account} (hacc : S.Accessed w)
    (hrest : ∀ i, w.ghost.Rests i)
    (ha : (S.scene w).attributes.HasLinks (Log.size w.ghost.log)
      (Log.bucket S.config.hasher w.ghost.log)) :
    (Guide.ofLinks S.config S.name S.segment w.ghost.log (S.scene w).attributes).Leads w.container
      w.state := by
  have hinv := hacc.inv
  have hz := hinv.coherent
  have hsettled (x : Nat) (hx : x < Log.size w.ghost.log) : w.ghost.Settled x :=
    settled_of_rests hrest hx
  have hentry {x : Nat} {h : KeyHash} :
      S.Entry w.ghost.log x h ↔ x ∈ Log.bucket S.config.hasher w.ghost.log h := by
    rw [Log.mem_bucket]
    exact ⟨And.left, fun hx => ⟨hx, hz.floor_le_of_hasLinks ha hx⟩⟩
  have hreach (x : Nat) {h : KeyHash} (hx : S.Entry w.ghost.log x h) :
      w.ghost.Settled x ∧ (S.start ≤ x ∨ x < (S.scene w).state.watermark.offset) := by
    have hreached := hacc.reached
    exact ⟨hsettled x hx.lt, by omega⟩
  obtain ⟨O, rfl, -⟩ := Outlook.exists_at S w
  have hkeeps : w.state.Keeps O.segment O.place (O.scene w).state := by
    rcases hinv.serves.tracked with ⟨hnone, -⟩ | ⟨hsome, hsize⟩
    · have htracked : w.state.tracked[O.segment]?.isSome = true := hacc.tracked
      rw [hnone] at htracked
      cases htracked
    · exact ⟨hsome, by omega, rfl⟩
  have hdata : w.container.Shows O.name O.segment w.ghost.log (O.scene w).attributes :=
    ⟨hinv.stores.resolve, hinv.stores.data, rfl⟩
  have hready : w.state.Ready O.segment O.place (O.scene w).state :=
    ⟨hinv.serves.indexOpened, hkeeps, hz.marked.opened, _, hacc.reached, hacc.recovered⟩
  -- What is in memory and what is persisted are both true, so they are the same.
  have hback (x : Nat) : (O.scene w).state.backpointers[x]?.getD
      (O.scene w).attributes[AttributeId.backpointer x]? =
        (O.scene w).attributes[AttributeId.backpointer x]? := by
    cases hp : (O.scene w).state.backpointers[x]? with
    | none => rfl
    | some p =>
      obtain ⟨h, hx, hlast⟩ := hz.tail.backpointer hp
      have hthere := ha.backpointer h x (hentry.1 hx)
      exact (hlast.congr fun _ _ => hentry).unique hthere
  have htold (h : KeyHash) (hh : h.Proper) : (w.state.knownHead O.segment O.place h).or
      (O.scene w).attributes[AttributeId.bucket h]? =
        (O.scene w).attributes[AttributeId.bucket h]? := by
    have hlast := hz.head hh fun x hx => hreach x hx
    have hknown := Outlook.knownHead_of_accessed (a := (O.scene w).attributes) hacc hsettled
      hkeeps rfl hh
    rw [hknown]
    exact (hlast.congr fun _ _ => hentry).unique (ha.head h hh)
  have husable : (Guide.ofLinks O.config O.name O.segment w.ghost.log
      (O.scene w).attributes).Usable O.place (O.scene w).attributes (O.scene w).state w.container
        w.state := ⟨hdata, hready, hback, htold⟩
  exact husable.leads hinv.serves.opened rfl

/-- What an index comes to that is opened on a segment whose index offset lags behind its links. -/
theorem Outlook.prospect_of_lagging {O : Outlook} {a : Attributes} {c : Container}
    {old rest : List Record} (hm : O.config.mode = .inline) (hlog : O.log = old ++ rest)
    (hrest : Log.Wellformed O.config.hasher rest)
    (ha : a.HasLinks (Log.size O.log) (Log.bucket O.config.hasher O.log))
    (hattributes : O.attributes = a.insert .indexOffset (Log.size old))
    (hstate : O.state = .initial) (hc : c.Shows O.name O.segment O.log O.attributes) :
    ((∀ h, Fits O.config O.log (Log.size old) h) ∧
      O.prospect = (.ok (), a.insert .indexOffset (Log.size O.log))) ∨
    ((∃ h, ¬Fits O.config O.log (Log.size old) h) ∧ ∃ x,
      O.prospect.1 = .error (.corruptedBucket x (O.config.maxChainLength + 1))) := by
  have hle : Log.size old ≤ Log.size O.log := by
    rw [hlog]
    exact Log.size_le_of_prefix (List.prefix_append ..)
  have hindex : O.attributes[AttributeId.indexOffset]?.getD 0 = Log.size old := by
    rw [hattributes, Std.ExtTreeMap.getElem?_insert_self]
    rfl
  have hrecovered : O.state.recovered = none := by
    rw [hstate]
    rfl
  by_cases hlt : Log.size old < Log.size O.log
  · have hn : O.config.mode = .inline ∧
        O.attributes[AttributeId.indexOffset]?.getD 0 < Log.size O.log := ⟨hm, by omega⟩
    have htold := O.tells
    have hlinks := ha.withIndex (Log.size old)
    rw [hindex] at htold
    rw [← hattributes] at hlinks
    rw [hlog] at hlinks htold hc ⊢
    rcases @tells_rangeLinks O.config O.name O.segment old rest _ hrest hlinks with
      ⟨hfits, links, htells, hpresent⟩ | ⟨hunfit, x, htells⟩
    · have hl : O.links = .ok links := htold.unique htells (.initial O.config) hc
      have hprospect : O.prospect = _ := foresee_of_links hrecovered hn hl
      rw [hattributes] at hpresent hprospect
      rw [hlog] at hle hprospect
      rw [Attributes.updateAll_range_of_present hle hpresent] at hprospect
      exact .inl ⟨hfits, hprospect⟩
    · have hl := htold.unique htells (.initial O.config) hc
      have hprospect : O.prospect = _ := foresee_of_no_links hrecovered hn hl
      exact .inr ⟨hunfit, x, by rw [hprospect]⟩
  · -- There is nothing to be linked.
    have hsize : Log.size old = Log.size O.log := by omega
    have hprospect : O.prospect = _ :=
      foresee_of_persisted hrecovered fun hn => hlt (hindex ▸ hn.2)
    have hraise := (Watermark.raise_le (w := O.state.watermark) (Log.size O.log)).2
    rw [hindex, hsize, Watermark.reach_of_le hraise, hattributes, hsize] at hprospect
    refine .inl ⟨fun h => ?_, hprospect⟩
    refine fits_of_lt fun x hx => ?_
    have hx := (Log.mem_bucket.1 hx).lt
    omega

/-- If nothing but the index offset moves, lookups go by the links that were there from the start.
-/
theorem Outlook.leads_ofLinks (O : Outlook) {a : Attributes} {n : Nat} {c : Container} {t : Tables}
    (hstate : O.state = .initial) (hprospect : O.prospect = (.ok (), a.insert .indexOffset n))
    (h : O.guide.Leads c t) : (Guide.ofLinks O.config O.name O.segment O.log a).Leads c t := by
  have hafter : O.prospect.2 = a.insert .indexOffset n := congrArg Prod.snd hprospect
  have hentry : O.prospect.1 = .ok () := congrArg Prod.fst hprospect
  have hhead (h : KeyHash) (hh : h.Proper) : O.guide.head h = a[AttributeId.bucket h]? := by
    change O.state.heads[h]?.or O.prospect.2[AttributeId.bucket h]? = _
    rw [hafter, Attributes.getElem?_insert_index (AttributeId.bucket_ne_indexOffset hh), hstate]
    simp [SegmentState.initial]
  have hprevious (x : Nat) : O.guide.previous x = a[AttributeId.backpointer x]? := by
    change O.state.backpointers[x]?.getD O.prospect.2[AttributeId.backpointer x]? = _
    rw [hafter, Attributes.getElem?_insert_index (AttributeId.backpointer_ne_indexOffset x), hstate]
    simp [SegmentState.initial]
  have hroute := h.reroute _ _ hhead hprevious
  unfold Outlook.guide at hroute
  rwa [hentry] at hroute

section Fresh

variable {config : Config} {name : String} {segment : Nat} {log old rest : List Record}
  {a : Attributes} {c : Container}

/-- A fresh index may be opened there, however far its index offset lags behind. -/
theorem Site.inv_of_lagging (hm : config.mode = .inline) (hlog : log = old ++ rest)
    (hwf : Log.Wellformed config.hasher log)
    (ha : a.HasLinks (Log.size log) (Log.bucket config.hasher log))
    (hlt : ∀ {x p}, a[AttributeId.backpointer x]? = some p → x < Log.size log)
    (hc : c.Shows name segment log (a.insert .indexOffset (Log.size old))) :
    (Site.kept config name segment (Log.size log)).Inv ⟨c, .initial config, Site.idle log⟩ := by
  have hlinks := ha.withIndex (Log.size old)
  have hfaithful : (Site.kept config name segment (Log.size log)).Faithful ⟨log, fun _ => none⟩
      (a.insert .indexOffset (Log.size old)) := by
    apply Site.faithful_of_hasLinks (fun _ => rfl) hlinks hm
      Std.ExtTreeMap.getElem?_insert_self ⟨old, hlog ▸ List.prefix_append .., rfl⟩
    intro x p hp
    rw [Attributes.getElem?_insert_index (AttributeId.backpointer_ne_indexOffset x)] at hp
    exact hlt hp
  have huncut : (Site.kept config name segment (Log.size log)).Uncut log
      (a.insert .indexOffset (Log.size old)) := Site.uncut_of_hasLinks (fun _ => rfl) hlinks
  rw [← hc.attributes] at hfaithful huncut
  exact Site.inv_opened ⟨hc.resolve, hc.data⟩ hwf rfl rfl hfaithful fun _ => huncut

/-- The first access of an index whose index offset lags behind links that are all there. It makes
sure that they are, unless a bucket has too many entries for that. -/
theorem Tables.access_of_lagging (hm : config.mode = .inline) (hlog : log = old ++ rest)
    (hwf : Log.Wellformed config.hasher log)
    (ha : a.HasLinks (Log.size log) (Log.bucket config.hasher log))
    (hlt : ∀ {x p}, a[AttributeId.backpointer x]? = some p → x < Log.size log)
    (hc : c.Shows name segment log (a.insert .indexOffset (Log.size old))) :
    ∃ r d t, (Tables.access config segment).run true c (.initial config) = (r, d, t) ∧
      (((∀ h, Fits config log (Log.size old) h) ∧ (∃ ref, r = .ok ref) ∧
        d.Shows name segment log (a.insert .indexOffset (Log.size log)) ∧
        (Guide.ofLinks config name segment log a).Leads c (.initial config) ∧
        (Guide.ofLinks config name segment log a).Leads d t) ∨
      ((∃ h, ¬Fits config log (Log.size old) h) ∧
        (∃ x, r = .error (.corruptedBucket x (config.maxChainLength + 1))) ∧
        d.Shows name segment log (a.insert .indexOffset (Log.size old)))) := by
  have hinv := Site.inv_of_lagging hm hlog hwf ha hlt hc
  obtain ⟨O, rfl, rfl, rfl, -, rfl, hattributes, hstate, -, -, hpoised⟩ :=
    Outlook.exists_opened hinv
  have hattributes := hattributes.trans hc.attributes
  have hrest : Log.Wellformed O.config.hasher rest :=
    fun r hr => hwf r (hlog ▸ List.mem_append_right old hr)
  rw [← hattributes] at hc
  obtain ⟨r, d, t, hrun, hfound⟩ := hpoised.access
  obtain ⟨r', d', t', hrun', hends⟩ := hpoised.run_access
  obtain ⟨rfl, hsame⟩ := Prod.mk.inj (hrun.symm.trans hrun')
  obtain ⟨rfl, rfl⟩ := Prod.mk.inj hsame
  refine ⟨r, d, t, hrun, ?_⟩
  rcases Outlook.prospect_of_lagging hm hlog hrest ha hattributes hstate hc with
    ⟨hfits, hprospect⟩ | ⟨hunfit, x, herror⟩
  · have hentry : O.prospect.1 = .ok () := congrArg Prod.fst hprospect
    have hafter : O.prospect.2 = a.insert .indexOffset (Log.size O.log) :=
      congrArg Prod.snd hprospect
    obtain ⟨ref, rfl, -, husable⟩ | ⟨e, -, he⟩ := hfound
    swap
    · cases hentry.symm.trans he
    obtain ⟨_, -, _, _, hat, -⟩ | ⟨e, he, -⟩ := hends
    swap
    · cases he
    obtain ⟨s, hguided⟩ := husable.exists_guided
    refine .inl ⟨hfits, ⟨ref, rfl⟩, hafter ▸ husable.shows, ?_, ?_⟩
    · exact O.leads_ofLinks hstate hprospect hpoised.leads
    · exact O.leads_ofLinks hstate hprospect (hguided.leads hat.opened hentry)
  · obtain ⟨ref, -, hok, -⟩ | ⟨e, rfl, he⟩ := hfound
    · cases hok.symm.trans herror
    obtain ⟨ref, hr, -⟩ | ⟨e', -, -, b, hshows, hintact⟩ := hends
    · cases hr
    obtain rfl : e = _ := Except.error.inj (he.symm.trans herror)
    refine .inr ⟨hunfit, ⟨x, rfl⟩, ?_⟩
    have hsame : b = O.attributes := by
      rcases hintact.attributes with h | h
      · exact h
      · exact h.trans (Outlook.prospect_of_error herror)
    rw [← hattributes, ← hsame]
    exact hshows

end Fresh

theorem Log.exists_prefix_of_placed {offset x : Nat} {r : Record} {log : List Record}
    (h : (x, r) ∈ placed offset log) : ∃ a, a <+: log ∧ offset + size a = x := by
  induction log generalizing offset with
  | nil => cases h
  | cons s log ih =>
    rcases List.mem_cons.1 h with h | h
    · exact ⟨[], List.nil_prefix, (Prod.mk.inj h).1.symm⟩
    · obtain ⟨a, ha, hx⟩ := ih h
      refine ⟨s :: a, List.cons_prefix_cons.2 ⟨rfl, ha⟩, ?_⟩
      rw [size_cons]
      omega

namespace Pool

variable {config : Config} {name : String} {segment : Nat} {c c' : Container}
  {y : Pool Tables Reply} {es : List (Event Tables Reply)}

/-- Once nothing is pending and nobody is at work, all links of a table are persisted. -/
theorem hasLinks_of_no_pending (hm : config.mode = .inline)
    (hc : c.create name initialAttributes = .ok c') (hn : c'.resolve name = .ok segment)
    (hrun : Steps surroundings (.opened config c') es y)
    (hf : ∀ e ∈ es, e.Fits config name segment) (hidle : y.Idle)
    (hpending : (y.state.memory segment).pending = []) :
    y.container.HasLinks config.hasher segment := by
  obtain ⟨g, hz, hes⟩ := Site.exists_register hm hc hn hrun.treacherous hf
  have hcalm := Site.calm_of_empty hc hn hrun hf hz hes fun i => (hz.rest (hidle i)).empty
  have hmemory : y.state.memory segment = y.state.state 0 := hcalm.balanced.memory
  have hnone := hcalm.backlog.of_none hpending
  have hbackpointers (x : Nat) : (y.state.state 0).backpointers[x]? = none := hmemory ▸ hnone.1 x
  have hheads (h : KeyHash) : (y.state.state 0).heads[h]? = none := hmemory ▸ hnone.2.1 h
  obtain ⟨g', hs, -⟩ := exists_account hc hn hrun hf
  have hinv : (Site.created config name segment False).Inv (y.world g') := hs.inv
  have hz := hinv.coherent
  have hreach {x : Nat} {h : KeyHash} (hx : Log.Entry config.hasher g'.log x h) :
      g'.Settled x ∧ (0 ≤ x ∨ x < (y.state.state 0).watermark.offset) :=
    ⟨Site.settled_of_rests (fun i => hs.rest (hidle i)) hx.lt, .inl (Nat.zero_le x)⟩
  have hentry {x : Nat} {h : KeyHash} :
      (Site.created config name segment False).Entry g'.log x h ↔
        x ∈ y.container.bucket segment config.hasher h := by
    rw [show y.container.bucket segment config.hasher h = _ from hinv.bucket h, Log.mem_bucket]
    exact ⟨And.left, fun he => .of_start he (Nat.zero_le x)⟩
  have hlength : (y.container.segment segment).data.length = Log.size g'.log :=
    Site.Inv.length hinv
  constructor
  · intro h hh
    have hlast : LastBefore _ (Log.size g'.log) ((y.state.state 0).heads[h]?.or
      (y.container.segment segment).attributes[AttributeId.bucket h]?) :=
        hz.head hh fun x hx => hreach hx.1
    rw [hheads, Option.none_or, ← hlength] at hlast
    exact hlast.congr fun _ _ => hentry
  · intro h x hx
    have hlast : LastBefore _ x ((y.state.state 0).backpointers[x]?.getD
      (y.container.segment segment).attributes[AttributeId.backpointer x]?) :=
        hz.previous (hentry.2 hx) (.inr (hreach (hentry.2 hx).1))
    rw [hbackpointers, Option.getD_none] at hlast
    exact hlast.congr fun _ _ => hentry

/-- An index keeps links itself, all of which are persisted, but its index offset lags behind at one
of the entries. The first access of a fresh index succeeds just if no bucket has more entries from
there on than may be gone back along. Then all links stay as they are, the index offset comes to the
end of the segment, and all lookups come to what they come to through the old index. Otherwise it
fails on a bucket that is sound, and will do so again. -/
theorem lagging_offset_recovers_iff_fits {b : Nat} (hm : config.mode = .inline)
    (hy : Reachable config name segment y) (hidle : y.Idle)
    (haccessed : (y.state.memory segment).recovered ≠ none)
    (hlinks : y.container.HasLinks config.hasher segment)
    (hb : b = (y.container.segment segment).data.length ∨
      b ∈ (y.container.entries segment).map (·.1)) :
    let before := y.container.segment segment
    let c := y.container.withIndexOffset segment b
    let fits := ∀ h, ((y.container.bucket segment config.hasher h).filter (b ≤ ·)).length ≤
      config.maxChainLength
    ∃ r d t, (Tables.access config segment).run true c (.initial config) = (r, d, t) ∧
      (d.segment segment).data = before.data ∧
      (fits → (∃ ref, r = .ok ref) ∧
        (d.segment segment).attributes =
          before.attributes.insert .indexOffset before.data.length ∧
        ∀ query : Operation, Outlook.Queries query →
          ((query.program config name).run true c (.initial config)).1 =
            ((query.program config name).run true y.container y.state).1 ∧
          ((query.program config name).run true d t).1 =
            ((query.program config name).run true y.container y.state).1) ∧
      (¬fits → (∃ x, r = .error (.corruptedBucket x (config.maxChainLength + 1))) ∧
        (d.segment segment).attributes = (c.segment segment).attributes) := by
  intro before c fits
  obtain ⟨S, g, rfl, rfl, rfl, -, hs⟩ := hy.exists_site
  have hinv : S.Inv (y.world g) := hs.inv
  have hrest (i : Nat) : g.Rests i := hs.rest (hidle i)
  have hz := hinv.coherent
  have hlength : before.data.length = Log.size g.log := Site.Inv.length hinv
  have hbucket : y.container.bucket S.segment S.config.hasher = Log.bucket S.config.hasher g.log :=
    funext hinv.bucket
  have hlinks : before.attributes.HasLinks (Log.size g.log) (Log.bucket S.config.hasher g.log) := by
    have hlinks : before.attributes.HasLinks before.data.length _ := hlinks
    rwa [hlength, hbucket] at hlinks
  have hboundary : Log.Boundary g.log b := by
    rcases hb with rfl | hb
    · rw [hlength]
      exact Log.boundary_size g.log
    · rw [show y.container.entries S.segment = _ from hinv.entries] at hb
      obtain ⟨⟨x, r⟩, hr, rfl⟩ := List.mem_map.1 hb
      obtain ⟨old, hold, hx⟩ := Log.exists_prefix_of_placed hr
      exact ⟨old, hold, by omega⟩
  obtain ⟨old, ⟨rest, hlog⟩, rfl⟩ := hboundary
  have hshows : y.container.Shows S.name S.segment g.log before.attributes :=
    ⟨hinv.stores.resolve, hinv.stores.data, rfl⟩
  have hc := hshows.withIndexOffset (Log.size old)
  have hold := (hinv.accessed hm haccessed).leads hrest hlinks
  have hfits : fits ↔ ∀ h, Fits S.config g.log (Log.size old) h := by
    unfold fits Fits
    rw [hbucket]
  obtain ⟨r, d, t, hrun, hends⟩ := access_of_lagging hm hlog.symm hz.wellformed hlinks
    hz.faithful.backpointer_lt hc
  refine ⟨r, d, t, hrun, ?_⟩
  rcases hends with ⟨hfit, hr, hd, hfresh, hafter⟩ | ⟨hunfit, hr, hd⟩
  · refine ⟨hd.data.trans hshows.data.symm, fun _ => ⟨hr, ?_, fun query hquery => ?_⟩, fun hn => ?_⟩
    · rw [hd.attributes, hlength]
    · obtain ⟨r', hsettled⟩ := Guide.settles_query
        (G := .ofLinks S.config S.name S.segment g.log before.attributes) hquery
      have hthere := (hsettled _ _ hold).1
      exact ⟨(hsettled _ _ hfresh).1.trans hthere.symm, (hsettled _ _ hafter).1.trans hthere.symm⟩
    · exact absurd (hfits.2 hfit) hn
  · refine ⟨hd.data.trans hshows.data.symm, fun hf => ?_, fun _ => ⟨hr, ?_⟩⟩
    · obtain ⟨h, hh⟩ := hunfit
      exact absurd (hfits.1 hf h) hh
    · rw [hd.attributes]
      exact hc.attributes.symm

/-- Two values of a key are put, but the index offset cannot be persisted. A fresh index succeeds if
it may go back along two entries, and fails if it may go back along one. -/
theorem lagging_offset_recovers_amid_refused_offset :
    let config (n : Nat) : Config := { Config.parity .inline with maxChainLength := n }
    ∃ y : Nat → Pool Tables Reply, (∀ n ∈ [1, 2], Reachable (config n) "t" 0 (y n) ∧
        (y n).container.HasLinks (config n).hasher 0 ∧
        ((y n).container.segment 0).attributes[AttributeId.indexOffset]? = some 0) ∧
      (∃ ref d t, (Tables.access (config 2) 0).run true ((y 2).container.withIndexOffset 0 0)
          (.initial (config 2)) = (.ok ref, d, t) ∧
        (d.segment 0).attributes[AttributeId.indexOffset]? = some 40 ∧
        (((Operation.get [[97]]).program (config 2) "t").run true d t).1 =
          .ok (.entries [some ⟨⟨[97], some 20⟩, [2]⟩])) ∧
      ∃ x d t, (Tables.access (config 1) 0).run true ((y 1).container.withIndexOffset 0 0)
        (.initial (config 1)) = (.error (.corruptedBucket x 2), d, t) := by
  intro config
  let put (v : UInt8) (n : Nat) : List Move :=
    .start 1 (.put [⟨⟨[97], none⟩, [v]⟩]) :: Move.steps 1 n ++
      .step 1 (.refused .timeout) true :: Move.steps 1 2
  let ms : List Move := put 1 21 ++ put 2 13
  let y (n : Nat) := drive (config n) "t" ms (.opened (config n) .solo)
  have hsolo (n : Nat) : ∀ e ∈ (y n).1, e.Fits (config n) "t" 0 :=
    (@steps_drive (config n) "t" 0 ms (Move.fits_of_plain (by decide +kernel)) _).2
  have hsteps (n : Nat) : Steps surroundings (.opened (config n) .solo) (y n).1 (y n).2 :=
    (@steps_drive (config n) "t" 0 ms (Move.fits_of_plain (by decide +kernel)) _).1
  have hreachable (n : Nat) : Reachable (config n) "t" 0 (y n).2 :=
    (Reachable.opened (.created Container.create_solo Container.resolve_solo)).steps (hsteps n)
      (hsolo n)
  have hidle (n : Nat) (hn : ((y n).2.threads 1).isNone = true)
      (hall : (y n).1.all (fun e => e.actor = some 1) = true) : (y n).2.Idle := by
    intro i
    by_cases hi : i = 1
    · subst hi
      exact Option.isNone_iff_eq_none.1 hn
    · refine (hsteps n).idle rfl fun p hp => hi ?_
      have hactor := of_decide_eq_true (List.all_eq_true.1 hall _ hp)
      exact (Option.some.inj hactor)
  have hlinks (n : Nat) (hidle : (y n).2.Idle) (hn : ((y n).2.state.memory 0).pending = []) :
      (y n).2.container.HasLinks (config n).hasher 0 :=
    hasLinks_of_no_pending rfl Container.create_solo Container.resolve_solo (hsteps n) (hsolo n)
      hidle hn
  have hidle₁ := hidle 1 (by decide +kernel) (by decide +kernel)
  have hidle₂ := hidle 2 (by decide +kernel) (by decide +kernel)
  have hlinks₁ := hlinks 1 hidle₁ (by decide +kernel)
  have hlinks₂ := hlinks 2 hidle₂ (by decide +kernel)
  have hstored (n : Nat) (hn : n ∈ [1, 2]) :
      ((y n).2.container.segment 0).attributes[AttributeId.indexOffset]? = some 0 := by
    revert n
    decide +kernel
  have hfits : ∀ h : KeyHash, (((y 2).2.container.bucket 0 (config 2).hasher h).filter
      (0 ≤ ·)).length ≤ (config 2).maxChainLength := by
    intro h
    calc _ ≤ ((y 2).2.container.bucket 0 (config 2).hasher h).length := List.length_filter_le _ _
      _ ≤ ((y 2).2.container.entries 0).length := by
        rw [Container.bucket, List.length_map]
        exact List.length_filter_le _ _
      _ = 2 := by decide +kernel
  have hunfit : ¬∀ h : KeyHash, (((y 1).2.container.bucket 0 (config 1).hasher h).filter
      (0 ≤ ·)).length ≤ (config 1).maxChainLength :=
    fun h => absurd (h ⟨0x100000000000000, 0⟩) (by decide +kernel)
  refine ⟨fun n => (y n).2, fun n hn => ⟨hreachable n, ?_, hstored n hn⟩, ?_, ?_⟩
  · rcases List.mem_pair.1 hn with rfl | rfl
    · exact hlinks₁
    · exact hlinks₂
  · obtain ⟨r, d, t, hrun, -, hfit, -⟩ := lagging_offset_recovers_iff_fits (b := 0) rfl
      (hreachable 2) hidle₂ (by decide +kernel) hlinks₂ (.inr (by decide +kernel))
    obtain ⟨⟨ref, rfl⟩, hattributes, hqueries⟩ := hfit hfits
    refine ⟨ref, d, t, hrun, ?_, ?_⟩
    · rw [hattributes, Std.ExtTreeMap.getElem?_insert_self]
      decide +kernel
    · rw [(hqueries (.get [[97]]) trivial).2]
      decide +kernel
  · obtain ⟨r, d, t, hrun, -, -, hfails⟩ := lagging_offset_recovers_iff_fits (b := 0) rfl
      (hreachable 1) hidle₁ (by decide +kernel) hlinks₁ (.inr (by decide +kernel))
    obtain ⟨⟨x, rfl⟩, -⟩ := hfails hunfit
    exact ⟨x, d, t, hrun⟩

end Pool
end KeyedLog
