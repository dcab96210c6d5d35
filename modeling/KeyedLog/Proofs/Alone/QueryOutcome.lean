import KeyedLog.Proofs.Alone.AccessOutcome
import KeyedLog.Proofs.Alone.LookupOutcome
import KeyedLog.Proofs.Alone.Operations

/-! What a lookup comes to while nobody else is at work, as foreseen from what the segment holds,
from the tail, and from what the first access would come to, whatever is cached. -/
namespace KeyedLog

open Program

namespace Tables

variable {config : Config} {segment ref : Nat} {t : Tables} {c : Container}

theorem bounded_recoverState : (recoverState config segment ref).Bounded := by
  have hmodify (f : Tables → Tables) : (Program.modify f).Bounded := fun _ => trivial
  have hrest (length : Nat) : (Tables.change ref ({ · with recovered := some length }) >>= fun _ =>
      (pure length : Program Tables Nat)).Bounded := (hmodify _).bind fun _ => trivial
  have hindex (start stop : Nat) : (indexRange config segment start stop).Bounded := by
    have hlinks : (rangeLinks config segment start stop).Inquires "" segment :=
      inquires_rangeLinks start stop
    rw [indexRange_eq]
    refine hlinks.bounded.bind fun links => ?_
    exact (bounded_request (.updateAttributes segment _)).bind fun _ => hmodify _
  have hread :
      (attributeOf segment .indexOffset : Program Tables (Option Nat)).Inquires "" segment :=
    inquires_attributeOf _
  unfold recoverState
  refine Bounded.bind (fun _ => trivial) fun s => ?_
  split
  · trivial
  · refine hread.bounded.bind fun n => ?_
    refine (bounded_ask (.length segment)).bind fun length => (hmodify _).bind fun _ => ?_
    split
    · split
      · exact (hindex _ _).bind fun _ => (hmodify _).bind fun _ => hrest length
      · exact hrest length
    · exact hrest length

/-- Nobody who is alone waits in vain for his turn. -/
theorem unblocked_access
    (hplace : ∀ ref, t.tracked[segment]? = some ref → ref < t.states.size)
    (hidle : (t.memory segment).recovering = false) :
    (access config segment).Unblocked c t := by
  have hawait (ref n : Nat) : (awaitWatermark ref n >>= fun _ =>
      (pure ref : Program Tables Nat)).Bounded := by
    refine Bounded.bind ?_ fun _ => trivial
    refine (bounded_waitUntil _).bind fun _ => Bounded.bind (fun _ => trivial) fun s => ?_
    split <;> trivial
  obtain ⟨hkeeps, -⟩ := keeps_track hplace
  unfold access
  refine Unblocked.bind ?_ fun _ c' t' hrun => ?_
  · unfold checkIndex
    refine unblocked_read_bind.2 ?_
    split <;> trivial
  obtain ⟨rfl, rfl⟩ : c' = c ∧ t' = t := by
    unfold checkIndex at hrun
    change (ite _ _ _ : Program Tables Unit).run true c t = _ at hrun
    split at hrun
    · cases hrun
    · cases hrun
      exact ⟨rfl, rfl⟩
  rw [unblocked_read_bind]
  generalize t'.track segment = r at hkeeps ⊢
  obtain ⟨t, ref⟩ := r
  dsimp only at hkeeps ⊢
  rw [unblocked_modify_bind, hkeeps.state]
  split
  · exact (hawait ref _).unblocked
  · refine ⟨.inr ?_, ?_⟩
    · change (!(t.state ref).recovering) = true
      rw [hkeeps.state, hidle]
      rfl
    · have hmet (met : Bool) : (if met = true then ret () else fail .timeout :
          Program Tables Unit).Bounded := by cases met <;> trivial
      refine Bounded.unblocked (Bounded.bind ?_ fun n => hawait ref n)
      refine Bounded.bind (hmet _) fun _ => ?_
      exact Bounded.bind (fun _ => trivial) fun _ => bounded_recoverState.ensuring fun _ => trivial

end Tables

namespace Outlook

open Tables

variable {O : Outlook} {c c' : Container} {t t' : Tables} {ref : Nat}

/-- Nobody is at work, and an access comes to what it did. -/
structure Poised (O : Outlook) (c : Container) (t : Tables) : Prop where
  spared : O.Spared ⟨c, t, ()⟩
  sound : ∃ g, O.toSite.Inv ⟨c, t, g⟩ ∧ g.log = O.log ∧ ∀ i, g.Rests i

def head (O : Outlook) (h : KeyHash) : Option Nat :=
  O.state.heads[h]?.or O.prospect.2[AttributeId.bucket h]?

structure Usable (O : Outlook) (ref : Nat) (c : Container) (t : Tables) : Prop where
  shows : c.Shows O.name O.segment O.log O.prospect.2
  ready : ∃ s, t.Ready O.segment ref s ∧ s.backpointers = O.state.backpointers
  head : ∀ h : KeyHash, h.Proper →
    (t.knownHead O.segment ref h).or O.prospect.2[AttributeId.bucket h]? = O.head h

theorem place_of_serves {place : Nat} (hs : t.Serves O.segment place) :
    ∀ ref, t.tracked[O.segment]? = some ref → ref < t.states.size := by
  intro ref href
  rcases hs.tracked with ⟨hn, -⟩ | ⟨hn, hsize⟩
  · rw [hn] at href
    cases href
  · rw [hn] at href
    obtain rfl := Option.some.inj href
    omega

theorem recovering_of_rests {S : Site} {w : World Tables Account} (hw : S.Inv w)
    (hrest : ∀ i, w.ghost.Rests i) : (w.state.memory S.segment).recovering = false := by
  have hrecovering : (S.scene w).state.recovering = w.ghost.recoverer.isSome :=
    hw.coherent.recovering
  rw [Site.Inv.memory hw, hrecovering]
  cases hr : w.ghost.recoverer with
  | none => rfl
  | some i => exact absurd hr (hrest i).recoverer

/-- A cached head is the one that a bucket has anyway, once all is accounted for. -/
theorem knownHead_of_accessed {g : Account} {s : SegmentState} {h : KeyHash} {a : Attributes}
    (hacc : O.toSite.Accessed ⟨c, t, g⟩) (hsettled : ∀ x < Log.size g.log, g.Settled x)
    (hk : t.Keeps O.segment ref s) (ha : (c.segment O.segment).attributes = a) (hh : h.Proper) :
    (t.knownHead O.segment ref h).or a[AttributeId.bucket h]? =
      s.heads[h]?.or a[AttributeId.bucket h]? := by
  have hz := hacc.inv.coherent
  have hstate : (O.scene ⟨c, t, g⟩).state = s := by
    rw [← hk.memory]
    exact (Site.Inv.memory hacc.inv).symm
  have hhead := hz.head hh fun x hx => by
    refine ⟨hsettled x hx.lt, ?_⟩
    rcases Nat.lt_or_ge x O.start with hlt | hge
    · exact .inr (Nat.lt_of_lt_of_le hlt hacc.reached)
    · exact .inl hge
  unfold Site.Scene.head at hhead
  rw [hstate] at hhead
  rw [knownHead_eq, hk.state]
  cases hs : s.heads[h]? with
  | some y => rfl
  | none =>
    rw [hs] at hhead
    cases hcache : t.cache.get? ⟨O.segment, h⟩ with
    | none => rfl
    | some y =>
      obtain ⟨⟨he, -⟩, hnewest⟩ := hz.cache hh hcache
      have hlast : LastBefore (O.Entry g.log · h) (Log.size g.log) (some y) :=
        LastBefore.some_iff.2 ⟨he, he.lt, fun x hx hlt => hnewest x (hsettled x hlt) hx⟩
      have hsame : a[AttributeId.bucket h]? = some y := ha ▸ hhead.unique hlast
      rw [hsame]
      rfl

/-- However an access ends, it leaves things as good as before. -/
theorem Poised.run_access (h : O.Poised c t) :
    ∃ r c' t', (access O.config O.segment).run true c t = (r, c', t') ∧
      ((∃ ref, r = .ok ref ∧ O.Standing ref
          (fun s => ∃ n ≤ s.watermark.offset, s.recovered = some n) ⟨c', t', ()⟩) ∨
        ∃ e, r = .error e ∧ O.prospect.1 = .error e ∧ O.Spared ⟨c', t', ()⟩) := by
  obtain ⟨g, hinv, -, hrest⟩ := h.sound
  have hplace := place_of_serves hinv.serves
  have hidle : (t.memory O.segment).recovering = false := recovering_of_rests hinv hrest
  have hobeys : (Tables.access O.config O.segment).Obeys (O.lone True 0 fun _ => True) 0 _ _ _ :=
    lone_access h.spared hinv.serves.indexOpened hinv.serves.opened hplace hidle
  obtain ⟨r, c', t', ⟨⟩, hrun, -, hlone⟩ :=
    hobeys.run (fun w _ => Near.refl w) (fun q => Or.inl rfl) trivial
      (unblocked_access hplace hidle)
  refine ⟨r, c', t', hrun, ?_⟩
  obtain ⟨ref, rfl, hstanding⟩ | ⟨e, rfl, hspared, he⟩ := hlone
  · exact .inl ⟨ref, rfl, hstanding⟩
  · exact .inr ⟨e, rfl, he trivial, hspared⟩

/-- Whoever makes the access finds out what the prospect was. -/
theorem Poised.access (h : O.Poised c t) :
    ∃ r c' t', (access O.config O.segment).run true c t = (r, c', t') ∧
      ((∃ ref, r = .ok ref ∧ O.prospect.1 = .ok () ∧ O.Usable ref c' t') ∨
        ∃ e, r = .error e ∧ O.prospect.1 = .error e) := by
  obtain ⟨r, c', t', hrun, ⟨ref, rfl, a, s, hat, hs, n, hle, hn⟩ | ⟨e, rfl, he, -⟩⟩ := h.run_access
  swap
  · exact ⟨_, c', t', hrun, .inr ⟨e, rfl, he⟩⟩
  refine ⟨_, c', t', hrun, ?_⟩
  have hprospect : O.prospect = (.ok (), a) := by
    rw [← hs.foresees, foresee_of_recovered hn, Watermark.reach_of_le hle]
  obtain rfl : O.prospect.2 = a := congrArg Prod.snd hprospect
  refine .inl ⟨ref, rfl, congrArg Prod.fst hprospect, hat.shows,
    ⟨s, ⟨hat.indexOpened, hat.keeps, hs.unclosed, n, hle, hn⟩, hs.backpointers⟩, fun k hk => ?_⟩
  -- The same run, by the rules of the site.
  obtain ⟨g, hinv, hlog, hrest⟩ := h.sound
  have hun : (Tables.access O.config O.segment).Unblocked c t :=
    unblocked_access (place_of_serves hinv.serves) (recovering_of_rests hinv hrest)
  obtain ⟨r, c'', t'', g', hrun', -, hpost⟩ :=
    (Site.obeys_access (fun _ => rfl) hinv (hrest 0).fresh (hrest 0).recoverer).run
      ((Site.rules_lawful O.toSite).refl 0) (fun _ => trivial) hinv hun
  obtain ⟨rfl, hsame⟩ := Prod.mk.inj (hrun.symm.trans hrun')
  obtain ⟨rfl, rfl⟩ := Prod.mk.inj hsame
  obtain ⟨-, -, -, hacc, hminds⟩ | ⟨e, he, -⟩ := hpost
  swap
  · cases he
  have hlog' : g'.log = g.log := by
    refine (Log.eq_of_prefix_of_size hminds.log ?_).symm
    have hlength : (c'.segment O.segment).data.length = Log.size g'.log := hacc.inv.length
    exact (congrArg Log.size hlog).trans (hat.shows.length.symm.trans hlength)
  have hsettled (x : Nat) (hx : x < Log.size g'.log) : g'.Settled x :=
    hminds.settled (Site.settled_of_rests hrest (hlog' ▸ hx))
  rw [knownHead_of_accessed hacc hsettled hat.keeps hat.shows.attributes hk, hs.heads]
  rfl

def guide (O : Outlook) : Guide where
  config := O.config
  name := O.name
  segment := O.segment
  log := O.log
  entry := O.prospect.1
  head := O.head
  previous x := O.state.backpointers[x]?.getD O.prospect.2[AttributeId.backpointer x]?

theorem Usable.exists_guided (h : O.Usable ref c t) :
    ∃ s, O.guide.Usable ref O.prospect.2 s c t := by
  obtain ⟨s, hready, hs⟩ := h.ready
  refine ⟨s, h.shows, hready, fun x => ?_, h.head⟩
  rw [hs]
  rfl

theorem Poised.leads (h : O.Poised c t) : O.guide.Leads c t := by
  obtain ⟨g, hinv, -⟩ := id h.sound
  obtain ⟨a, hshows, -⟩ := id h.spared
  refine ⟨hinv.serves.opened, hshows.resolve, ?_⟩
  obtain ⟨r, d, u, hrun, ⟨ref, hr, hok, husable⟩ | hfailed⟩ := h.access
  · obtain ⟨s, hguided⟩ := husable.exists_guided
    exact ⟨r, d, u, hrun, .inl ⟨ref, _, s, hr, hok, hguided⟩⟩
  · exact ⟨r, d, u, hrun, .inr hfailed⟩

theorem settles_query {op : Operation} (h : Queries op) :
    (op.program O.config O.name).Settles O.Poised fun _ _ => True := by
  obtain ⟨r, hr⟩ := O.guide.settles_query h
  exact ⟨r, fun c t hpoised => hr c t hpoised.leads⟩

end Outlook
end KeyedLog
