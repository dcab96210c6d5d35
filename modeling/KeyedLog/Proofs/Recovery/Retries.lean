import KeyedLog.Proofs.Recovery.AccessCalls

/-! First accesses that fail and are made again: which calls they make, and what they leave to the
next one. -/
namespace KeyedLog

/-- The calls of an operation up to the end of its first access to a segment, while the entries from
an offset on are not linked yet. -/
def firstCalls (name : String) (segment start length : Nat) (hashes : List KeyHash)
    (us : List AttributeUpdate) : List Call :=
  [.resolve name, .getAttributes segment [.indexOffset], .length segment,
    .read segment start length, .getAttributes segment (hashes.map .bucket),
    .updateAttributes segment us]

open Program Tables

namespace Outlook

variable {O : Outlook} {plan ps qs : List Call} {links : List AttributeUpdate × List KeyHash}
  {ref n : Nat} {a : Attributes} {s : SegmentState} {w v : World Tables Unit} {α : Type}
  {settled : World Tables Unit → Prop}

/-- The watermark knows of no ranges above it, and is not above the log. -/
structure Even (O : Outlook) (s : SegmentState) : Prop where
  completed : s.watermark.completed = []
  offset : s.watermark.offset ≤ Log.size O.log

theorem Even.raise (h : O.Even s) (hn : n ≤ Log.size O.log) :
    O.Even { s with watermark := (s.watermark.raise n).1 } := by
  have hraise := Watermark.raise_of_gapless h.completed n
  constructor
  · rw [hraise]
    exact h.completed
  · rw [hraise]
    exact Nat.max_le.2 ⟨h.offset, hn⟩

def Whole (O : Outlook) (s : SegmentState) : Prop :=
  s.recovered = some (Log.size O.log) ∧ s.watermark = ⟨Log.size O.log, [], false⟩

/-- The links that are missing can be found, and nothing beyond the log is said to be indexed. -/
structure Hopeful (O : Outlook) (ps : List Call) (links : List AttributeUpdate × List KeyHash) :
    Prop where
  inline : O.config.mode = .inline
  learns : (rangeLinks O.config O.segment (O.attributes[AttributeId.indexOffset]?.getD 0)
    (Log.size O.log)).Learns O.name O.segment O.log O.attributes ps (.ok links)
  before : O.attributes[AttributeId.indexOffset]?.getD 0 ≤ Log.size O.log
  after : O.prospect.2[AttributeId.indexOffset]?.getD 0 ≤ Log.size O.log

theorem Hopeful.index_le (hO : O.Hopeful ps links) (h : O.Intact a s) :
    a[AttributeId.indexOffset]?.getD 0 ≤ Log.size O.log := by
  rcases h.attributes with rfl | rfl
  · exact hO.before
  · exact hO.after

def accessCalls (O : Outlook) (ps : List Call)
    (links : List AttributeUpdate × List KeyHash) : List Call :=
  [.getAttributes O.segment [.indexOffset]] ++ ([.length O.segment] ++ (ps ++
    [.updateAttributes O.segment (links.1 ++ [.replaceIfGreater .indexOffset (Log.size O.log)])]))

/-- A first access was not made, or failed. It asked for nothing but what a first access asks for,
and the next one can be made. -/
structure Untried (O : Outlook) (plan qs : List Call) (w : World Tables Unit) : Prop where
  calls : qs <+: plan
  prepared : O.Prepared w
  even : O.Even (w.state.memory O.segment)
  unrecovered : (w.state.memory O.segment).recovered = none

theorem Untried.near (hv : Near w v) (h : O.Untried plan qs w) : O.Untried plan qs v := by
  obtain ⟨c, t, ⟨⟩⟩ := v
  obtain ⟨cache, hcache⟩ := hv.state
  obtain rfl : t = { w.state with cache } := hcache
  exact ⟨h.calls, hv.prepared h.prepared, h.even, h.unrecovered⟩

theorem Even.raise_all (h : O.Even s) (hc : s.watermark.closed = false) :
    (s.watermark.raise (Log.size O.log)).1 = ⟨Log.size O.log, [], false⟩ := by
  rw [Watermark.raise_of_gapless h.completed, Nat.max_eq_right h.offset, h.completed, hc]

section Tries

variable {E : TableError → List Call → World Tables Unit → Prop}

theorem prefix_of_plan {rest ps' : List Call} (hplan : qs ++ (ps ++ rest) <+: plan)
    (h : ps' <+: ps) : qs ++ ps' <+: plan :=
  ((List.prefix_append_right_inj qs).2 (h.trans (List.prefix_append ps rest))).trans hplan

theorem tries_look {K : SegmentState → List Call → World Tables Unit → Prop} :
    (look ref).Tries settled K E qs w ↔ K (w.state.state ref) qs w := Iff.rfl

theorem tries_change {K : Unit → List Call → World Tables Unit → Prop}
    {f : SegmentState → SegmentState} (h : O.At ref a s w)
    (hK : ∀ v, O.At ref a (f s) v → K () qs v) :
    (Tables.change ref f).Tries settled K E qs w :=
  tries_modify (hK _ ⟨h.shows, h.keeps.modifyState f, h.opened, h.indexOpened⟩)

abbrev Held (O : Outlook) (plan : List Call) (ref : Nat) (_ : TableError) (qs : List Call)
    (w : World Tables Unit) : Prop :=
  qs <+: plan ∧ O.Standing ref (fun s => O.Even s ∧ s.recovered = none) w

theorem tries_settle (h : O.At ref a s w) (hs : O.Intact a s) (hr : s.recovered = none)
    (hindex : Log.size O.log ≤ a[AttributeId.indexOffset]?.getD 0)
    (hw : s.watermark = ⟨Log.size O.log, [], false⟩) :
    (Tables.change ref ({ · with recovered := some (Log.size O.log) }) >>= fun _ =>
      (pure (Log.size O.log) : Program Tables Nat)).Tries settled
      (fun n _ v => n = Log.size O.log ∧ O.Standing ref O.Whole v) E qs w := by
  have hreach : Log.size O.log ≤ s.watermark.offset := 
    Nat.le_of_eq (congrArg Watermark.offset hw).symm
  have hraise := Nat.le_trans hindex
    (Watermark.raise_le (w := s.watermark) (a[AttributeId.indexOffset]?.getD 0)).2
  have hrecover := hs.recover hr (fun hn => Nat.not_lt.2 hindex hn.2)
    ((Watermark.reach_of_le hraise).trans (Watermark.reach_of_le hreach).symm)
  refine (tries_bind _ _ _ _ _).2 (tries_change h fun v hv => ?_)
  exact ⟨rfl, a, _, hv, hrecover, rfl, hw⟩

/-- The links are made good all at once, or nothing of the kind is done. -/
theorem tries_indexRange {K : Unit → List Call → World Tables Unit → Prop}
    (hO : O.Hopeful ps links)
    (hplan : qs ++ (ps ++ [.updateAttributes O.segment
      (links.1 ++ [.replaceIfGreater .indexOffset (Log.size O.log)])]) <+: plan)
    (h : O.At ref a s w) (hs : O.Intact a s) (he : O.Even s) (hr : s.recovered = none)
    (hlt : a[AttributeId.indexOffset]?.getD 0 < Log.size O.log)
    (hK : ∀ a qs v, O.At ref a s v → O.Intact a s →
      Log.size O.log ≤ a[AttributeId.indexOffset]?.getD 0 → K () qs v) :
    (indexRange O.config O.segment (a[AttributeId.indexOffset]?.getD 0) (Log.size O.log)).Tries
      settled K (O.Held plan ref) qs w := by
  have hlearns := hO.learns
  rw [← hs.behind hlt] at hlearns
  rw [indexRange_eq]
  refine (tries_bind _ _ _ _ _).2 ?_
  apply tries_inquires (inquires_rangeLinks _ _) hlearns h
  · intro found v h hfound
    obtain rfl := Except.ok.inj hfound
    have hlinks : O.links = .ok links := by
      have htells := O.tells
      rw [← hs.behind hlt] at htells
      exact tells_unique h htells hlearns.tells
    obtain ⟨hs', hindex⟩ := hs.persist hr ⟨hO.inline, hlt⟩ hlinks rfl
    generalize hus : links.1 ++ [.replaceIfGreater .indexOffset (Log.size O.log)] = us
      at hs' hindex hplan
    have hserve (c : Container) (hc : c.Shows O.name O.segment O.log a) :
        ∃ c' answer, c.perform (.updateAttributes O.segment us) = (c', .ok answer) ∧
          c'.Shows O.name O.segment O.log (a.updateAll us) := by
      obtain ⟨c', hp, hc'⟩ := hc.performs_updateAttributes us
      exact ⟨c', (), hp, hc'⟩
    rw [← List.append_assoc] at hplan
    unfold persistRange
    rw [hus]
    refine (tries_bind (request (.updateAttributes O.segment us)) _ _ _ _).2 ?_
    apply tries_request h hserve
    · intro _ v h
      refine tries_modify (hK _ _ _ ?_ hs' hindex)
      exact ⟨h.shows, h.keeps.withCache _, h.opened, h.indexOpened⟩
    · intro e ps' v h hps
      have hcalls := ((List.prefix_append_right_inj _).2 hps).trans hplan
      rcases h with h | h
      · exact ⟨hcalls, a, s, h, hs, he, hr⟩
      · exact ⟨hcalls, _, s, h, hs', he, hr⟩
  · exact fun e ps' v h hps => ⟨prefix_of_plan hplan hps, a, s, h, hs, he, hr⟩

/-- Wherever an attempt to account for the entries breaks off, the next one can be made. -/
theorem tries_recoverState (hO : O.Hopeful ps links)
    (hplan : qs ++ O.accessCalls ps links <+: plan) (h : O.At ref a s w) (hs : O.Intact a s)
    (he : O.Even s) (hr : s.recovered = none) :
    (recoverState O.config O.segment ref).Tries settled
      (fun n _ v => n = Log.size O.log ∧ O.Standing ref O.Whole v) (O.Held plan ref) qs w := by
  unfold accessCalls at hplan
  unfold recoverState
  refine (tries_bind _ _ _ _ _).2 (tries_look.2 ?_)
  rw [h.keeps.state, hr]
  refine (tries_bind _ _ _ _ _).2 ?_
  apply tries_inquires (inquires_attributeOf _) (learns_attributeOf _) h
  swap
  · intro e ps' v h hps
    exact ⟨prefix_of_plan hplan hps, a, s, h, hs, he, hr⟩
  intro persisted v h hpersisted
  obtain rfl := Except.ok.inj hpersisted
  rw [← List.append_assoc] at hplan
  refine (tries_bind (ask (.length O.segment)) _ _ _ _).2 ?_
  apply tries_inquires (inquires_ask (q := .length O.segment) rfl) learns_length h
  swap
  · intro e ps' v h hps
    exact ⟨prefix_of_plan hplan hps, a, s, h, hs, he, hr⟩
  intro length v h hlength
  obtain rfl : length = Log.size O.log := (Except.ok.inj hlength).symm
  rw [← List.append_assoc] at hplan
  have hle := hO.index_le hs
  have hopen := hs.unclosed
  refine (tries_bind _ _ _ _ _).2 (tries_change (f := fun s => { s with
    watermark := (s.watermark.raise (a[AttributeId.indexOffset]?.getD 0)).1 }) h fun v h => ?_)
  have hs := hs.raise hr
  have he' := he.raise hle
  split
  swap
  · next hlt =>
    have heq := Nat.le_antisymm hle (Nat.not_lt.1 hlt)
    apply tries_settle h hs hr (Nat.not_lt.1 hlt)
    dsimp only
    rw [heq]
    exact he.raise_all hopen
  next hlt =>
  rw [hO.inline]
  refine (tries_bind _ _ _ _ _).2 ?_
  apply tries_indexRange hO hplan h hs he' hr hlt
  intro a qs v h hs hindex
  refine (tries_bind _ _ _ _ _).2 (tries_change
    (f := fun s => { s with watermark := (s.watermark.raise (Log.size O.log)).1 }) h fun v h => ?_)
  exact tries_settle h (hs.raiseAll hr hindex) hr hindex (he'.raise_all hs.unclosed)

theorem Untried.of_at (hcalls : qs <+: plan) (h : O.At ref a s w) (hs : O.Intact a s)
    (he : O.Even s) (hr : s.recovered = none) (hidle : s.recovering = false) :
    O.Untried plan qs w := by
  have hmemory : w.state.memory O.segment = s := h.keeps.memory
  have hplace (other : Nat) (hother : w.state.tracked[O.segment]? = some other) :
      other < w.state.states.size := by
    obtain rfl := Option.some.inj (h.keeps.tracked.symm.trans hother)
    exact h.keeps.place
  refine ⟨hcalls, ⟨⟨a, h.shows, hmemory ▸ hs⟩, h.opened, h.indexOpened, hplace, ?_⟩, ?_, ?_⟩
  · rw [hmemory]
    exact hidle
  · rw [hmemory]
    exact he
  · rw [hmemory]
    exact hr

theorem tries_recover (hO : O.Hopeful ps links) (hplan : qs ++ O.accessCalls ps links <+: plan)
    (h : O.At ref a s w) (hs : O.Intact a s) (he : O.Even s) (hr : s.recovered = none)
    (hidle : s.recovering = false) :
    (Tables.recover O.config O.segment ref).Tries settled
      (fun n _ v => n = Log.size O.log ∧ O.Standing ref O.Whole v) (fun _ => O.Untried plan)
      qs w := by
  unfold Tables.recover
  refine (tries_bind _ _ _ _ _).2 fun v hv _ => ?_
  have h := h.near hv
  have hready : (!(v.state.state ref).recovering) = true := by
    rw [h.keeps.state, hidle]
    rfl
  refine ⟨fun _ => ?_, fun hn => by cases hready.symm.trans hn⟩
  change Tries _ _ _ (Tables.change ref _ >>= _) _ v
  refine (tries_bind _ _ _ _ _).2 (tries_change h fun v h => ?_)
  rw [tries_ensuring]
  apply (tries_recoverState hO hplan h (hs.recovering true) ⟨he.1, he.2⟩ hr).mono
  · rintro n qs v ⟨rfl, a, s, h, hs, hwhole⟩
    exact tries_change h fun u hu => ⟨rfl, a, _, hu, hs.recovering false, hwhole⟩
  · rintro e qs v ⟨hcalls, a, s, h, hs, he, hr⟩
    exact tries_change h fun u hu => .of_at hcalls hu (hs.recovering false) ⟨he.1, he.2⟩ hr rfl

theorem tries_awaitWatermark {K : Unit → List Call → World Tables Unit → Prop}
    (h : O.At ref a s w) (hwhole : O.Whole s) (hK : ∀ v, O.At ref a s v → ¬settled v → K () qs v) :
    (awaitWatermark ref (Log.size O.log)).Tries settled K E qs w := by
  unfold awaitWatermark
  refine (tries_bind _ _ _ _ _).2 fun v hv hns => ?_
  have h := h.near hv
  have hready : (v.state.state ref).watermark.settled (Log.size O.log) = true := by
    rw [h.keeps.state, hwhole.2]
    simp [Watermark.settled]
  refine ⟨fun _ => ?_, fun hn => by cases hready.symm.trans hn⟩
  refine (tries_bind _ _ _ _ _).2 (tries_look.2 ?_)
  rw [h.keeps.state, hwhole.2]
  exact hK v h hns

/-- A first access that fails can be made again. If it does not fail, all entries are indexed. -/
theorem tries_access {K : Nat → List Call → World Tables Unit → Prop} (hO : O.Hopeful ps links)
    (hplan : qs ++ O.accessCalls ps links <+: plan) (hw : O.Untried plan qs w)
    (hK : ∀ ref qs v, O.Standing ref O.Whole v → ¬settled v → K ref qs v) :
    (access O.config O.segment).Tries settled K (fun _ => O.Untried plan) qs w := by
  obtain ⟨a, hshows, hs⟩ := hw.prepared.spared
  obtain ⟨hkeeps, halike⟩ := keeps_track hw.prepared.place
  unfold access checkIndex
  refine (tries_bind _ _ _ _ _).2 ((tries_bind _ _ _ _ _).2 ?_)
  change Tries _ _ _ (ite (w.state.indexClosed = true) _ _) _ w
  rw [if_neg (by simp [hw.prepared.indexOpened])]
  refine (tries_bind Program.read _ _ _ _).2 (tries_read.2 ?_)
  generalize w.state.track O.segment = r at hkeeps halike ⊢
  obtain ⟨t, ref⟩ := r
  dsimp only at hkeeps halike ⊢
  refine (tries_bind _ _ _ _ _).2 (tries_modify ?_)
  have h : O.At ref a (w.state.memory O.segment) ⟨w.container, t, ()⟩ :=
    ⟨hshows, hkeeps, halike.opened.trans hw.prepared.opened,
      halike.indexOpened.trans hw.prepared.indexOpened⟩
  rw [hkeeps.state, hw.unrecovered]
  refine (tries_bind _ _ _ _ _).2 ?_
  apply (tries_recover hO hplan h hs hw.even hw.unrecovered hw.prepared.idle).mono
  · rintro n qs v ⟨rfl, a, s, h, hs, hwhole⟩
    refine (tries_bind _ _ _ _ _).2 ?_
    apply tries_awaitWatermark h hwhole
    exact fun u hu hns => hK ref qs u ⟨a, s, hu, hs, hwhole⟩ hns
  · exact fun _ _ _ hv => hv

end Tries
end Outlook
end KeyedLog
