import KeyedLog.Proofs.Deferred.Admission
import KeyedLog.Proofs.Deferred.TailEvents

/-! How threads tend the tail of an index that leaves its links to an indexer: what they append is
recorded, and what the indexer reports on leaves the tail. -/
namespace KeyedLog

namespace SegmentState

def SameTail (s s' : SegmentState) : Prop := s'.heads = s.heads ∧ s'.backpointers = s.backpointers

theorem SameTail.trans {s s' s'' : SegmentState} (h : s.SameTail s') (h' : s'.SameTail s'') :
    s.SameTail s'' := ⟨h'.1.trans h.1, h'.2.trans h.2⟩

theorem SameTail.record {s s' : SegmentState} (h : s.SameTail s') (cache : Cache) (segment : Nat)
    (l : Links) : (s.record cache segment l).1.SameTail (s'.record cache segment l).1 := by
  unfold SegmentState.record
  rw [h.1, h.2]
  exact ⟨rfl, rfl⟩

theorem SameTail.prune {s s' : SegmentState} (h : s.SameTail s') (n : Nat) :
    (s.prune n).SameTail (s'.prune n) := by
  unfold SegmentState.prune
  rw [h.1, h.2]
  exact ⟨rfl, rfl⟩

theorem prune_initial (n : Nat) : (initial.prune n).SameTail initial := by
  constructor
  · exact Std.ExtTreeMap.ext_getElem? fun h => by simp [initial, SegmentState.prune]
  · exact Std.ExtTreeMap.ext_getElem? fun h => by simp [initial, SegmentState.prune]

/-- The tail has the links of the entries at some offsets, and no others. -/
structure TailOf (hasher : Hasher) (log : List Record) (kept : Nat → Bool) (s : SegmentState) :
    Prop where
  backpointer : ∀ {x}, s.backpointers[x]? ≠ none ↔ kept x = true ∧ ∃ h, Log.Entry hasher log x h
  kept_of_head : ∀ {h : KeyHash} {y}, s.heads[h]? = some y → kept y = true
  head : ∀ {x h}, kept x = true → Log.Entry hasher log x h → s.heads[h]? ≠ none

namespace TailOf

variable {hasher : Hasher} {log log' : List Record} {kept kept' : Nat → Bool}
  {s s' : SegmentState}

theorem initial (hasher : Hasher) (log : List Record) :
    initial.TailOf hasher log fun _ => false where
  backpointer := by simp [SegmentState.initial]
  kept_of_head h := by simp [SegmentState.initial] at h
  head h := by cases h

theorem sameTail (h : s.TailOf hasher log kept) (hs : s.SameTail s') :
    s'.TailOf hasher log kept where
  backpointer := by
    rw [hs.2]
    exact h.backpointer
  kept_of_head hy := h.kept_of_head (hs.1 ▸ hy)
  head hx he := by
    rw [hs.1]
    exact h.head hx he

theorem grow (h : s.TailOf hasher log kept) (hl : log <+: log')
    (hlt : ∀ {x}, kept x = true → x < Log.size log) : s.TailOf hasher log' kept where
  backpointer {x} := by
    rw [h.backpointer]
    refine and_congr_right fun hx => exists_congr fun h => ?_
    exact ⟨fun he => he.mono hl, fun he => he.of_lt hl (hlt hx)⟩
  kept_of_head := h.kept_of_head
  head hx he := h.head hx (he.of_lt hl (hlt hx))

theorem record (h : s.TailOf hasher log kept) {a rs : List Record} {b : Batch}
    (hl : a ++ rs <+: log) (hb : b.Lists hasher rs)
    (hkept : ∀ {x}, kept' x = true ↔
      kept x = true ∨ Log.size a ≤ x ∧ x < Log.size a + Log.size rs)
    (cache : Cache) (segment : Nat) (current : Heads) :
    (s.record cache segment (Links.ofBatch b (Log.size a) current)).1.TailOf hasher log kept' where
  backpointer {x} := by
    refine insertAll_ne_none.trans ?_
    rw [h.backpointer, hb.mem_backpointers, hkept, or_and_right]
    refine or_congr_right ?_
    simp only [Log.mem_hashed_range hl]
    exact ⟨fun ⟨h, he, hx⟩ => ⟨hx, h, he⟩, fun ⟨hx, h, he⟩ => ⟨h, he, hx⟩⟩
  kept_of_head {k y} hy := by
    refine hkept.2 ((insertAll_some hy).symm.imp (fun hy => h.kept_of_head hy.1) fun hy => ?_)
    exact ((Log.mem_hashed_range hl).1 (hb.hashed_of_head hy)).2
  head {x k} hx he := by
    refine insertAll_ne_none.2 ((hkept.1 hx).imp (h.head · he) fun hx => ?_)
    exact hb.exists_head ((Log.mem_hashed_range hl).2 ⟨he, hx⟩)

/-- A head stays if it is not below the offset, and is then found from any entry that is not. -/
theorem prune (h : s.TailOf hasher log kept) {n : Nat}
    (hnewest : ∀ {x y} {k : KeyHash}, kept x = true → Log.Entry hasher log x k →
      s.heads[k]? = some y → x ≤ y)
    (hkept : ∀ {x}, kept' x = true ↔ kept x = true ∧ n ≤ x) :
    (s.prune n).TailOf hasher log kept' where
  backpointer {x} := by
    have hfilter : (s.prune n).backpointers[x]? ≠ none ↔ s.backpointers[x]? ≠ none ∧ n ≤ x := by
      unfold SegmentState.prune
      rw [Std.ExtTreeMap.getElem?_filter']
      cases s.backpointers[x]? <;> simp
    rw [hfilter, h.backpointer, hkept, and_right_comm]
  kept_of_head {k y} hy := by
    unfold SegmentState.prune at hy
    rw [Std.ExtTreeMap.getElem?_filter'] at hy
    obtain ⟨hy, hn⟩ := Option.filter_eq_some_iff.1 hy
    exact hkept.2 ⟨h.kept_of_head hy, of_decide_eq_true hn⟩
  head {x k} hx he := by
    obtain ⟨hx, hn⟩ := hkept.1 hx
    obtain ⟨y, hy⟩ := Option.ne_none_iff_exists'.1 (h.head hx he)
    have hle := hnewest hx he hy
    unfold SegmentState.prune
    rw [Std.ExtTreeMap.getElem?_filter', hy]
    simp [Nat.le_trans hn hle]

end TailOf
end SegmentState

namespace Tables.Serves

variable {S : Site} {t : Tables} (ht : t.Serves S.segment S.place)
include ht

theorem track : (t.track S.segment).1.Serves S.segment S.place ∧
    (t.track S.segment).1.tracked[S.segment]? ≠ none ∧ (t.track S.segment).2 = S.place := by
  rcases ht.tracked with ⟨hnone, hsize⟩ | ⟨hsome, hsize⟩
  · rw [Tables.track_of_none hnone]
    exact ⟨⟨ht.opened, ht.indexOpened, .inr (by simp [hsize])⟩, by simp, hsize⟩
  · have heq : t.track S.segment = (t, S.place) := by
      unfold Tables.track
      rw [hsome]
    rw [heq]
    exact ⟨ht, by simp [hsome], rfl⟩

theorem state_record (htracked : t.tracked[S.segment]? ≠ none) (k : Nat) (l : Links) :
    (Tables.record k S.place l t).state S.place = ((t.state S.place).record t.cache k l).1 := by
  have hplace : S.place < t.states.size := by
    rcases ht.tracked with ⟨hnone, -⟩ | ⟨-, hsize⟩
    · exact absurd hnone htracked
    · omega
  refine (Tables.state_modifyState t S.place S.place fun _ => _).trans ?_
  rw [if_pos ⟨rfl, hplace⟩]
  rfl

/-- A report of how far the links are persisted prunes the tail, if there is one. -/
theorem state_notify (stop : Nat) : (t.notify S.segment (some stop)).Serves S.segment S.place ∧
    (t.notify S.segment (some stop)).tracked = t.tracked ∧
    ((t.state S.place).prune stop).SameTail ((t.notify S.segment (some stop)).state S.place) := by
  rcases ht.tracked with ⟨hnone, hsize⟩ | ⟨hsome, hsize⟩
  · have heq : t.notify S.segment (some stop) = t := by
      unfold Tables.notify
      dsimp only
      rw [hnone]
    have hinitial : t.state S.place = .initial := by simp [Tables.state, hsize]
    rw [heq, hinitial]
    exact ⟨ht, rfl, SegmentState.prune_initial stop⟩
  · have heq : t.notify S.segment (some stop) =
        (t.raise S.place stop).modifyState S.place (·.prune stop) := by
      unfold Tables.notify
      dsimp only
      rw [hsome]
    have hlt : S.place < (t.raise S.place stop).states.size := by
      simp [Tables.raise, Tables.modifyState, hsize]
    rw [heq]
    refine ⟨Site.serves_modifyState (Site.serves_modifyState ht _ _) _ _, rfl, ?_⟩
    rw [Tables.state_modifyState, if_pos ⟨rfl, hlt⟩, Tables.raise, Tables.state_modifyState]
    refine SegmentState.SameTail.prune ?_ stop
    split <;> exact ⟨rfl, rfl⟩

end Tables.Serves

namespace Notes

variable {S : Site} {n m l : Notes} {s s' s'' : SegmentState} {t u : Tables}

/-- All that a thread knows is about one table. -/
structure OnSite (S : Site) (t : Tables) (n : Notes) : Prop where
  name : ∀ {name}, n.name = some name → name = S.name
  met : ∀ {segment}, n.met = some segment → segment = S.segment
  held : ∀ {ref}, n.held = some ref → ref = S.place ∧ t.tracked[S.segment]? ≠ none
  reports : ∀ {segment}, n.reports = some segment → segment = S.segment
  forget : n.due ≠ .forget
  notice : ∀ segment offset, n.due ≠ .notice segment offset

theorem onSite_blank (S : Site) (t : Tables) : blank.OnSite S t where
  name h := by cases h
  met h := by cases h
  held h := by cases h
  reports h := by cases h
  forget h := by cases h
  notice _ _ h := by cases h

/-- What becomes of the tail while a thread acts on what it has noted. -/
inductive Tends (hasher : Hasher) (n : Notes) (s : SegmentState) (m : Notes) (s' : SegmentState) :
    Prop
  | stays (hdue : m.due = n.due) (hs : s.SameTail s')
  | records {b : Batch} {rs : List Record} {offset : Nat} (cache : Cache) (segment : Nat)
    (current : Heads) (hdue : n.due = .record (Record.encodeAll recordChecksum rs) offset)
    (hm : m.due = .nothing) (hb : b.Lists hasher rs)
    (hs : (s.record cache segment (Links.ofBatch b offset current)).1.SameTail s')
  | prunes {ls : List AttributeUpdate} {stop : Nat} (hreports : n.reports ≠ none)
    (hdue : n.due = .announce (ls ++ [.replaceIfGreater .indexOffset stop])) (hm : m.due = .nothing)
    (hs : (s.prune stop).SameTail s')

/-- There is no more than one thing to be done about the tail. -/
theorem Tends.trans {hasher : Hasher} (h : n.Tends hasher s m s') (h' : m.Tends hasher s' l s'')
    (hreports : m.reports = n.reports) : n.Tends hasher s l s'' := by
  cases h with
  | stays hdue hs =>
    cases h' with
    | stays hdue' hs' => exact .stays (hdue'.trans hdue) (hs.trans hs')
    | records cache segment current hdue' hl hb hs' =>
      exact .records cache segment current (hdue.symm.trans hdue') hl hb ((hs.record ..).trans hs')
    | prunes hr hdue' hl hs' =>
      exact .prunes (hreports ▸ hr) (hdue.symm.trans hdue') hl ((hs.prune _).trans hs')
  | records cache segment current hdue hm hb hs =>
    cases h' with
    | stays hdue' hs' =>
      exact .records cache segment current hdue (hdue'.trans hm) hb (hs.trans hs')
    | records _ _ _ hdue' => cases hm.symm.trans hdue'
    | prunes _ hdue' => cases hm.symm.trans hdue'
  | prunes hr hdue hm hs =>
    cases h' with
    | stays hdue' hs' => exact .prunes hr hdue (hdue'.trans hm) (hs.trans hs')
    | records _ _ _ hdue' => cases hm.symm.trans hdue'
    | prunes _ hdue' => cases hm.symm.trans hdue'

structure ActsOn (S : Site) (n : Notes) (t u : Tables) (m : Notes) : Prop where
  onSite : m.OnSite S u
  serves : u.Serves S.segment S.place
  tracked : t.tracked[S.segment]? ≠ none → u.tracked[S.segment]? ≠ none
  reports : m.reports = n.reports
  tends : n.Tends S.config.hasher (t.state S.place) m (u.state S.place)

theorem Act.actsOn (hm : S.config.mode = .deferred) (h : Act S.config n t u m) (hn : n.OnSite S t)
    (ht : t.Serves S.segment S.place) : ActsOn S n t u m := by
  have hnot (hi : S.config.mode = .inline) : False := by cases hm.symm.trans hi
  cases h with
  | cache | locks =>
    exact ⟨⟨hn.name, hn.met, hn.held, hn.reports, hn.forget, hn.notice⟩,
      ⟨ht.opened, ht.indexOpened, ht.tracked⟩, id, rfl, .stays rfl ⟨rfl, rfl⟩⟩
  | level _ ref hf =>
    refine ⟨⟨hn.name, hn.met, hn.held, hn.reports, hn.forget, hn.notice⟩,
      Site.serves_modifyState ht ref _, id, rfl, .stays rfl ?_⟩
    rw [Tables.state_modifyState]
    split
    · exact ⟨(hf _).1, (hf _).2.1⟩
    · exact ⟨rfl, rfl⟩
  | @track segment _ hmet =>
    obtain rfl := hn.met hmet
    obtain ⟨hserves, htracked, hplace⟩ := ht.track
    have hstate := Tables.state_track t S.segment S.place
    refine ⟨⟨hn.name, hn.met, fun href => ?_, hn.reports, hn.forget, hn.notice⟩, hserves,
      fun _ => htracked, rfl, .stays rfl (hstate ▸ ⟨rfl, rfl⟩)⟩
    exact ⟨(Option.some.inj href).symm.trans hplace, htracked⟩
  | @record segment ref offset b rs _ current hmet hheld hdue hb =>
    obtain ⟨rfl, htracked⟩ := hn.held hheld
    refine ⟨⟨hn.name, hn.met, hn.held, hn.reports, by simp, by simp⟩,
      Site.serves_exchange ht _ _, id, rfl, .records t.cache segment current hdue rfl hb ?_⟩
    rw [ht.state_record htracked]
    exact ⟨rfl, rfl⟩
  | takeOver _ _ hi => exact (hnot hi).elim
  | giveBack _ _ hi => exact (hnot hi).elim
  | retire _ _ _ hi => exact (hnot hi).elim
  | @report segment stop ls _ hreports hdue =>
    obtain rfl := hn.reports hreports
    obtain ⟨hserves, htracked, hprune⟩ := ht.state_notify stop
    refine ⟨⟨hn.name, hn.met, fun href => ?_, hn.reports, by simp, by simp⟩, hserves, ?_, rfl,
      .prunes (by simp [hreports]) hdue rfl hprune⟩
    · rw [htracked]
      exact hn.held href
    · rw [htracked]
      exact id
  | forget _ _ hdue => exact (hn.forget hdue).elim
  | notice _ hdue => exact (hn.notice _ _ hdue).elim

theorem Acts.actsOn (hm : S.config.mode = .deferred) (h : Acts S.config n t u m)
    (hn : n.OnSite S t) (ht : t.Serves S.segment S.place) : ActsOn S n t u m := by
  induction h with
  | refl => exact ⟨hn, ht, id, rfl, .stays rfl ⟨rfl, rfl⟩⟩
  | head ha _ ih =>
    have hfirst := ha.actsOn hm hn ht
    have hrest := ih hfirst.onSite hfirst.serves
    exact ⟨hrest.onSite, hrest.serves, hrest.tracked ∘ hfirst.tracked,
      hrest.reports.trans hfirst.reports, hfirst.tends.trans hrest.tends hfirst.reports⟩

theorem told_reports (n : Notes) (q : Call) (r : Except TableError q.Answer) :
    (n.told q r).reports = n.reports := by
  cases q <;> cases r <;> rfl

end Notes

namespace Due

/-- Where the records lie that have yet to be linked. -/
def range : Due → Option (Nat × Nat)
  | .record data offset => some (offset, offset + data.length)
  | _ => none

def announced : Due → Option Nat
  | .announce us => AttributeUpdate.announced us
  | _ => none

end Due

namespace Site

variable {S : Site} {w v : World Tables Account} {n : Notes} {q : Call} {fate : Fate} {t u : Tables}

/-- What a call leaves to be done. -/
inductive Leaves (S : Site) (w v : World Tables Account) : Call → Fate → Due → Prop
  | nothing {q : Call} {fate : Fate} (hq : q.announces fate = none)
    (ht : ∀ (t : Trail) (i : Nat), t.call i q fate = t) : Leaves S w v q fate .nothing
  | record {rs : List Record} (hrs : Log.Wellformed S.config.hasher rs)
    (hlog : w.ghost.log ++ rs = v.ghost.log) :
    Leaves S w v (.append S.segment (Record.encodeAll recordChecksum rs)) .served
      (.record (Record.encodeAll recordChecksum rs) (Log.size w.ghost.log))
  | announce {us : List AttributeUpdate}
    (hle : ∀ stop, AttributeUpdate.announced us = some stop → stop ≤ Log.size v.ghost.log) :
    Leaves S w v (.updateAttributes S.segment us) .served (.announce us)

theorem Inv.not_deletes (hw : S.Inv w) (hv : S.Inv v)
    (hc : v.container = (w.container.serve (.delete S.name) .served).1) : False := by
  have hlt := (Container.live_of_resolve hw.stores.resolve).1
  have hc : v.container = w.container.modify S.segment ({ · with deleted := true }) :=
    hc.trans (congrArg Prod.fst (Container.perform_delete hw.stores.resolve))
  have hlive := (Container.live_of_resolve hv.stores.resolve).2
  rw [hc, Container.segment_modify _ hlt] at hlive
  simp [Container.Live] at hlive

theorem leaves_of_asks (hw : S.Inv w) (hv : S.Inv v)
    (hc : v.container = (w.container.serve q fate).1) (hn : n.OnSite S t) (hdue : n.due = .nothing)
    (hq : n.Asks S.config q) :
    S.Leaves w v q fate (n.told q (w.container.serve q fate).2).due := by
  have hlt := (Container.live_of_resolve hw.stores.resolve).1
  cases q with
  | append segment data =>
    obtain ⟨hmet, b, rs, hb, rfl⟩ := hq
    obtain rfl := hn.met hmet
    cases fate with
    | refused | lost => exact hdue ▸ .nothing rfl fun _ _ => rfl
    | served =>
      have hp : w.container.serve (.append S.segment (Record.encodeAll recordChecksum rs)) .served =
          _ := Container.perform_append hw.stores.resolve (Record.encodeAll recordChecksum rs)
      rw [hp] at hc ⊢
      rw [hw.length]
      refine .record hb.wellformed ?_
      -- No other log than the one that has grown by the records reads as the new contents.
      have hdata := hv.stores.data
      rw [hc, Container.segment_modify _ hlt] at hdata
      have hold : Log.Wellformed S.config.hasher w.ghost.log := hw.coherent.wellformed
      refine (hold.append hb.wellformed).eq_of_encodeAll hv.coherent.wellformed ?_
      rw [Log.encodeAll_append, ← hw.stores.data]
      exact hdata
  | updateAttributes segment us =>
    obtain rfl := hn.met hq.1
    cases fate with
    | refused | lost => exact hdue ▸ .nothing rfl fun _ _ => rfl
    | served =>
      have hp : w.container.serve (.updateAttributes S.segment us) .served = _ :=
        Container.perform_updateAttributes hw.stores.resolve us
      rw [hp] at hc ⊢
      refine .announce fun stop hstop => ?_
      obtain ⟨us', rule, rfl⟩ := AttributeUpdate.announced_eq_some hstop
      obtain ⟨m, hm, hbound, -⟩ := hv.coherent.faithful.index
      obtain ⟨x, hx, hle⟩ := Attributes.le_updateAll_concat
        (w.container.segment S.segment).attributes us' ⟨.indexOffset, rule, stop⟩
      have hindex : (v.container.segment S.segment).attributes[AttributeId.indexOffset]? = some m :=
        hm
      rw [hc, Container.segment_modify _ hlt] at hindex
      obtain rfl := Option.some.inj (hx.symm.trans hindex)
      exact Nat.le_trans hle hbound.le
  | delete name =>
    cases fate with
    | refused | lost => exact hdue ▸ .nothing rfl fun _ _ => rfl
    | served =>
      obtain rfl := hn.name hq.1
      exact (hw.not_deletes hv hc).elim
  | resolve | create | read | getAttributes | length =>
    rw [show (n.told _ _).due = .nothing by cases (w.container.serve _ fate).2 <;> exact hdue]
    cases fate <;> exact .nothing rfl fun _ _ => rfl

/-- Nobody learns of another table. -/
theorem onSite_told (hw : S.Inv w) (hn : n.OnSite S t)
    (hdue : S.Leaves w v q fate (n.told q (w.container.serve q fate).2).due)
    (hq : n.Asks S.config q) : (n.told q (w.container.serve q fate).2).OnSite S t := by
  have hforget : (n.told q (w.container.serve q fate).2).due ≠ .forget := by
    intro h
    rw [h] at hdue
    cases hdue
  have hnotice (segment : Nat) (offset : Option Nat) :
      (n.told q (w.container.serve q fate).2).due ≠ .notice segment offset := by
    intro h
    rw [h] at hdue
    cases hdue
  cases hr : (w.container.serve q fate).2 with
  | error e =>
    rw [hr] at hforget hnotice
    cases q <;> exact ⟨hn.name, hn.met, hn.held, hn.reports, hforget, hnotice⟩
  | ok a =>
    rw [hr] at hforget hnotice
    cases q with
    | resolve name =>
      obtain rfl := hn.name hq
      have hp : w.container.resolve S.name = .ok a :=
        congrArg Prod.snd (Container.perform_of_serve hr).2
      refine ⟨hn.name, fun h => ?_, hn.held, hn.reports, hforget, hnotice⟩
      obtain rfl := Except.ok.inj (hp.symm.trans hw.stores.resolve)
      exact (Option.some.inj h).symm
    | create | delete | append | read | getAttributes | updateAttributes | length =>
      exact ⟨hn.name, hn.met, hn.held, hn.reports, hforget, hnotice⟩

/-- What a thread has to do is what the tally says. -/
structure Agrees (S : Site) (t : Tables) (tally : Tally) (log : List Record) (i : Nat) (n : Notes) :
    Prop where
  onSite : n.OnSite S t
  reports : n.reports ≠ none → i = 0
  range : tally.trail.unlinked i = n.due.range
  due : i = 0 → tally.due = n.due.announced
  appended : ∀ {rs offset}, n.due = .record (Record.encodeAll recordChecksum rs) offset →
    Log.Wellformed S.config.hasher rs → ∃ a, a ++ rs <+: log ∧ Log.size a = offset

namespace Agrees

variable {tally : Tally} {log log' : List Record} {i : Nat} {e : Pool.Event Tables Reply}
  {m : Notes}

theorem mono {tally' : Tally} (h : S.Agrees t tally log i n)
    (hrange : tally'.trail.unlinked i = tally.trail.unlinked i)
    (hdue : i = 0 → tally'.due = tally.due)
    (ht : t.tracked[S.segment]? ≠ none → u.tracked[S.segment]? ≠ none) (hl : log <+: log') :
    S.Agrees u tally' log' i n where
  onSite := { h.onSite with held := fun href => (h.onSite.held href).imp_right ht }
  reports := h.reports
  range := hrange.trans h.range
  due hi := (hdue hi).trans (h.due hi)
  appended hd hrs := (h.appended hd hrs).imp fun _ ha => ⟨ha.1.trans hl, ha.2⟩

theorem of_nothing (hn : n.OnSite S t) (hreports : n.reports ≠ none → i = 0)
    (hdue : n.due = .nothing) (hrange : tally.trail.unlinked i = none)
    (hnone : i = 0 → tally.due = none) : S.Agrees t tally log i n where
  onSite := hn
  reports := hreports
  range := by
    rw [hrange, hdue]
    rfl
  due hi := by
    rw [hnone hi, hdue]
    rfl
  appended hd := by cases hdue.symm.trans hd

/-- Who makes a call notes down what the tally gains. -/
theorem called {m : Notes} (h : S.Agrees t tally w.ghost.log i n) (hdue : n.due = .nothing)
    (hlength : tally.trail.length = Log.size w.ghost.log) (hm : m.OnSite S u)
    (hreports : m.reports = n.reports) (hl : S.Leaves w v q fate m.due) :
    S.Agrees u (tally.after (.call i q fate : Pool.Event Tables Reply)) v.ghost.log i m := by
  have hrange : tally.trail.unlinked i = none := by
    rw [h.range, hdue]
    rfl
  have hnone (hi : i = 0) : tally.due = none := by
    rw [h.due hi, hdue]
    rfl
  have hreports : m.reports ≠ none → i = 0 := hreports ▸ h.reports
  generalize hd : m.due = d at hl
  cases hl with
  | nothing hq ht =>
    refine .of_nothing hm hreports hd ?_ fun hi => ?_
    · rw [Tally.trail_after, Trail.after, ht, hrange]
    · simp [Tally.after, hi, hq, hnone hi]
  | @record rs hrs hlog =>
    refine ⟨hm, hreports, ?_, fun hi => ?_, fun {ss offset} hss hwf => ?_⟩
    · rw [hd, Tally.trail_after, ← hlength]
      exact if_pos rfl
    · rw [hd]
      simp [Tally.after, hi, hnone hi, Call.announces, Due.announced]
    · obtain ⟨heq, rfl⟩ := Due.record.inj (hd.symm.trans hss)
      obtain rfl := hrs.eq_of_encodeAll hwf heq
      exact ⟨_, hlog ▸ List.prefix_rfl, rfl⟩
  | announce =>
    refine ⟨hm, hreports, ?_, fun hi => ?_, fun hss => ?_⟩
    · rw [hd, Tally.trail_after]
      exact hrange
    · rw [hd]
      simp [Tally.after, hi, hnone hi, Call.announces, Due.announced]
    · cases hd.symm.trans hss

/-- Who goes on does about the tail what the tally says. -/
theorem tends {m : Notes} {s s' : SegmentState} (h : S.Agrees t tally log i n)
    (htail : s.TailOf S.config.hasher log tally.kept)
    (hnewest : ∀ {x y} {k : KeyHash}, tally.kept x = true → Log.Entry S.config.hasher log x k →
      s.heads[k]? = some y → x ≤ y)
    (hends : n.Tends S.config.hasher s m s') (hm : m.due = .nothing) :
    s'.TailOf S.config.hasher log (tally.after (.proceed i : Pool.Event Tables Reply)).kept := by
  have hcovers {x : Nat} (hd : n.due.range = none) : ¬tally.trail.covers i x = true := by
    rw [Trail.covers, h.range, hd]
    simp
  have hpasses {x : Nat} (hd : n.due.announced = none) :
      i = 0 → ∀ stop, tally.due = some stop → stop ≤ x := by
    intro hi stop hstop
    rw [h.due hi, hd] at hstop
    cases hstop
  cases hends with
  | stays hdue hs =>
    have hdue : n.due = .nothing := hdue.symm.trans hm
    have hkept : (tally.after (.proceed i : Pool.Event Tables Reply)).kept = tally.kept := by
      funext x
      rw [Bool.eq_iff_iff, Tally.kept_proceed, or_iff_left (hcovers (hdue ▸ rfl))]
      exact and_iff_left (hpasses (hdue ▸ rfl))
    rw [hkept]
    exact htail.sameTail hs
  | @records b rs offset cache segment current hdue _ hb hs =>
    -- The covered range is where the batch was appended, and nothing is due to be passed on.
    obtain ⟨a, hl, rfl⟩ := h.appended hdue hb.wellformed
    refine (htail.record hl hb (fun {x} => ?_) cache segment current).sameTail hs
    rw [Tally.kept_proceed, and_iff_left (hpasses (hdue ▸ rfl)), Trail.covers, h.range, hdue]
    simp [Due.range]
  | @prunes ls stop hreports hdue _ hs =>
    obtain rfl := h.reports hreports
    refine (htail.prune hnewest fun {x} => ?_).sameTail hs
    rw [Tally.kept_proceed, or_iff_left (hcovers (hdue ▸ rfl)), h.due rfl, hdue]
    simp [Due.announced]

end Agrees

def Starts (S : Site) (i : Nat) (n : Notes) : Prop :=
  ∃ op : Operation, op.Fits S.config S.name S.segment i ∧ n = op.notes S.name

theorem Starts.agrees {tally : Tally} {log : List Record} {i : Nat} (hn : S.Starts i n)
    (hrange : tally.trail.unlinked i = none) (hnone : i = 0 → tally.due = none) :
    S.Agrees t tally log i n := by
  obtain ⟨op, hop, rfl⟩ := hn
  have hblank := Notes.onSite_blank S t
  cases op with
  | index connector limit =>
    obtain ⟨-, hi, hname, hid⟩ := hop
    refine .of_nothing ⟨fun h => ?_, hblank.met, hblank.held, fun h => ?_, hblank.forget,
      hblank.notice⟩ (fun _ => hi) rfl hrange hnone
    · exact (Option.some.inj h).symm.trans hname
    · exact (Option.some.inj h).symm.trans hid
  | put | remove | get | getKeys =>
    refine .of_nothing ⟨fun h => ?_, hblank.met, hblank.held, hblank.reports, hblank.forget,
      hblank.notice⟩ (fun h => absurd rfl h) rfl hrange hnone
    exact (Option.some.inj h).symm

end Site
end KeyedLog
