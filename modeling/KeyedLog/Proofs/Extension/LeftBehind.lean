import KeyedLog.Proofs.Extension.NotedOperations
import KeyedLog.Proofs.Extension.Restriction

/-! States of segments that are gone. Whoever deletes a segment passes that on once, and an
operation that found the segment before may still come to track it afterwards. -/
namespace KeyedLog

namespace Container

variable {c d : Container} {q : Call} {k : Nat}

/-- Segments stay deleted. Only a deletion adds to them. -/
theorem Becomes.deleted (h : c.Becomes q d) :
    ((c.segment k).deleted = true → (d.segment k).deleted = true) ∧
      ((d.segment k).deleted = true → (c.segment k).deleted = true ∨
        ∃ name, q = .delete name ∧ c.resolve name = .ok k) := by
  have hmodify (j : Nat) (f : Segment → Segment) (hf : ∀ s, (f s).deleted = s.deleted) :
      ((c.modify j f).segment k).deleted = (c.segment k).deleted := by
    by_cases hjk : j = k
    · subst hjk
      by_cases hlt : j < c.segments.size
      · rw [segment_modify f hlt, hf]
      · simp [segment, modify, hlt]
    · rw [segment_modify_of_ne f hjk]
  have hsame {d : Container} (hd : (d.segment k).deleted = (c.segment k).deleted) :
      ((c.segment k).deleted = true → (d.segment k).deleted = true) ∧
        ((d.segment k).deleted = true → (c.segment k).deleted = true ∨
          ∃ name, q = .delete name ∧ c.resolve name = .ok k) :=
    ⟨fun h => hd ▸ h, fun h => .inl (hd ▸ h)⟩
  cases h with
  | same => exact hsame rfl
  | append j data => exact hsame (hmodify _ _ fun _ => rfl)
  | getAttributes j ids => exact hsame (hmodify _ _ fun _ => rfl)
  | updateAttributes j us => exact hsame (hmodify _ _ fun _ => rfl)
  | @create name us e h =>
    refine hsame ?_
    unfold segment
    dsimp only
    rw [Array.getElem?_push]
    split
    · next hk => rw [hk, Array.getElem?_eq_none (Nat.le_refl _)]; rfl
    · rfl
  | @delete name j hj =>
    by_cases hjk : j = k
    · subst hjk
      refine ⟨fun _ => ?_, fun _ => .inr ⟨name, rfl, hj⟩⟩
      rw [segment_modify _ (live_of_resolve hj).1]
    · rw [segment_modify_of_ne _ hjk]
      exact ⟨fun h => h, .inl⟩

theorem not_deleted_of_resolve {name : String} (h : c.resolve name = .ok k) :
    (c.segment k).deleted = false := by
  have hlive := (live_of_resolve h).2
  simp only [Live, Bool.and_eq_true, Bool.not_eq_true'] at hlive
  exact hlive.2

end Container

namespace Notes

variable {config : Config} {n m : Notes} {t u : Tables} {k : Nat}

theorem tracked_track {s : Nat} (h : s ≠ k) : (t.track s).1.tracked[k]? = t.tracked[k]? := by
  unfold Tables.track
  split
  · rfl
  · dsimp only
    rw [Std.ExtTreeMap.getElem?_insert, if_neg (by simpa using h)]

theorem getElem?_ne_none_of_erase {l : Std.ExtTreeMap Nat Nat} {s : Nat}
    (h : (l.erase s)[k]? ≠ none) : l[k]? ≠ none := by
  rw [Std.ExtTreeMap.getElem?_erase] at h
  split at h
  · exact absurd rfl h
  · exact h

theorem tracked_retireAll (segment ref : Nat) (bs : List PendingLinks) (t : Tables) :
    (Tables.retireAll segment ref t bs).1.tracked = t.tracked := by
  unfold Tables.retireAll
  generalize (none : Option Nat) = moved
  induction bs generalizing t moved with
  | nil => rfl
  | cons b bs ih =>
    rw [List.foldl_cons]
    exact ih _ _

/-- What is done about the segments that are tracked. -/
theorem Act.tracking (h : Act config n t u m) :
    (u.tracked = t.tracked ∧ m.met = n.met ∧
      (m.due = n.due ∨ n.due ≠ .forget ∧ m.due = .nothing)) ∨
    (∃ s, n.met = some s ∧ u = (t.track s).1 ∧ m.met = n.met ∧ m.due = n.due) ∨
    (∃ s, n.due = .forget ∧ n.met = some s ∧ u.tracked = t.tracked.erase s ∧ m.met = none ∧
      m.due = .nothing) ∨
    ∃ s, n.due = .notice s none ∧ u.tracked = t.tracked.erase s ∧ m.met = n.met ∧
      m.due = .nothing := by
  have hnotify (s o : Nat) : (t.notify s (some o)).tracked = t.tracked := by
    unfold Tables.notify
    dsimp only
    split <;> rfl
  cases h with
  | cache | locks | level | takeOver | giveBack => exact .inl ⟨rfl, rfl, .inl rfl⟩
  | @track s _ hmet => exact .inr (.inl ⟨s, hmet, rfl, rfl, rfl⟩)
  | record _ _ _ _ hdue => exact .inl ⟨rfl, rfl, .inr ⟨by simp [hdue], rfl⟩⟩
  | retire _ segment ref _ => exact .inl ⟨tracked_retireAll segment ref _ _, rfl, .inl rfl⟩
  | report _ _ hdue => exact .inl ⟨hnotify _ _, rfl, .inr ⟨by simp [hdue], rfl⟩⟩
  | @forget s _ hmet hdue => exact .inr (.inr (.inl ⟨s, hdue, hmet, rfl, rfl, rfl⟩))
  | @notice s offset _ hdue =>
    cases offset with
    | none => exact .inr (.inr (.inr ⟨s, hdue, rfl, rfl, rfl⟩))
    | some o => exact .inl ⟨hnotify s o, rfl, .inr ⟨by simp [hdue], rfl⟩⟩

/-- Whoever comes to track a segment has found it. -/
theorem Acts.tracked (h : Acts config n t u m) :
    (m.met = some k → n.met = some k) ∧
      (u.tracked[k]? ≠ none → t.tracked[k]? ≠ none ∨ n.met = some k) := by
  induction h with
  | refl => exact ⟨id, .inl⟩
  | head ha _ ih =>
    rcases ha.tracking with ⟨ht, hm, -⟩ | ⟨s, hs, rfl, hm, -⟩ | ⟨s, -, hs, ht, hm, -⟩ |
      ⟨s, -, ht, hm, -⟩
    · rwa [ht, hm] at ih
    · rw [hm] at ih
      refine ⟨ih.1, fun hk => (ih.2 hk).elim (fun hk => ?_) .inr⟩
      by_cases hsk : s = k
      · exact .inr (hsk ▸ hs)
      · exact .inl (by rwa [tracked_track hsk] at hk)
    · rw [hm, ht] at ih
      refine ⟨fun hk => (by cases ih.1 hk), fun hk => .inl ?_⟩
      exact getElem?_ne_none_of_erase ((ih.2 hk).resolve_right (by simp))
    · rw [hm, ht] at ih
      exact ⟨ih.1, fun hk => (ih.2 hk).imp_left getElem?_ne_none_of_erase⟩

/-- Has yet to pass on that a segment is gone, or does not know of it, and nobody tracks it. -/
def Forgets (k : Nat) (n : Notes) (t : Tables) : Prop :=
  n.due = .forget ∧ n.met = some k ∨ n.met ≠ some k ∧ t.tracked[k]? = none

theorem Act.forgets (h : Act config n t u m) (hn : n.Forgets k t) : m.Forgets k u := by
  unfold Forgets at hn ⊢
  rcases h.tracking with ⟨ht, hm, hd⟩ | ⟨s, hs, rfl, hm, hd⟩ | ⟨s, -, hs, ht, hm, -⟩ |
    ⟨s, hd', ht, hm, -⟩
  · rw [ht, hm]
    refine hn.imp_left fun hn => ⟨hd.elim (fun hd => hd.trans hn.1) fun hd => ?_, hn.2⟩
    exact absurd hn.1 hd.1
  · rw [hm, hd]
    refine hn.imp_right fun hn => ⟨hn.1, ?_⟩
    rw [tracked_track fun hsk : s = k => hn.1 (hsk ▸ hs)]
    exact hn.2
  · rw [hm, ht]
    refine .inr ⟨by simp, ?_⟩
    rcases hn with ⟨-, hn⟩ | ⟨-, hn⟩
    · obtain rfl := Option.some.inj (hs.symm.trans hn)
      simp
    · exact by_contra fun hk => getElem?_ne_none_of_erase hk hn
  · rw [hm, ht]
    rcases hn with ⟨hn, -⟩ | hn
    · cases hd'.symm.trans hn
    · exact .inr ⟨hn.1, by_contra fun hk => getElem?_ne_none_of_erase hk hn.2⟩

theorem Acts.forgets (h : Acts config n t u m) (hn : n.Forgets k t) : m.Forgets k u := by
  induction h with
  | refl => exact hn
  | head ha _ ih => exact ih (ha.forgets hn)

theorem Settled.due_ne_forget (h : n.Settled config) : n.due ≠ .forget := by
  rcases h with h | ⟨-, us, h⟩ <;> simp [h]

end Notes

open Notes

namespace Pool

section Runs

variable {σ α : Type} {around : Surroundings σ} {y z : Pool σ α} {es : List (Event σ α)}

/-- What a container has become once the calls of some events met their fates. -/
def replay (c : Container) (es : List (Event σ α)) : Container :=
  es.foldl (fun c e =>
    match e with
    | .call _ q fate => (c.serve q fate).1
    | _ => c) c

theorem Steps.container_eq (h : Steps around y es z) : z.container = replay y.container es := by
  induction h with
  | refl => rfl
  | @head y m z e es h _ ih =>
    have hm : m.container = replay y.container [e] := by
      rcases h.inv with ⟨i, p, rfl, -, rfl⟩ | ⟨i, p, q, rfl, -, -, rfl⟩ |
        ⟨i, q, k, fate, rfl, -, rfl⟩ | ⟨i, r, rfl, -, rfl⟩ | ⟨s, rfl, -, rfl⟩ <;> rfl
    rw [ih, hm]
    rfl

def Found (c : Container) (es : List (Event σ α)) (i segment : Nat) : Prop :=
  ∃ as name bs, es = as ++ .call i (.resolve name) .served :: bs ∧
    (replay c as).resolve name = .ok segment ∧ ∀ p, .start i p ∉ bs

structure Deleted (c : Container) (es : List (Event σ α)) (segment i : Nat)
    (as : List (Event σ α)) (fate : Fate) (bs : List (Event σ α)) : Prop where
  call : ∃ name, es = as ++ .call i (.delete name) fate :: bs ∧
    (replay c as).resolve name = .ok segment

variable {c : Container} {e : Event σ α} {as bs : List (Event σ α)} {i k : Nat} {fate : Fate}

theorem Found.snoc (h : Found c es i k) (he : ∀ p, e ≠ .start i p) : Found c (es ++ [e]) i k := by
  obtain ⟨as, name, bs, rfl, hname, hstart⟩ := h
  refine ⟨as, name, bs ++ [e], by simp, hname, fun p hp => ?_⟩
  rcases List.mem_append.1 hp with hp | hp
  · exact hstart p hp
  · exact he p (List.mem_singleton.1 hp).symm

theorem Deleted.snoc (h : Deleted c es k i as fate bs) (e : Event σ α) :
    Deleted c (es ++ [e]) k i as fate (bs ++ [e]) := by
  obtain ⟨name, rfl, hname⟩ := h.call
  exact ⟨name, by simp, hname⟩

end Runs

variable {config : Config} {x y z : Pool Tables (Option Reply)} {e : Event Tables (Option Reply)}
  {es past as bs : List (Event Tables (Option Reply))} {ns ms : Nat → Notes} {i k : Nat}

/-- How the state of a segment comes to be tracked although the segment was deleted. -/
inductive LeftBehind (x : Pool Tables (Option Reply)) (es : List (Event Tables (Option Reply)))
    (segment : Nat) : Prop
  /-- The deletion took effect but was reported as failed. -/
  | lost {i as error bs} (h : Deleted x.container es segment i as (.lost error) bs)
  /-- The name had come to stand for another segment since the operation found it. -/
  | namesake {i as bs other} (h : Deleted x.container es segment i as .served bs)
    (hfound : Found x.container as i other) (hne : other ≠ segment)
  /-- Another operation had found the segment, and began to track it only after the deletion was
  passed on. -/
  | late {i j as bs cs ds} {y z : Pool Tables (Option Reply)}
    (h : Deleted x.container es segment i as .served (bs ++ .proceed j :: cs))
    (hpassed : .proceed i ∈ bs) (hne : j ≠ i) (hfound : Found x.container as j segment)
    (hstays : ∀ p, .start j p ∉ bs) (hes : es = ds ++ .proceed j :: cs)
    (hbefore : Steps treacherous x ds y) (hstep : Step treacherous y (.proceed j) z)
    (huntracked : y.state.tracked[segment]? = none)
    (htracked : z.state.tracked[segment]? ≠ none)

theorem LeftBehind.snoc (h : LeftBehind x es k) (e : Event Tables (Option Reply)) :
    LeftBehind x (es ++ [e]) k := by
  cases h with
  | lost h => exact .lost (h.snoc e)
  | namesake h hfound hne => exact .namesake (h.snoc e) hfound hne
  | late h hpassed hne hfound hstays hes hbefore hstep huntracked htracked =>
    exact .late (by simpa using h.snoc e) hpassed hne hfound hstays (by simp [hes]) hbefore hstep
      huntracked htracked

/-- What is known of a segment that was deleted: who had found it by then, and whether that is
passed on. -/
structure Gone (x : Pool Tables (Option Reply)) (past : List (Event Tables (Option Reply)))
    (ns : Nat → Notes) (k i : Nat) (as : List (Event Tables (Option Reply))) (fate : Fate)
    (bs : List (Event Tables (Option Reply))) : Prop where
  deleted : Deleted x.container past k i as fate bs
  found : ∀ j, (ns j).met = some k → Found x.container as j k ∧ ∀ p, .start j p ∉ bs
  passed : (∃ error, fate = .lost error) ∨ fate = .served ∧
    ((∃ other ≠ k, Found x.container as i other) ∨ (ns i).due = .forget ∧ (ns i).met = some k ∨
      .proceed i ∈ bs ∧ (ns i).met ≠ some k)

/-- What a run amounts to for the segments that are tracked. -/
structure Traces (x : Pool Tables (Option Reply)) (config : Config)
    (past : List (Event Tables (Option Reply))) (y : Pool Tables (Option Reply))
    (ns : Nat → Notes) : Prop where
  run : Steps treacherous x past y
  settled : ∀ i, y.threads i = none → (ns i).Settled config
  met : ∀ {i k}, (ns i).met = some k → Found x.container past i k ∧
    k < y.container.segments.size ∧ (x.container.segment k).deleted = false
  stays : ∀ {k}, (x.container.segment k).deleted = true → (y.container.segment k).deleted = true
  gone : ∀ {k}, (x.container.segment k).deleted = false → (y.container.segment k).deleted = true →
    ∃ i as fate bs, Gone x past ns k i as fate bs
  tracked : ∀ {k : Nat}, y.state.tracked[k]? ≠ none → k < y.container.segments.size ∧
    (x.container.segment k).deleted = false ∧ ((y.container.segment k).deleted = true →
      LeftBehind x past k ∨ ∃ i, (ns i).due = .forget ∧ (ns i).met = some k)

theorem Gone.snoc {fate : Fate} (h : Gone x past ns k i as fate bs)
    (hmet : ∀ j, (ms j).met = some k → (ns j).met = some k ∧ ∀ p, e ≠ .start j p)
    (hdue : (ns i).due = .forget → (ns i).met = some k →
      (ms i).due = .forget ∧ (ms i).met = some k ∨ e = .proceed i ∧ (ms i).met ≠ some k) :
    Gone x (past ++ [e]) ms k i as fate (bs ++ [e]) where
  deleted := h.deleted.snoc e
  found j hj := by
    obtain ⟨hj, he⟩ := hmet j hj
    refine ⟨(h.found j hj).1, fun p hp => ?_⟩
    rcases List.mem_append.1 hp with hp | hp
    · exact (h.found j hj).2 p hp
    · exact he p (List.mem_singleton.1 hp).symm
  passed := by
    refine h.passed.imp_right fun ⟨hfate, h⟩ => ⟨hfate, ?_⟩
    rcases h with hother | ⟨hd, hm⟩ | ⟨hpassed, hm⟩
    · exact .inl hother
    · exact .inr ((hdue hd hm).imp_right fun ⟨he, hm⟩ => ⟨by simp [he], hm⟩)
    · exact .inr (.inr ⟨List.mem_append_left _ hpassed, fun hi => hm (hmet i hi).1⟩)

/-- Nobody comes to track a segment that is gone, but for the known exceptions, if nobody comes to
know of it and it is passed on at once. -/
theorem Traces.next (h : Traces x config past y ns) (hstep : Step treacherous y e z)
    (hjots : Jots config (fun _ n => n.met = none) y z ns e ms)
    (hmet : ∀ {i k}, (ms i).met = some k → (ns i).met = some k ∧ (∀ p, e ≠ .start i p) ∨
      (y.container.segment k).deleted = false ∧ k < y.container.segments.size ∧
        Found x.container (past ++ [e]) i k)
    (hdue : ∀ {i} {k : Nat}, (ns i).due = .forget → (ns i).met = some k →
      (ms i).due = .forget ∧ (ms i).met = some k ∨
        e = .proceed i ∧ (ms i).met ≠ some k ∧ z.state.tracked[k]? = none)
    (htracked : ∀ {k : Nat}, z.state.tracked[k]? ≠ none → y.state.tracked[k]? ≠ none ∨
      ∃ i, e = .proceed i ∧ (ns i).met = some k)
    (hsize : y.container.segments.size ≤ z.container.segments.size)
    (hstays : ∀ {k}, (y.container.segment k).deleted = true →
      (z.container.segment k).deleted = true)
    (hgone : ∀ {k}, (y.container.segment k).deleted = false →
      (z.container.segment k).deleted = true →
        ∃ i as fate, Gone x (past ++ [e]) ms k i as fate []) :
    Traces x config (past ++ [e]) z ms where
  run := h.run.append (.head hstep (.refl _))
  settled := hjots.settled hstep h.settled
  met {i k} hi := by
    rcases hmet hi with ⟨hi, he⟩ | ⟨hlive, hlt, hfound⟩
    · obtain ⟨hfound, hlt, hlive⟩ := h.met hi
      exact ⟨hfound.snoc he, Nat.lt_of_lt_of_le hlt hsize, hlive⟩
    · refine ⟨hfound, Nat.lt_of_lt_of_le hlt hsize, Bool.eq_false_iff.2 fun hx => ?_⟩
      exact absurd (h.stays hx) (by simp [hlive])
  stays hk := hstays (h.stays hk)
  gone {k} hx hz := by
    cases hy : (y.container.segment k).deleted with
    | false =>
      obtain ⟨i, as, fate, hg⟩ := hgone hy hz
      exact ⟨i, as, fate, [], hg⟩
    | true =>
      obtain ⟨i, as, fate, bs, hg⟩ := h.gone hx hy
      refine ⟨i, as, fate, _, hg.snoc (fun j hj => ?_) fun hd hm => ?_⟩
      · exact (hmet hj).resolve_right fun hj => absurd hy (by simp [hj.1])
      · exact (hdue hd hm).imp_right fun hi => ⟨hi.1, hi.2.1⟩
  tracked {k} hk := by
    have hknown : k < y.container.segments.size ∧ (x.container.segment k).deleted = false := by
      rcases htracked hk with hk | ⟨i, -, hi⟩
      · exact ⟨(h.tracked hk).1, (h.tracked hk).2.1⟩
      · exact (h.met hi).2
    refine ⟨Nat.lt_of_lt_of_le hknown.1 hsize, hknown.2, fun hz => ?_⟩
    have hpending {i : Nat} (hd : (ns i).due = .forget) (hm : (ns i).met = some k) :
        ∃ i, (ms i).due = .forget ∧ (ms i).met = some k :=
      ⟨i, (hdue hd hm).resolve_right fun hi => hk hi.2.2⟩
    cases hy : (y.container.segment k).deleted with
    | false =>
      obtain ⟨i, as, fate, hg⟩ := hgone hy hz
      rcases hg.passed with ⟨error, rfl⟩ | ⟨rfl, ⟨other, hne, hfound⟩ | hdue | ⟨hpassed, -⟩⟩
      · exact .inl (.lost hg.deleted)
      · exact .inl (.namesake hg.deleted hfound hne)
      · exact .inr ⟨i, hdue⟩
      · cases hpassed
    | true =>
      -- Whoever begins to track what is gone had found it before, since nobody finds it any more.
      by_cases hyk : y.state.tracked[k]? = none
      · obtain ⟨j, rfl, hj⟩ := (htracked hk).resolve_left (not_not_intro hyk)
        obtain ⟨i, as, fate, bs, hg⟩ := h.gone hknown.2 hy
        rcases hg.passed with ⟨error, rfl⟩ | ⟨rfl, ⟨other, hne, hfound⟩ | ⟨hd, hm⟩ | ⟨hpassed, hm⟩⟩
        · exact .inl (.lost (hg.deleted.snoc _))
        · exact .inl (.namesake (hg.deleted.snoc _) hfound hne)
        · exact .inr (hpending hd hm)
        · refine .inl (.late (hg.deleted.snoc _) hpassed (fun hji => hm (hji ▸ hj))
            (hg.found j hj).1 (hg.found j hj).2 rfl h.run hstep hyk hk)
      · rcases (h.tracked hyk).2.2 hy with hleft | ⟨i, hd, hm⟩
        · exact .inl (hleft.snoc e)
        · exact .inr (hpending hd hm)

/-- A call is answered to who makes it, and only a deletion makes a segment go. -/
theorem Traces.call (h : Traces x config past y ns) {q : Call} {fate : Fate}
    (hstep : Step treacherous y (.call i q fate) z) (hn : (ns i).Settled config)
    (hq : (ns i).Asks config q) :
    Traces x config (past ++ [.call i q fate]) z
      (Function.update ns i ((ns i).told q (y.container.serve q fate).2)) := by
  obtain ⟨p, hz⟩ : ∃ p, z = { y with container := (y.container.serve q fate).1 }.assign i
      (some p) := by
    cases hstep with
    | call fate hi hf => exact ⟨_, rfl⟩
  have hcontainer : z.container = (y.container.serve q fate).1 := by rw [hz]; rfl
  have hbecomes := y.container.becomes_serve q fate
  rw [← hcontainer] at hbecomes
  have hreplay := h.run.container_eq
  have hother {j : Nat} (hji : j ≠ i) :
      Function.update ns i ((ns i).told q (y.container.serve q fate).2) j = ns j :=
    Function.update_of_ne hji ..
  have hstate : z.state = y.state := by rw [hz]; rfl
  -- Nobody has anything left to be done when making a call.
  have hpending {j : Nat} (hd : (ns j).due = .forget) : j ≠ i := by
    rintro rfl
    exact hn.due_ne_forget hd
  refine h.next hstep (.call q fate hstate hn hq) (fun {j k} hj => ?_) (fun {j k} hd hm => ?_)
    (fun {k} hk => ?_) hbecomes.size_le hbecomes.deleted.1 fun {k} hy hk => ?_
  · by_cases hji : j = i
    · subst hji
      rw [Function.update_self] at hj
      unfold Notes.told at hj
      split at hj
      · next name segment hr =>
        obtain rfl := Option.some.inj hj
        obtain ⟨rfl, hp⟩ := Container.perform_of_serve hr
        have hname : y.container.resolve name = .ok segment := congrArg Prod.snd hp
        refine .inr ⟨y.container.not_deleted_of_resolve hname,
          (y.container.live_of_resolve hname).1, past, name, [], rfl, hreplay ▸ hname, by simp⟩
      all_goals exact .inl ⟨hj, by simp⟩
    · rw [hother hji] at hj
      exact .inl ⟨hj, by simp⟩
  · rw [hother (hpending hd)]
    exact .inl ⟨hd, hm⟩
  · rw [hstate] at hk
    exact .inl hk
  · obtain ⟨name, rfl, hname⟩ := (hbecomes.deleted.2 hk).resolve_left (by simp [hy])
    have hdeleted : Deleted x.container (past ++ [.call i (.delete name) fate]) k i past fate [] :=
      ⟨name, rfl, hreplay ▸ hname⟩
    have hmet (j : Nat) : (Function.update ns i ((ns i).told (.delete name)
        (y.container.serve (.delete name) fate).2) j).met = (ns j).met := by
      by_cases hji : j = i
      · subst hji
        rw [Function.update_self]
        unfold Notes.told
        split <;> first | rfl | contradiction
      · rw [hother hji]
    refine ⟨i, past, fate, hdeleted, fun j hj => ?_, ?_⟩
    · rw [hmet] at hj
      exact ⟨(h.met hj).1, by simp⟩
    · cases fate with
      | refused e =>
        rw [hcontainer] at hk
        exact absurd hk (by simp [Container.serve, hy])
      | lost e => exact .inl ⟨e, rfl⟩
      | served =>
        refine .inr ⟨rfl, ?_⟩
        obtain ⟨-, s, hs⟩ := hq
        by_cases hsk : s = k
        · refine .inr (.inl ⟨?_, by rw [hmet, hs, hsk]⟩)
          have hok : (y.container.serve (.delete name) .served).2 = .ok () :=
            congrArg Prod.snd (Container.perform_delete hname)
          rw [Function.update_self, hok]
          rfl
        · exact .inl ⟨s, hsk, (h.met hs).1⟩

theorem Traces.step (h : Traces x config past y ns) (hstep : Step treacherous y e z)
    (hjots : Jots config (fun _ n => n.met = none) y z ns e ms) :
    Traces x config (past ++ [e]) z ms := by
  have hsame (hcontainer : z.container = y.container) {k : Nat} :
      (y.container.segment k).deleted = false → (z.container.segment k).deleted = true →
        ∃ i as fate, Gone x (past ++ [e]) ms k i as fate [] := by
    rw [hcontainer]
    exact fun hy hz => absurd hz (by simp [hy])
  cases hjots with
  | call q fate _ hn hq => exact h.call hstep hn hq
  | @start i n p hstate hn =>
    obtain ⟨hi, rfl⟩ : y.threads i = none ∧ z = y.assign i (some p) := by
      cases hstep with
      | start p hi => exact ⟨hi, rfl⟩
    refine h.next hstep (.start p hstate hn) (fun {j k} hj => ?_) (fun {j k} hd hm => ?_) .inl
      (Nat.le_refl _) id (hsame rfl)
    · by_cases hji : j = i
      · subst hji
        rw [Function.update_self, hn] at hj
        cases hj
      · rw [Function.update_of_ne hji] at hj
        exact .inl ⟨hj, fun p hp => hji (Event.start.inj hp).1.symm⟩
    · have hji : j ≠ i := by
        rintro rfl
        exact (h.settled j hi).due_ne_forget hd
      rw [Function.update_of_ne hji]
      exact .inl ⟨hd, hm⟩
  | @proceed i n hacts hn =>
    obtain ⟨p, q, hi, hz⟩ : ∃ p q, y.threads i = some p ∧ z = y.goOn i q := by
      rcases hstep.inv with ⟨_, _, he, -⟩ | ⟨j, p, q, he, hj, -, hz⟩ | ⟨_, _, _, _, he, -⟩ |
        ⟨_, _, he, -⟩ | ⟨_, he, -⟩
      · cases he
      · obtain rfl := Event.proceed.inj he
        exact ⟨p, q, hj, hz⟩
      · cases he
      · cases he
      · cases he
    have hcontainer : z.container = y.container := by rw [hz]; rfl
    refine h.next hstep (.proceed hacts hn) (fun {j k} hj => ?_) (fun {j k} hd hm => ?_)
      (fun {k} hk => ?_) (Nat.le_of_eq (by rw [hcontainer])) (by rw [hcontainer]; exact id)
      (hsame hcontainer)
    · by_cases hji : j = i
      · subst hji
        rw [Function.update_self] at hj
        exact .inl ⟨hacts.tracked.1 hj, by simp⟩
      · rw [Function.update_of_ne hji] at hj
        exact .inl ⟨hj, by simp⟩
    · by_cases hji : j = i
      · subst hji
        rw [Function.update_self]
        exact .inr ⟨rfl, (hacts.forgets (.inl ⟨hd, hm⟩)).resolve_left fun h => hn.due_ne_forget h.1⟩
      · rw [Function.update_of_ne hji]
        exact .inl ⟨hd, hm⟩
    · exact (hacts.tracked.2 hk).imp_right fun hi => ⟨i, rfl, hi⟩
  | @finish i r hstate hn =>
    have hz : z = y.assign i none := by
      cases hstep <;> rfl
    subst hz
    exact h.next hstep (.finish r hstate hn) (fun hj => .inl ⟨hj, by simp⟩)
      (fun hd hm => .inl ⟨hd, hm⟩) .inl (Nat.le_refl _) id (hsame rfl)
  | drift =>
    obtain ⟨s, ⟨b, rfl⟩, rfl⟩ : ∃ s, y.state.Evicts s ∧ z = { y with state := s } := by
      cases hstep with
      | drift hs => exact ⟨_, hs, rfl⟩
    exact h.next hstep .drift (fun hj => .inl ⟨hj, by simp⟩) (fun hd hm => .inl ⟨hd, hm⟩) .inl
      (Nat.le_refl _) id (hsame rfl)

/-- Once nobody is at work any more, only segments that exist are tracked, except for some that were
deleted: if the deletion was reported as failed, if it hit another segment than the one that had
been found, or if another operation had found the segment before and came to track it afterwards. -/
theorem tracked_exists_or_left_behind {c : Container}
    (hrun : Steps treacherous ⟨c, .initial config, fun _ => none⟩ es z)
    (hes : ∀ e ∈ es, e.OfRequest config) (hidle : z.Idle) {k : Nat}
    (hk : z.state.stateOf? k ≠ none) :
    k < z.container.segments.size ∧ ((z.container.segment k).deleted = false ∨
      LeftBehind ⟨c, .initial config, fun _ => none⟩ es k) := by
  have hmet (r : Request) : r.notes.met = none := by
    cases r with
    | table _ op => cases op <;> rfl
    | _ => rfl
  have hblank : Notes.blank.Settled config := .inl rfl
  have hstart : Traces ⟨c, .initial config, fun _ => none⟩ config []
      ⟨c, .initial config, fun _ => none⟩ fun _ => .blank :=
    { run := .refl _
      settled := fun _ _ => hblank
      met := fun h => by cases h
      stays := id
      gone := fun h h' => absurd h' (by simp [h])
      tracked := fun h => absurd Std.ExtTreeMap.getElem?_empty h }
  obtain ⟨ns, hz⟩ :=
    Steps.noted_of_requests hmet (fun hstep hjots h => h.step hstep hjots) hrun hes hstart
  have htracked : z.state.tracked[k]? ≠ none := fun h => hk (by simp [Tables.stateOf?, h])
  obtain ⟨hlt, -, hleft⟩ := hz.tracked htracked
  refine ⟨hlt, ?_⟩
  cases hd : (z.container.segment k).deleted with
  | false => exact .inl rfl
  | true =>
    -- Whoever is done has passed on what there was to be passed on.
    refine .inr ((hleft hd).resolve_right fun hforget => ?_)
    obtain ⟨i, hi, -⟩ := hforget
    exact (hz.settled i (hidle i)).due_ne_forget hi

/-- A lookup finds a table just before it is deleted, and goes on after that. -/
theorem left_behind_by_get :
    ∃ (es : List (Event Tables (Option Reply))) (z : Pool Tables (Option Reply)),
      Steps treacherous ⟨.solo, .initial (.parity .deferred), fun _ => none⟩ es z ∧
      (∀ e ∈ es, e.OfRequest (.parity .deferred)) ∧ z.Idle ∧ z.state.stateOf? 0 ≠ none ∧
      (z.container.segment 0).deleted = true ∧
      LeftBehind ⟨.solo, .initial (.parity .deferred), fun _ => none⟩ es 0 := by
  let config : Config := .parity .deferred
  let get : Request := .table "t" (.get [[97]])
  let delete : Request := .delete "t" false
  let turns : List (Turn (Option Reply)) :=
    .start 0 (get.program config) :: List.replicate 3 (.go 0) ++
      .start 1 (delete.program config) :: List.replicate 7 (.go 1) ++ List.replicate 6 (.go 0)
  let x : Pool Tables (Option Reply) := ⟨.solo, .initial config, fun _ => none⟩
  have hturns : ∀ i p, Turn.start i p ∈ turns →
      i = 0 ∧ p = get.program config ∨ i = 1 ∧ p = delete.program config := by
    intro i p hp
    simpa [turns, List.mem_replicate] using hp
  obtain ⟨hrun, hstarts⟩ := steps_play turns x
  have hreq : ∀ e ∈ (play turns x).1, e.OfRequest config := ofRequest_of_play (fun i p hp => by
    rcases hturns i p hp with ⟨-, rfl⟩ | ⟨-, rfl⟩
    · exact ⟨get, rfl⟩
    · exact ⟨delete, rfl⟩) x
  have hidle : (play turns x).2.Idle := by
    intro i
    have hends : ((play turns x).2.threads 0).isNone ∧ ((play turns x).2.threads 1).isNone := by
      decide +kernel
    by_cases hi : i = 0
    · exact hi ▸ Option.isNone_iff_eq_none.1 hends.1
    · by_cases hi' : i = 1
      · exact hi' ▸ Option.isNone_iff_eq_none.1 hends.2
      · refine hrun.idle rfl fun p hp => ?_
        rcases hturns i p (hstarts i p hp) with ⟨h, -⟩ | ⟨h, -⟩
        · exact hi h
        · exact hi' h
  have htracked : ((play turns x).2.state.stateOf? 0).isSome := by decide +kernel
  have hdeleted : ((play turns x).2.container.segment 0).deleted = true := by decide +kernel
  have hk : (play turns x).2.state.stateOf? 0 ≠ none := Option.isSome_iff_ne_none.1 htracked
  refine ⟨_, _, hrun.treacherous, hreq, hidle, hk, hdeleted, ?_⟩
  exact (tracked_exists_or_left_behind hrun.treacherous hreq hidle hk).2.resolve_left
    (by simp [hdeleted])

end Pool
end KeyedLog
