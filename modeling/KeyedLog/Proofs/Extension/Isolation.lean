import KeyedLog.Proofs.Extension.Restriction
import KeyedLog.Proofs.Extension.SegmentRequests
import Mathlib.Data.List.Forall2

/-! Segments are kept apart: what goes on in one of them is what would go on if there were no
other. -/
namespace KeyedLog

open Program

namespace Call

def place (id : Nat) : Call → Call
  | .append _ data => .append id data
  | .read _ offset n => .read id offset n
  | .getAttributes _ ids => .getAttributes id ids
  | .updateAttributes _ updates => .updateAttributes id updates
  | .length _ => .length id
  | q => q

end Call

namespace Container

variable {c : Container} {k j : Nat} {name : String} {q q' : Call} {fate : Fate}

def only (c : Container) (k : Nat) : Container := ⟨c.id, c.segments[k]?.toArray⟩

def addressee (c : Container) : Call → Option Nat
  | .resolve name | .delete name => (c.resolve name).toOption
  | .create name _ =>
    match c.resolve name with
    | .ok id => some id
    | .error _ => some c.segments.size
  | .append k _ | .read k .. | .getAttributes k _ | .updateAttributes k _ | .length k => some k

theorem getElem?_only : (c.only k).segments[0]? = c.segments[k]? := by
  unfold only
  cases c.segments[k]? <;> rfl

theorem segment_only : (c.only k).segment 0 = c.segment k := by
  unfold segment
  rw [getElem?_only]

theorem existing_only : (c.only k).existing 0 = c.existing k := by
  unfold existing
  rw [segment_only]

theorem modify_only (f : Segment → Segment) : (c.modify k f).only k = (c.only k).modify 0 f := by
  unfold only modify
  dsimp only
  rw [Array.getElem?_modify, if_pos rfl]
  cases c.segments[k]? <;> rfl

theorem modify_only_of_ne (hj : j ≠ k) (f : Segment → Segment) :
    (c.modify j f).only k = c.only k := by
  unfold only modify
  dsimp only
  rw [Array.getElem?_modify, if_neg hj]

theorem resolve_only (hn : ∀ j, c.resolve name = .ok j → j = k) :
    Concurs (fun j j' => j = k ∧ j' = 0) (c.resolve name) ((c.only k).resolve name) := by
  cases hr : c.resolve name with
  | ok j =>
    obtain rfl := hn j hr
    obtain ⟨hlt, hlive⟩ := live_of_resolve hr
    have hfind : (c.only j).resolve name = .ok 0 := by
      have hsegment : c.segments[j]? = some (c.segment j) := by
        simp [segment, hlt]
      unfold resolve only
      dsimp only
      rw [hsegment]
      simp [hlive]
    rw [hfind]
    exact .ok ⟨rfl, rfl⟩
  | error e =>
    have hnone : c.segments.findIdx? (Live name) = none := by
      unfold resolve at hr
      cases hf : c.segments.findIdx? (Live name) with
      | none => rfl
      | some id =>
        rw [hf] at hr
        cases hr
    have herror : (c.only k).resolve name = .error e := by
      rw [← hr]
      unfold resolve only
      dsimp only
      rw [hnone]
      cases hs : c.segments[k]? with
      | none => simp
      | some s =>
        have hlive : Live name s = false := by
          have hdead := Array.findIdx?_eq_none_iff.1 hnone s (Array.mem_of_getElem? hs)
          simpa using hdead
        simp [hlive]
    rw [herror]
    exact .error e

theorem concurs_eq {α : Type} (r : Except TableError α) : Concurs Eq r r := by
  cases r with
  | ok a => exact .ok rfl
  | error e => exact .error e

/-- A call about the segment does the same, and is answered in the same way, without the others. -/
theorem perform_within {R : q.Answer → q'.Answer → Prop} (hq : (Pairing.within k).Asks q q' R)
    (hc : ∀ j, c.addressee q = some j → j = k) :
    (c.perform q).1.only k = ((c.only k).perform q').1 ∧
      Concurs R (c.perform q).2 ((c.only k).perform q').2 := by
  cases hq with
  | resolve name =>
    refine ⟨rfl, resolve_only fun j hj => hc j ?_⟩
    simp [addressee, hj, Except.toOption]
  | create name updates =>
    cases hr : c.resolve name with
    | ok j =>
      have hj : ∀ i, c.resolve name = .ok i → i = k := by
        intro i hi
        apply hc
        simp [addressee, hi]
      have honly := resolve_only hj
      rw [hr] at honly
      cases ho : (c.only k).resolve name with
      | ok i =>
        simp only [perform, create, hr, ho]
        exact ⟨rfl, .error _⟩
      | error e =>
        rw [ho] at honly
        cases honly
    | error e =>
      -- The name is free, so the segment is the one that comes next, with and without the others.
      have hsize : c.segments.size = k := by
        apply hc
        simp [addressee, hr]
      have honly : (c.only k).resolve name = .error (.segmentNotFound name) := by
        simp [resolve, only, ← hsize]
      simp only [perform, create, hr, honly]
      refine ⟨?_, .ok rfl⟩
      simp [settle, only, Except.map, ← hsize]
  | delete name =>
    have hj : ∀ j, c.resolve name = .ok j → j = k := fun j hj => hc j (by
      simp [addressee, hj, Except.toOption])
    have honly := resolve_only hj
    simp only [perform, delete]
    generalize c.resolve name = r at honly
    generalize (c.only k).resolve name = r' at honly
    cases honly with
    | ok h =>
      obtain ⟨rfl, rfl⟩ := h
      exact ⟨modify_only _, .ok rfl⟩
    | error e => exact ⟨rfl, .error e⟩
  | append h data =>
    obtain ⟨rfl, rfl⟩ := h
    simp only [perform, append, existing_only]
    cases c.existing _ with
    | ok s => exact ⟨modify_only _, .ok rfl⟩
    | error e => exact ⟨rfl, .error e⟩
  | read h offset length =>
    obtain ⟨rfl, rfl⟩ := h
    simp only [perform, existing_only]
    exact ⟨trivial, concurs_eq _⟩
  | getAttributes h ids =>
    obtain ⟨rfl, rfl⟩ := h
    simp only [perform, getAttributes, existing_only]
    cases c.existing _ with
    | ok s => exact ⟨modify_only _, .ok rfl⟩
    | error e => exact ⟨rfl, .error e⟩
  | updateAttributes h updates =>
    obtain ⟨rfl, rfl⟩ := h
    simp only [perform, updateAttributes, existing_only]
    cases c.existing _ with
    | ok s => exact ⟨modify_only _, .ok rfl⟩
    | error e => exact ⟨rfl, .error e⟩
  | length h =>
    obtain ⟨rfl, rfl⟩ := h
    simp only [perform, segment_only]
    exact ⟨trivial, .ok rfl⟩

/-- A call about another segment leaves the one as it is. -/
theorem perform_beside {R : q.Answer → q'.Answer → Prop} (hq : (Pairing.beside k).Asks q q' R)
    (hc : ∀ j, c.addressee q = some j → j ≠ k) :
    (c.perform q).1.only k = c.only k ∧ ∃ r', Concurs R (c.perform q).2 r' := by
  cases hq with
  | resolve name =>
    refine ⟨rfl, ?_⟩
    simp only [perform]
    cases hr : c.resolve name with
    | ok j => exact ⟨.ok j, .ok ⟨rfl, hc j (by simp [addressee, hr, Except.toOption])⟩⟩
    | error e => exact ⟨.error e, .error e⟩
  | create name updates =>
    refine ⟨?_, _, concurs_eq _⟩
    cases hr : c.resolve name with
    | ok j => simp only [perform, create, hr, settle, Except.map]
    | error e =>
      have hsize : c.segments.size ≠ k := by
        apply hc
        simp [addressee, hr]
      simp only [perform, create, hr, settle, Except.map, only, Array.getElem?_push]
      rw [if_neg fun h => hsize h.symm]
  | delete name =>
    refine ⟨?_, _, concurs_eq _⟩
    simp only [perform, delete]
    cases hr : c.resolve name with
    | ok j =>
      have hj : j ≠ k := hc j (by simp [addressee, hr, Except.toOption])
      exact modify_only_of_ne hj _
    | error e => rfl
  | append h data =>
    obtain ⟨rfl, hj⟩ := h
    refine ⟨?_, _, concurs_eq _⟩
    simp only [perform, append]
    cases c.existing _ with
    | ok s => exact modify_only_of_ne hj _
    | error e => rfl
  | read h offset length =>
    obtain ⟨rfl, -⟩ := h
    exact ⟨rfl, _, concurs_eq _⟩
  | getAttributes h ids =>
    obtain ⟨rfl, hj⟩ := h
    refine ⟨?_, _, concurs_eq _⟩
    simp only [perform, getAttributes]
    cases c.existing _ with
    | ok s => exact modify_only_of_ne hj _
    | error e => rfl
  | updateAttributes h updates =>
    obtain ⟨rfl, hj⟩ := h
    refine ⟨?_, _, concurs_eq _⟩
    simp only [perform, updateAttributes]
    cases c.existing _ with
    | ok s => exact modify_only_of_ne hj _
    | error e => rfl
  | length h =>
    obtain ⟨rfl, -⟩ := h
    exact ⟨rfl, _, concurs_eq _⟩

/-- What a call comes to that meets its fate. Calls that are refused are about nothing. -/
theorem serve_within {R : q.Answer → q'.Answer → Prop} (hq : (Pairing.within k).Asks q q' R)
    (hc : (∀ e, fate ≠ .refused e) → ∀ j, c.addressee q = some j → j = k) :
    (c.serve q fate).1.only k = ((c.only k).serve q' fate).1 ∧
      Concurs R (c.serve q fate).2 ((c.only k).serve q' fate).2 := by
  cases fate with
  | served => exact perform_within hq (hc (by simp))
  | refused e => exact ⟨rfl, .error e⟩
  | lost e => exact ⟨(perform_within hq (hc (by simp))).1, .error e⟩

theorem serve_beside {R : q.Answer → q'.Answer → Prop} (hq : (Pairing.beside k).Asks q q' R)
    (hc : (∀ e, fate ≠ .refused e) → ∀ j, c.addressee q = some j → j ≠ k) :
    (c.serve q fate).1.only k = c.only k ∧ ∃ r', Concurs R (c.serve q fate).2 r' := by
  cases fate with
  | served => exact perform_beside hq (hc (by simp))
  | refused e => exact ⟨rfl, _, .error e⟩
  | lost e => exact ⟨(perform_beside hq (hc (by simp))).1, _, .error e⟩

end Container

namespace Pool

section Proceed

variable {σ α : Type} {around : Surroundings σ} {y z : Pool σ α} {i : Nat} {p q : Program σ α}

theorem exists_goes (h : Step around y (.proceed i) z) :
    ∃ p q, y.threads i = some p ∧ p.Goes y.state q ∧ z = y.goOn i q := by
  cases h with
  | get h => exact ⟨_, _, h, .get _, rfl⟩
  | set h => exact ⟨_, _, h, .set _ _, rfl⟩
  | awaited h hr => exact ⟨_, _, h, .await true hr (by simp), rfl⟩
  | gaveUp h hr => exact ⟨_, _, h, .await false hr (by simp), rfl⟩
  | clock left h => exact ⟨_, _, h, .clock left, rfl⟩
  | pause h => exact ⟨_, _, h, .pause, rfl⟩

theorem step_of_goes (hp : y.threads i = some p) (h : p.Goes y.state q) :
    Step around y (.proceed i) (y.goOn i q) := by
  cases h with
  | get k => exact .get hp
  | set t k => exact .set hp
  | @await b ready k met hm hb =>
    cases met with
    | true => exact .awaited hp hm
    | false =>
      obtain rfl := hb rfl
      exact .gaveUp hp hm
  | clock left => exact .clock left hp
  | pause => exact .pause hp

end Proceed

/-- Calls may fail, with or without effect, and nothing is evicted from the cache. -/
def retentive : Surroundings Tables := ⟨fun _ _ => True, fun _ _ => False⟩

variable {config : Config} {k : Nat} {mine : Nat → Bool} {y y' z : Pool Tables Errand.Result}
  {e : Event Tables Errand.Result} {w v : Roster} {i : Nat}

/-- Some threads run errands on a certain segment, all others on other segments. There is always
room in the cache. -/
def Event.Parts (config : Config) (k : Nat) (mine : Nat → Bool)
    (y z : Pool Tables Errand.Result) : Event Tables Errand.Result → Prop
  | .start i p => ∃ e : Errand, p = e.program config ∧
      ∀ j, e.segment? = some j → (j = k ↔ mine i = true)
  | .call i q fate => (∀ e, fate ≠ .refused e) →
      ∀ j, y.container.addressee q = some j → (j = k ↔ mine i = true)
  | .proceed i => ∀ p q, y.threads i = some p → p.Goes y.state q → z = y.goOn i q →
      q.Through Tables.Roomy y.state
  | .finish .. | .drift => True

/-- Runs in which errands on a certain segment and errands on other segments are told apart. -/
inductive Parted (config : Config) (k : Nat) (mine : Nat → Bool) :
    Pool Tables Errand.Result → List (Event Tables Errand.Result) →
      Pool Tables Errand.Result → Prop
  | refl (y : Pool Tables Errand.Result) : Parted config k mine y [] y
  | head {y z x : Pool Tables Errand.Result} {e : Event Tables Errand.Result}
      {es : List (Event Tables Errand.Result)} (h : Step retentive y e z)
      (he : e.Parts config k mine y z) (hs : Parted config k mine z es x) :
      Parted config k mine y (e :: es) x

/-- The events are the same, but for the id of the only segment that they know. -/
inductive Event.Recurs (config : Config) (k : Nat) :
    Event Tables Errand.Result → Event Tables Errand.Result → Prop
  | start (i : Nat) {e : Errand} (he : e.place k = e) :
      Recurs config k (.start i (e.program config)) (.start i ((e.place 0).program config))
  | proceed (i : Nat) : Recurs config k (.proceed i) (.proceed i)
  | call (i : Nat) {q : Call} (hq : q.place k = q) (fate : Fate) :
      Recurs config k (.call i q fate) (.call i (q.place 0) fate)
  | finish (i : Nat) {r : Except TableError Errand.Result} (hr : r.map (·.place k) = r) :
      Recurs config k (.finish i r) (.finish i (r.map (·.place 0)))

/-- The second pool holds what goes on in the first one in a certain segment. -/
structure Twins (k : Nat) (mine : Nat → Bool) (y y' : Pool Tables Errand.Result) (w : Roster) :
    Prop where
  container : y'.container = y.container.only k
  state : y.state.Restricts k w y'.state
  own : ∀ {i}, mine i = true → Option.Rel (fun p p' => p.Mirrors (.within k)
    (fun _ => Errand.Result.Tallies (.within k)) p' w) (y.threads i) (y'.threads i)
  idle : ∀ {i}, mine i = false → y'.threads i = none
  other : ∀ {i p}, mine i = false → y.threads i = some p → ∃ p' : Program Tables Errand.Result,
    p.Mirrors (.beside k) (fun _ => Errand.Result.Tallies (.beside k)) p' (w, y'.state)

namespace Twins

variable {c c' : Container} {s s' : Tables} {p p' : Option (Program Tables Errand.Result)}

/-- A thread of the segment takes a step in both pools. -/
theorem assign_own (h : Twins k mine y y' w) (hv : w.Later v) (hc : c' = c.only k)
    (hs : s.Restricts k v s') (hi : mine i = true)
    (hp : Option.Rel (fun p p' => p.Mirrors (.within k)
      (fun _ => Errand.Result.Tallies (.within k)) p' v) p p') :
    Twins k mine (Pool.assign { y with container := c, state := s } i p)
      (Pool.assign { y' with container := c', state := s' } i p') v where
  container := hc
  state := hs
  own {j} hj := by
    by_cases hji : j = i
    · simpa [assign, hji] using hp
    · have hown := h.own hj
      simp only [assign, hji, if_false]
      generalize y.threads j = o at hown ⊢
      generalize y'.threads j = o' at hown ⊢
      cases hown with
      | none => exact .none
      | some hm => exact .some (hm.later hv)
  idle {j} hj := by
    have hji : j ≠ i := fun he => by simp [he, hi] at hj
    simpa [assign, hji] using h.idle hj
  other {j q} hj hq := by
    have hji : j ≠ i := fun he => by simp [he, hi] at hj
    obtain ⟨q', hq'⟩ := h.other hj (by simpa [assign, hji] using hq)
    exact ⟨q', hq'.later hv⟩

/-- Another thread takes a step that the segment does not notice. -/
theorem assign_other (h : Twins k mine y y' w) (hv : w.Later v) (hc : c.only k = y.container.only k)
    (hs : s.Restricts k v y'.state) (hi : mine i = false)
    (hp : ∀ q, p = some q → ∃ q' : Program Tables Errand.Result, q.Mirrors (.beside k)
      (fun _ => Errand.Result.Tallies (.beside k)) q' (v, y'.state)) :
    Twins k mine (Pool.assign { y with container := c, state := s } i p) y' v where
  container := h.container.trans hc.symm
  state := hs
  own {j} hj := by
    have hji : j ≠ i := fun he => by simp [he, hi] at hj
    have hown := h.own hj
    simp only [assign, hji, if_false]
    generalize y.threads j = o at hown ⊢
    generalize y'.threads j = o' at hown ⊢
    cases hown with
    | none => exact .none
    | some hm => exact .some (hm.later hv)
  idle := h.idle
  other {j q} hj hq := by
    by_cases hji : j = i
    · exact hp q (by simpa [assign, hji] using hq)
    · obtain ⟨q', hq'⟩ := h.other hj (by simpa [assign, hji] using hq)
      exact ⟨q', hq'.later hv⟩

end Twins

theorem asks_within {q q' : Call} {R : q.Answer → q'.Answer → Prop}
    (h : (Pairing.within k).Asks q q' R) : q.place k = q ∧ q' = q.place 0 := by
  cases h with
  | resolve | create | delete => exact ⟨rfl, rfl⟩
  | append h | read h | getAttributes h | updateAttributes h | length h =>
    obtain ⟨rfl, rfl⟩ := h
    exact ⟨rfl, rfl⟩

theorem tallies_within {r r' : Errand.Result} (h : r.Tallies (.within k) r') :
    r.place k = r ∧ r' = r.place 0 := by
  obtain ⟨id, hid, rfl⟩ := h
  cases r with
  | connector c =>
    cases c with
    | none => exact ⟨rfl, rfl⟩
    | some c =>
      obtain ⟨rfl, rfl⟩ := hid c.info.id rfl
      exact ⟨rfl, rfl⟩
  | done | versions | entries | keys | indexed => exact ⟨rfl, rfl⟩

theorem place_of_segment {e : Errand} (h : ∀ j, e.segment? = some j → j = k) :
    e.place k = e := by
  cases e with
  | index connector limit =>
    obtain rfl := h connector.info.id rfl
    rfl
  | notify segment offset =>
    obtain rfl := h segment rfl
    rfl
  | put | remove | get | getKeys | create | delete | connect => rfl

/-- A step of a thread of the segment is also taken without the others. -/
theorem Twins.step_own (h : Twins k mine y y' w) (hs : Step retentive y e z)
    (he : e.Parts config k mine y z) (hi : e.actor = some i) (hm : mine i = true) :
    ∃ e' z' v, Step retentive y' e' z' ∧ e.Recurs config k e' ∧ Twins k mine z z' v := by
  have hlater := Roster.Later.refl w
  have hown := h.own hm
  cases e with
  | drift => cases hi
  | start j p =>
    obtain rfl := Option.some.inj hi
    obtain ⟨errand, rfl, hsegment⟩ := he
    cases hs with
    | start _ hidle =>
      rw [hidle] at hown
      generalize ho : y'.threads j = o' at hown
      cases hown
      -- An errand of the segment names it by the only number that is left without the others.
      have hk : ∀ i, errand.segment? = some i → i = k := fun i hi => (hsegment i hi).2 hm
      refine ⟨_, _, w, .start ((errand.place 0).program config) ho,
        .start j (place_of_segment hk), ?_⟩
      apply h.assign_own hlater h.container h.state hm
      exact .some (Errand.mirrors_program errand fun i hi => ⟨hk i hi, rfl⟩)
  | proceed j =>
    obtain rfl := Option.some.inj hi
    obtain ⟨p, q, hp, hq, rfl⟩ := exists_goes hs
    rw [hp] at hown
    generalize ho : y'.threads j = o' at hown
    cases hown with
    | some hp' =>
      obtain ⟨q', hq', hecho⟩ := (hp'.echoes h.state).goes h.state hq
      obtain ⟨v, hv, hstate, hmirror⟩ := hecho.advance h.state (he p q hp hq rfl)
      refine ⟨_, _, v, step_of_goes ho hq', .proceed j, ?_⟩
      exact h.assign_own hv h.container hstate hm (.some hmirror)
  | call j q fate =>
    obtain rfl := Option.some.inj hi
    cases hs with
    | call _ hp _ =>
      rw [hp] at hown
      generalize ho : y'.threads j = o' at hown
      cases hown with
      | @some _ p' hp' =>
        have hecho := hp'.echoes h.state
        cases p' with
        | call q' next' =>
          obtain ⟨R, hq, hnext⟩ := hecho
          obtain ⟨hserve, hanswer⟩ :=
            Container.serve_within hq fun hr i hi => (he hr i hi).2 hm
          obtain ⟨hk, rfl⟩ := asks_within hq
          rw [← h.container] at hserve hanswer
          refine ⟨_, _, w, .call fate ho trivial, .call j hk fate, ?_⟩
          exact h.assign_own hlater hserve.symm h.state hm (.some (hnext _ _ hanswer))
        | _ => exact hecho.elim
  | finish j r =>
    obtain rfl := Option.some.inj hi
    cases hs with
    | returned hp =>
      rw [hp] at hown
      generalize ho : y'.threads j = o' at hown
      cases hown with
      | @some _ p' hp' =>
        have hecho := hp'.echoes h.state
        cases p' with
        | ret b =>
          obtain ⟨hk, rfl⟩ := tallies_within hecho
          refine ⟨_, _, w, .returned ho, .finish j (congrArg Except.ok hk), ?_⟩
          exact h.assign_own hlater h.container h.state hm .none
        | _ => exact hecho.elim
    | failed hp =>
      rw [hp] at hown
      generalize ho : y'.threads j = o' at hown
      cases hown with
      | @some _ p' hp' =>
        have hecho := hp'.echoes h.state
        cases p' with
        | fail e' =>
          obtain rfl := hecho
          refine ⟨_, _, w, .failed ho, .finish j rfl, ?_⟩
          exact h.assign_own hlater h.container h.state hm .none
        | _ => exact hecho.elim

/-- A step of another thread changes nothing for the segment. -/
theorem Twins.step_other (h : Twins k mine y y' w) (hs : Step retentive y e z)
    (he : e.Parts config k mine y z) (hi : e.actor = some i) (hm : mine i = false) :
    ∃ v, Twins k mine z y' v := by
  have hlater := Roster.Later.refl w
  have halike : (Pairing.beside k).alike (w, y'.state) y.state y.state := ⟨rfl, h.state⟩
  cases e with
  | drift => cases hi
  | start j p =>
    obtain rfl := Option.some.inj hi
    obtain ⟨errand, rfl, hsegment⟩ := he
    cases hs with
    | start _ hidle =>
      have hk : ∀ i, errand.segment? = some i →
          (Pairing.beside k).segments i (errand.segment?.getD 0) := by
        intro i hi
        refine ⟨by rw [hi]; rfl, fun hik => ?_⟩
        rw [(hsegment i hi).1 hik] at hm
        cases hm
      refine ⟨w, h.assign_other hlater rfl h.state hm fun q hq => ?_⟩
      obtain rfl := Option.some.inj hq
      exact ⟨_, Errand.mirrors_program errand hk⟩
  | proceed j =>
    obtain rfl := Option.some.inj hi
    obtain ⟨p, q, hp, hq, rfl⟩ := exists_goes hs
    obtain ⟨p', hp'⟩ := h.other hm hp
    obtain ⟨q', -, hecho⟩ := (hp'.echoes halike).goes halike hq
    obtain ⟨⟨v, _⟩, ⟨hv, rfl⟩, ⟨-, hstate⟩, hmirror⟩ :=
      hecho.advance halike (he p q hp hq rfl)
    refine ⟨v, h.assign_other hv rfl hstate hm fun q hq => ?_⟩
    obtain rfl := Option.some.inj hq
    exact ⟨_, hmirror⟩
  | call j q fate =>
    obtain rfl := Option.some.inj hi
    cases hs with
    | call _ hp _ =>
      obtain ⟨p', hp'⟩ := h.other hm hp
      have hecho := hp'.echoes halike
      cases p' with
      | call q' next' =>
        obtain ⟨R, hq, hnext⟩ := hecho
        obtain ⟨hserve, r', hanswer⟩ := Container.serve_beside hq fun hr i hi hik => by
          rw [(he hr i hi).1 hik] at hm
          cases hm
        refine ⟨w, h.assign_other hlater hserve h.state hm fun p hp => ?_⟩
        obtain rfl := Option.some.inj hp
        exact ⟨_, hnext _ _ hanswer⟩
      | _ => exact hecho.elim
  | finish j r =>
    obtain rfl := Option.some.inj hi
    have hz : z = y.assign j none := by
      cases hs <;> rfl
    subst hz
    exact ⟨w, h.assign_other hlater rfl h.state hm fun q hq => by cases hq⟩

/-- The run that is left of a run when the others are taken out of it. -/
theorem Twins.steps {es : List (Event Tables Errand.Result)} (h : Twins k mine y y' w)
    (hs : Parted config k mine y es z) :
    ∃ es' z' v, Steps retentive y' es' z' ∧
      List.Forall₂ (Event.Recurs config k) (es.filter (·.actor.any mine)) es' ∧
      Twins k mine z z' v := by
  induction hs generalizing y' w with
  | refl y => exact ⟨[], y', w, .refl y', .nil, h⟩
  | @head y z x e es hstep he _ ih =>
    obtain ⟨i, hi⟩ : ∃ i, e.actor = some i := by
      cases e with
      | drift => cases hstep with | drift hd => exact hd.elim
      | start | proceed | call | finish => exact ⟨_, rfl⟩
    have hany : e.actor.any mine = mine i := by rw [hi]; rfl
    rw [List.filter_cons, hany]
    cases hm : mine i with
    | true =>
      obtain ⟨e', z', v, hstep', hrecurs, htwins⟩ := h.step_own hstep he hi hm
      obtain ⟨es', x', u, hsteps, hevents, hend⟩ := ih htwins
      exact ⟨e' :: es', x', u, .head hstep' hsteps, .cons hrecurs hevents, hend⟩
    | false =>
      obtain ⟨v, htwins⟩ := h.step_other hstep he hi hm
      exact ih htwins

/-- What an extension remembers of a segment is what another one remembers of its first one. -/
structure Recalls (k : Nat) (t u : Tables) : Prop where
  state : t.stateOf? k = u.stateOf? 0
  cached : ∀ hash : KeyHash, t.cache.get? ⟨k, hash⟩ = u.cache.get? ⟨0, hash⟩
  locked : ∀ hash : KeyHash,
    t.locks.held.contains ⟨k, hash⟩ = u.locks.held.contains ⟨0, hash⟩

theorem recalls_of_restricts {t u : Tables} (h : t.Restricts k w u) : Recalls k t u where
  state := by
    have htracked := h.tracked
    unfold Tables.stateOf?
    generalize t.tracked[k]? = o at htracked
    generalize u.tracked[0]? = o' at htracked
    cases htracked with
    | none => rfl
    | some hr => exact congrArg some (h.state hr)
  cached := h.cached
  locked := h.locked

/-- Whatever goes on in a segment, also one whose name was another's before, goes on in the same way
in a run of the same errands in which there are no other segments and nothing is asked of them. Its
bytes, its attributes and what is remembered of it are the same in the end. This leaves out indexers
that meet another segment under the name of the one that they know. -/
theorem segments_isolated {c : Container} {es : List (Event Tables Errand.Result)}
    (h : Parted config k mine ⟨c, .initial config, fun _ => none⟩ es z) :
    ∃ es' z', Steps retentive ⟨c.only k, .initial config, fun _ => none⟩ es' z' ∧
      List.Forall₂ (Event.Recurs config k) (es.filter (·.actor.any mine)) es' ∧
      z'.container = z.container.only k ∧ Recalls k z.state z'.state := by
  have hstart : Twins k mine ⟨c, .initial config, fun _ => none⟩
      ⟨c.only k, .initial config, fun _ => none⟩ ⟨[], 0⟩ :=
    ⟨rfl, Tables.restricts_initial config k, fun _ => .none, fun _ => rfl, fun _ h => by cases h⟩
  obtain ⟨es', z', w, hsteps, hevents, htwins⟩ := hstart.steps h
  exact ⟨es', z', hsteps, hevents, htwins.container, recalls_of_restricts htwins.state⟩

section Play

/-- There is room wherever the program goes until its next stop. -/
def ample : Program Tables Errand.Result → Tables → Bool
  | .get k, t => ample (k t) t
  | .set u k, _ => decide (u.cache.size < u.cache.capacity) && ample k u
  | .ret _, _ | .fail _, _ | .await .., _ | .clock _, _ | .call .., _ | .pause .., _ => true

theorem through_of_ample {p : Program Tables Errand.Result} {t : Tables} (h : ample p t = true) :
    p.Through Tables.Roomy t := by
  induction p generalizing t with
  | get k ih => exact ih t h
  | set u k ih =>
    rw [ample, Bool.and_eq_true, decide_eq_true_iff] at h
    exact ⟨h.1, ih h.2⟩
  | ret | fail | await | clock | call | pause => trivial

def amplyGoes (t : Tables) : Program Tables Errand.Result → Bool
  | .await _ ready k => ample (k (ready t)) t
  | .clock k => ample (k true) t && ample (k false) t
  | .pause _ k => ample k t
  | p => ample p t

theorem through_of_goes {p q : Program Tables Errand.Result} {t : Tables}
    (h : amplyGoes t p = true) (hq : p.Goes t q) : q.Through Tables.Roomy t := by
  apply through_of_ample
  cases hq with
  | get | set | pause => exact h
  | await met hm => exact hm ▸ h
  | clock left =>
    have h := Bool.and_eq_true_iff.1 h
    cases left with
    | true => exact h.1
    | false => exact h.2

def keepsApart (k : Nat) (mine : Nat → Bool) (y : Pool Tables Errand.Result) :
    Event Tables Errand.Result → Bool
  | .call i q _ => (y.container.addressee q).all fun j => (j == k) == mine i
  | .proceed i => (y.threads i).all (amplyGoes y.state)
  | .start .. | .finish .. => true
  | .drift => false

def playsApart (k : Nat) (mine : Nat → Bool) :
    List (Turn Errand.Result) → Pool Tables Errand.Result → Bool
  | [], _ => true
  | t :: ts, y =>
    match t.take y with
    | none => playsApart k mine ts y
    | some (e, z) => keepsApart k mine y e && playsApart k mine ts z

theorem parts_of_keepsApart (h : keepsApart k mine y e = true)
    (hs : ∀ i p, e = .start i p → ∃ errand : Errand, p = errand.program config ∧
      ∀ j, errand.segment? = some j → (j = k ↔ mine i = true)) : e.Parts config k mine y z := by
  cases e with
  | start i p => exact hs i p rfl
  | call i q fate =>
    intro _ j hj
    rw [keepsApart, hj] at h
    have h := eq_of_beq h
    rw [← h]
    exact beq_iff_eq.symm
  | proceed i =>
    intro p q hp hq _
    rw [keepsApart, hp] at h
    exact through_of_goes h hq
  | finish => trivial
  | drift => cases h

theorem step_retentive {around : Surroundings Tables} (h : Step around y e z) (he : e ≠ .drift) :
    Step retentive y e z := by
  cases h with
  | start p h => exact .start p h
  | get h => exact .get h
  | set h => exact .set h
  | awaited h hr => exact .awaited h hr
  | gaveUp h hr => exact .gaveUp h hr
  | clock left h => exact .clock left h
  | pause h => exact .pause h
  | call fate h => exact .call fate h trivial
  | returned h => exact .returned h
  | failed h => exact .failed h
  | drift => exact absurd rfl he

/-- When threads take turns, the run is parted if every step keeps to its side. -/
theorem parted_play {ts : List (Turn Errand.Result)} (h : playsApart k mine ts y = true)
    (hs : ∀ i p, Turn.start i p ∈ ts → ∃ errand : Errand, p = errand.program config ∧
      ∀ j, errand.segment? = some j → (j = k ↔ mine i = true)) :
    Parted config k mine y (play ts y).1 (play ts y).2 := by
  induction ts generalizing y with
  | nil => exact .refl y
  | cons t ts ih =>
    have hrest := fun i p hp => hs i p (List.mem_cons_of_mem t hp)
    unfold play
    unfold playsApart at h
    cases ht : t.take y with
    | none =>
      rw [ht] at h
      exact ih h hrest
    | some r =>
      obtain ⟨e, x⟩ := r
      rw [ht] at h
      obtain ⟨he, hx⟩ := Bool.and_eq_true_iff.1 h
      obtain ⟨hstep, hstart⟩ := step_of_take ht
      have hdrift : e ≠ .drift := by
        rintro rfl
        cases he
      have hparts : e.Parts config k mine y x := parts_of_keepsApart he fun i p hp =>
        hs i p (hstart i p hp ▸ List.mem_cons_self)
      exact .head (step_retentive hstep hdrift) hparts (ih hx hrest)

/-- A table is deleted and created again when a write to it has been appended and not yet indexed.
The write holds the lock of a bucket of the old table and fails to persist its links, while the same
bucket of the new table is written to and read. -/
theorem segments_isolated_amid_recreation :
    ∃ (config : Config) (c : Container) (es : List (Event Tables Errand.Result))
      (z : Pool Tables Errand.Result),
      Parted config 1 (2 ≤ ·) ⟨c, .initial config, fun _ => none⟩ es z ∧
      (es.any fun e => match e with
        | .call 1 (.append 0 _) .served => true
        | _ => false) = true ∧
      (es.any fun e => match e with
        | .finish 1 (.error e) => decide (e = .segmentNotFound "t")
        | _ => false) = true ∧
      (es.any fun e => match e with
        | .finish 4 (.ok r) => decide (r = .entries [some ⟨⟨[97], some 0⟩, [1]⟩])
        | _ => false) = true ∧
      ∃ es' z', Steps retentive ⟨c.only 1, .initial config, fun _ => none⟩ es' z' ∧
        List.Forall₂ (Event.Recurs config 1) (es.filter (·.actor.any (2 ≤ ·))) es' ∧
        z'.container = z.container.only 1 ∧ Recalls 1 z.state z'.state := by
  let config : Config := .parity .inline
  let put (v : UInt8) : Errand := .put "t" [⟨⟨[97], none⟩, [v]⟩]
  let go (i n : Nat) : List (Turn Errand.Result) := List.replicate n (.go i)
  let turns : List (Turn Errand.Result) :=
    .start 1 ((put 9).program config) :: go 1 18 ++
    .start 0 ((Errand.delete "t" false).program config) :: go 0 12 ++
    .start 2 ((Errand.create "t").program config) :: go 2 6 ++
    .start 3 ((put 1).program config) :: go 3 30 ++ go 1 30 ++
    .start 4 ((Errand.get "t" [[97]]).program config) :: go 4 30
  let y : Pool Tables Errand.Result := ⟨.solo, .initial config, fun _ => none⟩
  have hstarts : ∀ i p, Turn.start i p ∈ turns → ∃ e : Errand, p = e.program config ∧
      ∀ j, e.segment? = some j → (j = 1 ↔ decide (2 ≤ i) = true) := by
    intro i p hp
    simp only [turns, go, List.cons_append, List.append_assoc, List.mem_cons,
      List.mem_append, List.mem_replicate, Turn.start.injEq, reduceCtorEq, and_false, or_false,
      false_or] at hp
    rcases hp with ⟨rfl, rfl⟩ | ⟨rfl, rfl⟩ | ⟨rfl, rfl⟩ | ⟨rfl, rfl⟩ | ⟨rfl, rfl⟩
    all_goals exact ⟨_, rfl, fun j hj => by cases hj⟩
  have hparted : Parted config 1 (2 ≤ ·) y (play turns y).1 (play turns y).2 :=
    parted_play (by decide +kernel) hstarts
  exact ⟨config, .solo, _, _, hparted, by decide +kernel, by decide +kernel, by decide +kernel,
    segments_isolated hparted⟩

end Play

end Pool
end KeyedLog
