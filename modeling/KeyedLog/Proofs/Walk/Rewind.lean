import KeyedLog.Index.Access
import KeyedLog.Proofs.Program.Container
import KeyedLog.Proofs.Walk.VisitAnywhere
import Mathlib.Data.Nat.Find

/-! Rewinding along persisted backpointers, whatever these are: where it leads, how it fails, and
how many lookups it takes. -/
namespace KeyedLog

open Program

def Attributes.chainFrom (a : Attributes) (head : Option Nat) : Nat → Option Nat
  | 0 => head
  | k + 1 => (a.chainFrom head k).bind fun x => a[AttributeId.backpointer x]?

theorem Attributes.chainFrom_succ {a : Attributes} {head : Option Nat} {k x : Nat}
    (hx : a.chainFrom head k = some x) :
    a.chainFrom head (k + 1) = a[AttributeId.backpointer x]? := by
  unfold chainFrom
  rw [hx]
  rfl

def Container.lookedUp (c : Container) (segment n : Nat) : Container :=
  c.modify segment fun s => { s with attributeReads := s.attributeReads + n }

namespace Container

variable {c : Container} {name : String} {segment : Nat}

theorem lookedUp_zero (c : Container) (segment : Nat) : c.lookedUp segment 0 = c := by
  refine congrArg (Container.mk c.id) (Array.ext (Array.size_modify ..) fun i h _ => ?_)
  rw [Array.getElem_modify]
  split <;> rfl

theorem lookedUp_succ (c : Container) (segment n : Nat) :
    (c.lookedUp segment n).lookedUp segment 1 = c.lookedUp segment (n + 1) := by
  unfold lookedUp modify
  refine congrArg (Container.mk c.id) (Array.ext (by simp) fun i h _ => ?_)
  simp only [Array.getElem_modify]
  split <;> rfl

theorem resolve_lookedUp (n : Nat) :
    (c.lookedUp segment n).resolve name = c.resolve name :=
  resolve_modify _ fun _ => rfl

theorem attributes_lookedUp (h : c.resolve name = .ok segment) (n : Nat) :
    ((c.lookedUp segment n).segment segment).attributes = (c.segment segment).attributes := by
  unfold lookedUp
  rw [segment_modify _ (live_of_resolve h).1]

end Container

namespace Tables.Rewind

variable {σ : Type} {c c' : Container} {s : σ} {name : String} {segment before maxHops k n : Nat}
  {head : Option Nat} {chain : Nat → Option Nat} {qs : List Call}
  {r r' : Except TableError (Option Nat)}

/-- In this place of a chain lies an entry that is not before an offset, and the chain leads
backward from it or ends. -/
def Passes (chain : Nat → Option Nat) (before k : Nat) : Prop :=
  ∃ x, chain k = some x ∧ before ≤ x ∧ ∀ y, chain (k + 1) = some y → y < x

/-- How rewinding ends in this place of a chain, and after how many lookups. The entry itself is
looked up only if it is not before the offset. -/
inductive Ends (chain : Nat → Option Nat) (before maxHops k : Nat) :
    Except TableError (Option Nat) → Nat → Prop
  | arrived (h : ∀ x, chain k = some x → x < before) :
    Ends chain before maxHops k (.ok (chain k)) k
  | corrupted {x : Nat} (hx : chain k = some x) (hle : before ≤ x)
    (h : (∃ y, chain (k + 1) = some y ∧ x ≤ y) ∨ k = maxHops) :
    Ends chain before maxHops k (.error (.corruptedBucket x (k + 1))) (k + 1)

def hop (segment x : Nat) : Call := .getAttributes segment [.backpointer x]

def visited (chain : Nat → Option Nat) (n : Nat) : List Nat :=
  (List.range n).map fun i => (chain i).getD 0

theorem visited_succ {x : Nat} (hx : chain n = some x) :
    visited chain (n + 1) = visited chain n ++ [x] := by
  unfold visited
  rw [List.range_succ, List.map_append, List.map_singleton, hx]
  rfl

/-- A chain that leads backward for long enough is too long, so rewinding ends somewhere. -/
theorem exists_ends (chain : Nat → Option Nat) (before maxHops : Nat) :
    ∃ k ≤ maxHops, (∀ i < k, Passes chain before i) ∧ ∃ r n, Ends chain before maxHops k r n := by
  classical
  have hstop : ∃ k, ¬ Passes chain before k ∨ k = maxHops := ⟨maxHops, .inr rfl⟩
  have hpassed (i : Nat) (hi : i < Nat.find hstop) : Passes chain before i :=
    Classical.byContradiction fun h => Nat.find_min hstop hi (.inl h)
  refine ⟨Nat.find hstop, Nat.find_min' hstop (.inr rfl), hpassed, ?_⟩
  by_cases harrived : ∀ x, chain (Nat.find hstop) = some x → x < before
  · exact ⟨_, _, .arrived harrived⟩
  · obtain ⟨x, hx, hlt⟩ : ∃ x, chain (Nat.find hstop) = some x ∧ ¬ x < before := by
      simpa only [not_forall, exists_prop] using harrived
    have hle : before ≤ x := Nat.le_of_not_lt hlt
    refine ⟨_, _, .corrupted hx hle ((Nat.find_spec hstop).imp_left fun hnot => ?_)⟩
    refine Classical.byContradiction fun hforward => hnot ⟨x, hx, hle, fun y hy => ?_⟩
    exact Nat.lt_of_not_le fun hxy => hforward ⟨y, hy, hxy⟩

theorem runs_lookup (h : c.resolve name = .ok segment) (n x : Nat) :
    (attributeOf segment (.backpointer x)).Runs (c.lookedUp segment n) s [hop segment x]
      (.ok (c.segment segment).attributes[AttributeId.backpointer x]?)
      (c.lookedUp segment (n + 1)) s := by
  have hresolve : (c.lookedUp segment n).resolve name = .ok segment :=
    (Container.resolve_lookedUp n).trans h
  have hperform := Container.perform_getAttributes hresolve [.backpointer x]
  rw [Container.attributes_lookedUp h] at hperform
  rw [← Container.lookedUp_succ]
  exact (runs_request hperform).bind_nil (runs_pure _)

/-- Rewinding goes on behind the entries that it passes. -/
theorem runs_of_passes (h : c.resolve name = .ok segment)
    (hchain : (c.segment segment).attributes.chainFrom head = chain)
    (hpassed : ∀ i < k, Passes chain before i) (hk : k ≤ maxHops)
    (hrest : (rewind segment before k (maxHops - k) (chain k)).Runs (c.lookedUp segment k) s qs r
      c' s) :
    (rewind segment before 0 maxHops head).Runs c s
      ((visited chain k).map (hop segment) ++ qs) r c' s := by
  induction k generalizing qs with
  | zero =>
    rw [Container.lookedUp_zero, ← hchain] at hrest
    exact hrest
  | succ k ih =>
    obtain ⟨x, hx, hle, hback⟩ := hpassed k (Nat.lt_succ_self k)
    have hnext := Attributes.chainFrom_succ (hchain ▸ hx)
    rw [hchain] at hnext
    rw [visited_succ hx, List.map_append, List.append_assoc]
    refine ih (fun i hi => hpassed i (Nat.lt_succ_of_lt hi)) (Nat.le_of_succ_le hk) ?_
    rw [hx, show maxHops - k = maxHops - (k + 1) + 1 by omega]
    unfold rewind
    rw [if_neg (Nat.not_lt.2 hle)]
    refine (runs_lookup h k x).bind ?_
    rw [← hnext]
    have hsmaller : (chain (k + 1)).any (x ≤ ·) = false := by
      cases hy : chain (k + 1) with
      | none => rfl
      | some y => exact decide_eq_false (Nat.not_le.2 (hback y hy))
    rw [hsmaller]
    exact hrest

/-- In the place where it ends, rewinding makes one more lookup or none. -/
theorem Ends.runs (h : c.resolve name = .ok segment)
    (hchain : (c.segment segment).attributes.chainFrom head = chain)
    (hends : Ends chain before maxHops k r n) :
    ∃ qs, (visited chain k).map (hop segment) ++ qs = (visited chain n).map (hop segment) ∧
      (rewind segment before k (maxHops - k) (chain k)).Runs (c.lookedUp segment k) s qs r
        (c.lookedUp segment n) s := by
  cases hends with
  | arrived hbelow =>
    refine ⟨[], List.append_nil _, ?_⟩
    cases hx : chain k with
    | none =>
      unfold rewind
      exact runs_pure none
    | some x =>
      unfold rewind
      rw [if_pos (hbelow x hx)]
      exact runs_pure (some x)
  | @corrupted x hx hle hbad =>
    have hnext := Attributes.chainFrom_succ (hchain ▸ hx)
    rw [hchain] at hnext
    have hfail : (Program.fail (.corruptedBucket x (k + 1)) : Program σ (Option Nat)).Runs
        (c.lookedUp segment (k + 1)) s [] (.error (.corruptedBucket x (k + 1)))
        (c.lookedUp segment (k + 1)) s := ⟨rfl, rfl⟩
    refine ⟨[hop segment x], by rw [visited_succ hx, List.map_append]; rfl, ?_⟩
    rw [hx]
    unfold rewind
    rw [if_neg (Nat.not_lt.2 hle)]
    refine (runs_lookup h k x).bind_nil ?_
    rw [← hnext]
    split
    · exact hfail
    · next hsmaller =>
      -- The backpointer is sound, so it is the number of hops that is too great.
      rcases hbad with ⟨y, hy, hxy⟩ | rfl
      · exact absurd (by rw [hy]; exact decide_eq_true hxy) hsmaller
      · rw [Nat.sub_self]
        exact hfail

/-- The place where rewinding ends determines all of it. -/
theorem Ends.rewinds (h : c.resolve name = .ok segment)
    (hchain : (c.segment segment).attributes.chainFrom head = chain)
    (hpassed : ∀ i < k, Passes chain before i) (hk : k ≤ maxHops)
    (hends : Ends chain before maxHops k r n) :
    (rewind segment before 0 maxHops head).Runs c s ((visited chain n).map (hop segment)) r
      (c.lookedUp segment n) s := by
  obtain ⟨qs, hqs, hruns⟩ := hends.runs h hchain (s := s)
  rw [← hqs]
  exact runs_of_passes h hchain hpassed hk hruns

/-- The entries that are looked up lie in the first places of the chain, of which there are enough.
-/
theorem Ends.visits (hpassed : ∀ i < k, Passes chain before i)
    (hends : Ends chain before maxHops k r n) :
    ∀ i (hi : i < (visited chain n).length), chain i = some (visited chain n)[i] := by
  intro i hi
  have hn : i < n := by simpa [visited] using hi
  have hsome : ∃ x, chain i = some x := by
    rcases Nat.lt_or_ge i k with hlt | hge
    · obtain ⟨x, hx, -⟩ := hpassed i hlt
      exact ⟨x, hx⟩
    · cases hends with
      | arrived => omega
      | @corrupted x hx =>
        obtain rfl : i = k := by omega
        exact ⟨x, hx⟩
  obtain ⟨x, hx⟩ := hsome
  simp [visited, hx]

/-- Whatever the persisted backpointers are, rewinding ends after no more lookups than one for each
hop that is allowed and one besides. It comes to the first entry of the chain that lies before the
offset, or to the end of the chain; or it fails where it meets a backpointer that does not lead
backward, or where there are too many hops. -/
theorem rewind_first_before (c : Container) (s : σ) (name : String) (segment before maxHops : Nat)
    (head : Option Nat) (h : c.resolve name = .ok segment) :
    let chain := (c.segment segment).attributes.chainFrom head
    ∃ (xs : List Nat) (r : Except TableError (Option Nat)),
      (rewind segment before 0 maxHops head).run true c s =
        (r, c.lookedUp segment xs.length, s) ∧
      (rewind segment before 0 maxHops head).calls true c s = xs.map (hop segment) ∧
      xs.length ≤ maxHops + 1 ∧
      (∀ i (hi : i < xs.length), chain i = some xs[i]) ∧
      (∀ o, r = .ok o ↔ ∃ k ≤ maxHops, (∀ i < k, Passes chain before i) ∧ chain k = o ∧
        ∀ x, o = some x → x < before) ∧
      ∀ e, r = .error e ↔ ∃ k ≤ maxHops, ∃ x, (∀ i < k, Passes chain before i) ∧
        chain k = some x ∧ before ≤ x ∧
        ((∃ y, chain (k + 1) = some y ∧ x ≤ y) ∨ k = maxHops) ∧ e = .corruptedBucket x (k + 1) := by
  intro chain
  obtain ⟨k, hk, hpassed, r, n, hends⟩ := exists_ends chain before maxHops
  have hruns := hends.rewinds h rfl hpassed hk (s := s)
  have hlength : (visited chain n).length = n := by simp [visited]
  have houtcome {k' n' : Nat} {r' : Except TableError (Option Nat)} (hk' : k' ≤ maxHops)
      (hpassed' : ∀ i < k', Passes chain before i) (hends' : Ends chain before maxHops k' r' n') :
      r = r' :=
    congrArg Prod.fst (hruns.run.symm.trans (hends'.rewinds h rfl hpassed' hk').run)
  refine ⟨visited chain n, r, by rw [hlength]; exact hruns.run, hruns.calls, ?_,
    hends.visits hpassed, fun o => ⟨?_, ?_⟩, fun e => ⟨?_, ?_⟩⟩
  · rw [hlength]
    cases hends with
    | arrived => exact Nat.le_succ_of_le hk
    | corrupted => exact Nat.succ_le_succ hk
  · rintro rfl
    cases hends with
    | arrived hbelow => exact ⟨k, hk, hpassed, rfl, hbelow⟩
  · rintro ⟨k, hk, hpassed, rfl, hbelow⟩
    exact houtcome hk hpassed (.arrived hbelow)
  · rintro rfl
    cases hends with
    | corrupted hx hle hbad => exact ⟨k, hk, _, hpassed, hx, hle, hbad, rfl⟩
  · rintro ⟨k, hk, x, hpassed, hx, hle, hbad, rfl⟩
    exact houtcome hk hpassed (.corrupted hx hle hbad)

/-- Behind two entries lies one that was there before, which is found if two hops are allowed. An
entry that is its own predecessor is met at once. -/
theorem rewind_first_before_of_two_hops :
    let c : Container := ⟨0, #[⟨"s", [], Attributes.updateAll ∅ [.replace (.backpointer 60) 40,
      .replace (.backpointer 40) 20, .replace (.backpointer 80) 80], false, 0⟩]⟩
    let run (maxHops head : Nat) := (rewind 0 30 0 maxHops (some head)).run true c ()
    c.resolve "s" = .ok 0 ∧ (run 2 60).1 = .ok (some 20) ∧
      (run 1 60).1 = .error (.corruptedBucket 40 2) ∧
      (run 2 80).1 = .error (.corruptedBucket 80 1) := by
  intro c run
  have hs : c.resolve "s" = .ok 0 := by decide +kernel
  have hnext : (c.segment 0).attributes.chainFrom (some 60) 1 = some 40 := by decide +kernel
  have hlast : (c.segment 0).attributes.chainFrom (some 60) 2 = some 20 := by decide +kernel
  have hfirst (i : Nat) (hi : i < 1) :
      Passes ((c.segment 0).attributes.chainFrom (some 60)) 30 i := by
    obtain rfl : i = 0 := by omega
    refine ⟨60, rfl, by decide, fun y hy => ?_⟩
    have hy := Option.some.inj (hnext.symm.trans hy)
    omega
  have hsecond (i : Nat) (hi : i < 2) :
      Passes ((c.segment 0).attributes.chainFrom (some 60)) 30 i := by
    rcases Nat.lt_succ_iff_lt_or_eq.1 hi with hlt | rfl
    · exact hfirst i hlt
    · refine ⟨40, hnext, by decide, fun y hy => ?_⟩
      have hy := Option.some.inj (hlast.symm.trans hy)
      omega
  obtain ⟨xs, r, hfar, -, -, -, hok, -⟩ := rewind_first_before c () "s" 0 30 2 (some 60) hs
  obtain ⟨xs', r', hnear, -, -, -, -, herror⟩ := rewind_first_before c () "s" 0 30 1 (some 60) hs
  obtain ⟨xs'', r'', hloop, -, -, -, -, hcycle⟩ := rewind_first_before c () "s" 0 30 2 (some 80) hs
  refine ⟨hs, ?_, ?_, ?_⟩
  · exact (congrArg Prod.fst hfar).trans ((hok _).2
      ⟨2, le_rfl, hsecond, hlast, by simp⟩)
  · exact (congrArg Prod.fst hnear).trans ((herror _).2
      ⟨1, le_rfl, 40, hfirst, hnext, by decide, .inr rfl, rfl⟩)
  · exact (congrArg Prod.fst hloop).trans ((hcycle _).2
      ⟨0, by decide, 80, by simp, rfl, by decide, .inl ⟨80, by decide +kernel, le_rfl⟩, rfl⟩)

end Tables.Rewind
end KeyedLog
