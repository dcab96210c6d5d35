import KeyedLog.Proofs.Watermark.Basic
import Mathlib.Data.List.Basic
import Mathlib.Order.Bounds.Basic

/-! Coverage: a watermark stands at the first gap in what was reported as done, whatever the reports
were and in whatever order they came in. -/
namespace KeyedLog.Watermark

inductive Report where
  /-- Everything below an offset is done. -/
  | raise (offset : Nat)
  /-- A range is done, of which nothing is left if it ends where it starts or before. -/
  | complete (start stop : Nat)
deriving DecidableEq, Repr

def Report.Covers : Report → Nat → Prop
  | .raise offset, x => x < offset
  | .complete start stop, x => start ≤ x ∧ x < stop

def take (w : Watermark) : Report → Watermark
  | .raise offset => (w.raise offset).1
  | .complete start stop => (w.complete start stop).1

def takeAll (w : Watermark) (reports : List Report) : Watermark := reports.foldl take w

/-- Everything below an offset is done. Nothing else is known. -/
def startingAt (offset : Nat) : Watermark := { initial with offset }

def Reported (offset : Nat) (reports : List Report) (x : Nat) : Prop :=
  x < offset ∨ ∃ r ∈ reports, r.Covers x

def Done (w : Watermark) (x : Nat) : Prop :=
  x < w.offset ∨ ∃ r ∈ w.completed, r.1 ≤ x ∧ x < r.2

/-- The ranges are in order, and between the watermark and each of them there is a gap. -/
structure Tidy (w : Watermark) : Prop where
  sorted : w.completed.Pairwise fun r s => r.1 < s.1
  ahead : ∀ r ∈ w.completed, w.offset < r.1

variable {w : Watermark} {x offset start stop : Nat} {ranges : List (Nat × Nat)}

theorem done_absorb :
    (x < (absorb offset ranges).1 ∨ ∃ r ∈ (absorb offset ranges).2, r.1 ≤ x ∧ x < r.2) ↔
      x < offset ∨ ∃ r ∈ ranges, r.1 ≤ x ∧ x < r.2 := by
  induction ranges generalizing offset with
  | nil => rfl
  | cons s ranges ih =>
    unfold absorb
    split
    · next hs =>
      rw [ih, List.exists_mem_cons_iff]
      have hmax : x < max offset s.2 ↔ x < offset ∨ (s.1 ≤ x ∧ x < s.2) := by omega
      rw [hmax, or_assoc]
    · rfl

theorem tidy_absorb (hs : ranges.Pairwise fun r s => r.1 < s.1) :
    (absorb offset ranges).2.Pairwise (fun r s => r.1 < s.1) ∧
      ∀ r ∈ (absorb offset ranges).2, (absorb offset ranges).1 < r.1 := by
  induction ranges generalizing offset with
  | nil => exact ⟨hs, fun r hr => by cases hr⟩
  | cons s ranges ih =>
    obtain ⟨hlt, hs'⟩ := List.pairwise_cons.1 hs
    unfold absorb
    split
    · exact ih hs'
    · next hgap =>
      refine ⟨hs, fun r hr => ?_⟩
      rcases List.mem_cons.1 hr with rfl | hr
      · exact Nat.lt_of_not_le hgap
      · exact Nat.lt_trans (Nat.lt_of_not_le hgap) (hlt r hr)

theorem exists_mem_insertRange :
    (∃ r ∈ insertRange start stop ranges, r.1 ≤ x ∧ x < r.2) ↔
      (start ≤ x ∧ x < stop) ∨ ∃ r ∈ ranges, r.1 ≤ x ∧ x < r.2 := by
  induction ranges with
  | nil => simp [insertRange]
  | cons s ranges ih =>
    unfold insertRange
    split
    · exact List.exists_mem_cons_iff ..
    · split
      · next heq =>
        have hmax : s.1 ≤ x ∧ x < max s.2 stop ↔
            (start ≤ x ∧ x < stop) ∨ (s.1 ≤ x ∧ x < s.2) := by omega
        rw [List.exists_mem_cons_iff, List.exists_mem_cons_iff, hmax, or_assoc]
      · rw [List.exists_mem_cons_iff, List.exists_mem_cons_iff, ih, or_left_comm]

theorem sorted_insertRange (hs : ranges.Pairwise fun r s => r.1 < s.1) :
    (insertRange start stop ranges).Pairwise fun r s => r.1 < s.1 := by
  induction ranges with
  | nil => exact List.pairwise_singleton ..
  | cons s ranges ih =>
    obtain ⟨hlt, hs'⟩ := List.pairwise_cons.1 hs
    unfold insertRange
    split
    · next hstart =>
      refine List.pairwise_cons.2 ⟨fun r hr => ?_, hs⟩
      rcases List.mem_cons.1 hr with rfl | hr
      · exact hstart
      · exact Nat.lt_trans hstart (hlt r hr)
    · split
      · exact List.pairwise_cons.2 ⟨hlt, hs'⟩
      · next hge hne =>
        refine List.pairwise_cons.2 ⟨fun r hr => ?_, ih hs'⟩
        rcases mem_insertRange hr with hr | rfl | ⟨e, -, rfl⟩
        · exact hlt r hr
        · dsimp only at hge hne ⊢
          omega
        · dsimp only at hge hne ⊢
          omega

theorem done_settle : w.settle.Done x ↔ w.Done x := done_absorb

theorem tidy_settle (hs : w.completed.Pairwise fun r s => r.1 < s.1) : w.settle.Tidy :=
  ⟨(tidy_absorb hs).1, (tidy_absorb hs).2⟩

theorem tidy_take (hw : w.Tidy) (r : Report) : (w.take r).Tidy := by
  cases r with
  | raise offset =>
    change (w.raise offset).1.Tidy
    unfold Watermark.raise
    split
    · exact hw
    · exact tidy_settle hw.sorted
  | complete start stop =>
    change (w.complete start stop).1.Tidy
    unfold Watermark.complete
    split
    · exact hw
    · exact tidy_settle (sorted_insertRange hw.sorted)

/-- After a report just what it says is done beside what was done before. -/
theorem done_take (r : Report) : (w.take r).Done x ↔ w.Done x ∨ r.Covers x := by
  cases r with
  | raise offset =>
    change (w.raise offset).1.Done x ↔ w.Done x ∨ x < offset
    unfold Watermark.raise
    split
    · next hle =>
      refine ⟨.inl, fun h => h.elim id fun hx => .inl (Nat.lt_of_lt_of_le hx hle)⟩
    · next hlt =>
      have hor : x < offset ↔ x < w.offset ∨ x < offset := by omega
      change (settle { w with offset }).Done x ↔ _
      rw [done_settle]
      change x < offset ∨ _ ↔ (x < w.offset ∨ _) ∨ x < offset
      rw [or_right_comm, ← hor]
  | complete start stop =>
    change (w.complete start stop).1.Done x ↔ w.Done x ∨ (start ≤ x ∧ x < stop)
    unfold Watermark.complete
    split
    · next hle =>
      exact ⟨.inl, fun h => h.elim id fun hx => .inl (Nat.lt_of_lt_of_le hx.2 hle)⟩
    · change (settle { w with completed := insertRange start stop w.completed }).Done x ↔ _
      rw [done_settle]
      change x < w.offset ∨ (∃ r ∈ insertRange start stop w.completed, _) ↔ (x < w.offset ∨ _) ∨ _
      rw [exists_mem_insertRange, or_assoc, or_comm (a := start ≤ x ∧ x < stop)]

theorem tidy_takeAll (hw : w.Tidy) (reports : List Report) : (w.takeAll reports).Tidy := by
  induction reports generalizing w with
  | nil => exact hw
  | cons r reports ih => exact ih (tidy_take hw r)

theorem done_takeAll (reports : List Report) :
    (w.takeAll reports).Done x ↔ w.Done x ∨ ∃ r ∈ reports, r.Covers x := by
  induction reports generalizing w with
  | nil => simp [takeAll]
  | cons r reports ih =>
    change ((w.take r).takeAll reports).Done x ↔ _
    rw [ih, done_take, List.exists_mem_cons_iff, or_assoc]

theorem le_take (r : Report) : w.offset ≤ (w.take r).offset := by
  cases r with
  | raise offset => exact (raise_le offset).1
  | complete start stop => exact le_complete

theorem le_takeAll (reports : List Report) : w.offset ≤ (w.takeAll reports).offset := by
  induction reports generalizing w with
  | nil => exact Nat.le_refl _
  | cons r reports ih => exact Nat.le_trans (le_take r) ih

theorem Tidy.isGreatest (hw : w.Tidy) : IsGreatest {n | ∀ x < n, w.Done x} w.offset := by
  refine ⟨fun x hx => .inl hx, fun n hn => Nat.le_of_not_lt fun hlt => ?_⟩
  rcases hn w.offset hlt with h | ⟨r, hr, hle, -⟩
  · exact Nat.lt_irrefl _ h
  · exact Nat.not_le_of_gt (hw.ahead r hr) hle

theorem raise_snd : (w.raise offset).2 = true ↔ (w.raise offset).1.offset ≠ w.offset := by
  have hle := (raise_le (w := w) offset).2
  unfold Watermark.raise at hle ⊢
  split
  · simp
  · next hlt =>
    rw [if_neg hlt] at hle
    dsimp only at hle ⊢
    exact iff_of_true rfl (by omega)

/-- A watermark that takes a range in tells where it came to, if it rose. -/
theorem complete_snd : (w.complete start stop).2 =
    if (w.complete start stop).1.offset = w.offset then none
    else some (w.complete start stop).1.offset := by
  split
  · next heq =>
    cases hmoved : (w.complete start stop).2 with
    | none => rfl
    | some n =>
      unfold Watermark.complete at hmoved heq
      split at hmoved
      · cases hmoved
      · next hle =>
        rw [if_neg hle] at heq
        dsimp only at hmoved heq
        rw [if_neg (by omega)] at hmoved
        cases hmoved
  · next hne =>
    cases hmoved : (w.complete start stop).2 with
    | none => exact absurd (complete_unmoved hmoved) hne
    | some n => rw [complete_moved hmoved]

/-- A watermark stands at the first gap in what was reported: everything below it is done, and it is
the greatest offset of which that can be said. So it never falls and does not depend on the order of
the reports. It tells that it moved just when it did, and to where, and all ranges that it remembers
start above it. -/
theorem stands_at_first_gap (offset : Nat) (reports : List Report) :
    let w := (startingAt offset).takeAll reports
    IsGreatest {n | ∀ x < n, Reported offset reports x} w.offset ∧
    (∀ reports', reports.Perm reports' →
      ((startingAt offset).takeAll reports').offset = w.offset) ∧
    (∀ more, w.offset ≤ ((startingAt offset).takeAll (reports ++ more)).offset) ∧
    (∀ n, (w.raise n).2 = true ↔ (w.raise n).1.offset ≠ w.offset) ∧
    (∀ start stop, (w.complete start stop).2 =
      if (w.complete start stop).1.offset = w.offset then none
      else some (w.complete start stop).1.offset) ∧
    ∀ r ∈ w.completed, w.offset < r.1 := by
  have htidy (reports : List Report) : ((startingAt offset).takeAll reports).Tidy :=
    tidy_takeAll ⟨.nil, fun r hr => by cases hr⟩ reports
  have hgreatest (reports : List Report) :
      IsGreatest {n | ∀ x < n, Reported offset reports x}
        ((startingAt offset).takeAll reports).offset := by
    have hdone (x : Nat) :
        ((startingAt offset).takeAll reports).Done x ↔ Reported offset reports x := by
      rw [done_takeAll]
      exact or_congr_left (or_iff_left fun ⟨r, hr, _⟩ => by cases hr)
    simpa only [hdone] using (htidy reports).isGreatest
  refine ⟨hgreatest reports, fun reports' hp => ?_, fun more => ?_, fun n => raise_snd,
    fun start stop => complete_snd, (htidy reports).ahead⟩
  · have hreported (x : Nat) : Reported offset reports' x ↔ Reported offset reports x := by
      simp only [Reported, hp.mem_iff]
    have h := hgreatest reports'
    simp only [hreported] at h
    exact h.unique (hgreatest reports)
  · rw [takeAll, takeAll, List.foldl_append]
    exact le_takeAll more

/-- Ranges that overlap, come twice or lie below the watermark, in an order of their own. -/
example : ((startingAt 2).takeAll
    [.complete 6 9, .complete 6 7, .raise 1, .complete 4 4, .complete 2 5]).offset = 5 ∧
    ((startingAt 2).takeAll [.complete 6 9, .complete 2 5, .raise 6]).offset = 9 := by decide

end KeyedLog.Watermark
