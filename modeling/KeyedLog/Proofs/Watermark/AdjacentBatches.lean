import KeyedLog.Index.Links
import KeyedLog.Proofs.Watermark.Basic

/-! Batches side by side in a log, and the watermark over those of them that are done. -/
namespace KeyedLog

namespace PendingLinks

def stop (b : PendingLinks) : Nat := b.offset + b.length

def range (b : PendingLinks) : Nat × Nat := (b.offset, b.stop)

end PendingLinks

/-- Batches that follow each other without a gap from an offset on, none of which is empty. -/
def Row : Nat → List PendingLinks → Prop
  | _, [] => True
  | n, b :: bs => b.offset = n ∧ 0 < b.length ∧ Row b.stop bs

namespace Row

def stop : Nat → List PendingLinks → Nat
  | n, [] => n
  | _, b :: bs => stop b.stop bs

def ranges (done : Nat → Bool) (bs : List PendingLinks) : List (Nat × Nat) :=
  (bs.filter fun b => done b.offset).map (·.range)

/-- The watermark once the batches at some offsets are done: it stands at the first one that is not,
and knows the ranges of the others behind it. -/
def mark (done : Nat → Bool) : Nat → List PendingLinks → Watermark
  | n, [] => ⟨n, [], false⟩
  | n, b :: bs => if done b.offset then mark done b.stop bs else ⟨n, ranges done bs, false⟩

variable {n x : Nat} {bs : List PendingLinks} {b c : PendingLinks} {done done' : Nat → Bool}

theorem le_stop (h : Row n bs) : n ≤ stop n bs := by
  induction bs generalizing n with
  | nil => exact Nat.le_refl n
  | cons c bs ih =>
    obtain ⟨hc, -, hbs⟩ := h
    have hle : c.stop ≤ stop c.stop bs := ih hbs
    have : n ≤ c.stop := by
      unfold PendingLinks.stop
      omega
    exact Nat.le_trans this hle

theorem bounds (h : Row n bs) (hb : b ∈ bs) :
    n ≤ b.offset ∧ b.offset < b.stop ∧ b.stop ≤ stop n bs := by
  induction bs generalizing n with
  | nil => cases hb
  | cons c bs ih =>
    obtain ⟨hc, hlength, hbs⟩ := h
    have hlt : c.offset < c.stop := by
      unfold PendingLinks.stop
      omega
    rcases List.mem_cons.1 hb with rfl | hb
    · exact ⟨Nat.le_of_eq hc.symm, hlt, hbs.le_stop⟩
    · obtain ⟨hlo, hmid, hhi⟩ := ih hbs hb
      exact ⟨by omega, hmid, hhi⟩

theorem of_cons (h : Row n (c :: bs)) : Row c.stop bs := h.2.2

theorem offset_lt_of_cons (h : Row n (c :: bs)) (hb : b ∈ bs) : c.offset < b.offset := by
  have hlt := (h.bounds List.mem_cons_self).2.1
  exact Nat.lt_of_lt_of_le hlt (h.of_cons.bounds hb).1

theorem eq_or_stop_le (h : Row n bs) (hb : b ∈ bs) (hc : c ∈ bs) :
    b = c ∨ b.stop ≤ c.offset ∨ c.stop ≤ b.offset := by
  induction bs generalizing n with
  | nil => cases hb
  | cons d bs ih =>
    rcases List.mem_cons.1 hb with rfl | hb'
    · rcases List.mem_cons.1 hc with rfl | hc'
      · exact .inl rfl
      · exact .inr (.inl (h.of_cons.bounds hc').1)
    · rcases List.mem_cons.1 hc with rfl | hc'
      · exact .inr (.inr (h.of_cons.bounds hb').1)
      · exact ih h.of_cons hb' hc'

theorem eq_of_range (h : Row n bs) (hb : b ∈ bs) (hc : c ∈ bs) (hbx : b.offset ≤ x ∧ x < b.stop)
    (hcx : c.offset ≤ x ∧ x < c.stop) : b = c := by
  rcases h.eq_or_stop_le hb hc with heq | hle | hle
  · exact heq
  · omega
  · omega

theorem eq_of_offset (h : Row n bs) (hb : b ∈ bs) (hc : c ∈ bs) (ho : b.offset = c.offset) :
    b = c := by
  have hlt := (h.bounds hb).2.1
  have hlt' := (h.bounds hc).2.1
  exact h.eq_of_range hb hc ⟨Nat.le_refl _, hlt⟩ (by omega)

theorem exists_mem (h : Row n bs) (hlo : n ≤ x) (hhi : x < stop n bs) :
    ∃ b ∈ bs, b.offset ≤ x ∧ x < b.stop := by
  induction bs generalizing n with
  | nil => exact absurd hhi (Nat.not_lt.2 hlo)
  | cons c bs ih =>
    by_cases hx : x < c.stop
    · exact ⟨c, List.mem_cons_self, by have := h.1; omega, hx⟩
    · obtain ⟨b, hb, hbx⟩ := ih h.of_cons (Nat.le_of_not_lt hx) hhi
      exact ⟨b, List.mem_cons_of_mem _ hb, hbx⟩

section Append

theorem stop_append (bs : List PendingLinks) (b : PendingLinks) : stop n (bs ++ [b]) = b.stop := by
  induction bs generalizing n with
  | nil => rfl
  | cons c bs ih => exact ih

theorem append (h : Row n bs) (ho : b.offset = stop n bs) (hlength : 0 < b.length) :
    Row n (bs ++ [b]) := by
  induction bs generalizing n with
  | nil => exact ⟨ho, hlength, trivial⟩
  | cons c bs ih => exact ⟨h.1, h.2.1, ih h.of_cons ho⟩

theorem eq_of_prefix {cs : List PendingLinks} (h : Row n cs) (hp : bs <+: cs)
    (hs : stop n bs = stop n cs) : bs = cs := by
  induction bs generalizing n cs with
  | nil =>
    cases cs with
    | nil => rfl
    | cons c cs =>
      have hlt := (h.bounds List.mem_cons_self).2.1
      have hle := h.of_cons.le_stop
      have hs : n = stop c.stop cs := hs
      have ho := h.1
      omega
  | cons b bs ih =>
    obtain ⟨ds, rfl⟩ := hp
    exact congrArg (b :: ·) (ih h.of_cons (List.prefix_append ..) hs)

end Append

section Mark

theorem mark_congr (h : ∀ b ∈ bs, done b.offset = done' b.offset) :
    mark done n bs = mark done' n bs := by
  induction bs generalizing n with
  | nil => rfl
  | cons c bs ih =>
    have hrest : ∀ b ∈ bs, done b.offset = done' b.offset := fun b hb => h b (by simp [hb])
    have hranges : ranges done bs = ranges done' bs := by
      unfold ranges
      rw [List.filter_congr hrest]
    unfold mark
    rw [h c (by simp), ih hrest, hranges]

theorem mark_append (hb : done b.offset = false) : mark done n (bs ++ [b]) = mark done n bs := by
  induction bs generalizing n with
  | nil => simp [mark, hb, ranges]
  | cons c bs ih =>
    have hranges : ranges done (bs ++ [b]) = ranges done bs := by simp [ranges, hb]
    rw [List.cons_append]
    unfold mark
    rw [ih, hranges]

theorem closed_mark : (mark done n bs).closed = false := by
  induction bs generalizing n with
  | nil => rfl
  | cons c bs ih =>
    unfold mark
    split
    · exact ih
    · rfl

theorem done_of_lt_mark (h : Row n bs) (hb : b ∈ bs) (hlt : b.offset < (mark done n bs).offset) :
    done b.offset = true := by
  induction bs generalizing n with
  | nil => cases hb
  | cons c bs ih =>
    unfold mark at hlt
    split at hlt
    · next hc =>
      rcases List.mem_cons.1 hb with rfl | hb
      · exact hc
      · exact ih h.of_cons hb hlt
    · have := (h.bounds hb).1
      exact absurd hlt (Nat.not_lt.2 this)

/-- The watermark stands where a batch begins that is not done, or else at the end. -/
theorem mark_stands (done : Nat → Bool) (h : Row n bs) :
    (∃ b ∈ bs, done b.offset = false ∧ (mark done n bs).offset = b.offset) ∨
      (∀ b ∈ bs, done b.offset = true) ∧ (mark done n bs).offset = stop n bs := by
  induction bs generalizing n with
  | nil => exact .inr ⟨fun b hb => (by cases hb), rfl⟩
  | cons c bs ih =>
    unfold mark
    split
    · next hc =>
      rcases ih h.of_cons with ⟨b, hb, hdone, ho⟩ | ⟨hall, hs⟩
      · exact .inl ⟨b, List.mem_cons_of_mem _ hb, hdone, ho⟩
      · exact .inr ⟨List.forall_mem_cons.2 ⟨hc, hall⟩, hs⟩
    · next hc => exact .inl ⟨c, List.mem_cons_self, by simpa using hc, h.1.symm⟩

theorem mark_le_stop (h : Row n bs) : (mark done n bs).offset ≤ stop n bs := by
  rcases h.mark_stands done with ⟨b, hb, -, ho⟩ | ⟨-, hs⟩
  · have := h.bounds hb
    omega
  · exact Nat.le_of_eq hs

/-- Ranges are absorbed as long as they leave no gap. -/
theorem absorb_ranges (done : Nat → Bool) (h : Row n bs) :
    Watermark.absorb n (ranges done bs) =
      ((mark done n bs).offset, (mark done n bs).completed) := by
  induction bs generalizing n with
  | nil => rfl
  | cons c bs ih =>
    unfold mark
    have hlt := (h.bounds List.mem_cons_self).2.1
    have ho := h.1
    split
    · next hc =>
      have hranges : ranges done (c :: bs) = (c.offset, c.stop) :: ranges done bs := by
        simp [ranges, hc, PendingLinks.range]
      have hmax : max n c.stop = c.stop := by omega
      rw [hranges, Watermark.absorb, if_pos (Nat.le_of_eq ho), hmax]
      exact ih h.of_cons
    · next hc =>
      have hranges : ranges done (c :: bs) = ranges done bs := by simp [ranges, hc]
      -- All that is done begins behind the first batch.
      have hgap : ∀ r ∈ ranges done bs, ¬r.1 ≤ n := by
        intro r hr
        obtain ⟨b, hb, rfl⟩ := List.mem_map.1 hr
        have := h.offset_lt_of_cons (List.mem_filter.1 hb).1
        simp only [PendingLinks.range]
        omega
      rw [hranges]
      cases hr : ranges done bs with
      | nil => rfl
      | cons r rs => rw [Watermark.absorb, if_neg (hgap r (by simp [hr]))]

/-- The range of another batch takes its place among the others. -/
theorem insertRange_ranges (h : Row n bs) (hb : b ∈ bs) (hdone : done b.offset = false)
    (hdone' : ∀ c ∈ bs, done' c.offset = (decide (c.offset = b.offset) || done c.offset)) :
    Watermark.insertRange b.offset b.stop (ranges done bs) = ranges done' bs := by
  induction bs generalizing n with
  | nil => cases hb
  | cons c bs ih =>
    have hrest : ∀ d ∈ bs, done' d.offset = (decide (d.offset = b.offset) || done d.offset) :=
      fun d hd => hdone' d (by simp [hd])
    have hc := hdone' c (by simp)
    rcases List.mem_cons.1 hb with rfl | hb
    -- Its range comes before those of all the batches behind it.
    · have hsame : ranges done' bs = ranges done bs := by
        unfold ranges
        refine congrArg _ (List.filter_congr fun d hd => ?_)
        have := h.offset_lt_of_cons hd
        rw [hrest d hd, decide_eq_false (by omega), Bool.false_or]
      have hnew : ranges done' (b :: bs) = (b.offset, b.stop) :: ranges done bs := by
        rw [← hsame]
        simp [ranges, hc, PendingLinks.range]
      have hold : ranges done (b :: bs) = ranges done bs := by simp [ranges, hdone]
      have hbehind : ∀ r ∈ ranges done bs, b.offset < r.1 := by
        intro r hr
        obtain ⟨d, hd, rfl⟩ := List.mem_map.1 hr
        exact h.offset_lt_of_cons (List.mem_filter.1 hd).1
      rw [hold, hnew]
      cases hr : ranges done bs with
      | nil => rfl
      | cons r rs => rw [Watermark.insertRange, if_pos (hbehind r (by simp [hr]))]
    -- It belongs further back, whether or not the first batch has a range there.
    · have hlt := h.offset_lt_of_cons hb
      have hc : done' c.offset = done c.offset := by
        rw [hc, decide_eq_false (by omega), Bool.false_or]
      have hih := ih h.of_cons hb hrest
      cases hdc : done c.offset with
      | false =>
        have hold : ranges done (c :: bs) = ranges done bs := by simp [ranges, hdc]
        have hnew : ranges done' (c :: bs) = ranges done' bs := by simp [ranges, hc, hdc]
        rw [hold, hnew, hih]
      | true =>
        have hold : ranges done (c :: bs) = (c.offset, c.stop) :: ranges done bs := by
          simp [ranges, hdc, PendingLinks.range]
        have hnew : ranges done' (c :: bs) = (c.offset, c.stop) :: ranges done' bs := by
          simp [ranges, hc, hdc, PendingLinks.range]
        rw [hold, hnew, Watermark.insertRange, if_neg (by omega), if_neg (by omega), hih]

/-- When one more batch is done, the watermark moves on as far as it can, and tells if it did. -/
theorem complete_mark (h : Row n bs) (hb : b ∈ bs) (hdone : done b.offset = false)
    (hdone' : ∀ c ∈ bs, done' c.offset = (decide (c.offset = b.offset) || done c.offset)) :
    (mark done n bs).complete b.offset b.stop =
      (mark done' n bs, if (mark done n bs).offset < (mark done' n bs).offset then
        some (mark done' n bs).offset else none) := by
  suffices hmark : ({ mark done n bs with
      completed := Watermark.insertRange b.offset b.stop (mark done n bs).completed } :
        Watermark).settle = mark done' n bs by
    have hle : ¬b.stop ≤ (mark done n bs).offset := fun hle => by
      have hlt := (h.bounds hb).2.1
      have hbelow := h.done_of_lt_mark hb (Nat.lt_of_lt_of_le hlt hle)
      rw [hdone] at hbelow
      cases hbelow
    rw [Watermark.complete, if_neg hle, hmark]
  induction bs generalizing n with
  | nil => cases hb
  | cons c bs ih =>
    have hrest : ∀ d ∈ bs, done' d.offset = (decide (d.offset = b.offset) || done d.offset) :=
      fun d hd => hdone' d (by simp [hd])
    have hc := hdone' c (by simp)
    unfold mark
    cases hdc : done c.offset with
    | true =>
      rw [hdc, Bool.or_true] at hc
      rw [hc, if_pos rfl, if_pos rfl]
      refine ih h.of_cons ((List.mem_cons.1 hb).resolve_left fun hbc => ?_) hrest
      rw [hbc, hdc] at hdone
      cases hdone
    | false =>
      rw [if_neg (by simp)]
      -- The range joins those behind the first batch, or else it begins where the watermark stands.
      have hsettle (rs : List (Nat × Nat)) (w : Watermark) (hclosed : w.closed = false)
          (habsorb : Watermark.absorb n rs = (w.offset, w.completed)) :
          (⟨n, rs, false⟩ : Watermark).settle = w := by
        cases w
        simp only [Watermark.settle, habsorb]
        exact congrArg _ hclosed.symm
      have hranges : Watermark.insertRange b.offset b.stop (ranges done bs) =
          ranges done' (c :: bs) := by
        have := insertRange_ranges h hb hdone hdone'
        rwa [show ranges done (c :: bs) = ranges done bs by simp [ranges, hdc]] at this
      dsimp only
      rw [hranges]
      have habsorb := absorb_ranges done' h
      rw [mark] at habsorb
      exact hsettle _ _ (by have := @closed_mark n (c :: bs) done'; rwa [mark] at this) habsorb

end Mark

end Row
end KeyedLog
