import KeyedLog.Index.Watermark

/-! A watermark covers what lies below it or in a completed range, and nothing else. -/
namespace KeyedLog.Watermark

variable {x offset start stop : Nat} {ranges : List (Nat × Nat)} {r : Nat × Nat}

theorem le_absorb : offset ≤ (absorb offset ranges).1 := by
  induction ranges generalizing offset with
  | nil => exact Nat.le_refl _
  | cons r ranges ih =>
    unfold absorb
    split
    · exact Nat.le_trans (Nat.le_max_left ..) ih
    · exact Nat.le_refl _

theorem mem_of_mem_absorb (h : r ∈ (absorb offset ranges).2) : r ∈ ranges := by
  induction ranges generalizing offset with
  | nil => exact h
  | cons s ranges ih =>
    unfold absorb at h
    split at h
    · exact List.mem_cons_of_mem _ (ih h)
    · exact h

theorem absorb_fst (offset : Nat) (ranges : List (Nat × Nat)) :
    (absorb offset ranges).1 = offset ∨ ∃ r ∈ ranges, (absorb offset ranges).1 = r.2 := by
  induction ranges generalizing offset with
  | nil => exact .inl rfl
  | cons s ranges ih =>
    unfold absorb
    split
    · rcases ih (max offset s.2) with h | ⟨r, hr, h⟩
      · rcases Nat.le_total offset s.2 with hle | hle
        · exact .inr ⟨s, by simp, by rw [h, Nat.max_eq_right hle]⟩
        · exact .inl (by rw [h, Nat.max_eq_left hle])
      · exact .inr ⟨r, by simp [hr], h⟩
    · exact .inl rfl

theorem absorb_cover (hx : x < (absorb offset ranges).1) :
    x < offset ∨ ∃ r ∈ ranges, r.1 ≤ x ∧ x < r.2 := by
  induction ranges generalizing offset with
  | nil => exact .inl hx
  | cons s ranges ih =>
    unfold absorb at hx
    split at hx
    · next hs =>
      rcases ih hx with h | ⟨r, hr, h⟩
      · by_cases hxo : x < offset
        · exact .inl hxo
        · exact .inr ⟨s, by simp, by omega, by omega⟩
      · exact .inr ⟨r, by simp [hr], h⟩
    · exact .inl hx

theorem mem_insertRange (h : r ∈ insertRange start stop ranges) :
    r ∈ ranges ∨ r = (start, stop) ∨ ∃ e, (start, e) ∈ ranges ∧ r = (start, max e stop) := by
  induction ranges with
  | nil => exact .inr (.inl (List.mem_singleton.1 h))
  | cons s ranges ih =>
    obtain ⟨s, e⟩ := s
    unfold insertRange at h
    split at h
    · rcases List.mem_cons.1 h with h | h
      · exact .inr (.inl h)
      · exact .inl h
    · split at h
      · next heq =>
        rcases List.mem_cons.1 h with h | h
        · exact .inr (.inr ⟨e, by simp [heq], heq ▸ h⟩)
        · exact .inl (by simp [h])
      · rcases List.mem_cons.1 h with h | h
        · exact .inl (by simp [h])
        · rcases ih h with h | h | ⟨e', he', h⟩
          · exact .inl (by simp [h])
          · exact .inr (.inl h)
          · exact .inr (.inr ⟨e', by simp [he'], h⟩)

variable {w : Watermark}

theorem le_settle : w.offset ≤ w.settle.offset := le_absorb

theorem raise_le (n : Nat) : w.offset ≤ (w.raise n).1.offset ∧ n ≤ (w.raise n).1.offset := by
  unfold raise
  split
  · next h => exact ⟨Nat.le_refl _, h⟩
  · next h =>
    have : n ≤ (settle { w with offset := n }).offset := le_settle (w := { w with offset := n })
    dsimp only at this ⊢
    omega

theorem closed_raise (n : Nat) : (w.raise n).1.closed = w.closed := by
  unfold raise
  split
  · rfl
  · rfl

theorem closed_complete (start stop : Nat) : (w.complete start stop).1.closed = w.closed := by
  unfold complete
  split
  · rfl
  · rfl

theorem le_complete : w.offset ≤ (w.complete start stop).1.offset := by
  unfold complete
  split
  · exact Nat.le_refl _
  · exact le_absorb

theorem complete_moved {n : Nat} (h : (w.complete start stop).2 = some n) :
    (w.complete start stop).1.offset = n := by
  unfold complete at h ⊢
  split at h
  · cases h
  · next hle =>
    rw [if_neg hle]
    dsimp only at h ⊢
    split at h
    · exact Option.some.inj h
    · cases h

theorem complete_unmoved (h : (w.complete start stop).2 = none) :
    (w.complete start stop).1.offset = w.offset := by
  refine Nat.le_antisymm ?_ le_complete
  unfold complete at h ⊢
  split at h
  · next hle => exact Nat.le_of_eq (by rw [if_pos hle])
  · next hle =>
    rw [if_neg hle]
    dsimp only at h ⊢
    split at h
    · cases h
    · next hlt => exact Nat.le_of_not_lt hlt

theorem raise_of_gapless (hw : w.completed = []) (n : Nat) :
    (w.raise n).1 = { w with offset := max w.offset n } := by
  unfold raise
  split
  · next h => rw [Nat.max_eq_left h]
  · next h => simp [settle, hw, absorb, Nat.max_eq_right (Nat.le_of_not_le h)]

theorem complete_of_gapless (hw : w.completed = []) (hstart : w.offset = start)
    (hlt : start < stop) : w.complete start stop = ({ w with offset := stop }, some stop) := by
  unfold complete
  rw [if_neg (by omega)]
  simp [settle, hw, insertRange, absorb, hstart, Nat.max_eq_right (Nat.le_of_lt hlt), hlt]

end KeyedLog.Watermark
