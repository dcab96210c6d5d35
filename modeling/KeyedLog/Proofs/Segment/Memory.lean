import KeyedLog.Index.Update
import KeyedLog.Proofs.Attribute.Links

/-! What is left in maps, in the cache and among the locks after many insertions and removals. -/
namespace KeyedLog

section Maps

variable {κ ν : Type} [Ord κ] [Std.TransOrd κ] [Std.LawfulEqOrd κ] {m : Std.ExtTreeMap κ ν}
  {k : κ} {v : ν}

theorem getElem?_insert_eq (m : Std.ExtTreeMap κ ν) (k k' : κ) (v : ν) :
    (k = k' ∧ (m.insert k v)[k']? = some v) ∨ (k ≠ k' ∧ (m.insert k v)[k']? = m[k']?) := by
  rw [Std.ExtTreeMap.getElem?_insert]
  by_cases hk : k = k'
  · exact .inl ⟨hk, if_pos (Std.LawfulEqCmp.compare_eq_iff_eq.2 hk)⟩
  · exact .inr ⟨hk, if_neg fun h => hk (Std.LawfulEqCmp.compare_eq_iff_eq.1 h)⟩

theorem getElem?_erase_eq (m : Std.ExtTreeMap κ ν) (k k' : κ) :
    (k = k' ∧ (m.erase k)[k']? = none) ∨ (k ≠ k' ∧ (m.erase k)[k']? = m[k']?) := by
  rw [Std.ExtTreeMap.getElem?_erase]
  by_cases hk : k = k'
  · exact .inl ⟨hk, if_pos (Std.LawfulEqCmp.compare_eq_iff_eq.2 hk)⟩
  · exact .inr ⟨hk, if_neg fun h => hk (Std.LawfulEqCmp.compare_eq_iff_eq.1 h)⟩

theorem insertAll_some {l : List (κ × ν)}
    (h : (l.foldl (fun m e => m.insert e.1 e.2) m)[k]? = some v) :
    (k, v) ∈ l ∨ m[k]? = some v ∧ ∀ v', (k, v') ∉ l := by
  induction l generalizing m with
  | nil => exact .inr ⟨h, fun v' => List.not_mem_nil⟩
  | cons e l ih =>
    rcases ih h with h | ⟨h, hn⟩
    · exact .inl (by simp [h])
    · rcases getElem?_insert_eq m e.1 k e.2 with ⟨rfl, he⟩ | ⟨hk, he⟩
      · rw [he] at h
        exact .inl (by simp [← Option.some.inj h])
      · refine .inr ⟨he ▸ h, fun v' hv => ?_⟩
        rcases List.mem_cons.1 hv with rfl | hv
        · exact hk rfl
        · exact hn v' hv

theorem insertAll_none {l : List (κ × ν)}
    (h : (l.foldl (fun m e => m.insert e.1 e.2) m)[k]? = none) :
    m[k]? = none ∧ ∀ v', (k, v') ∉ l := by
  induction l generalizing m with
  | nil => exact ⟨h, fun v' => List.not_mem_nil⟩
  | cons e l ih =>
    obtain ⟨h, hn⟩ := ih h
    rcases getElem?_insert_eq m e.1 k e.2 with ⟨-, he⟩ | ⟨hk, he⟩
    · rw [he] at h
      cases h
    · refine ⟨he ▸ h, fun v' hv => ?_⟩
      rcases List.mem_cons.1 hv with rfl | hv
      · exact hk rfl
      · exact hn v' hv

theorem insertAll_ne_none {l : List (κ × ν)} :
    (l.foldl (fun m e => m.insert e.1 e.2) m)[k]? ≠ none ↔ m[k]? ≠ none ∨ ∃ v, (k, v) ∈ l := by
  constructor
  · intro h
    obtain ⟨v, hv⟩ := Option.ne_none_iff_exists'.1 h
    exact (insertAll_some hv).elim (fun h => .inr ⟨v, h⟩) fun h => .inl (by simp [h.1])
  · rintro (h | ⟨v, hv⟩) hn
    · exact h (insertAll_none hn).1
    · exact (insertAll_none hn).2 v hv

theorem eraseAll_some {α : Type} {l : List α} {f : α → κ}
    (h : (l.foldl (fun m e => m.erase (f e)) m)[k]? = some v) :
    m[k]? = some v ∧ ∀ e ∈ l, f e ≠ k := by
  induction l generalizing m with
  | nil => exact ⟨h, fun e he => by cases he⟩
  | cons e l ih =>
    obtain ⟨h, hn⟩ := ih h
    rcases getElem?_erase_eq m (f e) k with ⟨-, he⟩ | ⟨hk, he⟩
    · rw [he] at h
      cases h
    · refine ⟨he ▸ h, fun e' he' => ?_⟩
      rcases List.mem_cons.1 he' with rfl | he'
      · exact hk
      · exact hn e' he'

theorem eraseAll_none {α : Type} {l : List α} {f : α → κ}
    (h : (l.foldl (fun m e => m.erase (f e)) m)[k]? = none) :
    m[k]? = none ∨ ∃ e ∈ l, f e = k := by
  induction l generalizing m with
  | nil => exact .inl h
  | cons e l ih =>
    rcases ih h with h | ⟨e', he', hk⟩
    · rcases getElem?_erase_eq m (f e) k with ⟨hk, -⟩ | ⟨-, he⟩
      · exact .inr ⟨e, by simp, hk⟩
      · exact .inl (he ▸ h)
    · exact .inr ⟨e', by simp [he'], hk⟩

end Maps

namespace Cache

variable {c : Cache} {b b' : Bucket} {y head : Nat}

theorem of_get?_erase (h : (c.erase b).get? b' = some y) : c.get? b' = some y ∧ b ≠ b' := by
  have h : (c.heads.erase b)[b']? = some y := h
  rcases getElem?_erase_eq c.heads b b' with ⟨-, he⟩ | ⟨hb, he⟩
  · rw [he] at h
    cases h
  · exact ⟨he.symm.trans h, hb⟩

theorem of_get?_insert (h : (c.insert b head).get? b' = some y) :
    c.get? b' = some y ∨ b = b' ∧ head = y := by
  unfold insert at h
  split at h
  · have h : (c.heads.insert b head)[b']? = some y := h
    rcases getElem?_insert_eq c.heads b b' head with ⟨hb, he⟩ | ⟨-, he⟩
    · exact .inr ⟨hb, Option.some.inj (he.symm.trans h)⟩
    · exact .inl (he.symm.trans h)
  · exact .inl h

theorem of_get?_eraseAll {α : Type} {l : List α} {f : α → Bucket}
    (h : (l.foldl (fun c e => c.erase (f e)) c).get? b = some y) :
    c.get? b = some y ∧ ∀ e ∈ l, f e ≠ b := by
  induction l generalizing c with
  | nil => exact ⟨h, fun e he => by cases he⟩
  | cons e l ih =>
    obtain ⟨h, hn⟩ := ih h
    obtain ⟨h, hb⟩ := of_get?_erase h
    refine ⟨h, fun e' he' => ?_⟩
    rcases List.mem_cons.1 he' with rfl | he'
    · exact hb
    · exact hn e' he'

end Cache

namespace SegmentState

variable {heads : Heads} {cache : Cache} {segment : Nat} {l : List (KeyHash × Nat)} {h : KeyHash}
  {y : Nat}

/-- Heads leave the tail for the cache, or stay. -/
theorem retireHeads_spec :
    let r := retireHeads heads cache segment l
    (∀ {h : KeyHash} {y : Nat}, r.1[h]? = some y → heads[h]? = some y) ∧
    (∀ {h : KeyHash} {y : Nat}, heads[h]? = some y → r.1[h]? = none → (h, y) ∈ l) ∧
    ∀ {h : KeyHash} {y : Nat}, r.2.get? ⟨segment, h⟩ = some y →
      cache.get? ⟨segment, h⟩ = some y ∨ heads[h]? = some y := by
  induction l generalizing heads cache with
  | nil =>
    refine ⟨id, fun hy hn => ?_, .inl⟩
    cases hy.symm.trans hn
  | cons e l ih =>
    obtain ⟨g, x⟩ := e
    dsimp only [retireHeads, List.foldl_cons]
    by_cases hx : heads[g]? = some x
    · rw [if_pos hx]
      obtain ⟨hsome, hnone, hcache⟩ := @ih (heads.erase g) (cache.insert ⟨segment, g⟩ x)
      have herase {h : KeyHash} {y : Nat} (hy : (heads.erase g)[h]? = some y) :
          heads[h]? = some y := by
        rcases getElem?_erase_eq heads g h with ⟨-, he⟩ | ⟨-, he⟩
        · rw [he] at hy
          cases hy
        · exact he ▸ hy
      refine ⟨fun hy => herase (hsome hy), fun {h y} hy hn => ?_, fun {h y} hy => ?_⟩
      · rcases getElem?_erase_eq heads g h with ⟨rfl, -⟩ | ⟨-, he⟩
        · rw [hx] at hy
          simp [← Option.some.inj hy]
        · exact List.mem_cons_of_mem _ (hnone (he ▸ hy) hn)
      · rcases hcache hy with hy | hy
        · rcases Cache.of_get?_insert hy with hy | ⟨hb, rfl⟩
          · exact .inl hy
          · exact .inr ((Bucket.mk.inj hb).2 ▸ hx)
        · exact .inr (herase hy)
    · rw [if_neg hx]
      obtain ⟨hsome, hnone, hcache⟩ := @ih heads cache
      exact ⟨hsome, fun hy hn => List.mem_cons_of_mem _ (hnone hy hn), hcache⟩

/-- No head that was to leave is left. -/
theorem retireHeads_ne (hy : (h, y) ∈ l) :
    (retireHeads heads cache segment l).1[h]? ≠ some y := by
  induction l generalizing heads cache with
  | nil => cases hy
  | cons e l ih =>
    obtain ⟨g, x⟩ := e
    dsimp only [retireHeads, List.foldl_cons]
    rcases List.mem_cons.1 hy with heq | hy
    · obtain ⟨rfl, rfl⟩ := Prod.mk.inj heq
      split
      · intro hleft
        have hleft := retireHeads_spec.1 hleft
        rcases getElem?_erase_eq heads h h with ⟨-, he⟩ | ⟨hne, -⟩
        · rw [he] at hleft
          cases hleft
        · exact hne rfl
      · next hx => exact fun hleft => hx (retireHeads_spec.1 hleft)
    · split
      · exact ih hy
      · exact ih hy

end SegmentState

namespace Locks

variable {l : Locks} {bs : List Bucket} {b : Bucket}

theorem contains_take : (l.take bs).held.contains b = (decide (b ∈ bs) || l.held.contains b) := by
  have hfold : ∀ held : Std.ExtTreeSet Bucket,
      (bs.foldl (fun held b => held.insert b) held).contains b =
        (decide (b ∈ bs) || held.contains b) := by
    induction bs with
    | nil => simp
    | cons c bs ih =>
      intro held
      have hcmp : (compare c b == .eq) = decide (b = c) := by
        rw [Bool.eq_iff_iff, beq_iff_eq, Std.LawfulEqCmp.compare_eq_iff_eq, decide_eq_true_iff]
        exact eq_comm
      rw [List.foldl_cons, ih, Std.ExtTreeSet.contains_insert, hcmp]
      by_cases hc : b = c <;> simp [hc]
  exact hfold l.held

theorem contains_release :
    (l.release bs).held.contains b = (!decide (b ∈ bs) && l.held.contains b) := by
  have hfold : ∀ held : Std.ExtTreeSet Bucket,
      (bs.foldl (fun held b => held.erase b) held).contains b =
        (!decide (b ∈ bs) && held.contains b) := by
    induction bs with
    | nil => simp
    | cons c bs ih =>
      intro held
      have hcmp : (compare c b != .eq) = !decide (b = c) := by
        rw [Bool.eq_iff_iff, bne_iff_ne, Ne, Std.LawfulEqCmp.compare_eq_iff_eq, Bool.not_eq_true',
          decide_eq_false_iff_not, eq_comm]
      rw [List.foldl_cons, ih, Std.ExtTreeSet.contains_erase, hcmp]
      by_cases hc : b = c <;> simp [hc]
  exact hfold l.held

theorem free_iff : l.free bs = true ↔ ∀ b ∈ bs, l.held.contains b = false := by
  simp [free]

section Segment

variable {segment : Nat} {hs : List KeyHash} {h : KeyHash}

theorem contains_take_segment :
    (l.take (hs.map (⟨segment, ·⟩))).held.contains ⟨segment, h⟩ =
      (decide (h ∈ hs) || l.held.contains ⟨segment, h⟩) := by
  rw [contains_take]
  simp

theorem contains_release_segment :
    (l.release (hs.map (⟨segment, ·⟩))).held.contains ⟨segment, h⟩ =
      (!decide (h ∈ hs) && l.held.contains ⟨segment, h⟩) := by
  rw [contains_release]
  simp

theorem free_segment_iff : l.free (hs.map (⟨segment, ·⟩)) = true ↔
    ∀ h ∈ hs, l.held.contains ⟨segment, h⟩ = false := by
  rw [free_iff]
  simp

end Segment

end Locks
end KeyedLog
