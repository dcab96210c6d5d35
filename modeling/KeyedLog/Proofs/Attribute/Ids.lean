import KeyedLog.Index.Links

/-! Attribute ids of different kinds never meet, and what a list of updates leaves behind. -/
namespace KeyedLog

namespace KeyHash

def Proper (h : KeyHash) : Prop := h.hi ≠ coreWord ∧ h.hi ≠ backpointerWord

theorem evade_ne (hi : UInt64) : evade hi ≠ coreWord ∧ evade hi ≠ backpointerWord := by
  unfold evade
  split
  · next h => subst h; decide
  · next h =>
    split
    · next h' => subst h'; decide
    · next h' => exact ⟨h, h'⟩

end KeyHash

theorem Hasher.proper_of_hash {hasher : Hasher} {key : Bytes} {h : KeyHash}
    (hk : hasher.hash key = .ok h) : h.Proper := by
  unfold Hasher.hash KeyHash.ofDigest at hk
  split at hk
  · cases hk
  · rw [← Except.ok.inj hk]
    exact KeyHash.evade_ne _

namespace AttributeId

theorem bucket_inj {h h' : KeyHash} : bucket h = bucket h' ↔ h = h' := by
  constructor
  · intro e
    obtain ⟨hi, lo⟩ := h
    obtain ⟨hi', lo'⟩ := h'
    obtain ⟨e₁, e₂⟩ := AttributeId.mk.inj e
    rw [show hi = hi' from e₁, show lo = lo' from UInt64.toNat.inj e₂]
  · rintro rfl
    rfl

theorem backpointer_inj {x y : Nat} : backpointer x = backpointer y ↔ x = y := by
  simp [backpointer]

theorem bucket_ne_backpointer {h : KeyHash} (hp : h.Proper) (x : Nat) :
    bucket h ≠ backpointer x :=
  fun e => hp.2 (AttributeId.mk.inj e).1

theorem bucket_ne_indexOffset {h : KeyHash} (hp : h.Proper) : bucket h ≠ indexOffset :=
  fun e => hp.1 (AttributeId.mk.inj e).1

theorem backpointer_ne_indexOffset (x : Nat) : backpointer x ≠ indexOffset :=
  fun e => absurd (AttributeId.mk.inj e).1 (by decide)

end AttributeId

namespace Attributes

variable {m : Attributes} {us : List AttributeUpdate} {id : AttributeId} {v x : Nat}

theorem updateAll_cons (u : AttributeUpdate) : m.updateAll (u :: us) = (m.update u).updateAll us :=
  rfl

theorem updateAll_of_ne (h : ∀ u ∈ us, u.id ≠ id) : (m.updateAll us)[id]? = m[id]? := by
  induction us generalizing m with
  | nil => rfl
  | cons u us ih =>
    rw [updateAll_cons, ih (fun w hw => h w (by simp [hw])), getElem?_update,
      if_neg (h u (by simp))]

/-- What is there afterwards is what was there before, or was written. -/
theorem getElem?_updateAll_or (m : Attributes) (us : List AttributeUpdate) (id : AttributeId) :
    (m.updateAll us)[id]? = m[id]? ∨
      ∃ u ∈ us, u.id = id ∧ (m.updateAll us)[id]? = some u.value := by
  induction us generalizing m with
  | nil => exact .inl rfl
  | cons u us ih =>
    rw [updateAll_cons]
    rcases ih (m.update u) with h | ⟨w, hw, hid, hx⟩
    · rw [h, getElem?_update]
      split
      · next hu =>
        unfold AttributeUpdate.apply
        split
        · next c _ hc =>
          rcases Nat.le_total c u.value with hle | hle
          · exact .inr ⟨u, by simp, hu, by rw [Nat.max_eq_right hle]⟩
          · exact .inl (by rw [hc, Nat.max_eq_left hle])
        · exact .inr ⟨u, by simp, hu, rfl⟩
      · exact .inl rfl
    · exact .inr ⟨w, by simp [hw], hid, hx⟩

theorem updateAll_cases (h : (m.updateAll us)[id]? = some x) :
    m[id]? = some x ∨ ∃ u ∈ us, u.id = id ∧ u.value = x := by
  rcases getElem?_updateAll_or m us id with hm | ⟨u, hu, hid, hx⟩
  · exact .inl (hm ▸ h)
  · exact .inr ⟨u, hu, hid, Option.some.inj (hx.symm.trans h)⟩

/-- A value that all writers agree on stays, once it is there or written. -/
theorem updateAll_replaced (hu : ∀ u ∈ us, u.id = id → u = .replace id v)
    (h : (∃ u ∈ us, u.id = id) ∨ m[id]? = some v) : (m.updateAll us)[id]? = some v := by
  induction us generalizing m with
  | nil => exact h.resolve_left (by simp)
  | cons u us ih =>
    rw [updateAll_cons]
    by_cases huid : u.id = id
    · have hv : (m.update u)[id]? = some v := by
        rw [getElem?_update, if_pos huid, hu u (by simp) huid]
        rfl
      exact ih (fun w hw => hu w (by simp [hw])) (.inr hv)
    · refine ih (fun w hw => hu w (by simp [hw])) ?_
      rcases h with ⟨w, hw, hwid⟩ | h
      · rcases List.mem_cons.1 hw with rfl | hw
        · exact absurd hwid huid
        · exact .inl ⟨w, hw, hwid⟩
      · exact .inr (by rw [getElem?_update, if_neg huid, h])

theorem le_updateAll_concat (m : Attributes) (us : List AttributeUpdate) (u : AttributeUpdate) :
    ∃ x, (m.updateAll (us ++ [u]))[u.id]? = some x ∧ u.value ≤ x := by
  have hlast : m.updateAll (us ++ [u]) = (m.updateAll us).update u := by
    simp [updateAll]
  refine ⟨_, by rw [hlast, getElem?_update, if_pos rfl], ?_⟩
  unfold AttributeUpdate.apply
  split
  · exact Nat.le_max_right ..
  · exact Nat.le_refl _

/-- Values that only grow end up no less than any that was there or was written. -/
theorem updateAll_grows (hu : ∀ u ∈ us, u.id = id → u.rule = .replaceIfGreater)
    (h : (∃ u ∈ us, u.id = id ∧ v ≤ u.value) ∨ ∃ x, m[id]? = some x ∧ v ≤ x) :
    ∃ x, (m.updateAll us)[id]? = some x ∧ v ≤ x := by
  induction us generalizing m with
  | nil => exact h.resolve_left (by simp)
  | cons u us ih =>
    rw [updateAll_cons]
    refine ih (fun w hw => hu w (by simp [hw])) ?_
    by_cases huid : u.id = id
    · have hr := hu u (by simp) huid
      have happly : u.value ≤ u.apply m[id]? ∧ ∀ c, m[id]? = some c → c ≤ u.apply m[id]? := by
        unfold AttributeUpdate.apply
        rw [hr]
        cases m[id]? with
        | none => simp
        | some c =>
          dsimp only
          exact ⟨by omega, fun d hd => by have := Option.some.inj hd; omega⟩
      have hget : (m.update u)[id]? = some (u.apply m[id]?) := by
        rw [getElem?_update, if_pos huid]
      rcases h with ⟨w, hw, hwid, hle⟩ | ⟨x, hx, hle⟩
      · rcases List.mem_cons.1 hw with rfl | hw
        · exact .inr ⟨_, hget, Nat.le_trans hle happly.1⟩
        · exact .inl ⟨w, hw, hwid, hle⟩
      · exact .inr ⟨_, hget, Nat.le_trans hle (happly.2 x hx)⟩
    · rcases h with ⟨w, hw, hwid, hle⟩ | ⟨x, hx, hle⟩
      · rcases List.mem_cons.1 hw with rfl | hw
        · exact absurd hwid huid
        · exact .inl ⟨w, hw, hwid, hle⟩
      · exact .inr ⟨x, by rw [getElem?_update, if_neg huid, hx], hle⟩

end Attributes
end KeyedLog
