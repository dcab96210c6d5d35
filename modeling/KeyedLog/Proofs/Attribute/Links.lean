import KeyedLog.Proofs.Attribute.Ids
import KeyedLog.Proofs.Log.Basic

/-! Linking a run of entries: each one follows the last one of its bucket. -/
namespace KeyedLog

def Of (entries : List (Nat × KeyHash)) (h : KeyHash) (x : Nat) : Prop := (x, h) ∈ entries

theorem Heads.getElem?_insert (m : Heads) (h h' : KeyHash) (x : Nat) :
    (m.insert h x)[h']? = if h = h' then some x else m[h']? := by
  rw [Std.ExtTreeMap.getElem?_insert]
  simp only [Std.LawfulEqCmp.compare_eq_iff_eq]

namespace Links

variable {heads : Heads} {entries : List (Nat × KeyHash)}

theorem chain_cons (x : Nat) (h : KeyHash) :
    chain heads ((x, h) :: entries) =
      ((chain (heads.insert h x) entries).1,
        (x, heads[h]?) :: (chain (heads.insert h x) entries).2) := rfl

theorem chain_offsets : (chain heads entries).2.map (·.1) = entries.map (·.1) := by
  induction entries generalizing heads with
  | nil => rfl
  | cons e entries ih => rw [chain_cons, List.map_cons, ih, List.map_cons]

/-- An entry in front is the last of its bucket if no other follows. -/
theorem lastBefore_cons {y stop : Nat} {g h : KeyHash} {q : Option Nat} (hy : y < stop)
    (hlt : ∀ e ∈ entries, y < e.1) (hq : LastBefore (Of entries h) stop q) :
    LastBefore (Of ((y, g) :: entries) h) stop (q.or (if g = h then some y else none)) := by
  have hof (z : Nat) : Of ((y, g) :: entries) h z ↔ (z = y ∧ h = g) ∨ Of entries h z := by
    simp [Of]
  cases q with
  | some z =>
    refine LastBefore.some_iff.2 ⟨(hof z).2 (.inr hq.mem), hq.lt, fun u hu hus => ?_⟩
    rcases (hof u).1 hu with ⟨rfl, -⟩ | hu
    · exact Nat.le_of_lt (hlt _ hq.mem)
    · exact hq.le hu hus
  | none =>
    have hnone := LastBefore.none_iff.1 hq
    by_cases hg : g = h
    · subst hg
      rw [if_pos rfl]
      refine LastBefore.some_iff.2 ⟨(hof y).2 (.inl ⟨rfl, rfl⟩), hy, fun u hu hus => ?_⟩
      rcases (hof u).1 hu with ⟨rfl, -⟩ | hu
      · exact Nat.le_refl _
      · exact absurd hus (hnone u hu)
    · rw [if_neg hg]
      refine LastBefore.none_iff.2 fun u hu hus => ?_
      rcases (hof u).1 hu with ⟨-, rfl⟩ | hu
      · exact hg rfl
      · exact hnone u hu hus

theorem or_insert (heads : Heads) (g h : KeyHash) (y : Nat) (q : Option Nat) :
    q.or (heads.insert g y)[h]? = (q.or (if g = h then some y else none)).or heads[h]? := by
  rw [Heads.getElem?_insert]
  cases q with
  | some z => rfl
  | none => split <;> rfl

/-- An entry follows the last one of its bucket in the list, or else the head from before. -/
theorem chain_backpointers (hs : entries.Pairwise fun a b => a.1 < b.1) {x : Nat}
    {p : Option Nat} (hp : (x, p) ∈ (chain heads entries).2) :
    ∃ h q, (x, h) ∈ entries ∧ LastBefore (Of entries h) x q ∧ p = q.or heads[h]? := by
  induction entries generalizing heads with
  | nil => cases hp
  | cons e entries ih =>
    obtain ⟨y, g⟩ := e
    obtain ⟨hlt, hs'⟩ := List.pairwise_cons.1 hs
    rw [chain_cons] at hp
    rcases List.mem_cons.1 hp with hp | hp
    · obtain ⟨rfl, rfl⟩ := Prod.mk.inj hp
      refine ⟨g, none, by simp, LastBefore.none_iff.2 fun z hz hzx => ?_, rfl⟩
      rcases List.mem_cons.1 hz with hz | hz
      · have := (Prod.mk.inj hz).1
        omega
      · have := hlt _ hz
        dsimp only at this
        omega
    · obtain ⟨h, q, hx, hq, hpq⟩ := ih hs' hp
      refine ⟨h, _, by simp [hx], lastBefore_cons (hlt _ hx) hlt hq, ?_⟩
      rw [hpq, or_insert]

/-- The head of a bucket moves to its last entry in the list, or else stays. -/
theorem chain_heads (hs : entries.Pairwise fun a b => a.1 < b.1) {stop : Nat}
    (hstop : ∀ e ∈ entries, e.1 < stop) (h : KeyHash) :
    ∃ q, LastBefore (Of entries h) stop q ∧ (chain heads entries).1[h]? = q.or heads[h]? := by
  induction entries generalizing heads with
  | nil =>
    refine ⟨none, LastBefore.none_iff.2 fun y hy _ => ?_, rfl⟩
    cases hy
  | cons e entries ih =>
    obtain ⟨y, g⟩ := e
    obtain ⟨hlt, hs'⟩ := List.pairwise_cons.1 hs
    obtain ⟨q, hq, hc⟩ := @ih (heads.insert g y) hs' (fun e he => hstop e (by simp [he]))
    refine ⟨_, lastBefore_cons (hstop (y, g) (by simp)) hlt hq, ?_⟩
    rw [chain_cons, hc, or_insert]

/-- The last entry among those from an offset on, or else the last one before it. -/
theorem lastBefore_or {T : Nat → Prop} {h : KeyHash} {start bound : Nat} {q p : Option Nat}
    (hsb : start ≤ bound) (hin : ∀ x, T x → start ≤ x → x < bound → Of entries h x)
    (hout : ∀ x, Of entries h x → T x ∧ start ≤ x) (hq : LastBefore (Of entries h) bound q)
    (hp : q = none → LastBefore T start p) : LastBefore T bound (q.or p) := by
  cases q with
  | some z =>
    refine LastBefore.some_iff.2 ⟨(hout z hq.mem).1, hq.lt, fun y hy hlt => ?_⟩
    by_cases hys : start ≤ y
    · exact hq.le (hin y hy hys hlt) hlt
    · have := (hout z hq.mem).2
      omega
  | none =>
    refine (hp rfl).widen hsb fun y hy hlt => Nat.lt_of_not_le fun hys => ?_
    exact LastBefore.none_iff.1 hq y (hin y hy hys hlt) hlt

theorem mem_backpointerUpdates {bs : List (Nat × Option Nat)} {u : AttributeUpdate} :
    u ∈ backpointerUpdates bs ↔ ∃ x p, (x, some p) ∈ bs ∧ u = .replace (.backpointer x) p := by
  simp only [backpointerUpdates, List.mem_filterMap, Option.map_eq_some_iff]
  constructor
  · rintro ⟨⟨x, o⟩, hb, p, rfl, rfl⟩
    exact ⟨x, p, hb, rfl⟩
  · rintro ⟨x, p, hb, rfl⟩
    exact ⟨(x, some p), hb, p, rfl, rfl⟩

theorem mem_headUpdates {hs : List (KeyHash × Nat)} {u : AttributeUpdate} :
    u ∈ headUpdates hs ↔ ∃ h x, (h, x) ∈ hs ∧ u = .replaceIfGreater (.bucket h) x := by
  simp only [headUpdates, List.mem_map]
  constructor
  · rintro ⟨⟨h, x⟩, hb, rfl⟩
    exact ⟨h, x, hb, rfl⟩
  · rintro ⟨h, x, hb, rfl⟩
    exact ⟨(h, x), hb, rfl⟩

end Links
end KeyedLog
