import KeyedLog.Proofs.Extension.NotedOperations
import KeyedLog.Proofs.Extension.Restriction

/-! What the events of a run say about the tail of an index that leaves its links to an indexer:
links are recorded some time after an append, and dropped when the indexer passes on how far it
came. -/
namespace KeyedLog

variable {σ α : Type}

namespace AttributeUpdate

/-- The index offset that a list of updates ends with. -/
def announced (us : List AttributeUpdate) : Option Nat :=
  (us.getLast?.filter (·.id = .indexOffset)).map (·.value)

theorem announced_eq_some {us : List AttributeUpdate} {n : Nat} (h : announced us = some n) :
    ∃ us' rule, us = us' ++ [⟨.indexOffset, rule, n⟩] := by
  obtain ⟨⟨id, rule, value⟩, hu, rfl⟩ := Option.map_eq_some_iff.1 h
  obtain ⟨hu, hid⟩ := Option.filter_eq_some_iff.1 hu
  obtain ⟨us', rfl⟩ := List.getLast?_eq_some_iff.1 hu
  obtain rfl : id = .indexOffset := of_decide_eq_true hid
  exact ⟨us', rule, rfl⟩

@[simp] theorem announced_concat (us : List AttributeUpdate) (n : Nat) :
    announced (us ++ [.replaceIfGreater .indexOffset n]) = some n := by
  simp [announced, replaceIfGreater]

end AttributeUpdate

/-- The index offset that is known to be persisted after a call. -/
def Call.announces : Call → Fate → Option Nat
  | .updateAttributes _ us, .served => AttributeUpdate.announced us
  | _, _ => none

/-- A range that a thread has appended and has yet to link. -/
def Trail.covers (t : Trail) (i x : Nat) : Bool :=
  (t.unlinked i).any fun r => r.1 ≤ x && x < r.2

theorem Trail.linking_iff {t : Trail} {x : Nat} : t.Linking x ↔ ∃ i, t.covers i x = true := by
  simp only [Linking, covers, Option.any_eq_true, Prod.exists, Bool.and_eq_true, decide_eq_true_eq]

theorem Trail.length_le_call {t : Trail} {i : Nat} {q : Call} {fate : Fate} :
    t.length ≤ (t.call i q fate).length := by
  unfold call
  split
  · exact Nat.le_add_right ..
  · exact Nat.le_refl _

/-- Who has nothing to link may append something that is to be linked next. -/
theorem Trail.linking_call {t : Trail} {i x : Nat} {q : Call} {fate : Fate}
    (hi : t.unlinked i = none) :
    (t.call i q fate).Linking x ↔ t.Linking x ∨ t.length ≤ x ∧ x < (t.call i q fate).length := by
  unfold call
  split
  · next segment data =>
    constructor
    · rintro ⟨j, s, e, hj, hx⟩
      dsimp only at hj
      split at hj
      · obtain ⟨rfl, rfl⟩ := Prod.mk.inj (Option.some.inj hj)
        exact .inr hx
      · exact .inl ⟨j, s, e, hj, hx⟩
    · rintro (⟨j, s, e, hj, hx⟩ | hx)
      · have hji : j ≠ i := by
          rintro rfl
          cases hi.symm.trans hj
        exact ⟨j, s, e, (if_neg hji).trans hj, hx⟩
      · exact ⟨i, _, _, if_pos rfl, hx⟩
  · exact ⟨.inl, fun h => h.resolve_right fun hx => Nat.lt_irrefl _ (Nat.lt_of_le_of_lt hx.1 hx.2)⟩

theorem Trail.covers_call {t : Trail} {i j x : Nat} {q : Call} {fate : Fate}
    (h : (t.call i q fate).covers j x = true) :
    t.covers j x = true ∨ j = i ∧ t.length ≤ x := by
  unfold call at h
  split at h
  · by_cases hji : j = i
    · simp only [covers, if_pos hji, Option.any_some, Bool.and_eq_true, decide_eq_true_eq] at h
      exact .inr ⟨hji, h.1⟩
    · simp only [covers, if_neg hji] at h
      exact .inl h
  · exact .inl h

/-- What is to be found in the tail, as far as the events of a run tell. -/
structure Tally where
  trail : Trail
  /-- The index offset that was persisted and has yet to be passed on. -/
  due : Option Nat
  /-- The greatest offset that was passed on. -/
  notified : Nat
  /-- Offsets whose links were recorded, with no greater offset passed on since. -/
  kept : Nat → Bool

namespace Tally

def quiet (length : Nat) : Tally := ⟨.quiet length, none, 0, fun _ => false⟩

def record (t : Tally) (i : Nat) : Tally :=
  { t with trail := t.trail.proceed i, kept := fun x => t.kept x || t.trail.covers i x }

def pass (t : Tally) : Tally :=
  match t.due with
  | some n =>
    { t with
      due := none
      notified := max t.notified n
      kept := fun x => t.kept x && n ≤ x }
  | none => t

/-- What an event adds to the tally. Thread zero is the indexer. -/
def after (t : Tally) : Pool.Event σ α → Tally
  | .call i q fate =>
    { t with
      trail := t.trail.call i q fate
      due := if i = 0 then (q.announces fate).or t.due else t.due }
  | .proceed i => if i = 0 then (t.record i).pass else t.record i
  | _ => t

def ofRun (length : Nat) (es : List (Pool.Event σ α)) : Tally := es.foldl after (.quiet length)

/-- An offset was passed on while smaller ones had yet to be linked. -/
def Overtaken (length : Nat) (es : List (Pool.Event σ α)) (x : Nat) : Prop :=
  ∃ as bs n, es = as ++ .proceed 0 :: bs ∧ (ofRun length as).due = some n ∧ x < n ∧
    (ofRun length as).trail.Linking x

variable {t : Tally} {e : Pool.Event σ α} {es : List (Pool.Event σ α)} {length x i : Nat}

theorem ofRun_snoc (length : Nat) (es : List (Pool.Event σ α)) (e : Pool.Event σ α) :
    ofRun length (es ++ [e]) = (ofRun length es).after e := by
  simp [ofRun]

theorem Overtaken.snoc (h : Overtaken length es x) (e : Pool.Event σ α) :
    Overtaken length (es ++ [e]) x := by
  obtain ⟨as, bs, n, rfl, h⟩ := h
  exact ⟨as, bs ++ [e], n, by simp, h⟩

@[simp] theorem trail_pass : t.pass.trail = t.trail := by
  unfold pass
  split <;> rfl

@[simp] theorem due_pass : t.pass.due = none := by
  unfold pass
  split
  · rfl
  · assumption

theorem kept_pass : t.pass.kept x = true ↔ t.kept x = true ∧ ∀ n, t.due = some n → n ≤ x := by
  unfold pass
  split
  · next n hn => simp [hn]
  · next hn => simp [hn]

theorem kept_proceed : (t.after (.proceed i : Pool.Event σ α)).kept x = true ↔
    (t.kept x = true ∨ t.trail.covers i x = true) ∧ (i = 0 → ∀ n, t.due = some n → n ≤ x) := by
  have hrecord : (t.record i).kept x = true ↔ t.kept x = true ∨ t.trail.covers i x = true :=
    Bool.or_eq_true_iff
  unfold after
  dsimp only
  split
  · next hi =>
    rw [kept_pass, hrecord]
    exact and_congr_right fun _ => ⟨fun h _ => h, fun h => h hi⟩
  · next hi =>
    rw [hrecord]
    exact (and_iff_left fun h => absurd h hi).symm

theorem due_proceed (t : Tally) : (t.after (.proceed 0 : Pool.Event σ α)).due = none := due_pass

theorem due_after (t : Tally) (he : e.actor ≠ some 0) : (t.after e).due = t.due := by
  have hne {j : Nat} (h : some j ≠ some 0) : j ≠ 0 := fun hj => h (congrArg some hj)
  cases e with
  | call j q fate => exact if_neg (hne he)
  | proceed j =>
    unfold after
    dsimp only
    rw [if_neg (hne he)]
    rfl
  | start | finish | drift => rfl

theorem trail_after (t : Tally) (e : Pool.Event σ α) : (t.after e).trail = t.trail.after e := by
  cases e with
  | proceed i =>
    unfold after
    dsimp only
    split
    · exact trail_pass
    · rfl
  | start | call | finish | drift => rfl

theorem trail_ofRun (length : Nat) (es : List (Pool.Event σ α)) :
    (ofRun length es).trail = es.foldl Trail.after (.quiet length) := by
  have h (t : Tally) : (es.foldl after t).trail = es.foldl Trail.after t.trail := by
    induction es generalizing t with
    | nil => rfl
    | cons e es ih => rw [List.foldl_cons, List.foldl_cons, ih, trail_after]
  exact h _

/-- What a tally amounts to for single offsets. -/
structure Sane (length : Nat) (es : List (Pool.Event σ α)) (t : Tally) : Prop where
  start : length ≤ t.trail.length
  notified : t.notified ≤ t.trail.length
  due : ∀ {n}, t.due = some n → n ≤ t.trail.length
  linking_lt : ∀ {x}, t.trail.Linking x → x < t.trail.length
  apart : ∀ {i j x}, t.trail.covers i x = true → t.trail.covers j x = true → i = j
  recorded : ∀ {x}, t.kept x = true → t.trail.Recorded x
  /-- Whatever is kept or to be linked is not below an offset that was passed on, unless that was
  done before it was linked. -/
  late : ∀ {x}, t.kept x = true ∨ t.trail.Linking x →
    length ≤ x ∧ (t.notified ≤ x ∨ Overtaken length es x)
  /-- Nothing else is lost. -/
  unindexed : ∀ {x}, t.trail.Recorded x → length ≤ x → t.notified ≤ x → t.kept x = true

theorem sane_quiet (length : Nat) : Sane length ([] : List (Pool.Event σ α)) (.quiet length) where
  start := Nat.le_refl _
  notified := Nat.zero_le _
  due h := by cases h
  linking_lt h := by
    obtain ⟨i, s, e, h, -⟩ := h
    cases h
  apart h := by cases h
  recorded h := by cases h
  late h := by
    rcases h with h | ⟨i, s, e, h, -⟩ <;> cases h
  unindexed h hx := absurd h.1 (Nat.not_lt.2 hx)

namespace Sane

theorem covers_record {j : Nat} :
    (t.record i).trail.covers j x = true ↔ j ≠ i ∧ t.trail.covers j x = true := by
  by_cases hji : j = i <;> simp [Tally.record, Trail.proceed, Trail.covers, hji]

theorem record (h : Sane length es t) (i : Nat) : Sane length es (t.record i) := by
  have hlinking {x : Nat} (hx : (t.record i).trail.Linking x) : t.trail.Linking x := by
    obtain ⟨j, hj⟩ := Trail.linking_iff.1 hx
    exact Trail.linking_iff.2 ⟨j, (covers_record.1 hj).2⟩
  exact
    { start := h.start
      notified := h.notified
      due := h.due
      linking_lt := fun hx => h.linking_lt (hlinking hx)
      apart := fun hx hx' => h.apart (covers_record.1 hx).2 (covers_record.1 hx').2
      recorded := fun {x} hx => by
        rcases Bool.or_eq_true_iff.1 hx with hx | hx
        · exact ⟨(h.recorded hx).1, fun hl => (h.recorded hx).2 (hlinking hl)⟩
        · refine ⟨h.linking_lt (Trail.linking_iff.2 ⟨i, hx⟩), fun hl => ?_⟩
          obtain ⟨j, hj⟩ := Trail.linking_iff.1 hl
          exact (covers_record.1 hj).1 (h.apart (covers_record.1 hj).2 hx)
      late := fun {x} hx => by
        refine h.late ?_
        rcases hx with hx | hx
        · rcases Bool.or_eq_true_iff.1 hx with hx | hx
          · exact .inl hx
          · exact .inr (Trail.linking_iff.2 ⟨i, hx⟩)
        · exact .inr (hlinking hx)
      unindexed := fun {x} hx hle hn => by
        refine Bool.or_eq_true_iff.2 ?_
        by_cases hi : t.trail.covers i x = true
        · exact .inr hi
        · refine .inl (h.unindexed ⟨hx.1, fun hl => hx.2 ?_⟩ hle hn)
          obtain ⟨j, hj⟩ := Trail.linking_iff.1 hl
          exact Trail.linking_iff.2 ⟨j, covers_record.2 ⟨fun hji => hi (hji ▸ hj), hj⟩⟩ }

/-- Who passes on an offset overtakes all that is below and is still to be linked. -/
theorem pass (h : Sane length es t)
    (hover : ∀ {n x}, t.due = some n → x < n → t.trail.Linking x → Overtaken length es x) :
    Sane length es t.pass := by
  unfold Tally.pass
  split
  · next n hn =>
    exact
      { start := h.start
        notified := Nat.max_le.2 ⟨h.notified, h.due hn⟩
        due := fun h => by cases h
        linking_lt := h.linking_lt
        apart := h.apart
        recorded := fun hx => h.recorded (Bool.and_eq_true_iff.1 hx).1
        late := fun {x} hx => by
          have hold := h.late (x := x) (hx.imp_left fun hx => (Bool.and_eq_true_iff.1 hx).1)
          refine ⟨hold.1, ?_⟩
          by_cases hlt : x < n
          · refine .inr (hx.elim (fun hx => ?_) fun hx => hover hn hlt hx)
            have := of_decide_eq_true (Bool.and_eq_true_iff.1 hx).2
            omega
          · exact hold.2.imp_left fun hle => Nat.max_le.2 ⟨hle, Nat.not_lt.1 hlt⟩
        unindexed := fun {x} hx hle hmax => by
          obtain ⟨hle', hn'⟩ := Nat.max_le.1 hmax
          exact Bool.and_eq_true_iff.2 ⟨h.unindexed hx hle hle', decide_eq_true hn'⟩ }
  · exact h

end Sane

/-- Tallies stay sane as long as threads link what they appended before they append again, and no
offset is announced that is not there. -/
theorem Sane.snoc (h : Sane length es (ofRun length es))
    (hcall : ∀ i q fate, e = .call i q fate → (ofRun length es).trail.unlinked i = none)
    (hdue : ∀ i q fate n, e = .call i q fate → q.announces fate = some n →
      n ≤ (ofRun length es).trail.length) :
    Sane length (es ++ [e]) (ofRun length (es ++ [e])) := by
  have hmore {t : Tally} (h : Sane length es t) : Sane length (es ++ [e]) t :=
    { h with late := fun hx => ⟨(h.late hx).1, (h.late hx).2.imp_right fun ho => ho.snoc e⟩ }
  rw [ofRun_snoc]
  generalize ht : ofRun length es = t at *
  cases e with
  | start | finish | drift => exact hmore h
  | proceed i =>
    unfold after
    dsimp only
    split
    · next hi =>
      subst hi
      refine (hmore (h.record 0)).pass fun {n x} hn hlt hx => ?_
      obtain ⟨j, hj⟩ := Trail.linking_iff.1 hx
      exact ⟨es, [], n, rfl, ht ▸ hn, hlt, ht ▸ Trail.linking_iff.2 ⟨j, (covers_record.1 hj).2⟩⟩
    · exact hmore (h.record i)
  | call i q fate =>
    have hlength : t.trail.length ≤ (t.trail.call i q fate).length := Trail.length_le_call
    have hi : t.trail.unlinked i = none := hcall i q fate rfl
    -- An append adds to what is to be linked, behind all that was there.
    have hlinking {x : Nat} : (t.trail.call i q fate).Linking x ↔ t.trail.Linking x ∨
        t.trail.length ≤ x ∧ x < (t.trail.call i q fate).length := Trail.linking_call hi
    exact
      { start := Nat.le_trans h.start hlength
        notified := Nat.le_trans h.notified hlength
        due := fun {n} hn => by
          refine Nat.le_trans ?_ hlength
          dsimp only [after] at hn
          split at hn
          · rcases Option.or_eq_some_iff.1 hn with hn | ⟨-, hn⟩
            · exact hdue i q fate n rfl hn
            · exact h.due hn
          · exact h.due hn
        linking_lt := fun hx => (hlinking.1 hx).elim
          (fun hx => Nat.lt_of_lt_of_le (h.linking_lt hx) hlength) And.right
        apart := fun {j k x} hj hk => by
          have hnew {j : Nat} (hj : (t.trail.call i q fate).covers j x = true) :
              t.trail.covers j x = true ∨ j = i ∧ t.trail.length ≤ x := Trail.covers_call hj
          have hold {j : Nat} (hj : t.trail.covers j x = true) : x < t.trail.length :=
            h.linking_lt (Trail.linking_iff.2 ⟨j, hj⟩)
          rcases hnew hj with hj | ⟨hji, hge⟩
          · rcases hnew hk with hk | ⟨-, hge⟩
            · exact h.apart hj hk
            · exact absurd (hold hj) (Nat.not_lt.2 hge)
          · rcases hnew hk with hk | ⟨hki, -⟩
            · exact absurd (hold hk) (Nat.not_lt.2 hge)
            · exact hji.trans hki.symm
        recorded := fun {x} hx => by
          obtain ⟨hlt, hl⟩ := h.recorded hx
          refine ⟨Nat.lt_of_lt_of_le hlt hlength, fun hl' => ?_⟩
          exact (hlinking.1 hl').elim hl fun hge => absurd hlt (Nat.not_lt.2 hge.1)
        late := fun {x} hx => by
          rcases hx with hx | hx
          · exact (hmore h).late (.inl hx)
          · rcases hlinking.1 hx with hx | ⟨hx, -⟩
            · exact (hmore h).late (.inr hx)
            · exact ⟨Nat.le_trans h.start hx, .inl (Nat.le_trans h.notified hx)⟩
        unindexed := fun {x} hx hle hn => by
          refine h.unindexed ⟨Nat.lt_of_not_le fun hge => ?_, fun hl => hx.2 ?_⟩ hle hn
          · exact hx.2 (hlinking.2 (.inr ⟨hge, hx.1⟩))
          · exact hlinking.2 (.inl hl) }

end Tally
end KeyedLog
