import KeyedLog.Proofs.Program.Simulation
import KeyedLog.Proofs.Segment.Memory

/-! An extension as far as one of its segments goes, and what its other segments have to do with
it: nothing. -/
namespace KeyedLog

/-- Which of the states in an extension were made for a certain segment, in order. -/
structure Roster where
  refs : List Nat
  size : Nat

namespace Roster

variable {w v u : Roster} {r r' : Nat}

structure Later (w v : Roster) : Prop where
  size : w.size ≤ v.size
  refs : ∃ more, v.refs = w.refs ++ more ∧ ∀ r ∈ more, w.size ≤ r

/-- The place of a state, and its place where there are no states but those of the segment. -/
def At (w : Roster) (r r' : Nat) : Prop := w.refs[r']? = some r

structure Foreign (w : Roster) (r : Nat) : Prop where
  lt : r < w.size
  notMem : r ∉ w.refs

theorem Later.refl (w : Roster) : w.Later w := ⟨Nat.le_refl _, [], by simp⟩

theorem Later.trans (h : w.Later v) (h' : v.Later u) : w.Later u := by
  obtain ⟨more, hv, hmore⟩ := h.refs
  obtain ⟨more', hu, hmore'⟩ := h'.refs
  refine ⟨Nat.le_trans h.size h'.size, more ++ more', by rw [hu, hv, List.append_assoc], ?_⟩
  intro r hr
  rcases List.mem_append.1 hr with hr | hr
  · exact hmore r hr
  · exact Nat.le_trans h.size (hmore' r hr)

theorem At.later (h : w.At r r') (hv : w.Later v) : v.At r r' := by
  obtain ⟨more, hmore, -⟩ := hv.refs
  unfold At
  rw [hmore, List.getElem?_append_left]
  · exact h
  · exact (List.getElem?_eq_some_iff.1 h).1

theorem Foreign.later (h : w.Foreign r) (hv : w.Later v) : v.Foreign r := by
  obtain ⟨more, hmore, hle⟩ := hv.refs
  refine ⟨Nat.lt_of_lt_of_le h.lt hv.size, ?_⟩
  rw [hmore, List.mem_append]
  rintro (hr | hr)
  · exact h.notMem hr
  · exact absurd (hle r hr) (Nat.not_le.2 h.lt)

theorem Foreign.ne (h : w.Foreign r) {s s' : Nat} (hs : w.At s s') : r ≠ s := by
  rintro rfl
  exact h.notMem (List.mem_of_getElem? hs)

def push (w : Roster) : Roster := ⟨w.refs, w.size + 1⟩

def enter (w : Roster) : Roster := ⟨w.refs ++ [w.size], w.size + 1⟩

theorem later_push (w : Roster) : w.Later w.push := ⟨Nat.le_succ _, [], by simp [push]⟩

theorem later_enter (w : Roster) : w.Later w.enter :=
  ⟨Nat.le_succ _, [w.size], rfl, by simp⟩

end Roster

namespace Cache

variable {c : Cache} {b b' : Bucket} {x : Nat}

theorem get?_erase : (c.erase b).get? b' = if b = b' then none else c.get? b' := by
  show (c.heads.erase b)[b']? = _
  rcases getElem?_erase_eq c.heads b b' with ⟨hb, he⟩ | ⟨hb, he⟩
  · rw [he, if_pos hb]
  · rw [he, if_neg hb]
    rfl

theorem get?_insert_of_ne (hb : b ≠ b') : (c.insert b x).get? b' = c.get? b' := by
  unfold insert
  split
  · show (c.heads.insert b x)[b']? = _
    rcases getElem?_insert_eq c.heads b b' x with ⟨he, -⟩ | ⟨-, he⟩
    · exact absurd he hb
    · exact he
  · rfl

theorem get?_insert (hc : c.size < c.capacity) :
    (c.insert b x).get? b' = if b = b' then some x else c.get? b' := by
  have hroom : (c.heads.insert b x).size ≤ c.capacity :=
    Nat.le_trans Std.ExtTreeMap.size_insert_le hc
  split
  · next hb =>
    unfold insert
    rw [dif_pos hroom]
    show (c.heads.insert b x)[b']? = _
    rcases getElem?_insert_eq c.heads b b' x with ⟨-, he⟩ | ⟨hne, -⟩
    · exact he
    · exact absurd hb hne
  · next hb => exact get?_insert_of_ne hb

theorem capacity_insert : (c.insert b x).capacity = c.capacity := by
  unfold insert
  split <;> rfl

/-- What is cached elsewhere under another name for each bucket is at least as much. -/
theorem size_le_of_embeds {d : Cache} (f : Bucket → Bucket)
    (hf : ∀ b b', c.get? b ≠ none → c.get? b' ≠ none → f b = f b' → b = b')
    (hd : ∀ b, c.get? b ≠ none → d.get? (f b) ≠ none) : c.size ≤ d.size := by
  have hmem {e : Cache} {b : Bucket} : b ∈ e.heads.keys ↔ e.get? b ≠ none := by
    rw [Std.ExtTreeMap.mem_keys, Std.ExtTreeMap.mem_iff_isSome_getElem?, Option.isSome_iff_ne_none]
    rfl
  have hnodup : (c.heads.keys.map f).Nodup := by
    rw [List.nodup_iff_pairwise_ne, List.pairwise_map]
    refine List.Pairwise.imp_of_mem ?_ (List.nodup_iff_pairwise_ne.1 Std.ExtTreeMap.nodup_keys)
    intro b b' hb hb' hne he
    exact hne (hf b b' (hmem.1 hb) (hmem.1 hb') he)
  have hsubset : c.heads.keys.map f ⊆ d.heads.keys := by
    intro b hb
    obtain ⟨a, ha, rfl⟩ := List.mem_map.1 hb
    exact hmem.2 (hd a (hmem.1 ha))
  have hle := hnodup.length_le_of_subset hsubset
  rw [List.length_map, Std.ExtTreeMap.length_keys, Std.ExtTreeMap.length_keys] at hle
  exact hle

end Cache

namespace Tables

/-- The second extension is the first one, as far as a segment goes, and has no other. -/
structure Restricts (k : Nat) (w : Roster) (t u : Tables) : Prop where
  closed : t.closed = u.closed
  indexClosed : t.indexClosed = u.indexClosed
  capacity : t.cache.capacity = u.cache.capacity
  size : t.states.size = w.size
  count : u.states.size = w.refs.length
  lt : ∀ {r : Nat}, r ∈ w.refs → r < w.size
  nodup : w.refs.Nodup
  tracked : Option.Rel w.At t.tracked[k]? u.tracked[0]?
  foreign : ∀ {j r : Nat}, j ≠ k → t.tracked[j]? = some r → w.Foreign r
  state : ∀ {r r' : Nat}, w.At r r' → t.state r = u.state r'
  cached : ∀ hash : KeyHash, t.cache.get? ⟨k, hash⟩ = u.cache.get? ⟨0, hash⟩
  single : ∀ {b : Bucket}, u.cache.get? b ≠ none → b.segment = 0
  locked : ∀ hash : KeyHash,
    t.locks.held.contains ⟨k, hash⟩ = u.locks.held.contains ⟨0, hash⟩

theorem restricts_initial (config : Config) (k : Nat) :
    Restricts k ⟨[], 0⟩ (initial config) (initial config) where
  closed := rfl
  indexClosed := rfl
  capacity := rfl
  size := rfl
  count := rfl
  lt hr := by cases hr
  nodup := .nil
  tracked := by
    show Option.Rel _ (∅ : Std.ExtTreeMap Nat Nat)[k]? (∅ : Std.ExtTreeMap Nat Nat)[0]?
    simp only [Std.ExtTreeMap.getElem?_empty]
    exact .none
  foreign _ hr := by
    rw [initial, Std.ExtTreeMap.getElem?_empty] at hr
    cases hr
  state hr := by cases hr
  cached hash := by
    show (∅ : Std.ExtTreeMap Bucket Nat)[_]? = (∅ : Std.ExtTreeMap Bucket Nat)[_]?
    simp
  single hb := absurd Std.ExtTreeMap.getElem?_empty hb
  locked hash := by
    show (∅ : Std.ExtTreeSet Bucket).contains _ = (∅ : Std.ExtTreeSet Bucket).contains _
    simp

theorem state_modifyState (t : Tables) (r s : Nat) (f : SegmentState → SegmentState) :
    (t.modifyState r f).state s =
      if r = s ∧ s < t.states.size then f (t.state s) else t.state s := by
  unfold state modifyState
  rw [Array.getElem?_modify]
  split
  · next h =>
    subst h
    by_cases hlt : r < t.states.size
    · simp [hlt]
    · simp [hlt]
  · next h => rw [if_neg fun hc => h hc.1]

/-- A state that nobody has changed yet is as good as none. -/
theorem state_track (t : Tables) (k r : Nat) : (t.track k).1.state r = t.state r := by
  unfold track
  split
  · rfl
  · show (t.states.push .initial)[r]?.getD .initial = t.states[r]?.getD .initial
    rw [Array.getElem?_push]
    split
    · next h =>
      subst h
      simp
    · rfl

theorem track_of_none {t : Tables} {k : Nat} (h : t.tracked[k]? = none) :
    t.track k = ({ t with
      tracked := t.tracked.insert k t.states.size
      states := t.states.push .initial }, t.states.size) := by
  unfold track
  rw [h]

namespace Restricts

variable {k j r r' : Nat} {w : Roster} {t u : Tables}

theorem size_le (h : Restricts k w t u) : u.cache.size ≤ t.cache.size := by
  apply Cache.size_le_of_embeds fun b => ⟨k, b.hash⟩
  · rintro ⟨j, hash⟩ ⟨j', hash'⟩ hb hb' he
    obtain rfl : j = 0 := h.single hb
    obtain rfl : j' = 0 := h.single hb'
    exact congrArg (Bucket.mk 0) (Bucket.mk.inj he).2
  · rintro ⟨j, hash⟩ hb
    obtain rfl : j = 0 := h.single hb
    rw [h.cached]
    exact hb

theorem ne_of_at (h : Restricts k w t u) {s s' : Nat} (hr : w.At r r') (hs : w.At s s')
    (hne : r' ≠ s') : r ≠ s := by
  rintro rfl
  have hlt := (List.getElem?_eq_some_iff.1 hr).1
  exact hne ((List.getElem?_inj hlt h.nodup).1 (hr.trans hs.symm))

theorem modifyState (h : Restricts k w t u) (hr : w.At r r')
    (f : SegmentState → SegmentState) :
    Restricts k w (t.modifyState r f) (u.modifyState r' f) where
  __ := h
  size := by simpa [Tables.modifyState] using h.size
  count := by simpa [Tables.modifyState] using h.count
  state {s s'} hs := by
    have hlt : s < t.states.size := h.size ▸ h.lt (List.mem_of_getElem? hs)
    have hlt' : s' < u.states.size := h.count ▸ (List.getElem?_eq_some_iff.1 hs).1
    rw [state_modifyState, state_modifyState, h.state hs]
    by_cases he : r' = s'
    · subst he
      obtain rfl : r = s := Option.some.inj (hr.symm.trans hs)
      rw [if_pos ⟨rfl, hlt⟩, if_pos ⟨rfl, hlt'⟩]
    · rw [if_neg fun hc => h.ne_of_at hr hs he hc.1, if_neg fun hc => he hc.1]

theorem untracked (h : Restricts k w t u) (ht : t.tracked[k]? = none) :
    u.tracked[0]? = none := by
  have htracked := h.tracked
  rw [ht] at htracked
  generalize u.tracked[0]? = o at htracked ⊢
  cases htracked
  rfl

theorem track (h : Restricts k w t u) (ht : t.tracked[k]? = none) :
    Restricts k w.enter (t.track k).1 (u.track 0).1 ∧
      w.enter.At (t.track k).2 (u.track 0).2 := by
  have hat : w.enter.At t.states.size u.states.size := by
    unfold Roster.At Roster.enter
    rw [h.size, h.count]
    exact List.getElem?_concat_length
  have hstate {r r' : Nat} (hr : w.enter.At r r') :
      (t.track k).1.state r = (u.track 0).1.state r' := by
    rw [state_track, state_track]
    by_cases he : r' < w.refs.length
    · exact h.state ((List.getElem?_append_left he).symm.trans hr)
    · obtain rfl : r' = u.states.size := by
        have hlt := (List.getElem?_eq_some_iff.1 hr).1
        have hlength : w.enter.refs.length = w.refs.length + 1 := List.length_append
        rw [h.count]
        omega
      obtain rfl : t.states.size = r := Option.some.inj (hat.symm.trans hr)
      simp [Tables.state]
  rw [track_of_none ht, track_of_none (h.untracked ht)] at *
  refine ⟨?_, hat⟩
  exact {
    h with
    size := by simp [Roster.enter, h.size]
    count := by simp [Roster.enter, h.count]
    lt := by
      intro r hr
      rcases List.mem_append.1 hr with hr | hr
      · exact Nat.lt_succ_of_lt (h.lt hr)
      · rw [List.mem_singleton.1 hr]
        exact Nat.lt_succ_self _
    nodup := by
      refine List.nodup_append.2 ⟨h.nodup, by simp, fun r hr s hs => ?_⟩
      rw [List.mem_singleton.1 hs]
      exact Nat.ne_of_lt (h.lt hr)
    tracked := by
      show Option.Rel _ (t.tracked.insert k _)[k]? (u.tracked.insert 0 _)[0]?
      rw [Std.ExtTreeMap.getElem?_insert_self, Std.ExtTreeMap.getElem?_insert_self]
      exact .some hat
    foreign := by
      intro j r hj hr
      rcases getElem?_insert_eq t.tracked k j t.states.size with ⟨he, -⟩ | ⟨-, he⟩
      · exact absurd he.symm hj
      · exact (h.foreign hj (he.symm.trans hr)).later (w.later_enter)
    state := hstate }

theorem untrack (h : Restricts k w t u) : Restricts k w (t.notify k none) (u.notify 0 none) where
  __ := h
  tracked := by
    show Option.Rel _ (t.tracked.erase k)[k]? (u.tracked.erase 0)[0]?
    rw [Std.ExtTreeMap.getElem?_erase_self, Std.ExtTreeMap.getElem?_erase_self]
    exact .none
  foreign {j r} hj hr := by
    rcases getElem?_erase_eq t.tracked k j with ⟨he, -⟩ | ⟨-, he⟩
    · exact absurd he.symm hj
    · exact h.foreign hj (he.symm.trans hr)

theorem insert (h : Restricts k w t u) (ht : t.Roomy) (hash : KeyHash) (x : Nat) :
    Restricts k w { t with cache := t.cache.insert ⟨k, hash⟩ x }
      { u with cache := u.cache.insert ⟨0, hash⟩ x } where
  __ := h
  capacity := by rw [Cache.capacity_insert, Cache.capacity_insert, h.capacity]
  cached g := by
    have hu : u.cache.size < u.cache.capacity :=
      h.capacity ▸ Nat.lt_of_le_of_lt h.size_le ht
    rw [Cache.get?_insert ht, Cache.get?_insert hu, h.cached]
    simp
  single {b} hb := by
    by_cases he : (⟨0, hash⟩ : Bucket) = b
    · rw [← he]
    · rw [Cache.get?_insert_of_ne he] at hb
      exact h.single hb

theorem erase (h : Restricts k w t u) (hash : KeyHash) :
    Restricts k w { t with cache := t.cache.erase ⟨k, hash⟩ }
      { u with cache := u.cache.erase ⟨0, hash⟩ } where
  __ := h
  cached g := by
    rw [Cache.get?_erase, Cache.get?_erase, h.cached]
    simp
  single {b} hb := by
    rw [Cache.get?_erase] at hb
    split at hb
    · exact absurd rfl hb
    · exact h.single hb

theorem take (h : Restricts k w t u) (hashes : List KeyHash) :
    Restricts k w { t with locks := t.locks.take (hashes.map (⟨k, ·⟩)) }
      { u with locks := u.locks.take (hashes.map (⟨0, ·⟩)) } where
  __ := h
  locked g := by
    rw [Locks.contains_take, Locks.contains_take, h.locked]
    simp

theorem release (h : Restricts k w t u) (hashes : List KeyHash) :
    Restricts k w { t with locks := t.locks.release (hashes.map (⟨k, ·⟩)) }
      { u with locks := u.locks.release (hashes.map (⟨0, ·⟩)) } where
  __ := h
  locked g := by
    rw [Locks.contains_release, Locks.contains_release, h.locked]
    simp

section Others

variable (hj : j ≠ k)

theorem modifyState_other (h : Restricts k w t u) (hr : w.Foreign r)
    (f : SegmentState → SegmentState) : Restricts k w (t.modifyState r f) u where
  __ := h
  size := by simpa [Tables.modifyState] using h.size
  state {s s'} hs := by
    rw [state_modifyState, if_neg fun hc => hr.ne hs hc.1]
    exact h.state hs

include hj in
theorem track_other (h : Restricts k w t u) (ht : t.tracked[j]? = none) :
    Restricts k w.push (t.track j).1 u ∧ w.push.Foreign (t.track j).2 := by
  have hstate (r : Nat) : (t.track j).1.state r = t.state r := state_track t j r
  have hforeign : w.push.Foreign t.states.size := by
    rw [h.size]
    exact ⟨Nat.lt_succ_self _, fun hr => Nat.lt_irrefl _ (h.lt hr)⟩
  rw [track_of_none ht] at *
  refine ⟨?_, hforeign⟩
  exact {
    h with
    size := by simp [Roster.push, h.size]
    lt := fun hr => Nat.lt_succ_of_lt (h.lt hr)
    tracked := by
      rcases getElem?_insert_eq t.tracked j k t.states.size with ⟨he, -⟩ | ⟨-, he⟩
      · exact absurd he hj
      · exact he ▸ h.tracked
    foreign := by
      intro i r hi hr
      rcases getElem?_insert_eq t.tracked j i t.states.size with ⟨-, he⟩ | ⟨-, he⟩
      · obtain rfl := Option.some.inj (he.symm.trans hr)
        exact hforeign
      · exact (h.foreign hi (he.symm.trans hr)).later w.later_push
    state := fun hr => (hstate _).trans (h.state hr) }

include hj in
theorem untrack_other (h : Restricts k w t u) : Restricts k w (t.notify j none) u where
  __ := h
  tracked := by
    rcases getElem?_erase_eq t.tracked j k with ⟨he, -⟩ | ⟨-, he⟩
    · exact absurd he hj
    · exact he ▸ h.tracked
  foreign {i r} hi hr := by
    rcases getElem?_erase_eq t.tracked j i with ⟨-, he⟩ | ⟨-, he⟩
    · exact absurd (he.symm.trans hr) (by simp)
    · exact h.foreign hi (he.symm.trans hr)

include hj in
theorem insert_other (h : Restricts k w t u) (hash : KeyHash) (x : Nat) :
    Restricts k w { t with cache := t.cache.insert ⟨j, hash⟩ x } u where
  __ := h
  capacity := by rw [Cache.capacity_insert, h.capacity]
  cached g := by
    rw [Cache.get?_insert_of_ne fun he => hj (Bucket.mk.inj he).1, h.cached]

include hj in
theorem erase_other (h : Restricts k w t u) (hash : KeyHash) :
    Restricts k w { t with cache := t.cache.erase ⟨j, hash⟩ } u where
  __ := h
  cached g := by
    rw [Cache.get?_erase, if_neg fun he => hj (Bucket.mk.inj he).1, h.cached]

include hj in
theorem take_other (h : Restricts k w t u) (hashes : List KeyHash) :
    Restricts k w { t with locks := t.locks.take (hashes.map (⟨j, ·⟩)) } u where
  __ := h
  locked g := by
    rw [Locks.contains_take, h.locked]
    simp [hj]

include hj in
theorem release_other (h : Restricts k w t u) (hashes : List KeyHash) :
    Restricts k w { t with locks := t.locks.release (hashes.map (⟨j, ·⟩)) } u where
  __ := h
  locked g := by
    rw [Locks.contains_release, h.locked]
    simp [hj]

end Others

end Restricts
end Tables

open Tables

/-- The segment in the extension, and the segment in the one that has no other. -/
def Pairing.within (k : Nat) : Pairing where
  World := Roster
  later := Roster.Later
  next := Roster.Later
  segments j j' := j = k ∧ j' = 0
  places := Roster.At
  alike := Restricts k
  later_refl := .refl
  later_trans := .trans
  next_refl := .refl
  later_of_next := id
  next_trans := .trans
  places_later hv hr := hr.later hv
  closed h := h.closed
  indexClosed h := h.indexClosed
  state h hr := h.state hr
  tracked h hk := hk.1 ▸ hk.2 ▸ h.tracked
  cached h hk := hk.1 ▸ hk.2 ▸ h.cached
  locked h hk := hk.1 ▸ hk.2 ▸ h.locked
  modifyState f h hr := h.modifyState hr f
  track := by
    rintro w t u _ _ h ⟨rfl, rfl⟩ ht
    exact ⟨w.enter, w.later_enter, h.track ht⟩
  untrack := by
    rintro w t u _ _ h ⟨rfl, rfl⟩
    exact h.untrack
  insert := by
    rintro w t u _ _ hash x h ⟨rfl, rfl⟩ ht
    exact h.insert ht hash x
  erase := by
    rintro w t u _ _ hash h ⟨rfl, rfl⟩
    exact h.erase hash
  take := by
    rintro w t u _ _ hashes h ⟨rfl, rfl⟩
    exact h.take hashes
  release := by
    rintro w t u _ _ hashes h ⟨rfl, rfl⟩
    exact h.release hashes

/-- Any other segment, next to itself. What is done to it leaves the extension that does not have it
as it is. -/
def Pairing.beside (k : Nat) : Pairing where
  World := Roster × Tables
  later w v := w.1.Later v.1
  next w v := w.1.Later v.1 ∧ v.2 = w.2
  segments j j' := j = j' ∧ j ≠ k
  places w r r' := r = r' ∧ w.1.Foreign r
  alike w t t' := t = t' ∧ t.Restricts k w.1 w.2
  later_refl w := .refl w.1
  later_trans := .trans
  next_refl w := ⟨.refl w.1, rfl⟩
  later_of_next h := h.1
  next_trans h h' := ⟨h.1.trans h'.1, h'.2.trans h.2⟩
  places_later hv hr := ⟨hr.1, hr.2.later hv⟩
  closed h := h.1 ▸ rfl
  indexClosed h := h.1 ▸ rfl
  state h hr := h.1 ▸ hr.1 ▸ rfl
  tracked := by
    rintro w t _ j _ ⟨rfl, h⟩ ⟨rfl, hj⟩
    cases ho : t.tracked[j]? with
    | none => exact .none
    | some r => exact .some ⟨rfl, h.foreign hj ho⟩
  cached h hk _ := h.1 ▸ hk.1 ▸ rfl
  locked h hk _ := h.1 ▸ hk.1 ▸ rfl
  modifyState := by
    rintro w t _ r _ f ⟨rfl, h⟩ ⟨rfl, hr⟩
    exact ⟨rfl, h.modifyState_other hr f⟩
  track := by
    rintro w t _ j _ ⟨rfl, h⟩ ⟨rfl, hj⟩ ht
    obtain ⟨htrack, hr⟩ := h.track_other hj ht
    exact ⟨(w.1.push, w.2), ⟨w.1.later_push, rfl⟩, ⟨rfl, htrack⟩, rfl, hr⟩
  untrack := by
    rintro w t _ j _ ⟨rfl, h⟩ ⟨rfl, hj⟩
    exact ⟨rfl, h.untrack_other hj⟩
  insert := by
    rintro w t _ j _ hash x ⟨rfl, h⟩ ⟨rfl, hj⟩ _
    exact ⟨rfl, h.insert_other hj hash x⟩
  erase := by
    rintro w t _ j _ hash ⟨rfl, h⟩ ⟨rfl, hj⟩
    exact ⟨rfl, h.erase_other hj hash⟩
  take := by
    rintro w t _ j _ hashes ⟨rfl, h⟩ ⟨rfl, hj⟩
    exact ⟨rfl, h.take_other hj hashes⟩
  release := by
    rintro w t _ j _ hashes ⟨rfl, h⟩ ⟨rfl, hj⟩
    exact ⟨rfl, h.release_other hj hashes⟩
end KeyedLog
