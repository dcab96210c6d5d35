import KeyedLog.Proofs.Operation.Access
import KeyedLog.Proofs.Operation.Engaged

/-! Where a bucket begins: the head that is found leads to everything that was settled when it was
asked for. -/
namespace KeyedLog

namespace Heads

def collect (found : KeyHash → Option Nat) (m : Heads) (hs : List KeyHash) : Heads :=
  hs.foldl (fun m h => match found h with | some y => m.insert h y | none => m) m

theorem getElem?_collect (found : KeyHash → Option Nat) (m : Heads) (hs : List KeyHash)
    (h : KeyHash) :
    (collect found m hs)[h]? = if h ∈ hs then (found h).or m[h]? else m[h]? := by
  induction hs generalizing m with
  | nil => rfl
  | cons g hs ih =>
    have hone : (match found g with | some y => m.insert g y | none => m)[h]? =
        if g = h then (found h).or m[h]? else m[h]? := by
      cases hf : found g with
      | none =>
        dsimp only
        split
        · next hg => rw [← hg, hf]; rfl
        · rfl
      | some y =>
        dsimp only
        rw [getElem?_insert]
        split
        · next hg => rw [← hg, hf]; rfl
        · rfl
    rw [collect, List.foldl_cons]
    have := ih (match found g with | some y => m.insert g y | none => m)
    rw [collect, hone] at this
    rw [this]
    by_cases hg : g = h
    · subst hg
      simp only [List.mem_cons_self, if_true]
      split
      · cases found g <;> rfl
      · rfl
    · simp [hg, Ne.symm hg]

end Heads

namespace Tables

variable {t : Tables} {segment ref generation : Nat}

/-- The head of a bucket, once the persisted one was asked for. -/
def foundHead (s : SegmentState) (generation : Nat) (value : KeyHash → Option Nat) (h : KeyHash) :
    Option Nat :=
  if s.generation = generation then value h else s.heads[h]?.or (value h)

theorem settleHead_snd (h : KeyHash) (value : KeyHash → Option Nat) :
    (settleHead t segment ref generation h (value h)).2 =
      foundHead (t.state ref) generation value h := by
  unfold settleHead foundHead
  dsimp only
  by_cases hg : (t.state ref).generation = generation
  · rw [if_pos hg, if_pos hg]
    cases value h <;> rfl
  · rw [if_neg hg, if_neg hg]
    cases (t.state ref).heads[h]? <;> rfl

/-- Only the cache is touched, and only by heads that were asked for in vain so far. -/
theorem settleHead_fst (h : KeyHash) (p : Option Nat) :
    (settleHead t segment ref generation h p).1 = t ∨
      ∃ y, p = some y ∧ (t.state ref).generation = generation ∧
        (settleHead t segment ref generation h p).1 =
          { t with cache := t.cache.insert ⟨segment, h⟩ y } := by
  unfold settleHead
  dsimp only
  by_cases hg : (t.state ref).generation = generation
  · rw [if_pos hg]
    cases p with
    | none => exact .inl rfl
    | some y => exact .inr ⟨y, rfl, hg, rfl⟩
  · rw [if_neg hg]
    exact .inl rfl

theorem settleHeads_cons (m : Heads) (h : KeyHash) (p : Option Nat)
    (l : List (KeyHash × Option Nat)) :
    settleHeads segment ref generation t m ((h, p) :: l) =
      settleHeads segment ref generation (settleHead t segment ref generation h p).1
        (match (settleHead t segment ref generation h p).2 with
          | some y => m.insert h y
          | none => m) l := by
  unfold settleHeads
  rw [List.foldl_cons]
  dsimp only
  generalize settleHead t segment ref generation h p = r
  obtain ⟨t', _ | y⟩ := r <;> rfl

theorem settleHeads_spec (value : KeyHash → Option Nat) (hs : List KeyHash) (m : Heads) :
    let r := settleHeads segment ref generation t m (hs.zip (hs.map value))
    r.2 = Heads.collect (foundHead (t.state ref) generation value) m hs ∧
      r.1 = { t with cache := r.1.cache } ∧
      ∀ {h y}, r.1.cache.get? ⟨segment, h⟩ = some y → t.cache.get? ⟨segment, h⟩ = some y ∨
        h ∈ hs ∧ value h = some y ∧ (t.state ref).generation = generation := by
  induction hs generalizing t m with
  | nil => exact ⟨rfl, rfl, .inl⟩
  | cons g hs ih =>
    have hfst := @settleHead_fst t segment ref generation g (value g)
    have hsnd := @settleHead_snd t segment ref generation g value
    have hstep := @settleHeads_cons t segment ref generation m g (value g) (hs.zip (hs.map value))
    rw [hsnd] at hstep
    have hstate :
        (settleHead t segment ref generation g (value g)).1.state ref = t.state ref := by
      rcases hfst with h | ⟨y, -, -, h⟩
      · rw [h]
      · rw [h]; rfl
    obtain ⟨hheads, htables, hcache⟩ := @ih (settleHead t segment ref generation g (value g)).1
      (match foundHead (t.state ref) generation value g with
        | some y => m.insert g y | none => m)
    rw [hstate] at hheads hcache
    rw [List.map_cons, List.zip_cons_cons, hstep]
    refine ⟨hheads, ?_, fun {h y} hy => ?_⟩
    · rw [htables]
      rcases hfst with h | ⟨y, -, -, h⟩
      · rw [h]
      · rw [h]
    · rcases hcache hy with hy | ⟨hmem, hrest⟩
      · rcases hfst with h' | ⟨x, hx, hg, h'⟩
        · exact .inl (h' ▸ hy)
        · rw [h'] at hy
          rcases Cache.of_get?_insert hy with hy | ⟨hb, rfl⟩
          · exact .inl hy
          · obtain rfl := (Bucket.mk.inj hb).2
            exact .inr ⟨by simp, hx, hg⟩
      · exact .inr ⟨by simp [hmem], hrest⟩

end Tables

namespace Site

open Program

variable {S : Site} {i : Nat} {z z' z'' : Scene} {w v u : World Tables Account} {h : KeyHash}

/-- A place to look from for all that was settled of a bucket in an earlier scene. -/
def Begins (S : Site) (z z' : Scene) (h : KeyHash) : Option Nat → Prop
  | some y => S.Linked z'.ghost.toLedger z'.attributes y h ∧
      ∀ x, z.ghost.Settled x → S.Entry z.ghost.log x h → x ≤ y
  | none => ∀ x, z.ghost.Settled x → ¬S.Entry z.ghost.log x h

theorem Begins.grow {o : Option Nat} (hb : S.Begins z z' h o) (hg : Endures z' z'') :
    S.Begins z z'' h o := by
  cases o with
  | none => exact hb
  | some y => exact ⟨hb.1.grow hg.log hg.attributes hg.settled, hb.2⟩

theorem Begins.before {o : Option Nat} (hb : S.Begins z' z'' h o) (hg : Endures z z') :
    S.Begins z z'' h o := by
  cases o with
  | none => exact fun x hx he => hb x (hg.settled hx) (he.mono hg.log)
  | some y => exact ⟨hb.1, fun x hx he => hb.2 x (hg.settled hx) (he.mono hg.log)⟩

theorem Begins.of_newest {y : Nat} (hy : S.Newest z'.ghost.toLedger z'.attributes y h)
    (hg : Endures z z') : S.Begins z z' h (some y) :=
  ⟨hy.1, fun x hx he => hy.2 x (hg.settled hx) (he.mono hg.log)⟩

theorem Accessed.rooted (hw : S.Accessed w) {x : Nat} (hx : w.ghost.Settled x)
    (he : S.Entry w.ghost.log x h) (hn : (S.scene w).state.heads[h]? = none) :
    (S.scene w).attributes.Rooted x h := by
  by_cases hs : S.start ≤ x
  · exact hw.inv.coherent.tail.rooted hx hs he hn
  · have hr := hw.reached
    exact (hw.inv.coherent.marked.below he (by omega)).2

/-- The predecessor of an entry is found in the tail or among the attributes. -/
theorem Coherent.previous {x : Nat} (hz : S.Coherent z) (he : S.Entry z.ghost.log x h)
    (hx : z.attributes.Indexed x ∨
      z.ghost.Settled x ∧ (S.start ≤ x ∨ x < z.state.watermark.offset)) :
    LastBefore (S.Entry z.ghost.log · h) x
      (z.state.backpointers[x]?.getD z.attributes[AttributeId.backpointer x]?) := by
  cases hp : z.state.backpointers[x]? with
  | some p =>
    obtain ⟨h', he', hlast⟩ := hz.tail.backpointer hp
    exact he.unique he' ▸ hlast
  | none =>
    rcases hx with hx | ⟨hsettled, hs | hm⟩
    · exact (hz.faithful.indexed he hx).1
    · exact hz.tail.chained hsettled hs he hp
    · exact (hz.marked.below he hm).1

/-- The predecessor of an entry, as it was known of the segment at some time and is persisted by
now. -/
def Retraces (S : Site) (s : SegmentState) (z : Scene) (x : Nat) (h : KeyHash) : Prop :=
  LastBefore (S.Entry z.ghost.log · h) x
    (s.backpointers[x]?.getD z.attributes[AttributeId.backpointer x]?)

theorem Accessed.retraces {x : Nat} (hw : S.Accessed w)
    (hx : S.Linked w.ghost.toLedger (S.scene w).attributes x h) :
    S.Retraces (S.scene w).state (S.scene w) x h := by
  have hr := hw.reached
  refine hw.inv.coherent.previous hx.1 ?_
  rcases hx.2 with hf | hi
  · exact .inr ⟨⟨hx.1.lt, hf⟩, by omega⟩
  · exact .inl hi

theorem Retraces.grow {s : SegmentState} {x : Nat} (hs : S.Retraces s z x h)
    (hx : S.Entry z.ghost.log x h) (hg : Endures z z')
    (hb : ∀ {y p k}, z'.attributes[AttributeId.backpointer y]? = some p →
      S.Entry z'.ghost.log y k → LastBefore (S.Entry z'.ghost.log · k) y (some p)) :
    S.Retraces s z' x h := by
  unfold Retraces at hs ⊢
  cases hp : s.backpointers[x]? with
  | some p =>
    rw [hp] at hs
    exact (lastBefore_append hg.log (Nat.le_of_lt hx.lt)).1 hs
  | none =>
    rw [hp] at hs
    have hchained : S.Chained z.ghost.log z.attributes x h := hs
    exact hchained.grow hg.log hg.attributes hb hx

theorem newest_of_knownHead (hw : S.Inv w) (hh : h.Proper) {y : Nat}
    (hy : w.state.knownHead S.segment S.place h = some y) :
    S.Newest w.ghost.toLedger (S.scene w).attributes y h := by
  unfold Tables.knownHead at hy
  split at hy
  · next y' hy' => exact hw.coherent.tail.head (Option.some.inj hy ▸ hy')
  · exact hw.coherent.cache hh hy

theorem heads_of_knownHead (hn : w.state.knownHead S.segment S.place h = none) :
    (S.scene w).state.heads[h]? = none := by
  unfold Tables.knownHead at hn
  split at hn
  · cases hn
  · next hh => exact hh

/-- A head that is not known is looked up, and what is persisted by then will do. -/
theorem Accessed.begins (hw : S.Accessed w) (hv : S.Inv v) (hwv : Grows (S.scene w) (S.scene v))
    (hh : h.Proper) (hn : w.state.knownHead S.segment S.place h = none) :
    S.Begins (S.scene w) (S.scene v) h (S.scene v).attributes[AttributeId.bucket h]? := by
  have hroot {x : Nat} (hx : w.ghost.Settled x) (he : S.Entry w.ghost.log x h) :
      (S.scene v).attributes.Rooted x h :=
    (hw.rooted hx he (heads_of_knownHead hn)).advance hwv.attributes he.proper
  cases hy : (S.scene v).attributes[AttributeId.bucket h]? with
  | none =>
    intro x hx he
    obtain ⟨y, hy', -⟩ := hroot hx he
    rw [hy] at hy'
    cases hy'
  | some y =>
    refine ⟨hv.coherent.faithful.bucket hh hy, fun x hx he => ?_⟩
    obtain ⟨y', hy', hle⟩ := hroot hx he
    rw [hy] at hy'
    rwa [Option.some.inj hy']

/-- The tail is consulted again, in case it has changed in the meantime. -/
theorem Begins.foundHead {value : KeyHash → Option Nat} (hu : S.Inv u)
    (hb : S.Begins (S.scene w) (S.scene u) h (value h)) (hwu : Grows (S.scene w) (S.scene u))
    (generation : Nat) :
    S.Begins (S.scene w) (S.scene u) h
      (Tables.foundHead (u.state.state S.place) generation value h) := by
  unfold Tables.foundHead
  split
  · exact hb
  · cases hy : (u.state.state S.place).heads[h]? with
    | none => exact hb
    | some y => exact .of_newest (hu.coherent.tail.head hy) hwu.toEndures

/-- What begins a bucket is the newest entry of it if the tail has not changed. -/
theorem Begins.newest {y : Nat} (hb : S.Begins (S.scene w) (S.scene u) h (some y))
    (hwu : S.Minds i (S.scene w) (S.scene u))
    (hgen : (S.scene u).state.generation = (S.scene w).state.generation) :
    S.Newest u.ghost.toLedger (S.scene u).attributes y h := by
  refine ⟨hb.1, fun x hx he => ?_⟩
  have hx := hwu.unmoved hgen hx
  exact hb.2 x hx (he.of_lt hwu.log hx.lt)

theorem getElem?_known (hashes : List KeyHash) :
    (Heads.collect (w.state.knownHead S.segment S.place) ∅ hashes)[h]? =
      if h ∈ hashes then w.state.knownHead S.segment S.place h else none := by
  rw [Heads.getElem?_collect]
  simp

/-- Heads are found in the tail, in the cache or among the attributes, and are as new as the tail
was when they were asked for. -/
theorem obeys_headsWith (hashes : List KeyHash) (hw : S.Accessed w) (hf : w.ghost.fresh i = none) :
    (Tables.headsWith S.segment S.place hashes).Obeys S.rules i
      (fun heads v => S.Accessed v ∧ S.Minds i (S.scene w) (S.scene v) ∧
        ∀ h ∈ hashes, h.Proper → S.Begins (S.scene w) (S.scene v) h heads[h]?)
      (fun _ v => S.Inv v ∧ S.Minds i (S.scene w) (S.scene v) ∧ ¬S.calm) w := by
  unfold Tables.headsWith
  rw [obeys_bind, obeys_read]
  have hknown (h : KeyHash) := @getElem?_known S w h hashes
  unfold Heads.collect at hknown
  dsimp only
  generalize List.foldl _ (∅ : Heads) hashes = known at hknown ⊢
  generalize hmis : (hashes.filter fun hash => (w.state.knownHead S.segment S.place hash).isNone) =
    missing
  have hmem (h : KeyHash) (hh : h ∈ hashes) :
      h ∈ missing ↔ w.state.knownHead S.segment S.place h = none := by
    rw [← hmis, List.mem_filter, Option.isNone_iff_eq_none]
    exact and_iff_right hh
  -- A head that is known to begin with need not be looked up.
  have hdone {v : World Tables Account} (hwv : Grows (S.scene w) (S.scene v)) {h : KeyHash}
      (hh : h ∈ hashes) (hproper : h.Proper) (hm : h ∉ missing) :
      S.Begins (S.scene w) (S.scene v) h known[h]? := by
    rw [hknown, if_pos hh]
    cases hy : w.state.knownHead S.segment S.place h with
    | none => exact absurd ((hmem h hh).2 hy) hm
    | some y =>
      have hnewest := newest_of_knownHead hw.inv hproper hy
      exact (Begins.of_newest hnewest (.refl _)).grow hwv.toEndures
  split
  · next hempty =>
    have hnil : missing = [] := List.isEmpty_iff.1 hempty
    exact ⟨hw, .refl i _, fun h hh hproper => hdone (.refl _) hh hproper (by simp [hnil])⟩
  · refine obeys_request_bind (.getAttributes S.segment (missing.map .bucket)) hf (by simp)
      (fun v hv hwv => ⟨_, looks_attributes hv.stores _, fun u hu hvu => ?_⟩)
      fun e u hc hu hwu => ⟨hu, hwu.toMinds, hc⟩
    have hwv : S.Sees i (S.scene w) (S.scene v) := hwv
    have hvu : S.Sees i (S.scene v) (S.scene u) := hvu
    have hwu := hwv.toMinds.trans hvu.toMinds
    rw [List.map_map, obeys_bind, obeys_read]
    generalize hval : (fun h => (S.scene v).attributes[AttributeId.bucket h]?) = value
    rw [show ((fun a => (S.scene v).attributes[a]?) ∘ AttributeId.bucket) = value from hval]
    have hvalue {h : KeyHash} (hproper : h.Proper) (hh : h ∈ missing) :
        S.Begins (S.scene w) (S.scene u) h (value h) := by
      have hin : h ∈ hashes := (List.mem_filter.1 (hmis ▸ hh)).1
      rw [← hval]
      exact (hw.begins hv hwv.toGrows hproper ((hmem h hin).1 hh)).grow hvu.toEndures
    obtain ⟨hheads, htables, hcache⟩ := @Tables.settleHeads_spec u.state S.segment S.place
      (w.state.state S.place).generation value missing known
    generalize Tables.settleHeads S.segment S.place (w.state.state S.place).generation u.state known
      _ = r at hheads htables hcache ⊢
    obtain ⟨t, m⟩ := r
    obtain ⟨c, rfl⟩ : ∃ c, t = { u.state with cache := c } := ⟨_, htables⟩
    have hnew {h : KeyHash} {y : Nat} (hproper : h.Proper) (hy : c.get? ⟨S.segment, h⟩ = some y) :
        S.Newest u.ghost.toLedger (S.scene u).attributes y h := by
      rcases hcache hy with hy | ⟨hm, hy, hgen⟩
      · exact hu.coherent.cache hproper hy
      · exact Begins.newest (hy ▸ hvalue hproper hm) hwu hgen
    rw [obeys_bind]
    refine obeys_cache hu (fun _ => c) hnew fun b hb hub _ _ => ?_
    have hwb := hwu.trans hub
    refine ⟨hw.grow hb hwb.toGrows, hwb, fun h hh hproper => ?_⟩
    rw [show m = _ from hheads, Heads.getElem?_collect]
    by_cases hm : h ∈ missing
    · rw [if_pos hm, hknown, if_pos hh, (hmem h hh).1 hm, Option.or_none]
      exact ((hvalue hproper hm).foundHead hu hwu.toGrows _).grow hub.toEndures
    · rw [if_neg hm]
      exact hdone hwb.toGrows hh hproper hm

/-- Heads that are asked for are as new as all that was settled by then. -/
theorem obeys_heads (hw : S.Inv w) (hf : w.ghost.fresh i = none)
    (hr : w.ghost.recoverer ≠ some i) (hi : S.calm → i = 0) (hashes : List KeyHash) :
    (Tables.heads S.config S.segment hashes).Obeys S.rules i
      (fun heads v => S.Accessed v ∧ S.Minds i (S.scene w) (S.scene v) ∧
        ∀ h ∈ hashes, h.Proper → S.Begins (S.scene w) (S.scene v) h heads[h]?)
      (fun _ v => S.Inv v ∧ S.Minds i (S.scene w) (S.scene v) ∧
        (S.calm → ¬S.Bounded v.ghost.log)) w := by
  unfold Tables.heads
  refine (obeys_bind _ _ _ _).2 ((obeys_access hi hw hf hr).mono ?_ fun _ _ h => h)
  rintro ref v ⟨rfl, hv, hwv⟩
  refine (obeys_headsWith hashes hv (hwv.fresh.trans hf)).mono ?_ ?_
  · rintro heads u ⟨hu, hvu, hbegins⟩
    exact ⟨hu, hwv.trans hvu, fun h hh hproper => (hbegins h hh hproper).before hwv.toEndures⟩
  · rintro e u ⟨hu, hvu, hc⟩
    exact ⟨hu, hwv.trans hvu, fun hc' => absurd hc' hc⟩

/-- Whoever looks at the state right after an access learns which entry comes before another one, or
that this is persisted. -/
theorem obeys_consult {x : Nat} (hw : S.Inv w) (hf : w.ghost.fresh i = none)
    (hr : w.ghost.recoverer ≠ some i) (hi : S.calm → i = 0)
    (hx : S.Linked w.ghost.toLedger (S.scene w).attributes x h) :
    (Tables.consult S.config S.segment).Obeys S.rules i
      (fun s v => S.Minds i (S.scene w) (S.scene v) ∧ S.Retraces s (S.scene v) x h)
      (fun _ v => S.Minds i (S.scene w) (S.scene v) ∧ (S.calm → ¬S.Bounded v.ghost.log)) w := by
  unfold Tables.consult
  refine (obeys_bind _ _ _ _).2 ((obeys_access hi hw hf hr).mono ?_ fun _ _ h => h.2)
  rintro ref v ⟨rfl, hv, hwv⟩
  exact ⟨hwv, hv.retraces (hx.grow hwv.log hwv.attributes hwv.settled)⟩

end Site
end KeyedLog
