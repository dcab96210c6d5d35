import KeyedLog.Proofs.Segment.Growth
import KeyedLog.Proofs.Watermark.Basic

/-! Single steps of threads: each one keeps all that is remembered or persisted in agreement with
the log, and does to the others no more than they count on. -/
namespace KeyedLog.Site

variable {S : Site} {z z' z'' : Scene} {i j : Nat}

theorem Endures.refl (z : Scene) : Endures z z := ⟨List.prefix_rfl, id, .refl _⟩

theorem Endures.trans (h : Endures z z') (h' : Endures z' z'') : Endures z z'' where
  log := h.log.trans h'.log
  settled hx := h'.settled (h.settled hx)
  attributes := h.attributes.trans h'.attributes

theorem Grows.refl (z : Scene) : Grows z z where
  toEndures := .refl z
  head _ hy := ⟨_, hy, Nat.le_refl _⟩
  generation := Nat.le_refl _
  unmoved _ hx := hx
  tracked ht := ht
  recovered hr := hr
  watermark := Nat.le_refl _

theorem Grows.trans (h : Grows z z') (h' : Grows z' z'') : Grows z z'' where
  toEndures := h.toEndures.trans h'.toEndures
  head hh hy := by
    obtain ⟨x, hx, hle⟩ := h.head hh hy
    obtain ⟨u, hu, hle'⟩ := h'.head hh hx
    exact ⟨u, hu, Nat.le_trans hle hle'⟩
  generation := Nat.le_trans h.generation h'.generation
  unmoved hg hx := by
    have := h.generation
    have := h'.generation
    exact h.unmoved (by omega) (h'.unmoved (by omega) hx)
  tracked ht := h'.tracked (h.tracked ht)
  recovered hr := h'.recovered (h.recovered hr)
  watermark := Nat.le_trans h.watermark h'.watermark

theorem Minds.refl (i : Nat) (z : Scene) : S.Minds i z z where
  toGrows := .refl z
  fresh := rfl
  owner _ := Iff.rfl
  recoverer := Iff.rfl
  mine _ hx := hx
  alone _ _ := rfl

theorem Minds.trans (h : S.Minds i z z') (h' : S.Minds i z' z'') : S.Minds i z z'' where
  toGrows := h.toGrows.trans h'.toGrows
  fresh := h'.fresh.trans h.fresh
  owner k := (h'.owner k).trans (h.owner k)
  recoverer := h'.recoverer.trans h.recoverer
  mine ho hx := h.mine ho (h'.mine ((h.owner _).2 ho) hx)
  alone hc hi := (h'.alone hc hi).trans (h.alone hc hi)

theorem Sees.refl (i : Nat) (z : Scene) : S.Sees i z z where
  toMinds := .refl i z
  recovering _ hr := ⟨hr, fun _ => rfl⟩
  indexing _ _ := rfl

theorem Sees.trans (h : S.Sees i z z') (h' : S.Sees i z' z'') : S.Sees i z z'' where
  toMinds := h.toMinds.trans h'.toMinds
  recovering hr hn := by
    obtain ⟨hn', ha⟩ := h.recovering hr hn
    obtain ⟨hn'', ha'⟩ := h'.recovering (h.recoverer.2 hr) hn'
    exact ⟨hn'', fun hm => (ha' hm).trans (ha hm)⟩
  indexing hm hi := (h'.indexing hm hi).trans (h.indexing hm hi)

theorem Minds.rests (h : S.Minds i z z') (hr : z.ghost.Rests i) : z'.ghost.Rests i where
  fresh := h.fresh.trans hr.fresh
  owner k := fun hk => hr.owner k ((h.owner k).1 hk)
  recoverer := fun hk => hr.recoverer (h.recoverer.1 hk)

theorem rules_lawful (S : Site) : S.rules.Lawful where
  refl i _ := .refl i _
  trans h h' := Sees.trans h h'
  rely_of_guar hj h := h.1 _ hj
  tidy h ht := Eq.trans h.fresh ht
  rest h hr := h.toMinds.rests hr
  tidy_of_rest hr := hr.fresh

/-- A step of a thread that leads from one scene to another. -/
structure Moves (S : Site) (i : Nat) (z z' : Scene) : Prop where
  coherent : S.Coherent z'
  sees : ∀ j, j ≠ i → S.Sees j z z'

theorem Moves.trans (h : S.Moves i z z') (h' : S.Moves i z' z'') : S.Moves i z z'' :=
  ⟨h'.coherent, fun k hk => (h.sees k hk).trans (h'.sees k hk)⟩

theorem Moves.minds (h : S.Moves i z z') (hg : z'.ghost = z.ghost) : S.Minds i z z' where
  toGrows := (h.sees (i + 1) (Nat.succ_ne_self i)).toGrows
  fresh := by rw [hg]
  owner _ := by rw [hg]
  recoverer := by rw [hg]
  mine _ hx := by rwa [hg] at hx
  alone _ _ := by rw [hg]

/-- Changes of memory that concern nobody's possessions. -/
theorem Sees.of_memory (hg : z'.ghost = z.ghost) (ha : z'.attributes = z.attributes)
    (hh : ∀ {h : KeyHash} {y}, h.Proper → z.head h = some y → ∃ x, z'.head h = some x ∧ y ≤ x)
    (hgen : z.state.generation ≤ z'.state.generation) (ht : z.tracked = true → z'.tracked = true)
    (hr : z'.state.recovered = z.state.recovered)
    (hw : z.state.watermark.offset ≤ z'.state.watermark.offset) : S.Sees j z z' where
  log := by simp only [hg, List.prefix_rfl]
  settled hx := by rwa [hg]
  attributes := by rw [ha]; exact .refl _
  head := hh
  generation := hgen
  unmoved _ hx := by rwa [hg] at hx
  tracked := ht
  recovered h := hr.trans h
  watermark := hw
  fresh := by rw [hg]
  owner _ := by rw [hg]
  recoverer := by rw [hg]
  mine _ hx := by rwa [hg] at hx
  alone _ _ := by rw [hg]
  recovering _ hn := ⟨hr.trans hn, fun _ => ha⟩
  indexing _ _ := ha

section Memory

variable (hz : S.Coherent z)
include hz

theorem moves_cache {cache : KeyHash → Option Nat}
    (hc : ∀ {h y}, h.Proper → cache h = some y → S.Newest z.ghost.toLedger z.attributes y h) :
    S.Moves i z { z with cache } where
  coherent := { hz with cache := hc }
  sees _ _ :=
    .of_memory rfl rfl (fun _ hy => ⟨_, hy, Nat.le_refl _⟩) (Nat.le_refl _) id rfl
      (Nat.le_refl _)

theorem moves_track : S.Moves i z { z with tracked := true } where
  coherent := { hz with recovered := fun h => ⟨rfl, (hz.recovered h).2⟩ }
  sees _ _ :=
    .of_memory rfl rfl (fun _ hy => ⟨_, hy, Nat.le_refl _⟩) (Nat.le_refl _) (fun _ => rfl) rfl
      (Nat.le_refl _)

theorem moves_pending {pending : List PendingLinks}
    (hp : ∀ {b}, b ∈ pending → S.LinksHold z.ghost.toLedger b) :
    S.Moves i z { z with state := { z.state with pending } } where
  coherent := { hz with pending := hp }
  sees _ _ :=
    .of_memory rfl rfl (fun _ hy => ⟨_, hy, Nat.le_refl _⟩) (Nat.le_refl _) id rfl
      (Nat.le_refl _)

end Memory

section Watermark

variable {log : List Record} {a : Attributes} {w : Watermark}

theorem Marked.settle (hw : S.Marked log a w) : S.Marked log a w.settle where
  opened := hw.opened
  boundary := by
    rcases Watermark.absorb_fst w.offset w.completed with h | ⟨r, hr, h⟩
    · exact (show w.settle.offset = w.offset from h) ▸ hw.boundary
    · exact (show w.settle.offset = r.2 from h) ▸ (hw.ranges hr).1
  below he hlt := by
    rcases Watermark.absorb_cover hlt with h | ⟨r, hr, hle, h⟩
    · exact hw.below he h
    · exact (hw.ranges hr).2 he hle h
  ranges hr := hw.ranges (Watermark.mem_of_mem_absorb hr)

theorem Marked.raise (hw : S.Marked log a w) {n : Nat} (hb : Log.Boundary log n)
    (hp : ∀ {x h}, S.Entry log x h → x < n → S.Persisted log a x h) :
    S.Marked log a (w.raise n).1 := by
  unfold Watermark.raise
  split
  · exact hw
  · exact Marked.settle ⟨hw.opened, hb, hp, hw.ranges⟩

theorem Marked.complete (hw : S.Marked log a w) {start stop : Nat} (hb : Log.Boundary log stop)
    (hp : ∀ {x h}, S.Entry log x h → start ≤ x → x < stop → S.Persisted log a x h) :
    S.Marked log a (w.complete start stop).1 := by
  unfold Watermark.complete
  split
  · exact hw
  · refine Marked.settle ⟨hw.opened, hw.boundary, hw.below, fun {r} hr => ?_⟩
    rcases Watermark.mem_insertRange hr with hr | rfl | ⟨e, he, rfl⟩
    · exact hw.ranges hr
    · exact ⟨hb, hp⟩
    · obtain ⟨hbe, hpe⟩ := hw.ranges he
      refine ⟨hbe.max hb, fun {x h} hx hle hlt => ?_⟩
      by_cases hxe : x < e
      · exact hpe hx hle hxe
      · exact hp hx hle (by dsimp only at hlt; omega)

end Watermark

theorem moves_raise (hz : S.Coherent z) {n : Nat} (hb : Log.Boundary z.ghost.log n)
    (hp : ∀ {x h}, S.Entry z.ghost.log x h → x < n → S.Persisted z.ghost.log z.attributes x h) :
    S.Moves i z
      { z with state := { z.state with watermark := (z.state.watermark.raise n).1 } } where
  coherent :=
    { hz with
      recovered := fun hr =>
        let ⟨ht, hn, hw⟩ := hz.recovered hr
        ⟨ht, hn, fun hm => Nat.le_trans (hw hm) (Watermark.raise_le n).1⟩
      marked := hz.marked.raise hb hp }
  sees _ _ :=
    .of_memory rfl rfl (fun _ hy => ⟨_, hy, Nat.le_refl _⟩) (Nat.le_refl _) id rfl
      (Watermark.raise_le n).1

theorem Sees.of_owner (hg : z'.ghost.toLedger = z.ghost.toLedger)
    (ha : z'.attributes = z.attributes) (ht : z'.tracked = z.tracked)
    (hh : z'.state.heads = z.state.heads) (hgen : z'.state.generation = z.state.generation)
    (hr : z'.state.recovered = z.state.recovered)
    (hw : z'.state.watermark = z.state.watermark)
    (ho : ∀ h, z'.ghost.owner h = some j ↔ z.ghost.owner h = some j)
    (hrec : z'.ghost.recoverer = some j ↔ z.ghost.recoverer = some j) : S.Sees j z z' where
  log := by simp only [hg, List.prefix_rfl]
  settled hx := by rwa [hg]
  attributes := by rw [ha]; exact .refl _
  head _ hy := ⟨_, by rwa [Scene.head, hh, ha], Nat.le_refl _⟩
  generation := Nat.le_of_eq hgen.symm
  unmoved _ hx := by rwa [hg] at hx
  tracked h := ht.trans h
  recovered h := hr.trans h
  watermark := Nat.le_of_eq (congrArg Watermark.offset hw.symm)
  fresh := by rw [hg]
  owner := ho
  recoverer := hrec
  mine _ hx := by rwa [hg] at hx
  alone _ _ := by rw [hg]
  recovering _ hn := ⟨hr.trans hn, fun _ => ha⟩
  indexing _ _ := ha

section Ownership

variable (hz : S.Coherent z) (hi : S.calm → i = 0)
include hz

include hi in
theorem moves_lock {hs : List KeyHash} {held : KeyHash → Bool}
    (hfree : ∀ h ∈ hs, z.ghost.owner h = none)
    (hheld : ∀ h, held h = (decide (h ∈ hs) || z.held h)) :
    S.Moves i z { z with ghost := z.ghost.lock i hs, held } where
  coherent :=
    { hz with
      fresh_owned := fun {k s e x h} hf he hs' hx => by
        have ho := hz.fresh_owned hf he hs' hx
        by_cases hh : h ∈ hs
        · rw [hfree h hh] at ho
          cases ho
        · exact (if_neg hh).trans ho
      held := fun h => by
        by_cases hh : h ∈ hs
        · simp [hheld, Account.lock, hh]
        · simp [hheld, Account.lock, hh, hz.held]
      calm := fun hc k hk =>
        { fresh := (hz.calm hc k hk).fresh
          owner := fun h ho => by
            have hi := hi hc
            simp only [Account.lock] at ho
            split at ho
            · have := Option.some.inj ho
              omega
            · exact (hz.calm hc k hk).owner h ho
          recoverer := (hz.calm hc k hk).recoverer } }
  sees k hk := by
    refine .of_owner rfl rfl rfl rfl rfl rfl rfl (fun h => ?_) Iff.rfl
    by_cases hh : h ∈ hs
    · simp [Account.lock, hh, hfree h hh, Ne.symm hk]
    · simp [Account.lock, hh]

theorem moves_unlock {hs : List KeyHash} {held : KeyHash → Bool}
    (hmine : ∀ h ∈ hs, z.ghost.owner h = some i) (hfresh : z.ghost.fresh i = none)
    (hheld : ∀ h, held h = (!decide (h ∈ hs) && z.held h)) :
    S.Moves i z { z with ghost := z.ghost.unlock hs, held } where
  coherent :=
    { hz with
      fresh_owned := fun {k s e x h} hf he hs' hx => by
        have ho := hz.fresh_owned hf he hs' hx
        by_cases hh : h ∈ hs
        · rw [hmine h hh] at ho
          obtain rfl := Option.some.inj ho
          exact absurd (hfresh.symm.trans hf) (by simp)
        · exact (if_neg hh).trans ho
      held := fun h => by
        by_cases hh : h ∈ hs
        · simp [hheld, Account.unlock, hh]
        · simp [hheld, Account.unlock, hh, hz.held]
      calm := fun hc k hk =>
        { fresh := (hz.calm hc k hk).fresh
          owner := fun h ho => by
            simp only [Account.unlock] at ho
            split at ho
            · cases ho
            · exact (hz.calm hc k hk).owner h ho
          recoverer := (hz.calm hc k hk).recoverer } }
  sees k hk := by
    refine .of_owner rfl rfl rfl rfl rfl rfl rfl (fun h => ?_) Iff.rfl
    by_cases hh : h ∈ hs
    · simp [Account.unlock, hh, hmine h hh, Ne.symm hk]
    · simp [Account.unlock, hh]

include hi in
theorem moves_beginRecovery (hfree : z.ghost.recoverer = none) :
    S.Moves i z
      { z with
        ghost := { z.ghost with recoverer := some i }
        state := { z.state with recovering := true } } where
  coherent :=
    { hz with
      recovering := rfl
      calm := fun hc k hk =>
        { hz.calm hc k hk with
          recoverer := fun hr => hk ((Option.some.inj hr).symm.trans (hi hc)) } }
  sees k hk :=
    .of_owner rfl rfl rfl rfl rfl rfl rfl (fun _ => Iff.rfl) (by simp [hfree, Ne.symm hk])

theorem moves_endRecovery (hmine : z.ghost.recoverer = some i) :
    S.Moves i z
      { z with
        ghost := { z.ghost with recoverer := none }
        state := { z.state with recovering := false } } where
  coherent :=
    { hz with
      recovering := rfl
      calm := fun hc k hk => { hz.calm hc k hk with recoverer := fun hr => by cases hr } }
  sees k hk :=
    .of_owner rfl rfl rfl rfl rfl rfl rfl (fun _ => Iff.rfl) (by simp [hmine, Ne.symm hk])

theorem moves_recovered (hmine : z.ghost.recoverer = some i) (ht : z.tracked = true)
    (hn : z.state.recovered = none)
    (hw : S.config.mode = .inline → S.start ≤ z.state.watermark.offset) :
    S.Moves i z { z with state := { z.state with recovered := some S.start } } where
  coherent :=
    { hz with
      unrecovered := fun h => by cases h
      recovered := fun h => ⟨ht, (Option.some.inj h).symm, hw⟩ }
  sees k hk :=
    { Sees.refl k z with
      recovered := fun h => by rw [hn] at h; cases h
      recovering := fun hr => by
        rw [hmine] at hr
        exact absurd (Option.some.inj hr).symm hk }

end Ownership

/-- Attributes that stay true are written by whoever may. -/
theorem moves_write (hz : S.Coherent z) {a : Attributes} (ha : z.attributes.Advances a)
    (hf : S.Faithful z.ghost.toLedger a) (hd : S.config.mode = .deferred → i = 0)
    (hr : S.config.mode = .inline → z.state.recovered = none →
      z.ghost.recoverer = some i ∧ S.Uncut z.ghost.log a) :
    S.Moves i z { z with attributes := a } := by
  have hmarked : S.Marked z.ghost.log a z.state.watermark :=
    hz.marked.grow List.prefix_rfl ha hf.backpointer
  exact
    { coherent :=
        { hz with
          unrecovered := fun hn => ⟨(hz.unrecovered hn).1, fun hm => (hr hm hn).2⟩
          faithful := hf
          tail := hz.tail.grow List.prefix_rfl ha hf.backpointer Iff.rfl
          cache := fun hh hy => (hz.cache hh hy).grow List.prefix_rfl ha Iff.rfl
          marked := hmarked }
      sees := fun k hk =>
        { Sees.refl k z with
          attributes := ha
          head := fun {h y} hh hy => by
            simp only [Scene.head] at hy ⊢
            cases hy' : z.state.heads[h]? with
            | some y' => exact ⟨y, by rwa [hy'] at hy, Nat.le_refl _⟩
            | none =>
              rw [hy', Option.none_or] at hy
              exact ha.bucket hh hy
          recovering := fun hk' hn => ⟨hn, fun hm => by
            rw [(hr hm hn).1] at hk'
            exact absurd (Option.some.inj hk').symm hk⟩
          indexing := fun hm h0 => absurd (h0.trans (hd hm).symm) hk } }

end KeyedLog.Site
