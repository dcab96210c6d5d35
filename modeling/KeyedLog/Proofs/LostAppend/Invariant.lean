import KeyedLog.Proofs.Attribute.LinkMap
import KeyedLog.Proofs.Operation.Access

/-! Appends that take effect and are reported as failed. Nobody records their links, so memory falls
behind the log. What an indexer has persisted does not. -/
namespace KeyedLog

/-- A thread holds no lock, and does not account for old entries. -/
structure Account.Free (g : Account) (i : Nat) : Prop where
  owner : ∀ h, g.owner h ≠ some i
  recoverer : g.recoverer ≠ some i

namespace Site

variable (S : Site)

/-- What can be relied on when links go missing: attributes link the log up to some point, and a
head in the tail has no later entry of its bucket below the watermark. Cached heads may be
anything. -/
structure Robust (z : Scene) : Prop where
  wellformed : Log.Wellformed S.config.hasher z.ghost.log
  held : ∀ h, z.held h = (z.ghost.owner h).isSome
  recovering : z.state.recovering = z.ghost.recoverer.isSome
  linked : ∃ p, p <+: z.ghost.log ∧ Log.LinkMap S.config.hasher p z.attributes
  opened : z.state.watermark.closed = false
  gapless : z.state.watermark.completed = []
  reached : ∀ {n}, z.attributes[AttributeId.indexOffset]? = some n →
    z.state.watermark.offset ≤ n
  unrecovered : z.state.recovered = none → ∀ h : KeyHash, z.state.heads[h]? = none
  recovered : ∀ {n}, z.state.recovered = some n → z.tracked = true ∧ n ≤ Log.size z.ghost.log
  head : ∀ {h : KeyHash} {y : Nat}, z.state.heads[h]? = some y →
    Log.Entry S.config.hasher z.ghost.log y h ∧
    ∀ x, Log.Entry S.config.hasher z.ghost.log x h → y < x → z.state.watermark.offset ≤ x

/-- What is not undone, and what is not done to the buckets that a thread has locked. -/
structure Tends (i : Nat) (z z' : Scene) : Prop where
  log : z.ghost.log <+: z'.ghost.log
  owner : ∀ h, z'.ghost.owner h = some i ↔ z.ghost.owner h = some i
  mine : ∀ {h x}, z.ghost.owner h = some i → Log.Entry S.config.hasher z'.ghost.log x h →
    Log.Entry S.config.hasher z.ghost.log x h
  tracked : z.tracked = true → z'.tracked = true
  recovered : ∀ {n}, z.state.recovered = some n → z'.state.recovered = some n
  index : ∀ {n}, z.attributes[AttributeId.indexOffset]? = some n →
    ∃ m, z'.attributes[AttributeId.indexOffset]? = some m ∧ n ≤ m
  indexing : i = 0 → z'.attributes = z.attributes

structure Bears (i : Nat) (z z' : Scene) : Prop extends S.Tends i z z' where
  recoverer : z'.ghost.recoverer = some i ↔ z.ghost.recoverer = some i
  recovering : z.ghost.recoverer = some i → z.state.recovered = none → z'.state.recovered = none

structure Withstands (w : World Tables Account) : Prop where
  stores : S.Stores w.container w.ghost.log
  serves : w.state.Serves S.segment S.place
  robust : S.Robust (S.scene w)

/-- Rules under which any call may fail either way. -/
def lossy : Rules Tables Account where
  fates _ _ := True
  lapses := True
  inv := S.Withstands
  rely i w v := S.Bears i (S.scene w) (S.scene v)
  guar i _ w v := ∀ j, j ≠ i → S.Bears j (S.scene w) (S.scene v)
  tidy _ _ := True
  rest i w := w.ghost.Free i

structure Steers (i : Nat) (z z' : Scene) : Prop where
  robust : S.Robust z'
  bears : ∀ j, j ≠ i → S.Bears j z z'

variable {S} {z z' z'' : Scene} {i j : Nat}

theorem Tends.refl (i : Nat) (z : Scene) : S.Tends i z z where
  log := List.prefix_rfl
  owner _ := Iff.rfl
  mine _ hx := hx
  tracked ht := ht
  recovered hr := hr
  index hn := ⟨_, hn, Nat.le_refl _⟩
  indexing _ := rfl

theorem Tends.trans (h : S.Tends i z z') (h' : S.Tends i z' z'') : S.Tends i z z'' where
  log := h.log.trans h'.log
  owner k := (h'.owner k).trans (h.owner k)
  mine ho hx := h.mine ho (h'.mine ((h.owner _).2 ho) hx)
  tracked ht := h'.tracked (h.tracked ht)
  recovered hr := h'.recovered (h.recovered hr)
  index hn := by
    obtain ⟨m, hm, hle⟩ := h.index hn
    obtain ⟨k, hk, hle'⟩ := h'.index hm
    exact ⟨k, hk, Nat.le_trans hle hle'⟩
  indexing hi := (h'.indexing hi).trans (h.indexing hi)

theorem Bears.refl (i : Nat) (z : Scene) : S.Bears i z z where
  toTends := .refl i z
  recoverer := Iff.rfl
  recovering _ hn := hn

theorem Bears.trans (h : S.Bears i z z') (h' : S.Bears i z' z'') : S.Bears i z z'' where
  toTends := h.toTends.trans h'.toTends
  recoverer := h'.recoverer.trans h.recoverer
  recovering hr hn := h'.recovering (h.recoverer.2 hr) (h.recovering hr hn)

theorem Bears.free (h : S.Bears i z z') (hf : z.ghost.Free i) : z'.ghost.Free i where
  owner k := fun hk => hf.owner k ((h.owner k).1 hk)
  recoverer := fun hk => hf.recoverer (h.recoverer.1 hk)

theorem Bears.recoverer_ne (h : S.Bears i z z') (hr : z.ghost.recoverer ≠ some i) :
    z'.ghost.recoverer ≠ some i := fun hi => hr (h.recoverer.1 hi)

theorem lossy_lawful (S : Site) : S.lossy.Lawful where
  refl i _ := .refl i _
  trans h h' := Bears.trans h h'
  rely_of_guar hj h := h _ hj
  tidy _ _ := trivial
  rest h hr := Bears.free h hr
  tidy_of_rest _ := trivial

theorem Bears.of_tends (h : S.Tends i z z') (hr : z.ghost.recoverer ≠ some i)
    (hr' : z'.ghost.recoverer ≠ some i) : S.Bears i z z' where
  toTends := h
  recoverer := iff_of_false hr' hr
  recovering hi := absurd hi hr

theorem Tends.recovered_ne (h : S.Tends i z z') (hn : z.state.recovered ≠ none) :
    z'.state.recovered ≠ none := by
  obtain ⟨n, hn⟩ := Option.ne_none_iff_exists'.1 hn
  exact Option.ne_none_iff_exists'.2 ⟨n, h.recovered hn⟩

theorem Bears.of_memory (hg : z'.ghost = z.ghost) (ha : z'.attributes = z.attributes)
    (ht : z.tracked = true → z'.tracked = true)
    (hr : z'.state.recovered = z.state.recovered) : S.Bears j z z' where
  log := by simp only [hg, List.prefix_rfl]
  owner _ := by rw [hg]
  mine _ hx := by rwa [hg] at hx
  tracked := ht
  recovered h := hr.trans h
  index hn := ⟨_, ha ▸ hn, Nat.le_refl _⟩
  indexing _ := ha
  recoverer := by rw [hg]
  recovering _ hn := hr.trans hn

section Memory

variable (hz : S.Robust z)
include hz

theorem Robust.tracked_of_recovered (hn : z.state.recovered ≠ none) : z.tracked = true := by
  obtain ⟨n, hn⟩ := Option.ne_none_iff_exists'.1 hn
  exact (hz.recovered hn).1

theorem Robust.size_le {p : List Record} (hp : p <+: z.ghost.log)
    (ha : Log.LinkMap S.config.hasher p z.attributes) :
    z.state.watermark.offset ≤ Log.size p ∧ Log.size p ≤ Log.size z.ghost.log :=
  ⟨hz.reached ha.index, Log.size_le_of_prefix hp⟩

theorem steers_cache (cache : KeyHash → Option Nat) : S.Steers i z { z with cache } where
  robust := { hz with }
  bears _ _ := .of_memory rfl rfl id rfl

theorem steers_track : S.Steers i z { z with tracked := true } where
  robust := { hz with recovered := fun h => ⟨rfl, (hz.recovered h).2⟩ }
  bears _ _ := .of_memory rfl rfl (fun _ => rfl) rfl

/-- The watermark may rise as far as the links are persisted while nothing is in the tail. -/
theorem steers_raise {n m : Nat} (hn : z.state.recovered = none)
    (hm : z.attributes[AttributeId.indexOffset]? = some m) (hle : n ≤ m) :
    S.Steers i z
      { z with state := { z.state with watermark := (z.state.watermark.raise n).1 } } where
  robust := by
    rw [Watermark.raise_of_gapless hz.gapless]
    exact
      { hz with
        reached := fun {k} hk => by
          have := hz.reached hk
          have := Option.some.inj (hm.symm.trans hk)
          dsimp only
          omega
        head := fun {h y} hy => by
          rw [hz.unrecovered hn h] at hy
          cases hy }
  bears _ _ := .of_memory rfl rfl id rfl

/-- Links that an indexer has persisted leave the tail. -/
theorem steers_notify {n m : Nat} (hm : z.attributes[AttributeId.indexOffset]? = some m)
    (hle : n ≤ m) :
    S.Steers i z
      { z with
        state := { z.state with watermark := (z.state.watermark.raise n).1 }.prune n } where
  robust := by
    rw [Watermark.raise_of_gapless hz.gapless]
    have hold {h : KeyHash} {y : Nat}
        (hy : (z.state.heads.filter fun _ head => decide (n ≤ head))[h]? = some y) :
        z.state.heads[h]? = some y ∧ n ≤ y := by
      rw [Std.ExtTreeMap.getElem?_filter'] at hy
      simpa using Option.filter_eq_some_iff.1 hy
    exact
      { hz with
        reached := fun {k} hk => by
          have := hz.reached hk
          have := Option.some.inj (hm.symm.trans hk)
          dsimp only [SegmentState.prune]
          omega
        unrecovered := fun hr h => by
          cases hy : (z.state.heads.filter fun _ head => decide (n ≤ head))[h]? with
          | none => exact hy
          | some y =>
            have := (hold hy).1
            rw [hz.unrecovered hr h] at this
            cases this
        head := fun {h y} hy => by
          obtain ⟨hy, hle⟩ := hold hy
          obtain ⟨he, hlate⟩ := hz.head hy
          refine ⟨he, fun x hx hlt => ?_⟩
          have := hlate x hx hlt
          dsimp only [SegmentState.prune]
          omega }
  bears _ _ := .of_memory rfl rfl id rfl

/-- New heads enter the tail, each of them the last entry of its bucket. -/
theorem steers_record (heads : Heads) (backpointers : Std.ExtTreeMap Nat (Option Nat))
    (cache : KeyHash → Option Nat) (hr : z.state.recovered ≠ none)
    (hH : ∀ {h : KeyHash} {y : Nat}, heads[h]? = some y → z.state.heads[h]? = some y ∨
      Log.Entry S.config.hasher z.ghost.log y h ∧
        ∀ x, Log.Entry S.config.hasher z.ghost.log x h → x ≤ y) :
    S.Steers i z
      { z with
        state := { z.state with heads, backpointers, generation := z.state.generation + 1 }
        cache } where
  robust :=
    { hz with
      unrecovered := fun hn => absurd hn hr
      head := fun {h y} hy => by
        rcases hH hy with hy | ⟨he, hlast⟩
        · exact hz.head hy
        · exact ⟨he, fun x hx hlt => absurd (hlast x hx) (Nat.not_le.2 hlt)⟩ }
  bears _ _ := .of_memory rfl rfl id rfl

end Memory

theorem Bears.of_owner (hl : z'.ghost.log = z.ghost.log) (ha : z'.attributes = z.attributes)
    (ht : z'.tracked = z.tracked) (hr : z'.state.recovered = z.state.recovered)
    (ho : ∀ h, z'.ghost.owner h = some j ↔ z.ghost.owner h = some j)
    (hrec : z'.ghost.recoverer = some j ↔ z.ghost.recoverer = some j) : S.Bears j z z' where
  log := by simp only [hl, List.prefix_rfl]
  owner := ho
  mine _ hx := by rwa [hl] at hx
  tracked h := ht.trans h
  recovered h := hr.trans h
  index hn := ⟨_, ha ▸ hn, Nat.le_refl _⟩
  indexing _ := ha
  recoverer := hrec
  recovering _ hn := hr.trans hn

section Ownership

variable (hz : S.Robust z)
include hz

theorem steers_lock {hs : List KeyHash} {held : KeyHash → Bool}
    (hfree : ∀ h ∈ hs, z.ghost.owner h = none)
    (hheld : ∀ h, held h = (decide (h ∈ hs) || z.held h)) :
    S.Steers i z { z with ghost := z.ghost.lock i hs, held } where
  robust :=
    { hz with
      held := fun h => by
        by_cases hh : h ∈ hs
        · simp [hheld, Account.lock, hh]
        · simp [hheld, Account.lock, hh, hz.held] }
  bears k hk := by
    refine .of_owner rfl rfl rfl rfl (fun h => ?_) Iff.rfl
    by_cases hh : h ∈ hs
    · simp [Account.lock, hh, hfree h hh, Ne.symm hk]
    · simp [Account.lock, hh]

theorem steers_unlock {hs : List KeyHash} {held : KeyHash → Bool}
    (hmine : ∀ h ∈ hs, z.ghost.owner h = some i)
    (hheld : ∀ h, held h = (!decide (h ∈ hs) && z.held h)) :
    S.Steers i z { z with ghost := z.ghost.unlock hs, held } where
  robust :=
    { hz with
      held := fun h => by
        by_cases hh : h ∈ hs
        · simp [hheld, Account.unlock, hh]
        · simp [hheld, Account.unlock, hh, hz.held] }
  bears k hk := by
    refine .of_owner rfl rfl rfl rfl (fun h => ?_) Iff.rfl
    by_cases hh : h ∈ hs
    · simp [Account.unlock, hh, hmine h hh, Ne.symm hk]
    · simp [Account.unlock, hh]

theorem steers_beginRecovery (hfree : z.ghost.recoverer = none) :
    S.Steers i z
      { z with
        ghost := { z.ghost with recoverer := some i }
        state := { z.state with recovering := true } } where
  robust := { hz with recovering := rfl }
  bears k hk := .of_owner rfl rfl rfl rfl (fun _ => Iff.rfl) (by simp [hfree, Ne.symm hk])

theorem steers_endRecovery (hmine : z.ghost.recoverer = some i) :
    S.Steers i z
      { z with
        ghost := { z.ghost with recoverer := none }
        state := { z.state with recovering := false } } where
  robust := { hz with recovering := rfl }
  bears k hk := .of_owner rfl rfl rfl rfl (fun _ => Iff.rfl) (by simp [hmine, Ne.symm hk])

theorem steers_recovered {n : Nat} (hmine : z.ghost.recoverer = some i) (ht : z.tracked = true)
    (hn : z.state.recovered = none) (hle : n ≤ Log.size z.ghost.log) :
    S.Steers i z { z with state := { z.state with recovered := some n } } where
  robust :=
    { hz with
      unrecovered := fun h => by cases h
      recovered := fun h => ⟨ht, Option.some.inj h ▸ hle⟩ }
  bears k hk :=
    { Bears.refl k z with
      recovered := fun h => by rw [hn] at h; cases h
      recovering := fun hr => by
        rw [hmine] at hr
        exact absurd (Option.some.inj hr).symm hk }

end Ownership

/-- Records are appended by whoever holds the locks of their buckets. -/
theorem steers_append {rs : List Record} (hz : S.Robust z) (hwf : Log.Wellformed S.config.hasher rs)
    (hown : ∀ r ∈ rs, ∀ h, S.config.hasher.hash r.key = .ok h → z.ghost.owner h = some i) :
    S.Steers i z { z with ghost := { z.ghost with log := z.ghost.log ++ rs } } := by
  have hl : z.ghost.log <+: z.ghost.log ++ rs := List.prefix_append ..
  have hnew {x : Nat} {h : KeyHash} (he : Log.Entry S.config.hasher (z.ghost.log ++ rs) x h) :
      Log.Entry S.config.hasher z.ghost.log x h ∨
        Log.size z.ghost.log ≤ x ∧ z.ghost.owner h = some i := by
    by_cases hx : x < Log.size z.ghost.log
    · exact .inl (he.of_lt hl hx)
    · obtain ⟨r, hr, hh⟩ := he
      rcases Log.mem_placed_append.1 hr with hold | hr
      · exact absurd (Log.placed_lt hold) hx
      · exact .inr ⟨Nat.le_of_not_lt hx, hown r (Log.mem_of_mem_placed hr) h hh⟩
  obtain ⟨p, hp, ha⟩ := hz.linked
  obtain ⟨hoffset, hsize⟩ := hz.size_le hp ha
  exact
    { robust :=
        { hz with
          wellformed := hz.wellformed.append hwf
          linked := ⟨p, hp.trans hl, ha⟩
          recovered := fun hr =>
            ⟨(hz.recovered hr).1, Nat.le_trans (hz.recovered hr).2 (Log.size_le_of_prefix hl)⟩
          head := fun hy => by
            obtain ⟨he, hlate⟩ := hz.head hy
            refine ⟨he.mono hl, fun x hx hlt => ?_⟩
            rcases hnew hx with hx | ⟨hx, -⟩
            · exact hlate x hx hlt
            · exact Nat.le_trans (Nat.le_trans hoffset hsize) hx }
      bears := fun k hk =>
        { (Bears.refl k z : S.Bears k z z) with
          log := hl
          mine := fun ho hx => by
            rcases hnew hx with hx | ⟨-, ho'⟩
            · exact hx
            · exact absurd (Option.some.inj (ho.symm.trans ho')) hk } }

/-- An indexer, of which there is only one, persists the links of more of the log. -/
theorem steers_write {a : Attributes} {p : List Record} {n : Nat} (hz : S.Robust z)
    (hp : p <+: z.ghost.log) (ha : Log.LinkMap S.config.hasher p a)
    (hn : z.attributes[AttributeId.indexOffset]? = some n) (hle : n ≤ Log.size p) :
    S.Steers 0 z { z with attributes := a } where
  robust :=
    { hz with
      linked := ⟨p, hp, ha⟩
      reached := fun hk => by
        obtain rfl := Option.some.inj (ha.index.symm.trans hk)
        exact Nat.le_trans (hz.reached hn) hle }
  bears k hk :=
    { Bears.refl k z with
      index := fun hm => by
        obtain rfl := Option.some.inj (hn.symm.trans hm)
        exact ⟨_, ha.index, hle⟩
      indexing := fun h0 => absurd h0 hk }

end Site
end KeyedLog
