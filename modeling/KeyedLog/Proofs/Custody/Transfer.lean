import KeyedLog.Proofs.Custody.Register

/-! Batches that go from stage to stage: who has them afterwards, and what that is to the others. -/
namespace KeyedLog.View

variable {hasher : Hasher} {z z' z'' : View} {i j k : Nat} {b c : PendingLinks}
  {bs : List PendingLinks} {s : Stage} {h g : KeyHash} {x y : Nat} {p q : Option Nat}

section Leaves

theorem Leaves.refl (i : Nat) (z : View) : z.Leaves i z where
  log := List.prefix_rfl
  batches := List.prefix_rfl
  lost _ := Iff.rfl
  fresh := Iff.rfl
  held := Iff.rfl
  owner _ := Iff.rfl
  recoverer := Iff.rfl
  tracked ht := ht
  recovered hr := hr
  recovering _ hn := hn
  kept _ hk := hk
  watermark := Nat.le_refl _
  unmoved _ _ he := he

theorem Leaves.trans (h : z.Leaves i z') (h' : z'.Leaves i z'') : z.Leaves i z'' where
  log := h.log.trans h'.log
  batches := h.batches.trans h'.batches
  lost hb := (h'.lost (h.batches.subset hb)).trans (h.lost hb)
  fresh := h'.fresh.trans h.fresh
  held := h'.held.trans h.held
  owner k := (h'.owner k).trans (h.owner k)
  recoverer := h'.recoverer.trans h.recoverer
  tracked ht := h'.tracked (h.tracked ht)
  recovered hr := h'.recovered (h.recovered hr)
  recovering hr hn := h'.recovering (h.recoverer.2 hr) (h.recovering hr hn)
  kept hb hk := h'.kept (h.batches.subset hb) (h.kept hb hk)
  watermark := Nat.le_trans h.watermark h'.watermark
  unmoved heq k he := by
    -- Where nothing was appended in all, nothing was appended on the way.
    have hlength := congrArg List.length heq
    have hle := h.batches.length_le
    have hle' := h'.batches.length_le
    have hmid : z.register.batches = z'.register.batches := h.batches.eq_of_length (by omega)
    exact h'.unmoved (heq.trans hmid) k (h.unmoved hmid.symm k he)

theorem Shifts.trans (h : z.Shifts hasher i z') (h' : z'.Shifts hasher i z'') :
    z.Shifts hasher i z'' where
  balances := h'.balances
  leaves j hj := (h.leaves j hj).trans (h'.leaves j hj)

theorem Leaves.empty (h : z.Leaves i z') (he : z.register.Empty i) : z'.register.Empty i := by
  intro b hb
  constructor
  · intro hs
    obtain ⟨hb, hs⟩ := h.fresh.1 ⟨hb, hs⟩
    exact (he b hb).1 hs
  · intro hs
    obtain ⟨hb, hs⟩ := h.held.1 ⟨hb, hs⟩
    exact (he b hb).2 hs

theorem Leaves.carries (h : z.Leaves i z') (hc : z.register.Carries i bs) :
    z'.register.Carries i bs where
  held := hc.held.trans h.held.symm
  fresh hb hs := by
    obtain ⟨hb, hs⟩ := h.fresh.1 ⟨hb, hs⟩
    exact hc.fresh hb hs

theorem Leaves.rests (h : z.Leaves i z') (hr : z.register.Rests i) : z'.register.Rests i where
  empty := h.empty hr.empty
  owner k := fun hk => hr.owner k ((h.owner k).1 hk)
  recoverer := fun hk => hr.recoverer (h.recoverer.1 hk)

/-- Changes that are nothing to the register, to the attributes or to what was recovered. -/
theorem Leaves.of_memory (hg : z'.register = z.register) (ha : z'.attributes = z.attributes)
    (ht : z.tracked = true → z'.tracked = true)
    (hr : z'.state.recovered = z.state.recovered)
    (hw : z.state.watermark.offset ≤ z'.state.watermark.offset) : z.Leaves j z' where
  log := by simp only [hg, List.prefix_rfl]
  batches := by simp only [hg, List.prefix_rfl]
  lost _ := by rw [hg]
  fresh := by rw [hg]
  held := by rw [hg]
  owner _ := by rw [hg]
  recoverer := by rw [hg]
  tracked := ht
  recovered hn := hr.trans hn
  recovering _ hn := hr.trans hn
  kept _ hk := by rwa [ha]
  watermark := hw
  unmoved _ _ he := by rwa [hg]

/-- Changes of who holds locks or accounts for old entries. -/
theorem Leaves.of_owner (hl : z'.register.log = z.register.log)
    (hb : z'.register.batches = z.register.batches) (hs : z'.register.stage = z.register.stage)
    (ha : z'.attributes = z.attributes) (ht : z'.tracked = z.tracked)
    (hr : z'.state.recovered = z.state.recovered) (hw : z'.state.watermark = z.state.watermark)
    (ho : ∀ h, z'.register.owner h = some j ↔ z.register.owner h = some j)
    (hrec : z'.register.recoverer = some j ↔ z.register.recoverer = some j) : z.Leaves j z' where
  log := by simp only [hl, List.prefix_rfl]
  batches := by simp only [hb, List.prefix_rfl]
  lost _ := by rw [hs]
  fresh := by rw [hb, hs]
  held := by rw [hb, hs]
  owner := ho
  recoverer := hrec
  tracked h := ht.trans h
  recovered hn := hr.trans hn
  recovering _ hn := hr.trans hn
  kept _ hk := by rwa [ha]
  watermark := Nat.le_of_eq (congrArg Watermark.offset hw.symm)
  unmoved _ k he := by
    intro b hmem
    rw [hb] at hmem
    rw [hs]
    exact he b hmem

/-- A thread may hand on what it has, and take what is left to it. -/
theorem Leaves.of_move (hz : Row 0 z.register.batches) (hj : j ≠ i)
    (hg : z'.register = z.register.move bs s)
    (hbs : ∀ b ∈ bs, b ∈ z.register.batches ∧ (z.register.stage b.offset = .fresh i ∨
      z.register.stage b.offset = .held i ∨ z.register.stage b.offset = .pending))
    (hs : s = .pending ∨ s = .done ∨ s = .held i ∧ ¬z.register.Empty i)
    (ha : z'.attributes = z.attributes) (ht : z'.tracked = z.tracked)
    (hr : z'.state.recovered = z.state.recovered)
    (hw : z.state.watermark.offset ≤ z'.state.watermark.offset) : z.Leaves j z' := by
  have hsame : z'.register.batches = z.register.batches := by rw [hg]; rfl
  have hsub : bs ⊆ z.register.batches := fun b hb => (hbs b hb).1
  -- The stages in between which batches go are pending, done, and what the thread has.
  have hiff {b : PendingLinks} {t : Stage} (hb : b ∈ z.register.batches)
      (hfresh : t ≠ .fresh i) (hheld : t ≠ .held i) (hpending : t ≠ .pending) (hdone : t ≠ .done) :
      z'.register.stage b.offset = t ↔ z.register.stage b.offset = t := by
    rw [hg]
    refine Register.stage_move_iff hz hsub hb ?_ fun c hc hct => ?_
    · rcases hs with rfl | rfl | ⟨rfl, -⟩
      · exact hpending.symm
      · exact hdone.symm
      · exact hheld.symm
    · rcases (hbs c hc).2 with h | h | h
      · exact hfresh (hct.symm.trans h)
      · exact hheld (hct.symm.trans h)
      · exact hpending (hct.symm.trans h)
  have hothers {b : PendingLinks} {k : Nat} (hk : k ≠ i) (hb : b ∈ z.register.batches) :
      (z'.register.stage b.offset = .fresh k ↔ z.register.stage b.offset = .fresh k) ∧
        (z'.register.stage b.offset = .held k ↔ z.register.stage b.offset = .held k) :=
    ⟨hiff hb (by simp [hk]) (by simp) (by simp) (by simp),
      hiff hb (by simp) (by simp [hk]) (by simp) (by simp)⟩
  exact
    { log := by rw [hg]; exact List.prefix_rfl
      batches := by simp only [hsame, List.prefix_rfl]
      lost := fun hb => hiff hb (by simp) (by simp) (by simp) (by simp)
      fresh := fun {b} => by
        rw [hsame]
        exact and_congr_right fun hb => (hothers hj hb).1
      held := fun {b} => by
        rw [hsame]
        exact and_congr_right fun hb => (hothers hj hb).2
      owner := fun _ => by rw [hg]; exact Iff.rfl
      recoverer := by rw [hg]; exact Iff.rfl
      tracked := fun h => ht.trans h
      recovered := fun hn => hr.trans hn
      recovering := fun _ hn => hr.trans hn
      kept := fun _ hk => by rwa [ha]
      watermark := hw
      unmoved := fun _ k he b hb => by
        rw [hsame] at hb
        by_cases hk : k = i
        · subst hk
          -- Whoever holds nothing has nothing to hand on.
          rw [hg]
          rcases Register.stage_move (s := s) hz hsub hb with ⟨-, hb'⟩ | ⟨-, hb'⟩
          · rw [hb']
            rcases hs with rfl | rfl | ⟨-, hne⟩
            · exact ⟨by simp, by simp⟩
            · exact ⟨by simp, by simp⟩
            · exact absurd he hne
          · rw [hb']
            exact he b hb
        · obtain ⟨hfresh, hheld⟩ := hothers hk hb
          exact ⟨fun h => (he b hb).1 (hfresh.1 h), fun h => (he b hb).2 (hheld.1 h)⟩ }

end Leaves

namespace Balances

variable (hz : z.Balances hasher)
include hz

theorem eq_of_backpointer (hb : b ∈ z.register.batches) (hc : c ∈ z.register.batches)
    (hp : (x, p) ∈ b.links.backpointers) (hq : (x, q) ∈ c.links.backpointers) : b = c ∧ p = q := by
  obtain rfl := hz.row.eq_of_range hb hc ((hz.spans hb).entry hp) ((hz.spans hc).entry hq)
  exact ⟨rfl, (hz.spans hb).unique hp hq⟩

theorem eq_of_head (hb : b ∈ z.register.batches) (hc : c ∈ z.register.batches)
    (hy : (h, y) ∈ b.links.heads) (hy' : (g, y) ∈ c.links.heads) : b = c := by
  obtain ⟨-, hlo, hhi, -⟩ := (hz.spans hb).head hy
  obtain ⟨-, hlo', hhi', -⟩ := (hz.spans hc).head hy'
  exact hz.row.eq_of_range hb hc ⟨hlo, hhi⟩ ⟨hlo', hhi'⟩

theorem stop_le (hb : b ∈ z.register.batches) : b.stop ≤ Log.size z.register.log :=
  hz.size ▸ (hz.row.bounds hb).2.2

theorem done_move (hbs : bs ⊆ z.register.batches) (hb : b ∈ z.register.batches)
    (hsame : ∀ c ∈ bs, (z.register.stage c.offset = .done ↔ s = .done)) :
    (z.register.move bs s).done b.offset = z.register.done b.offset := by
  unfold Register.done
  rcases Register.stage_move (s := s) hz.row hbs hb with ⟨hmem, hb'⟩ | ⟨-, hb'⟩
  · rw [hb']
    exact decide_eq_decide.2 (hsame b hmem).symm
  · rw [hb']

section Single

variable (hb : b ∈ z.register.batches) (hc : c ∈ z.register.batches)
include hb hc

theorem stage_move_singleton :
    (c = b ∧ (z.register.move [b] s).stage c.offset = s) ∨
      (c ≠ b ∧ (z.register.move [b] s).stage c.offset = z.register.stage c.offset) := by
  have hsub : [b] ⊆ z.register.batches := fun c hc => List.mem_singleton.1 hc ▸ hb
  rcases Register.stage_move (s := s) hz.row hsub hc with ⟨hmem, hc'⟩ | ⟨hmem, hc'⟩
  · exact .inl ⟨List.mem_singleton.1 hmem, hc'⟩
  · exact .inr ⟨fun h => hmem (List.mem_singleton.2 h), hc'⟩

theorem stage_of_move {t : Stage} (ht : t ≠ s)
    (hct : (z.register.move [b] s).stage c.offset = t) : z.register.stage c.offset = t := by
  rcases hz.stage_move_singleton (s := s) hb hc with ⟨-, hc'⟩ | ⟨-, hc'⟩
  · exact absurd (hct.symm.trans hc') ht
  · exact hc'.symm.trans hct

theorem stage_move_singleton_iff {t : Stage} (hto : s ≠ t)
    (hfrom : z.register.stage b.offset ≠ t) :
    (z.register.move [b] s).stage c.offset = t ↔ z.register.stage c.offset = t := by
  have hsub : [b] ⊆ z.register.batches := fun c hc => List.mem_singleton.1 hc ▸ hb
  exact Register.stage_move_iff hz.row hsub hc hto fun d hd => List.mem_singleton.1 hd ▸ hfrom

theorem tailed_hold :
    ((z.register.move [b] (.held i)).stage c.offset).Tailed ↔
      c = b ∨ (z.register.stage c.offset).Tailed := by
  rcases hz.stage_move_singleton (s := .held i) hb hc with ⟨rfl, hc'⟩ | ⟨hne, hc'⟩
  · rw [hc']
    exact iff_of_true trivial (.inl rfl)
  · rw [hc']
    exact (or_iff_right hne).symm

theorem recorded_hold :
    ((z.register.move [b] (.held i)).stage c.offset).Recorded ↔
      c = b ∨ (z.register.stage c.offset).Recorded := by
  rcases hz.stage_move_singleton (s := .held i) hb hc with ⟨rfl, hc'⟩ | ⟨hne, hc'⟩
  · rw [hc']
    exact iff_of_true trivial (.inl rfl)
  · rw [hc']
    exact (or_iff_right hne).symm

theorem tailed_finish :
    ((z.register.move [b] .done).stage c.offset).Tailed ↔
      c ≠ b ∧ (z.register.stage c.offset).Tailed := by
  rcases hz.stage_move_singleton (s := .done) hb hc with ⟨rfl, hc'⟩ | ⟨hne, hc'⟩
  · rw [hc']
    exact iff_of_false (fun h => h) fun h => h.1 rfl
  · rw [hc']
    exact (and_iff_right hne).symm

theorem recorded_finish (hr : (z.register.stage b.offset).Recorded) :
    ((z.register.move [b] .done).stage c.offset).Recorded ↔
      (z.register.stage c.offset).Recorded := by
  rcases hz.stage_move_singleton (s := .done) hb hc with ⟨rfl, hc'⟩ | ⟨-, hc'⟩
  · rw [hc']
    exact iff_of_true trivial hr
  · rw [hc']

end Single

section Carries

/-- Whoever has recorded a batch is to persist it, and nothing else. -/
theorem carries_record (hb : b ∈ z.register.batches)
    (hfresh : ∀ {c}, c ∈ z.register.batches ∧ z.register.stage c.offset = .fresh i → c = b)
    (hheld : ∀ {c}, c ∈ z.register.batches → z.register.stage c.offset ≠ .held i) :
    (z.register.move [b] (.held i)).Carries i [b] where
  held {c} := by
    rw [List.mem_singleton]
    constructor
    · rintro rfl
      rcases hz.stage_move_singleton (s := .held i) hb hb with ⟨-, hs⟩ | ⟨hne, -⟩
      · exact ⟨hb, hs⟩
      · exact absurd rfl hne
    · rintro ⟨hc, hs⟩
      rcases hz.stage_move_singleton (s := .held i) hb hc with ⟨rfl, -⟩ | ⟨-, hs'⟩
      · rfl
      · exact absurd (hs'.symm.trans hs) (hheld hc)
  fresh {c} hc hs := by
    rcases hz.stage_move_singleton (s := .held i) hb hc with ⟨-, hs'⟩ | ⟨hne, hs'⟩
    · cases hs'.symm.trans hs
    · exact hne (hfresh ⟨hc, hs'.symm.trans hs⟩)

theorem carries_retire (h : z.register.Carries i (b :: bs)) (hnot : b ∉ bs) :
    (z.register.move [b] .done).Carries i bs where
  held {c} := by
    have hb := (h.held.1 List.mem_cons_self).1
    constructor
    · intro hc
      obtain ⟨hc', hs⟩ := h.held.1 (List.mem_cons_of_mem b hc)
      rcases hz.stage_move_singleton (s := .done) hb hc' with ⟨rfl, -⟩ | ⟨-, hs'⟩
      · exact absurd hc hnot
      · exact ⟨hc', hs'.trans hs⟩
    · rintro ⟨hc, hs⟩
      rcases hz.stage_move_singleton (s := .done) hb hc with ⟨-, hs'⟩ | ⟨hne, hs'⟩
      · cases hs'.symm.trans hs
      · exact (List.mem_cons.1 (h.held.2 ⟨hc, hs'.symm.trans hs⟩)).resolve_left hne
  fresh hc hs :=
    h.fresh hc (hz.stage_of_move (h.held.1 List.mem_cons_self).1 hc (by simp) hs)

/-- Whoever takes what is pending persists it along with its own. -/
theorem carries_take (h : z.register.Carries i bs) :
    (z.register.move z.state.pending (.held i)).Carries i (z.state.pending ++ bs) where
  held {c} := by
    have hsub : z.state.pending ⊆ z.register.batches := fun c hc => (hz.pending.1 hc).1
    rw [List.mem_append]
    constructor
    · rintro (hc | hc)
      · rcases Register.stage_move (s := .held i) hz.row hsub (hsub hc) with ⟨-, hs⟩ | ⟨hne, -⟩
        · exact ⟨hsub hc, hs⟩
        · exact absurd hc hne
      · obtain ⟨hc, hs⟩ := h.held.1 hc
        rcases Register.stage_move (s := .held i) hz.row hsub hc with ⟨-, hs'⟩ | ⟨-, hs'⟩
        · exact ⟨hc, hs'⟩
        · exact ⟨hc, hs'.trans hs⟩
    · rintro ⟨hc, hs⟩
      rcases Register.stage_move (s := .held i) hz.row hsub hc with ⟨hmem, -⟩ | ⟨-, hs'⟩
      · exact .inl hmem
      · exact .inr (h.held.2 ⟨hc, hs'.symm.trans hs⟩)
  fresh {c} hc hs := by
    have hsub : z.state.pending ⊆ z.register.batches := fun c hc => (hz.pending.1 hc).1
    rcases Register.stage_move (s := .held i) hz.row hsub hc with ⟨-, hs'⟩ | ⟨-, hs'⟩
    · cases hs'.symm.trans hs
    · exact h.fresh hc (hs'.symm.trans hs)

theorem empty_leave (h : z.register.Carries i bs) : (z.register.move bs .pending).Empty i := by
  intro c hc
  have hsub : bs ⊆ z.register.batches := fun c hc => (h.held.1 hc).1
  rcases Register.stage_move (s := .pending) hz.row hsub hc with ⟨-, hs⟩ | ⟨hne, hs⟩
  · rw [hs]
    exact ⟨by simp, by simp⟩
  · rw [hs]
    exact ⟨h.fresh hc, fun hs => hne (h.held.2 ⟨hc, hs⟩)⟩

theorem pending_take (hc : c ∈ z.register.batches) :
    (z.register.move z.state.pending (.held i)).stage c.offset ≠ .pending := by
  intro hs
  rcases Register.stage_move (s := .held i) hz.row (fun c hc => (hz.pending.1 hc).1) hc with
    ⟨-, hs'⟩ | ⟨hne, hs'⟩
  · cases hs'.symm.trans hs
  · exact hne (hz.pending.2 ⟨hc, hs'.symm.trans hs⟩)

/-- What somebody leaves to others is pending along with the rest. -/
theorem pending_leave (hsub : bs ⊆ z.register.batches) :
    c ∈ z.state.pending ++ bs ↔
      c ∈ z.register.batches ∧ (z.register.move bs .pending).stage c.offset = .pending := by
  rw [List.mem_append]
  constructor
  · rintro (hc | hc)
    · obtain ⟨hc, hs⟩ := hz.pending.1 hc
      rcases Register.stage_move (s := .pending) hz.row hsub hc with ⟨-, hs'⟩ | ⟨-, hs'⟩
      · exact ⟨hc, hs'⟩
      · exact ⟨hc, hs'.trans hs⟩
    · rcases Register.stage_move (s := .pending) hz.row hsub (hsub hc) with ⟨-, hs'⟩ | ⟨hne, -⟩
      · exact ⟨hsub hc, hs'⟩
      · exact absurd hc hne
  · rintro ⟨hc, hs⟩
    rcases Register.stage_move (s := .pending) hz.row hsub hc with ⟨hmem, -⟩ | ⟨-, hs'⟩
    · exact .inr hmem
    · exact .inl (hz.pending.2 ⟨hc, hs'.symm.trans hs⟩)

end Carries

end Balances

end KeyedLog.View
