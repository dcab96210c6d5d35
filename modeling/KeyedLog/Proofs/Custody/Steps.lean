import KeyedLog.Proofs.Custody.Transfer

/-! Single steps of threads: each keeps memory and attributes in agreement with the register, and
leaves to the others what they hold. -/
namespace KeyedLog.View

variable {hasher : Hasher} {z z' z'' : View} {i j k : Nat} {b c : PendingLinks}
  {bs : List PendingLinks} {s : Stage} {h g : KeyHash} {x y : Nat} {p q : Option Nat}

section Memory

variable (hz : z.Balances hasher)
include hz

theorem shifts_track : z.Shifts hasher i { z with tracked := true } where
  balances := { hz with recovered := fun hr => ⟨rfl, (hz.recovered hr).2⟩ }
  leaves _ _ := .of_memory rfl rfl (fun _ => rfl) rfl (Nat.le_refl _)

theorem shifts_lock {hs : List KeyHash} {held : KeyHash → Bool}
    (hfree : ∀ h ∈ hs, z.register.owner h = none)
    (hheld : ∀ h, held h = (decide (h ∈ hs) || z.held h)) :
    z.Shifts hasher i { z with register := z.register.lock i hs, held } where
  balances :=
    { hz with
      held := fun h => by
        by_cases hh : h ∈ hs
        · simp [hheld, Register.lock, hh]
        · simp [hheld, Register.lock, hh, hz.held]
      fresh := fun {b k h y} hb hs' hy => by
        obtain ⟨ho, hlast⟩ := hz.fresh hb hs' hy
        refine ⟨?_, hlast⟩
        by_cases hh : h ∈ hs
        · rw [hfree h hh] at ho
          cases ho
        · exact (if_neg hh).trans ho }
  leaves k hk := by
    refine .of_owner rfl rfl rfl rfl rfl rfl rfl (fun h => ?_) Iff.rfl
    by_cases hh : h ∈ hs
    · simp [Register.lock, hh, hfree h hh, Ne.symm hk]
    · simp [Register.lock, hh]

theorem shifts_unlock {hs : List KeyHash} {held : KeyHash → Bool}
    (hmine : ∀ h ∈ hs, z.register.owner h = some i)
    (hfresh : ∀ b ∈ z.register.batches, z.register.stage b.offset ≠ .fresh i)
    (hheld : ∀ h, held h = (!decide (h ∈ hs) && z.held h)) :
    z.Shifts hasher i { z with register := z.register.unlock hs, held } where
  balances :=
    { hz with
      held := fun h => by
        by_cases hh : h ∈ hs
        · simp [hheld, Register.unlock, hh]
        · simp [hheld, Register.unlock, hh, hz.held]
      fresh := fun {b k h y} hb hs' hy => by
        obtain ⟨ho, hlast⟩ := hz.fresh hb hs' hy
        refine ⟨?_, hlast⟩
        by_cases hh : h ∈ hs
        · rw [hmine h hh] at ho
          obtain rfl := Option.some.inj ho
          exact absurd hs' (hfresh b hb)
        · exact (if_neg hh).trans ho }
  leaves k hk := by
    refine .of_owner rfl rfl rfl rfl rfl rfl rfl (fun h => ?_) Iff.rfl
    by_cases hh : h ∈ hs
    · simp [Register.unlock, hh, hmine h hh, Ne.symm hk]
    · simp [Register.unlock, hh]

theorem shifts_beginRecovery (hfree : z.register.recoverer = none) :
    z.Shifts hasher i
      { z with
        register := { z.register with recoverer := some i }
        state := { z.state with recovering := true } } where
  balances := { hz with recovering := rfl }
  leaves k hk :=
    .of_owner rfl rfl rfl rfl rfl rfl rfl (fun _ => Iff.rfl) (by simp [hfree, Ne.symm hk])

theorem shifts_endRecovery (hmine : z.register.recoverer = some i) :
    z.Shifts hasher i
      { z with
        register := { z.register with recoverer := none }
        state := { z.state with recovering := false } } where
  balances := { hz with recovering := rfl }
  leaves k hk :=
    .of_owner rfl rfl rfl rfl rfl rfl rfl (fun _ => Iff.rfl) (by simp [hmine, Ne.symm hk])

theorem shifts_recovered (hmine : z.register.recoverer = some i) (ht : z.tracked = true)
    (hn : z.state.recovered = none) :
    z.Shifts hasher i { z with state := { z.state with recovered := some 0 } } where
  balances :=
    { hz with
      unrecovered := fun h => by cases h
      recovered := fun h => ⟨ht, (Option.some.inj h).symm⟩ }
  leaves k hk :=
    { Leaves.refl k z with
      recovered := fun h => by rw [hn] at h; cases h
      recovering := fun hr => by
        rw [hmine] at hr
        exact absurd (Option.some.inj hr).symm hk }

end Memory

section Pass

variable (hz : z.Balances hasher) (hsub : bs ⊆ z.register.batches) (hs : s.Tailed)
  (hold : ∀ b ∈ bs, (z.register.stage b.offset).Tailed)
include hz hsub hs

theorem stage_of_pass {t : Stage} (ht : ¬t.Tailed) (hb : b ∈ z.register.batches)
    (hbt : (z.register.move bs s).stage b.offset = t) : z.register.stage b.offset = t := by
  rcases Register.stage_move (s := s) hz.row hsub hb with ⟨-, hb'⟩ | ⟨-, hb'⟩
  · rw [hb'] at hbt
    exact absurd (hbt ▸ hs) ht
  · exact hb'.symm.trans hbt

include hold

theorem tailed_pass (hb : b ∈ z.register.batches) :
    ((z.register.move bs s).stage b.offset).Tailed ↔ (z.register.stage b.offset).Tailed := by
  rcases Register.stage_move (s := s) hz.row hsub hb with ⟨hmem, hb'⟩ | ⟨-, hb'⟩
  · rw [hb']
    exact iff_of_true hs (hold b hmem)
  · rw [hb']

theorem recorded_pass (hb : b ∈ z.register.batches) :
    ((z.register.move bs s).stage b.offset).Recorded ↔ (z.register.stage b.offset).Recorded := by
  rcases Register.stage_move (s := s) hz.row hsub hb with ⟨hmem, hb'⟩ | ⟨-, hb'⟩
  · rw [hb']
    exact iff_of_true hs.recorded (hold b hmem).recorded
  · rw [hb']

end Pass

/-- Batches that are in the tail go from hand to hand. -/
theorem shifts_pass (hz : z.Balances hasher) {pending : List PendingLinks}
    (hbs : ∀ b ∈ bs, b ∈ z.register.batches ∧ (z.register.stage b.offset = .held i ∨
      z.register.stage b.offset = .pending))
    (hs : s = .pending ∨ s = .held i ∧ ¬z.register.Empty i)
    (hp : ∀ {b}, b ∈ pending ↔ b ∈ z.register.batches ∧ (z.register.move bs s).stage b.offset =
      .pending) (hnodup : pending.Nodup) :
    z.Shifts hasher i
      { z with register := z.register.move bs s, state := { z.state with pending } } := by
  have hsub : bs ⊆ z.register.batches := fun b hb => (hbs b hb).1
  have hsT : s.Tailed := by
    rcases hs with rfl | ⟨rfl, -⟩
    · trivial
    · trivial
  have hold : ∀ b ∈ bs, (z.register.stage b.offset).Tailed := by
    intro b hb
    rcases (hbs b hb).2 with h | h
    · rw [h]
      trivial
    · rw [h]
      trivial
  have hdone {t : Stage} (ht : t.Tailed) : t ≠ .done := by
    rintro rfl
    exact ht
  exact
    { balances :=
        { hz with
          fresh := fun hb hf hy => hz.fresh hb (stage_of_pass hz hsub hsT (fun h => h) hb hf) hy
          pending := hp
          nodup := hnodup
          backpointer := by
            refine hz.backpointer.trans (exists_congr fun b => and_congr_right fun hb => ?_)
            exact and_congr_left fun _ => (tailed_pass hz hsub hsT hold hb).symm
          head := by
            refine hz.head.trans (exists_congr fun b => and_congr_right fun hb => ?_)
            refine and_congr (tailed_pass hz hsub hsT hold hb).symm (and_congr_right fun _ => ?_)
            exact forall_congr' fun c => forall_congr' fun hc =>
              imp_congr_left (recorded_pass hz hsub hsT hold hc).symm
          watermark := by
            refine hz.watermark.trans (Row.mark_congr fun b hb => (hz.done_move hsub hb ?_).symm)
            exact fun c hc => iff_of_false (hdone (hold c hc)) (hdone hsT)
          kept := fun hb hd => hz.kept hb (stage_of_pass hz hsub hsT (fun h => h) hb hd) }
      leaves := fun j hj => by
        refine .of_move hz.row hj rfl (fun b hb => ⟨(hbs b hb).1, .inr (hbs b hb).2⟩) ?_ rfl rfl rfl
          (Nat.le_refl _)
        rcases hs with hs | hs
        · exact .inl hs
        · exact .inr (.inr hs) }

section Append

variable {rs : List Record}

variable (hz : z.Balances hasher) (ho : b.offset = Log.size z.register.log)
include hz ho

theorem Balances.offset_lt (hc : c ∈ z.register.batches) : c.offset < b.offset := by
  have := (hz.row.bounds hc).2.1
  have := hz.stop_le hc
  omega

theorem stage_append (hc : c ∈ z.register.batches) :
    (z.register.append rs b s).stage c.offset = z.register.stage c.offset :=
  Register.stage_append_of_ne (Nat.ne_of_lt (hz.offset_lt ho hc))

theorem exists_append_iff {P : PendingLinks → Stage → Prop} (hP : ¬P b s) :
    (∃ c ∈ (z.register.append rs b s).batches,
        P c ((z.register.append rs b s).stage c.offset)) ↔
      ∃ c ∈ z.register.batches, P c (z.register.stage c.offset) := by
  constructor
  · rintro ⟨c, hc, hPc⟩
    rcases Register.mem_batches_append.1 hc with hc | rfl
    · exact ⟨c, hc, stage_append hz ho hc ▸ hPc⟩
    · rw [Register.stage_append_self] at hPc
      exact absurd hPc hP
  · rintro ⟨c, hc, hPc⟩
    exact ⟨c, Register.mem_batches_append.2 (.inl hc), (stage_append hz ho hc).symm ▸ hPc⟩

theorem stage_append_iff {t : Stage} (ht : s ≠ t) :
    c ∈ (z.register.append rs b s).batches ∧ (z.register.append rs b s).stage c.offset = t ↔
      c ∈ z.register.batches ∧ z.register.stage c.offset = t := by
  constructor
  · rintro ⟨hc, hct⟩
    rcases Register.mem_batches_append.1 hc with hc | rfl
    · exact ⟨hc, (stage_append hz ho hc).symm.trans hct⟩
    · exact absurd (Register.stage_append_self.symm.trans hct) ht
  · rintro ⟨hc, hct⟩
    exact ⟨Register.mem_batches_append.2 (.inl hc), (stage_append hz ho hc).trans hct⟩

/-- The tail has its heads from old batches, since the new one was not recorded. -/
theorem head_append (hT : ¬s.Tailed) (hR : ¬s.Recorded) :
    z.state.heads[h]? = some y ↔
      ∃ c ∈ (z.register.append rs b s).batches,
        ((z.register.append rs b s).stage c.offset).Tailed ∧ (h, y) ∈ c.links.heads ∧
          ∀ d ∈ (z.register.append rs b s).batches,
            ((z.register.append rs b s).stage d.offset).Recorded →
              ∀ x, (h, x) ∈ d.links.heads → x ≤ y := by
  refine hz.head.trans ?_
  refine Iff.trans ?_ (exists_append_iff hz ho (P := fun c t => t.Tailed ∧ (h, y) ∈ c.links.heads ∧
    ∀ d ∈ (z.register.append rs b s).batches,
      ((z.register.append rs b s).stage d.offset).Recorded →
        ∀ x, (h, x) ∈ d.links.heads → x ≤ y) fun h => hT h.1).symm
  refine exists_congr fun c => and_congr_right fun _ => and_congr_right fun _ =>
    and_congr_right fun _ => ⟨fun hall d hd hd' => ?_, fun hall d hd hd' => ?_⟩
  · rcases Register.mem_batches_append.1 hd with hd | rfl
    · exact hall d hd (stage_append hz ho hd ▸ hd')
    · rw [Register.stage_append_self] at hd'
      exact absurd hd' hR
  · exact hall d (Register.mem_batches_append.2 (.inl hd)) ((stage_append hz ho hd).symm ▸ hd')

theorem mark_append (hs : s ≠ .done) :
    Row.mark (z.register.append rs b s).done 0 (z.register.append rs b s).batches =
      Row.mark z.register.done 0 z.register.batches := by
  have hundone : (z.register.append rs b s).done b.offset = false := by
    unfold Register.done
    rw [Register.stage_append_self]
    exact decide_eq_false hs
  refine (Row.mark_append hundone).trans (Row.mark_congr fun c hc => ?_)
  unfold Register.done
  rw [stage_append hz ho hc]

theorem empty_append (he : z.register.Empty i) : (z.register.append rs b .lost).Empty i := by
  intro c hc
  rcases Register.mem_batches_append.1 hc with hc | rfl
  · rw [stage_append hz ho hc]
    exact he c hc
  · rw [Register.stage_append_self]
    exact ⟨by simp, by simp⟩

theorem fresh_append_iff (he : z.register.Empty i) :
    c ∈ (z.register.append rs b (.fresh i)).batches ∧
      (z.register.append rs b (.fresh i)).stage c.offset = .fresh i ↔ c = b := by
  constructor
  · rintro ⟨hc, hf⟩
    rcases Register.mem_batches_append.1 hc with hc | rfl
    · exact absurd ((stage_append hz ho hc).symm.trans hf) (he c hc).1
    · rfl
  · rintro rfl
    exact ⟨Register.mem_batches_append.2 (.inr rfl), Register.stage_append_self⟩

theorem held_append (he : z.register.Empty i)
    (hc : c ∈ (z.register.append rs b (.fresh i)).batches) :
    (z.register.append rs b (.fresh i)).stage c.offset ≠ .held i := by
  intro hh
  rcases Register.mem_batches_append.1 hc with hc | rfl
  · exact (he c hc).2 ((stage_append hz ho hc).symm.trans hh)
  · cases Register.stage_append_self.symm.trans hh

/-- The buckets of a batch that is yet to be recorded are locked, the new one's as well. Nothing is
appended to them by anybody else. -/
theorem fresh_append (hempty : z.register.Empty i)
    (hown : ∀ {h y}, (h, y) ∈ b.links.heads → z.register.owner h = some i)
    (hs : s = .fresh i ∨ s = .lost) (hc : c ∈ (z.register.append rs b s).batches)
    (hf : (z.register.append rs b s).stage c.offset = .fresh k) (hy : (h, y) ∈ c.links.heads) :
    z.register.owner h = some k ∧
      ∀ {d x}, d ∈ (z.register.append rs b s).batches → (h, x) ∈ d.links.heads →
        d.offset ≤ c.offset := by
  rcases Register.mem_batches_append.1 hc with hcz | rfl
  · have hfz := (stage_append hz ho hcz).symm.trans hf
    obtain ⟨howner, hlast⟩ := hz.fresh hcz hfz hy
    refine ⟨howner, fun {d y'} hd hy' => ?_⟩
    rcases Register.mem_batches_append.1 hd with hd | rfl
    · exact hlast hd hy'
    · obtain rfl := Option.some.inj (howner.symm.trans (hown hy'))
      exact absurd hfz (hempty c hcz).1
  · rw [Register.stage_append_self] at hf
    refine ⟨?_, fun {d y'} hd _ => ?_⟩
    · rcases hs with rfl | rfl
      · obtain rfl := Stage.fresh.inj hf
        exact hown hy
      · cases hf
    · rcases Register.mem_batches_append.1 hd with hd | rfl
      · exact Nat.le_of_lt (hz.offset_lt ho hd)
      · exact Nat.le_refl _

/-- A batch is appended by a thread that holds the locks of its buckets. It is with that thread, or
nobody knows of it. -/
theorem shifts_append (hrec : z.state.recovered ≠ none) (hwf : Log.Wellformed hasher rs)
    (hempty : z.register.Empty i) (hb : Spans hasher (z.register.log ++ rs) b)
    (hlength : b.length = Log.size rs) (hpos : 0 < b.length)
    (hown : ∀ {h y}, (h, y) ∈ b.links.heads → z.register.owner h = some i)
    (hs : s = .fresh i ∨ s = .lost) :
    z.Shifts hasher i { z with register := z.register.append rs b s } := by
  have hl : z.register.log <+: z.register.log ++ rs := List.prefix_append ..
  -- Neither of the two stages counts for the tail, for what is left over or for the watermark.
  have hsT : ¬s.Recorded ∧ ¬s.Tailed ∧ s ≠ .pending ∧ s ≠ .done := by
    rcases hs with rfl | rfl
    · exact ⟨fun h => h, fun h => h, by simp, by simp⟩
    · exact ⟨fun h => h, fun h => h, by simp, by simp⟩
  obtain ⟨n, hn, hle, hbound⟩ := hz.index
  exact
    { balances :=
        { hz with
          wellformed := hz.wellformed.append hwf
          row := hz.row.append (ho.trans hz.size.symm) hpos
          size := by
            have hsize : Log.size (z.register.append rs b s).log =
                Log.size z.register.log + Log.size rs := Log.size_append ..
            refine (Row.stop_append z.register.batches b).trans ?_
            rw [hsize, ← ho, ← hlength]
            rfl
          spans := fun hc => by
            rcases Register.mem_batches_append.1 hc with hc | rfl
            · exact (hz.spans hc).grow hl (hz.stop_le hc)
            · exact hb
          unrecovered := fun h => absurd h hrec
          fresh := fresh_append hz ho hempty hown hs
          pending := hz.pending.trans (stage_append_iff hz ho hsT.2.2.1).symm
          backpointer := fun {x p} => by
            refine hz.backpointer.trans (exists_append_iff hz ho (P := fun c t => t.Tailed ∧
              (x, p) ∈ c.links.backpointers) fun h => hsT.2.1 h.1).symm
          head := head_append hz ho hsT.2.1 hsT.1
          watermark := hz.watermark.trans (mark_append hz ho hsT.2.2.2).symm
          linked := fun hq => by
            obtain ⟨c, hc, hcq⟩ := hz.linked hq
            exact ⟨c, Register.mem_batches_append.2 (.inl hc), hcq⟩
          kept := fun hc hd => by
            obtain ⟨hc, hd⟩ := (stage_append_iff hz ho hsT.2.2.2).1 ⟨hc, hd⟩
            exact hz.kept hc hd
          index := ⟨n, hn, hle, hbound.mono hl⟩ }
      leaves := fun j hj =>
        { Leaves.refl j z with
          log := hl
          batches := List.prefix_append ..
          lost := fun hc => by rw [stage_append hz ho hc]
          fresh := stage_append_iff hz ho fun h => by
            rcases hs with rfl | rfl
            · exact hj (Stage.fresh.inj h).symm
            · cases h
          held := stage_append_iff hz ho fun h => by
            rcases hs with rfl | rfl
            · cases h
            · cases h
          unmoved := fun h => absurd (congrArg List.length h) (by simp [Register.append]) } }

end Append

section Record

variable {H : Heads} {B : Std.ExtTreeMap Nat (Option Nat)} (hz : z.Balances hasher)
  (hb : b ∈ z.register.batches)
include hz hb

/-- No batch that shares a bucket comes behind one that is yet to be recorded. -/
theorem Balances.head_le_of_fresh (hf : z.register.stage b.offset = .fresh i)
    (hc : c ∈ z.register.batches) (hx : (h, x) ∈ c.links.heads) (hy : (h, y) ∈ b.links.heads) :
    x ≤ y := by
  have hle := (hz.fresh hb hf hy).2 hc hx
  rcases hz.row.eq_or_stop_le hc hb with rfl | hstop | hstop
  · exact Nat.le_of_eq ((hz.spans hc).head_unique hx hy)
  · obtain ⟨-, -, hhi, -⟩ := (hz.spans hc).head hx
    obtain ⟨-, hlo, -, -⟩ := (hz.spans hb).head hy
    omega
  · have := (hz.row.bounds hb).2.1
    omega

/-- The heads of a batch enter the tail, where they take the place of older ones. -/
theorem head_record (hf : z.register.stage b.offset = .fresh i)
    (hH : ∀ {h : KeyHash} {y}, H[h]? = some y →
      (h, y) ∈ b.links.heads ∨ z.state.heads[h]? = some y ∧ ∀ y', (h, y') ∉ b.links.heads)
    (hH' : ∀ {h : KeyHash}, H[h]? = none →
      z.state.heads[h]? = none ∧ ∀ y', (h, y') ∉ b.links.heads) :
    H[h]? = some y ↔
      ∃ c ∈ z.register.batches, ((z.register.move [b] (.held i)).stage c.offset).Tailed ∧
        (h, y) ∈ c.links.heads ∧ ∀ d ∈ z.register.batches,
          ((z.register.move [b] (.held i)).stage d.offset).Recorded →
            ∀ x, (h, x) ∈ d.links.heads → x ≤ y := by
  constructor
  · intro hy
    rcases hH hy with hy | ⟨hy, hn⟩
    · exact ⟨b, hb, (hz.tailed_hold hb hb).2 (.inl rfl), hy,
        fun d hd _ x hx => hz.head_le_of_fresh hb hf hd hx hy⟩
    · obtain ⟨c, hc, hcT, hcy, hall⟩ := hz.head.1 hy
      refine ⟨c, hc, (hz.tailed_hold hb hc).2 (.inr hcT), hcy, fun d hd hdR x hx => ?_⟩
      rcases (hz.recorded_hold hb hd).1 hdR with rfl | hdR
      · exact absurd hx (hn x)
      · exact hall d hd hdR x hx
  · rintro ⟨c, hc, hcT, hcy, hall⟩
    -- Beside a head of this batch, no older one is the greatest.
    have hmax {y' : Nat} (hy' : (h, y') ∈ b.links.heads) : c = b := by
      have hle := hall b hb ((hz.recorded_hold hb hb).2 (.inl rfl)) y' hy'
      have heq : y = y' := Nat.le_antisymm (hz.head_le_of_fresh hb hf hc hcy hy') hle
      exact hz.eq_of_head hc hb hcy (heq ▸ hy')
    have hnew : (h, y) ∈ b.links.heads ∨
        z.state.heads[h]? = some y ∧ ∀ y', (h, y') ∉ b.links.heads := by
      rcases (hz.tailed_hold hb hc).1 hcT with rfl | hcT
      · exact .inl hcy
      · refine .inr ⟨hz.head.2 ⟨c, hc, hcT, hcy, fun d hd hdR =>
          hall d hd ((hz.recorded_hold hb hd).2 (.inr hdR))⟩, fun y' hy' => ?_⟩
        rw [hmax hy', hf] at hcT
        exact hcT
    cases hy : H[h]? with
    | none =>
      obtain ⟨hold, hn⟩ := hH' hy
      rcases hnew with hnew | ⟨hnew, -⟩
      · exact absurd hnew (hn y)
      · cases hold.symm.trans hnew
    | some y' =>
      rcases hnew with hnew | ⟨hnew, hn⟩
      · rcases hH hy with hy | ⟨-, hn⟩
        · rw [(hz.spans hb).head_unique hy hnew]
        · exact absurd hnew (hn y)
      · rcases hH hy with hy | ⟨hy, -⟩
        · exact absurd hy (hn y')
        · exact hy.symm.trans hnew

theorem backpointer_record
    (hB : ∀ {x p}, B[x]? = some p →
      (x, p) ∈ b.links.backpointers ∨ z.state.backpointers[x]? = some p ∧
        ∀ p', (x, p') ∉ b.links.backpointers)
    (hB' : ∀ {x}, B[x]? = none →
      z.state.backpointers[x]? = none ∧ ∀ p, (x, p) ∉ b.links.backpointers) :
    B[x]? = some p ↔
      ∃ c ∈ z.register.batches, ((z.register.move [b] (.held i)).stage c.offset).Tailed ∧
        (x, p) ∈ c.links.backpointers := by
  constructor
  · intro hp
    rcases hB hp with hp | ⟨hp, -⟩
    · exact ⟨b, hb, (hz.tailed_hold hb hb).2 (.inl rfl), hp⟩
    · obtain ⟨c, hc, hcT, hcp⟩ := hz.backpointer.1 hp
      exact ⟨c, hc, (hz.tailed_hold hb hc).2 (.inr hcT), hcp⟩
  · rintro ⟨c, hc, hcT, hcp⟩
    cases hq : B[x]? with
    | none =>
      obtain ⟨hold, hn⟩ := hB' hq
      rcases (hz.tailed_hold hb hc).1 hcT with rfl | hcT
      · exact absurd hcp (hn p)
      · cases hold.symm.trans (hz.backpointer.2 ⟨c, hc, hcT, hcp⟩)
    | some q =>
      rcases hB hq with hq | ⟨hq, -⟩
      · rw [(hz.eq_of_backpointer hb hc hq hcp).2]
      · obtain ⟨d, hd, -, hdq⟩ := hz.backpointer.1 hq
        rw [(hz.eq_of_backpointer hd hc hdq hcp).2]

/-- The links of a batch are recorded by the thread that has appended it. -/
theorem shifts_record {n : Nat} (hf : z.register.stage b.offset = .fresh i)
    (hH : ∀ {h : KeyHash} {y}, H[h]? = some y →
      (h, y) ∈ b.links.heads ∨ z.state.heads[h]? = some y ∧ ∀ y', (h, y') ∉ b.links.heads)
    (hH' : ∀ {h : KeyHash}, H[h]? = none →
      z.state.heads[h]? = none ∧ ∀ y', (h, y') ∉ b.links.heads)
    (hB : ∀ {x p}, B[x]? = some p →
      (x, p) ∈ b.links.backpointers ∨ z.state.backpointers[x]? = some p ∧
        ∀ p', (x, p') ∉ b.links.backpointers)
    (hB' : ∀ {x}, B[x]? = none →
      z.state.backpointers[x]? = none ∧ ∀ p, (x, p) ∉ b.links.backpointers) :
    z.Shifts hasher i
      { z with
        register := z.register.move [b] (.held i)
        state := { z.state with heads := H, backpointers := B, generation := n } } where
  balances :=
    { hz with
      fresh := fun hc hcf hy => hz.fresh hc (hz.stage_of_move hb hc (by simp) hcf) hy
      pending := hz.pending.trans (and_congr_right fun hc =>
        (hz.stage_move_singleton_iff hb hc (by simp) (by simp [hf])).symm)
      backpointer := backpointer_record hz hb hB hB'
      head := head_record hz hb hf hH hH'
      watermark := by
        have hsub : [b] ⊆ z.register.batches := fun c hc => List.mem_singleton.1 hc ▸ hb
        refine hz.watermark.trans (Row.mark_congr fun c hc => (hz.done_move hsub hc ?_).symm)
        intro d hd
        rw [List.mem_singleton.1 hd, hf]
        exact iff_of_false (by simp) (by simp)
      kept := fun hc hd => hz.kept hc (hz.stage_of_move hb hc (by simp) hd) }
  leaves j hj := by
    refine .of_move hz.row hj rfl (fun c hc => ?_) (.inr (.inr ⟨rfl, fun he => ?_⟩)) rfl rfl rfl
      (Nat.le_refl _)
    · rw [List.mem_singleton.1 hc]
      exact ⟨hb, .inl hf⟩
    · exact (he b hb).1 hf

end Record

section Links

variable (hz : z.Balances hasher)
include hz

theorem Balances.proper_of_head (hb : b ∈ z.register.batches) (hy : (h, y) ∈ b.links.heads) :
    h.Proper := ((hz.spans hb).head hy).1.proper

variable (hbs : bs ⊆ z.register.batches)
include hbs

theorem mem_updates {u : AttributeUpdate} (hu : u ∈ bs.flatMap (·.links.updates)) :
    (∃ b ∈ bs, ∃ h y, (h, y) ∈ b.links.heads ∧ h.Proper ∧
        u = .replaceIfGreater (.bucket h) y) ∨
      ∃ b ∈ bs, ∃ x q, (x, some q) ∈ b.links.backpointers ∧ u = .replace (.backpointer x) q := by
  obtain ⟨b, hb, hu⟩ := List.mem_flatMap.1 hu
  rcases List.mem_append.1 hu with hu | hu
  · obtain ⟨h, y, hy, rfl⟩ := Links.mem_headUpdates.1 hu
    exact .inl ⟨b, hb, h, y, hy, hz.proper_of_head (hbs hb) hy, rfl⟩
  · obtain ⟨x, q, hq, rfl⟩ := Links.mem_backpointerUpdates.1 hu
    exact .inr ⟨b, hb, x, q, hq, rfl⟩

theorem backpointer_of_updates {u : AttributeUpdate} (hu : u ∈ bs.flatMap (·.links.updates))
    (hid : u.id = .backpointer x) :
    ∃ b ∈ bs, ∃ q, (x, some q) ∈ b.links.backpointers ∧ u = .replace (.backpointer x) q := by
  rcases mem_updates hz hbs hu with ⟨b, -, h, y, -, hh, rfl⟩ | ⟨b, hb, x', q, hq, rfl⟩
  · exact absurd hid (AttributeId.bucket_ne_backpointer hh x)
  · obtain rfl := AttributeId.backpointer_inj.1 hid
    exact ⟨b, hb, q, hq, rfl⟩

theorem bucket_of_updates {u : AttributeUpdate} (hu : u ∈ bs.flatMap (·.links.updates))
    (hh : h.Proper) (hid : u.id = .bucket h) : u.rule = .replaceIfGreater := by
  rcases mem_updates hz hbs hu with ⟨b, -, g, y, -, -, rfl⟩ | ⟨b, -, x, q, -, rfl⟩
  · rfl
  · exact absurd hid.symm (AttributeId.bucket_ne_backpointer hh x)

theorem linked_updateAll
    (hq : (z.attributes.updateAll (bs.flatMap (·.links.updates)))[AttributeId.backpointer x]? =
      some y) : ∃ b ∈ z.register.batches, (x, some y) ∈ b.links.backpointers := by
  rcases Attributes.updateAll_cases hq with hq | ⟨u, hu, hid, rfl⟩
  · exact hz.linked hq
  · obtain ⟨b, hb, q, hbq, rfl⟩ := backpointer_of_updates hz hbs hu hid
    exact ⟨b, hbs hb, hbq⟩

/-- Links that are written, or were there already, are there. -/
theorem kept_updateAll (hb : b ∈ z.register.batches) (hk : b ∈ bs ∨ b.links.Kept z.attributes) :
    b.links.Kept (z.attributes.updateAll (bs.flatMap (·.links.updates))) where
  backpointer {x p} hp := by
    cases p with
    | none =>
      cases hq : (z.attributes.updateAll (bs.flatMap (·.links.updates)))[
          AttributeId.backpointer x]? with
      | none => rfl
      | some q =>
        obtain ⟨c, hc, hcq⟩ := linked_updateAll hz hbs hq
        cases (hz.eq_of_backpointer hb hc hp hcq).2
    | some q =>
      refine Attributes.updateAll_replaced (fun u hu hid => ?_) ?_
      · obtain ⟨c, hc, q', hq', rfl⟩ := backpointer_of_updates hz hbs hu hid
        have hqq := (hz.eq_of_backpointer hb (hbs hc) hp hq').2
        rw [Option.some.inj hqq]
      · rcases hk with hmem | hk
        · have hu := Links.mem_backpointerUpdates.2 ⟨x, q, hp, rfl⟩
          exact .inl ⟨_, List.mem_flatMap.2 ⟨b, hmem, List.mem_append_right _ hu⟩, rfl⟩
        · exact .inr (hk.backpointer hp)
  head {h y} hy := by
    have hh := hz.proper_of_head hb hy
    refine Attributes.updateAll_grows (fun u hu => bucket_of_updates hz hbs hu hh) ?_
    rcases hk with hmem | hk
    · have hu := Links.mem_headUpdates.2 ⟨h, y, hy, rfl⟩
      exact .inl ⟨_, List.mem_flatMap.2 ⟨b, hmem, List.mem_append_left _ hu⟩, rfl, Nat.le_refl y⟩
    · exact .inr (hk.head hy)

/-- The links of some batches are persisted. -/
theorem shifts_links :
    z.Shifts hasher i
      { z with attributes := z.attributes.updateAll (bs.flatMap (·.links.updates)) } where
  balances :=
    { hz with
      linked := linked_updateAll hz hbs
      kept := fun hb hd => kept_updateAll hz hbs hb (.inr (hz.kept hb hd))
      index := by
        have hno : ∀ u ∈ bs.flatMap (·.links.updates), u.id ≠ AttributeId.indexOffset := by
          intro u hu hid
          rcases mem_updates hz hbs hu with ⟨b, -, h, y, -, hh, rfl⟩ | ⟨b, -, x, q, -, rfl⟩
          · exact AttributeId.bucket_ne_indexOffset hh hid
          · exact AttributeId.backpointer_ne_indexOffset x hid
        dsimp only
        rw [Attributes.updateAll_of_ne hno]
        exact hz.index }
  leaves j _ :=
    { Leaves.refl j z with kept := fun hb hk => kept_updateAll hz hbs hb (.inr hk) }

end Links

/-- The index offset follows the watermark. -/
theorem shifts_index (hz : z.Balances hasher) {n : Nat} (hn : n ≤ z.state.watermark.offset)
    (hbound : Log.Boundary z.register.log n) :
    z.Shifts hasher i
      { z with attributes := z.attributes.updateAll [.replaceIfGreater .indexOffset n] } := by
  have hother {id : AttributeId} (hid : id ≠ .indexOffset) :
      (z.attributes.updateAll [.replaceIfGreater .indexOffset n])[id]? = z.attributes[id]? :=
    Attributes.updateAll_of_ne fun u hu => List.mem_singleton.1 hu ▸ hid.symm
  have hkept {b : PendingLinks} (hb : b ∈ z.register.batches) (hk : b.links.Kept z.attributes) :
      b.links.Kept (z.attributes.updateAll [.replaceIfGreater .indexOffset n]) := by
    constructor
    · intro x p hp
      exact (hother (AttributeId.backpointer_ne_indexOffset x)).trans (hk.backpointer hp)
    · intro h y hy
      obtain ⟨v, hv, hle⟩ := hk.head hy
      have hid := AttributeId.bucket_ne_indexOffset (hz.proper_of_head hb hy)
      exact ⟨v, (hother hid).trans hv, hle⟩
  exact
    { balances :=
        { hz with
          linked := fun hq =>
            hz.linked ((hother (AttributeId.backpointer_ne_indexOffset _)).symm.trans hq)
          kept := fun hb hd => hkept hb (hz.kept hb hd)
          index := by
            obtain ⟨m, hm, hle, hbm⟩ := hz.index
            obtain ⟨k, hk, -⟩ := @Attributes.updateAll_grows z.attributes
              [.replaceIfGreater .indexOffset n] .indexOffset m
              (fun u hu _ => by rw [List.mem_singleton.1 hu]; rfl) (.inr ⟨m, hm, Nat.le_refl m⟩)
            refine ⟨k, hk, ?_⟩
            rcases Attributes.updateAll_cases hk with hk | ⟨u, hu, -, rfl⟩
            · obtain rfl := Option.some.inj (hm.symm.trans hk)
              exact ⟨hle, hbm⟩
            · rw [List.mem_singleton.1 hu]
              exact ⟨hn, hbound⟩ }
      leaves := fun j _ => { Leaves.refl j z with kept := hkept } }

theorem Balances.boundary (hz : z.Balances hasher) :
    Log.Boundary z.register.log z.state.watermark.offset := by
  rw [hz.watermark]
  rcases hz.row.mark_stands z.register.done with ⟨b, hb, -, ho⟩ | ⟨-, hs⟩
  · rw [ho]
    exact (hz.spans hb).start
  · rw [hs, hz.size]
    exact Log.boundary_size _

section Retire

variable {H : Heads} {B : Std.ExtTreeMap Nat (Option Nat)} (hz : z.Balances hasher)
  (hb : b ∈ z.register.batches) (hheld : z.register.stage b.offset = .held i)
include hz hb hheld

/-- The heads of a batch leave the tail. -/
theorem head_retire
    (hH : ∀ {h : KeyHash} {y}, H[h]? = some y →
      z.state.heads[h]? = some y ∧ (h, y) ∉ b.links.heads)
    (hH' : ∀ {h : KeyHash} {y}, z.state.heads[h]? = some y → H[h]? = none →
      (h, y) ∈ b.links.heads) :
    H[h]? = some y ↔
      ∃ c ∈ z.register.batches, ((z.register.move [b] .done).stage c.offset).Tailed ∧
        (h, y) ∈ c.links.heads ∧ ∀ d ∈ z.register.batches,
          ((z.register.move [b] .done).stage d.offset).Recorded →
            ∀ x, (h, x) ∈ d.links.heads → x ≤ y := by
  have hrecorded : (z.register.stage b.offset).Recorded := by
    rw [hheld]
    trivial
  constructor
  · intro hy
    obtain ⟨hy, hne⟩ := hH hy
    obtain ⟨c, hc, hcT, hcy, hall⟩ := hz.head.1 hy
    refine ⟨c, hc, (hz.tailed_finish hb hc).2 ⟨fun hcb => hne (hcb ▸ hcy), hcT⟩, hcy,
      fun d hd hdR => ?_⟩
    exact hall d hd ((hz.recorded_finish hb hd hrecorded).1 hdR)
  · rintro ⟨c, hc, hcT, hcy, hall⟩
    obtain ⟨hne, hcT⟩ := (hz.tailed_finish hb hc).1 hcT
    have hold : z.state.heads[h]? = some y := hz.head.2 ⟨c, hc, hcT, hcy, fun d hd hdR =>
      hall d hd ((hz.recorded_finish hb hd hrecorded).2 hdR)⟩
    cases hy : H[h]? with
    | none => exact absurd (hz.eq_of_head hc hb hcy (hH' hold hy)) hne
    | some y' => exact (hH hy).1.symm.trans hold

omit hheld in
theorem backpointer_retire
    (hB : ∀ {x p}, B[x]? = some p →
      z.state.backpointers[x]? = some p ∧ ∀ p', (x, p') ∉ b.links.backpointers)
    (hB' : ∀ {x}, B[x]? = none →
      z.state.backpointers[x]? = none ∨ ∃ p, (x, p) ∈ b.links.backpointers) :
    B[x]? = some p ↔
      ∃ c ∈ z.register.batches, ((z.register.move [b] .done).stage c.offset).Tailed ∧
        (x, p) ∈ c.links.backpointers := by
  constructor
  · intro hp
    obtain ⟨hp, hn⟩ := hB hp
    obtain ⟨c, hc, hcT, hcp⟩ := hz.backpointer.1 hp
    exact ⟨c, hc, (hz.tailed_finish hb hc).2 ⟨fun hcb => hn p (hcb ▸ hcp), hcT⟩, hcp⟩
  · rintro ⟨c, hc, hcT, hcp⟩
    obtain ⟨hne, hcT⟩ := (hz.tailed_finish hb hc).1 hcT
    have hold := hz.backpointer.2 ⟨c, hc, hcT, hcp⟩
    cases hq : B[x]? with
    | none =>
      rcases hB' hq with hn | ⟨q, hq⟩
      · cases hold.symm.trans hn
      · exact absurd (hz.eq_of_backpointer hc hb hcp hq).1 hne
    | some q => exact (hB hq).1.symm.trans hold

/-- The watermark moves over the range of a batch that is done, and over those behind it that were
done before. -/
theorem watermark_retire :
    (z.state.watermark.complete b.offset (b.offset + b.length)).1 =
      Row.mark (z.register.move [b] .done).done 0 z.register.batches := by
  have hundone : z.register.done b.offset = false := by
    unfold Register.done
    rw [hheld]
    rfl
  rw [hz.watermark]
  refine congrArg Prod.fst (hz.row.complete_mark hb hundone fun c hc => ?_)
  unfold Register.done
  rcases hz.stage_move_singleton (s := .done) hb hc with ⟨rfl, hc'⟩ | ⟨hne, hc'⟩
  · simp [hc']
  · have ho : c.offset ≠ b.offset := fun ho => hne (hz.row.eq_of_offset hc hb ho)
    rw [hc', decide_eq_false ho, Bool.false_or]

/-- A batch whose links are persisted leaves the tail, and its range is complete. -/
theorem shifts_retire (hk : b.links.Kept z.attributes)
    (hH : ∀ {h : KeyHash} {y}, H[h]? = some y →
      z.state.heads[h]? = some y ∧ (h, y) ∉ b.links.heads)
    (hH' : ∀ {h : KeyHash} {y}, z.state.heads[h]? = some y → H[h]? = none →
      (h, y) ∈ b.links.heads)
    (hB : ∀ {x p}, B[x]? = some p →
      z.state.backpointers[x]? = some p ∧ ∀ p', (x, p') ∉ b.links.backpointers)
    (hB' : ∀ {x}, B[x]? = none →
      z.state.backpointers[x]? = none ∨ ∃ p, (x, p) ∈ b.links.backpointers) :
    z.Shifts hasher i
      { z with
        register := z.register.move [b] .done
        state :=
          { z.state with
            heads := H
            backpointers := B
            watermark := (z.state.watermark.complete b.offset (b.offset + b.length)).1 } } := by
  have hrise : z.state.watermark.offset ≤
      (z.state.watermark.complete b.offset (b.offset + b.length)).1.offset := Watermark.le_complete
  exact
    { balances :=
        { hz with
          fresh := fun hc hcf hy => hz.fresh hc (hz.stage_of_move hb hc (by simp) hcf) hy
          pending := hz.pending.trans (and_congr_right fun hc =>
            (hz.stage_move_singleton_iff hb hc (by simp) (by simp [hheld])).symm)
          backpointer := backpointer_retire hz hb hB hB'
          head := head_retire hz hb hheld hH hH'
          watermark := watermark_retire hz hb hheld
          kept := fun hc hd => by
            rcases hz.stage_move_singleton (s := .done) hb hc with ⟨rfl, -⟩ | ⟨-, hc'⟩
            · exact hk
            · exact hz.kept hc (hc'.symm.trans hd)
          index := by
            obtain ⟨n, hn, hle, hbound⟩ := hz.index
            exact ⟨n, hn, Nat.le_trans hle hrise, hbound⟩ }
      leaves := fun j hj => by
        refine .of_move hz.row hj rfl (fun c hc => ?_) (.inr (.inl rfl)) rfl rfl rfl hrise
        rw [List.mem_singleton.1 hc]
        exact ⟨hb, .inr (.inl hheld)⟩ }

end Retire

end KeyedLog.View
