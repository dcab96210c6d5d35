import KeyedLog.Proofs.Custody.Runs

/-! The persisted index offset: all links below it are persisted, and they are right, whichever
calls fail and even if appends take effect that are reported as failed. -/
namespace KeyedLog

namespace Pool

variable {α : Type} {y z : Pool Tables α} {e : Event Tables α} {es : List (Event Tables α)}

theorem Step.honest (h : Step treacherous y e z) (he : ¬e.Deceives) :
    Step surroundings y e z := by
  refine h.mono (fun heq _ t segment data hfate hq => he ?_) id
  subst heq hfate hq
  trivial

/-- All goes well up to the first append that takes effect and is reported as failed. -/
theorem Steps.deceived (h : Steps Pool.treacherous y es z) :
    Steps surroundings y es z ∨ ∃ ds e fs m m', es = ds ++ e :: fs ∧ Steps surroundings y ds m ∧
      Step Pool.treacherous m e m' ∧ e.Deceives ∧ Steps Pool.treacherous m' fs z := by
  induction h with
  | refl y => exact .inl (.refl y)
  | @head y m z e es h hs ih =>
    by_cases he : e.Deceives
    · exact .inr ⟨[], e, es, y, m, rfl, .refl y, h, he, hs⟩
    · rcases ih with ih | ⟨ds, f, fs, k, k', rfl, hds, hf, hlost, hfs⟩
      · exact .inl (.head (h.honest he) ih)
      · exact .inr ⟨e :: ds, f, fs, k, k', rfl, .head (h.honest he) hds, hf, hlost, hfs⟩

end Pool

namespace Site

open Pool

variable {config : Config} {name : String} {segment : Nat} {c c' : Container}
  {es : List (Event Tables Reply)} {z : Pool Tables Reply}

/-- The links of a batch are true, unless something was lost before it was appended. -/
theorem exists_true_register (hm : config.mode = .inline)
    (hc : c.create name initialAttributes = .ok c') (hn : c'.resolve name = .ok segment)
    (hrun : Steps Pool.treacherous (.opened config c') es z)
    (hf : ∀ e ∈ es, e.Fits config name segment) :
    ∃ g, (created config name segment False).Balanced (z.world g) ∧ ∀ b ∈ g.batches,
      (∀ d ∈ g.batches, d.offset ≤ b.offset → g.stage d.offset ≠ .lost) →
      ∀ {x p h}, (x, p) ∈ b.links.backpointers → Log.Entry config.hasher g.log x h →
        LastBefore (Log.Entry config.hasher g.log · h) x p := by
  rcases hrun.deceived with hhonest | ⟨ds, e, fs, m, m', rfl, hds, he, hlost, hfs⟩
  · obtain ⟨g, hz, hes⟩ := exists_register hm hc hn hrun hf
    exact ⟨g, hz.inv, fun b hb _ {x p h} hp hx => links_true hc hn hhonest hf hz hes hb hp hx⟩
  have hfd : ∀ e ∈ ds, e.Fits config name segment := fun e he => hf e (by simp [he])
  obtain ⟨g, hg, hgs⟩ := exists_register hm hc hn hds.treacherous hfd
  obtain ⟨g', hg', hacc⟩ := he.sound (custody_lawful _) (custody_within id) hg fun i p hp => by
    rw [hp] at hlost
    exact hlost.elim
  obtain ⟨g'', hz, -, hgrow⟩ := custody_of_fits (S := created config name segment False) hm hfs
    (fun f hf' => hf f (by simp [hf'])) hg' (explains_step hg.inv hg'.inv hgs hacc)
  have hbalanced : (created config name segment False).Balanced (m.world g) := hg.inv
  have hbalanced' : (created config name segment False).Balanced (z.world g'') := hz.inv
  -- What was lost lies behind all that was appended before.
  obtain ⟨d, hd, ho, hs⟩ : ∃ d ∈ g'.batches, d.offset = Row.stop 0 g.batches ∧
      g'.stage d.offset = .lost := by
    cases e with
    | call i q fate =>
      cases q with
      | append segment data =>
        cases fate with
        | lost e =>
          obtain ⟨d, hbatches, -, hs, -⟩ := hacc.2
          have hrow : Row 0 g'.batches := Balanced.balances hg'.inv |>.row
          exact ⟨d, hbatches ▸ by simp, (hbatches ▸ hrow).offset_eq, hs⟩
        | served | refused => exact hlost.elim
      | resolve | create | delete | read | getAttributes | updateAttributes | length =>
        exact hlost.elim
    | start | proceed | finish | drift => exact hlost.elim
  have hlog : g.log <+: g''.log := (grows_of_accounts hacc).log.trans hgrow.log
  have hsub : g.batches <+: g''.batches := (grows_of_accounts hacc).batches.trans hgrow.batches
  refine ⟨g'', hbalanced', fun b hb hbefore {x p h} hp hx => ?_⟩
  have hlt : b.offset < Row.stop 0 g.batches := by
    by_contra hle
    exact hbefore d (hgrow.batches.subset hd) (by omega) (hgrow.lost hd hs)
  have hmem : b ∈ g.batches := by
    obtain ⟨b', hb', hrange⟩ := hbalanced.balances.row.exists_mem (Nat.zero_le _) hlt
    have hbound := hbalanced'.balances.row.bounds hb
    rwa [hbalanced'.balances.row.eq_of_range hb (hsub.subset hb') ⟨Nat.le_refl _, hbound.2.1⟩
      hrange]
  have hsize : x < Log.size g.log := by
    have hstop : b.stop ≤ Log.size g.log := hbalanced.balances.stop_le hmem
    have := (hbalanced.balances.spans hmem).entry hp
    omega
  have htrue := links_true hc hn hds hfd hg hgs hmem hp (hx.of_lt hlog hsize)
  exact htrue.congr fun y hy => ⟨fun hey => hey.mono hlog,
    fun hey => hey.of_lt hlog (Nat.lt_trans hy hsize)⟩

end Site

section Run

open Pool

variable {c c' : Container} {config : Config} {name : String} {segment : Nat}
  {es : List (Event Tables Reply)} {z : Pool Tables Reply}

/-- The persisted index offset stands between two records, and all below it is linked as it should
be: each entry leads to the one before it in its bucket, and the head of the bucket lies at the
entry or past it. -/
theorem index_offset_never_overclaims (hm : config.mode = .inline)
    (hc : c.create name initialAttributes = .ok c') (hn : c'.resolve name = .ok segment)
    (hrun : Steps Pool.treacherous (.opened config c') es z)
    (hf : ∀ e ∈ es, e.Fits config name segment) :
    let a := (z.container.segment segment).attributes
    let bucket := z.container.bucket segment config.hasher
    ∃ n, a[AttributeId.indexOffset]? = some n ∧
      n ≤ (z.container.segment segment).data.length ∧
      Log.Boundary ((z.container.entries segment).map (·.2)) n ∧
      ∀ h, ∀ x ∈ bucket h, x < n →
        LastBefore (· ∈ bucket h) x a[AttributeId.backpointer x]? ∧ a.Rooted x h := by
  intro a bucket
  obtain ⟨g, hz, htrue⟩ := Site.exists_true_register hm hc hn hrun hf
  have hb := hz.balances
  obtain ⟨n, hindex, hle, hbound⟩ := hb.index
  have hrow : Row 0 g.batches := hb.row
  have hmark : (z.state.state 0).watermark = Row.mark g.done 0 g.batches := hb.watermark
  have hle : n ≤ (Row.mark g.done 0 g.batches).offset := hmark ▸ hle
  have hmem (h : KeyHash) (x : Nat) : x ∈ bucket h ↔ Log.Entry config.hasher g.log x h := by
    rw [← Log.mem_bucket]
    exact Iff.of_eq (congrArg (x ∈ ·) (hz.stores.bucket hb.wellformed h))
  have hentries : (z.container.entries segment).map (·.2) = g.log := by
    refine (congrArg (List.map (·.2)) (hz.stores.entries hb.wellformed)).trans ?_
    exact Log.map_snd_placed 0 g.log
  refine ⟨n, hindex, ?_, hentries ▸ hbound, fun h x hx hlt => ?_⟩
  · refine Nat.le_trans hle (Nat.le_trans hrow.mark_le_stop (Nat.le_of_eq ?_))
    exact hb.size.trans hz.length.symm
  have hxe := (hmem h x).1 hx
  have hxm : x < (Row.mark g.done 0 g.batches).offset := Nat.lt_of_lt_of_le hlt hle
  obtain ⟨b, hbm, hlo, hhi⟩ := hrow.exists_mem (Nat.zero_le x)
    (Nat.lt_of_lt_of_le hxm hrow.mark_le_stop)
  -- Whatever begins below the watermark is done, so nothing was lost there.
  have hdone {d : PendingLinks} (hd : d ∈ g.batches) (hdb : d.offset ≤ b.offset) :
      g.stage d.offset = .done := by
    have := hrow.done_of_lt_mark hd (Nat.lt_of_le_of_lt (Nat.le_trans hdb hlo) hxm)
    exact of_decide_eq_true this
  have hkept := hb.kept hbm (hdone hbm (Nat.le_refl _))
  obtain ⟨⟨p, hp⟩, y, hy⟩ := (hb.spans hbm).linked hxe hlo hhi
  have hbackpointer : a[AttributeId.backpointer x]? = p := hkept.backpointer hp
  have hlast := htrue b hbm (fun d hd hdb hlost => by cases (hdone hd hdb).symm.trans hlost) hp hxe
  constructor
  · rw [hbackpointer]
    exact hlast.congr fun y _ => (hmem h y).symm
  · obtain ⟨v, hv, hyv⟩ := hkept.head hy
    have hxy := ((hb.spans hbm).head hy).2.2.2 x hxe hlo hhi
    exact ⟨v, hv, Nat.le_trans hxy hyv⟩

/-- A batch between two others is appended and its write fails. The index offset stays where it
begins. -/
theorem index_offset_never_overclaims_amid_lost_put :
    let config := Config.parity .inline
    let odd : KeyHash := ⟨0x100000000000000, 0⟩
    ∃ es z, Steps Pool.treacherous (.opened config .solo) es z ∧
      (z.container.segment 0).data.length = 60 ∧
      (z.container.segment 0).attributes[AttributeId.indexOffset]? = some 20 ∧
      z.container.bucket 0 config.hasher odd = [0, 20] ∧
      LastBefore (· ∈ [0, 20]) 0 (z.container.segment 0).attributes[AttributeId.backpointer 0]? ∧
      (z.container.segment 0).attributes.Rooted 0 odd := by
  intro config odd
  let before : List Move :=
    .start 1 (.put [⟨⟨[97], none⟩, [1]⟩]) :: Move.steps 1 40 ++
      .start 2 (.put [⟨⟨[99], none⟩, [2]⟩]) :: Move.steps 2 7
  let after : List Move :=
    Move.steps 2 10 ++ .start 1 (.put [⟨⟨[98], none⟩, [3]⟩]) :: Move.steps 1 40
  let x := drive config "t" before (.opened config .solo)
  let y := x.2.deceive 2
  let z := drive config "t" after y.2
  obtain ⟨hxs, hxf⟩ := @steps_drive config "t" 0 before
    (Move.fits_of_plain (by decide +kernel)) (.opened config .solo)
  obtain ⟨hys, hno⟩ := steps_deceive x.2 2
  obtain ⟨hzs, hzf⟩ := @steps_drive config "t" 0 after
    (Move.fits_of_plain (by decide +kernel)) y.2
  have hrun := (hxs.treacherous.append hys).append hzs.treacherous
  have hf : ∀ e ∈ x.1 ++ y.1 ++ z.1, e.Fits config "t" 0 :=
    List.forall_mem_append.2 ⟨List.forall_mem_append.2 ⟨hxf, fun e he => .of_ne_start (hno e he)⟩,
      hzf⟩
  have hindex : (z.2.container.segment 0).attributes[AttributeId.indexOffset]? = some 20 := by
    decide +kernel
  have hbucket : z.2.container.bucket 0 config.hasher odd = [0, 20] := by decide +kernel
  obtain ⟨n, hn, -, -, hbelow⟩ := index_offset_never_overclaims rfl Container.create_solo
    Container.resolve_solo hrun hf
  obtain rfl : 20 = n := Option.some.inj (hindex.symm.trans hn)
  have h := hbelow odd 0 (by rw [hbucket]; decide) (by decide)
  rw [hbucket] at h
  exact ⟨_, z.2, hrun, by decide +kernel, hindex, hbucket, h⟩

end Run

end KeyedLog
