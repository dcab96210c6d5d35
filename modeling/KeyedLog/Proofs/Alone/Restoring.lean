import KeyedLog.Proofs.Alone.Operations
import KeyedLog.Proofs.Run.Freshness

/-! Restoring: what an index that keeps its own links finds after another one was stopped. -/
namespace KeyedLog

namespace Site

open Program

variable {S : Site} {w v : World Tables Account} {h : KeyHash} {l : List Nat} {keys : List Bytes}

/-- Once a segment may be used, a bucket that nobody is busy with can be followed as far as it is
within reach. -/
theorem Accessed.follows (hw : S.Accessed w) (hh : h.Proper)
    (hsettled : ∀ x, S.Entry w.ghost.log x h → w.ghost.Settled x)
    (hl : l.Pairwise (· < ·)) (hmem : ∀ x, x ∈ l ↔ S.Entry w.ghost.log x h) :
    Follows (w.state.previous w.container S.segment) (w.state.newest w.container S.segment h)
      l.reverse := by
  have hreach {x : Nat} (hx : S.Entry w.ghost.log x h) :
      w.ghost.Settled x ∧ (S.start ≤ x ∨ x < (S.scene w).state.watermark.offset) := by
    refine ⟨hsettled x hx, ?_⟩
    have := hw.reached
    omega
  refine Follows.of_lastBefore (T := (S.Entry w.ghost.log · h)) (fun x hx => ?_) hl
    (fun x => (hmem x).trans ⟨fun hx => ⟨hx, hx.lt⟩, And.left⟩) ?_
  · rw [hw.inv.previous]
    exact hw.inv.coherent.previous hx (.inr (hreach hx))
  · rw [hw.inv.newest]
    exact hw.inv.coherent.head hh fun x hx => hreach hx

/-- The first access of an index that was just opened and is alone succeeds. -/
theorem access_of_calm {c : Container} {g : Account} (hc : S.calm)
    (hw : S.Inv ⟨c, .initial S.config, g⟩) (hr : g.Rests 0) (hb : S.Bounded g.log) :
    ∃ d t g', (Tables.access S.config S.segment).run true c (.initial S.config) = (.ok 0, d, t) ∧
      S.Accessed ⟨d, t, g'⟩ ∧ g'.log = g.log ∧ g'.Rests 0 := by
  have hplace : S.place = 0 := by
    rcases hw.serves.tracked with ⟨-, hsize⟩ | ⟨-, hsize⟩
    · exact hsize.symm
    · exact absurd (show 0 = S.place + 1 from hsize) (by omega)
  obtain ⟨r, d, t, g', hrun, hpost⟩ :=
    run_of_calm hc hw (obeys_access (fun _ => rfl) hw hr.fresh hr.recoverer)
  rcases hpost with ⟨ref, rfl, rfl, hacc, hminds⟩ | ⟨e, rfl, -, hminds, hbad⟩
  · exact ⟨d, t, g', hplace ▸ hrun, hacc, hminds.alone hc rfl, hminds.rests hr⟩
  · exact absurd ((hminds.alone hc rfl : g'.log = _) ▸ hb) (hbad hc)

/-- Whoever is alone and gets keys with a hash, from buckets that are within reach as a whole, is
told the newest state of each. -/
theorem get_of_calm (hc : S.calm) (hw : S.Inv w) (hr : w.ghost.Rests 0)
    (hb : S.Bounded w.ghost.log) (hsettled : ∀ x, x < Log.size w.ghost.log → w.ghost.Settled x)
    (hkeys : ∀ key ∈ keys, ∃ h, S.config.hasher.hash key = .ok h ∧ S.floor h = 0) :
    ∃ os, ((Tables.get S.config S.name keys).run true w.container w.state).1 = .ok os ∧
      List.Forall₂ (UpToDate (w.container.entries S.segment) fun _ => True) keys os := by
  obtain ⟨r, d, t, g, hrun, hpost⟩ :=
    run_of_calm hc hw (abides_get hw hr (fun _ => rfl) keys).obeys
  rcases hpost with ⟨os, rfl, hv, hreads⟩ | ⟨e, rfl, hv, hfails⟩
  · have hlog : g.log = w.ghost.log := hv.carries.alone hc rfl
    refine ⟨os, by rw [hrun], ?_⟩
    refine ((List.forall₂_and_left _ _).2 ⟨hkeys, hreads⟩).imp fun key o hko => ?_
    obtain ⟨⟨h, hh, hfloor⟩, ho⟩ := hko
    rw [hw.entries, ← hlog]
    refine ho.upToDate hv.carries.endures.log fun {y s k} hs hk _ => ?_
    obtain rfl := Except.ok.inj (hh.symm.trans hk)
    exact ⟨hfloor ▸ Nat.zero_le y, hsettled y (hlog ▸ Log.placed_lt hs)⟩
  · have hlog : g.log = w.ghost.log := hv.carries.alone hc rfl
    obtain ⟨hashes, hhashes⟩ := mapM_eq_ok fun key hkey => (hkeys key hkey).imp fun _ h => h.1
    rcases hfails hc with hbad | herror
    · exact absurd (hlog ▸ hb) hbad
    · rw [hhashes] at herror
      cases herror

section Restore

variable {config config' : Config} {name : String} {segment : Nat} {c c' : Container}
  {es : List (Pool.Event Tables Reply)} {z : Pool Tables Reply}

/-- The first access of an index that finds what another one left succeeds. Afterwards a bucket is
visited as a whole, newest entry first, just if what was left does not cut it. Otherwise all entries
before the index offset are lost. -/
theorem restored_iff_uncut (hc : c.create name initialAttributes = .ok c')
    (hn : c'.resolve name = .ok segment) (hm : config.mode = .inline)
    (hrun : Pool.Steps Pool.surroundings (.opened config c') es z)
    (hf : ∀ e ∈ es, e.Fits config name segment)
    (hh : config'.hasher = config.hasher) (hm' : config'.mode = .inline)
    (hb : ∀ h, (z.container.bucket segment config.hasher h).length ≤ config'.maxChainLength) :
    let a := (z.container.segment segment).attributes
    let bucket := z.container.bucket segment config.hasher
    ∃ d t, (Tables.access config' segment).run true z.container (.initial config') = (.ok 0, d, t) ∧
      d.entries segment = z.container.entries segment ∧
      (∀ h : KeyHash, h.Proper →
        (Follows (t.previous d segment) (t.newest d segment h) (bucket h).reverse ↔
          ¬a.Cut (· ∈ bucket h) h) ∧
        (a.Cut (· ∈ bucket h) h → ∃ n, a[AttributeId.indexOffset]? = some n ∧
          Follows (t.previous d segment) (t.newest d segment h)
            ((bucket h).filter (n ≤ ·)).reverse)) ∧
      ∀ keys : List Bytes, (∀ key ∈ keys, ∃ h, config.hasher.hash key = .ok h ∧
          ¬a.Cut (· ∈ bucket h) h) →
        ∃ os, ((Tables.get config' name keys).run true d t).1 = .ok os ∧
          List.Forall₂ (UpToDate (d.entries segment) fun _ => True) keys os := by
  intro a bucket
  obtain ⟨g, hz, -⟩ := exists_account hc hn hrun hf
  have hw : (created config name segment False).Inv (z.world g) := hz.inv
  have hbucket (h : KeyHash) : bucket h = Log.bucket config.hasher g.log h := hw.bucket h
  have hentry (h : KeyHash) :
      ((created config name segment False).Entry g.log · h) = (· ∈ bucket h) := by
    funext x
    rw [hbucket, Log.mem_bucket]
    exact propext ⟨fun he => he.1, fun he => .of_start he (Nat.zero_le x)⟩
  have hentries : z.container.entries segment = Log.placed 0 g.log := hw.entries
  -- The index that is opened next, which has everything to itself.
  obtain ⟨S, rfl, rfl, rfl, hcalm, hinv, hresumes, hfloor⟩ : ∃ S : Site, S.config = config' ∧
      S.name = name ∧ S.segment = segment ∧ S.calm ∧
      S.Inv ⟨z.container, .initial config', idle g.log⟩ ∧
      (∀ h, Resumes (created config name segment False) S g.log a h) ∧
      ∀ h, ¬a.Cut (· ∈ bucket h) h → S.floor h = 0 :=
    ⟨reopened _ config' hw True fun _ => hm', rfl, rfl, rfl, trivial,
      inv_reopened hw hh (hm'.trans hm.symm), resumes_reopened hw hh,
      fun h hu => reach_of_uncut fun hcut => hu (hentry h ▸ hcut.2)⟩
  have hbounded : S.Bounded g.log := fun h => by
    rw [hh, ← hbucket]
    exact hb h
  obtain ⟨d, t, g', hrun', hacc, hlog, hrest⟩ := access_of_calm hcalm hinv
    ⟨rfl, fun _ h => (by cases h), fun h => (by cases h)⟩ hbounded
  have hlog : g'.log = g.log := hlog
  have hsettled {x : Nat} (hx : x < Log.size g'.log) : g'.Settled x :=
    settled_of_rests (rests_of_calm hcalm hacc.inv hrest) hx
  refine ⟨d, t, hrun', ?_, fun h hp => ?_, fun keys hkeys => ?_⟩
  · rw [hentries, ← hlog]
    exact hacc.inv.entries
  · have hfollows {l : List Nat} (hl : l.Pairwise (· < ·))
        (hmem : ∀ x, x ∈ l ↔ S.Entry g.log x h) := by
      refine hacc.follows hp (fun x hx => hsettled hx.lt) hl fun x => ?_
      rw [hmem, ← hlog]
    have hpair : (bucket h).Pairwise (· < ·) := hbucket h ▸ Log.bucket_pairwise ..
    rcases hresumes h with ⟨hsame, huncut⟩ | ⟨hcut, hnew⟩
    · have huncut : ¬a.Cut (· ∈ bucket h) h := hentry h ▸ huncut hm
      have hall := hfollows hpair fun x => (congrFun (hentry h) x).symm.to_iff.trans (hsame x).symm
      exact ⟨⟨fun _ => huncut, fun _ => hall⟩, fun hcut => absurd hcut huncut⟩
    · obtain ⟨n, hindex, -, -⟩ := hw.coherent.faithful.index
      have hindex : a[AttributeId.indexOffset]? = some n := hindex
      have hnew (x : Nat) : S.Entry g.log x h ↔ x ∈ bucket h ∧ n ≤ x := by
        rw [hnew, congrFun (hentry h) x, Attributes.indexed_iff hindex, Nat.not_lt]
      have hlate := hfollows (hpair.filter (n ≤ ·)) fun x => by simp [hnew]
      have hcut : a.Cut (· ∈ bucket h) h := hentry h ▸ hcut
      refine ⟨⟨fun hall _ => ?_, fun huncut => absurd hcut huncut⟩, fun _ => ⟨n, hindex, hlate⟩⟩
      obtain ⟨x, -, -, hx, hix, -⟩ := hcut
      have hsame := List.reverse_injective (hall.unique hlate)
      have hxn : n ≤ x := by
        rw [hsame] at hx
        simpa using (List.mem_filter.1 hx).2
      exact Nat.not_lt.2 hxn ((Attributes.indexed_iff hindex).1 hix)
  · refine get_of_calm hcalm hacc.inv hrest (hlog ▸ hbounded) (fun x hx => hsettled hx) ?_
    intro key hkey
    obtain ⟨h, hk, hu⟩ := hkeys key hkey
    exact ⟨h, hh ▸ hk, hfloor h hu⟩

/-- One write gives up while another one, whose links are to come on top of its own, is retrying for
it. This one persists its links, and the other one is stopped. -/
theorem restored_iff_uncut_amid_retry :
    let config := Config.parity .inline
    let h : KeyHash := ⟨0x100000000000000, 0⟩
    ∃ es z, Pool.Steps Pool.surroundings (.opened config .solo) es z ∧
      z.container.bucket 0 config.hasher h = [0, 20, 60] ∧
      ∃ d t, (Tables.access config 0).run true z.container (.initial config) = (.ok 0, d, t) ∧
        Follows (t.previous d 0) (t.newest d 0 h) [60, 20] ∧
        ¬Follows (t.previous d 0) (t.newest d 0 h) [60, 20, 0] := by
  intro config h
  let ms : List Pool.Move :=
    .start 0 (.put [⟨⟨[97], none⟩, [1]⟩]) :: Pool.Move.steps 0 40 ++
      .start 0 (.put [⟨⟨[99], none⟩, [2]⟩]) :: Pool.Move.steps 0 10 ++
      .step 0 (.refused .timeout) true :: Pool.Move.steps 0 20 ++
      .start 1 (.put [⟨⟨[98], none⟩, [3]⟩]) :: Pool.Move.steps 1 12 ++
      .start 2 (.put [⟨⟨[101], none⟩, [4]⟩]) :: Pool.Move.steps 2 40
  obtain ⟨hrun, hf⟩ := @Pool.steps_drive config "t" 0 ms
    (Pool.Move.fits_of_plain (by decide +kernel)) (.opened config .solo)
  let z := (Pool.drive config "t" ms (.opened config .solo)).2
  have hbucket : z.container.bucket 0 config.hasher h = [0, 20, 60] := by decide +kernel
  have hb (k : KeyHash) :
      (z.container.bucket 0 config.hasher k).length ≤ config.maxChainLength := by
    refine Nat.le_trans ?_ (show (z.container.entries 0).length ≤ _ by decide +kernel)
    rw [Container.bucket, List.length_map]
    exact List.length_filter_le ..
  have hindex : (z.container.segment 0).attributes[AttributeId.indexOffset]? = some 20 := by
    decide +kernel
  obtain ⟨d, t, haccess, -, hall, -⟩ :=
    restored_iff_uncut Container.create_solo Container.resolve_solo rfl hrun hf rfl rfl hb
  obtain ⟨hiff, hlate⟩ := hall h ⟨by decide, by decide⟩
  have hcut : (z.container.segment 0).attributes.Cut
      (· ∈ z.container.bucket 0 config.hasher h) h := by
    have hindexed (x : Nat) : (z.container.segment 0).attributes.Indexed x ↔ x < 20 :=
      Attributes.indexed_iff hindex
    simp only [Attributes.Cut, hbucket, hindexed]
    exact ⟨0, 20, 60, by decide, by decide, by decide, by decide, by decide, by decide +kernel,
      by decide, by decide +kernel⟩
  refine ⟨_, z, hrun, hbucket, d, t, haccess, ?_, fun hfollows => ?_⟩
  · obtain ⟨n, hn, hlate⟩ := hlate hcut
    obtain rfl := Option.some.inj (hindex.symm.trans hn)
    rwa [hbucket] at hlate
  · refine hiff.1 ?_ hcut
    rwa [hbucket]

end Restore

end Site
end KeyedLog
