import KeyedLog.Proofs.Alone.Index

/-! Cached heads: the cache never knows better than the log, and whoever asks for heads need not
know of the cache. -/
namespace KeyedLog

namespace Pool

/-- Whatever starts is an operation on one table, or asks for heads of its buckets. -/
def Event.Asks (config : Config) (name : String) (segment : Nat) :
    Event Tables (Reply ⊕ Heads) → Prop
  | .start i p => (∃ op : Operation, op.Fits config name segment i ∧
        p = Sum.inl <$> op.program config name) ∨
      ∃ hashes, p = Sum.inr <$> Tables.heads config segment hashes
  | _ => True

theorem asks_play {config : Config} {name : String} {segment : Nat}
    {ts : List (Turn (Reply ⊕ Heads))}
    (hts : ∀ i p, Turn.start i p ∈ ts → (Event.start i p).Asks config name segment)
    (y : Pool Tables (Reply ⊕ Heads)) : ∀ e ∈ (play ts y).1, e.Asks config name segment := by
  intro e he
  cases e with
  | start i p => exact hts i p ((steps_play ts y).2 i p he)
  | proceed | call | finish | drift => trivial

/-- What somebody who is done was told about a bucket. -/
def toldHead (h : KeyHash) : Option (Except TableError (Reply ⊕ Heads)) → Option Nat
  | some (.ok (.inr m)) => m[h]?
  | _ => none

theorem exists_of_toldHead {h : KeyHash} {o : Option (Except TableError (Reply ⊕ Heads))} {y : Nat}
    (ho : toldHead h o = some y) : ∃ m : Heads, o = some (.ok (.inr m)) ∧ m[h]? = some y := by
  unfold toldHead at ho
  split at ho
  · exact ⟨_, rfl, ho⟩
  · cases ho

end Pool

namespace Site

open Program

variable {S : Site} {i : Nat} {z z' z'' : Scene} {hashes : List KeyHash} {m : Heads}
  {w v u : World Tables Account} {h : KeyHash} {o : Option Nat}

/-- The segment has been accessed, and the heads that were asked for are where buckets begin. -/
structure Told (S : Site) (z : Scene) (hashes : List KeyHash) (m : Heads) (z' : Scene) : Prop where
  tracked : z'.tracked = true
  recovered : z'.state.recovered = some S.start
  reached : S.start ≤ z'.state.watermark.offset
  begins : ∀ h ∈ hashes, h.Proper → S.Begins z z' h m[h]?

theorem Told.grow (ht : S.Told z hashes m z') (hg : Grows z' z'') : S.Told z hashes m z'' where
  tracked := hg.tracked ht.tracked
  recovered := hg.recovered ht.recovered
  reached := Nat.le_trans ht.reached hg.watermark
  begins h hh hproper := (ht.begins h hh hproper).grow hg.toEndures

theorem Told.before (ht : S.Told z' hashes m z'') (hg : Endures z z') : S.Told z hashes m z'' :=
  { ht with begins := fun h hh hproper => (ht.begins h hh hproper).before hg }

theorem obeys_told (hi : S.calm → i = 0) (hw : S.Inv w) (hrest : w.ghost.Rests i)
    (hashes : List KeyHash) :
    (Tables.heads S.config S.segment hashes).Obeys S.rules i
      (fun m v => v.ghost.Rests i ∧ S.Told (S.scene w) hashes m (S.scene v))
      (fun _ v => v.ghost.Rests i) w := by
  refine (obeys_heads hw hrest.fresh hrest.recoverer hi hashes).mono ?_
    fun _ v hv => hv.2.1.rests hrest
  rintro m v ⟨hv, hwv, hbegins⟩
  exact ⟨hwv.rests hrest, hv.tracked, hv.recovered, hv.reached, hbegins⟩

theorem parked_of_asks (hc : ¬S.calm) {p : Program Tables (Reply ⊕ Heads)}
    (hp : (Pool.Event.start i p).Asks S.config S.name S.segment) (hrest : w.ghost.Rests i) :
    S.rules.Parked i (fun _ _ => True) p w := by
  intro v hv hwv
  have hi (h : S.calm) : i = 0 := absurd h hc
  have hrest' := (Sees.toMinds hwv).rests hrest
  rcases hp with ⟨op, hop, rfl⟩ | ⟨hashes, rfl⟩
  · have hop := abides_operation hv hrest' hi hop
    exact (obeys_map _ _ _).2 (hop.obeys.mono (fun _ u hu => ⟨hu.1, fun _ _ _ => trivial⟩)
      fun _ u hu => hu)
  · exact (obeys_map _ _ _).2 ((obeys_told hi hv hrest' hashes).mono
      (fun _ u hu => ⟨hu.1, fun _ _ _ => trivial⟩) fun _ u hu => hu)

theorem Begins.lastBefore (hb : S.Begins z (S.scene w) h o) (hlog : z.ghost.log = w.ghost.log)
    (hsettled : ∀ x, S.Entry w.ghost.log x h → z.ghost.Settled x) :
    LastBefore (S.Entry w.ghost.log · h) (Log.size w.ghost.log) o := by
  cases o with
  | none =>
    exact LastBefore.none_iff.2 fun x hx _ => hb x (hsettled x hx) (hlog ▸ hx)
  | some y =>
    have hy : S.Entry w.ghost.log y h := hb.1.1
    exact LastBefore.some_iff.2 ⟨hy, hy.lt, fun x hx _ => hb.2 x (hsettled x hx) (hlog ▸ hx)⟩

/-- What is within reach of a bucket is its end. -/
theorem Inv.lastBefore_bucket (hw : S.Inv w)
    (hfloor : S.floor h ≠ 0 → ∃ x, S.Entry w.ghost.log x h)
    (hlast : LastBefore (S.Entry w.ghost.log · h) (Log.size w.ghost.log) o) :
    LastBefore (· ∈ w.container.bucket S.segment S.config.hasher h)
      (w.container.segment S.segment).data.length o := by
  rw [hw.length]
  cases o with
  | none =>
    have hnone := LastBefore.none_iff.1 hlast
    refine LastBefore.none_iff.2 fun x hx _ => ?_
    by_cases hzero : S.floor h = 0
    · have he : S.Entry w.ghost.log x h := ⟨hw.mem_bucket.1 hx, by omega⟩
      exact hnone x he he.lt
    · obtain ⟨y, hy⟩ := hfloor hzero
      exact hnone y hy hy.lt
  | some y =>
    have hy : S.Entry w.ghost.log y h := hlast.mem
    refine LastBefore.some_iff.2 ⟨hw.mem_bucket.2 hy.1, hlast.lt, fun x hx _ => ?_⟩
    by_cases hx' : S.floor h ≤ x
    · have he : S.Entry w.ghost.log x h := ⟨hw.mem_bucket.1 hx, hx'⟩
      exact hlast.le he he.lt
    · have := hy.2
      omega

/-- Once the segment has been accessed, heads are found by the tail and the attributes alone. -/
theorem succeeds_heads_uncached (hw : S.Inv w) (ht : S.Told z hashes m (S.scene w)) :
    (Tables.heads S.config S.segment hashes).Succeeds
      (fun m _ _ => ∀ h ∈ hashes, m[h]? = (S.scene w).head h) w.container
      { w.state with cache := .empty 0 } := by
  have hshows : w.container.Shows S.name S.segment w.ghost.log (S.scene w).attributes :=
    ⟨hw.stores.resolve, hw.stores.data, rfl⟩
  have hkeeps : ({ w.state with cache := .empty 0 } : Tables).Keeps S.segment S.place
      (S.scene w).state := by
    rcases hw.serves.tracked with ⟨hnone, -⟩ | ⟨hsome, hsize⟩
    · have htracked := ht.tracked
      simp [scene, hnone] at htracked
    · exact ⟨hsome, by simp [hsize], rfl⟩
  unfold Tables.heads
  refine succeeds_bind.2 (Tables.succeeds_access_of_recovered hw.serves.indexOpened hkeeps
    hw.coherent.marked.opened ht.recovered ht.reached ?_)
  refine Tables.succeeds_headsWith hshows.holds fun m _ _ _ hm _ h hh => ?_
  rw [hm h hh]
  unfold Tables.knownHead Scene.head
  rw [hkeeps.state]
  cases (S.scene w).state.heads[h]? <;> simp [Cache.get?, Cache.empty]

end Site

section Run

variable {config : Config} {name : String} {segment : Nat} {c : Container}
  {es : List (Pool.Event Tables (Reply ⊕ Heads))} {z : Pool Tables (Reply ⊕ Heads)}

/-- In every state of every run a cached head is the last entry of its bucket, unless somebody is
about to link an entry of the bucket. Whoever asks for heads, while nothing of a bucket is to be
linked and nothing is appended, is told its last entry, as is whoever asks again with nothing cached
and no room in the cache. -/
theorem cached_heads_last (hc : Left config.hasher config.mode name segment c)
    (hrun : Pool.Steps Pool.surroundings ⟨c, .initial config, fun _ => none⟩ es z)
    (hf : ∀ e ∈ es, e.Asks config name segment) :
    let trail := fun es : List (Pool.Event Tables (Reply ⊕ Heads)) =>
      es.foldl Trail.after (.quiet (c.segment segment).data.length)
    let bucket := z.container.bucket segment config.hasher
    let length := (z.container.segment segment).data.length
    (∀ h y, h.Proper → z.state.cache.get? ⟨segment, h⟩ = some y →
      (∀ x ∈ bucket h, ¬(trail es).Linking x) → LastBefore (· ∈ bucket h) length (some y)) ∧
    ∀ ds fs i hashes m,
      es = ds ++ (.start i (Sum.inr <$> Tables.heads config segment hashes) :: fs ++
        [.finish i (.ok (.inr m))]) → (∀ r, .finish i r ∉ fs) →
      (trail es).length = (trail ds).length →
      (∀ h ∈ hashes, h.Proper → (∀ x ∈ bucket h, ¬(trail ds).Linking x) →
        LastBefore (· ∈ bucket h) length m[h]?) ∧
      (Tables.heads config segment hashes).Succeeds
        (fun m' _ _ => ∀ h ∈ hashes, h.Proper → (∀ x ∈ bucket h, ¬(trail ds).Linking x) →
          m'[h]? = m[h]?) z.container { z.state with cache := .empty 0 } := by
  intro trail bucket length
  obtain ⟨S, log, rfl, rfl, rfl, hcalm, hlog, hinv, hfloor⟩ := Site.exists_of_left hc rfl rfl
  have hquiet : Trail.quiet (c.segment S.segment).data.length = (Site.idle log).trail :=
    congrArg Trail.quiet hinv.length
  have hopened : (⟨c, .initial S.config, fun _ => none⟩ : Pool Tables (Reply ⊕ Heads)).Sound
      S.rules (fun _ _ _ => True) (Site.idle log) := Site.sound_opened hinv
  have hpark {i p w} (hp : (Pool.Event.start i p).Asks S.config S.name S.segment)
      (_ : S.Inv w) (hrest : w.ghost.Rests i) : S.rules.Parked i (fun _ _ => True) p w :=
    Site.parked_of_asks hcalm hp hrest
  obtain ⟨g, hz, ht, -⟩ := Site.sound_of_steps hcalm hpark hrun hf hopened
  have htrail : trail es = g.trail := by
    rw [ht, ← hquiet]
  refine ⟨fun h y hh hy hlinked => ?_, ?_⟩
  · rw [htrail] at hlinked
    obtain ⟨hmem, hnewest⟩ := Site.Inv.cached hz.inv hh hy hlinked
    have hlt : y < length := by
      rw [show length = _ from Site.Inv.length hz.inv]
      exact ((Site.Inv.mem_bucket hz.inv).1 hmem).lt
    exact LastBefore.some_iff.2 ⟨hmem, hlt, fun x hx _ => hnewest x hx⟩
  · rintro ds fs i hashes m rfl hno hlength
    obtain ⟨y, hy, hwindow⟩ := hrun.split
    obtain ⟨g₁, hs₁, ht₁, hgrow₁⟩ :=
      Site.sound_of_steps hcalm hpark hy (fun e he => hf e (by simp [he])) hopened
    obtain ⟨g₂, hs₂, htold, ht₂, hgrow₂⟩ := Site.sound_of_program
      (Q := fun (r : Reply ⊕ Heads) v =>
        ∀ m, r = .inr m → S.Told (S.scene (y.world g₁)) hashes m (S.scene v))
      hcalm hpark (fun hvu hq m hm => (hq m hm).grow hvu.toGrows)
      (fun v hv hrest hyv => (Program.obeys_map _ _ _).2 <|
        (Site.obeys_told (fun hc => absurd hc hcalm) hv hrest hashes).mono
          (fun m u hu => ⟨hu.1, fun m' hm => Sum.inr.inj hm ▸ hu.2.before hyv.toEndures⟩)
          fun _ u hu => hu)
      hs₁ hwindow (fun e he => hf e (by simp [he])) hno
    have htold := htold m rfl
    have htrail₁ : trail ds = g₁.trail := by
      rw [ht₁, ← hquiet]
    have hlog : g₁.log = g₂.log := by
      refine Log.eq_of_prefix_of_size hgrow₂.log ?_
      have htrail₂ : trail (ds ++ (.start i (Sum.inr <$> Tables.heads S.config S.segment hashes) ::
          fs ++ [.finish i (.ok (.inr m))])) = g₂.trail := by
        rw [ht₂, ← htrail₁]
        exact (Trail.foldl_after_window ..).trans List.foldl_append
      rw [htrail₂, htrail₁] at hlength
      exact hlength.symm
    have hsettled {h : KeyHash} (hlinked : ∀ x ∈ bucket h, ¬(trail ds).Linking x) (x : Nat)
        (hx : S.Entry g₂.log x h) : g₁.Settled x := by
      rw [htrail₁] at hlinked
      have hx' : S.Entry g₁.log x h := hlog ▸ hx
      exact ⟨hx'.lt, hlinked x ((Site.Inv.mem_bucket hs₂.inv).2 hx.1)⟩
    have hbucket {h : KeyHash} {o : Option Nat}
        (ho : LastBefore (S.Entry g₂.log · h) (Log.size g₂.log) o) :
        LastBefore (· ∈ bucket h) length o := by
      refine Site.Inv.lastBefore_bucket hs₂.inv (fun hne => ?_) ho
      obtain ⟨x, hx⟩ := hfloor h hne
      exact ⟨x, hx.mono (hgrow₁.trans hgrow₂).log⟩
    have hlast {h : KeyHash} (hh : h ∈ hashes) (hproper : h.Proper)
        (hlinked : ∀ x ∈ bucket h, ¬(trail ds).Linking x) :
        LastBefore (· ∈ bucket h) length m[h]? :=
      hbucket ((htold.begins h hh hproper).lastBefore hlog (hsettled hlinked))
    refine ⟨fun h hh hproper hlinked => hlast hh hproper hlinked, ?_⟩
    refine (Site.succeeds_heads_uncached hs₂.inv htold).mono
      fun m' _ _ hm' h hh hproper hlinked => ?_
    have hhead : LastBefore (· ∈ bucket h) length m'[h]? := by
      rw [hm' h hh]
      refine hbucket (Site.Coherent.head hs₂.inv.coherent hproper fun x hx => ?_)
      refine ⟨hgrow₂.settled (hsettled hlinked x hx), ?_⟩
      have := htold.reached
      omega
    exact hhead.unique (hlast hh hproper hlinked)

/-- Heads are asked for when a second entry has been linked, and while the links of it are persisted
and leave the tail for the cache. -/
theorem cached_heads_last_amid_persist :
    let config := Config.parity .inline
    let h : KeyHash := ⟨0x100000000000000, 0⟩
    let hashes := [h, ⟨0, 0⟩]
    ∃ ds fs m z, Pool.Steps Pool.surroundings ⟨.solo, .initial config, fun _ => none⟩
        (ds ++ (.start 1 (Sum.inr <$> Tables.heads config 0 hashes) :: fs ++
          [.finish 1 (.ok (Sum.inr m : Reply ⊕ Heads))])) z ∧
      z.container.bucket 0 config.hasher h = [0, 20] ∧
      z.state.cache.get? ⟨0, h⟩ = some 20 ∧ LastBefore (· ∈ [0, 20]) 40 (some 20) ∧
      m[h]? = some 20 ∧ LastBefore (· ∈ [0, 20]) 40 m[h]? ∧
      (Tables.heads config 0 hashes).Succeeds (fun m' _ _ => m'[h]? = m[h]?) z.container
        { z.state with cache := .empty 0 } := by
  intro config h hashes
  let put (key value : UInt8) : Program Tables (Reply ⊕ Heads) :=
    Sum.inl <$> (Operation.put [⟨⟨[key], none⟩, [value]⟩]).program config "t"
  let opened : Pool Tables (Reply ⊕ Heads) := ⟨.solo, .initial config, fun _ => none⟩
  let asks : Program Tables (Reply ⊕ Heads) := Sum.inr <$> Tables.heads config 0 hashes
  let ts : List (Pool.Turn (Reply ⊕ Heads)) :=
    .start 0 (put 97 1) :: List.replicate 30 (.go 0) ++
      .start 0 (put 99 2) :: List.replicate 9 (.go 0)
  let ts' : List (Pool.Turn (Reply ⊕ Heads)) :=
    List.replicate 4 (.go 1) ++ List.replicate 6 (.go 0) ++ [.go 1]
  let x := Pool.play ts opened
  let y := Pool.play ts' (x.2.assign 1 (some asks))
  let z := y.2.assign 1 none
  have hidle : x.2.threads 1 = none := Option.isNone_iff_eq_none.1 (by decide +kernel)
  have htold : Pool.toldHead h ((y.2.threads 1).bind Pool.ended) = some 20 := by decide +kernel
  obtain ⟨m, hm, hhead⟩ := Pool.exists_of_toldHead htold
  have hrun := (Pool.steps_play ts opened).1.append (.head (.start asks hidle)
    ((Pool.steps_play ts' _).1.append (.head (Pool.step_of_ended hm) (.refl _))))
  have hput (key value : UInt8) : (Pool.Event.start 0 (put key value)).Asks config "t" 0 :=
    .inl ⟨.put [⟨⟨[key], none⟩, [value]⟩], trivial, rfl⟩
  have hx : ∀ e ∈ x.1, e.Asks config "t" 0 := by
    refine Pool.asks_play (fun i p hp => ?_) opened
    have hp : Pool.Turn.start i p = .start 0 (put 97 1) ∨
        Pool.Turn.start i p = .start 0 (put 99 2) := by simpa [ts] using hp
    rcases hp with hp | hp
    · obtain ⟨rfl, rfl⟩ := Pool.Turn.start.inj hp
      exact hput 97 1
    · obtain ⟨rfl, rfl⟩ := Pool.Turn.start.inj hp
      exact hput 99 2
  have hy : ∀ e ∈ y.1, e.Asks config "t" 0 :=
    Pool.asks_play (fun i p hp => by simp [ts'] at hp) _
  have hf : ∀ e ∈ x.1 ++ (.start 1 asks :: y.1 ++ [.finish 1 (.ok (.inr m))]),
      e.Asks config "t" 0 :=
    List.forall_mem_append.2 ⟨hx, List.forall_mem_append.2
      ⟨List.forall_mem_cons.2 ⟨.inr ⟨hashes, rfl⟩, hy⟩, List.forall_mem_singleton.2 trivial⟩⟩
  have hno : ∀ r, .finish 1 r ∉ y.1 := Pool.not_finish_of_all (by decide +kernel) 1
  have hbucket : z.container.bucket 0 config.hasher h = [0, 20] := by decide +kernel
  have hcached : z.state.cache.get? ⟨0, h⟩ = some 20 := by decide +kernel
  have hlength : (z.container.segment 0).data.length = 40 := by decide +kernel
  have hproper : h.Proper := ⟨by decide, by decide⟩
  have hquiet {es : List (Pool.Event Tables (Reply ⊕ Heads))} (v : Nat)
      (hes : es.all (fun e => [0, 1].any fun i => e.actor = some i) = true)
      (hnone : ([0, 1].all fun i => ((es.foldl Trail.after (.quiet 0)).unlinked i).isNone) = true) :
      ¬(es.foldl Trail.after (.quiet 0)).Linking v := by
    refine Trail.not_linking_of_actors [0, 1] hes fun i hi p hp => ?_
    have hi := List.all_eq_true.1 hnone i hi
    rw [Option.isNone_iff_eq_none.1 hi] at hp
    cases hp
  have htrail : List.foldl Trail.after (.quiet 0) (x.1 ++ (Pool.Event.start 1 asks :: y.1 ++
      [Pool.Event.finish 1 (.ok (.inr m))])) = (x.1 ++ y.1).foldl Trail.after (.quiet 0) :=
    Trail.foldl_after_window ..
  have hlast := cached_heads_last (.created Container.create_solo Container.resolve_solo) hrun hf
  have hcache : LastBefore (· ∈ z.container.bucket 0 config.hasher h)
      (z.container.segment 0).data.length (some 20) := by
    have hlinked (v : Nat) : ¬((x.1 ++ y.1).foldl Trail.after (.quiet 0)).Linking v :=
      hquiet v (by decide +kernel) (by decide +kernel)
    exact hlast.1 h 20 hproper hcached fun v _ =>
      (congrArg (Trail.Linking · v) htrail).mpr_not (hlinked v)
  have hlinked : ∀ v ∈ z.container.bucket 0 config.hasher h,
      ¬(x.1.foldl Trail.after (.quiet 0)).Linking v :=
    fun v _ => hquiet v (by decide +kernel) (by decide +kernel)
  have hgrown : ((x.1 ++ y.1).foldl Trail.after (.quiet 0)).length =
      (x.1.foldl Trail.after (.quiet 0)).length := by decide +kernel
  obtain ⟨htold, hagain⟩ :=
    hlast.2 x.1 y.1 1 hashes m rfl hno ((congrArg Trail.length htrail).trans hgrown)
  have hmem : h ∈ hashes := List.mem_cons_self
  have htold : LastBefore (· ∈ z.container.bucket 0 config.hasher h)
      (z.container.segment 0).data.length m[h]? := htold h hmem hproper hlinked
  rw [hbucket, hlength] at hcache htold
  exact ⟨x.1, y.1, m, z, hrun, hbucket, hcached, hcache, hhead, htold,
    hagain.mono fun m' _ _ hm' => hm' h hmem hproper hlinked⟩

end Run

end KeyedLog
