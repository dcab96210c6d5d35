import KeyedLog.Proofs.Run.Reopening
import KeyedLog.Proofs.Run.Schedules
import Mathlib.Data.List.Induction

/-! Chains: the head of a bucket is its newest entry, and each entry leads to the one before it. -/
namespace KeyedLog

/-- What is visited by going back from entry to entry. -/
inductive Follows (previous : Nat → Option Nat) : Option Nat → List Nat → Prop
  | nil : Follows previous none []
  | cons {x : Nat} {xs : List Nat} (h : Follows previous (previous x) xs) :
      Follows previous (some x) (x :: xs)

namespace Follows

variable {previous : Nat → Option Nat} {T : Nat → Prop} {p : Option Nat} {xs ys l : List Nat}

theorem unique (hx : Follows previous p xs) (hy : Follows previous p ys) : xs = ys := by
  induction hx generalizing ys with
  | nil =>
    cases hy
    rfl
  | cons _ ih =>
    cases hy with
    | cons hy => rw [ih hy]

/-- Who always goes back to the last element before visits all of them. -/
theorem of_lastBefore (hprev : ∀ x, T x → LastBefore T x (previous x))
    (hl : l.Pairwise (· < ·)) {stop : Nat} (hmem : ∀ x, x ∈ l ↔ T x ∧ x < stop)
    (hp : LastBefore T stop p) : Follows previous p l.reverse := by
  induction l using List.reverseRecOn generalizing stop p with
  | nil =>
    have hnone : LastBefore T stop none := LastBefore.none_iff.2 fun x hx hlt => by
      have := (hmem x).2 ⟨hx, hlt⟩
      cases this
    rw [hp.unique hnone]
    exact .nil
  | append_singleton l y ih =>
    obtain ⟨hl, -, hlt⟩ := List.pairwise_append.1 hl
    have hlt {x : Nat} (hx : x ∈ l) : x < y := hlt x hx y (by simp)
    obtain ⟨hy, hys⟩ := (hmem y).1 (by simp)
    have hcase {x : Nat} (hx : T x) (hxs : x < stop) : x ∈ l ∨ x = y := by
      simpa using (hmem x).2 ⟨hx, hxs⟩
    have hlast : LastBefore T stop (some y) := LastBefore.some_iff.2 ⟨hy, hys, fun x hx hxs => by
      rcases hcase hx hxs with hx | rfl
      · exact Nat.le_of_lt (hlt hx)
      · exact Nat.le_refl x⟩
    rw [hp.unique hlast, List.reverse_append, List.reverse_singleton, List.singleton_append]
    refine .cons (ih hl (fun x => ?_) (hprev y hy))
    constructor
    · intro hx
      exact ⟨((hmem x).1 (by simp [hx])).1, hlt hx⟩
    · rintro ⟨hx, hxy⟩
      rcases hcase hx (Nat.lt_trans hxy hys) with hx | rfl
      · exact hx
      · exact absurd hxy (Nat.lt_irrefl x)

theorem head (h : Follows previous p xs) : p = xs.head? := by
  cases h <;> rfl

/-- Who always goes on to an older element goes on to the newest of these. -/
theorem lastBefore (h : Follows previous p xs) (hs : xs.Pairwise (· > ·)) {x : Nat} (hx : x ∈ xs) :
    LastBefore (· ∈ xs) x (previous x) := by
  induction h with
  | nil => cases hx
  | @cons y ys h ih =>
    obtain ⟨hlt, hys⟩ := List.pairwise_cons.1 hs
    rcases List.mem_cons.1 hx with rfl | hx
    · rw [h.head]
      cases ys with
      | nil =>
        refine LastBefore.none_iff.2 fun z hz hzx => ?_
        obtain rfl := List.mem_singleton.1 hz
        exact Nat.lt_irrefl _ hzx
      | cons z zs =>
        refine LastBefore.some_iff.2 ⟨by simp, hlt z (by simp), fun u hu hux => ?_⟩
        rcases List.mem_cons.1 hu with rfl | hu
        · exact absurd hux (Nat.lt_irrefl _)
        rcases List.mem_cons.1 hu with rfl | hu
        · exact Nat.le_refl _
        · exact Nat.le_of_lt ((List.pairwise_cons.1 hys).1 u hu)
    · refine (ih hys hx).congr fun z hz => ⟨List.mem_cons_of_mem _, fun hz' => ?_⟩
      refine (List.mem_cons.1 hz').resolve_left fun hzy => ?_
      have := hlt x hx
      omega

end Follows

theorem lastBefore_getLast? {l : List Nat} (hl : l.Pairwise (· < ·)) {stop : Nat}
    (hlt : ∀ x ∈ l, x < stop) : LastBefore (· ∈ l) stop l.getLast? := by
  induction l using List.reverseRecOn with
  | nil => exact LastBefore.none_iff.2 fun x hx _ => by cases hx
  | append_singleton l y _ =>
    obtain ⟨-, -, hle⟩ := List.pairwise_append.1 hl
    rw [List.getLast?_concat]
    refine LastBefore.some_iff.2 ⟨by simp, hlt y (by simp), fun x hx _ => ?_⟩
    rcases List.mem_append.1 hx with hx | hx
    · exact Nat.le_of_lt (hle x hx y (by simp))
    · exact Nat.le_of_eq (List.mem_singleton.1 hx)

namespace Container

variable (c : Container) (segment : Nat)

def entries : List (Nat × Record) :=
  (Scan.ofBytes recordChecksum 0 (c.segment segment).data).records.map fun r =>
    (r.offset, r.record)

def bucket (hasher : Hasher) (h : KeyHash) : List Nat :=
  ((c.entries segment).filter fun e => (hasher.hash e.2.key).toOption = some h).map (·.1)

end Container

namespace Tables

variable (t : Tables) (c : Container) (segment : Nat)

def memory : SegmentState := (t.stateOf? segment).getD .initial

/-- The entry before another one in its bucket. The tail comes before attributes. -/
def previous (x : Nat) : Option Nat :=
  (t.memory segment).backpointers[x]?.getD
    (c.segment segment).attributes[AttributeId.backpointer x]?

def newest (h : KeyHash) : Option Nat :=
  (t.memory segment).heads[h]?.or (c.segment segment).attributes[AttributeId.bucket h]?

end Tables

namespace Site

variable {S : Site} {z : Scene} {w : World Tables Account} {x y p : Nat} {h : KeyHash}
  {log : List Record} {c : Container}

theorem Stores.entries (hs : S.Stores c log) (hw : Log.Wellformed S.config.hasher log) :
    c.entries S.segment = Log.placed 0 log := by
  unfold Container.entries
  rw [hs.data, Log.ofBytes_encodeAll recordChecksum 0 log fun r hr => (hw r hr).1.writable,
    List.map_map]
  exact List.map_id _

theorem Stores.bucket (hs : S.Stores c log) (hw : Log.Wellformed S.config.hasher log)
    (h : KeyHash) : c.bucket S.segment S.config.hasher h = Log.bucket S.config.hasher log h := by
  unfold Container.bucket
  rw [hs.entries hw, Log.bucket_eq_filter]

theorem memory_of_serves (hs : w.state.Serves S.segment S.place) :
    w.state.memory S.segment = (S.scene w).state := by
  unfold Tables.memory Tables.stateOf?
  rcases hs.tracked with ⟨ht, hs⟩ | ⟨ht, -⟩
  · simp [ht, scene, Tables.state, hs]
  · simp [ht, scene]

namespace Inv

theorem entries (hw : S.Inv w) : w.container.entries S.segment = Log.placed 0 w.ghost.log :=
  hw.stores.entries hw.coherent.wellformed

theorem bucket (hw : S.Inv w) (h : KeyHash) :
    w.container.bucket S.segment S.config.hasher h =
      Log.bucket S.config.hasher w.ghost.log h :=
  hw.stores.bucket hw.coherent.wellformed h

theorem mem_bucket (hw : S.Inv w) : x ∈ w.container.bucket S.segment S.config.hasher h ↔
    Log.Entry S.config.hasher w.ghost.log x h := by
  rw [hw.bucket, Log.mem_bucket]

theorem memory (hw : S.Inv w) : w.state.memory S.segment = (S.scene w).state :=
  memory_of_serves hw.serves

theorem previous (hw : S.Inv w) (x : Nat) :
    w.state.previous w.container S.segment x = (S.scene w).state.backpointers[x]?.getD
      (S.scene w).attributes[AttributeId.backpointer x]? := by
  unfold Tables.previous
  rw [hw.memory]
  rfl

theorem newest (hw : S.Inv w) (h : KeyHash) :
    w.state.newest w.container S.segment h = (S.scene w).head h := by
  unfold Tables.newest Scene.head
  rw [hw.memory]
  rfl

end Inv

namespace Coherent

/-- The head of a bucket is its last entry, be it by the tail or by an attribute. -/
theorem head (hz : S.Coherent z) (hh : h.Proper)
    (hx : ∀ x, S.Entry z.ghost.log x h → z.ghost.Settled x ∧
      (S.start ≤ x ∨ x < z.state.watermark.offset)) :
    LastBefore (S.Entry z.ghost.log · h) (Log.size z.ghost.log) (z.head h) := by
  unfold Scene.head
  cases hy : z.state.heads[h]? with
  | some y =>
    obtain ⟨hlink, hnewest⟩ := hz.tail.head hy
    exact LastBefore.some_iff.2 ⟨hlink.1, hlink.1.lt, fun x he _ => hnewest x (hx x he).1 he⟩
  | none =>
    refine ⟨fun y hy => ?_, fun x he _ => ?_⟩
    · have he := (hz.faithful.bucket hh hy).1
      exact ⟨he, he.lt⟩
    · obtain ⟨hsettled, hs | hm⟩ := hx x he
      · exact hz.tail.rooted hsettled hs he hy
      · exact (hz.marked.below he hm).2

end Coherent

/-- A cached head is the newest entry of its bucket, unless an entry has yet to be linked. -/
theorem Inv.cached (hw : S.Inv w) (hh : h.Proper) (hy : w.state.cache.get? ⟨S.segment, h⟩ = some y)
    (hlinked : ∀ x ∈ w.container.bucket S.segment S.config.hasher h, ¬w.ghost.Fresh x) :
    y ∈ w.container.bucket S.segment S.config.hasher h ∧
      ∀ x ∈ w.container.bucket S.segment S.config.hasher h, x ≤ y := by
  obtain ⟨⟨he, -⟩, hnewest⟩ := hw.coherent.cache hh hy
  refine ⟨hw.mem_bucket.2 he.1, fun x hx => ?_⟩
  have hx' := hw.mem_bucket.1 hx
  by_cases hfloor : S.floor h ≤ x
  · exact hnewest x ⟨hx'.lt, hlinked x hx⟩ ⟨hx', hfloor⟩
  · have := he.2
    omega

end Site

section Run

variable {c c' : Container} {config : Config} {name : String} {segment : Nat}
  {es : List (Pool.Event Tables Reply)} {z : Pool Tables Reply}

theorem exists_account (hc : c.create name initialAttributes = .ok c')
    (hn : c'.resolve name = .ok segment)
    (hrun : Pool.Steps Pool.surroundings (.opened config c') es z)
    (hf : ∀ e ∈ es, e.Fits config name segment) :
    ∃ g : Account, z.Sound (Site.created config name segment False).rules (fun _ _ _ => True) g ∧
      g.trail = es.foldl Trail.after (.quiet 0) := by
  obtain ⟨g, hz, hg, -⟩ :=
    Site.sound_of_fits (S := .created config name segment False) id hrun hf
      (Site.sound_opened (Site.inv_created hc hn))
  exact ⟨g, hz, hg⟩

/-- In every state of every run, an entry whose links were recorded or indexed leads to the entry
before it in its bucket. No two entries lead to the same one. The head of a bucket is its newest
entry, unless somebody is about to link an entry of the bucket, and from there one visits all of
them. No two threads are about to link entries of one bucket. -/
theorem bucket_chains (hc : c.create name initialAttributes = .ok c')
    (hn : c'.resolve name = .ok segment)
    (hrun : Pool.Steps Pool.surroundings (.opened config c') es z)
    (hf : ∀ e ∈ es, e.Fits config name segment) :
    let t := es.foldl Trail.after (.quiet 0)
    let a := (z.container.segment segment).attributes
    let bucket := z.container.bucket segment config.hasher
    let previous := z.state.previous z.container segment
    let newest := z.state.newest z.container segment
    (∀ h, ∀ x ∈ bucket h, t.Recorded x ∨ a.Indexed x →
      LastBefore (· ∈ bucket h) x (previous x)) ∧
    (∀ h, ∀ x ∈ bucket h, ∀ y ∈ bucket h, t.Recorded x ∨ a.Indexed x → t.Recorded y ∨ a.Indexed y →
      ∀ p, previous x = some p → previous y = some p → x = y) ∧
    (∀ h : KeyHash, h.Proper → (∀ x ∈ bucket h, ¬t.Linking x) →
      LastBefore (· ∈ bucket h) t.length (newest h) ∧
        Follows previous (newest h) (bucket h).reverse) ∧
    ∀ h i j s e s' e', t.unlinked i = some (s, e) → t.unlinked j = some (s', e') →
      (∃ x ∈ bucket h, s ≤ x ∧ x < e) → (∃ x ∈ bucket h, s' ≤ x ∧ x < e') → i = j := by
  intro t a bucket previous newest
  obtain ⟨g, hz, ht⟩ := exists_account hc hn hrun hf
  have hg : (Site.created config name segment False).Inv (z.world g) := hz.inv
  have ht : t = g.trail := ht.symm
  have hbucket (h : KeyHash) : bucket h = Log.bucket config.hasher g.log h := hg.bucket h
  have hmem (h : KeyHash) (x : Nat) :
      x ∈ bucket h ↔ (Site.created config name segment False).Entry g.log x h := by
    rw [hbucket, Log.mem_bucket]
    exact ⟨fun he => .of_start he (Nat.zero_le x), fun he => he.1⟩
  have hlast {h : KeyHash} {stop : Nat} {p : Option Nat}
      (hp : LastBefore ((Site.created config name segment False).Entry g.log · h) stop p) :
      LastBefore (· ∈ bucket h) stop p := hp.congr fun x _ => (hmem h x).symm
  have hprevious {h : KeyHash} {x : Nat} (hx : x ∈ bucket h) (hr : t.Recorded x ∨ a.Indexed x) :
      LastBefore (· ∈ bucket h) x (previous x) := by
    refine hlast ?_
    rw [show previous x = _ from hg.previous x]
    refine hg.coherent.previous ((hmem h x).1 hx) ?_
    rcases hr with hr | hr
    · rw [ht] at hr
      exact .inr ⟨hr, .inl (Nat.zero_le x)⟩
    · exact .inl hr
  refine ⟨fun h x hx hr => hprevious hx hr, fun h x hx y hy hrx hry p hpx hpy => ?_,
    fun h hh hquiet => ?_, fun h i j s e s' e' hi hj ⟨x, hx, hsx⟩ ⟨y, hy, hsy⟩ => ?_⟩
  · have hx' := hprevious hx hrx
    have hy' := hprevious hy hry
    rw [hpx] at hx'
    rw [hpy] at hy'
    rcases Nat.lt_trichotomy x y with hlt | rfl | hlt
    · exact absurd hx'.lt (Nat.not_lt.2 (hy'.le hx hlt))
    · rfl
    · exact absurd hy'.lt (Nat.not_lt.2 (hx'.le hy hlt))
  · have hsettled {x : Nat} (hx : x ∈ bucket h) : g.Settled x := by
      refine ⟨((hmem h x).1 hx).lt, ?_⟩
      have := hquiet x hx
      rwa [ht] at this
    have hnewest : LastBefore (· ∈ bucket h) t.length (newest h) := by
      rw [ht]
      refine hlast ?_
      rw [show newest h = _ from hg.newest h]
      exact hg.coherent.head hh fun x he => ⟨hsettled ((hmem h x).2 he), .inl (Nat.zero_le x)⟩
    refine ⟨hnewest, Follows.of_lastBefore (fun x hx => hprevious hx (.inl ?_))
      (hbucket h ▸ Log.bucket_pairwise ..) (fun x => ?_) hnewest⟩
    · rw [ht]
      exact hsettled hx
    · rw [ht]
      exact ⟨fun hx => ⟨hx, (hsettled hx).lt⟩, fun hx => hx.1⟩
  · rw [ht] at hi hj
    have howner := hg.coherent.fresh_owned hi ((hmem h x).1 hx) hsx.1 hsx.2
    exact Option.some.inj (howner.symm.trans
      (hg.coherent.fresh_owned hj ((hmem h y).1 hy) hsy.1 hsy.2))

/-- The links of the second of two entries are only in memory yet. -/
theorem bucket_chains_in_memory :
    ∃ es z, Pool.Steps Pool.surroundings (.opened (.parity .inline) .solo) es z ∧
      z.container.bucket 0 (Config.parity .inline).hasher ⟨0x100000000000000, 0⟩ = [0, 20] ∧
      (z.container.segment 0).attributes[AttributeId.backpointer 20]? = none ∧
      Follows (z.state.previous z.container 0)
        (z.state.newest z.container 0 ⟨0x100000000000000, 0⟩) [20, 0] := by
  let ms : List Pool.Move :=
    .start 0 (.put [⟨⟨[97], none⟩, [1]⟩]) :: Pool.Move.steps 0 40 ++
      .start 0 (.put [⟨⟨[99], none⟩, [2]⟩]) :: Pool.Move.steps 0 9
  obtain ⟨hrun, hf⟩ := @Pool.steps_drive (.parity .inline) "t" 0 ms
    (Pool.Move.fits_of_plain (by decide +kernel)) (.opened (.parity .inline) .solo)
  have hbucket : (Pool.drive (.parity .inline) "t" ms
      (.opened (.parity .inline) .solo)).2.container.bucket 0 (Config.parity .inline).hasher
        ⟨0x100000000000000, 0⟩ = [0, 20] := by decide +kernel
  refine ⟨_, _, hrun, hbucket, by decide +kernel, ?_⟩
  have hlinked : ((Pool.drive (.parity .inline) "t" ms
      (.opened (.parity .inline) .solo)).1.foldl Trail.after (.quiet 0)).unlinked 0 = none :=
    Option.isNone_iff_eq_none.1 (by decide +kernel)
  have h := (bucket_chains Container.create_solo Container.resolve_solo hrun hf).2.2.1
    ⟨0x100000000000000, 0⟩ ⟨by decide, by decide⟩ fun x _ =>
      Trail.not_linking (i := 0) (by decide +kernel) fun p hp => by
        rw [hlinked] at hp
        cases hp
  rw [hbucket] at h
  exact h.2

/-- Persisted links never change, and heads never move back. -/
theorem heads_advance {fs : List (Pool.Event Tables Reply)} {z' : Pool Tables Reply}
    (hc : c.create name initialAttributes = .ok c') (hn : c'.resolve name = .ok segment)
    (hrun : Pool.Steps Pool.surroundings (.opened config c') es z)
    (hf : ∀ e ∈ es, e.Fits config name segment) (hrun' : Pool.Steps Pool.surroundings z fs z')
    (hf' : ∀ e ∈ fs, e.Fits config name segment) :
    (z.container.segment segment).attributes.Advances (z'.container.segment segment).attributes ∧
      ∀ {h : KeyHash} {x}, h.Proper → z.state.newest z.container segment h = some x →
        ∃ y, z'.state.newest z'.container segment h = some y ∧ x ≤ y := by
  obtain ⟨g, hz, -⟩ := exists_account hc hn hrun hf
  obtain ⟨g', hz', -, hgrow⟩ := Site.sound_of_fits id hrun' hf' hz
  refine ⟨hgrow.attributes, fun {h x} hh hx => ?_⟩
  obtain ⟨y, hy, hle⟩ := hgrow.head hh ((Site.Inv.newest hz.inv h).symm.trans hx)
  exact ⟨y, (Site.Inv.newest hz'.inv h).trans hy, hle⟩

end Run

end KeyedLog
