import KeyedLog.Indexer
import KeyedLog.Proofs.Operation.Heads
import KeyedLog.Proofs.Segment.Renewal

/-! An indexer at work: it alone writes attributes, so the links that it persists are those of
everything up to where it stops. -/
namespace KeyedLog

namespace Log

theorem placed_take (offset n : Nat) (log : List Record) :
    (placed offset log).take n = placed offset (log.take n) := by
  induction log generalizing offset n with
  | nil => simp
  | cons r log ih =>
    cases n with
    | zero => rfl
    | succ n => rw [placed_cons, List.take_succ_cons, List.take_succ_cons, placed_cons, ih]

theorem boundary_of_prefix {b c log : List Record} (h : b ++ c <+: log) :
    Boundary log (size b + size c) := ⟨b ++ c, h, size_append ..⟩

def scanned (offset : Nat) (log : List Record) : List Scanned :=
  (placed offset log).map fun (x, r) => ⟨x, r.header recordChecksum, r⟩

theorem scanned_take (offset n : Nat) (log : List Record) :
    (scanned offset log).take n = scanned offset (log.take n) := by
  rw [scanned, ← List.map_take, placed_take, scanned]

theorem portion_scanned (offset : Nat) (limit : Option Nat) (log : List Record) :
    ∃ a, a <+: log ∧ Indexer.portion limit (scanned offset log) = scanned offset a := by
  cases limit with
  | some n => exact ⟨log.take n, List.take_prefix n log, scanned_take offset n log⟩
  | none => exact ⟨log, List.prefix_rfl, rfl⟩

theorem exists_portion {hasher : Hasher} {a b log : List Record} (hb : Wellformed hasher b)
    (hl : a ++ b <+: log) (limit : Option Nat) :
    Scan.ofBytes recordChecksum (size a) (Record.encodeAll recordChecksum b) =
        ⟨scanned (size a) b, none⟩ ∧
      ∃ c, a ++ c <+: log ∧ Wellformed hasher c ∧
        Indexer.portion limit (scanned (size a) b) = scanned (size a) c := by
  obtain ⟨c, ⟨rest, rfl⟩, hportion⟩ := portion_scanned (size a) limit b
  refine ⟨ofBytes_encodeAll recordChecksum _ _ fun r hr => (hb r hr).1.writable, c, ?_,
    fun r hr => hb r (List.mem_append_left _ hr), hportion⟩
  rw [← List.append_assoc] at hl
  exact (List.prefix_append ..).trans hl

theorem foldl_totalLength {log : List Record} (hv : ∀ r ∈ log, r.Valid) (offset : Nat) :
    (scanned offset log).foldl (fun offset r => offset + r.header.totalLength) offset =
      offset + size log := by
  induction log generalizing offset with
  | nil => rfl
  | cons r log ih =>
    have ih := ih (fun s hs => hv s (by simp [hs])) (offset + r.length)
    rw [scanned] at ih
    rw [scanned, placed_cons, List.map_cons, List.foldl_cons, size_cons,
      Record.header_totalLength recordChecksum (hv r (by simp)).writable, ih, Nat.add_assoc]

end Log

namespace Site

open Program

variable {S T U : Site} {w v u : World Tables Account} {a : Attributes}
  {H : KeyHash → Prop} {heads full : Heads} {h : KeyHash} {x : Nat}

/-- Heads that were met so far agree with those of all buckets, which otherwise are the persisted
ones. -/
structure Tracks (a : Attributes) (H : KeyHash → Prop) (heads full : Heads) : Prop where
  sound : ∀ {h : KeyHash} {y : Nat}, heads[h]? = some y → full[h]? = some y
  fallback : ∀ {h : KeyHash}, H h → heads[h]? = none → full[h]? = a[AttributeId.bucket h]?

theorem Tracks.insert (ht : Tracks a H heads full) (h : KeyHash) (x : Nat) :
    Tracks a H (heads.insert h x) (full.insert h x) where
  sound {k y} hy := by
    rw [Heads.getElem?_insert] at hy ⊢
    split
    · next hk => rwa [if_pos hk] at hy
    · next hk =>
      rw [if_neg hk] at hy
      exact ht.sound hy
  fallback {k} hk hn := by
    rw [Heads.getElem?_insert] at hn ⊢
    split
    · next hk => rw [if_pos hk] at hn; cases hn
    · next hk' =>
      rw [if_neg hk'] at hn
      exact ht.fallback hk hn

theorem tracks_collect (a : Attributes) (hashes : List KeyHash) :
    Tracks a (· ∈ hashes) ∅ (Heads.collect (fun h => a[AttributeId.bucket h]?) ∅ hashes) where
  sound hy := by simp at hy
  fallback hh _ := by
    rw [Heads.getElem?_collect, if_pos hh]
    simp

/-- The indexer holds nothing, and finds the attributes as they were when it began. -/
structure Indexing (S : Site) (w : World Tables Account) (T : Site) (v : World Tables Account) :
    Prop where
  inv : T.Inv v
  rests : v.ghost.Rests 0
  sees : Succeeds 0 S w T v
  mode : S.config.mode = .deferred

namespace Indexing

theorem attributes (hv : Indexing S w T v) : (T.scene v).attributes = (S.scene w).attributes :=
  hv.sees.indexing hv.mode rfl

theorem go (hv : Indexing S w T v) (hu : U.Inv u) (hvu : Succeeds 0 T v U u) : Indexing S w U u :=
  { hv with inv := hu, rests := hvu.rests hv.rests, sees := hv.sees.trans hvu }

theorem reading (hv : Indexing S w T v) : Reading 0 S w T v :=
  ⟨hv.inv, hv.rests, hv.sees.toCarries⟩

end Indexing

section LinkEntries

variable {ι γ : Type} {N : Succession ι Tables γ} {config : Config} {segment i : Nat} {s : ι}
  {w : World Tables γ} {I : ι → World Tables γ → Prop} {F : TableError → ι → World Tables γ → Prop}
  -- Attributes do not change as long as they are looked up.
  (hask : ∀ {β : Type} (id : AttributeId) (f : List (Option Nat) → Program Tables β)
    (K : β → ι → World Tables γ → Prop) (s : ι) (w : World Tables γ), I s w →
    (∀ t v, I t v → (f [a[id]?]).Abides N i K F t v) →
    (ask (.getAttributes segment [id]) >>= f).Abides N i K F s w)
include hask

/-- One more entry is linked to the newest one of its bucket. -/
theorem abides_linkEntry {r : Record} (hw : I s w) (ht : Tracks a H heads full)
    (hh : config.hasher.hash r.key = .ok h) (hH : H h) :
    (Indexer.linkEntry config segment heads ⟨x, r.header recordChecksum, r⟩).Abides N i
      (fun p t v => I t v ∧ p = (heads.insert h x, Links.backpointerUpdates [(x, full[h]?)]))
      F s w := by
  unfold Indexer.linkEntry
  refine Abides.bind ?_
  rw [hh, abides_ofExcept_ok]
  dsimp only
  cases hy : heads[h]? with
  | some y =>
    rw [ht.sound hy]
    exact ⟨hw, rfl⟩
  | none =>
    refine hask (.bucket h) _ _ s w hw fun t v hv => ⟨hv, ?_⟩
    rw [ht.fallback hH hy]
    simp only [List.head?_cons, Option.join_some]
    cases a[AttributeId.bucket h]? <;> rfl

/-- All entries are linked as if every head had been known from the start. -/
theorem abides_linkEntries {c : List Record} (hw : I s w)
    (ht : Tracks a H heads full) (hc : Log.Wellformed config.hasher c)
    (hH : ∀ {y h}, (y, h) ∈ Log.hashed config.hasher x c → H h) :
    (Indexer.linkEntries config segment heads (Log.scanned x c)).Abides N i
      (fun p t v => I t v ∧
        Tracks a H p.1 (Links.chain full (Log.hashed config.hasher x c)).1 ∧
        p.2 = Links.backpointerUpdates (Links.chain full (Log.hashed config.hasher x c)).2 ∧
        ∀ h, p.1[h]? ≠ none ↔
          heads[h]? ≠ none ∨ ∃ y, (y, h) ∈ Log.hashed config.hasher x c) F s w := by
  induction c generalizing heads full s w x with
  | nil =>
    refine ⟨hw, ht, rfl, fun h => (or_iff_left ?_).symm⟩
    rintro ⟨y, hy⟩
    cases hy
  | cons r c ih =>
    obtain ⟨-, h, hh⟩ := hc r (by simp)
    have hcons : Log.hashed config.hasher x (r :: c) =
        (x, h) :: Log.hashed config.hasher (x + r.length) c := by
      simp [Log.hashed, hh, Except.toOption]
    rw [hcons] at hH ⊢
    unfold Log.scanned
    rw [Log.placed_cons, List.map_cons]
    unfold Indexer.linkEntries
    have hentry := abides_linkEntry (x := x) hask hw ht hh (hH List.mem_cons_self)
    refine Abides.bind (hentry.mono ?_ fun _ _ _ h => h)
    rintro _ t v ⟨hv, rfl⟩
    have hrest := ih hv (ht.insert h x) (fun r hr => hc r (by simp [hr])) fun hk =>
      hH (List.mem_cons_of_mem _ hk)
    refine Abides.bind (hrest.mono ?_ fun _ _ _ h => h)
    · rintro ⟨heads', updates⟩ t u ⟨hu, ht', rfl, hin⟩
      refine ⟨hu, ht', ?_, fun k => (hin k).trans ?_⟩
      · rw [Links.chain_cons]
        exact (List.filterMap_append (l := [(x, full[h]?)])).symm
      · rw [Heads.getElem?_insert]
        by_cases hk : h = k
        · subst hk
          simp
        · rw [if_neg hk]
          simp [Ne.symm hk]

end LinkEntries

section Notify

theorem modifyState_modifyState (t : Tables) (ref : Nat) (f g : SegmentState → SegmentState) :
    (t.modifyState ref f).modifyState ref g = t.modifyState ref fun s => g (f s) := by
  simp only [Tables.modifyState]
  congr 1
  refine Array.ext (by simp) fun i _ _ => ?_
  simp only [Array.getElem_modify]
  split <;> rfl

/-- Who is notified of links forgets them, if they are known at all. -/
theorem scene_notify (hs : w.state.Serves S.segment S.place) (n : Nat) :
    (w.state.notify S.segment (some n)).Serves S.segment S.place ∧
      (S.scene ⟨w.container, w.state.notify S.segment (some n), w.ghost⟩ = S.scene w ∨
        S.scene ⟨w.container, w.state.notify S.segment (some n), w.ghost⟩ =
          { S.scene w with
            state := { (S.scene w).state with
              watermark := ((S.scene w).state.watermark.raise n).1 }.prune n }) := by
  unfold Tables.notify
  rcases hs.tracked with ⟨ht, -⟩ | ⟨ht, -⟩
  · rw [ht]
    exact ⟨hs, .inl rfl⟩
  · rw [ht]
    have htracked : (S.scene w).tracked = true := by simp [scene, ht]
    change (Tables.modifyState (Tables.modifyState _ _ _) _ _).Serves _ _ ∧ (S.scene
      ⟨_, Tables.modifyState (Tables.modifyState _ _ _) _ _, _⟩ = _ ∨ S.scene
      ⟨_, Tables.modifyState (Tables.modifyState _ _ _) _ _, _⟩ = _)
    rw [modifyState_modifyState, scene_modifyState hs htracked]
    exact ⟨serves_modifyState hs S.place _, .inr rfl⟩

/-- What an indexer persisted leaves the tail. -/
theorem notify_spec {n i : Nat} (hw : S.Inv w) (hb : Log.Boundary w.ghost.log n)
    (hp : ∀ {x h}, S.Entry w.ghost.log x h → x < n →
      S.Persisted w.ghost.log (S.scene w).attributes x h) :
    (w.state.notify S.segment (some n)).Serves S.segment S.place ∧
      S.Moves i (S.scene w)
        (S.scene ⟨w.container, w.state.notify S.segment (some n), w.ghost⟩) := by
  obtain ⟨hserves, hscene | hscene⟩ := scene_notify hw.serves n
  · rw [hscene]
    exact ⟨hserves, hw.coherent, fun j _ => .refl j _⟩
  rw [hscene]
  refine ⟨hserves, ?_⟩
  refine moves_notify hw.coherent (fun hy => ?_) (fun {h y} hy hn => ?_) (fun hx => ?_)
    (fun {x p h} hx hn he => ?_) hb hp
  · rw [Std.ExtTreeMap.getElem?_filter'] at hy
    exact (Option.filter_eq_some_iff.1 hy).1
  · rw [Std.ExtTreeMap.getElem?_filter', hy] at hn
    have hlt : ¬n ≤ y := by simpa using hn
    exact (hp (hw.coherent.tail.head hy).1.1 (Nat.lt_of_not_le hlt)).2
  · rw [Std.ExtTreeMap.getElem?_filter'] at hx
    exact (Option.filter_eq_some_iff.1 hx).1
  · rw [Std.ExtTreeMap.getElem?_filter', hx] at hn
    have hlt : ¬n ≤ x := by simpa using hn
    exact (hp he (Nat.lt_of_not_le hlt)).1

end Notify

/-- Everything up to where the indexer stops is linked. -/
theorem rangeLinks_of_indexer {g : Ledger} {b c : List Record} (hf : S.Faithful g a)
    (hm : S.config.mode = .deferred) (hstart : a[AttributeId.indexOffset]? = some (Log.size b))
    (hbc : b ++ c <+: g.log)
    (hfull : ∀ {x h}, (x, h) ∈ Log.hashed S.config.hasher (Log.size b) c →
      full[h]? = a[AttributeId.bucket h]?)
    (hsome : ∀ {h y}, full[h]? = some y → a[AttributeId.bucket h]? = some y)
    (hproper : ∀ {h : KeyHash} {y : Nat}, full[h]? = some y → h.Proper)
    (ht : Tracks a H heads (Links.chain full (Log.hashed S.config.hasher (Log.size b) c)).1)
    (hin : ∀ {x h}, (x, h) ∈ Log.hashed S.config.hasher (Log.size b) c → heads[h]? ≠ none) :
    S.RangeLinks g.log a (Log.size b) (Log.size b + Log.size c) full
      (Log.hashed S.config.hasher (Log.size b) c)
      (Links.chain full (Log.hashed S.config.hasher (Log.size b) c)).2 heads.toList := by
  -- A bucket that has entries before the range has a persisted head.
  have hold {x : Nat} {h : KeyHash} (hx : S.Entry g.log x h) (hlt : x < Log.size b) :
      S.Persisted g.log a x h := hf.indexed hx ((Attributes.indexed_iff hstart).2 hlt)
  refine rangeLinks_of_chain (Log.hashed_pairwise ..) (Log.mem_hashed_range hbc)
    (fun {h y} hy => ?_) (fun {x h} hx hn hfirst => ?_)
    (fun hy => ht.sound (Std.ExtTreeMap.mem_toList_iff_getElem?_eq_some.1 hy))
    fun {x h y} hx hy => Std.ExtTreeMap.mem_toList_iff_getElem?_eq_some.2 ?_
  · have hh := hproper hy
    have hy := hsome hy
    refine LastBefore.some_iff.2 ⟨(hf.bucket hh hy).1,
      (Attributes.indexed_iff hstart).1 (hf.deferred hm hh hy), fun x hx hlt => ?_⟩
    obtain ⟨y', hy', hle⟩ := (hold hx hlt).2
    rwa [Option.some.inj (hy.symm.trans hy')]
  · have hnone (z : Nat) (hz : S.Entry g.log z h) : ¬z < x := fun hzx => by
      obtain ⟨y, hy, -⟩ := (hold hz (hfirst z hz hzx)).2
      rw [← hfull hx, hn] at hy
      cases hy
    unfold Chained
    cases hq : a[AttributeId.backpointer x]? with
    | none => exact LastBefore.none_iff.2 hnone
    | some q =>
      obtain ⟨n, hn, -, hfloor⟩ := hf.index
      obtain ⟨he, hlo, -⟩ := (Log.mem_hashed_range hbc).1 hx
      obtain rfl := Option.some.inj (hstart.symm.trans hn)
      have hlast := hf.backpointer hq ⟨he, Nat.le_trans (hfloor h) hlo⟩
      exact absurd hlast.lt (hnone q hlast.mem)
  · cases hk : heads[h]? with
    | none => exact absurd hk (hin hx)
    | some y' => rw [← Option.some.inj ((ht.sound hk).symm.trans hy)]

section Range

variable {hasher : Hasher} {b c : List Record}

def headsOf (hasher : Hasher) (a : Attributes) (start : Nat) (c : List Record) : Heads :=
  Heads.collect (fun h => a[AttributeId.bucket h]?) ∅ ((Log.hashed hasher start c).map (·.2))

theorem getElem?_headsOf {start x : Nat} (hx : (x, h) ∈ Log.hashed hasher start c) :
    (headsOf hasher a start c)[h]? = a[AttributeId.bucket h]? := by
  have hmem : h ∈ (Log.hashed hasher start c).map (·.2) := List.mem_map.2 ⟨_, hx, rfl⟩
  rw [headsOf, Heads.getElem?_collect, if_pos hmem]
  simp

theorem of_headsOf {start y : Nat} (hy : (headsOf hasher a start c)[h]? = some y) :
    a[AttributeId.bucket h]? = some y ∧ h.Proper := by
  rw [headsOf, Heads.getElem?_collect] at hy
  split at hy
  · next hh =>
    obtain ⟨⟨x, h⟩, hx, rfl⟩ := List.mem_map.1 hh
    obtain ⟨r, -, hr⟩ := Log.mem_hashed.1 hx
    refine ⟨?_, Hasher.proper_of_hash hr⟩
    simpa using hy
  · simp at hy

/-- The heads of a range, and the backpointers of its entries. -/
def rangeChain (hasher : Hasher) (a : Attributes) (b c : List Record) :
    Heads × List (Nat × Option Nat) :=
  Links.chain (headsOf hasher a (Log.size b) c) (Log.hashed hasher (Log.size b) c)

/-- What an indexer has found out about the buckets of its range. -/
structure Finds (hasher : Hasher) (a : Attributes) (b c : List Record) (heads : Heads) : Prop where
  start : a[AttributeId.indexOffset]? = some (Log.size b)
  tracks : Tracks a (· ∈ (Log.hashed hasher (Log.size b) c).map (·.2)) heads
    (rangeChain hasher a b c).1
  met : ∀ {x h}, (x, h) ∈ Log.hashed hasher (Log.size b) c → heads[h]? ≠ none

theorem rangeLinks_of_finds {g : Ledger} (hf : S.Faithful g a) (hm : S.config.mode = .deferred)
    (hbc : b ++ c <+: g.log) (h : Finds S.config.hasher a b c heads) :
    S.RangeLinks g.log a (Log.size b) (Log.size b + Log.size c)
      (headsOf S.config.hasher a (Log.size b) c) (Log.hashed S.config.hasher (Log.size b) c)
      (rangeChain S.config.hasher a b c).2 heads.toList :=
  rangeLinks_of_indexer hf hm h.start hbc getElem?_headsOf (fun hy => (of_headsOf hy).1)
    (fun hy => (of_headsOf hy).2) h.tracks h.met

theorem moves_of_finds {z : Scene} (hz : S.Coherent z) (hm : S.config.mode = .deferred)
    (hbc : b ++ c <+: z.ghost.log) (h : Finds S.config.hasher z.attributes b c heads) :
    S.Moves 0 z (z.updated (rangeUpdates (rangeChain S.config.hasher z.attributes b c).2
      heads.toList (Log.size b + Log.size c))) := by
  refine moves_range hz h.start (Log.boundary_of_prefix hbc) (Nat.le_add_right ..)
    (rangeLinks_of_finds hz.faithful hm hbc h) (fun _ => rfl) fun hi => ?_
  rw [hm] at hi
  cases hi

/-- The indexer persists the links of its range and tells the index, or it fails before that. -/
theorem Indexing.abides_conclude (hv : Indexing S w T v)
    (hfinds : Finds S.config.hasher (S.scene w).attributes b c heads)
    (hbc : b ++ c <+: v.ghost.log) :
    (do
      ask (.updateAttributes S.segment
        (rangeUpdates (rangeChain S.config.hasher (S.scene w).attributes b c).2 heads.toList
          (Log.size b + Log.size c)))
      modify (·.notify S.segment (some (Log.size b + Log.size c)))
      return Log.size b + Log.size c : Program Tables Nat).Abides succession 0
      (fun _ U u => Reading 0 S w U u)
      (fun _ U u => Reading 0 S w U u ∧ ¬S.calm) T v := by
  have hcalm := hv.sees.renews.calm
  have hmode := hv.mode
  have hvw := hv.attributes
  cases hv.sees.renews
  refine Abides.bind (abides_ask_update hv.rests (fun U u hu hvu => ?_)
    fun e U u hc hu hvu => ⟨(hv.go hu hvu).reading, hc⟩)
  have hu' := hv.go hu hvu
  have hbu : b ++ c <+: u.ghost.log := hbc.trans hvu.endures.log
  have ha := hu'.attributes
  cases hvu.renews
  rw [← ha] at hfinds ⊢
  have hmove := moves_of_finds hu.coherent hmode hbu hfinds
  refine ⟨hmove, fun x hx hscene V t ht hxt => ?_⟩
  have hux := hmove.minds rfl
  have hlinks := rangeLinks_of_finds hu.coherent.faithful hmode hbu hfinds
  have hbound := Log.boundary_of_prefix hbu
  rw [← hscene] at hux
  have hread : Reading 0 S w V t := (hu'.reading.trans (.of_minds hx hu'.rests hux)).go ht hxt
  refine ⟨Abides.bind ?_, fun e hc => ⟨hread, hc⟩⟩
  have hindexed {y : Nat} (hy : y < Log.size b + Log.size c) :
      (V.scene t).attributes.Indexed y := by
    rw [hxt.indexing hmode rfl, hscene]
    exact (hlinks.indexed_iff hu.coherent.faithful hfinds.start hbound (Nat.le_add_right ..)).2 hy
  cases hxt.renews
  obtain ⟨hserves, hmove'⟩ := notify_spec (i := 0) ht
    (hbound.mono (hux.log.trans hxt.endures.log))
    fun he hy => ht.coherent.faithful.indexed he (hindexed hy)
  exact abides_modify_of_moves (f := fun t => t.notify S.segment _) ht t.ghost hserves rfl hmove'
    fun hm => hread.trans (.of_minds hm hread.rests (hmove'.minds rfl))

end Range

/-- The indexer asks for something, which changes nothing. -/
theorem Indexing.abides_look {β : Type} {q : Call} {f : q.Answer → Program Tables β}
    {K : β → Site → World Tables Account → Prop} (hv : Indexing S w T v)
    (hq : ∀ segment data, q ≠ .append segment data)
    (hl : ∀ U u, Indexing S w U u → Succeeds 0 T v U u → ∃ answer, U.Looks q u answer ∧
      ∀ V t, Indexing S w V t → Succeeds 0 U u V t → (f answer).Abides succession 0 K
        (fun _ V t => Reading 0 S w V t ∧ ¬S.calm) V t) :
    (ask q >>= f).Abides succession 0 K (fun _ U u => Reading 0 S w U u ∧ ¬S.calm) T v := by
  refine abides_ask_bind q hv.rests hq (fun U u hu hvu => ?_) fun e U u hc hu hvu => ?_
  · have hu' := hv.go hu hvu
    obtain ⟨answer, hlook, hf⟩ := hl U u hu' hvu
    exact ⟨answer, hlook, fun V t ht hut => hf V t (hu'.go ht hut) hut⟩
  · exact ⟨(hv.go hu hvu).reading, fun hc' => hc (hv.sees.renews.calm.2 hc')⟩

theorem Indexing.looks_attributes (hv : Indexing S w T v) (ids : List AttributeId) :
    T.Looks (.getAttributes S.segment ids) v (ids.map fun a => (S.scene w).attributes[a]?) := by
  rw [← hv.attributes]
  cases hv.sees.renews
  exact Site.looks_attributes hv.inv.stores ids

/-- The indexer links what it set out to link, or nothing at all, and tells the index. -/
theorem abides_index {connector : Connector} {limit : Option Nat} (hm : S.config.mode = .deferred)
    (hname : connector.info.name = S.name) (hid : connector.info.id = S.segment) (hw : S.Inv w)
    (hrest : w.ghost.Rests 0) :
    (Indexer.runWithin S.config connector limit).Abides succession 0
      (fun _ T v => Reading 0 S w T v) (fun _ T v => Reading 0 S w T v ∧ ¬S.calm) S w := by
  have hw' : Indexing S w S w := ⟨hw, hrest, .of_sees (.refl 0 _), hm⟩
  unfold Indexer.runWithin
  rw [hname]
  -- Where to start, and how far there is to go.
  refine hw'.abides_look (by simp) fun B v hv hwv => ⟨S.segment, ?_, fun C u hu hvu => ?_⟩
  · cases hwv.renews
    exact looks_resolve hv.inv.stores
  refine hu.abides_look (by simp) fun B v hv huv =>
    ⟨_, hv.looks_attributes [.indexOffset], fun C t ht hvt => ?_⟩
  obtain ⟨start, hstart, hbound, hfloor⟩ := hv.inv.coherent.faithful.index
  rw [hv.attributes] at hstart
  have hvalue : ([AttributeId.indexOffset].map
      fun a => (S.scene w).attributes[a]?).head?.join.getD 0 = start := by
    simp [hstart]
  rw [hvalue]
  dsimp only
  refine ht.abides_look (by simp) fun C c hc htc =>
    ⟨Log.size c.ghost.log, ?_, fun D d hd hcd => ?_⟩
  · cases hc.sees.renews
    exact looks_length hc.inv.stores
  split
  · exact hd.reading
  next hlt =>
  have hlog := (hvt.toCarries.trans htc.toCarries).endures.log
  obtain ⟨a, b, hab, rfl, hb⟩ := Log.exists_range (hbound.mono hlog)
    (Log.boundary_size c.ghost.log) (Nat.le_of_not_le hlt)
  -- What is read are whole records, of which some first ones are linked.
  refine hd.abides_look (by simp) fun F f hf hdf => ?_
  have hlog : c.ghost.log <+: f.ghost.log := hcd.endures.log.trans hdf.endures.log
  have hsize := Log.size_le_of_prefix hlog
  refine ⟨(Record.encodeAll recordChecksum f.ghost.log).slice (Log.size a)
    (Log.size a + (Log.size c.ghost.log - Log.size a)), ?_, fun G k hk hfk => ?_⟩
  · cases hf.sees.renews
    exact looks_read hf.inv.stores (by omega)
  rw [Log.slice_encodeAll recordChecksum (hab.trans hlog) rfl (by omega)]
  have hwf : Log.Wellformed S.config.hasher b := by
    have hall := hf.inv.coherent.wellformed
    cases hf.sees.renews
    exact fun r hr => hall r (hlog.subset (hab.subset (List.mem_append_right _ hr)))
  obtain ⟨hscan, b', hrange, hwf', hportion⟩ := Log.exists_portion hwf (hab.trans hlog) limit
  rw [hscan]
  dsimp only
  rw [hportion, Log.foldl_totalLength (fun r hr => (hwf' r hr).1) (Log.size a)]
  have htracks := tracks_collect (S.scene w).attributes
    ((Log.hashed S.config.hasher (Log.size a) b').map (·.2))
  have hlinks := abides_linkEntries (N := succession) (i := 0) (s := G) (w := k)
    (I := fun T v => Indexing S w T v ∧ a ++ b' <+: v.ghost.log)
    (F := fun _ T v => Reading 0 S w T v ∧ ¬S.calm)
    (fun id f K T v ht hf => ht.1.abides_look (by simp) fun U u hu hvu =>
      ⟨_, hu.looks_attributes [id], fun V t hr hut =>
        hf V t ⟨hr, ht.2.trans (hvu.endures.log.trans hut.endures.log)⟩⟩)
    ⟨hk, hrange.trans hfk.endures.log⟩ htracks hwf' fun hx => List.mem_map.2 ⟨_, hx, rfl⟩
  refine Abides.bind (hlinks.mono ?_ fun _ _ _ h => h)
  rintro ⟨heads, bps⟩ T l ⟨⟨hl, hal⟩, htracks, rfl, hmem⟩
  unfold Connector.notify
  rw [hid]
  exact hl.abides_conclude ⟨hstart, htracks, fun hx => (hmem _).2 (.inr ⟨_, hx⟩)⟩ hal

end Site
end KeyedLog
