import KeyedLog.Proofs.Extension.Requests
import KeyedLog.Proofs.Program.Simulation

/-! Whatever is done to a segment is done in the same way in extensions that are alike. -/
namespace KeyedLog

namespace Cache

variable {c d e : Cache}

structure Swells (c d : Cache) : Prop where
  capacity : d.capacity = c.capacity
  size : c.size ≤ d.size

theorem Swells.refl (c : Cache) : c.Swells c := ⟨rfl, Nat.le_refl _⟩

theorem Swells.trans (h : c.Swells d) (h' : d.Swells e) : c.Swells e where
  capacity := h'.capacity.trans h.capacity
  size := Nat.le_trans h.size h'.size

theorem swells_insert (c : Cache) (b : Bucket) (head : Nat) : c.Swells (c.insert b head) := by
  unfold insert
  split
  · exact ⟨rfl, Std.ExtTreeMap.size_le_size_insert⟩
  · exact .refl c

theorem retireHeads_cons (heads : Heads) (c : Cache) (segment head : Nat) (hash : KeyHash)
    (l : List (KeyHash × Nat)) :
    SegmentState.retireHeads heads c segment ((hash, head) :: l) =
      if heads[hash]? = some head then
        SegmentState.retireHeads (heads.erase hash) (c.insert ⟨segment, hash⟩ head) segment l
      else SegmentState.retireHeads heads c segment l := by
  unfold SegmentState.retireHeads
  rw [List.foldl_cons]
  dsimp only
  split <;> rfl

theorem swells_retireHeads (heads : Heads) (c : Cache) (segment : Nat) (l : List (KeyHash × Nat)) :
    c.Swells (SegmentState.retireHeads heads c segment l).2 := by
  induction l generalizing heads c with
  | nil => exact .refl c
  | cons e l ih =>
    rw [retireHeads_cons]
    split
    · exact (swells_insert c _ _).trans (ih _ _)
    · exact ih _ _

end Cache

namespace Tables

open Program

variable {P : Pairing} {w v : P.World} {t t' u : Tables} {k k' r r' : Nat} {config : Config}

theorem Roomy.of_swells (hu : u.Roomy) (h : t.cache.Swells u.cache) : t.Roomy := by
  unfold Roomy at *
  have hsize := h.size
  have hcapacity := h.capacity
  omega

theorem swells_settleHead (t : Tables) (generation : Nat) (hash : KeyHash) (value : Option Nat) :
    t.cache.Swells (settleHead t k r generation hash value).1.cache := by
  unfold settleHead
  dsimp only
  split
  · cases value with
    | some head => exact Cache.swells_insert ..
    | none => exact .refl _
  · exact .refl _

theorem swells_settleHeads (t : Tables) (heads : Heads) (generation : Nat)
    (l : List (KeyHash × Option Nat)) :
    t.cache.Swells (settleHeads k r generation t heads l).1.cache := by
  induction l generalizing t heads with
  | nil => exact .refl _
  | cons e l ih =>
    rw [settleHeads_cons]
    exact (swells_settleHead t generation e.1 e.2).trans (ih _ _)

theorem swells_retire (t : Tables) (b : PendingLinks) :
    t.cache.Swells (retire k r t b).1.cache :=
  Cache.swells_retireHeads ..

/-- A batch leaves the tail, after others that may have moved the watermark. -/
def retireNext (segment ref : Nat) (z : Tables × Option Nat) (b : PendingLinks) :
    Tables × Option Nat :=
  ((retire segment ref z.1 b).1, (retire segment ref z.1 b).2 <|> z.2)

theorem swells_retireNext (z : Tables × Option Nat) (bs : List PendingLinks) :
    z.1.cache.Swells (bs.foldl (retireNext k r) z).1.cache := by
  induction bs generalizing z with
  | nil => exact .refl _
  | cons b bs ih => exact (swells_retire z.1 b).trans (ih (retireNext k r z b))

section Alike

variable (ht : P.alike w t t') (hk : P.segments k k') (hr : P.places w r r')

include ht hk in
theorem alike_eraseAll {ι : Type} (l : List ι) (f : ι → KeyHash) :
    P.alike w { t with cache := l.foldl (fun c i => c.erase ⟨k, f i⟩) t.cache }
      { t' with cache := l.foldl (fun c i => c.erase ⟨k', f i⟩) t'.cache } := by
  induction l generalizing t t' with
  | nil => exact ht
  | cons i l ih => exact ih (P.erase (f i) ht hk)

include ht hk hr in
theorem knownHead_alike (hash : KeyHash) :
    t.knownHead k r hash = t'.knownHead k' r' hash := by
  unfold knownHead
  rw [P.state ht hr, P.cached ht hk hash]

include ht hk hr in
theorem alike_record (links : Links) :
    P.alike w (record k r links t) (record k' r' links t') := by
  have hset := P.modifyState (fun _ => ((t.state r).record t.cache k links).1) ht hr
  have herase := alike_eraseAll hset hk links.heads Prod.fst
  unfold record
  rw [P.state ht hr] at herase ⊢
  exact herase

include ht hk in
theorem alike_retireHeads (heads : Heads) (l : List (KeyHash × Nat))
    (hu : Roomy { t with cache := (SegmentState.retireHeads heads t.cache k l).2 }) :
    (SegmentState.retireHeads heads t.cache k l).1 =
        (SegmentState.retireHeads heads t'.cache k' l).1 ∧
      P.alike w { t with cache := (SegmentState.retireHeads heads t.cache k l).2 }
        { t' with cache := (SegmentState.retireHeads heads t'.cache k' l).2 } := by
  induction l generalizing heads t t' with
  | nil => exact ⟨rfl, ht⟩
  | cons e l ih =>
    rw [Cache.retireHeads_cons] at hu
    rw [Cache.retireHeads_cons, Cache.retireHeads_cons]
    split at hu
    · next he =>
      rw [if_pos he, if_pos he]
      have hroomy : t.Roomy := hu.of_swells ((Cache.swells_insert t.cache ⟨k, e.1⟩ e.2).trans
        (Cache.swells_retireHeads (heads.erase e.1) _ k l))
      exact ih (P.insert e.1 e.2 ht hk hroomy) _ hu
    · next he =>
      rw [if_neg he, if_neg he]
      exact ih ht _ hu

include ht hk hr in
theorem alike_retire (b : PendingLinks) (hu : (retire k r t b).1.Roomy) :
    (retire k r t b).2 = (retire k' r' t' b).2 ∧
      P.alike w (retire k r t b).1 (retire k' r' t' b).1 := by
  obtain ⟨hheads, hcache⟩ := alike_retireHeads ht hk (t.state r).heads b.links.heads hu
  have hstate : ((t.state r).retire t.cache k b.links).1 =
      ((t'.state r').retire t'.cache k' b.links).1 := by
    unfold SegmentState.retire
    rw [P.state ht hr] at hheads ⊢
    dsimp only
    rw [hheads]
  unfold retire
  dsimp only
  rw [hstate]
  refine ⟨rfl, ?_⟩
  have hset := P.modifyState (fun _ =>
    { ((t'.state r').retire t'.cache k' b.links).1 with
      watermark := (((t'.state r').retire t'.cache k' b.links).1.watermark.complete b.offset
        (b.offset + b.length)).1 }) hcache hr
  rw [P.state ht hr] at hset ⊢
  exact hset

include hk in
theorem alike_retireNext {z z' : Tables × Option Nat} (hz : P.alike w z.1 z'.1)
    (hm : z.2 = z'.2) (hr : P.places w r r') (bs : List PendingLinks)
    (hu : (bs.foldl (retireNext k r) z).1.Roomy) :
    (bs.foldl (retireNext k r) z).2 = (bs.foldl (retireNext k' r') z').2 ∧
      P.alike w (bs.foldl (retireNext k r) z).1 (bs.foldl (retireNext k' r') z').1 := by
  induction bs generalizing z z' with
  | nil => exact ⟨hm, hz⟩
  | cons b bs ih =>
    rw [List.foldl_cons] at hu
    rw [List.foldl_cons, List.foldl_cons]
    have hroomy := hu.of_swells (swells_retireNext (retireNext k r z b) bs)
    obtain ⟨hmoved, hretire⟩ := alike_retire hz hk hr b hroomy
    have hnext : (retireNext k r z b).2 = (retireNext k' r' z' b).2 := by
      unfold retireNext
      rw [hmoved, hm]
    exact ih hretire hnext hu

include ht hk hr in
theorem alike_settleHead (generation : Nat) (hash : KeyHash) (value : Option Nat)
    (hu : (settleHead t k r generation hash value).1.Roomy) :
    (settleHead t k r generation hash value).2 =
        (settleHead t' k' r' generation hash value).2 ∧
      P.alike w (settleHead t k r generation hash value).1
        (settleHead t' k' r' generation hash value).1 := by
  have hroomy := hu.of_swells (swells_settleHead t generation hash value)
  unfold settleHead
  rw [P.state ht hr]
  dsimp only
  split
  · cases value with
    | some head => exact ⟨rfl, P.insert hash head ht hk hroomy⟩
    | none => exact ⟨rfl, ht⟩
  · exact ⟨rfl, ht⟩

include ht hk hr in
theorem alike_settleHeads (generation : Nat) (heads : Heads)
    (l : List (KeyHash × Option Nat))
    (hu : (settleHeads k r generation t heads l).1.Roomy) :
    (settleHeads k r generation t heads l).2 = (settleHeads k' r' generation t' heads l).2 ∧
      P.alike w (settleHeads k r generation t heads l).1
        (settleHeads k' r' generation t' heads l).1 := by
  induction l generalizing t t' heads with
  | nil => exact ⟨rfl, ht⟩
  | cons e l ih =>
    obtain ⟨hash, value⟩ := e
    rw [settleHeads_cons] at hu
    rw [settleHeads_cons, settleHeads_cons]
    have hroomy := hu.of_swells (swells_settleHeads _ _ generation l)
    obtain ⟨hhead, hsettle⟩ := alike_settleHead ht hk hr generation hash value hroomy
    rw [← hhead]
    exact ih hsettle _ hu

include ht hk in
theorem alike_notify (offset : Option Nat) :
    P.alike w (t.notify k offset) (t'.notify k' offset) := by
  cases offset with
  | none => exact P.untrack ht hk
  | some x =>
    unfold notify
    have htracked := P.tracked ht hk
    generalize t.tracked[k]? = o at htracked
    generalize t'.tracked[k']? = o' at htracked
    cases htracked with
    | none => exact ht
    | some hr => exact P.modifyState _ (P.modifyState _ ht hr) hr

include ht hk in
theorem alike_track : ∃ u, P.next w u ∧ P.alike u (t.track k).1 (t'.track k').1 ∧
    P.places u (t.track k).2 (t'.track k').2 := by
  cases ho : t.tracked[k]? with
  | none => exact P.track ht hk ho
  | some r =>
    have htracked := P.tracked ht hk
    unfold track
    rw [ho] at htracked ⊢
    generalize t'.tracked[k']? = o' at htracked
    cases htracked with
    | some hr => exact ⟨w, P.next_refl w, ht, hr⟩

end Alike

theorem agrees_checkOpen : checkOpen.Agrees P checkOpen w := by
  apply mirrors_read_bind
  intro v t t' _ ht
  rw [P.closed ht]
  cases t'.closed <;> exact rfl

theorem agrees_checkIndex : checkIndex.Agrees P checkIndex w := by
  apply mirrors_read_bind
  intro v t t' _ ht
  rw [P.indexClosed ht]
  cases t'.indexClosed <;> exact rfl

theorem agrees_look (hr : P.places w r r') : (look r).Agrees P (look r') w := by
  apply mirrors_read_bind
  intro v t t' hv ht
  exact P.state ht (P.places_later hv hr)

theorem agrees_change (hr : P.places w r r') (f : SegmentState → SegmentState) :
    (change r f).Agrees P (change r' f) w :=
  mirrors_modify fun _ _ _ hv ht _ => P.modifyState f ht (P.places_later hv hr)

theorem agrees_raise (hr : P.places w r r') (x : Nat) :
    (Program.modify (·.raise r x)).Agrees P (Program.modify (·.raise r' x)) w :=
  agrees_change hr fun s => { s with watermark := (s.watermark.raise x).1 }

section Segment

variable (hk : P.segments k k')

include hk in
theorem agrees_attributeOf (id : AttributeId) :
    (attributeOf k id).Agrees P (attributeOf k' id) w :=
  Agrees.bind (mirrors_request (.getAttributes hk [id])) fun _ _ _ => agrees_pure _

include hk in
theorem agrees_rewind (before hops left : Nat) (head : Option Nat) :
    (rewind k before hops left head).Agrees P (rewind k' before hops left head) w := by
  induction left generalizing hops head w with
  | zero =>
    cases head with
    | none => exact agrees_pure _
    | some offset =>
      unfold rewind
      split
      · exact agrees_pure _
      apply (agrees_attributeOf hk _).bind
      intro v previous _
      split <;> exact mirrors_fail _
  | succ left ih =>
    cases head with
    | none => exact agrees_pure _
    | some offset =>
      unfold rewind
      split
      · exact agrees_pure _
      apply (agrees_attributeOf hk _).bind
      intro v previous _
      split
      · exact mirrors_fail _
      · exact ih (hops + 1) previous

include hk in
theorem agrees_rewindAll (before : Nat) (hashes : List KeyHash)
    (persisted : List (Option Nat)) :
    (rewindAll config k before hashes persisted).Agrees P
      (rewindAll config k' before hashes persisted) w := by
  apply mirrors_foldlM
  intro v heads e _
  apply (agrees_rewind hk _ _ _ _).bind
  intro u head _
  cases head <;> exact agrees_pure _

include hk in
theorem agrees_indexRange (start stop : Nat) :
    (indexRange config k start stop).Agrees P (indexRange config k' start stop) w := by
  unfold indexRange
  refine Agrees.bind (mirrors_request (.read hk _ _)) ?_
  intro _ data _
  apply (agrees_ofExcept _).bind
  intro _ entries _
  refine Agrees.bind (mirrors_request (.getAttributes hk _)) ?_
  intro _ persisted _
  apply (agrees_rewindAll hk _ _ _).bind
  intro _ before _
  refine Agrees.bind (mirrors_request (.updateAttributes hk _)) ?_
  intro _ _ _
  apply mirrors_modify
  intro _ t t' _ ht _
  exact alike_eraseAll ht hk _ id

include hk in
theorem agrees_recoverState (hr : P.places w r r') :
    (recoverState config k r).Agrees P (recoverState config k' r') w := by
  unfold recoverState
  apply (agrees_look hr).bind
  intro w s hw
  replace hr := P.places_later hw hr
  cases s.recovered with
  | some length => exact agrees_pure _
  | none =>
    apply (agrees_attributeOf hk _).bind
    intro w persisted hw
    replace hr := P.places_later hw hr
    refine Agrees.bind (mirrors_ask (.length hk)) ?_
    intro w length hw
    replace hr := P.places_later hw hr
    apply (agrees_raise hr _).bind
    intro w _ hw
    replace hr := P.places_later hw hr
    have hend {v : P.World} (hv : P.places v r r') :
        (change r ({ · with recovered := some length }) >>= fun _ => pure length).Agrees P
          (change r' ({ · with recovered := some length }) >>= fun _ => pure length) v :=
      (agrees_change hv _).bind fun _ _ _ => agrees_pure _
    split
    · cases config.mode with
      | deferred => exact hend hr
      | inline =>
        apply (agrees_indexRange hk _ _).bind
        intro w _ hw
        replace hr := P.places_later hw hr
        apply (agrees_raise hr _).bind
        intro w _ hw
        exact hend (P.places_later hw hr)
    · exact hend hr

include hk in
theorem agrees_recover (hr : P.places w r r') :
    (recover config k r).Agrees P (recover config k' r') w := by
  unfold recover
  apply Agrees.bind
  · apply mirrors_waitForever
    intro v t t' hv ht
    rw [P.state ht (P.places_later hv hr)]
  intro w _ hw
  replace hr := P.places_later hw hr
  apply (agrees_change hr _).bind
  intro w _ hw
  replace hr := P.places_later hw hr
  apply (agrees_recoverState hk hr).ensuring
  intro v hv
  exact agrees_change (P.places_later hv hr) _

omit hk in
theorem agrees_awaitWatermark (hr : P.places w r r') (target : Nat) :
    (awaitWatermark r target).Agrees P (awaitWatermark r' target) w := by
  unfold awaitWatermark
  apply Agrees.bind
  · apply mirrors_waitUntil
    intro v t t' hv ht
    rw [P.state ht (P.places_later hv hr)]
  intro w _ hw
  apply (agrees_look (P.places_later hw hr)).bind
  intro w s _
  split
  · exact mirrors_fail _
  · exact agrees_pure _

include hk in
theorem agrees_admission (hr : P.places w r r') (known : Option Nat) :
    (admission config k r known).Agrees P (admission config k' r' known) w := by
  cases known with
  | some length => exact agrees_awaitWatermark hr length
  | none =>
    apply (agrees_recover hk hr).bind
    intro v target hv
    exact agrees_awaitWatermark (P.places_later hv hr) target

include hk in
theorem mirrors_access :
    (access config k).Mirrors P P.places (access config k') w := by
  rw [access_eq, access_eq]
  apply agrees_checkIndex.bind
  intro w _ _
  apply mirrors_read_bind
  intro w t t' _ ht
  apply echoes_exchange
  intro _
  obtain ⟨u, hn, hu, hr⟩ := alike_track ht hk
  have hnext {known known' : Option Nat} (h : known = known') :
      (admission config k (t.track k).2 known >>= fun _ => pure (t.track k).2).Mirrors P P.places
        (admission config k' (t'.track k').2 known' >>= fun _ => pure (t'.track k').2) u := by
    subst h
    apply (agrees_admission hk hr known).bind
    intro v _ hv
    exact mirrors_pure fun x hx => P.places_later (P.later_trans hv hx) hr
  exact ⟨u, hn, hu, hnext (congrArg SegmentState.recovered (P.state hu hr))⟩

include hk in
theorem agrees_headsWith (hr : P.places w r r') (hashes : List KeyHash) :
    (headsWith k r hashes).Agrees P (headsWith k' r' hashes) w := by
  unfold headsWith
  apply mirrors_read_bind
  intro w t t' hw ht
  replace hr := P.places_later hw hr
  have hknown : t.knownHead k r = t'.knownHead k' r' := funext (knownHead_alike ht hk hr)
  rw [hknown, P.state ht hr]
  dsimp only
  split
  · exact rfl
  apply Mirrors.echoes _ ht
  refine Agrees.bind (mirrors_request (.getAttributes hk _)) ?_
  intro w values hw
  replace hr := P.places_later hw hr
  apply mirrors_read_bind
  intro w u u' hw hu
  replace hr := P.places_later hw hr
  apply echoes_exchange
  intro hroomy
  obtain ⟨hheads, hsettle⟩ := alike_settleHeads hu hk hr _ _ _ hroomy
  exact ⟨w, P.next_refl w, hsettle, mirrors_pure fun _ _ => hheads⟩

include hk in
theorem agrees_heads (hashes : List KeyHash) :
    (heads config k hashes).Agrees P (heads config k' hashes) w := by
  apply (mirrors_access hk).bind
  intro v r r' _ hr
  exact agrees_headsWith hk hr hashes

include hk in
theorem agrees_backpointer (offset : Nat) :
    (backpointer config k offset).Agrees P (backpointer config k' offset) w := by
  apply (mirrors_access hk).bind
  intro v r r' _ hr
  apply (agrees_look hr).bind
  intro u s _
  cases s.backpointers[offset]? with
  | some previous => exact agrees_pure _
  | none => exact agrees_attributeOf hk _

include hk in
theorem agrees_visit (mode : ReadMode) (key : Bytes) (offset : Nat) :
    (Walk.visit mode k key offset : Program Tables _).Agrees P (Walk.visit mode k' key offset)
      w := by
  unfold Walk.visit
  refine Agrees.bind (mirrors_request (.read hk _ _)) ?_
  intro _ start _
  apply (agrees_ofExcept _).bind
  intro _ h _
  split
  · exact agrees_pure _
  refine Agrees.bind (mirrors_request (.read hk _ _)) ?_
  intro _ b _
  exact agrees_ofExcept _

include hk in
theorem agrees_findFrom (mode : ReadMode) (key : Bytes) (left hops offset : Nat) :
    (Walk.findFrom mode k (backpointer config k) key left hops offset).Agrees P
      (Walk.findFrom mode k' (backpointer config k') key left hops offset) w := by
  induction left generalizing hops offset w with
  | zero =>
    unfold Walk.findFrom
    apply (agrees_visit hk mode key offset).bind
    intro v answer _
    cases answer with
    | found | removed => exact agrees_pure _
    | other => exact mirrors_fail _
  | succ left ih =>
    unfold Walk.findFrom
    apply (agrees_visit hk mode key offset).bind
    intro v answer _
    cases answer with
    | found | removed => exact agrees_pure _
    | other =>
      apply (agrees_backpointer hk offset).bind
      intro u previous _
      cases previous with
      | none => exact agrees_pure _
      | some x =>
        dsimp only
        split
        · exact ih _ _
        · exact mirrors_fail _

include hk in
theorem agrees_withLocks {α : Type} {p p' : Program Tables α} (hashes : List KeyHash)
    (hp : ∀ v, P.later w v → p.Agrees P p' v) :
    (withLocks (hashes.map (⟨k, ·⟩)) p).Agrees P (withLocks (hashes.map (⟨k', ·⟩)) p') w := by
  unfold withLocks
  apply Agrees.bind
  · apply mirrors_waitUntil
    intro v t t' _ ht
    unfold Locks.free
    rw [List.all_map, List.all_map]
    exact congrArg (fun f => hashes.all f) (funext fun hash => by
      show (!_) = (!_)
      rw [P.locked ht hk hash])
  intro v _ hv
  apply Agrees.bind
  · apply mirrors_modify
    intro u t t' _ ht _
    exact P.take hashes ht hk
  intro u _ hu
  apply (hp u (P.later_trans hv hu)).ensuring
  intro x _
  apply mirrors_modify
  intro _ t t' _ ht _
  exact P.release hashes ht hk

include hk in
theorem agrees_persist (hr : P.places w r r') (batch : PendingLinks) :
    (persist k r batch).Agrees P (persist k' r' batch) w := by
  unfold persist
  apply (agrees_look hr).bind
  intro w s hw
  replace hr := P.places_later hw hr
  apply (agrees_change hr _).bind
  intro w _ hw
  replace hr := P.places_later hw hr
  apply Mirrors.bind
  · exact (mirrors_request (.updateAttributes hk _)).attempt
  intro w outcome outcome' hw houtcome
  replace hr := P.places_later hw hr
  cases houtcome with
  | error e =>
    apply (agrees_change hr _).bind
    intro _ _ _
    exact mirrors_fail e
  | ok h =>
    obtain rfl := h
    apply mirrors_read_bind
    intro w t t' hw ht
    replace hr := P.places_later hw hr
    apply echoes_exchange
    intro hroomy
    have hz : P.alike w ((t, none) : Tables × Option Nat).1 ((t', none) : Tables × Option Nat).1 :=
      ht
    obtain ⟨hmoved, hretire⟩ := alike_retireNext hk hz rfl hr (s.pending ++ [batch]) hroomy
    refine ⟨w, P.next_refl w, hretire, ?_⟩
    have hreport (offset : Nat) := (mirrors_request (w := w)
      (.updateAttributes hk [.replaceIfGreater .indexOffset offset])).attempt
    unfold retireNext at hmoved
    dsimp only at hmoved ⊢
    rw [← hmoved]
    generalize (List.foldl _ (t, (none : Option Nat)) _).2 = moved
    cases moved with
    | none => exact agrees_pure _
    | some offset =>
      apply (hreport offset).bind
      intro _ _ _ _ _
      exact agrees_pure _

include hk in
theorem agrees_linking (hr : P.places w r r') (batch : Batch) (data : Bytes) :
    (linking config k batch (request (.append k data)) r).Agrees P
      (linking config k' batch (request (.append k' data)) r') w := by
  unfold linking
  apply (agrees_headsWith hk hr _).bind
  intro w current hw
  replace hr := P.places_later hw hr
  refine Agrees.bind (mirrors_request (.append hk data)) ?_
  intro w offset hw
  replace hr := P.places_later hw hr
  apply Agrees.bind
  · apply mirrors_modify
    intro v t t' hv ht _
    exact alike_record ht hk (P.places_later hv hr) _
  intro w _ hw
  replace hr := P.places_later hw hr
  split
  · apply (agrees_persist hk hr _).bind
    intro _ _ _
    exact agrees_pure _
  · exact agrees_pure _

include hk in
theorem agrees_update (batch : Batch) (data : Bytes) :
    (update config k batch (request (.append k data))).Agrees P
      (update config k' batch (request (.append k' data))) w := by
  unfold update
  apply agrees_checkIndex.bind
  intro v _ _
  apply agrees_withLocks hk
  intro u _
  apply (mirrors_access hk).bind
  intro x r r' _ hr
  exact agrees_linking hk hr batch data

end Segment

theorem agrees_write (name : String) (kind : RecordKind) (records : List Record) :
    (write config name kind records).Agrees P (write config name kind records) w := by
  unfold write
  apply agrees_checkOpen.bind
  intro _ _ _
  refine Mirrors.bind (mirrors_request (.resolve name)) ?_
  intro v k k' _ hk
  split
  · exact agrees_pure _
  apply (agrees_ofExcept _).bind
  intro u batch _
  apply (agrees_update hk batch _).bind
  intro _ offset _
  exact agrees_pure _

theorem agrees_lookup (mode : ReadMode) (name : String) (keys : List Bytes) :
    (lookup config mode name keys).Agrees P (lookup config mode name keys) w := by
  unfold lookup
  apply agrees_checkOpen.bind
  intro _ _ _
  split
  · exact agrees_pure _
  apply (agrees_ofExcept _).bind
  intro _ hashes _
  refine Mirrors.bind (mirrors_request (.resolve name)) ?_
  intro _ k k' _ hk
  apply (agrees_heads hk _).bind
  intro v heads _
  apply mirrors_mapM
  intro u e _
  dsimp only
  split
  · exact agrees_findFrom hk mode _ _ _ _
  · exact agrees_pure _

theorem agrees_create (name : String) : (create name).Agrees P (create name) w := by
  apply agrees_checkOpen.bind
  intro _ _ _
  exact mirrors_ask (.create name _)

theorem agrees_delete (name : String) (mustBeEmpty : Bool) :
    (delete name mustBeEmpty).Agrees P (delete name mustBeEmpty) w := by
  cases mustBeEmpty with
  | true => exact mirrors_fail _
  | false =>
    apply agrees_checkOpen.bind
    intro _ _ _
    refine Mirrors.bind (mirrors_request (.resolve name)) ?_
    intro _ k k' _ hk
    refine Agrees.bind (mirrors_request (.delete name)) ?_
    intro _ _ _
    apply mirrors_modify
    intro _ t t' _ ht _
    exact alike_notify ht hk none

end Tables
end KeyedLog
