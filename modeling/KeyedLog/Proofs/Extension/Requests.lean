import KeyedLog.Proofs.Operation.Engaged
import KeyedLog.Proofs.Program.Stages

/-! What extensions are asked for, on tables or not, and what all of that leaves as it is: closed
extensions, indexes and watermarks stay closed, and a closed index tracks nothing new. -/
namespace KeyedLog

open Program

/-- What an extension may be asked for, and what indexers do. -/
inductive Request where
  | table (name : String) (op : Operation)
  | create (name : String)
  | delete (name : String) (mustBeEmpty : Bool)
  | connect (name : String)
  | prepare
  | unsupported (operation : String)
  | notify (segment : Nat) (offset : Option Nat)

namespace Request

def program (config : Config) : Request → Program Tables (Option Reply)
  | .table name op => some <$> op.program config name
  | .create name => (fun _ => none) <$> Tables.create name
  | .delete name mustBeEmpty => (fun _ => none) <$> Tables.delete name mustBeEmpty
  | .connect name => (fun _ => none) <$> Connector.ofTable? name
  | .prepare => (fun _ => none) <$> Tables.prepare
  | .unsupported operation => (fun _ => none) <$> Tables.unsupported operation
  | .notify segment offset => (fun _ => none) <$> modify (·.notify segment offset)

end Request

namespace Tables

/-- What those leave as it is who do not begin to track a segment. -/
structure Stays (t u : Tables) : Prop where
  closed : u.closed = t.closed
  indexClosed : u.indexClosed = t.indexClosed
  tracked : u.tracked = t.tracked
  size : u.states.size = t.states.size
  let_go : ∀ {ref : Nat}, (t.state ref).watermark.closed = true →
    (u.state ref).watermark.closed = true

def Placed (t : Tables) : Prop :=
  ∀ {segment ref : Nat}, t.tracked[segment]? = some ref → ref < t.states.size

structure Lasts (t u : Tables) : Prop where
  closed : u.closed = t.closed
  indexClosed : u.indexClosed = t.indexClosed
  placed : t.Placed → u.Placed
  untracked : ∀ {segment : Nat}, t.indexClosed = true → t.tracked[segment]? = none →
    u.tracked[segment]? = none
  let_go : ∀ {ref : Nat}, (t.state ref).watermark.closed = true →
    (u.state ref).watermark.closed = true

variable {t u v : Tables} {config : Config} {segment ref : Nat}

theorem Stays.lasts (h : t.Stays u) : t.Lasts u where
  closed := h.closed
  indexClosed := h.indexClosed
  placed ht := by
    intro segment ref href
    rw [h.tracked] at href
    exact h.size ▸ ht href
  untracked _ hn := h.tracked ▸ hn
  let_go := h.let_go

theorem Lasts.refl (t : Tables) : t.Lasts t := ⟨rfl, rfl, id, fun _ => id, id⟩

theorem Lasts.trans (h : t.Lasts u) (h' : u.Lasts v) : t.Lasts v where
  closed := h'.closed.trans h.closed
  indexClosed := h'.indexClosed.trans h.indexClosed
  placed ht := h'.placed (h.placed ht)
  untracked hc hn := h'.untracked (h.indexClosed.trans hc) (h.untracked hc hn)
  let_go hl := h'.let_go (h.let_go hl)

theorem stays_modifyState (t : Tables) (ref : Nat) {f : SegmentState → SegmentState}
    (hf : (t.state ref).watermark.closed = true →
      (f (t.state ref)).watermark.closed = true) : t.Stays (t.modifyState ref f) where
  closed := rfl
  indexClosed := rfl
  tracked := rfl
  size := by simp [modifyState]
  let_go {other} h := by
    unfold state modifyState at *
    rw [Array.getElem?_modify]
    split
    · next he =>
      subst he
      cases hs : t.states[ref]? with
      | none =>
        rw [hs] at h
        cases h
      | some s =>
        rw [hs] at h hf
        exact hf h
    · exact h

theorem stays_cache (t : Tables) (cache : Cache) : t.Stays { t with cache } :=
  ⟨rfl, rfl, rfl, rfl, id⟩

theorem stays_locks (t : Tables) (locks : Locks) : t.Stays { t with locks } :=
  ⟨rfl, rfl, rfl, rfl, id⟩

theorem Stays.trans (h : t.Stays u) (h' : u.Stays v) : t.Stays v where
  closed := h'.closed.trans h.closed
  indexClosed := h'.indexClosed.trans h.indexClosed
  tracked := h'.tracked.trans h.tracked
  size := h'.size.trans h.size
  let_go hl := h'.let_go (h.let_go hl)

/-- An index that is not closed begins to track a segment. -/
theorem lasts_track (ht : t.indexClosed = false) (segment : Nat) : t.Lasts (t.track segment).1 := by
  unfold track
  cases hn : t.tracked[segment]? with
  | some ref => exact .refl t
  | none =>
    refine ⟨rfl, rfl, fun hp => ?_, fun hc => ?_, fun {ref} h => ?_⟩
    · intro k ref href
      change (t.tracked.insert segment t.states.size)[k]? = some ref at href
      change ref < (t.states.push .initial).size
      rw [Array.size_push]
      rw [Std.ExtTreeMap.getElem?_insert] at href
      split at href
      · obtain rfl := Option.some.inj href
        exact Nat.lt_succ_self _
      · exact Nat.lt_succ_of_lt (hp href)
    · rw [ht] at hc
      cases hc
    · change ((t.states.push .initial)[ref]?.getD .initial).watermark.closed = true
      unfold state at h
      rw [Array.getElem?_push]
      split
      · next he =>
        rw [he, Array.getElem?_eq_none (Nat.le_refl _)] at h
        cases h
      · exact h

/-- A notice that comes in brings nothing back. -/
theorem lasts_notify (t : Tables) (segment : Nat) (offset : Option Nat) :
    t.Lasts (t.notify segment offset) := by
  cases offset with
  | some offset =>
    unfold notify
    dsimp only
    split
    · next ref _ =>
      have hraise : t.Stays (t.raise ref offset) :=
        stays_modifyState t ref (Watermark.closed_raise offset).trans
      have hprune : (t.raise ref offset).Stays
          ((t.raise ref offset).modifyState ref (·.prune offset)) :=
        stays_modifyState _ ref id
      exact (hraise.trans hprune).lasts
    · exact .refl t
  | none =>
    have herase {k : Nat} : (t.tracked.erase segment)[k]? = none ∨
        (t.tracked.erase segment)[k]? = t.tracked[k]? := by
      rw [Std.ExtTreeMap.getElem?_erase]
      split
      · exact .inl rfl
      · exact .inr rfl
    refine ⟨rfl, rfl, fun hp => ?_, fun {k} _ hn => ?_, id⟩
    · intro k ref href
      rcases herase (k := k) with h | h
      · exact absurd (h.symm.trans href) (by simp)
      · exact hp (h.symm.trans href)
    · rcases herase (k := k) with h | h
      · exact h
      · exact h.trans hn

/-- A kind of change that adds up, and to which all belongs that is done to the states of segments
and to the cache. -/
structure Mild (I : Tables → Tables → Prop) : Prop where
  trans : ∀ {t u v}, I t u → I u v → I t v
  cache : ∀ (t : Tables) (cache : Cache), I t { t with cache }
  modifyState : ∀ (t : Tables) (ref : Nat) {f : SegmentState → SegmentState},
    ((t.state ref).watermark.closed = true → (f (t.state ref)).watermark.closed = true) →
      I t (t.modifyState ref f)

/-- A kind of change to which all belongs that is done without locks. -/
structure Usual (I : Tables → Tables → Prop) : Prop extends Mild I where
  track : ∀ {t : Tables}, t.indexClosed = false → ∀ segment : Nat, I t (t.track segment).1
  notify : ∀ (t : Tables) (segment : Nat) (offset : Option Nat), I t (t.notify segment offset)

theorem mild_stays : Mild Stays := ⟨Stays.trans, stays_cache, stays_modifyState⟩

theorem usual_lasts : Usual Lasts where
  trans := Lasts.trans
  cache t cache := (stays_cache t cache).lasts
  modifyState t ref _ hf := (stays_modifyState t ref hf).lasts
  track := lasts_track
  notify := lasts_notify

section Makes

def Unwritten (q : Call) : Prop := ¬q.Appends

variable {σ α : Type} {I : Tables → Tables → Prop} {C : Call → Prop}

theorem makes_of_inquires {p : Program Tables α} (hp : p.Inquires "" segment) :
    p.Makes I Unwritten t := by
  refine hp.makes fun q hq => ?_
  cases q with
  | append => exact hq.elim
  | resolve | create | delete | read | getAttributes | updateAttributes | length => exact id

theorem makes_checkOpen : checkOpen.Makes I C t := by
  change (ite _ _ _ : Program Tables Unit).Makes I C t
  split <;> trivial

theorem makes_checkIndex : checkIndex.Makes I C t := by
  change (ite _ _ _ : Program Tables Unit).Makes I C t
  split <;> trivial

section Mild

variable (hI : Mild I)
include hI

theorem Mild.raise (t : Tables) (ref offset : Nat) : I t (t.raise ref offset) :=
  hI.modifyState t ref (Watermark.closed_raise offset).trans

theorem makes_change {f : SegmentState → SegmentState}
    (hf : ∀ s, s.watermark.closed = true → (f s).watermark.closed = true) :
    (change ref f).Makes I C t :=
  makes_modify fun t => hI.modifyState t ref (hf _)

theorem makes_indexRange (start stop : Nat) :
    (indexRange config segment start stop).Makes I Unwritten t := by
  rw [indexRange_eq]
  refine Makes.bind ?_ fun links t => ?_
  · exact makes_of_inquires (inquires_rangeLinks start stop)
  · apply Makes.bind (makes_request id)
    exact fun _ _ => makes_modify fun t => hI.cache t _

theorem makes_recover : (recover config segment ref).Makes I Unwritten t := by
  have hstate (t : Tables) : (recoverState config segment ref).Makes I Unwritten t := by
    unfold recoverState
    refine Makes.bind trivial fun s t => ?_
    split
    · trivial
    refine Makes.bind ?_ fun persisted t => Makes.bind (makes_ask id) fun length t => ?_
    · exact makes_of_inquires (inquires_attributeOf .indexOffset)
    refine (makes_modify fun t => hI.raise t ref _).bind fun _ t => ?_
    have hend (t : Tables) : (change ref ({ · with recovered := some length }) >>= fun _ =>
        pure length).Makes I Unwritten t := by
      apply Makes.bind
      · exact makes_change hI fun _ h => h
      · exact fun _ _ => trivial
    split
    · split
      · refine (makes_indexRange hI _ _).bind fun _ t => ?_
        exact (makes_modify fun t => hI.raise t ref _).bind fun _ => hend
      · exact hend t
    · exact hend t
  unfold recover
  apply Makes.bind
  · intro met t
    cases met <;> trivial
  intro _ t
  apply Makes.bind
  · exact makes_change hI fun _ h => h
  · exact fun _ t => (hstate t).ensuring fun _ => makes_change hI fun _ h => h

end Mild

theorem makes_awaitWatermark (target : Nat) : (awaitWatermark ref target).Makes I C t := by
  refine (makes_waitUntil _).bind fun _ t => ?_
  change (ite _ _ _ : Program Tables Unit).Makes I C t
  split <;> trivial

/-- Let in by the index, an operation first accounts for old entries, unless that is done, and then
waits until they are indexed. -/
def admission (config : Config) (segment ref : Nat) (known : Option Nat) : Program Tables Unit := do
  let target ← match known with
    | some length => pure length
    | none => recover config segment ref
  awaitWatermark ref target

theorem makes_admission (hI : Mild I) (known : Option Nat) :
    (admission config segment ref known).Makes I Unwritten t := by
  cases known with
  | some length => exact makes_awaitWatermark length
  | none => exact (makes_recover hI).bind fun target _ => makes_awaitWatermark target

theorem access_eq : access config segment = (do
    checkIndex
    let (t, ref) := (← Program.read).track segment
    Program.modify fun _ => t
    admission config segment ref (t.state ref).recovered
    return ref) := by
  unfold access admission
  refine congrArg (checkIndex >>= ·) (funext fun _ => congrArg (Program.read >>= ·) ?_)
  funext t
  obtain ⟨u, ref⟩ := t.track segment
  refine congrArg ((Program.modify fun _ => u) >>= ·) (funext fun _ => ?_)
  cases (u.state ref).recovered with
  | some length => rfl
  | none => exact (bind_assoc ..).symm

theorem makes_access (hI : Usual I) : (access config segment).Makes I Unwritten t := by
  rw [access_eq]
  change ((ite _ _ _ : Program Tables Unit).bind _).Makes I Unwritten t
  split
  · trivial
  · next ht =>
    refine ⟨hI.track (Bool.eq_false_iff.2 ht) segment, ?_⟩
    change (admission config segment _ _ >>= fun _ => pure _).Makes I Unwritten _
    exact (makes_admission hI.toMild _).bind fun _ _ => trivial

theorem Mild.settleHeads (hI : Mild I) (generation : Nat) (t : Tables) (heads : Heads)
    (persisted : List (KeyHash × Option Nat)) :
    I t (settleHeads segment ref generation t heads persisted).1 := by
  have hone (t : Tables) (hash : KeyHash) (value : Option Nat) :
      I t (settleHead t segment ref generation hash value).1 := by
    unfold settleHead
    dsimp only
    split
    · split
      · exact hI.cache t _
      · exact hI.cache t t.cache
    · exact hI.cache t t.cache
  unfold Tables.settleHeads
  induction persisted generalizing t heads with
  | nil => exact hI.cache t t.cache
  | cons e l ih =>
    rw [List.foldl_cons]
    refine hI.trans (hone t e.1 e.2) ?_
    dsimp only
    split
    · next h => exact h ▸ ih _ _
    · next h => exact h ▸ ih _ _

theorem makes_headsWith (hI : Mild I) (hashes : List KeyHash) :
    (headsWith segment ref hashes).Makes I Unwritten t := by
  unfold headsWith
  refine Makes.bind trivial fun s t => ?_
  dsimp only
  split
  · trivial
  · refine Makes.bind (makes_request id) fun values t => ?_
    exact ⟨hI.settleHeads .., trivial⟩

theorem makes_backpointer (hI : Usual I) (offset : Nat) :
    (backpointer config segment offset).Makes I Unwritten t := by
  unfold backpointer
  refine (makes_access hI).bind fun ref t => Makes.bind trivial fun s t => ?_
  split
  · trivial
  · exact makes_of_inquires (inquires_attributeOf _)

theorem makes_visit (mode : ReadMode) (key : Bytes) (offset : Nat) :
    (Walk.visit mode segment key offset : Program Tables _).Makes I Unwritten t :=
  makes_of_inquires (Walk.inquires_visit mode key offset)

theorem makes_findFrom (hI : Usual I) (mode : ReadMode) (key : Bytes) (left hops offset : Nat) :
    (Walk.findFrom mode segment (backpointer config segment) key left hops offset).Makes I
      Unwritten t := by
  induction left generalizing hops offset t with
  | zero =>
    unfold Walk.findFrom
    refine (makes_visit mode key offset).bind fun a t => ?_
    cases a <;> trivial
  | succ left ih =>
    unfold Walk.findFrom
    refine (makes_visit mode key offset).bind fun a t => ?_
    cases a with
    | found | removed => trivial
    | other =>
      refine (makes_backpointer hI offset).bind fun p t => ?_
      cases p with
      | none => trivial
      | some y =>
        dsimp only
        split
        · exact ih _ _
        · trivial

theorem makes_lookup (hI : Usual I) (mode : ReadMode) (name : String) (keys : List Bytes) :
    (lookup config mode name keys).Makes I Unwritten t := by
  unfold lookup
  refine makes_checkOpen.bind fun _ t => ?_
  split
  · trivial
  refine (makes_ofExcept _).bind fun hashes t => Makes.bind (makes_request id) fun segment t => ?_
  have hheads (t : Tables) : (heads config segment hashes.eraseDups).Makes I Unwritten t :=
    (makes_access hI).bind fun ref t => makes_headsWith hI.toMild _
  refine (hheads t).bind fun heads t => ?_
  induction keys.zip hashes generalizing t with
  | nil => trivial
  | cons e l ih =>
    obtain ⟨key, hash⟩ := e
    rw [List.mapM_cons]
    refine Makes.bind ?_ fun _ t => (ih t).bind fun _ _ => trivial
    dsimp only
    split
    · exact makes_findFrom hI mode _ _ _ _
    · trivial

theorem makes_withLocks (hlocks : ∀ t locks, I t { t with locks }) {bs : List Bucket}
    {p : Program Tables α} (hp : ∀ t, p.Makes I C t) : (withLocks bs p).Makes I C t := by
  have hmodify (f : Tables → Locks) (t : Tables) :
      (Program.modify fun t => { t with locks := f t }).Makes I C t :=
    makes_modify fun t => hlocks t _
  unfold withLocks
  refine (makes_waitUntil _).bind fun _ t => (hmodify _ t).bind fun _ t => ?_
  exact (hp t).ensuring (hmodify _)

theorem Mild.retireAll (hI : Mild I) (t : Tables) (bs : List PendingLinks) :
    I t (retireAll segment ref t bs).1 := by
  have hone (t : Tables) (b : PendingLinks) : I t (retire segment ref t b).1 := by
    refine hI.trans (hI.modifyState t ref ?_) (hI.cache _ _)
    exact (Watermark.closed_complete _ _).trans
  unfold Tables.retireAll
  generalize hm : (none : Option Nat) = moved
  clear hm
  induction bs generalizing t moved with
  | nil => exact hI.cache t t.cache
  | cons b bs ih =>
    rw [List.foldl_cons]
    exact hI.trans (hone t b) (ih _ _)

theorem makes_persist (hI : Mild I) (batch : PendingLinks) :
    (persist segment ref batch).Makes I Unwritten t := by
  unfold persist
  refine Makes.bind trivial fun s t => ?_
  apply Makes.bind
  · exact makes_change hI fun _ h => h
  intro _ t
  refine Makes.bind (Makes.attempt (makes_request id)) fun r t => ?_
  cases r with
  | error e =>
    apply Makes.bind
    · exact makes_change hI fun _ h => h
    · exact fun _ _ => trivial
  | ok _ =>
    refine Makes.bind (p := .get fun _ => .set _ (.ret ())) ⟨hI.retireAll t _, trivial⟩
      fun _ t => ?_
    split
    · trivial
    · exact Makes.bind (Makes.attempt (makes_request id)) fun _ _ => trivial

section Update

variable {commit : Program Tables Nat} (hcommit : ∀ t, commit.Makes I C t)
  (hC : ∀ q, Unwritten q → C q)
include hcommit hC

theorem makes_linking (hI : Mild I) (batch : Batch) :
    (linking config segment batch commit ref).Makes I C t := by
  have hrecord (links : Links) (t : Tables) : I t (record segment ref links t) :=
    hI.trans (hI.modifyState t ref id) (hI.cache _ _)
  unfold linking
  apply Makes.bind
  · exact (makes_headsWith hI _).mono (fun _ _ => id) hC
  refine fun heads t => (hcommit t).bind fun offset t => ?_
  refine (makes_modify (hrecord _)).bind fun _ t => ?_
  split
  · refine Makes.bind ?_ fun _ _ => trivial
    exact (makes_persist hI _).mono (fun _ _ => id) hC
  · trivial

theorem makes_update (hI : Usual I) (hlocks : ∀ t locks, I t { t with locks }) (batch : Batch) :
    (update config segment batch commit).Makes I C t := by
  unfold update
  refine makes_checkIndex.bind fun _ t => makes_withLocks hlocks fun t => ?_
  apply Makes.bind
  · exact (makes_access hI).mono (fun _ _ => id) hC
  · exact fun ref t => makes_linking hcommit hC hI.toMild batch

end Update

theorem makes_write (name : String) (kind : RecordKind) (rs : List Record) :
    (write config name kind rs).Makes Lasts (fun _ => True) t := by
  unfold write
  refine makes_checkOpen.bind fun _ t => Makes.bind (makes_request trivial) fun segment t => ?_
  split
  · trivial
  refine (makes_ofExcept _).bind fun batch t => Makes.bind ?_ fun _ _ => trivial
  exact makes_update (fun _ => makes_request trivial) (fun _ _ => trivial) usual_lasts
    (fun t locks => (stays_locks t locks).lasts) batch

end Makes

end Tables

namespace Request

variable {config : Config} {t : Tables}

theorem makes_index {I : Tables → Tables → Prop} (hI : Tables.Usual I) (connector : Connector)
    (limit : Option Nat) :
    (Indexer.runWithin config connector limit).Makes I Tables.Unwritten t := by
  have hlink (segment : Nat) (rs : List Scanned) (heads : Heads) (t : Tables) :
      (Indexer.linkEntries config segment heads rs).Makes I Tables.Unwritten t := by
    induction rs generalizing heads t with
    | nil => trivial
    | cons r rs ih =>
      unfold Indexer.linkEntries
      refine Makes.bind ?_ fun e t => (ih _ t).bind fun _ _ => trivial
      unfold Indexer.linkEntry
      refine (makes_ofExcept _).bind fun hash t => ?_
      split
      · trivial
      · exact Makes.bind (makes_ask id) fun _ _ => trivial
  unfold Indexer.runWithin
  refine Makes.bind (makes_ask id) fun segment t => Makes.bind (makes_ask id) fun values t =>
    Makes.bind (makes_ask id) fun length t => ?_
  dsimp only
  split
  · trivial
  refine Makes.bind (makes_ask id) fun data t => (hlink _ _ _ t).bind fun links t =>
    (makes_ofExcept _).bind fun _ t => Makes.bind (makes_ask id) fun _ t => ?_
  exact (makes_modify fun t => hI.notify t _ _).bind fun _ _ => trivial

def Reads : Request → Prop
  | .table _ (.put _) | .table _ (.remove _) => False
  | _ => True

/-- Nothing but a write appends, or locks anything. -/
theorem makes_of_reads {I : Tables → Tables → Prop} (hI : Tables.Usual I) {r : Request}
    (hr : r.Reads) : (r.program config).Makes I Tables.Unwritten t := by
  cases r with
  | table name op =>
    cases op with
    | put | remove => exact hr.elim
    | get keys =>
      have h : (Tables.get config name keys).Makes I Tables.Unwritten t :=
        (Tables.makes_lookup hI ..).bind fun _ _ => trivial
      exact h.map _ |>.map _
    | getKeys keys =>
      have h : (Tables.getKeys config name keys).Makes I Tables.Unwritten t :=
        (Tables.makes_lookup hI ..).bind fun _ _ => trivial
      exact h.map _ |>.map _
    | index connector limit => exact (makes_index hI connector limit).map _ |>.map _
  | create name => exact (Tables.makes_checkOpen.bind fun _ _ => makes_ask id).map _
  | delete name mustBeEmpty =>
    apply Makes.map
    cases mustBeEmpty with
    | true => trivial
    | false =>
      refine Tables.makes_checkOpen.bind fun _ t => Makes.bind (makes_request id) fun segment t =>
        Makes.bind (makes_request id) fun _ t => ?_
      exact makes_modify fun t => hI.notify t _ _
  | connect name =>
    apply Makes.map
    refine Tables.makes_checkOpen.bind fun _ t => Makes.bind (makes_request id) fun segment t => ?_
    refine Makes.bind ?_ fun offset t => ?_
    · exact Tables.makes_of_inquires (Tables.inquires_attributeOf _)
    cases offset with
    | none => trivial
    | some _ => exact Makes.bind (makes_ask id) fun _ _ => trivial
  | prepare => exact Tables.makes_checkOpen.map _
  | unsupported operation =>
    have h : (Tables.unsupported operation).Makes I Tables.Unwritten t :=
      Tables.makes_checkOpen.bind fun _ _ => trivial
    exact h.map _
  | notify segment offset => exact (makes_modify fun t => hI.notify t segment offset).map _

/-- Nothing but a write appends, and nothing undoes the closing of what is closed. -/
theorem makes (r : Request) :
    (r.program config).Makes Tables.Lasts (fun q => r.Reads → Tables.Unwritten q) t := by
  by_cases hr : r.Reads
  · exact (makes_of_reads Tables.usual_lasts hr).mono (fun _ _ => id) fun _ h _ => h
  have hwrite (name : String) (kind : RecordKind) (rs : List Record) :
      (Tables.write config name kind rs).Makes Tables.Lasts (fun q => r.Reads → Tables.Unwritten q)
        t := (Tables.makes_write ..).mono (fun _ _ => id) fun _ _ h => absurd h hr
  cases r with
  | table name op =>
    cases op with
    | put entries => exact (hwrite ..).map _ |>.map _
    | remove keys => exact Makes.map _ (Makes.map _ ((hwrite ..).bind fun _ _ => trivial))
    | get | getKeys | index => exact absurd trivial hr
  | create | delete | connect | prepare | unsupported | notify => exact absurd trivial hr

end Request
end KeyedLog
