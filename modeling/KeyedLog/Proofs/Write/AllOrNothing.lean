import KeyedLog.Proofs.Alone.QueryOutcome
import KeyedLog.Proofs.Run.Reachable
import KeyedLog.Proofs.Write.AppendLast

/-! Writes that fail: either nothing came of them, or all that they were to append is there and is
found. -/
namespace KeyedLog

open Program

def Call.Persists (segment : Nat) (q : Call) : Prop := ∃ us, q = .updateAttributes segment us

namespace Outlook

open Tables

variable {O : Outlook} {calm : Prop} {i ref : Nat} {w v : World Tables Unit} {a : Attributes}
  {s : SegmentState} {rs : List Record} {Q : World Tables Unit → Prop}
  {E : TableError → World Tables Unit → Prop}

/-- All of some records are there, and nothing else is new. -/
def Grown (O : Outlook) (rs : List Record) (w : World Tables Unit) : Prop :=
  Log.Wellformed O.config.hasher rs ∧ ∃ a, w.container.Shows O.name O.segment (O.log ++ rs) a

def Outcome (O : Outlook) (rs : List Record) (w : World Tables Unit) : Prop :=
  O.Spared w ∨ O.Grown rs w

theorem Outcome.near (hv : Near w v) (h : O.Outcome rs w) : O.Outcome rs v := by
  obtain ⟨cache, hcache⟩ := hv.state
  rcases h with ⟨a, hshows, hs⟩ | ⟨hwf, a, hshows⟩
  · refine .inl ⟨a, hv.container ▸ hshows, ?_⟩
    rw [hcache]
    exact hs
  · exact .inr ⟨hwf, a, hv.container ▸ hshows⟩

/-- Nobody is at work on the segment, and nothing came of what was tried so far. -/
structure Prepared (O : Outlook) (w : World Tables Unit) : Prop where
  spared : O.Spared w
  opened : w.state.closed = false
  indexOpened : w.state.indexClosed = false
  place : ∀ ref, w.state.tracked[O.segment]? = some ref → ref < w.state.states.size
  idle : (w.state.memory O.segment).recovering = false

theorem Near.prepared (hv : Near w v) (h : O.Prepared w) : O.Prepared v := by
  obtain ⟨c, t, ⟨⟩⟩ := v
  obtain ⟨cache, hcache⟩ := hv.state
  obtain rfl : t = { w.state with cache } := hcache
  obtain ⟨a, hshows, hs⟩ := h.spared
  exact ⟨⟨a, hv.container ▸ hshows, hs⟩, h.opened, h.indexOpened, h.place, h.idle⟩

theorem near_cached (w : World Tables Unit) (cache : Cache) :
    Near w ⟨w.container, { w.state with cache }, w.ghost⟩ := ⟨rfl, cache, rfl⟩

theorem shows_of_looks {c : Container} {q : Call} (hc : c.Shows O.name O.segment O.log a)
    (hq : q.Looks) (fate : Fate) : (c.serve q fate).1.Shows O.name O.segment O.log a := by
  have hu : O.toSite.Unread c (c.serve q fate).1 := Site.unread_of_serve hc.resolve hq fate
  exact ⟨hu.resolve.trans hc.resolve, hu.data.trans hc.data, hu.attributes.trans hc.attributes⟩

theorem steady_prepared : (O.lone calm i Q).Steady i O.Prepared where
  inv _ := trivial
  tidy _ := trivial
  go hw _ hv := (hv rfl).prepared hw
  look hw hq fate := by
    obtain ⟨a, hshows, hs⟩ := hw.spared
    exact ⟨⟨⟨a, shows_of_looks hshows hq fate, hs⟩, hw.opened, hw.indexOpened, hw.place, hw.idle⟩,
      rfl⟩
  cached hw cache := ⟨(near_cached _ cache).prepared hw, rfl⟩

theorem steady_at : (O.lone calm i Q).Steady i (O.At ref a s) where
  inv _ := trivial
  tidy _ := trivial
  go hw _ hv := hw.near (hv rfl)
  look hw hq fate := ⟨hw.serve (shows_of_looks hw.shows hq fate), rfl⟩
  cached hw cache := ⟨hw.near (near_cached _ cache), rfl⟩

/-- Once all is appended nothing is taken back. -/
theorem lone_grown {α : Type} {p : Program Tables α} (hc : ¬calm)
    (hp : p.Calls (Call.Persists O.segment)) (hw : O.Grown rs w) :
    p.Obeys (O.lone calm i Q) i (fun _ => O.Grown rs) (fun _ => O.Grown rs) w := by
  have hnear {w v : World Tables Unit} (hw : O.Grown rs w) (hv : Near w v) : O.Grown rs v := by
    obtain ⟨hwf, a, hshows⟩ := hw
    exact ⟨hwf, a, hv.container ▸ hshows⟩
  have hlapse : (O.lone calm i Q).lapses := fun h => absurd h hc
  induction p generalizing w with
  | ret | fail => exact hw
  | get k ih => exact ih w.state (hp _) hw
  | set t k ih => exact ⟨(), ⟨trivial, rfl⟩, ih hp hw⟩
  | await b ready k ih =>
    refine ⟨trivial, fun v _ hv => ?_⟩
    have hv := hnear hw (hv rfl)
    exact ⟨fun _ => ih true (hp true) hv, fun _ => ⟨hlapse, fun _ => ih false (hp false) hv⟩⟩
  | clock k ih =>
    refine ⟨trivial, fun v _ hv => ?_⟩
    have hv := hnear hw (hv rfl)
    exact ⟨ih true (hp true) hv, fun _ => ih false (hp false) hv⟩
  | pause n k ih => exact ⟨trivial, fun v _ hv => ih hp (hnear hw (hv rfl))⟩
  | call q k ih =>
    refine ⟨trivial, fun v _ hv fate _ => ⟨(), ⟨trivial, rfl⟩, fun u _ hu => ?_⟩⟩
    obtain ⟨hwf, a, hshows⟩ := hnear hw (hv rfl)
    obtain ⟨us, rfl⟩ := hp.1
    obtain ⟨c, hperform, hshows'⟩ := hshows.performs_updateAttributes us
    have hserve : (v.container.serve (.updateAttributes O.segment us) fate).1 = c ∨
        (v.container.serve (.updateAttributes O.segment us) fate).1 = v.container := by
      cases fate with
      | served | lost => exact .inl (congrArg Prod.fst hperform)
      | refused => exact .inr rfl
    refine ih _ (hp.2 _) (hnear ?_ (hu rfl))
    unfold Grown
    dsimp only
    obtain hserve | hserve := hserve
    · exact ⟨hwf, _, hserve.symm ▸ hshows'⟩
    · rw [hserve]
      exact ⟨hwf, a, hshows⟩

theorem lone_append {K : Nat → World Tables Unit → Prop}
    (hwf : Log.Wellformed O.config.hasher rs) (h : O.At ref a s w)
    (hK : ∀ n v, O.Grown rs v → K n v) (hE : ∀ e v, O.At ref a s v → E e v) :
    (request (.append O.segment (Record.encodeAll recordChecksum rs)) : Program Tables Nat).Obeys
      (O.lone calm i Q) i K E w := by
  have hserve (c : Container) (hc : c.Shows O.name O.segment O.log a) : ∃ c' answer,
      c.perform (.append O.segment (Record.encodeAll recordChecksum rs)) = (c', .ok answer) ∧
        c'.Shows O.name O.segment (O.log ++ rs) a := by
    obtain ⟨c', hp, hc'⟩ := hc.performs_append rs
    exact ⟨c', Log.size O.log, hp, hc'⟩
  refine lone_request h hserve (fun n v hv => hK n v ⟨hwf, a, hv.shows⟩) (fun e v _ hlost _ => ?_)
    fun e v hv _ => hE e v hv
  exact absurd rfl (hlost e O.segment _ rfl)

/-- A write that breaks off before its append changes nothing, and afterwards takes nothing back. -/
theorem lone_update {batch : Batch} (hc : ¬calm) (hwf : Log.Wellformed O.config.hasher rs)
    (hw : O.Prepared w) :
    (update O.config O.segment batch
      (request (.append O.segment (Record.encodeAll recordChecksum rs)))).Obeys
      (O.lone calm i (O.Outcome rs)) i (fun _ => O.Outcome rs) (fun _ => O.Outcome rs) w := by
  have hspared {e : TableError} {w : World Tables Unit} (hw : O.Prepared w) : O.Outcome rs w :=
    .inl hw.spared
  unfold update
  refine (obeys_bind _ _ _ _).2 ((Rules.obeys_checkIndex hw).mono (fun _ w hw => ?_)
    fun e w hw => hspared (e := e) hw)
  unfold withLocks
  refine (obeys_bind _ _ _ _).2 ((obeys_waitUntil _ _).2 ⟨trivial, fun v _ hv => ?_⟩)
  have hv := (hv rfl).prepared hw
  refine ⟨fun _ => ?_, fun _ => ⟨fun h => absurd h hc, fun _ => .inl hv.spared⟩⟩
  refine (obeys_bind _ _ _ _).2 (lone_modify ?_)
  have hv : O.Prepared ⟨v.container, { v.state with
      locks := v.state.locks.take (batch.hashes.map (⟨O.segment, ·⟩)) }, ()⟩ :=
    ⟨hv.spared, hv.opened, hv.indexOpened, hv.place, hv.idle⟩
  -- To release the locks is nothing to the segment.
  have hrelease {K : Unit → World Tables Unit → Prop} {u : World Tables Unit}
      (hu : O.Outcome rs u)
      (hK : ∀ v, O.Outcome rs v → K () v) :
      (Program.modify fun t : Tables => { t with
        locks := t.locks.release (batch.hashes.map (⟨O.segment, ·⟩)) }).Obeys
        (O.lone calm i (O.Outcome rs)) i K (fun _ => O.Outcome rs) u :=
    lone_modify (hK _ hu)
  rw [obeys_ensuring]
  have hinner : (do
      let ref ← access O.config O.segment
      let current ← headsWith O.segment ref batch.hashes
      let offset : Nat ← request (.append O.segment (Record.encodeAll recordChecksum rs))
      let links := Links.ofBatch batch offset current
      Program.modify (record O.segment ref links)
      if O.config.mode = .inline then persist O.segment ref ⟨links, offset, batch.length⟩
      return offset : Program Tables Nat).Obeys (O.lone calm i (O.Outcome rs)) i
        (fun _ => O.Outcome rs) (fun _ => O.Outcome rs)
        ⟨v.container, { v.state with
          locks := v.state.locks.take (batch.hashes.map (⟨O.segment, ·⟩)) }, ()⟩ := by
    refine (obeys_bind _ _ _ _).2 ?_
    refine (lone_access hv.spared hv.indexOpened hv.opened hv.place hv.idle).mono ?_
      fun e u hu => .inl hu.1
    rintro ref u ⟨a, s, hat, hs, -⟩
    have hspared {x : World Tables Unit} (hx : O.At ref a s x) : O.Outcome rs x :=
      .inl ⟨a, hx.shows, hx.keeps.memory ▸ hs⟩
    refine (obeys_bind _ _ _ _).2 ?_
    refine (steady_at.looks hat (looks_headsWith batch.hashes)).mono (fun heads x hx => ?_)
      fun e x hx => hspared hx
    refine (obeys_bind (request (.append O.segment _)) _ _ _).2 ?_
    refine lone_append hwf hx (fun offset x hx => ?_) fun e x hx => hspared hx
    have hcalls : (do
        Program.modify (record O.segment ref (Links.ofBatch batch offset heads))
        if O.config.mode = .inline then
          persist O.segment ref ⟨Links.ofBatch batch offset heads, offset, batch.length⟩
        return offset : Program Tables Nat).Calls (Call.Persists O.segment) := by
      refine Calls.bind (fun _ => trivial) fun _ => ?_
      split
      · exact Calls.bind (p := persist O.segment ref _) (calls_persist (fun us => ⟨us, rfl⟩) ref _)
          fun _ => trivial
      · trivial
    exact (lone_grown hc hcalls hx).mono (fun _ _ h => .inr h) fun _ _ h => .inr h
  refine hinner.mono (fun n u hu => ?_) fun e u hu => ?_
  · exact hrelease hu fun _ hv => hv
  · exact hrelease hu fun _ hv => hv

theorem lone_write {kind : RecordKind} (hc : ¬calm) (hw : O.Prepared w) :
    (write O.config O.name kind rs).Obeys (O.lone calm i (O.Outcome rs)) i
      (fun _ => O.Outcome rs) (fun _ => O.Outcome rs) w := by
  have hname {w : World Tables Unit} (hw : O.Prepared w) :
      w.container.resolve O.name = .ok O.segment := by
    obtain ⟨a, hshows, -⟩ := hw.spared
    exact hshows.resolve
  unfold write
  refine (obeys_bind _ _ _ _).2 ((Rules.obeys_checkOpen hw).mono (fun _ w hw => ?_)
    fun e w hw => .inl hw.spared)
  refine (obeys_bind (request (.resolve O.name)) _ _ _).2 ?_
  refine (steady_prepared.resolve hname hw).mono ?_ fun e v hv => .inl hv.spared
  rintro _ v ⟨rfl, hv⟩
  split
  · exact .inl hv.spared
  · refine (obeys_bind _ _ _ _).2 ?_
    cases hbatch : Batch.ofRecords O.config.hasher O.config.maxBatchLength kind rs with
    | error e => exact .inl hv.spared
    | ok batch =>
      rw [obeys_ofExcept_ok]
      have hwf := (Batch.lists_ofRecords hbatch).wellformed
      exact (obeys_bind _ _ _ _).2 (lone_update hc hwf hv)

end Outlook

def Operation.Alters : Operation → Prop
  | .put _ | .remove _ => True
  | _ => False

theorem Outlook.lone_operation {O : Outlook} {calm : Prop} {i : Nat} {op : Operation}
    {w : World Tables Unit} (hc : ¬calm) (hop : op.Alters) (hw : O.Prepared w) :
    (op.program O.config O.name).Obeys (O.lone calm i (O.Outcome op.records)) i
      (fun _ => O.Outcome op.records) (fun _ => O.Outcome op.records) w := by
  cases op with
  | put entries => exact (obeys_map _ _ _).2 (lone_write hc hw)
  | remove keys => exact (obeys_map _ _ _).2 ((obeys_bind _ _ _ _).2 (lone_write hc hw))
  | get | getKeys | index => exact hop.elim

namespace Outlook

open Tables

variable {O : Outlook} {calm : Prop} {i : Nat} {w : World Tables Account} {op : Operation}
  {y z : Pool Tables Reply} {fs : List (Pool.Event Tables Reply)}
  {outcome : Except TableError Reply} {c : Container} {t : Tables} {e : TableError}

theorem prospect_of_error (h : O.prospect.1 = .error e) : O.prospect.2 = O.attributes := by
  unfold prospect foresee at h ⊢
  cases hr : O.state.recovered with
  | some n => rfl
  | none =>
    rw [hr] at h
    dsimp only at h ⊢
    split
    · next hn =>
      rw [if_pos hn] at h
      cases hl : O.links with
      | ok links =>
        rw [hl] at h
        cases h
      | error e => rfl
    · rfl

theorem Poised.attributes (h : O.Poised c t) :
    O.prospect.2 = O.attributes ∨ O.prospect.2 =
      (((Tables.access O.config O.segment).run true c t).2.1.segment O.segment).attributes := by
  obtain ⟨r, c', t', hrun, ⟨ref, -, -, husable⟩ | ⟨e, -, he⟩⟩ := h.access
  · rw [hrun]
    exact .inr husable.shows.attributes.symm
  · exact .inl (prospect_of_error he)

theorem exists_at (S : Site) (w : World Tables Account) :
    ∃ O : Outlook, O.toSite = S ∧ O.log = w.ghost.log ∧
      O.attributes = (w.container.segment S.segment).attributes ∧
      O.state = w.state.memory S.segment := by
  have hinquires : (rangeLinks S.config S.segment
      ((w.container.segment S.segment).attributes[AttributeId.indexOffset]?.getD 0)
      (Log.size w.ghost.log)).Inquires S.name S.segment := inquires_rangeLinks _ _
  obtain ⟨links, htells⟩ := hinquires.exists_tells w.ghost.log
    (w.container.segment S.segment).attributes
  exact ⟨⟨S, _, _, w.state.memory S.segment, links, htells⟩, rfl, rfl, rfl, rfl⟩

/-- Before anything is tried, nothing came of it. -/
theorem prepared_of_inv (hw : O.toSite.Inv w) (hrest : ∀ i, w.ghost.Rests i)
    (hlog : O.log = w.ghost.log)
    (hattributes : O.attributes = (w.container.segment O.segment).attributes)
    (hstate : O.state = w.state.memory O.segment) :
    O.Prepared ⟨w.container, w.state, ()⟩ := by
  have hmemory : w.state.memory O.segment = (O.scene w).state := Site.Inv.memory hw
  have hintact : O.Intact O.attributes O.state :=
    { heads := rfl
      backpointers := rfl
      pending := rfl
      unclosed := by
        rw [hstate, hmemory]
        exact hw.coherent.marked.opened
      attributes := .inl rfl
      behind := fun _ => rfl
      foresees := rfl }
  have hshows : w.container.Shows O.name O.segment O.log O.attributes :=
    ⟨hw.stores.resolve, hlog ▸ hw.stores.data, hattributes.symm⟩
  refine ⟨⟨_, hshows, hstate ▸ hintact⟩, hw.serves.opened, hw.serves.indexOpened,
    place_of_serves hw.serves, recovering_of_rests hw hrest⟩

/-- However an operation ends that was the only one at work, it changed nothing or wrote all. -/
theorem outcome_of_alone (hc : ¬calm) (hop : op.Alters) (hidle : y.Idle)
    (hprepared : O.Prepared (y.world ()))
    (hrun : Pool.Steps Pool.surroundings y
      (.start i (op.program O.config O.name) :: fs ++ [.finish i outcome]) z)
    (halone : ∀ f ∈ fs, ∀ j, f.actor = some j → j = i) (hno : ∀ r, .finish i r ∉ fs) :
    (∀ j p, .start j p ∉ fs) ∧ z.Idle ∧ O.Outcome op.records (z.world ()) := by
  obtain ⟨hstarts, hidle'⟩ := hrun.idle_of_alone hidle halone hno
  let posts : Nat → Reply → World Tables Unit → Prop := fun _ _ _ => True
  have hsound : y.Sound (O.lone calm i (O.Outcome op.records)) posts () := by
    refine ⟨trivial, fun {j p} hj => ?_, fun _ _ => .inl hprepared.spared⟩
    rw [hidle j] at hj
    cases hj
  have hlawful : (O.lone calm i (O.Outcome op.records)).Lawful := lone_lawful Outcome.near
  cases hrun with
  | @head _ m _ _ _ hstart hrest =>
    obtain ⟨⟨⟩, hm, -⟩ := hstart.sound hlawful (lone_within hc) hsound fun j p hp _ v _ hv => by
      obtain ⟨rfl, rfl⟩ := Pool.Event.start.inj hp
      refine (lone_operation hc hop ((hv rfl).prepared hprepared)).mono (fun _ u hu => ?_)
        fun _ u hu _ => hu
      exact ⟨fun _ => hu, fun _ _ _ => trivial⟩
    let ok : Pool.Event Tables Reply → Prop := fun e => ∀ j p, e ≠ .start j p
    have hok : ∀ e ∈ fs ++ [.finish i outcome], ok e := by
      intro e he j p hep
      rcases List.mem_append.1 he with he | he
      · exact hstarts j p (hep ▸ he)
      · simp [hep] at he
    obtain ⟨⟨⟩, hz⟩ := hrest.stays_sound hlawful (lone_within hc)
      (fun h : ok (.start _ _) => absurd rfl (h _ _)) hok hm
    exact ⟨hstarts, hidle', hz.rest (hidle' i) rfl⟩

theorem Spared.poised (h : O.Spared ⟨c, t, ()⟩) {g : Account} (hinv : O.toSite.Inv ⟨c, t, g⟩)
    (hlog : O.log <+: g.log) (hrest : ∀ i, g.Rests i) : O.Poised c t := by
  obtain ⟨a, hshows, -⟩ := id h
  have hsize : Log.size O.log = Log.size g.log := hshows.length.symm.trans (Site.Inv.length hinv)
  exact ⟨h, g, hinv, (Log.eq_of_prefix_of_size hlog hsize).symm, hrest⟩

/-- Whatever is there when nobody is at work is found from then on, along with all that is recorded
later. -/
theorem upToDate_of_idle {S : Site} {g : Account} {es fs : List (Pool.Event Tables Reply)}
    {y z z' : Pool Tables Reply} {keys : List Bytes} {os : List (Option TableEntry)}
    (hc : ¬S.calm) (hy : y.Sound S.rules (fun _ _ _ => True) g) (hidle : y.Idle)
    (hes : Pool.Steps Pool.surroundings y es z)
    (hget : Pool.Steps Pool.surroundings z
      (.start i ((Operation.get keys).program S.config S.name) :: fs ++
        [.finish i (.ok (.entries os))]) z')
    (hf : ∀ e ∈ es ++ fs, e.Fits S.config S.name S.segment) (hno : ∀ r, .finish i r ∉ fs) :
    let length := (y.container.segment S.segment).data.length
    List.Forall₂ (UpToDate (z'.container.entries S.segment) fun x => S.start ≤ x ∧
      (x < length ∨ (es.foldl Trail.after (.quiet length)).Recorded x)) keys os := by
  intro length
  obtain ⟨g₁, hs₁, ht₁, hgrow⟩ := Site.sound_of_fits hc hes (fun e he => hf e (by simp [he])) hy
  obtain ⟨g₂, hs₂, hreads, -, hgrow'⟩ :=
    reads_of_get hc hs₁ hget (fun e he => hf e (by simp [he])) hno
  have hentries : z'.container.entries S.segment = Log.placed 0 g₂.log := Site.Inv.entries hs₂.inv
  have hlength : length = Log.size g.log := Site.Inv.length hy.inv
  have hrest (j : Nat) : g.Rests j := hy.rest (hidle j)
  have hquiet : g.trail = .quiet length := by
    rw [hlength, Account.eq_idle hrest]
    rfl
  refine hreads.imp fun key o ho => ?_
  rw [hentries]
  refine ho.upToDate hgrow'.log fun {x r k} _ _ hx => ⟨?_, ?_⟩
  · exact Nat.le_trans (S.floor_le k) hx.1
  · rcases hx.2 with hx | hx
    · exact hgrow.settled (Site.settled_of_rests hrest (hlength ▸ hx))
    · rw [← hquiet, ← ht₁] at hx
      exact hx

end Outlook

namespace Pool

variable {config : Config} {name : String} {segment i : Nat} {op : Operation} {e : TableError}
  {y z : Pool Tables Reply} {fs : List (Event Tables Reply)}

theorem fits_of_alters {r : Except TableError Reply} (hop : op.Alters)
    (hstarts : ∀ j p, .start j p ∉ fs) :
    ∀ f ∈ .start i (op.program config name) :: fs ++ [.finish i r], f.Fits config name segment := by
  intro f hf
  have hmem : f = .start i (op.program config name) ∨ f ∈ fs ∨ f = .finish i r := by
    simpa using hf
  rcases hmem with rfl | hf | rfl
  · refine ⟨op, ?_, rfl⟩
    cases op with
    | put | remove | get | getKeys => trivial
    | index => exact hop.elim
  · cases f with
    | start j p => exact absurd hf (hstarts j p)
    | proceed | call | finish | drift => trivial
  · trivial

/-- Whatever is there when nobody is at work any more counts as old from then on. -/
theorem BeganAt.upToDate {start : Nat} (hstart : BeganAt config name segment start y)
    (hrun : Steps surroundings y fs z) (hfits : ∀ f ∈ fs, f.Fits config name segment)
    (hidle : z.Idle) :
    start ≤ (y.container.segment segment).data.length ∧
      ∀ es hs j keys os z' z'', Steps surroundings z es z' →
        Steps surroundings z' (.start j ((Operation.get keys).program config name) :: hs ++
          [.finish j (.ok (.entries os))]) z'' →
        (∀ f ∈ es ++ hs, f.Fits config name segment) → (∀ r, .finish j r ∉ hs) →
        List.Forall₂ (UpToDate (z''.container.entries segment) fun x => start ≤ x ∧
          (x < (z.container.segment segment).data.length ∨
            (es.foldl Trail.after (.quiet (z.container.segment segment).data.length)).Recorded x))
          keys os := by
  obtain ⟨S, g, rfl, rfl, rfl, rfl, hcalm, hs⟩ := hstart.exists_site
  have hinv : S.Inv (y.world g) := hs.inv
  have hle : S.start ≤ Log.size g.log := hinv.coherent.start.le
  obtain ⟨g', hs', -, -⟩ := Site.sound_of_fits hcalm hrun hfits hs
  refine ⟨hinv.length ▸ hle, fun es hs j keys os z' z'' hes hget hf hno => ?_⟩
  exact Outlook.upToDate_of_idle hcalm hs' hidle hes hget hf hno

/-- A put or remove that fails, while nobody else is at work, either changed nothing of what is
written or remembered, but for what the first access makes good, and every lookup comes to the same
as before. Or its records were appended all together, and they are found from then on, as if the
write had succeeded: whoever looks up any keys finds entries at least as new as these, and as all
others that were recorded by then. -/
theorem failed_write_all_or_nothing (hy : Reachable config name segment y) (hidle : y.Idle)
    (hop : op.Alters)
    (hrun : Steps surroundings y
      (.start i (op.program config name) :: fs ++ [.finish i (.error e)]) z)
    (halone : ∀ f ∈ fs, ∀ j, f.actor = some j → j = i) (hno : ∀ r, .finish i r ∉ fs) :
    let before := y.container.segment segment
    let after := z.container.segment segment
    let known := y.state.memory segment
    let known' := z.state.memory segment
    let accessed := ((Tables.access config segment).run true y.container y.state).2.1
    (after.data = before.data ∧
      (after.attributes = before.attributes ∨
        after.attributes = (accessed.segment segment).attributes) ∧
      known'.heads = known.heads ∧ known'.backpointers = known.backpointers ∧
      known'.pending = known.pending ∧
      ∀ query : Operation, Outlook.Queries query →
        ((query.program config name).run true z.container z.state).1 =
          ((query.program config name).run true y.container y.state).1) ∨
    (after.data = before.data ++ Record.encodeAll recordChecksum op.records ∧
      z.container.entries segment =
        y.container.entries segment ++ Log.placed before.data.length op.records ∧
      (∃ start, BeganAt config name segment start y) ∧
      ∀ start, BeganAt config name segment start y → start ≤ before.data.length ∧
        ∀ es hs j keys os z' z'', Steps surroundings z es z' →
          Steps surroundings z' (.start j ((Operation.get keys).program config name) :: hs ++
            [.finish j (.ok (.entries os))]) z'' →
          (∀ f ∈ es ++ hs, f.Fits config name segment) → (∀ r, .finish j r ∉ hs) →
          List.Forall₂ (UpToDate (z''.container.entries segment) fun x => start ≤ x ∧
            (x < after.data.length ∨
              (es.foldl Trail.after (.quiet after.data.length)).Recorded x)) keys os) := by
  intro before after known known' accessed
  have hbegan := hy.exists_beganAt
  obtain ⟨S, g, rfl, rfl, rfl, hcalm, hs⟩ := hy.exists_site
  obtain ⟨O, rfl, hlog, hattributes, hstate⟩ := Outlook.exists_at S (y.world g)
  have hinv : O.toSite.Inv (y.world g) := hs.inv
  have hrest (j : Nat) : g.Rests j := hs.rest (hidle j)
  have hprepared : O.Prepared (y.world ()) :=
    Outlook.prepared_of_inv hinv hrest hlog hattributes hstate
  obtain ⟨hstarts, hidle', houtcome⟩ :=
    Outlook.outcome_of_alone not_false hop hidle hprepared hrun halone hno
  -- The site judges the same run.
  have hfits : ∀ f ∈ .start i (op.program O.config O.name) :: fs ++ [.finish i (.error e)],
      f.Fits O.config O.name O.segment := fits_of_alters hop hstarts
  obtain ⟨g', hs', -, hgrow⟩ := Site.sound_of_fits hcalm hrun hfits hs
  have hrest' (j : Nat) : g'.Rests j := hs'.rest (hidle' j)
  have hdata : before.data = Record.encodeAll recordChecksum O.log := hlog ▸ hinv.stores.data
  have hprefix : O.log <+: g'.log := hlog ▸ hgrow.log
  rcases houtcome with hspared | ⟨hwf, a, hshows⟩
  · have hbefore : O.Poised y.container y.state :=
      hprepared.spared.poised hinv (hlog ▸ List.prefix_refl _) hrest
    have hafter : O.Poised z.container z.state := hspared.poised hs'.inv hprefix hrest'
    obtain ⟨a, hshows, hintact⟩ := hspared
    have hknown : known = O.state := hstate.symm
    have haccessed := hbefore.attributes
    rw [hattributes] at haccessed
    refine .inl ⟨hshows.data.trans hdata.symm, ?_, ?_, ?_, ?_, fun query hquery => ?_⟩
    · have hwas : a = before.attributes ∨ a = O.prospect.2 := hattributes ▸ hintact.attributes
      have hnow : after.attributes = a := hshows.attributes
      rcases hwas with ha | ha
      · exact .inl (hnow.trans ha)
      · exact haccessed.imp (hnow.trans ha).trans (hnow.trans ha).trans
    · exact hintact.heads.trans (congrArg _ hknown.symm)
    · exact hintact.backpointers.trans (congrArg _ hknown.symm)
    · exact hintact.pending.trans (congrArg _ hknown.symm)
    · obtain ⟨r, hr⟩ := Outlook.settles_query (O := O) hquery
      exact (hr _ _ hafter).1.trans (hr _ _ hbefore).1.symm
  · have hlength : before.data.length = Log.size O.log := by rw [hdata, Log.length_encodeAll]
    have hwf' : Log.Wellformed O.config.hasher O.log := hlog ▸ hinv.coherent.wellformed
    have hstores : O.toSite.Stores z.container (O.log ++ op.records) :=
      ⟨hshows.resolve, hshows.data⟩
    have hentries : y.container.entries O.segment = Log.placed 0 O.log :=
      (Site.Inv.entries hinv).trans (by rw [hlog])
    refine .inr ⟨?_, ?_, hbegan, fun start hstart => hstart.upToDate hrun hfits hidle'⟩
    · rw [hdata]
      exact hshows.data.trans (List.flatMap_append ..)
    · rw [hstores.entries (hwf'.append hwf), hentries, Log.placed_append, hlength, Nat.zero_add]

/-- Two values are put, but their links cannot be persisted. Both are found from then on. -/
theorem failed_put_of_two_amid_refused_links :
    let config := Config.parity .inline
    let op := Operation.put [⟨⟨[98], none⟩, [2]⟩, ⟨⟨[97], none⟩, [3]⟩]
    ∃ y fs z, Reachable config "t" 0 y ∧ y.Idle ∧
      Steps surroundings y
        (.start 1 (op.program config "t") :: fs ++ [.finish 1 (.error .timeout)]) z ∧
      (y.container.segment 0).data.length = 20 ∧
      z.container.entries 0 =
        [(0, .update [97] [1]), (20, .update [98] [2]), (40, .update [97] [3])] ∧
      ∀ hs keys os z', Steps surroundings z
        (.start 2 ((Operation.get keys).program config "t") :: hs ++
          [.finish 2 (.ok (.entries os))]) z' →
        (∀ f ∈ hs, f.Fits config "t" 0) → (∀ r, .finish 2 r ∉ hs) →
        List.Forall₂ (UpToDate (z'.container.entries 0) fun x => x < 60) keys os := by
  intro config op
  let ms : List Move := .start 1 (.put [⟨⟨[97], none⟩, [1]⟩]) :: Move.steps 1 40
  let ms' : List Move := Move.steps 1 13 ++ [.step 1 (.refused .timeout) true, .step 1 .served true]
  let y := drive config "t" ms (.opened config .solo)
  let z := drive config "t" ms' (y.2.assign 1 (some (op.program config "t")))
  obtain ⟨hes, hf⟩ := @steps_drive config "t" 0 ms (Move.fits_of_plain (by decide +kernel))
    (.opened config .solo)
  obtain ⟨hfs, -⟩ := @steps_drive config "t" 0 ms' (Move.fits_of_plain (by decide +kernel))
    (y.2.assign 1 (some (op.program config "t")))
  have hreachable : Reachable config "t" 0 y.2 :=
    (Reachable.opened (.created Container.create_solo Container.resolve_solo)).steps hes hf
  have hidle : y.2.Idle := by
    intro i
    by_cases hi : i = 1
    · subst hi
      exact Option.isNone_iff_eq_none.1 (by decide +kernel)
    · refine hes.idle rfl fun p hp => ?_
      have hall : y.1.all (fun e => e.actor = some 1) = true := by decide +kernel
      have hactor := of_decide_eq_true (List.all_eq_true.1 hall _ hp)
      exact hi (Option.some.inj hactor)
  have hended : (z.2.threads 1).bind Pool.ended = some (.error .timeout) := by decide +kernel
  have hrun := Steps.head (.start (op.program config "t") (hidle 1))
    (hfs.append (.head (step_of_ended hended) (.refl _)))
  have halone : ∀ f ∈ z.1, ∀ j, f.actor = some j → j = 1 := by
    intro f hf j hj
    have hall : z.1.all (fun e => e.actor = some 1) = true := by decide +kernel
    have hactor := of_decide_eq_true (List.all_eq_true.1 hall f hf)
    exact Option.some.inj (hj.symm.trans hactor)
  have hno : ∀ r, .finish 1 r ∉ z.1 := not_finish_of_all (by decide +kernel) 1
  have hbefore : (y.2.container.segment 0).data.length = 20 := by decide +kernel
  have hafter : (z.2.container.segment 0).data.length = 60 := by decide +kernel
  refine ⟨y.2, z.1, z.2.assign 1 none, hreachable, hidle, hrun, hbefore, by decide +kernel, ?_⟩
  have hop : op.Alters := trivial
  rcases failed_write_all_or_nothing hreachable hidle hop hrun halone hno with
    ⟨hdata, -⟩ | ⟨-, -, -, hget⟩
  · have hlength : (z.2.container.segment 0).data.length = _ := congrArg List.length hdata
    rw [hafter, hbefore] at hlength
    cases hlength
  · intro hs keys os z' hz' hfits hno
    have hbegan : BeganAt config "t" 0 0 y.2 :=
      ⟨_, y.1, .opened (.created Container.create_solo Container.resolve_solo), fun _ => rfl,
        by simp [opened, Tables.initial], rfl, hes, hf⟩
    have hgot := (hget 0 hbegan).2 [] hs 2 keys os _ z' (.refl _) hz' hfits hno
    have hafter : ((z.2.assign 1 none).container.segment 0).data.length = 60 := hafter
    rw [hafter] at hgot
    exact hgot.imp fun key o ho => ho.mono fun x hx => ⟨Nat.zero_le x, .inl hx⟩

end Pool
end KeyedLog
