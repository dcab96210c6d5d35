import KeyedLog.Proofs.Alone.Linkers
import KeyedLog.Proofs.Deferred.Admission
import KeyedLog.Proofs.Recovery.Retries

/-! An index that is opened on records that are not linked yet, and links them on its first access.
That may fail any number of times before it succeeds. -/
namespace KeyedLog

open Program Tables

namespace Outlook

variable {O : Outlook} {plan ps qs : List Call} {links : List AttributeUpdate × List KeyHash}
  {w v : World Tables Unit} {α β : Type}

def Settled (O : Outlook) (w : World Tables Unit) : Prop :=
  (w.state.memory O.segment).recovered ≠ none

/-- What an operation asks for until its first access is over. -/
def calls (O : Outlook) (ps : List Call) (links : List AttributeUpdate × List KeyHash) :
    List Call := [.resolve O.name] ++ O.accessCalls ps links

theorem Untried.withLocks (h : O.Untried plan qs w) (locks : Locks) :
    O.Untried plan qs ⟨w.container, { w.state with locks }, ()⟩ where
  calls := h.calls
  prepared := ⟨h.prepared.spared, h.prepared.opened, h.prepared.indexOpened, h.prepared.place,
    h.prepared.idle⟩
  even := h.even
  unrecovered := h.unrecovered

section Operations

/-- An operation fails in its first access, if it does not get through. -/
abbrev Strives (O : Outlook) (ps : List Call) (links : List AttributeUpdate × List KeyHash)
    (K : α → List Call → World Tables Unit → Prop) (p : Program Tables α) (qs : List Call)
    (w : World Tables Unit) : Prop :=
  p.Tries O.Settled K (fun _ => O.Untried (O.calls ps links)) qs w

theorem strives_map {p : Program Tables α} (f : α → β)
    (h : O.Strives ps links (fun _ _ _ => True) p qs w) :
    O.Strives ps links (fun _ _ _ => True) (f <$> p) qs w :=
  (tries_bind p (fun a => .ret (f a)) _ qs w).2 h

theorem strives_checkOpen {K : Unit → List Call → World Tables Unit → Prop}
    (hw : O.Untried (O.calls ps links) qs w) (hK : K () qs w) :
    O.Strives ps links K checkOpen qs w := by
  unfold checkOpen
  refine (tries_bind Program.read _ _ _ _).2 (tries_read.2 ?_)
  rw [hw.prepared.opened]
  exact hK

theorem strives_checkIndex {K : Unit → List Call → World Tables Unit → Prop}
    (hw : O.Untried (O.calls ps links) qs w) (hK : K () qs w) :
    O.Strives ps links K checkIndex qs w := by
  unfold checkIndex
  refine (tries_bind Program.read _ _ _ _).2 (tries_read.2 ?_)
  rw [hw.prepared.indexOpened]
  exact hK

theorem strives_resolve {K : Nat → List Call → World Tables Unit → Prop}
    (hw : O.Untried (O.calls ps links) [] w)
    (hK : ∀ v, O.Untried (O.calls ps links) [.resolve O.name] v →
      K O.segment [.resolve O.name] v) :
    O.Strives ps links K (request (.resolve O.name)) [] w := by
  refine (tries_bind checkTime (fun _ => ask (.resolve O.name)) K _ _).2 fun v hv _ left => ?_
  have hv := hw.near hv
  cases left with
  | false => exact hv
  | true =>
    intro u hu _ fate _ x hx
    have hu := hv.near hu
    have hsame : (u.container.serve (.resolve O.name) fate).1 = u.container := by
      cases fate <;> rfl
    rw [hsame] at hx
    have hu' : O.Untried (O.calls ps links) [.resolve O.name] u :=
      { hu with calls := List.prefix_append _ _ }
    have hx := hu'.near hx
    cases fate with
    | served =>
      obtain ⟨a, hshows, -⟩ := hu.prepared.spared
      have hs : u.container.serve (.resolve O.name) .served = (u.container, .ok O.segment) :=
        Container.perform_resolve hshows.resolve
      rw [hs]
      exact hK x hx
    | refused e => exact hx
    | lost e => exact hx

theorem strives_access {f : Nat → Program Tables α} (hO : O.Hopeful ps links)
    (hw : O.Untried (O.calls ps links) [.resolve O.name] w) :
    O.Strives ps links (fun _ _ _ => True) (access O.config O.segment >>= f) [.resolve O.name]
      w := by
  refine (tries_bind _ _ _ _ _).2 ?_
  apply tries_access hO List.prefix_rfl hw
  rintro ref qs v ⟨a, s, h, -, hwhole⟩ hns
  refine absurd ?_ hns
  unfold Settled
  rw [h.keeps.memory, hwhole.1]
  simp

theorem strives_lookup (hO : O.Hopeful ps links) (hw : O.Untried (O.calls ps links) [] w)
    (mode : ReadMode) (keys : List Bytes) :
    O.Strives ps links (fun _ _ _ => True) (lookup O.config mode O.name keys) [] w := by
  unfold lookup
  refine (tries_bind _ _ _ _ _).2 (strives_checkOpen hw ?_)
  split
  · trivial
  refine (tries_bind _ _ _ _ _).2 ?_
  cases keys.mapM O.config.hasher.hash with
  | error e => exact hw
  | ok hashes =>
    refine (tries_bind (request (.resolve O.name)) _ _ _ _).2 (strives_resolve hw fun v hv => ?_)
    unfold heads
    rw [LawfulMonad.bind_assoc]
    exact strives_access hO hv

theorem strives_write (hO : O.Hopeful ps links) (hw : O.Untried (O.calls ps links) [] w)
    (kind : RecordKind) (rs : List Record) :
    O.Strives ps links (fun _ _ _ => True) (write O.config O.name kind rs) [] w := by
  unfold write
  refine (tries_bind _ _ _ _ _).2 (strives_checkOpen hw ?_)
  refine (tries_bind (request (.resolve O.name)) _ _ _ _).2 (strives_resolve hw fun v hv => ?_)
  split
  · trivial
  refine (tries_bind _ _ _ _ _).2 ?_
  cases Batch.ofRecords O.config.hasher O.config.maxBatchLength kind rs with
  | error e => exact hv
  | ok batch =>
    refine (tries_bind _ _ _ _ _).2 ?_
    unfold update withLocks
    refine (tries_bind _ _ _ _ _).2 (strives_checkIndex hv ?_)
    refine (tries_bind (waitUntil _) _ _ _ _).2 fun u hu _ => ?_
    have hu := hv.near hu
    refine ⟨fun _ => ?_, fun _ _ => hu⟩
    refine (tries_bind _ _ _ _ _).2 (tries_modify ?_)
    rw [tries_ensuring]
    apply (strives_access hO (hu.withLocks _)).mono
    · exact fun _ _ _ _ => trivial
    · exact fun e qs x hx => hx.withLocks _

/-- No operation gets past a first access that fails. -/
theorem strives_operation (hO : O.Hopeful ps links) (hw : O.Untried (O.calls ps links) [] w)
    {op : Operation} (hop : op.Accesses) :
    O.Strives ps links (fun _ _ _ => True) (op.program O.config O.name) [] w := by
  cases op with
  | put entries => exact strives_map _ (strives_write hO hw _ _)
  | remove keys =>
    apply strives_map
    exact (tries_bind _ _ _ _ _).2 (strives_write hO hw _ _)
  | get keys =>
    apply strives_map
    exact (tries_bind _ _ _ _ _).2 (strives_lookup hO hw .entry keys)
  | getKeys keys =>
    apply strives_map
    exact (tries_bind _ _ _ _ _).2 (strives_lookup hO hw .key keys)
  | index => exact hop.elim

end Operations

/-- What the first access comes to that nothing goes wrong with. -/
theorem Untried.completes {c : Container} {t : Tables} (hO : O.Hopeful ps links)
    (hw : O.Untried (O.calls ps links) [] ⟨c, t, ()⟩) (hpoised : O.Poised c t)
    (hok : O.prospect.1 = .ok ()) :
    ∃ ref c' t', (access O.config O.segment).run true c t = (.ok ref, c', t') ∧
      (c'.segment O.segment).attributes = O.prospect.2 ∧ O.Whole (t'.memory O.segment) := by
  obtain ⟨r, c', t', hrun, ⟨ref, rfl, -, husable⟩ | ⟨e, -, he⟩⟩ := hpoised.access
  swap
  · cases hok.symm.trans he
  have htries : (access O.config O.segment).Tries (fun _ => False)
      (fun ref _ => O.Standing ref O.Whole) (fun _ => O.Untried (O.calls ps links))
      [.resolve O.name] ⟨c, t, ()⟩ :=
    tries_access hO List.prefix_rfl { hw with calls := List.prefix_append _ _ }
      fun _ _ _ h _ => h
  obtain ⟨-, a, s, h, -, hwhole⟩ :=
    htries.run (unblocked_access hw.prepared.place hw.prepared.idle) hrun
  have hmemory : t'.memory O.segment = s := h.keeps.memory
  exact ⟨ref, c', t', hrun, husable.shows.attributes, hmemory ▸ hwhole⟩

/-- What lies ahead of an index that is opened on a segment in order. -/
theorem exists_opened {config : Config} {name : String} {segment : Nat} {c : Container}
    {log : List Record}
    (hinv : (Site.kept config name segment (Log.size log)).Inv
      ⟨c, .initial config, Site.idle log⟩) :
    ∃ O : Outlook, O.config = config ∧ O.name = name ∧ O.segment = segment ∧ ¬O.calm ∧
      O.log = log ∧ O.attributes = (c.segment segment).attributes ∧ O.state = .initial ∧
      (Pool.opened config c).Sound O.rules (fun _ _ _ => True) (Site.idle log) ∧
      O.Prepared ⟨c, .initial config, ()⟩ ∧ O.Poised c (.initial config) := by
  generalize hS : Site.kept config name segment (Log.size log) = S at hinv
  obtain ⟨rfl, rfl, rfl, hcalm⟩ :
      S.config = config ∧ S.name = name ∧ S.segment = segment ∧ ¬S.calm := by
    subst hS
    exact ⟨rfl, rfl, rfl, id⟩
  have hopened : (Pool.opened S.config c).Sound S.rules (fun _ _ _ => True) (Site.idle log) :=
    Site.sound_opened hinv
  have hrest (i : Nat) : (Site.idle log).Rests i := hopened.rest rfl
  obtain ⟨O, rfl, hlog, hattributes, hstate⟩ :=
    exists_at S ⟨c, .initial S.config, Site.idle log⟩
  have hprepared : O.Prepared ⟨c, .initial O.config, ()⟩ :=
    prepared_of_inv hinv hrest hlog hattributes hstate
  have hinitial : O.state = .initial := hstate.trans (Tables.memory_initial _ _)
  exact ⟨O, rfl, rfl, rfl, hcalm, hlog, hattributes, hinitial, hopened, hprepared,
    hprepared.spared.poised hinv (hlog ▸ List.prefix_rfl) hrest⟩

end Outlook

theorem Log.LinkMap.uncut {S : Site} {log full : List Record} {a : Attributes}
    (ha : Log.LinkMap S.config.hasher log a) : S.Uncut full a := by
  rintro h ⟨x, f, y, hx, -, -, -, -, hy, hun, -⟩
  have hlast := (ha.head h hx.proper).1 y hy
  exact hun ((Attributes.indexed_iff ha.index).2 hlast.2)

namespace Pool

variable {config : Config} {name : String} {segment : Nat} {c : Container}
  {y z z' : Pool Tables Reply}

/-- First accesses that fail, one after another. Each is made by an operation that works alone, and
when that is over the entries from before are still not accounted for. -/
inductive FailedAccesses (config : Config) (name : String) (segment : Nat) :
    Pool Tables Reply → List (List (Event Tables Reply)) → Pool Tables Reply → Prop
  | nil (y : Pool Tables Reply) : FailedAccesses config name segment y [] y
  | snoc {y z z' : Pool Tables Reply} {ess : List (List (Event Tables Reply))}
    {fs : List (Event Tables Reply)} {op : Operation} {i : Nat} {e : TableError}
    (h : FailedAccesses config name segment y ess z) (hop : op.Accesses)
    (hrun : Steps surroundings z
      (.start i (op.program config name) :: fs ++ [.finish i (.error e)]) z')
    (halone : ∀ f ∈ fs, ∀ j, f.actor = some j → j = i) (hno : ∀ r, .finish i r ∉ fs)
    (hfailed : (z'.state.memory segment).recovered = none) :
    FailedAccesses config name segment y (ess ++ [fs]) z'

structure Ready (O : Outlook) (ps : List Call) (links : List AttributeUpdate × List KeyHash)
    (z : Pool Tables Reply) : Prop where
  idle : z.Idle
  untried : O.Untried (O.calls ps links) [] (z.world ())
  sound : ∃ g, z.Sound O.rules (fun _ _ _ => True) g ∧ O.log <+: g.log

section Ready

variable {O : Outlook} {ps : List Call} {links : List AttributeUpdate × List KeyHash}

theorem Ready.poised (h : Ready O ps links z) : O.Poised z.container z.state := by
  obtain ⟨g, hs, hlog⟩ := h.sound
  exact h.untried.prepared.spared.poised hs.inv hlog fun i => hs.rest (h.idle i)

theorem unrecovered_of_steps {S : Site} {g : Account} {es : List (Event Tables Reply)}
    (hc : ¬S.calm) (hy : y.Sound S.rules (fun _ _ _ => True) g) (h : Steps surroundings y es z)
    (hf : ∀ e ∈ es, e.Fits S.config S.name S.segment)
    (hz : (z.state.memory S.segment).recovered = none) :
    (y.state.memory S.segment).recovered = none := by
  obtain ⟨g', hs, -, hgrow⟩ := Site.sound_of_fits hc h hf hy
  have hbefore : y.state.memory S.segment = (S.scene (y.world g)).state := Site.Inv.memory hy.inv
  have hafter : z.state.memory S.segment = (S.scene (z.world g')).state := Site.Inv.memory hs.inv
  rw [hbefore]
  rw [hafter] at hz
  cases hr : (S.scene (y.world g)).state.recovered with
  | none => rfl
  | some n => cases hz.symm.trans (hgrow.recovered hr)

/-- After a first access that failed the next one may be made. -/
theorem Ready.step {fs : List (Event Tables Reply)} {op : Operation} {i : Nat} {e : TableError}
    (hc : ¬O.calm) (hO : O.Hopeful ps links) (h : Ready O ps links z) (hop : op.Accesses)
    (hrun : Steps surroundings z
      (.start i (op.program O.config O.name) :: fs ++ [.finish i (.error e)]) z')
    (halone : ∀ f ∈ fs, ∀ j, f.actor = some j → j = i) (hno : ∀ r, .finish i r ∉ fs)
    (hfailed : (z'.state.memory O.segment).recovered = none) :
    Ready O ps links z' ∧ calls fs <+: O.calls ps links := by
  obtain ⟨g, hs, hlog⟩ := h.sound
  obtain ⟨hstarts, hidle⟩ := hrun.idle_of_alone h.idle halone hno
  have hfits : ∀ f ∈ .start i (op.program O.config O.name) :: fs ++ [.finish i (.error e)],
      f.Fits O.config O.name O.segment := by
    intro f hf
    have hmem : f = .start i (op.program O.config O.name) ∨ f ∈ fs ∨ f = .finish i (.error e) := by
      simpa using hf
    rcases hmem with rfl | hf | rfl
    · refine ⟨op, ?_, rfl⟩
      cases op with
      | put | remove | get | getKeys => trivial
      | index => exact hop.elim
    · exact .of_ne_start fun j p hp => hstarts j p (hp ▸ hf)
    · trivial
  obtain ⟨g', hs', -, hgrow⟩ := Site.sound_of_fits hc hrun hfits hs
  have huntried : O.Untried (O.calls ps links) (calls fs) (z'.world ()) := by
    have htries (v : World Tables Unit) (hv : Outlook.Near (z.world ()) v) :=
      Outlook.strives_operation hO (h.untried.near hv) hop
    apply hrun.fails (E := fun _ => O.Untried (O.calls ps links)) _ _ halone hno _ htries
    · exact fun _ _ _ _ _ _ => trivial
    · exact fun _ _ _ _ hv hw => hw.near hv
    · intro es es' x hes hx hz'
      have hes : .start i (op.program O.config O.name) :: fs ++ [.finish i (.error e)] =
          es ++ (es' ++ [.finish i (.error e)]) := by rw [hes, List.append_assoc]
      obtain ⟨g₁, hs₁, -⟩ := Site.sound_of_fits hc hx
        (fun f hf => hfits f (hes ▸ List.mem_append_left _ hf)) hs
      have hx := unrecovered_of_steps hc hs₁ hz'
        (fun f hf => hfits f (hes ▸ List.mem_append_right _ hf)) hfailed
      exact fun hsettled => hsettled hx
  exact ⟨⟨hidle, { huntried with calls := List.nil_prefix }, g', hs', hlog.trans hgrow.log⟩,
    huntried.calls⟩

theorem Ready.failed {ess : List (List (Event Tables Reply))} (hc : ¬O.calm)
    (hO : O.Hopeful ps links) (hy : Ready O ps links y)
    (h : FailedAccesses O.config O.name O.segment y ess z) :
    Ready O ps links z ∧ ∀ es ∈ ess, calls es <+: O.calls ps links := by
  induction h with
  | nil => exact ⟨hy, fun es hes => by cases hes⟩
  | snoc _ hop hrun halone hno hfailed ih =>
    obtain ⟨hz, hcalls⟩ := ih
    obtain ⟨hz', hlast⟩ := hz.step hc hO hop hrun halone hno hfailed
    refine ⟨hz', fun es hes => ?_⟩
    rcases List.mem_append.1 hes with hes | hes
    · exact hcalls es hes
    · rw [List.mem_singleton.1 hes]
      exact hlast

end Ready

/-- What lies ahead of an extension that is opened on records of which some are not linked yet. -/
theorem exists_ready_opened {log rest : List Record} (hm : config.mode = .inline)
    (hn : c.resolve name = .ok segment) (hc : c.LinkedUpTo config.hasher segment log rest) :
    ∃ (O : Outlook) (ps : List Call) (links : List AttributeUpdate × List KeyHash)
      (hashes : List KeyHash) (us : List AttributeUpdate), O.config = config ∧ O.name = name ∧
      O.segment = segment ∧ ¬O.calm ∧ O.log = log ++ rest ∧
      O.attributes = (c.segment segment).attributes ∧ O.Hopeful ps links ∧
      O.calls ps links = firstCalls name segment (Log.size log) (Log.size rest) hashes us ∧
      Ready O ps links (.opened config c) ∧ O.prospect.1 = .ok () ∧
      Log.LinkMap config.hasher (log ++ rest) O.prospect.2 := by
  have hinv : (Site.kept config name segment (Log.size (log ++ rest))).Inv
      ⟨c, .initial config, Site.idle (log ++ rest)⟩ := by
    apply Site.inv_opened ⟨hn, hc.data⟩ hc.wellformed rfl rfl
    · exact Site.faithful_of_linkMap (fun _ => rfl) hc.links
    · exact fun _ => hc.links.uncut
  obtain ⟨O, rfl, rfl, rfl, hcalm, hlog, hattributes, -, hopened, hprepared, hpoised⟩ :=
    Outlook.exists_opened hinv
  have hmemory : (Tables.initial O.config).memory O.segment = .initial :=
    Tables.memory_initial _ _
  -- The same access, once as it was foreseen and once as it links what is missing.
  have hshows : c.Shows O.name O.segment (log ++ rest) (c.segment O.segment).attributes :=
    ⟨hn, hc.data, rfl⟩
  have hrest : Log.Wellformed O.config.hasher rest :=
    fun r hr => hc.wellformed r (List.mem_append_right log hr)
  obtain ⟨ref, d, t, hrun, b, hd, hb⟩ := Tables.succeeds_access_inline
    (K := fun _ d _ => ∃ b, d.Shows O.name O.segment (log ++ rest) b ∧
      Log.LinkMap O.config.hasher (log ++ rest) b) hm hshows hc.links hrest
    (Tables.level_initial O.config O.segment ∅ 0).toAtEase (by rw [hmemory]; rfl)
    fun _ d _ b hd hb => ⟨b, hd, hb⟩
  obtain ⟨r, d', t', hrun', hcases⟩ := hpoised.access
  obtain ⟨rfl, hsame⟩ := Prod.mk.inj (hrun.symm.trans hrun')
  obtain ⟨rfl, rfl⟩ := Prod.mk.inj hsame
  obtain ⟨ref', -, hok, husable⟩ | ⟨e, he, -⟩ := hcases
  swap
  · cases he
  obtain rfl : b = O.prospect.2 := hd.attributes.symm.trans husable.shows.attributes
  obtain ⟨hashes, links, hlearns⟩ :=
    @Tables.exists_learns_rangeLinks O.config O.name O.segment log rest _ hc.links hrest
  have hindex : O.attributes[AttributeId.indexOffset]?.getD 0 = Log.size log := by
    rw [hattributes, hc.links.index]
    rfl
  let ps : List Call := [.read O.segment (Log.size log) (Log.size rest),
    .getAttributes O.segment (hashes.map .bucket)]
  refine ⟨O, ps, (links, hashes), hashes, _, rfl, rfl, rfl, hcalm, hlog, hattributes,
    ⟨hm, ?_, ?_, ?_⟩, rfl, ⟨fun _ => rfl, ?_, _, hopened, hlog ▸ List.prefix_refl _⟩, hok, hb⟩
  · rw [hindex, hlog, hattributes]
    exact hlearns
  · rw [hindex, hlog, Log.size_append]
    omega
  · rw [hb.index, hlog]
    exact Nat.le_refl _
  · refine ⟨List.nil_prefix, hprepared, ?_, ?_⟩
    · change O.Even ((Tables.initial O.config).memory O.segment)
      rw [hmemory]
      exact ⟨rfl, Nat.zero_le _⟩
    · change ((Tables.initial O.config).memory O.segment).recovered = none
      rw [hmemory]
      rfl

/-- An index that links entries itself is opened on a table of which some entries are not linked
yet. Its first access links all of them. It may fail any number of times before it succeeds. Each
time either none of the links are persisted or all of them, and the operation that made the access
asked for nothing else. The first access that nothing goes wrong with, and all lookups, come to the
same as if none had failed. -/
theorem first_access_atomic_and_retriable {log rest : List Record} (hm : config.mode = .inline)
    (hn : c.resolve name = .ok segment) (hc : c.LinkedUpTo config.hasher segment log rest) :
    ∃ ref d t hashes us,
      (Tables.access config segment).run true c (.initial config) = (.ok ref, d, t) ∧
      Log.LinkMap config.hasher (log ++ rest) (d.segment segment).attributes ∧
      (t.memory segment).watermark.offset = (c.segment segment).data.length ∧
      ∀ ess z, FailedAccesses config name segment (.opened config c) ess z →
        (∀ es ∈ ess, calls es <+:
          firstCalls name segment (Log.size log) (Log.size rest) hashes us) ∧
        (z.container.segment segment).data = (c.segment segment).data ∧
        ((z.container.segment segment).attributes = (c.segment segment).attributes ∨
          (z.container.segment segment).attributes = (d.segment segment).attributes) ∧
        ∃ ref' d' t',
          (Tables.access config segment).run true z.container z.state = (.ok ref', d', t') ∧
          (d'.segment segment).attributes = (d.segment segment).attributes ∧
          (t'.memory segment).watermark = (t.memory segment).watermark ∧
          ∀ query : Operation, Outlook.Queries query →
            ((query.program config name).run true z.container z.state).1 =
              ((query.program config name).run true c (.initial config)).1 := by
  have hlength : (c.segment segment).data.length = Log.size (log ++ rest) := by
    rw [hc.data, Log.length_encodeAll]
  obtain ⟨O, ps, links, hashes, us, rfl, rfl, rfl, hcalm, hlog, hattributes, hO, hcalls, hready,
    hok, hmap⟩ := exists_ready_opened hm hn hc
  have hbefore : O.Poised c (.initial O.config) := hready.poised
  obtain ⟨ref, d, t, hrun, hd, hwhole⟩ := hready.untried.completes hO hbefore hok
  refine ⟨ref, d, t, hashes, us, hrun, hd ▸ hmap, ?_, fun ess z hfailed => ?_⟩
  · rw [hwhole.2, hlength, hlog]
  obtain ⟨hz, hall⟩ := hready.failed hcalm hO hfailed
  obtain ⟨a, hshows, hintact⟩ := hz.untried.prepared.spared
  obtain ⟨ref', d', t', hrun', hd', hwhole'⟩ := hz.untried.completes hO hz.poised hok
  refine ⟨fun es hes => hcalls ▸ hall es hes, ?_, ?_, ref', d', t', hrun', hd'.trans hd.symm,
    hwhole'.2.trans hwhole.2.symm, fun query hquery => ?_⟩
  · have hdata : (z.container.segment O.segment).data = _ := hshows.data
    rw [hdata, hc.data, hlog]
  · have hnow : (z.container.segment O.segment).attributes = a := hshows.attributes
    rw [hnow, ← hattributes, hd]
    exact hintact.attributes
  · obtain ⟨r, hr⟩ := Outlook.settles_query (O := O) hquery
    exact (hr _ _ hz.poised).1.trans (hr _ _ hbefore).1.symm

theorem FailedAccesses.drive {ess : List (List (Event Tables Reply))} {e : TableError}
    (h : FailedAccesses config name segment y ess z) (op : Operation) (i : Nat) (ms : List Move)
    (hop : op.Accesses) (hidle : z.threads i = none) (hms : ms.all Move.plain = true) :
    let x := Pool.drive config name ms (z.assign i (some (op.program config name)))
    x.1.all (fun f => f.actor = some i) = true → x.1.all (!·.isFinish) = true →
    (x.2.threads i).bind ended = some (.error e) → (x.2.state.memory segment).recovered = none →
    FailedAccesses config name segment y (ess ++ [x.1]) (x.2.assign i none) := by
  intro x halone hno hended hfailed
  obtain ⟨hsteps, -⟩ := @steps_drive config name segment ms (Move.fits_of_plain hms)
    (z.assign i (some (op.program config name)))
  have hrun := Steps.head (.start (op.program config name) hidle)
    (hsteps.append (.head (step_of_ended hended) (.refl _)))
  apply h.snoc hop hrun _ (not_finish_of_all hno i) hfailed
  intro f hf j hj
  have hactor := of_decide_eq_true (List.all_eq_true.1 halone f hf)
  exact Option.some.inj (hj.symm.trans hactor)

/-- An entry is not linked yet. A lookup links it but is not told so and fails, and then a put fails
for want of time. The next lookup finds the entry. -/
theorem first_access_amid_lost_update :
    let config := Config.parity .inline
    ∃ ess z ref d t, FailedAccesses config "t" 0 (.opened config behind) ess z ∧ ess.length = 2 ∧
      (z.container.segment 0).attributes ≠ (behind.segment 0).attributes ∧
      (Tables.access config 0).run true z.container z.state = (.ok ref, d, t) ∧
      (d.segment 0).attributes = (z.container.segment 0).attributes ∧
      (t.memory 0).watermark.offset = 20 ∧
      (((Operation.get [[97]]).program config "t").run true z.container z.state).1 =
        .ok (.entries [some ⟨⟨[97], some 0⟩, [1]⟩]) := by
  intro config
  let get := Operation.get [[97]]
  let put := Operation.put [⟨⟨[97], none⟩, [2]⟩]
  let lost := Move.steps 1 14 ++ [.step 1 (.lost .timeout) true, .step 1 .served true]
  let late := Move.steps 2 6 ++ [.step 2 .served false]
  let x := drive config "t" lost ((opened config behind).assign 1 (some (get.program config "t")))
  let y := x.2.assign 1 none
  let x' := drive config "t" late (y.assign 2 (some (put.program config "t")))
  let z := x'.2.assign 2 none
  have hended : (x.2.threads 1).bind ended = some (.error .timeout) := by decide +kernel
  have hlost : FailedAccesses config "t" 0 (.opened config behind) [x.1] y :=
    (FailedAccesses.nil _).drive get 1 lost trivial rfl (by decide +kernel) (by decide +kernel)
      (by decide +kernel) hended (by decide +kernel)
  have hfree : y.threads 2 = none := Option.isNone_iff_eq_none.1 (by decide +kernel)
  have hended' : (x'.2.threads 2).bind ended = some (.error .timeout) := by decide +kernel
  have hlate : FailedAccesses config "t" 0 (.opened config behind) [x.1, x'.1] z :=
    hlost.drive put 2 late trivial hfree (by decide +kernel) (by decide +kernel)
      (by decide +kernel) hended' (by decide +kernel)
  have hlinked : behind.LinkedUpTo config.hasher 0 [] [.update [97] [1]] := by
    refine ⟨rfl, fun r hr => ?_, Attributes.justLinks_initial _⟩
    obtain rfl := List.mem_singleton.1 hr
    exact ⟨(Record.valid_iff _).2 (by decide), _, rfl⟩
  obtain ⟨ref, d, t, hashes, us, -, -, hwatermark, hall⟩ :=
    @first_access_atomic_and_retriable config "t" 0 behind _ _ rfl (by decide +kernel) hlinked
  obtain ⟨-, -, hattributes, ref', d', t', hrun, hd, hmark, hquery⟩ := hall _ z hlate
  have hlinks : (z.container.segment 0).attributes ≠ (behind.segment 0).attributes := by
    decide +kernel
  refine ⟨_, z, ref', d', t', hlate, rfl, hlinks, hrun, ?_, ?_, ?_⟩
  · exact hd.trans (hattributes.resolve_left hlinks).symm
  · rw [hmark, hwatermark]
    decide +kernel
  · rw [hquery get trivial]
    decide +kernel

end Pool
end KeyedLog
