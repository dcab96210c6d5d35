import KeyedLog.Proofs.Deferred.TailOperations

/-! The tail of an index that leaves its links to an indexer, in every run: exactly the links that
were recorded and that no offset beyond them was passed on for since. -/
namespace KeyedLog

namespace Site

variable {S : Site} {n : Notes} {q : Call} {fate : Fate}

/-- What a run amounts to, as its events tell. -/
structure Tallied (S : Site) (past : List (Pool.Event Tables Reply)) (y : Pool Tables Reply)
    (ns : Nat → Notes) (g : Account) : Prop where
  sound : y.Sound S.rules (fun _ _ _ => True) g
  trail : g.trail = (Tally.ofRun S.start past).trail
  sane : Tally.Sane S.start past (.ofRun S.start past)
  settled : ∀ i, y.threads i = none → (ns i).Settled S.config
  agrees : ∀ i, S.Agrees y.state (.ofRun S.start past) g.log i (ns i)
  tail : (y.state.state S.place).TailOf S.config.hasher g.log (Tally.ofRun S.start past).kept

namespace Tallied

variable {past : List (Pool.Event Tables Reply)} {e : Pool.Event Tables Reply}
  {y z : Pool Tables Reply} {ns ms : Nat → Notes} {g g' : Account} {begins : Nat → Notes → Prop}

theorem nothing_of_settled (hm : S.config.mode = .deferred) (hn : n.Settled S.config) :
    n.due = .nothing :=
  hn.resolve_right fun hi => by cases hm.symm.trans hi.1

theorem kept_lt (h : S.Tallied past y ns g) {x : Nat}
    (hx : (Tally.ofRun S.start past).kept x = true) : x < Log.size g.log := by
  have hlt := (h.sane.recorded hx).1
  rwa [← h.trail] at hlt

theorem leaves {i : Nat} (hm : S.config.mode = .deferred) (h : S.Tallied past y ns g)
    (hz : S.Inv (z.world g')) (hstep : Pool.Step Pool.surroundings y (.call i q fate) z)
    (hn : (ns i).Settled S.config) (hq : (ns i).Asks S.config q) :
    S.Leaves (y.world g) (z.world g') q fate
      ((ns i).told q (y.container.serve q fate).2).due := by
  have hc : z.container = (y.container.serve q fate).1 := by
    cases hstep
    rfl
  exact leaves_of_asks h.sound.inv hz hc (h.agrees i).onSite (nothing_of_settled hm hn) hq

section Step

variable (hm : S.config.mode = .deferred) (h : S.Tallied past y ns g)
  (hstep : Pool.Step Pool.surroundings y e z) (hz : S.Inv (z.world g'))
  (hgrow : Grows (S.scene (y.world g)) (S.scene (z.world g')))
include hm h hstep hz hgrow

theorem agrees_step (hjots : Pool.Jots S.config S.Starts y z ns e ms) (i : Nat) :
    S.Agrees z.state ((Tally.ofRun S.start past).after e) g'.log i (ms i) := by
  have htracked : y.state.tracked[S.segment]? ≠ none → z.state.tracked[S.segment]? ≠ none := by
    have h := hgrow.tracked
    simp only [scene, Option.isSome_iff_ne_none] at h
    exact h
  by_cases he : e.actor = some i
  · cases hjots with
    | @start j n p hstate hn =>
      obtain rfl : j = i := Option.some.inj he
      rw [Function.update_self]
      have hj : y.threads j = none := by
        cases hstep
        assumption
      have hnothing := nothing_of_settled hm (h.settled j hj)
      refine hn.agrees ?_ fun hj => ?_
      · rw [Tally.trail_after]
        exact ((h.agrees j).range).trans (hnothing ▸ rfl)
      · exact ((h.agrees j).due hj).trans (hnothing ▸ rfl)
    | @proceed j n hacts hn =>
      obtain rfl : j = i := Option.some.inj he
      rw [Function.update_self]
      have hon := hacts.actsOn hm (h.agrees j).onSite h.sound.inv.serves
      refine .of_nothing hon.onSite (hon.reports ▸ (h.agrees j).reports)
        (nothing_of_settled hm hn) ?_ fun hj => ?_
      · rw [Tally.trail_after]
        exact if_pos rfl
      · subst hj
        exact Tally.due_proceed _
    | @call j q fate hstate hn hq =>
      obtain rfl : j = i := Option.some.inj he
      rw [Function.update_self]
      have hleaves := h.leaves hm hz hstep hn hq
      have hlength : (Tally.ofRun S.start past).trail.length = Log.size g.log := by
        rw [← h.trail]
        rfl
      refine (h.agrees j).called (nothing_of_settled hm hn) hlength ?_ ?_ hleaves
      · rw [hstate]
        exact onSite_told h.sound.inv (h.agrees j).onSite hleaves hq
      · exact Notes.told_reports _ _ _
    | finish r hstate hn => exact (h.agrees i).mono rfl (fun _ => rfl) htracked hgrow.log
    | drift => cases he
  -- Who does not act notes nothing down, and its part of the tally stays as it is.
  · rw [hjots.others he]
    refine (h.agrees i).mono ?_ (fun hi => ?_) htracked hgrow.log
    · rw [Tally.trail_after, Trail.unlinked_after _ he]
    · exact Tally.due_after _ (hi ▸ he)

theorem tail_step (hjots : Pool.Jots S.config begins y z ns e ms) :
    (z.state.state S.place).TailOf S.config.hasher g'.log
      ((Tally.ofRun S.start past).after e).kept := by
  have htail := h.tail.grow hgrow.log h.kept_lt
  cases hjots with
  | start p hstate | call q fate hstate | finish r hstate => exact hstate ▸ htail
  | drift =>
    obtain ⟨b, hz⟩ : ∃ b, z.state = { y.state with cache := y.state.cache.erase b } := by
      cases hstep with
      | drift hd => exact hd
    rw [hz]
    exact htail
  | @proceed i m hacts hn =>
    have hends := (hacts.actsOn hm (h.agrees i).onSite h.sound.inv.serves).tends
    refine ((h.agrees i).mono rfl (fun _ => rfl) id hgrow.log).tends htail
      (fun {x u k} hx he hu => ?_) hends (nothing_of_settled hm hn)
    -- What is kept was linked, so no head that is known of its bucket is older.
    have hsettled : g.Settled x := by
      have hrecorded := h.sane.recorded hx
      rwa [← h.trail] at hrecorded
    exact (h.sound.inv.coherent.tail.head hu).2 x hsettled
      (.of_start (he.of_lt hgrow.log (h.kept_lt hx)) (h.sane.late (.inl hx)).1)

end Step

/-- Each event does to the tail what the tally says. -/
theorem step (hm : S.config.mode = .deferred) (hc : ¬S.calm) (h : S.Tallied past y ns g)
    (hstep : Pool.Step Pool.surroundings y e z) (hjots : Pool.Jots S.config S.Starts y z ns e ms)
    (he : e.Fits S.config S.name S.segment) : ∃ g', S.Tallied (past ++ [e]) z ms g' := by
  obtain ⟨g', hz, hacc⟩ := hstep.sound (rules_lawful S) (surroundings_within hc) h.sound
    fun i p hep hrest => parked_of_fits hc (hep ▸ he) hrest
  obtain ⟨htrail, hgrow⟩ := trail_of_accounts h.sound.inv hz.inv hacc
  -- What threads account for, and what is tallied of their events, go on in step.
  have hafter := Tally.ofRun_snoc S.start past e
  have htrail : g'.trail = ((Tally.ofRun S.start past).after e).trail := by
    rw [Tally.trail_after, ← h.trail]
    exact htrail
  refine ⟨g', ?_⟩
  exact
    { sound := hz
      trail := hafter ▸ htrail
      sane := by
        refine h.sane.snoc (fun i q fate hcall => ?_) fun i q fate stop hcall hstop => ?_
        · subst hcall
          cases hjots with
          | call _ _ _ hn _ =>
            rw [(h.agrees i).range, nothing_of_settled hm hn]
            rfl
        · subst hcall
          cases hjots with
          | call _ _ _ hn hq =>
            have hleaves := h.leaves hm hz.inv hstep hn hq
            generalize ((ns i).told q (y.container.serve q fate).2).due = d at hleaves
            cases hleaves with
            | nothing hnone _ => cases hnone.symm.trans hstop
            | record => cases hstop
            | announce hle =>
              exact Nat.le_trans (hle stop hstop) (Nat.le_of_eq (congrArg Trail.length htrail))
      settled := hjots.settled hstep h.settled
      agrees := fun i => hafter ▸ h.agrees_step hm hstep hz.inv hgrow hjots i
      tail := hafter ▸ h.tail_step hm hstep hz.inv hgrow hjots }

end Tallied

theorem tallied_opened {c : Container} {log : List Record}
    (hinv : S.Inv ⟨c, .initial S.config, idle log⟩) (hlog : Log.size log = S.start) :
    S.Tallied [] (.opened S.config c) (fun _ => .blank) (idle log) where
  sound := sound_opened hinv
  trail := congrArg (Trail.mk · fun _ => none) hlog
  sane := Tally.sane_quiet S.start
  settled _ _ := .inl rfl
  agrees _ := .of_nothing (Notes.onSite_blank S _) (fun h => absurd rfl h) rfl rfl fun _ => rfl
  tail := by
    have hinitial : (Tables.initial S.config).state S.place = .initial := by
      simp [Tables.state, Tables.initial]
    exact hinitial ▸ .initial S.config.hasher log

/-- In every run the tail is what the tally says. -/
theorem tallied_of_steps {y z : Pool Tables Reply} {es : List (Pool.Event Tables Reply)}
    {g : Account} (hm : S.config.mode = .deferred) (hc : ¬S.calm)
    (hrun : Pool.Steps Pool.surroundings y es z) (hf : ∀ e ∈ es, e.Fits S.config S.name S.segment)
    (hy : S.Tallied [] y (fun _ => .blank) g) (hidle : ∀ i, y.threads i = none) :
    ∃ ns g, S.Tallied es z ns g := by
  obtain ⟨ns, -, g, hz⟩ := Pool.Steps.noted S.config S.Starts
    (H := fun past y ns => ∃ g, S.Tallied past y ns g)
    (fun hstep hjots he ⟨g, h⟩ => h.step hm hc hstep hjots he)
    (fun {i p} ⟨op, hop, hp⟩ => ⟨_, ⟨op, hop, rfl⟩, fun t => hp ▸ op.heeds S.config S.name t⟩)
    hrun hf (fun {i p} hi => by cases (hidle i).symm.trans hi) ⟨g, hy⟩
  exact ⟨ns, g, hz⟩

namespace Tallied

variable {es : List (Pool.Event Tables Reply)} {z : Pool Tables Reply} {ns : Nat → Notes}
  {g : Account} {x o : Nat} {p : Option Nat} {k : KeyHash}

section Bucket

variable (h : S.Tallied es z ns g) (hfloor : ∀ k, S.floor k = 0)
include h hfloor

theorem mem_bucket :
    x ∈ z.container.bucket S.segment S.config.hasher k ↔ S.Entry g.log x k := by
  refine (Inv.mem_bucket h.sound.inv).trans ⟨fun he => ⟨he, ?_⟩, fun he => he.1⟩
  rw [hfloor]
  exact Nat.zero_le x

/-- The tail has the backpointers of all entries that are kept. -/
theorem backpointer_iff : (z.state.memory S.segment).backpointers[x]? = some p ↔
    (Tally.ofRun S.start es).kept x = true ∧
      ∃ k, x ∈ z.container.bucket S.segment S.config.hasher k ∧
        LastBefore (· ∈ z.container.bucket S.segment S.config.hasher k) x p := by
  have htail := h.sound.inv.coherent.tail
  rw [show z.state.memory S.segment = _ from Inv.memory h.sound.inv]
  constructor
  · intro hp
    obtain ⟨k, he, hlast⟩ := htail.backpointer hp
    have hsome : (z.state.state S.place).backpointers[x]? = some p := hp
    exact ⟨(h.tail.backpointer.1 (by simp [hsome])).1, k, (h.mem_bucket hfloor).2 he,
      hlast.congr fun y _ => (h.mem_bucket hfloor).symm⟩
  · rintro ⟨hx, k, hmem, hlast⟩
    have he := (h.mem_bucket hfloor).1 hmem
    obtain ⟨q, hq⟩ := Option.ne_none_iff_exists'.1 (h.tail.backpointer.2 ⟨hx, k, he.1⟩)
    obtain ⟨k', he', hlast'⟩ := htail.backpointer hq
    obtain rfl := he.unique he'
    exact hq.trans (congrArg some
      (hlast'.unique (hlast.congr fun y _ => h.mem_bucket hfloor)))

/-- The head of a bucket is in the tail if its newest linked entry is kept. -/
theorem head_iff : (z.state.memory S.segment).heads[k]? = some o ↔
    (Tally.ofRun S.start es).kept o = true ∧
      o ∈ z.container.bucket S.segment S.config.hasher k ∧
      ∀ x ∈ z.container.bucket S.segment S.config.hasher k,
        (Tally.ofRun S.start es).trail.Recorded x → x ≤ o := by
  have htail := h.sound.inv.coherent.tail
  have hsettled {x : Nat} : (Tally.ofRun S.start es).trail.Recorded x → g.Settled x := by
    rw [← h.trail]
    exact id
  rw [show z.state.memory S.segment = _ from Inv.memory h.sound.inv]
  constructor
  · intro ho
    obtain ⟨⟨he, -⟩, hnewest⟩ := htail.head ho
    exact ⟨h.tail.kept_of_head ho, (h.mem_bucket hfloor).2 he, fun x hx hr =>
      hnewest x (hsettled hr) ((h.mem_bucket hfloor).1 hx)⟩
  · rintro ⟨hkept, hmem, hmax⟩
    have he := (h.mem_bucket hfloor).1 hmem
    obtain ⟨y, hy⟩ := Option.ne_none_iff_exists'.1 (h.tail.head hkept he.1)
    obtain ⟨⟨he', -⟩, hnewest⟩ := htail.head hy
    have hle := hmax y ((h.mem_bucket hfloor).2 he') (h.sane.recorded (h.tail.kept_of_head hy))
    have hge := hnewest o (hsettled (h.sane.recorded hkept)) he
    exact hy.trans (congrArg some (Nat.le_antisymm hle hge))

/-- Where nobody is about to link anything, and nobody was when the indexer passed on how far it
came, the entries from there on are kept. -/
theorem kept_iff (hquiet : ∀ x, ¬(Tally.ofRun S.start es).trail.Linking x)
    (hover : ∀ x, ¬Tally.Overtaken S.start es x)
    (hx : x ∈ z.container.bucket S.segment S.config.hasher k) :
    (Tally.ofRun S.start es).kept x = true ↔ max S.start (Tally.ofRun S.start es).notified ≤ x := by
  constructor
  · intro hkept
    obtain ⟨hstart, hnotified⟩ := h.sane.late (.inl hkept)
    exact Nat.max_le.2 ⟨hstart, hnotified.resolve_right (hover x)⟩
  · intro hle
    have hlt := ((h.mem_bucket hfloor).1 hx).lt
    have hrecorded : (Tally.ofRun S.start es).trail.Recorded x := by
      refine ⟨?_, hquiet x⟩
      rw [← h.trail]
      exact hlt
    exact h.sane.unindexed hrecorded (Nat.max_le.1 hle).1 (Nat.max_le.1 hle).2

/-- Then a head is in the tail if it is the end of its bucket and lies there. -/
theorem head_iff_getLast (hquiet : ∀ x, ¬(Tally.ofRun S.start es).trail.Linking x)
    (hover : ∀ x, ¬Tally.Overtaken S.start es x) :
    (z.state.memory S.segment).heads[k]? = some o ↔
      (z.container.bucket S.segment S.config.hasher k).getLast? = some o ∧
        max S.start (Tally.ofRun S.start es).notified ≤ o := by
  have hlt {x : Nat} (hx : x ∈ z.container.bucket S.segment S.config.hasher k) :
      x < (Tally.ofRun S.start es).trail.length := by
    rw [← h.trail]
    exact ((h.mem_bucket hfloor).1 hx).lt
  have hpairwise : (z.container.bucket S.segment S.config.hasher k).Pairwise (· < ·) := by
    rw [show z.container.bucket _ _ k = _ from Inv.bucket h.sound.inv k]
    exact Log.bucket_pairwise ..
  have hlast := lastBefore_getLast? hpairwise fun x => hlt
  rw [h.head_iff hfloor]
  constructor
  · rintro ⟨hkept, ho, hmax⟩
    refine ⟨hlast.unique (LastBefore.some_iff.2 ⟨ho, hlt ho, fun x hx _ => ?_⟩),
      (h.kept_iff hfloor hquiet hover ho).1 hkept⟩
    exact hmax x hx ⟨hlt hx, hquiet x⟩
  · rintro ⟨ho, hle⟩
    rw [ho] at hlast
    exact ⟨(h.kept_iff hfloor hquiet hover hlast.mem).2 hle, hlast.mem,
      fun x hx _ => hlast.le hx (hlt hx)⟩

end Bucket

end Tallied

end Site

namespace Pool

variable {config : Config} {name : String} {segment : Nat} {c : Container}
  {es : List (Event Tables Reply)} {z : Pool Tables Reply}

/-- In every state of every run, the tail has the links of exactly those entries that were recorded
and for which no greater offset was passed on since. Nothing is lost that was appended after the
opening and is not below the greatest offset that was passed on. What is below it is found only if
it had yet to be linked when that was done. Apart from that, as long as nobody is about to link
anything, the tail has exactly the links from that offset on, and the heads of the buckets that end
there. -/
theorem tail_of_unindexed {log rest : List Record} (hn : c.resolve name = .ok segment)
    (hm : config.mode = .deferred) (hc : c.LinkedUpTo config.hasher segment log rest)
    (hrun : Steps surroundings (.opened config c) es z)
    (hf : ∀ e ∈ es, e.Fits config name segment) :
    let start := (c.segment segment).data.length
    let tally := Tally.ofRun start es
    let tail := z.state.memory segment
    let bucket := z.container.bucket segment config.hasher
    (∀ x p, tail.backpointers[x]? = some p ↔
      tally.kept x = true ∧ ∃ h, x ∈ bucket h ∧ LastBefore (· ∈ bucket h) x p) ∧
    (∀ (h : KeyHash) o, tail.heads[h]? = some o ↔
      tally.kept o = true ∧ o ∈ bucket h ∧ ∀ x ∈ bucket h, tally.trail.Recorded x → x ≤ o) ∧
    (∀ x, tally.kept x = true → tally.trail.Recorded x ∧ start ≤ x ∧
      (tally.notified ≤ x ∨ Tally.Overtaken start es x)) ∧
    (∀ x, tally.trail.Recorded x → start ≤ x → tally.notified ≤ x → tally.kept x = true) ∧
    (∀ n, tail.recovered = some n → n = start) ∧
    ((∀ x, ¬tally.trail.Linking x) → (∀ x, ¬Tally.Overtaken start es x) →
      (∀ (h : KeyHash) o, tail.heads[h]? = some o ↔
        (bucket h).getLast? = some o ∧ max start tally.notified ≤ o) ∧
      ∀ x p, tail.backpointers[x]? = some p ↔ max start tally.notified ≤ x ∧
        ∃ h, x ∈ bucket h ∧ LastBefore (· ∈ bucket h) x p) := by
  intro start tally tail bucket
  have hlength : Log.size (log ++ rest) = start := by
    rw [← Log.length_encodeAll recordChecksum, ← hc.data]
  obtain ⟨ns, g, h⟩ : ∃ ns g, (Site.kept config name segment start).Tallied es z ns g :=
    Site.tallied_of_steps hm id hrun hf
      (Site.tallied_opened (hlength ▸ inv_of_linkedUpTo hn hm hc) hlength) fun _ => rfl
  have hfloor (h : KeyHash) : (Site.kept config name segment start).floor h = 0 := rfl
  have hbackpointer (x : Nat) (p : Option Nat) : tail.backpointers[x]? = some p ↔
      tally.kept x = true ∧ ∃ h, x ∈ bucket h ∧ LastBefore (· ∈ bucket h) x p :=
    h.backpointer_iff hfloor
  refine ⟨hbackpointer, fun k o => h.head_iff hfloor,
    fun x hx => ⟨h.sane.recorded hx, h.sane.late (.inl hx)⟩, fun x => h.sane.unindexed,
    fun n hr => ?_, fun hquiet hover =>
      ⟨fun k o => h.head_iff_getLast hfloor hquiet hover, fun x p => ?_⟩⟩
  · rw [show tail = _ from Site.Inv.memory h.sound.inv] at hr
    exact (h.sound.inv.coherent.recovered hr).2.1
  · rw [hbackpointer]
    have hkept {k : KeyHash} (hx : x ∈ bucket k) : tally.kept x = true ↔
        max start tally.notified ≤ x := h.kept_iff hfloor hquiet hover hx
    exact ⟨fun ⟨hk, k, hx, hlast⟩ => ⟨(hkept hx).1 hk, k, hx, hlast⟩,
      fun ⟨hle, k, hx, hlast⟩ => ⟨(hkept hx).2 hle, k, hx, hlast⟩⟩

/-- The indexer passes on how far it came while the links of an entry have yet to be recorded. They
enter a tail that they were to have left by then. -/
theorem tail_of_unindexed_amid_put :
    let c : Container := ⟨0, #[Segment.ofAttributes "t" initialAttributes]⟩
    ∃ es z, Steps surroundings (.opened (.parity .deferred) c) es z ∧
      (∀ e ∈ es, e.Fits (.parity .deferred) "t" 0) ∧ (∀ x, ¬(Tally.ofRun 0 es).trail.Linking x) ∧
      (Tally.ofRun 0 es).notified = 20 ∧ (z.state.memory 0).tailSize = (1, 1) ∧
      Tally.Overtaken 0 es 0 := by
  intro c
  let put : Move := .start 1 (.put [⟨⟨[97], none⟩, [49]⟩])
  let index : Move := .start 0 (.index ⟨⟨0, "t", 0⟩, false⟩ none)
  let run := drive (.parity .deferred) "t"
    (put :: Move.steps 1 16 ++ index :: Move.steps 0 20 ++ Move.steps 1 2)
    (.opened (.parity .deferred) c)
  have hplain {ms : List Move} (h : ms.all Move.plain = true) :
      ∀ m ∈ ms, m.Fits (.parity .deferred) "t" 0 := Move.fits_of_plain h
  obtain ⟨hrun, hf⟩ := @steps_drive (.parity .deferred) "t" 0
    (put :: Move.steps 1 16 ++ index :: Move.steps 0 20 ++ Move.steps 1 2)
    (List.forall_mem_append.2 ⟨List.forall_mem_append.2 ⟨hplain (by decide +kernel),
      List.forall_mem_cons.2 ⟨⟨rfl, rfl, rfl, rfl⟩, hplain (by decide +kernel)⟩⟩,
      hplain (by decide +kernel)⟩) (.opened _ c)
  have hlinked : c.LinkedUpTo (Config.parity .deferred).hasher 0 [] [] :=
    ⟨rfl, fun r hr => (by cases hr), Attributes.justLinks_initial _⟩
  obtain ⟨-, hhead, hkept, -⟩ :=
    tail_of_unindexed (by decide +kernel) rfl hlinked hrun hf
  have hnotified : (Tally.ofRun 0 run.1).notified = 20 := by decide +kernel
  have hzero : (run.2.state.memory 0).heads[(⟨0x100000000000000, 0⟩ : KeyHash)]? = some 0 := by
    decide +kernel
  have hunlinked : ∀ i ∈ [0, 1], (run.1.foldl Trail.after (.quiet 0)).unlinked i = none := by
    decide +kernel
  refine ⟨run.1, run.2, hrun, hf, fun x => ?_, hnotified, by decide +kernel, ?_⟩
  · rw [Tally.trail_ofRun]
    refine Trail.not_linking_of_actors [0, 1] (by decide +kernel) fun i hi p hp => ?_
    rw [hunlinked i hi] at hp
    cases hp
  · have hover := (hkept 0 ((hhead _ 0).1 hzero).1).2.2
    refine hover.resolve_left fun hle => ?_
    have hle : (Tally.ofRun 0 run.1).notified ≤ 0 := hle
    omega

end Pool
end KeyedLog
