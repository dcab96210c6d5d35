import KeyedLog.Proofs.Run.Chains

/-! Freshness: whoever reads a key sees a state at least as new as all that was linked before. -/
namespace KeyedLog

/-- What is read of a key is what one of its records says, one at least as new as some old ones. If
there is none of these, it may also be nothing. -/
def UpToDate (entries : List (Nat × Record)) (old : Nat → Prop) (key : Bytes)
    (o : Option TableEntry) : Prop :=
  (∃ x r, (x, r) ∈ entries ∧ r.key = key ∧ o = r.entryAt x ∧
    ∀ y s, (y, s) ∈ entries → s.key = key → old y → y ≤ x) ∨
  (o = none ∧ ∀ y s, (y, s) ∈ entries → s.key = key → ¬old y)

theorem UpToDate.mono {entries : List (Nat × Record)} {old old' : Nat → Prop} {key : Bytes}
    {o : Option TableEntry} (h : UpToDate entries old key o) (hold : ∀ x, old' x → old x) :
    UpToDate entries old' key o := by
  rcases h with ⟨x, r, hr, hkey, ho, hnewest⟩ | ⟨ho, hnone⟩
  · exact .inl ⟨x, r, hr, hkey, ho, fun y s hs hk hy => hnewest y s hs hk (hold y hy)⟩
  · exact .inr ⟨ho, fun y s hs hk hy => hnone y s hs hk (hold y hy)⟩

namespace Site

open Program

variable {S : Site} {i : Nat} {z z' : Scene} {w v u : World Tables Account} {log log' : List Record}
  {key : Bytes} {β : Type} {view : Nat → Record → Option β} {e : Option β}

theorem Reads.mono (hl : log <+: log') (h : S.Reads z log view key e) :
    S.Reads z log' view key e := by
  obtain ⟨k, hk, ⟨x, r, hr, hrest⟩ | hnone⟩ := h
  · exact ⟨k, hk, .inl ⟨x, r, Log.mem_placed_of_prefix hl hr, hrest⟩⟩
  · exact ⟨k, hk, .inr hnone⟩

theorem Reads.before (hg : Endures z z') (h : S.Reads z' log view key e) :
    S.Reads z log view key e := by
  obtain ⟨k, hk, ⟨x, r, hr, hkey, hx, he, hold⟩ | ⟨he, hnone⟩⟩ := h
  · exact ⟨k, hk, .inl ⟨x, r, hr, hkey, hx, he, fun y hy ha =>
      hold y (hg.settled hy) (ha.mono hg.log)⟩⟩
  · exact ⟨k, hk, .inr ⟨he, fun y hy ha => hnone y (hg.settled hy) (ha.mono hg.log)⟩⟩

theorem Reads.entry {o : Option TableKey} (h : S.Reads z log Record.keyAt key o) :
    ∃ e, S.Reads z log Record.entryAt key e ∧ o = e.map (·.key) := by
  obtain ⟨k, hk, ⟨x, r, hr, hkey, hx, ho, hold⟩ | ⟨rfl, hnone⟩⟩ := h
  · refine ⟨r.entryAt x, ⟨k, hk, .inl ⟨x, r, hr, hkey, hx, rfl, hold⟩⟩, ?_⟩
    rw [ho, Record.keyAt, Record.entryAt, Option.map_map]
    rfl
  · exact ⟨none, ⟨k, hk, .inr ⟨rfl, hnone⟩⟩, rfl⟩

/-- What is seen of a log is up to date with what was settled before and is within reach. -/
theorem Reads.upToDate {o : Option TableEntry} (h : S.Reads z log Record.entryAt key o)
    (hl : z.ghost.log <+: log) {old : Nat → Prop}
    (hold : ∀ {y s k}, (y, s) ∈ Log.placed 0 log → S.config.hasher.hash key = .ok k → old y →
      S.floor k ≤ y ∧ z.ghost.Settled y) :
    UpToDate (Log.placed 0 log) old key o := by
  obtain ⟨k, hk, h⟩ := h
  have habout {y : Nat} {s : Record} (hs : (y, s) ∈ Log.placed 0 log) (hkey : s.key = key)
      (hy : old y) : z.ghost.Settled y ∧ S.About z.ghost.log key k y := by
    obtain ⟨hfloor, hsettled⟩ := hold hs hk hy
    have hs := Log.mem_placed_of_lt hl hs hsettled.lt
    exact ⟨hsettled, ⟨⟨s, hs, hkey ▸ hk⟩, hfloor⟩, s, hs, hkey⟩
  rcases h with ⟨x, r, hr, hkey, -, ho, hnewest⟩ | ⟨ho, hnone⟩
  · exact .inl ⟨x, r, hr, hkey, ho, fun y s hs hkey hy =>
      hnewest y (habout hs hkey hy).1 (habout hs hkey hy).2⟩
  · exact .inr ⟨ho, fun y s hs hkey hy => hnone y (habout hs hkey hy).1 (habout hs hkey hy).2⟩

theorem Appended.grow {op : Operation} {r : Reply} (hg : Endures z z')
    (h : S.Appended op r z.ghost.toLedger) : S.Appended op r z'.ghost.toLedger := by
  obtain ⟨n, hvs, hall⟩ := h
  refine ⟨n, hvs, fun e he => ?_⟩
  obtain ⟨hlog, hs, hsettled⟩ := hall e he
  exact ⟨Log.mem_placed_of_prefix hg.log hlog, hs, hg.settled hsettled⟩

theorem Appended.of_start_le {T : Site} {op : Operation} {r : Reply} {g : Ledger}
    (h : T.Appended op r g) (hs : S.start ≤ T.start) : S.Appended op r g := by
  obtain ⟨n, hvs, hall⟩ := h
  refine ⟨n, hvs, fun e he => ?_⟩
  obtain ⟨hlog, hle, hsettled⟩ := hall e he
  exact ⟨hlog, Nat.le_trans hs hle, hsettled⟩

end Site

section Run

variable {config : Config} {name : String} {segment i : Nat} {c : Container}
  {es fs : List (Pool.Event Tables Reply)} {z : Pool Tables Reply}

/-- Whoever looks up keys sees a state of them that is at least as new as all that was settled
before the lookup began. -/
theorem reads_of_lookup {β : Type} {view : Nat → Record → Option β} {S : Site}
    {y : Pool Tables Reply} {g : Account} {wrap : List (Option β) → Reply}
    {p : Program Tables (List (Option β))} {keys : List Bytes} {os : List (Option β)} (hc : ¬S.calm)
    (hwrap : ∀ {os os'}, wrap os = wrap os' → os = os')
    (hp : ∀ v, S.Inv v → v.ghost.Rests i → p.Obeys S.rules i
      (fun os u => Site.Reading i S v S u ∧
        List.Forall₂ (S.Reads (S.scene v) u.ghost.log view) keys os)
      (fun _ u => Site.Reading i S v S u) v)
    (hy : y.Sound S.rules (fun _ _ _ => True) g)
    (hrun : Pool.Steps Pool.surroundings y
      (.start i (wrap <$> p) :: fs ++ [.finish i (.ok (wrap os))]) z)
    (hf : ∀ e ∈ fs, e.Fits S.config S.name S.segment) (hno : ∀ r, .finish i r ∉ fs) :
    ∃ g', z.Sound S.rules (fun _ _ _ => True) g' ∧
      List.Forall₂ (S.Reads (S.scene (y.world g)) g'.log view) keys os ∧
      g'.trail = fs.foldl Trail.after g.trail ∧
      Site.Grows (S.scene (y.world g)) (S.scene (z.world g')) := by
  obtain ⟨g', hs', hreads, ht, hgrow⟩ := Site.sound_of_operation
    (Q := fun r w => ∀ os, r = wrap os →
      List.Forall₂ (S.Reads (S.scene (y.world g)) w.ghost.log view) keys os) hc
    (fun hr hq os ho => (hq os ho).imp fun _ _ h => h.mono hr.log)
    (fun v hv hrest hyv => (Program.obeys_map _ _ _).2 <| (hp v hv hrest).mono
      (fun es u hu => ⟨hu.1.rests, fun os ho => hwrap ho ▸
        hu.2.imp fun _ _ h => h.before hyv.toEndures⟩) fun _ u hu => hu.rests)
    hy hrun hf hno
  exact ⟨g', hs', hreads os rfl, ht, hgrow⟩

/-- Whoever gets a key sees a state of it that is at least as new as all that was settled before the
lookup began. -/
theorem reads_of_get {S : Site} {y : Pool Tables Reply} {g : Account} {keys : List Bytes}
    {os : List (Option TableEntry)} (hc : ¬S.calm) (hy : y.Sound S.rules (fun _ _ _ => True) g)
    (hrun : Pool.Steps Pool.surroundings y
      (.start i ((Operation.get keys).program S.config S.name) :: fs ++
        [.finish i (.ok (.entries os))]) z)
    (hf : ∀ e ∈ fs, e.Fits S.config S.name S.segment) (hno : ∀ r, .finish i r ∉ fs) :
    ∃ g', z.Sound S.rules (fun _ _ _ => True) g' ∧
      List.Forall₂ (S.Reads (S.scene (y.world g)) g'.log Record.entryAt) keys os ∧
      g'.trail = fs.foldl Trail.after g.trail ∧
      Site.Grows (S.scene (y.world g)) (S.scene (z.world g')) :=
  reads_of_lookup hc Reply.entries.inj (fun _ hv hrest =>
    (Site.abides_get hv hrest (fun h => absurd h hc) keys).obeys.mono (fun _ _ hu => hu)
      fun _ _ hu => hu.1) hy hrun hf hno

theorem reads_of_getKeys {S : Site} {y : Pool Tables Reply} {g : Account} {keys : List Bytes}
    {os : List (Option TableKey)} (hc : ¬S.calm) (hy : y.Sound S.rules (fun _ _ _ => True) g)
    (hrun : Pool.Steps Pool.surroundings y
      (.start i ((Operation.getKeys keys).program S.config S.name) :: fs ++
        [.finish i (.ok (.keys os))]) z)
    (hf : ∀ e ∈ fs, e.Fits S.config S.name S.segment) (hno : ∀ r, .finish i r ∉ fs) :
    ∃ g', z.Sound S.rules (fun _ _ _ => True) g' ∧
      List.Forall₂ (S.Reads (S.scene (y.world g)) g'.log Record.keyAt) keys os ∧
      g'.trail = fs.foldl Trail.after g.trail ∧
      Site.Grows (S.scene (y.world g)) (S.scene (z.world g')) :=
  reads_of_lookup hc Reply.keys.inj (fun _ hv hrest =>
    (Site.abides_getKeys hv hrest (fun h => absurd h hc) keys).obeys.mono (fun _ _ hu => hu)
      fun _ _ hu => hu.1) hy hrun hf hno

/-- Whatever an operation appended is linked once it has been acknowledged. -/
theorem recorded_of_acknowledged {S : Site} {y : Pool Tables Reply} {g : Account} {op : Operation}
    {r : Reply} (hc : ¬S.calm) (hy : y.Sound S.rules (fun _ _ _ => True) g)
    (hrun : Pool.Steps Pool.surroundings y
      (.start i (op.program S.config S.name) :: es ++ .finish i (.ok r) :: fs) z)
    (hf : ∀ e ∈ es ++ fs, e.Fits S.config S.name S.segment)
    (hop : op.Fits S.config S.name S.segment i) (hno : ∀ r, .finish i r ∉ es) :
    ∃ g', z.Sound S.rules (fun _ _ _ => True) g' ∧ S.Appended op r g'.toLedger ∧
      g'.trail = fs.foldl Trail.after (es.foldl Trail.after g.trail) := by
  have hsplit : .start i (op.program S.config S.name) :: es ++ .finish i (.ok r) :: fs =
      (.start i (op.program S.config S.name) :: es ++ [.finish i (.ok r)]) ++ fs := by simp
  rw [hsplit] at hrun
  obtain ⟨m, hm, hfs⟩ := hrun.split
  obtain ⟨g₁, hs₁, happ, ht₁, -⟩ := Site.sound_of_operation
    (Q := fun r w => S.Appended op r w.ghost.toLedger) hc
    (fun hr => Site.Appended.grow hr.toEndures)
    (fun v hv hrest _ => (Site.abides_operation hv hrest (fun h => absurd h hc) hop).obeys) hy hm
    (fun e he => hf e (by simp [he])) hno
  obtain ⟨g₂, hs₂, ht₂, hgrow⟩ :=
    Site.sound_of_fits hc hfs (fun e he => hf e (by simp [he])) hs₁
  exact ⟨g₂, hs₂, happ.grow hgrow.toEndures, by rw [ht₂, ht₁]⟩

/-- Whoever gets a key sees a state of it that is at least as new as all entries that were linked
before the lookup began, whether their writes succeeded or not. These include all that was
acknowledged. -/
theorem get_upToDate {keys : List Bytes} {os : List (Option TableEntry)}
    (hc : Left config.hasher config.mode name segment c)
    (hrun : Pool.Steps Pool.surroundings (.opened config c)
      (es ++ (.start i ((Operation.get keys).program config name) :: fs ++
        [.finish i (.ok (.entries os))])) z)
    (hf : ∀ e ∈ es ++ fs, e.Fits config name segment) (hno : ∀ r, .finish i r ∉ fs) :
    let start := (c.segment segment).data.length
    let entries := z.container.entries segment
    let old := fun y => start ≤ y ∧ (es.foldl Trail.after (.quiet start)).Recorded y
    List.Forall₂ (UpToDate entries old) keys os ∧
    ∀ es₀ j op es₁ r es₂,
      es = es₀ ++ (.start j (Operation.program config name op) :: es₁ ++ .finish j (.ok r) :: es₂) →
      op.Fits config name segment j → (∀ r, .finish j r ∉ es₁) →
      ∃ n, (∀ vs, r = .versions vs → vs = (Log.placed n op.records).map (·.1)) ∧
        ∀ e ∈ Log.placed n op.records, e ∈ entries ∧ old e.1 := by
  intro start entries old
  obtain ⟨y, hy, hget⟩ := hrun.split
  obtain ⟨S, log, rfl, rfl, rfl, hcalm, hlog, hinv, -⟩ := Site.exists_of_left hc rfl rfl
  have hstart : start = S.start := hlog ▸ hinv.length
  have hquiet : Trail.quiet start = (Site.idle log).trail := by
    rw [hstart, hlog]
    rfl
  have hopened : (Pool.opened S.config c).Sound S.rules (fun _ _ _ => True) (Site.idle log) :=
    Site.sound_opened hinv
  obtain ⟨g, hs, ht, -⟩ :=
    Site.sound_of_fits hcalm hy (fun e he => hf e (by simp [he])) hopened
  obtain ⟨g', hs', hreads, -, hgrow⟩ :=
    reads_of_get hcalm hs hget (fun e he => hf e (by simp [he])) hno
  have hentries : entries = Log.placed 0 g'.log := Site.Inv.entries hs'.inv
  have hold (x : Nat) : old x ↔ S.start ≤ x ∧ g.trail.Recorded x := by
    rw [← hstart, ht, ← hquiet]
  refine ⟨hreads.imp fun key o ho => ?_, ?_⟩
  · rw [hentries, funext fun x => propext (hold x)]
    exact ho.upToDate hgrow.log fun _ _ hy => ⟨Nat.le_trans (S.floor_le _) hy.1, hy.2⟩
  · rintro es₀ j op es₁ r es₂ rfl hop hno
    obtain ⟨m, hm, hes⟩ := hy.split
    obtain ⟨g₀, hs₀, ht₀, -⟩ :=
      Site.sound_of_fits hcalm hm (fun e he => hf e (by simp [he])) hopened
    obtain ⟨g₂, hs₂, ⟨n, hvs, hall⟩, ht₂⟩ := recorded_of_acknowledged hcalm hs₀ hes
      (fun e he => hf e (by
        rcases List.mem_append.1 he with he | he <;> simp [he])) hop hno
    have htrail : g₂.trail = g.trail := by
      rw [ht₂, ht₀, ht]
      simp [Trail.after]
    have hsame : Log.placed 0 g₂.log = Log.placed 0 g.log :=
      (Site.Inv.entries hs₂.inv).symm.trans (Site.Inv.entries hs.inv)
    refine ⟨n, hvs, fun e he => ?_⟩
    obtain ⟨hmem, hle, hsettled⟩ := hall e he
    refine ⟨hentries ▸ Log.mem_placed_of_prefix hgrow.log (hsame ▸ hmem), (hold e.1).2 ⟨hle, ?_⟩⟩
    have hsettled : g₂.trail.Recorded e.1 := hsettled
    rwa [htrail] at hsettled

/-- A key is read while another value of it has been appended, but not linked. -/
theorem get_upToDate_amid_put :
    ∃ es fs z, Pool.Steps Pool.surroundings (.opened (.parity .inline) .solo)
        (es ++ (.start 1 ((Operation.get [[97]]).program (.parity .inline) "t") :: fs ++
          [.finish 1 (.ok (.entries [some ⟨⟨[97], some 0⟩, [1]⟩]))])) z ∧
      z.container.entries 0 = [(0, .update [97] [1]), (20, .update [97] [2])] ∧
      (es.foldl Trail.after (.quiet 0)).Recorded 0 ∧
      List.Forall₂ (UpToDate (z.container.entries 0)
          fun y => 0 ≤ y ∧ (es.foldl Trail.after (.quiet 0)).Recorded y)
        [[97]] [some ⟨⟨[97], some 0⟩, [1]⟩] := by
  let ms : List Pool.Move :=
    .start 0 (.put [⟨⟨[97], none⟩, [1]⟩]) :: Pool.Move.steps 0 40 ++
      .start 0 (.put [⟨⟨[97], none⟩, [2]⟩]) :: Pool.Move.steps 0 8
  let y := Pool.drive (.parity .inline) "t" ms (.opened (.parity .inline) .solo)
  let y' := y.2.assign 1 (some ((Operation.get [[97]]).program (.parity .inline) "t"))
  let z := Pool.drive (.parity .inline) "t" (Pool.Move.steps 1 9) y'
  obtain ⟨hes, hf⟩ := @Pool.steps_drive (.parity .inline) "t" 0 ms
    (Pool.Move.fits_of_plain (by decide +kernel)) (.opened (.parity .inline) .solo)
  obtain ⟨hfs, hf'⟩ := @Pool.steps_drive (.parity .inline) "t" 0 (Pool.Move.steps 1 9)
    (Pool.Move.fits_of_plain (by decide +kernel)) y'
  have hidle : y.2.threads 1 = none := Option.isNone_iff_eq_none.1 (by decide +kernel)
  have hended : (z.2.threads 1).bind Pool.ended =
      some (.ok (.entries [some ⟨⟨[97], some 0⟩, [1]⟩])) := by decide +kernel
  have hrun := hes.append (.head (.start _ hidle)
    (hfs.append (.head (Pool.step_of_ended hended) (.refl _))))
  have hno : ∀ r, .finish 1 r ∉ z.1 := Pool.not_finish_of_all (by decide +kernel) 1
  refine ⟨y.1, z.1, _, hrun, by decide +kernel, ⟨by decide +kernel, ?_⟩, ?_⟩
  · exact Trail.not_linking (i := 0) (by decide +kernel) (by decide +kernel)
  · exact (get_upToDate (.created Container.create_solo Container.resolve_solo) hrun
      (fun e he => (List.mem_append.1 he).elim (hf e) (hf' e)) hno).1

end Run

end KeyedLog
