import KeyedLog.Proofs.Alone.Write
import KeyedLog.Proofs.Run.Freshness

/-! Linkers: three ways by which the links of new records come to be persisted. All of them leave
the same attributes behind. -/
namespace KeyedLog

open Program

namespace Tables

variable {config : Config} {name : String} {segment : Nat} {log rs : List Record} {a : Attributes}
  {c : Container} {t : Tables} {K : Container → Tables → Prop} {kind : RecordKind}

/-- Records that one write may append: some, and no more than fit. -/
def Accepts (config : Config) (kind : RecordKind) (rs : List Record) : Prop :=
  rs ≠ [] ∧ ∃ b, Batch.ofRecords config.hasher config.maxBatchLength kind rs = .ok b

theorem succeeds_write (hc : c.resolve name = .ok segment) (hopen : t.closed = false)
    (hrs : Accepts config kind rs)
    (hK : ∀ b, b.Lists config.hasher rs → (update config segment b
      (request (.append segment (Record.encodeAll recordChecksum rs)))).Succeeds
        (fun _ => K) c t) :
    (write config name kind rs).Succeeds (fun _ => K) c t := by
  obtain ⟨hne, b, hb⟩ := hrs
  unfold write
  refine succeeds_bind.2 (succeeds_checkOpen hopen (succeeds_bind.2 ?_))
  refine succeeds_request (Container.perform_resolve hc) ?_
  rw [if_neg (by simpa using hne), hb]
  refine succeeds_bind.2 ((succeeds_ofExcept_ok b).2 (succeeds_bind.2 ?_))
  exact (hK b (Batch.lists_ofRecords hb)).mono fun n c' t' h => (succeeds_pure _).2 h

end Tables

namespace Operation

variable {config : Config} {name : String} {segment : Nat} {log : List Record} {a : Attributes}
  {c : Container} {t : Tables} {op : Operation} {ops : List Operation}

def Writes (config : Config) : Operation → Prop
  | .put entries => Tables.Accepts config .value (records (.put entries))
  | .remove keys => Tables.Accepts config .tombstone (records (.remove keys))
  | _ => False

theorem Writes.records_ne (h : op.Writes config) : op.records ≠ [] := by
  cases op with
  | put entries => exact h.1
  | remove keys => exact h.1
  | get | getKeys | index => exact h.elim

theorem Writes.wellformed (h : op.Writes config) : Log.Wellformed config.hasher op.records := by
  cases op with
  | put entries =>
    obtain ⟨b, hb⟩ := h.2
    exact (Batch.lists_ofRecords hb).wellformed
  | remove keys =>
    obtain ⟨b, hb⟩ := h.2
    exact (Batch.lists_ofRecords hb).wellformed
  | get | getKeys | index => exact h.elim

theorem Writes.succeeds {K : Container → Tables → Prop} (h : op.Writes config)
    (hc : c.resolve name = .ok segment) (hopen : t.closed = false)
    (hK : ∀ b, b.Lists config.hasher op.records → (Tables.update config segment b
      (request (.append segment (Record.encodeAll recordChecksum op.records)))).Succeeds
        (fun _ => K) c t) :
    (op.program config name).Succeeds (fun _ => K) c t := by
  cases op with
  | put entries => exact (succeeds_map _ _).2 (Tables.succeeds_write hc hopen h hK)
  | remove keys =>
    refine (succeeds_map _ _).2 (succeeds_bind.2 ?_)
    exact (Tables.succeeds_write hc hopen h hK).mono fun _ _ _ h => (succeeds_pure _).2 h
  | get | getKeys | index => exact h.elim

/-- What every step keeps of a growing log is kept by all of them together. -/
theorem succeeds_forM {I : List Record → Container → Tables → Prop}
    {p : Operation → Program Tables Unit}
    (hp : ∀ op ∈ ops, ∀ log c t, I log c t →
      (p op).Succeeds (fun _ => I (log ++ op.records)) c t) (h : I log c t) :
    (ops.forM p).Succeeds (fun _ => I (log ++ ops.flatMap records)) c t := by
  induction ops generalizing log c t with
  | nil =>
    rw [List.flatMap_nil, List.append_nil]
    exact (succeeds_pure _).2 h
  | cons op ops ih =>
    rw [List.flatMap_cons, ← List.append_assoc]
    refine succeeds_bind.2 ((hp op (by simp) log c t h).mono fun _ c' t' h' => ?_)
    exact ih (fun op hop => hp op (by simp [hop])) h'

end Operation

/-- Who links the records that are written to a table. -/
inductive Linker where
  /-- The writes themselves. -/
  | inline
  /-- An index that finds the records appended, but not linked. -/
  | recovery
  /-- An indexer outside, once the writes are done. -/
  | indexer
deriving DecidableEq, Repr

namespace Linker

variable {config : Config} {name : String} {segment : Nat} {log : List Record} {a : Attributes}
  {c : Container} {ops : List Operation}

def settings (config : Config) (l : Linker) : Config :=
  { config with mode := match l with | .indexer => .deferred | _ => .inline }

def program (config : Config) (name : String) (segment : Nat) (ops : List Operation) :
    Linker → Program Tables Unit
  | .inline => ops.forM fun op => (fun _ => ()) <$> op.program config name
  | .recovery => do
    ops.forM fun op =>
      (fun _ => ()) <$> ask (.append segment (Record.encodeAll recordChecksum op.records))
    let _ ← Tables.access config segment
  | .indexer => do
    ops.forM fun op => (fun _ => ()) <$> op.program config name
    match ← Connector.ofTable? name with
    | none => return
    | some connector =>
      let _ ← Indexer.run config connector

theorem wellformed_records (hops : ∀ op ∈ ops, op.Writes config) :
    Log.Wellformed config.hasher (ops.flatMap Operation.records) := by
  intro r hr
  obtain ⟨op, hop, hr⟩ := List.mem_flatMap.1 hr
  exact (hops op hop).wellformed r hr

section Succeeds

variable {J : Container → Prop} (hc : c.Shows name segment log a)
  (ha : Log.LinkMap config.hasher log a) (hops : ∀ op ∈ ops, op.Writes config)
  (hJ : ∀ d b, d.Shows name segment (log ++ ops.flatMap Operation.records) b →
    Log.LinkMap config.hasher (log ++ ops.flatMap Operation.records) b → J d)
include hc ha hops hJ

theorem succeeds_inline (hm : config.mode = .inline) :
    (program config name segment ops .inline).Succeeds (fun _ d _ => J d) c (.initial config) := by
  have hkeep : ∀ op ∈ ops, ∀ log c t, (∃ a, c.Shows name segment log a ∧
        Log.LinkMap config.hasher log a ∧ Tables.Level t segment a (Log.size log)) →
      ((fun _ => ()) <$> op.program config name : Program Tables Unit).Succeeds
        (fun _ c t => ∃ a, c.Shows name segment (log ++ op.records) a ∧
          Log.LinkMap config.hasher (log ++ op.records) a ∧
          Tables.Level t segment a (Log.size (log ++ op.records))) c t := by
    rintro op hop log c t ⟨a, hc, ha, ht⟩
    refine (succeeds_map _ _).2 ((hops op hop).succeeds hc.resolve ht.opened fun b hb => ?_)
    exact Tables.succeeds_update_inline hm hc ha ht hb (hops op hop).records_ne
      fun c' t' a' hc' ha' ht' => ⟨a', hc', ha', ht'⟩
  refine (Operation.succeeds_forM hkeep ⟨a, hc, ha, Tables.level_initial ..⟩).mono ?_
  rintro _ d t ⟨b, hd, hb, -⟩
  exact hJ d b hd hb

theorem succeeds_recovery (hm : config.mode = .inline) :
    (program config name segment ops .recovery).Succeeds (fun _ d _ => J d) c
      (.initial config) := by
  have hkeep : ∀ op ∈ ops, ∀ log c t, c.Shows name segment log a ∧ t = Tables.initial config →
      ((fun _ => ()) <$> ask (.append segment (Record.encodeAll recordChecksum op.records)) :
        Program Tables Unit).Succeeds (fun _ c t => c.Shows name segment (log ++ op.records) a ∧
          t = Tables.initial config) c t := by
    rintro op - log c t ⟨hc, ht⟩
    obtain ⟨c', hp, hc'⟩ := hc.performs_append op.records
    exact (succeeds_map _ _).2 (succeeds_ask hp ⟨hc', ht⟩)
  refine succeeds_bind.2 ((Operation.succeeds_forM hkeep ⟨hc, rfl⟩).mono ?_)
  rintro _ c' t ⟨hc', rfl⟩
  have ht := (Tables.level_initial config segment a 0).toAtEase
  refine succeeds_bind.2 (Tables.succeeds_access_inline hm hc' ha (wellformed_records hops) ht
    (by rw [Tables.memory_initial]; rfl) fun _ d t b hd hb => ?_)
  exact (succeeds_pure _).2 (hJ d b hd hb)

/-- All that was written is linked by the indexer. -/
theorem succeeds_indexer (hm : config.mode = .deferred) :
    (program config name segment ops .indexer).Succeeds (fun _ d _ => J d) c
      (.initial config) := by
  have hkeep : ∀ op ∈ ops, ∀ log' c t, (c.Shows name segment log' a ∧ t.AtEase segment ∧
        Tables.Unlocked t.locks ∧
        ((t.memory segment).recovered = none → Log.size log' ≤ Log.size log)) →
      ((fun _ => ()) <$> op.program config name : Program Tables Unit).Succeeds
        (fun _ c t => c.Shows name segment (log' ++ op.records) a ∧ t.AtEase segment ∧
          Tables.Unlocked t.locks ∧ ((t.memory segment).recovered = none →
            Log.size (log' ++ op.records) ≤ Log.size log)) c t := by
    rintro op hop log' c t ⟨hc, ht, hfree, hlog⟩
    refine (succeeds_map _ _).2 ((hops op hop).succeeds hc.resolve ht.opened fun b hb => ?_)
    refine Tables.succeeds_update_deferred hm hc.holds (Log.length_encodeAll ..) ht hfree
      (congrArg (·.getD 0) ha.index) hlog fun c' t' hc' ht' hfree' hne => ?_
    exact ⟨.of_holds_append hc', ht', hfree', fun hn => absurd hn hne⟩
  have hinitial := Tables.level_initial config segment a 0
  refine succeeds_bind.2 ((Operation.succeeds_forM hkeep
    ⟨hc, hinitial.toAtEase, hinitial.unlocked, fun _ => Nat.le_refl _⟩).mono ?_)
  rintro _ c' t ⟨hc', ht, -⟩
  unfold Connector.ofTable?
  refine succeeds_bind.2 (succeeds_bind.2 (Tables.succeeds_checkOpen ht.opened ?_))
  refine succeeds_bind.2 (hc'.resolves (succeeds_bind.2 ?_))
  refine succeeds_bind.2 (hc'.getAttributes [.indexOffset] fun c₁ hc₁ => ?_)
  refine (succeeds_pure _).2 ?_
  rw [List.map_cons, List.map_nil, List.head?_cons, Option.join_some, ha.index]
  refine succeeds_bind.2 (hc₁.asksLength ((succeeds_pure _).2 (succeeds_bind.2 ?_)))
  refine Indexer.succeeds_run rfl hc₁ ha (wellformed_records hops) fun n d t b hd hb => ?_
  exact (succeeds_pure _).2 (hJ d b hd hb)

end Succeeds

/-- Every linker succeeds in linking what follows a linked log. -/
theorem succeeds {J : Container → Prop} (hc : c.Shows name segment log a)
    (ha : Log.LinkMap config.hasher log a) (hops : ∀ op ∈ ops, op.Writes config)
    (hJ : ∀ d b, d.Shows name segment (log ++ ops.flatMap Operation.records) b →
      Log.LinkMap config.hasher (log ++ ops.flatMap Operation.records) b → J d) (l : Linker) :
    (l.program (l.settings config) name segment ops).Succeeds (fun _ d _ => J d) c
      (.initial (l.settings config)) := by
  cases l with
  | inline => exact succeeds_inline hc ha hops hJ rfl
  | recovery => exact succeeds_recovery hc ha hops hJ rfl
  | indexer => exact succeeds_indexer hc ha hops hJ rfl

end Linker

/-- Containers in which all records of a table are linked, by one linker or by several in turn. -/
inductive Linked (hasher : Hasher) (name : String) (segment : Nat) :
    List Record → Container → Prop
  | created {c c' : Container} (hc : c.create name initialAttributes = .ok c')
      (hn : c'.resolve name = .ok segment) : Linked hasher name segment [] c'
  | linked {config : Config} {log : List Record} {c d : Container} {ops : List Operation}
      {t : Tables} (hc : Linked hasher name segment log c) (hh : config.hasher = hasher)
      (hops : ∀ op ∈ ops, op.Writes config) (l : Linker)
      (hrun : (l.program (l.settings config) name segment ops).run true c
        (.initial (l.settings config)) = (.ok (), d, t)) :
      Linked hasher name segment (log ++ ops.flatMap Operation.records) d

theorem Attributes.justLinks_initial (hasher : Hasher) :
    Log.LinkMap hasher [] (updateAll ∅ initialAttributes) where
  index := Site.getElem?_initialAttributes _
  head h hh := by
    rw [Site.getElem?_initialAttributes, if_neg (AttributeId.bucket_ne_indexOffset hh).symm]
    exact LastBefore.none_iff.2 fun x _ hx => Nat.not_lt_zero _ hx
  backpointer h x hx := absurd (Log.mem_bucket.1 hx).lt (Nat.not_lt_zero _)
  only {id v} hv := by
    rw [Site.getElem?_initialAttributes] at hv
    split at hv
    · next hid => exact .inl hid.symm
    · cases hv

theorem Linked.shows {hasher : Hasher} {name : String} {segment : Nat} {log : List Record}
    {c : Container} (h : Linked hasher name segment log c) :
    ∃ a, c.Shows name segment log a ∧ Log.LinkMap hasher log a := by
  induction h with
  | created hc hn =>
    have hseg := Container.segment_create hc hn
    exact ⟨_, ⟨hn, by rw [hseg]; rfl, by rw [hseg]; rfl⟩, Attributes.justLinks_initial _⟩
  | @linked config log c d ops t hc hh hops l hrun ih =>
    subst hh
    obtain ⟨a, hc, ha⟩ := ih
    obtain ⟨_, d', t', hrun', hd⟩ := Linker.succeeds hc ha hops
      (J := fun d => ∃ b, d.Shows name segment (log ++ ops.flatMap Operation.records) b ∧
        Log.LinkMap config.hasher (log ++ ops.flatMap Operation.records) b)
      (fun d b hd hb => ⟨b, hd, hb⟩) l
    rw [hrun] at hrun'
    obtain rfl := (Prod.mk.inj (Prod.mk.inj hrun').2).1
    exact hd

/-- All linkers agree. They leave the same log, and of all attributes the only ones that are its
links. -/
theorem linkers_agree {config : Config} {name : String} {segment : Nat} {log : List Record}
    {c : Container} {ops : List Operation} (hc : Linked config.hasher name segment log c)
    (hops : ∀ op ∈ ops, op.Writes config) :
    let written := log ++ ops.flatMap Operation.records
    ∃ a : Attributes, a.JustLinks (Log.size written) (Log.bucket config.hasher written) ∧
      ∀ l : Linker, ∃ d t, (l.program (l.settings config) name segment ops).run true c
          (.initial (l.settings config)) = (.ok (), d, t) ∧
        d.Shows name segment written a := by
  intro written
  obtain ⟨a₀, hc, ha₀⟩ := hc.shows
  have hall (l : Linker) : ∃ a, a.JustLinks (Log.size written) (Log.bucket config.hasher written) ∧
      ∃ d t, (l.program (l.settings config) name segment ops).run true c
          (.initial (l.settings config)) = (.ok (), d, t) ∧ d.Shows name segment written a := by
    obtain ⟨_, d, t, hrun, a, hd, ha⟩ := Linker.succeeds hc ha₀ hops
      (J := fun d => ∃ b, d.Shows name segment written b ∧
        Log.LinkMap config.hasher written b) (fun d b hd hb => ⟨b, hd, hb⟩) l
    exact ⟨a, ha, d, t, hrun, hd⟩
  obtain ⟨a, ha, -⟩ := hall .inline
  refine ⟨a, ha, fun l => ?_⟩
  obtain ⟨b, hb, h⟩ := hall l
  rwa [ha.unique hb]

/-- Entries of one bucket lie on both sides of the cut. -/
theorem linkers_agree_amid_bucket :
    let config := Config.parity .inline
    let ops : List Operation := [.remove [⟨[97], none⟩],
      .put [⟨⟨[98], none⟩, [2]⟩, ⟨⟨[99], none⟩, [3]⟩]]
    ∃ c, Linked config.hasher "t" 0 [.update [97] [1]] c ∧ (∀ op ∈ ops, op.Writes config) ∧
      ∃ a : Attributes, a.JustLinks 79 (Log.bucket config.hasher
          [.update [97] [1], .removal [97], .update [98] [2], .update [99] [3]]) ∧
        ∀ l : Linker, ∃ d t, (l.program (l.settings config) "t" 0 ops).run true c
            (.initial (l.settings config)) = (.ok (), d, t) ∧
          d.Shows "t" 0
            [.update [97] [1], .removal [97], .update [98] [2], .update [99] [3]] a := by
  intro config ops
  have hcreated : Linked config.hasher "t" 0 [] .solo :=
    .created Container.create_solo Container.resolve_solo
  have hfirst : ∀ op ∈ [Operation.put [⟨⟨[97], none⟩, [1]⟩]], op.Writes config := by
    intro op hop
    obtain rfl := List.mem_singleton.1 hop
    exact ⟨by decide, _, rfl⟩
  have hops : ∀ op ∈ ops, op.Writes config := by
    intro op hop
    rcases List.mem_cons.1 hop with rfl | hop
    · exact ⟨by decide, _, rfl⟩
    · obtain rfl := List.mem_singleton.1 hop
      exact ⟨by decide, _, rfl⟩
  obtain ⟨_, -, hlinkers⟩ := linkers_agree hcreated hfirst
  obtain ⟨c, t, hrun, _⟩ := hlinkers .indexer
  have hc : Linked config.hasher "t" 0 [.update [97] [1]] c :=
    hcreated.linked rfl hfirst .indexer hrun
  exact ⟨c, hc, hops, linkers_agree hc hops⟩

end KeyedLog
