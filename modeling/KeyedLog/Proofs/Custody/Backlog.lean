import KeyedLog.Proofs.Alone.Linkers
import KeyedLog.Proofs.Alone.PendingWrite
import KeyedLog.Proofs.Custody.IndexOffset
import KeyedLog.Proofs.Run.Dropping

/-! The backlog: what could not be persisted is left to the next write, and nothing gets lost. -/
namespace KeyedLog

/-- What is remembered of a segment when nobody has anything left to do for the batches that took up
some ranges of it. -/
structure Backlog (hasher : Hasher) (ranges : List (Nat × Nat)) (c : Container) (segment : Nat)
    (m : SegmentState) : Prop where
  /-- Each batch is pending exactly once, or all its links are among the attributes. -/
  conserved : ∀ r ∈ ranges, (m.pending.map (·.range)).count r = 1 ∨
    (m.pending.map (·.range)).count r = 0 ∧
      ∀ h, ∀ x ∈ c.bucket segment hasher h, r.1 ≤ x → x < r.2 →
        LastBefore (· ∈ c.bucket segment hasher h) x
          (c.segment segment).attributes[AttributeId.backpointer x]? ∧
        (c.segment segment).attributes.Rooted x h
  /-- Nothing else is pending, and pending batches have kept their links. -/
  pending : ∀ b ∈ m.pending, b.range ∈ ranges ∧
    (∀ x p, (x, p) ∈ b.links.backpointers ↔ (b.offset ≤ x ∧ x < b.stop) ∧
      ∃ h, x ∈ c.bucket segment hasher h ∧ LastBefore (· ∈ c.bucket segment hasher h) x p) ∧
    ∀ h y, (h, y) ∈ b.links.heads ↔ (b.offset ≤ y ∧ y < b.stop) ∧
      LastBefore (· ∈ c.bucket segment hasher h) b.stop (some y)
  /-- The watermark waits for the first pending batch. -/
  watermark : m.watermark.offset =
    ((m.pending.map (·.offset)).min?).getD (c.segment segment).data.length
  backpointer : ∀ (x : Nat) p, m.backpointers[x]? = some p ↔
    (∃ b ∈ m.pending, b.offset ≤ x ∧ x < b.stop) ∧
      ∃ h, x ∈ c.bucket segment hasher h ∧ LastBefore (· ∈ c.bucket segment hasher h) x p
  head : ∀ (h : KeyHash) o, m.heads[h]? = some o ↔
    (∃ b ∈ m.pending, b.offset ≤ o ∧ o < b.stop) ∧
      (c.bucket segment hasher h).getLast? = some o

namespace Backlog

variable {hasher : Hasher} {ranges : List (Nat × Nat)} {c : Container} {segment : Nat}
  {m : SegmentState}

/-- Once nothing is pending, the tail is empty and the watermark has reached the end. -/
theorem of_none (h : Backlog hasher ranges c segment m) (hm : m.pending = []) :
    (∀ x : Nat, m.backpointers[x]? = none) ∧ (∀ h : KeyHash, m.heads[h]? = none) ∧
      m.watermark.offset = (c.segment segment).data.length := by
  refine ⟨fun x => ?_, fun k => ?_, ?_⟩
  · cases hx : m.backpointers[x]? with
    | none => rfl
    | some p =>
      obtain ⟨⟨b, hb, -⟩, -⟩ := (h.backpointer x p).1 hx
      rw [hm] at hb
      cases hb
  · cases hx : m.heads[k]? with
    | none => rfl
    | some o =>
      obtain ⟨⟨b, hb, -⟩, -⟩ := (h.head k o).1 hx
      rw [hm] at hb
      cases hb
  · rw [h.watermark, hm]
    rfl

end Backlog

namespace Site

open Program Pool

variable {S : Site} {w : World Tables Register} {b : PendingLinks} {r : Nat × Nat} {x y o : Nat}
  {p : Option Nat} {h : KeyHash}

theorem Balanced.memory (hw : S.Balanced w) :
    w.state.memory S.segment = w.state.state S.place :=
  memory_of_serves (w := ⟨w.container, w.state, idle []⟩) hw.serves

theorem Balanced.mem_bucket (hw : S.Balanced w) :
    x ∈ w.container.bucket S.segment S.config.hasher h ↔
      Log.Entry S.config.hasher w.ghost.log x h := by
  rw [hw.stores.bucket hw.balances.wellformed]
  exact Log.mem_bucket

/-- Nobody has a batch with him, none was lost, and all links are true. -/
structure Calm (S : Site) (w : World Tables Register) : Prop where
  balanced : S.Balanced w
  stage : ∀ {b}, b ∈ w.ghost.batches →
    w.ghost.stage b.offset = .pending ∨ w.ghost.stage b.offset = .done
  links : ∀ {b x p h}, b ∈ w.ghost.batches → (x, p) ∈ b.links.backpointers →
    Log.Entry S.config.hasher w.ghost.log x h →
    LastBefore (Log.Entry S.config.hasher w.ghost.log · h) x p

namespace Calm

variable (hw : S.Calm w)
include hw

theorem mem_pending : b ∈ (w.state.state S.place).pending ↔
    b ∈ w.ghost.batches ∧ w.ghost.stage b.offset = .pending := hw.balanced.balances.pending

theorem of_tailed (hb : b ∈ w.ghost.batches) (ht : (w.ghost.stage b.offset).Tailed) :
    b ∈ (w.state.state S.place).pending := by
  refine hw.mem_pending.2 ⟨hb, ?_⟩
  rcases hw.stage hb with hs | hs
  · exact hs
  · rw [hs] at ht
    exact ht.elim

theorem tailed (hb : b ∈ (w.state.state S.place).pending) :
    b ∈ w.ghost.batches ∧ (w.ghost.stage b.offset).Tailed := by
  obtain ⟨hb, hs⟩ := hw.mem_pending.1 hb
  exact ⟨hb, hs ▸ trivial⟩

theorem lastBefore (hb : b ∈ w.ghost.batches) (hp : (x, p) ∈ b.links.backpointers)
    (hx : Log.Entry S.config.hasher w.ghost.log x h) :
    LastBefore (· ∈ w.container.bucket S.segment S.config.hasher h) x p :=
  (hw.links hb hp hx).congr fun _ _ => hw.balanced.mem_bucket.symm

theorem mem_backpointers (hb : b ∈ w.ghost.batches) :
    (x, p) ∈ b.links.backpointers ↔ (b.offset ≤ x ∧ x < b.stop) ∧
      ∃ h, x ∈ w.container.bucket S.segment S.config.hasher h ∧
        LastBefore (· ∈ w.container.bucket S.segment S.config.hasher h) x p := by
  have hspans := hw.balanced.balances.spans hb
  constructor
  · intro hp
    obtain ⟨h, hx⟩ := hspans.known hp
    exact ⟨hspans.entry hp, h, hw.balanced.mem_bucket.2 hx, hw.lastBefore hb hp hx⟩
  · rintro ⟨⟨hlo, hhi⟩, h, hx, hlast⟩
    have hx := hw.balanced.mem_bucket.1 hx
    obtain ⟨⟨q, hq⟩, -⟩ := hspans.linked hx hlo hhi
    exact (hw.lastBefore hb hq hx).unique hlast ▸ hq

/-- The heads of a batch are the last entries of their buckets up to its end. -/
theorem mem_heads (hb : b ∈ w.ghost.batches) :
    (h, y) ∈ b.links.heads ↔ (b.offset ≤ y ∧ y < b.stop) ∧
      LastBefore (· ∈ w.container.bucket S.segment S.config.hasher h) b.stop (some y) := by
  have hspans := hw.balanced.balances.spans hb
  constructor
  · intro hy
    obtain ⟨hey, hlo, hhi, hlast⟩ := hspans.head hy
    refine ⟨⟨hlo, hhi⟩, LastBefore.some_iff.2 ⟨hw.balanced.mem_bucket.2 hey, hhi, ?_⟩⟩
    intro x hx hlt
    by_cases hle : b.offset ≤ x
    · exact hlast x (hw.balanced.mem_bucket.1 hx) hle hlt
    · omega
  · rintro ⟨⟨hlo, hhi⟩, hlast⟩
    have hey := hw.balanced.mem_bucket.1 hlast.mem
    obtain ⟨-, y', hy'⟩ := hspans.linked hey hlo hhi
    obtain ⟨hey', hlo', hhi', hlast'⟩ := hspans.head hy'
    have hle := hlast.le (hw.balanced.mem_bucket.2 hey') hhi'
    have hge := hlast' y hey hlo hhi
    exact Nat.le_antisymm hle hge ▸ hy'

theorem pending_of_range (hb : b ∈ w.ghost.batches)
    (hr : b.range ∈ (w.state.state S.place).pending.map (·.range)) :
    b ∈ (w.state.state S.place).pending := by
  obtain ⟨c, hc, hrange⟩ := List.mem_map.1 hr
  have ho : c.offset = b.offset := congrArg Prod.fst hrange
  exact hw.balanced.balances.row.eq_of_offset (hw.tailed hc).1 hb ho ▸ hc

theorem conserved (hb : b ∈ w.ghost.batches) :
    ((w.state.state S.place).pending.map (·.range)).count b.range = 1 ∨
    ((w.state.state S.place).pending.map (·.range)).count b.range = 0 ∧
      ∀ h, ∀ x ∈ w.container.bucket S.segment S.config.hasher h, b.offset ≤ x → x < b.stop →
        LastBefore (· ∈ w.container.bucket S.segment S.config.hasher h) x
          (w.container.segment S.segment).attributes[AttributeId.backpointer x]? ∧
        (w.container.segment S.segment).attributes.Rooted x h := by
  have hz := hw.balanced.balances
  rcases hw.stage hb with hs | hs
  · have hnodup : ((w.state.state S.place).pending.map (·.range)).Nodup := by
      refine hz.nodup.map_on fun c hc d hd hcd => ?_
      exact hz.row.eq_of_offset (hw.tailed hc).1 (hw.tailed hd).1 (congrArg Prod.fst hcd)
    refine .inl (List.count_eq_one_of_mem hnodup (List.mem_map_of_mem ?_))
    exact hw.mem_pending.2 ⟨hb, hs⟩
  · refine .inr ⟨List.count_eq_zero_of_not_mem fun hr => ?_, fun h x hx hlo hhi => ?_⟩
    · have hpending := (hw.mem_pending.1 (hw.pending_of_range hb hr)).2
      rw [hs] at hpending
      cases hpending
    · have hx := hw.balanced.mem_bucket.1 hx
      have hkept := hz.kept hb hs
      obtain ⟨⟨p, hp⟩, y, hy⟩ := (hz.spans hb).linked hx hlo hhi
      have hbackpointer : (w.container.segment S.segment).attributes[AttributeId.backpointer x]? =
          p := hkept.backpointer hp
      rw [hbackpointer]
      obtain ⟨v, hv, hyv⟩ := hkept.head hy
      have hxy := ((hz.spans hb).head hy).2.2.2 x hx hlo hhi
      exact ⟨hw.lastBefore hb hp hx, v, hv, Nat.le_trans hxy hyv⟩

theorem watermark : (w.state.state S.place).watermark.offset =
    (((w.state.state S.place).pending.map (·.offset)).min?).getD
      (w.container.segment S.segment).data.length := by
  have hz := hw.balanced.balances
  have hmark : (w.state.state S.place).watermark = Row.mark w.ghost.done 0 w.ghost.batches :=
    hz.watermark
  have hrow : Row 0 w.ghost.batches := hz.row
  have hpending {c : PendingLinks} (hc : c ∈ (w.state.state S.place).pending) :
      w.ghost.done c.offset = false := by
    rw [Register.done, (hw.mem_pending.1 hc).2]
    rfl
  rw [hmark]
  rcases hrow.mark_stands w.ghost.done with ⟨b, hb, hdone, ho⟩ | ⟨hall, hs⟩
  · have hmem : b ∈ (w.state.state S.place).pending := by
      refine hw.mem_pending.2 ⟨hb, ?_⟩
      exact (hw.stage hb).resolve_right (of_decide_eq_false hdone)
    rw [List.min?_eq_some_iff.2 ⟨List.mem_map_of_mem hmem, ?_⟩, ho]
    · rfl
    -- Whatever begins before the watermark is done.
    · intro n hn
      obtain ⟨c, hc, rfl⟩ := List.mem_map.1 hn
      by_contra hlt
      have hdone := hrow.done_of_lt_mark (hw.tailed hc).1 (ho ▸ Nat.lt_of_not_le hlt)
      cases (hpending hc).symm.trans hdone
  · have hnil : (w.state.state S.place).pending = [] := by
      refine List.eq_nil_iff_forall_not_mem.2 fun c hc => ?_
      cases (hpending hc).symm.trans (hall c (hw.tailed hc).1)
    rw [hs, hnil, hw.balanced.length]
    exact hz.size

theorem backpointer : (w.state.state S.place).backpointers[x]? = some p ↔
    (∃ b ∈ (w.state.state S.place).pending, b.offset ≤ x ∧ x < b.stop) ∧
      ∃ h, x ∈ w.container.bucket S.segment S.config.hasher h ∧
        LastBefore (· ∈ w.container.bucket S.segment S.config.hasher h) x p := by
  refine Iff.trans hw.balanced.balances.backpointer ⟨?_, ?_⟩
  · rintro ⟨b, hb, ht, hp⟩
    obtain ⟨hrange, hlast⟩ := (hw.mem_backpointers hb).1 hp
    exact ⟨⟨b, hw.of_tailed hb ht, hrange⟩, hlast⟩
  · rintro ⟨⟨b, hb, hrange⟩, hlast⟩
    obtain ⟨hb, ht⟩ := hw.tailed hb
    exact ⟨b, hb, ht, (hw.mem_backpointers hb).2 ⟨hrange, hlast⟩⟩

theorem head : (w.state.state S.place).heads[h]? = some o ↔
    (∃ b ∈ (w.state.state S.place).pending, b.offset ≤ o ∧ o < b.stop) ∧
      (w.container.bucket S.segment S.config.hasher h).getLast? = some o := by
  have hz := hw.balanced.balances
  have hlt {x : Nat} (hx : x ∈ w.container.bucket S.segment S.config.hasher h) :
      x < Log.size w.ghost.log := (hw.balanced.mem_bucket.1 hx).lt
  have hpair : (w.container.bucket S.segment S.config.hasher h).Pairwise (· < ·) := by
    rw [hw.balanced.stores.bucket hz.wellformed]
    exact Log.bucket_pairwise ..
  have hgetLast := lastBefore_getLast? hpair fun x hx => hlt hx
  refine Iff.trans hz.head ⟨?_, ?_⟩
  · rintro ⟨b, hb, ht, ho, hlast⟩
    obtain ⟨hrange, hmem⟩ := (hw.mem_heads hb).1 ho
    refine ⟨⟨b, hw.of_tailed hb ht, hrange⟩, hgetLast.unique (LastBefore.some_iff.2 ⟨hmem.mem,
      hlt hmem.mem, fun x hx hxlt => ?_⟩)⟩
    -- The batch of another entry has a head of its own, which is no newer.
    obtain ⟨c, hc, hlo, hhi⟩ := hz.row.exists_mem (Nat.zero_le x)
      (Nat.lt_of_lt_of_le hxlt (Nat.le_of_eq hz.size.symm))
    have hx := hw.balanced.mem_bucket.1 hx
    obtain ⟨-, y, hy⟩ := (hz.spans hc).linked hx hlo hhi
    have hxy := ((hz.spans hc).head hy).2.2.2 x hx hlo hhi
    have hrecorded : (w.ghost.stage c.offset).Recorded := by
      rcases hw.stage hc with hs | hs
      · exact hs ▸ trivial
      · exact hs ▸ trivial
    exact Nat.le_trans hxy (hlast c hc hrecorded y hy)
  · rintro ⟨⟨b, hb, hlo, hhi⟩, ho⟩
    obtain ⟨hb, ht⟩ := hw.tailed hb
    rw [ho] at hgetLast
    have hstop := hw.balanced.balances.stop_le hb
    have hhead : (h, o) ∈ b.links.heads := by
      refine (hw.mem_heads hb).2 ⟨⟨hlo, hhi⟩, LastBefore.some_iff.2 ⟨hgetLast.mem, hhi, ?_⟩⟩
      exact fun x hx _ => hgetLast.le hx (hlt hx)
    refine ⟨b, hb, ht, hhead, fun c hc _ y hy => ?_⟩
    have hy := ((hw.mem_heads hc).1 hy).2.mem
    exact hgetLast.le hy (hlt hy)

theorem backlog :
    Backlog S.config.hasher (w.ghost.batches.map (·.range)) w.container S.segment
      (w.state.memory S.segment) := by
  rw [hw.balanced.memory]
  exact
    { conserved := fun r hr => by
        obtain ⟨b, hb, rfl⟩ := List.mem_map.1 hr
        exact hw.conserved hb
      pending := fun b hb => by
        obtain ⟨hb, -⟩ := hw.tailed hb
        exact ⟨List.mem_map_of_mem hb, fun x p => hw.mem_backpointers hb,
          fun h y => hw.mem_heads hb⟩
      watermark := hw.watermark
      backpointer := fun x p => hw.backpointer
      head := fun h o => hw.head }

end Calm

section Opened

variable {config : Config} {name : String} {segment : Nat} {c c' : Container}
  {es : List (Event Tables Reply)} {z : Pool Tables Reply} {g : Register}

theorem calm_of_empty (hc : c.create name initialAttributes = .ok c')
    (hn : c'.resolve name = .ok segment) (hrun : Steps surroundings (.opened config c') es z)
    (hf : ∀ e ∈ es, e.Fits config name segment)
    (hz : z.Sound (created config name segment False).custody (fun _ _ _ => True) g)
    (hes : Explains es g) (hempty : ∀ i, g.Empty i) :
    (created config name segment False).Calm (z.world g) where
  balanced := hz.inv
  stage {b} hb := by
    cases hs : g.stage b.offset with
    | fresh i => exact absurd hs (hempty i b hb).1
    | held i => exact absurd hs (hempty i b hb).2
    | pending => exact .inl hs
    | done => exact .inr hs
    | lost =>
      obtain ⟨e, he, hlost⟩ := hes.lost hb hs
      exact absurd hlost (not_deceives hrun e he)
  links hb hp hx := links_true hc hn hrun hf hz hes hb hp hx

/-- Nobody is in the way of whoever comes next. -/
theorem Balanced.atEase {S : Site} {w : World Tables Register} (hw : S.Balanced w)
    (hr : w.ghost.recoverer = none) : w.state.AtEase S.segment where
  opened := hw.serves.opened
  indexOpened := hw.serves.indexOpened
  place ref href := by
    rcases hw.serves.tracked with ⟨ht, -⟩ | ⟨ht, hsize⟩
    · rw [ht] at href
      cases href
    · rw [ht] at href
      obtain rfl := Option.some.inj href
      omega
  idle := by
    have hrecovering : (w.state.state S.place).recovering = w.ghost.recoverer.isSome :=
      hw.balances.recovering
    rw [hw.memory, hrecovering, hr]
    rfl
  unclosed := by
    have hmark : (w.state.state S.place).watermark = Row.mark w.ghost.done 0 w.ghost.batches :=
      hw.balances.watermark
    rw [hw.memory, hmark]
    exact Row.closed_mark
  reached n hn := by
    rw [hw.memory] at hn
    obtain ⟨-, rfl⟩ := hw.balances.recovered hn
    exact Nat.zero_le _

/-- Access moves the watermark to the persisted offset at most, where it has long been. -/
theorem Balanced.accessed_le {S : Site} {w : World Tables Register} (hw : S.Balanced w) {n : Nat}
    (hindex : (w.container.segment S.segment).attributes[AttributeId.indexOffset]? = some n) :
    ((w.state.memory S.segment).accessed n (Log.size w.ghost.log)).watermark.offset ≤
      Log.size w.ghost.log := by
  obtain ⟨n', hn', hle, -⟩ := hw.balances.index
  obtain rfl := Option.some.inj (hn'.symm.trans hindex)
  have hle : n' ≤ (w.state.state S.place).watermark.offset := hle
  have hwatermark : (w.state.state S.place).watermark.offset ≤ Log.size w.ghost.log :=
    hw.balances.boundary.le
  rw [hw.memory]
  cases hr : (w.state.state S.place).recovered with
  | some m => rwa [SegmentState.accessed_of_recovered (by simp [hr])]
  | none =>
    have hsame : ((w.state.state S.place).watermark.raise n').1 =
        (w.state.state S.place).watermark := by
      unfold Watermark.raise
      rw [if_pos hle]
    rw [SegmentState.accessed_of_unrecovered hr]
    dsimp only
    rwa [hsame]

end Opened

end Site

/-- A write that is left alone succeeds, and leaves nothing to be persisted. -/
theorem Operation.Writes.alone {config : Config} {name : String} {segment i n : Nat}
    {log : List Record} {a : Attributes} {op : Operation} {w : World Tables Unit}
    {K : Reply → World Tables Unit → Prop} {E : TableError → World Tables Unit → Prop}
    (h : op.Writes config) (hm : config.mode = .inline) (hc : w.container.Shows name segment log a)
    (ht : w.state.AtEase segment)
    (hfree : ∀ h : KeyHash, w.state.locks.held.contains ⟨segment, h⟩ = false)
    (hn : a[AttributeId.indexOffset]? = some n)
    (hpersisted : (w.state.memory segment).recovered = none → Log.size log ≤ n)
    (hK : ∀ r v ref, Tables.Cleared name segment ref (log ++ op.records)
      ((w.state.memory segment).accessed n (Log.size log)).watermark.offset v → K r v) :
    (op.program config name).Obeys (.alone Tables) i K E w := by
  cases op with
  | put entries =>
    obtain ⟨hne, b, hb⟩ := h
    exact (Program.obeys_map _ _ _).2 (Tables.alone_write hm hc ht hfree hn hpersisted hne hb
      fun vs v ref hv => hK _ v ref hv)
  | remove keys =>
    obtain ⟨hne, b, hb⟩ := h
    refine (Program.obeys_map _ _ _).2 ((Program.obeys_bind _ _ _ _).2 ?_)
    exact Tables.alone_write hm hc ht hfree hn hpersisted hne hb fun vs v ref hv => hK _ v ref hv
  | get | getKeys | index => exact h.elim

section Run

open Pool

variable {c c' : Container} {config : Config} {name : String} {segment : Nat}
  {es : List (Event Tables Reply)} {z : Pool Tables Reply}

/-- Whatever could not be persisted is pending, and the next write that nothing interferes with sees
to it. -/
theorem no_batch_lost (hm : config.mode = .inline)
    (hc : c.create name initialAttributes = .ok c') (hn : c'.resolve name = .ok segment)
    (hrun : Steps surroundings (.opened config c') es z)
    (hf : ∀ e ∈ es, e.Fits config name segment) (hquiet : ∀ i, ¬Underway es i) :
    Backlog config.hasher (ranges es) z.container segment (z.state.memory segment) ∧
    (z.Idle → ∀ op : Operation, op.Writes config →
      ∃ r d t, (op.program config name).run true z.container z.state = (.ok r, d, t) ∧
        (t.memory segment).pending = [] ∧
        (∀ x : Nat, (t.memory segment).backpointers[x]? = none) ∧
        (∀ h : KeyHash, (t.memory segment).heads[h]? = none) ∧
        (t.memory segment).watermark.offset = (d.segment segment).data.length ∧
        (d.segment segment).attributes[AttributeId.indexOffset]? =
          some (d.segment segment).data.length) := by
  obtain ⟨g, hz, hes⟩ := Site.exists_register hm hc hn hrun.treacherous hf
  have hb : (Site.created config name segment False).Balanced (z.world g) := hz.inv
  have hranges {es : List (Event Tables Reply)} {g : Register} (hes : Explains es g) :
      g.batches.map (·.range) = ranges es := (congrArg Prod.fst hes.ranges).symm
  constructor
  · have hcalm := Site.calm_of_empty hc hn hrun hf hz hes
      fun i => by_contra fun hi => hquiet i (hes.underway i hi)
    exact hranges hes ▸ hcalm.backlog
  intro hidle op hop
  have hrest (i : Nat) : g.Rests i := hz.rest (hidle i)
  have hrecoverer : g.recoverer = none := by
    cases hr : g.recoverer with
    | none => rfl
    | some i => exact absurd hr (hrest i).recoverer
  have hfree (h : KeyHash) : z.state.locks.held.contains ⟨segment, h⟩ = false := by
    have howner : g.owner h = none := by
      cases ho : g.owner h with
      | none => rfl
      | some i => exact absurd ho ((hrest i).owner h)
    refine (hb.balances.held h).trans ?_
    exact congrArg Option.isSome howner
  obtain ⟨n, hindex, hle, -⟩ := hb.balances.index
  have hpersisted (hr : (z.state.memory segment).recovered = none) : Log.size g.log ≤ n := by
    have hr : (z.state.state 0).recovered = none := hb.memory ▸ hr
    exact Nat.le_trans (Nat.le_of_eq (hb.size_of_unrecovered hr)) (Nat.zero_le n)
  -- To run the write alone is to go on with the run.
  have hserved (q : Call) : surroundings.fates q .served := fun e segment data hq => by cases hq
  have halone := hop.alone (i := 0) (K := fun _ v => ∃ ref, Tables.Cleared name segment ref
      (g.log ++ op.records)
      ((z.state.memory segment).accessed n (Log.size g.log)).watermark.offset v)
    (E := fun _ _ => False) (w := ⟨z.container, z.state, ()⟩) hm hb.shows (hb.atEase hrecoverer)
    hfree hindex hpersisted fun r v ref hv => ⟨ref, hv⟩
  obtain ⟨hun, r, d, t, hout, hpost⟩ := halone.unblocked
  obtain ⟨fs, hsteps, hno⟩ := steps_of_unblocked hserved (hidle 0) hun
  rw [hout] at hsteps
  obtain ⟨a, rfl, ref, a', s, hstands, hpending, hmoved⟩ | ⟨e, -, hfalse⟩ := hpost
  swap
  · exact hfalse.elim
  refine ⟨a, d, t, hout, ?_⟩
  have hfits : ∀ e ∈ es ++ (.start 0 (op.program config name) :: fs ++ [.finish 0 (.ok a)]),
      e.Fits config name segment := by
    have hop : op.Fits config name segment 0 := by
      cases op with
      | index => exact hop.elim
      | put | remove | get | getKeys => trivial
    refine List.forall_mem_append.2 ⟨hf, List.forall_mem_append.2 ⟨?_, by simp [Event.Fits]⟩⟩
    exact List.forall_mem_cons.2 ⟨⟨op, hop, rfl⟩, fun e he => .of_ne_start (hno e he)⟩
  have hrun' := hrun.append hsteps
  obtain ⟨g', hz', hes'⟩ := Site.exists_register hm hc hn hrun'.treacherous hfits
  have hrest' (i : Nat) : g'.Rests i := hz'.rest (hidle i)
  have hcalm := Site.calm_of_empty hc hn hrun' hfits hz' hes' fun i => (hrest' i).empty
  have hmemory : t.memory segment = s := hstands.keeps.memory
  obtain ⟨hbackpointers, hheads, hwatermark⟩ := hcalm.backlog.of_none (hmemory ▸ hpending)
  refine ⟨hmemory ▸ hpending, hbackpointers, hheads, hwatermark, ?_⟩
  -- The watermark has moved on, so the index offset was persisted.
  obtain ⟨n', hindex', hle', -⟩ := hcalm.balanced.balances.index
  have hlength : (d.segment segment).data.length = Log.size (g.log ++ op.records) :=
    hstands.shows.length
  have hlt : Log.size g.log < Log.size (g.log ++ op.records) := by
    refine Nat.lt_of_le_of_ne (Log.size_le_of_prefix (List.prefix_append ..)) fun hsize => ?_
    have heq := Log.eq_of_prefix_of_size (List.prefix_append g.log op.records) hsize
    exact hop.records_ne (List.self_eq_append_right.1 heq)
  have hstart := hb.accessed_le hindex
  have hwatermark' : s.watermark.offset = Log.size (g.log ++ op.records) :=
    hmemory ▸ hwatermark.trans hlength
  obtain hsame | ⟨m, hindex'', hm⟩ := hmoved
  · have hstart : ((z.state.memory segment).accessed n (Log.size g.log)).watermark.offset ≤
        Log.size g.log := hstart
    omega
  · have hattributes : (d.segment segment).attributes = a' := hstands.shows.attributes
    have hindex' : (d.segment segment).attributes[AttributeId.indexOffset]? = some n' := hindex'
    have hle' : n' ≤ (t.state 0).watermark.offset := hle'
    have hplace : t.memory segment = t.state 0 := hcalm.balanced.memory
    rw [hattributes, hindex''] at hindex'
    obtain rfl := Option.some.inj hindex'
    rw [← hplace, hmemory] at hle'
    rw [hattributes, hindex'', hlength, ← hwatermark', Nat.le_antisymm hm hle']

/-- Two writes overlap, and the links of the earlier batch cannot be persisted. The later batch is
complete, yet the watermark waits for the earlier one until the next write. -/
theorem no_batch_lost_amid_refused_links :
    let config := Config.parity .inline
    let op := Operation.remove [⟨[98], none⟩]
    ∃ es z, Steps surroundings (.opened config .solo) es z ∧ z.Idle ∧
      (z.state.memory 0).pending.map (·.range) = [(0, 20)] ∧
      (z.state.memory 0).watermark = ⟨0, [(20, 40)], false⟩ ∧
      Backlog config.hasher [(0, 20), (20, 40)] z.container 0 (z.state.memory 0) ∧
      ∃ r d t, (op.program config "t").run true z.container z.state = (.ok r, d, t) ∧
        (t.memory 0).pending = [] ∧
        (t.memory 0).watermark.offset = (d.segment 0).data.length ∧
        (d.segment 0).attributes[AttributeId.indexOffset]? = some (d.segment 0).data.length := by
  intro config op
  let ms : List Move :=
    .start 1 (.put [⟨⟨[97], none⟩, [1]⟩]) :: Move.steps 1 18 ++
      .start 2 (.put [⟨⟨[98], none⟩, [2]⟩]) :: Move.steps 2 40 ++
      .step 1 (.refused .timeout) true :: Move.steps 1 10
  let y := drive config "t" ms (.opened config .solo)
  obtain ⟨hrun, hf⟩ := @steps_drive config "t" 0 ms (Move.fits_of_plain (by decide +kernel))
    (.opened config .solo)
  have hidle : y.2.Idle := by
    intro i
    by_cases hi : i = 1 ∨ i = 2
    · rcases hi with rfl | rfl
      · exact Option.isNone_iff_eq_none.1 (by decide +kernel)
      · exact Option.isNone_iff_eq_none.1 (by decide +kernel)
    · refine hrun.idle rfl fun p hp => hi ?_
      have hall : y.1.all (fun e => e.actor = some 1 || e.actor = some 2) = true := by
        decide +kernel
      simpa [Event.actor] using List.all_eq_true.1 hall _ hp
  have hranges : ranges y.1 = [(0, 20), (20, 40)] := by decide +kernel
  have hop : op.Writes config := ⟨by simp [Operation.records], _, rfl⟩
  obtain ⟨hbacklog, hdrain⟩ := no_batch_lost rfl Container.create_solo Container.resolve_solo hrun
    hf fun i => hrun.not_underway (hidle i)
  obtain ⟨r, d, t, hout, hpending, -, -, hwatermark, hindex⟩ := hdrain hidle op hop
  exact ⟨_, y.2, hrun, hidle, by decide +kernel, by decide +kernel, hranges ▸ hbacklog, r, d, t,
    hout, hpending, hwatermark, hindex⟩

end Run
end KeyedLog
