import KeyedLog.Proofs.Segment.Steps

/-! The steps by which the tail grows and shrinks: a batch is appended, its links are recorded, and
they leave the tail once they are persisted. -/
namespace KeyedLog.Site

variable {S : Site} {z : Scene} {i : Nat}

section Append

variable {rs : List Record}

theorem entry_append {log : List Record} {x : Nat} {h : KeyHash}
    (he : S.Entry (log ++ rs) x h) (hx : Log.size log ≤ x) :
    ∃ r ∈ rs, S.config.hasher.hash r.key = .ok h := by
  obtain ⟨⟨r, hr, hh⟩, -⟩ := he
  rcases Log.mem_placed_append.1 hr with hr | hr
  · have := Log.placed_lt hr
    omega
  · exact ⟨r, Log.mem_of_mem_placed hr, hh⟩

theorem fresh_of_append {k s e : Nat} (h : (z.ghost.append i rs).fresh k = some (s, e)) :
    (k = i ∧ s = Log.size z.ghost.log ∧ e = Log.size (z.ghost.append i rs).log) ∨
      k ≠ i ∧ z.ghost.fresh k = some (s, e) := by
  simp only [Account.append] at h
  split at h
  · next hk =>
    obtain ⟨rfl, rfl⟩ := Prod.mk.inj (Option.some.inj h)
    exact .inl ⟨hk, rfl, by simp [Account.append]⟩
  · next hk => exact .inr ⟨hk, h⟩

theorem append_fresh_of_ne {k : Nat} (hk : k ≠ i) :
    (z.ghost.append i rs).fresh k = z.ghost.fresh k := if_neg hk

/-- An append settles nothing and unsettles nothing. -/
theorem settled_append (hfresh : z.ghost.fresh i = none) {x : Nat} :
    (z.ghost.append i rs).Settled x ↔ z.ghost.Settled x := by
  constructor
  · rintro ⟨hlt, hf⟩
    have hlt : x < Log.size z.ghost.log + Log.size rs := by
      simpa [Account.append] using hlt
    have hx : x < Log.size z.ghost.log := Nat.lt_of_not_le fun hge =>
      hf ⟨i, Log.size z.ghost.log, _, by simp [Account.append], hge, hlt⟩
    refine ⟨hx, fun ⟨k, s, e, hk, hs, he⟩ => hf ⟨k, s, e, ?_, hs, he⟩⟩
    have hki : k ≠ i := by
      rintro rfl
      exact absurd (hfresh.symm.trans hk) (by simp)
    exact (append_fresh_of_ne hki).trans hk
  · rintro ⟨hlt, hf⟩
    refine ⟨Nat.lt_of_lt_of_le hlt (by simp [Account.append]), fun ⟨k, s, e, hk, hs, he⟩ => ?_⟩
    rcases fresh_of_append hk with ⟨-, rfl, -⟩ | ⟨-, hk⟩
    · omega
    · exact hf ⟨k, s, e, hk, hs, he⟩

theorem Faithful.append (hz : S.Coherent z) (hfresh : z.ghost.fresh i = none) :
    S.Faithful (z.ghost.append i rs).toLedger z.attributes := by
  have hl : z.ghost.log <+: (z.ghost.append i rs).log := List.prefix_append ..
  have hf := hz.faithful
  have hle (x : Nat) (h : KeyHash) (he : S.Entry z.ghost.log x h)
      (hp : S.Persisted z.ghost.log z.attributes x h) :
      S.Persisted (z.ghost.append i rs).log z.attributes x h :=
    ⟨(lastBefore_append hl (Nat.le_of_lt he.lt)).1 hp.1, hp.2⟩
  obtain ⟨n, hn, hb, hfloor⟩ := hf.index
  exact
    { index := ⟨n, hn, hb.mono hl, hfloor⟩
      indexed := fun he hx => by
        have hlt : _ < n := (Attributes.indexed_iff hn).1 hx
        have he := he.of_lt hl (Nat.lt_of_lt_of_le hlt hb.le)
        exact hle _ _ he (hf.indexed he hx)
      backpointer_lt := fun hp =>
        Nat.lt_of_lt_of_le (hf.backpointer_lt hp) (Log.size_le_of_prefix hl)
      backpointer := fun hp he => by
        have hlt := hf.backpointer_lt hp
        exact (lastBefore_append hl (Nat.le_of_lt hlt)).1 (hf.backpointer hp (he.of_lt hl hlt))
      bucket := fun hh hy =>
        (hf.bucket hh hy).grow hl (.refl _) (settled_append hfresh).2
      deferred := hf.deferred }

section Owned

variable (hi : S.calm → i = 0) (hz : S.Coherent z) (hfresh : z.ghost.fresh i = none)
  (hrec : z.state.recovered ≠ none)
  (hown : ∀ r ∈ rs, ∀ h, S.config.hasher.hash r.key = .ok h → z.ghost.owner h = some i)

include hown in
theorem owner_of_append {x : Nat} {h : KeyHash} (he : S.Entry (z.ghost.append i rs).log x h)
    (hx : Log.size z.ghost.log ≤ x) : z.ghost.owner h = some i := by
  obtain ⟨r, hr, hh⟩ := entry_append he hx
  exact hown r hr h hh

include hz hown in
/-- Nothing comes behind an entry of a range that somebody else is about to link. -/
theorem fresh_last_append {k s e x y : Nat} {h : KeyHash}
    (hk : (z.ghost.append i rs).fresh k = some (s, e))
    (hx : S.Entry (z.ghost.append i rs).log x h) (hy : S.Entry (z.ghost.append i rs).log y h)
    (hs : s ≤ x) (he : x < e) (hxy : x ≤ y) : y < e := by
  have hl : z.ghost.log <+: (z.ghost.append i rs).log := List.prefix_append ..
  rcases fresh_of_append hk with ⟨-, -, rfl⟩ | ⟨hki, hk⟩
  · exact hy.lt
  have hx := hx.of_lt hl (Nat.lt_of_lt_of_le he (hz.fresh_le hk))
  by_cases hlt : y < Log.size z.ghost.log
  · exact hz.fresh_last hk hx (hy.of_lt hl hlt) hs he hxy
  · have ho := hz.fresh_owned hk hx hs he
    rw [owner_of_append hown hy (Nat.le_of_not_lt hlt)] at ho
    exact absurd (Option.some.inj ho).symm hki

include hi hz hfresh hrec hown in
theorem Coherent.append (hwf : Log.Wellformed S.config.hasher rs) :
    S.Coherent { z with ghost := z.ghost.append i rs } := by
  have hl : z.ghost.log <+: (z.ghost.append i rs).log := List.prefix_append ..
  have hset {x : Nat} : (z.ghost.append i rs).Settled x ↔ z.ghost.Settled x :=
    settled_append hfresh
  have hf : S.Faithful (z.ghost.append i rs).toLedger z.attributes := .append hz hfresh
  exact
    { wellformed := hz.wellformed.append hwf
      start := hz.start.mono hl
      fresh_start := fun h => by
        rcases fresh_of_append h with ⟨-, rfl, -⟩ | ⟨-, h⟩
        · exact hz.start.le
        · exact hz.fresh_start h
      fresh_le := fun h => by
        rcases fresh_of_append h with ⟨-, -, rfl⟩ | ⟨-, h⟩
        · exact Nat.le_refl _
        · exact Nat.le_trans (hz.fresh_le h) (Log.size_le_of_prefix hl)
      fresh_owned := fun h he hs hx => by
        rcases fresh_of_append h with ⟨rfl, rfl, -⟩ | ⟨-, h⟩
        · exact owner_of_append hown he hs
        · have he := he.of_lt hl (Nat.lt_of_lt_of_le hx (hz.fresh_le h))
          exact hz.fresh_owned h he hs hx
      fresh_last := fresh_last_append hz hown
      held := hz.held
      recovering := hz.recovering
      unrecovered := fun h => absurd h hrec
      recovered := hz.recovered
      calm := fun hc k hk =>
        { hz.calm hc k hk with
          fresh := (append_fresh_of_ne (hi hc ▸ hk)).trans (hz.calm hc k hk).fresh }
      faithful := hf
      tail := hz.tail.grow hl (.refl _) hf.backpointer hset
      cache := fun hh hy => (hz.cache hh hy).grow hl (.refl _) hset
      marked := hz.marked.grow hl (.refl _) hf.backpointer
      pending := fun hb => (hz.pending hb).grow hl hset.2 }

include hi hfresh hrec hown in
theorem sees_append {k : Nat} (hk : k ≠ i) :
    S.Sees k z { z with ghost := z.ghost.append i rs } :=
  have hl : z.ghost.log <+: (z.ghost.append i rs).log := List.prefix_append ..
  { Sees.refl k z with
    log := hl
    settled := (settled_append hfresh).2
    unmoved := fun _ => (settled_append hfresh).1
    fresh := append_fresh_of_ne hk
    mine := fun ho he => by
      refine he.of_lt hl (Nat.lt_of_not_le fun hge => ?_)
      rw [owner_of_append hown he hge] at ho
      exact hk (Option.some.inj ho).symm
    alone := fun hc h0 => absurd (h0.trans (hi hc).symm) hk
    recovering := fun _ hn => absurd hn hrec }

include hi hz hfresh hrec hown in
/-- A batch is appended by a thread that holds the locks of its buckets. -/
theorem moves_append (hwf : Log.Wellformed S.config.hasher rs) :
    S.Moves i z { z with ghost := z.ghost.append i rs } :=
  ⟨hz.append hi hfresh hrec hown hwf, fun _ => sees_append hi hfresh hrec hown⟩

end Owned

end Append

section Link

variable {b : PendingLinks}

theorem fresh_of_link {k s e : Nat} (h : (z.ghost.link i).fresh k = some (s, e)) :
    k ≠ i ∧ z.ghost.fresh k = some (s, e) := by
  simp only [Account.link] at h
  split at h
  · cases h
  · next hk => exact ⟨hk, h⟩

theorem settled_link {x : Nat} (hx : z.ghost.Settled x) : (z.ghost.link i).Settled x :=
  ⟨hx.1, fun ⟨k, s, e, hk, hs, he⟩ => hx.2 ⟨k, s, e, (fresh_of_link hk).2, hs, he⟩⟩

theorem settled_of_link (hfresh : z.ghost.fresh i = some (b.offset, b.offset + b.length)) {x : Nat}
    (hx : (z.ghost.link i).Settled x) :
    z.ghost.Settled x ∨ b.offset ≤ x ∧ x < b.offset + b.length := by
  by_cases hin : b.offset ≤ x ∧ x < b.offset + b.length
  · exact .inr hin
  · refine .inl ⟨hx.1, fun ⟨k, s, e, hk, hs, he⟩ => hx.2 ⟨k, s, e, ?_, hs, he⟩⟩
    have hki : k ≠ i := by
      rintro rfl
      obtain ⟨rfl, rfl⟩ := Prod.mk.inj (Option.some.inj (hk.symm.trans hfresh))
      exact hin ⟨hs, he⟩
    simpa [Account.link, hki] using hk

theorem Linked.link {x : Nat} {h : KeyHash} (hx : S.Linked z.ghost.toLedger z.attributes x h) :
    S.Linked (z.ghost.link i).toLedger z.attributes x h :=
  ⟨hx.1, hx.2.imp_left fun hf => (settled_link ⟨hx.1.lt, hf⟩).2⟩

theorem LinksHold.link (hb : S.LinksHold z.ghost.toLedger b) :
    S.LinksHold (z.ghost.link i).toLedger b :=
  { hb with
    head := fun hy => ⟨(hb.head hy).1, (settled_link ⟨(hb.head hy).1.lt, (hb.head hy).2⟩).2⟩ }

theorem Newest.link (hfresh : z.ghost.fresh i = some (b.offset, b.offset + b.length))
    (hb : S.LinksHold (z.ghost.link i).toLedger b) {y : Nat} {h : KeyHash}
    (hy : S.Newest z.ghost.toLedger z.attributes y h) (hn : ∀ y', (h, y') ∉ b.links.heads) :
    S.Newest (z.ghost.link i).toLedger z.attributes y h := by
  refine ⟨hy.1.link, fun x hx he => ?_⟩
  rcases settled_of_link hfresh hx with hx | ⟨hle, hlt⟩
  · exact hy.2 x hx he
  · obtain ⟨-, y', hy', -⟩ := hb.covered he hle hlt
    exact absurd hy' (hn y')

end Link

section Record

variable {b : PendingLinks} {heads : Heads} {backpointers : Std.ExtTreeMap Nat (Option Nat)}
  {cache : KeyHash → Option Nat} (hz : S.Coherent z)
  (hfresh : z.ghost.fresh i = some (b.offset, b.offset + b.length))
  (hb : S.LinksHold (z.ghost.link i).toLedger b)
  (htop : ∀ {h y x}, (h, y) ∈ b.links.heads → S.Entry z.ghost.log x h → x ≤ y)
  (hH : ∀ {h y}, heads[h]? = some y →
    (h, y) ∈ b.links.heads ∨ z.state.heads[h]? = some y ∧ ∀ y', (h, y') ∉ b.links.heads)
  (hH' : ∀ {h}, heads[h]? = none → z.state.heads[h]? = none ∧ ∀ y', (h, y') ∉ b.links.heads)
  (hB : ∀ {x p}, backpointers[x]? = some p →
    (x, p) ∈ b.links.backpointers ∨ z.state.backpointers[x]? = some p)
  (hB' : ∀ {x}, backpointers[x]? = none →
    z.state.backpointers[x]? = none ∧ ∀ p, (x, p) ∉ b.links.backpointers)

include hz hfresh hb htop hH hH' hB hB' in
theorem TailHolds.record :
    S.TailHolds (z.ghost.link i).toLedger z.attributes heads backpointers where
  backpointer hp := (hB hp).elim hb.backpointer hz.tail.backpointer
  chained {x h} hx hs he hp := by
    rcases settled_of_link hfresh hx with hx | ⟨hle, hlt⟩
    · exact hz.tail.chained hx hs he (hB' hp).1
    · obtain ⟨⟨p, hp'⟩, -⟩ := hb.covered he hle hlt
      exact absurd hp' ((hB' hp).2 p)
  head {h y} hy := by
    rcases hH hy with hy | ⟨hy, hn⟩
    · obtain ⟨he, hf⟩ := hb.head hy
      exact ⟨⟨he, .inl hf⟩, fun x _ hx => htop hy hx⟩
    · exact (hz.tail.head hy).link hfresh hb hn
  rooted {x h} hx hs he hh := by
    rcases settled_of_link hfresh hx with hx | ⟨hle, hlt⟩
    · exact hz.tail.rooted hx hs he (hH' hh).1
    · obtain ⟨-, y, hy, -⟩ := hb.covered he hle hlt
      exact absurd hy ((hH' hh).2 y)

include hz htop hH hH' in
/-- The head of a bucket does not move back. -/
theorem head_record {h : KeyHash} {y : Nat} (hh : h.Proper) (hy : z.head h = some y) :
    ∃ x, heads[h]?.or z.attributes[AttributeId.bucket h]? = some x ∧ y ≤ x := by
  have he : S.Entry z.ghost.log y h := by
    rcases Option.or_eq_some_iff.1 hy with hy | ⟨-, hy⟩
    · exact (hz.tail.head hy).1.1
    · exact (hz.faithful.bucket hh hy).1
  simp only [Scene.head] at hy
  cases hy' : heads[h]? with
  | none =>
    rw [(hH' hy').1] at hy
    exact ⟨y, hy, Nat.le_refl _⟩
  | some y' =>
    refine ⟨y', rfl, ?_⟩
    rcases hH hy' with hmem | ⟨hold, -⟩
    · exact htop hmem he
    · rw [hold] at hy
      exact Nat.le_of_eq (Option.some.inj hy).symm

include hz hfresh hb htop hH hH' hB hB' in
/-- The links of a fresh batch are recorded. Its entries are the newest ones of their buckets. -/
theorem moves_record
    (hC : ∀ {h y}, cache h = some y → z.cache h = some y ∧ ∀ y', (h, y') ∉ b.links.heads) :
    S.Moves i z
      { z with
        ghost := z.ghost.link i
        state := { z.state with heads, backpointers, generation := z.state.generation + 1 }
        cache } where
  coherent :=
    { hz with
      fresh_start := fun h => hz.fresh_start (fresh_of_link h).2
      fresh_le := fun h => hz.fresh_le (fresh_of_link h).2
      fresh_owned := fun h => hz.fresh_owned (fresh_of_link h).2
      fresh_last := fun h => hz.fresh_last (fresh_of_link h).2
      calm := fun hc k hk =>
        { hz.calm hc k hk with
          fresh := by
            have := (hz.calm hc k hk).fresh
            simp [Account.link, this] }
      faithful := { hz.faithful with bucket := fun hh hy => (hz.faithful.bucket hh hy).link }
      tail := .record hz hfresh hb htop hH hH' hB hB'
      cache := fun hh hy => (hz.cache hh (hC hy).1).link hfresh hb (hC hy).2
      pending := fun hb => (hz.pending hb).link }
  sees k hk :=
    { Sees.refl k z with
      settled := settled_link
      head := fun hh => head_record hz htop hH hH' hh
      generation := Nat.le_succ _
      unmoved := fun h => absurd h (Nat.succ_ne_self _)
      fresh := if_neg hk }

end Record

section Shrink

variable (hz : S.Coherent z) {heads : Heads} {backpointers : Std.ExtTreeMap Nat (Option Nat)}
  (hH : ∀ {h : KeyHash} {y : Nat}, heads[h]? = some y → z.state.heads[h]? = some y)
  (hH' : ∀ {h : KeyHash} {y : Nat}, z.state.heads[h]? = some y → heads[h]? = none →
    z.attributes.Rooted y h)
  (hB : ∀ {x : Nat} {p : Option Nat}, backpointers[x]? = some p → z.state.backpointers[x]? = some p)
  (hB' : ∀ {x : Nat} {p : Option Nat} {h : KeyHash}, z.state.backpointers[x]? = some p →
    backpointers[x]? = none → S.Entry z.ghost.log x h → S.Chained z.ghost.log z.attributes x h)

include hz hH hH' hB hB' in
theorem TailHolds.shrink :
    S.TailHolds z.ghost.toLedger z.attributes heads backpointers where
  backpointer hp := hz.tail.backpointer (hB hp)
  chained {x h} hx hs he hp := by
    cases hold : z.state.backpointers[x]? with
    | none => exact hz.tail.chained hx hs he hold
    | some p => exact hB' hold hp he
  head hy := hz.tail.head (hH hy)
  rooted {x h} hx hs he hh := by
    cases hold : z.state.heads[h]? with
    | none => exact hz.tail.rooted hx hs he hold
    | some y => exact (hH' hold hh).of_le ((hz.tail.head hold).2 x hx he)

include hH hH' in
theorem head_shrink {h : KeyHash} {y : Nat} (hy : z.head h = some y) :
    ∃ x, heads[h]?.or z.attributes[AttributeId.bucket h]? = some x ∧ y ≤ x := by
  simp only [Scene.head] at hy
  cases hnew : heads[h]? with
  | some x =>
    rw [hH hnew] at hy
    exact ⟨x, rfl, Nat.le_of_eq (Option.some.inj hy).symm⟩
  | none =>
    cases hold : z.state.heads[h]? with
    | some x =>
      rw [hold] at hy
      obtain ⟨u, hu, hle⟩ := hH' hold hnew
      exact ⟨u, hu, Option.some.inj hy ▸ hle⟩
    | none =>
      rw [hold] at hy
      exact ⟨y, hy, Nat.le_refl _⟩

include hz hH hH' hB hB' in
/-- A batch whose links were persisted leaves the tail. Heads may move on to the cache. -/
theorem moves_retire {b : PendingLinks} {cache : KeyHash → Option Nat}
    (hb : Log.Boundary z.ghost.log (b.offset + b.length))
    (hp : ∀ {x h}, S.Entry z.ghost.log x h → b.offset ≤ x → x < b.offset + b.length →
      S.Persisted z.ghost.log z.attributes x h)
    (hC : ∀ {h y}, cache h = some y → z.cache h = some y ∨ z.state.heads[h]? = some y) :
    S.Moves i z
      { z with
        state :=
          { z.state with
            heads
            backpointers
            watermark := (z.state.watermark.complete b.offset (b.offset + b.length)).1 }
        cache } where
  coherent :=
    { hz with
      recovered := fun hr =>
        let ⟨ht, hn, hw⟩ := hz.recovered hr
        ⟨ht, hn, fun hm => Nat.le_trans (hw hm) Watermark.le_complete⟩
      tail := TailHolds.shrink hz hH hH' hB hB'
      cache := fun hh hy => (hC hy).elim (hz.cache hh) hz.tail.head
      marked := hz.marked.complete hb hp }
  sees _ _ :=
    .of_memory rfl rfl (fun _ => head_shrink hH hH') (Nat.le_refl _) id rfl Watermark.le_complete

include hz hH hH' hB hB' in
/-- The watermark rises, and links leave the tail. -/
theorem moves_notify {n : Nat} (hb : Log.Boundary z.ghost.log n)
    (hp : ∀ {x h}, S.Entry z.ghost.log x h → x < n →
      S.Persisted z.ghost.log z.attributes x h) :
    S.Moves i z
      { z with
        state :=
          { z.state with
            heads
            backpointers
            watermark := (z.state.watermark.raise n).1
            generation := z.state.generation + 1 } } where
  coherent :=
    { hz with
      recovered := fun hr =>
        let ⟨ht, hn, hw⟩ := hz.recovered hr
        ⟨ht, hn, fun hm => Nat.le_trans (hw hm) (Watermark.raise_le n).1⟩
      tail := TailHolds.shrink hz hH hH' hB hB'
      marked := hz.marked.raise hb hp }
  sees _ _ :=
    .of_memory rfl rfl (fun _ => head_shrink hH hH') (Nat.le_succ _) id rfl (Watermark.raise_le n).1

end Shrink

end KeyedLog.Site
