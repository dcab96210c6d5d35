import KeyedLog.Proofs.Segment.Calls
import KeyedLog.Proofs.Segment.LinkUpdates
import KeyedLog.Proofs.Segment.Memory

/-! Persisting links: what fails is left to later writes, and what succeeds leaves the tail. -/
namespace KeyedLog.Site

open Program

variable {S : Site} {i : Nat} {z : Scene} {w v u : World Tables Account} {g g' : Ledger}
  {log : List Record} {a a' : Attributes} {b : PendingLinks} {bs : List PendingLinks}
  {E : TableError → World Tables Account → Prop}

structure Written (S : Site) (log : List Record) (a : Attributes) (b : PendingLinks) : Prop where
  head : ∀ {h y}, (h, y) ∈ b.links.heads → a.Rooted y h
  backpointer : ∀ {x p h}, (x, p) ∈ b.links.backpointers → S.Entry log x h → S.Chained log a x h

namespace LinksHold

variable (hb : S.LinksHold g b)
include hb

theorem trueUpdate {u : AttributeUpdate} (hu : u ∈ b.links.updates) : S.TrueUpdate g.log u := by
  rcases List.mem_append.1 hu with hu | hu
  · obtain ⟨h, y, hy, rfl⟩ := Links.mem_headUpdates.1 hu
    exact .bucket (hb.head hy).1
  · obtain ⟨x, p, hp, rfl⟩ := Links.mem_backpointerUpdates.1 hu
    obtain ⟨h, he, hlast⟩ := hb.backpointer hp
    exact .backpointer he hlast

/-- True updates that include those of a batch persist its links. -/
theorem written {us : List AttributeUpdate} (hf : S.Faithful g a)
    (hu : ∀ u ∈ us, S.TrueUpdate g.log u) (hsub : ∀ u ∈ b.links.updates, u ∈ us) :
    S.Written g.log (a.updateAll us) b where
  head {h y} hy := by
    have hmem := hsub _ (List.mem_append_left _ (Links.mem_headUpdates.2 ⟨h, y, hy, rfl⟩))
    exact updateAll_bucket hu (hb.head hy).1.proper (.inl hmem)
  backpointer {x p h} hp he := by
    obtain ⟨h', he', hlast⟩ := hb.backpointer hp
    obtain rfl := he.unique he'
    have hsame : (a.updateAll us)[AttributeId.backpointer x]? = p := by
      cases p with
      | some q =>
        have hmem := hsub _ (List.mem_append_right _
          (Links.mem_backpointerUpdates.2 ⟨x, q, hp, rfl⟩))
        exact updateAll_backpointer hu he hlast (.inl hmem)
      | none =>
        cases hq : (a.updateAll us)[AttributeId.backpointer x]? with
        | none => rfl
        | some q => exact (updateAll_true hf hu hq he).unique hlast
    unfold Chained
    rwa [hsame]

theorem persisted (hw : S.Written g.log a b) {x : Nat} {h : KeyHash} (he : S.Entry g.log x h)
    (hlo : b.offset ≤ x) (hhi : x < b.offset + b.length) : S.Persisted g.log a x h := by
  obtain ⟨⟨p, hp⟩, y, hy, hxy⟩ := hb.covered he hlo hhi
  exact ⟨hw.backpointer hp he, (hw.head hy).of_le hxy⟩

theorem written_grow (hw : S.Written g.log a b) (hl : g.log <+: g'.log) (ha : a.Advances a')
    (ht : ∀ {x q h}, a'[AttributeId.backpointer x]? = some q → S.Entry g'.log x h →
      LastBefore (S.Entry g'.log · h) x (some q)) : S.Written g'.log a' b where
  head hy := (hw.head hy).advance ha (hb.head hy).1.proper
  backpointer hp he := by
    obtain ⟨h', he', -⟩ := hb.backpointer hp
    obtain rfl := (he'.mono hl).unique he
    exact (hw.backpointer hp he').grow hl ha ht he'

theorem written_all (hf : S.Faithful g a)
    (hall : ∀ b ∈ bs, S.LinksHold g b) (hmem : b ∈ bs) :
    S.Written g.log (a.updateAll (bs.flatMap (·.links.updates))) b := by
  refine hb.written hf (fun u hu => ?_) fun u hu => List.mem_flatMap.2 ⟨b, hmem, hu⟩
  obtain ⟨c, hc, hu⟩ := List.mem_flatMap.1 hu
  exact (hall c hc).trueUpdate hu

end LinksHold

section Moves

variable (hz : S.Coherent z) (hm : S.config.mode = .inline) (hrec : z.state.recovered ≠ none)
include hz hm hrec

/-- The links of batches are persisted, in any order. -/
theorem moves_links (hb : ∀ b ∈ bs, S.LinksHold z.ghost.toLedger b) :
    S.Moves i z (z.updated (bs.flatMap (·.links.updates))) := by
  have hu (u : AttributeUpdate) (h : u ∈ bs.flatMap (·.links.updates)) :
      S.TrueUpdate z.ghost.log u := by
    obtain ⟨b, hmem, hu⟩ := List.mem_flatMap.1 h
    exact (hb b hmem).trueUpdate hu
  have ha := advances_updateAll hz.faithful hu
  have hno {e : AttributeUpdate} (he : e ∈ bs.flatMap (·.links.updates)) :
      e.id ≠ AttributeId.indexOffset := by
    obtain ⟨b, hmem, hu⟩ := List.mem_flatMap.1 he
    rcases List.mem_append.1 hu with hu | hu
    · obtain ⟨h, y, hy, rfl⟩ := Links.mem_headUpdates.1 hu
      exact AttributeId.bucket_ne_indexOffset ((hb b hmem).head hy).1.proper
    · obtain ⟨x, p, -, rfl⟩ := Links.mem_backpointerUpdates.1 hu
      exact AttributeId.backpointer_ne_indexOffset x
  refine moves_write hz ha (faithful_updateAll hz.faithful hu (fun hh hy => .inl ?_)
    (fun hm' => ?_) fun he hx => ?_) (fun hm' => ?_) fun _ hn => absurd hn hrec
  · obtain ⟨b, hmem, hy⟩ := List.mem_flatMap.1 hy
    rcases List.mem_append.1 hy with hy | hy
    · obtain ⟨h, y, hy, heq⟩ := Links.mem_headUpdates.1 hy
      obtain rfl : _ = y := congrArg AttributeUpdate.value heq
      exact ((hb b hmem).head hy).2
    · obtain ⟨x, p, -, heq⟩ := Links.mem_backpointerUpdates.1 hy
      exact absurd (congrArg AttributeUpdate.id heq) (AttributeId.bucket_ne_backpointer hh x)
  · rw [hm] at hm'
    cases hm'
  · obtain ⟨n, hn, hlt⟩ := hx
    rw [Attributes.updateAll_of_ne fun e he => hno he] at hn
    exact (hz.faithful.indexed he ⟨n, hn, hlt⟩).grow List.prefix_rfl ha
      (updateAll_true hz.faithful hu) he
  · rw [hm] at hm'
    cases hm'

theorem moves_index {n : Nat} (hn : Log.Boundary z.ghost.log n)
    (hle : n ≤ z.state.watermark.offset) :
    S.Moves i z (z.updated [.replaceIfGreater .indexOffset n]) := by
  have hu (u : AttributeUpdate) (h : u ∈ [AttributeUpdate.replaceIfGreater .indexOffset n]) :
      S.TrueUpdate z.ghost.log u := List.mem_singleton.1 h ▸ .index hn
  have ha := advances_updateAll hz.faithful hu
  have hno {h : KeyHash} {y : Nat} (hh : h.Proper)
      (hy : .replaceIfGreater (.bucket h) y ∈ [AttributeUpdate.replaceIfGreater .indexOffset n]) :
      False :=
    AttributeId.bucket_ne_indexOffset hh
      (congrArg AttributeUpdate.id (List.mem_singleton.1 hy))
  refine moves_write hz ha (faithful_updateAll hz.faithful hu (fun hh hy => (hno hh hy).elim)
    (fun _ _ _ hh hy => (hno hh hy).elim) fun {x h} he hx => ?_) (fun hm' => ?_)
    fun _ hn => absurd hn hrec
  · have hold : S.Persisted z.ghost.log z.attributes x h := by
      obtain ⟨m, hm, hlt⟩ := hx
      rcases Attributes.updateAll_cases hm with hm | ⟨u, hmem, -, rfl⟩
      · exact hz.faithful.indexed he ⟨m, hm, hlt⟩
      · rw [List.mem_singleton.1 hmem] at hlt
        exact hz.marked.below he (Nat.lt_of_lt_of_le hlt hle)
    exact hold.grow List.prefix_rfl ha (updateAll_true hz.faithful hu) he
  · rw [hm] at hm'
    cases hm'

end Moves

section Retire

variable (hw : S.Inv w) (ht : (S.scene w).tracked = true)
include hw ht

/-- A batch whose links are persisted leaves the tail. -/
theorem retire_spec (hb : S.LinksHold w.ghost.toLedger b)
    (hp : S.Written w.ghost.log (S.scene w).attributes b) :
    let r := Tables.retire S.segment S.place w.state b
    r.1.Serves S.segment S.place ∧ S.Moves i (S.scene w) (S.scene ⟨w.container, r.1, w.ghost⟩) ∧
      ∀ n, r.2 = some n → (S.scene ⟨w.container, r.1, w.ghost⟩).state.watermark.offset = n := by
  generalize hheads : SegmentState.retireHeads (S.scene w).state.heads w.state.cache S.segment
    b.links.heads = r
  generalize hbps : b.links.backpointers.foldl (fun m e => m.erase e.1)
    (S.scene w).state.backpointers = bps
  obtain ⟨hsome, hnone, hcache⟩ := hheads ▸ @SegmentState.retireHeads_spec
    (S.scene w).state.heads w.state.cache S.segment b.links.heads
  have hm : S.Moves i (S.scene w)
      { S.scene w with
        state :=
          { (S.scene w).state with
            heads := r.1
            backpointers := bps
            watermark :=
              ((S.scene w).state.watermark.complete b.offset (b.offset + b.length)).1 }
        cache := fun h => r.2.get? ⟨S.segment, h⟩ } := by
    refine moves_retire hw.coherent hsome
      (fun hy hn => hp.head (hnone hy hn)) (fun hx => (eraseAll_some (hbps ▸ hx)).1)
      (fun {x p h} hx hn he => ?_) hb.boundary (fun he hlo hhi => hb.persisted hp he hlo hhi) hcache
    rcases eraseAll_none (hbps ▸ hn) with hn | ⟨e, he', rfl⟩
    · exact absurd (hx.symm.trans hn) (by simp)
    · exact hp.backpointer he' he
  have hscene := scene_exchange hw.serves ht
    { (S.scene w).state with
      heads := r.1
      backpointers := bps
      watermark :=
        ((S.scene w).state.watermark.complete b.offset (b.offset + b.length)).1 } r.2 w.ghost
  have hretire : Tables.retire S.segment S.place w.state b =
      ({ w.state.modifyState S.place fun _ =>
          { (S.scene w).state with
            heads := r.1
            backpointers := bps
            watermark :=
              ((S.scene w).state.watermark.complete b.offset (b.offset + b.length)).1 } with
          cache := r.2 },
        ((S.scene w).state.watermark.complete b.offset (b.offset + b.length)).2) := by
    rw [← hheads, ← hbps]
    rfl
  rw [hretire]
  refine ⟨serves_exchange hw.serves _ _, hscene ▸ hm, fun n hn => ?_⟩
  dsimp only at hn ⊢
  rw [hscene]
  exact Watermark.complete_moved hn

/-- All of several batches leave the tail. How far the watermark rose is told. -/
theorem retireAll_spec {moved : Option Nat}
    (hb : ∀ b ∈ bs, S.LinksHold w.ghost.toLedger b ∧ S.Written w.ghost.log (S.scene w).attributes b)
    (hmoved : ∀ n, moved = some n →
      Log.Boundary w.ghost.log n ∧ n ≤ (S.scene w).state.watermark.offset) :
    let r := bs.foldl (fun (t, moved) b =>
      let (t, newer) := Tables.retire S.segment S.place t b
      (t, newer <|> moved)) (w.state, moved)
    r.1.Serves S.segment S.place ∧ S.Moves i (S.scene w) (S.scene ⟨w.container, r.1, w.ghost⟩) ∧
      ∀ n, r.2 = some n → Log.Boundary w.ghost.log n ∧
        n ≤ (S.scene ⟨w.container, r.1, w.ghost⟩).state.watermark.offset := by
  induction bs generalizing w moved with
  | nil => exact ⟨hw.serves, ⟨hw.coherent, fun j _ => .refl j _⟩, hmoved⟩
  | cons b bs ih =>
    obtain ⟨hs, hm, hoffset⟩ := retire_spec (i := i) hw ht (hb b (by simp)).1 (hb b (by simp)).2
    generalize hr : Tables.retire S.segment S.place w.state b = r at hs hm hoffset
    have hv : S.Inv ⟨w.container, r.1, w.ghost⟩ := ⟨hw.stores, hs, hm.coherent⟩
    have hgrow := (hm.minds rfl).toGrows
    obtain ⟨hs', hm', hmoved'⟩ := ih (w := ⟨w.container, r.1, w.ghost⟩) hv (hgrow.tracked ht)
      (fun b hmem => hb b (by simp [hmem])) fun n (hn : (r.2 <|> moved) = some n) => by
        cases hr2 : r.2 with
        | some m =>
          rw [hr2] at hn
          obtain rfl := Option.some.inj hn
          have hm := hoffset m hr2
          exact ⟨hm ▸ hv.coherent.marked.boundary, Nat.le_of_eq hm.symm⟩
        | none =>
          rw [hr2] at hn
          obtain ⟨hbound, hle⟩ := hmoved n hn
          exact ⟨hbound, Nat.le_trans hle hgrow.watermark⟩
    rw [List.foldl_cons]
    dsimp only
    rw [hr]
    exact ⟨hs', hm.trans hm', hmoved'⟩

end Retire

theorem obeys_persistOffset {n : Nat} {K : Except TableError Unit → World Tables Account → Prop}
    (hf : w.ghost.fresh i = none) (hm : S.config.mode = .inline)
    (hrec : (S.scene w).state.recovered = some S.start) (hn : Log.Boundary w.ghost.log n)
    (hle : n ≤ (S.scene w).state.watermark.offset)
    (hK : ∀ o v, S.Inv v → S.Minds i (S.scene w) (S.scene v) → K o v) :
    (request (.updateAttributes S.segment [.replaceIfGreater .indexOffset n])).attempt.Obeys
      S.rules i K E w := by
  refine (obeys_attempt (request (.updateAttributes S.segment _)) K w).2 ?_
  refine obeys_request_update hf (fun v hv hwv => ?_) fun e u _ hu hwu => hK _ u hu hwu.toMinds
  have hmove := moves_index (i := i) hv.coherent hm (by rw [hwv.recovered hrec]; simp)
    (hn.mono hwv.log) (Nat.le_trans hle hwv.watermark)
  refine ⟨hmove, fun u hu hvu => ?_⟩
  have hwu := hwv.toMinds.trans ((hmove.minds rfl).trans hvu.toMinds)
  exact ⟨hK _ u hu hwu, fun e _ => hK _ u hu hwu⟩

section Batches

variable (hw : S.Inv w) (ht : (S.scene w).tracked = true)
  (hb : ∀ b ∈ bs, S.LinksHold w.ghost.toLedger b)
include hw ht hb

theorem obeys_putBack {e : TableError} {K : Unit → World Tables Account → Prop}
    (hE : ∀ v, S.Inv v → S.Minds i (S.scene w) (S.scene v) → E e v) :
    (do
      Tables.change S.place fun s => { s with pending := s.pending ++ bs }
      Program.fail e : Program Tables Unit).Obeys S.rules i K E w := by
  rw [obeys_bind]
  have hback : S.Moves i (S.scene w)
      { S.scene w with
        state := { (S.scene w).state with pending := (S.scene w).state.pending ++ bs } } :=
    moves_pending hw.coherent fun {c} hc =>
      (List.mem_append.1 hc).elim hw.coherent.pending (hb c)
  refine obeys_change (f := fun s => { s with pending := s.pending ++ bs }) hw ht w.ghost rfl
    hback fun v hv hs => ?_
  exact hE v hv (hs ▸ hback.minds rfl)

/-- Batches whose links were persisted leave the tail, and the index offset is raised as far as the
watermark rose. -/
theorem obeys_leave (hf : w.ghost.fresh i = none) (hm : S.config.mode = .inline)
    (hrec : (S.scene w).state.recovered = some S.start)
    (hp : ∀ b ∈ bs, S.Written w.ghost.log (S.scene w).attributes b) :
    (do
      let (t, moved) := Tables.retireAll S.segment S.place (← read) bs
      Program.modify fun _ => t
      match moved with
      | none => return
      | some offset =>
        let _ ← (request
          (.updateAttributes S.segment [.replaceIfGreater .indexOffset offset])).attempt :
      Program Tables Unit).Obeys S.rules i
      (fun _ v => S.Inv v ∧ S.Minds i (S.scene w) (S.scene v)) E w := by
  obtain ⟨hserves, hretire, hmoved⟩ := retireAll_spec (i := i) hw ht
    (fun c hc => ⟨hb c hc, hp c hc⟩) fun n (hn : none = some n) => by cases hn
  rw [obeys_bind, obeys_read]
  unfold Tables.retireAll
  generalize List.foldl _ (w.state, (none : Option Nat)) bs = r at hserves hretire hmoved ⊢
  obtain ⟨t, moved⟩ := r
  dsimp only at hserves hretire hmoved ⊢
  rw [obeys_bind]
  refine obeys_modify_of_moves (f := fun _ => t) hw w.ghost hserves rfl hretire fun hv => ?_
  have hwv := hretire.minds rfl
  cases moved with
  | none => exact ⟨hv, hwv⟩
  | some n =>
    obtain ⟨hn, hle⟩ := hmoved n rfl
    refine (obeys_bind _ _ _ _).2 ?_
    refine obeys_persistOffset (hwv.fresh.trans hf) hm (hwv.recovered hrec) hn hle
      fun o d hd hcd => ?_
    exact ⟨hd, hwv.trans hcd⟩

end Batches

/-- Links are persisted, or left for later if that fails. -/
theorem obeys_persist (hw : S.Inv w) (ht : (S.scene w).tracked = true)
    (hf : w.ghost.fresh i = none) (hm : S.config.mode = .inline)
    (hrec : (S.scene w).state.recovered = some S.start) (hb : S.LinksHold w.ghost.toLedger b) :
    (Tables.persist S.segment S.place b).Obeys S.rules i
      (fun _ v => S.Inv v ∧ S.Minds i (S.scene w) (S.scene v))
      (fun _ v => S.Inv v ∧ S.Minds i (S.scene w) (S.scene v) ∧ ¬S.calm) w := by
  unfold Tables.persist
  rw [obeys_bind, obeys_look]
  generalize hbs : (w.state.state S.place).pending ++ [b] = bs
  have hlinks {u : World Tables Account} (hwu : S.Minds i (S.scene w) (S.scene u)) :
      ∀ b ∈ bs, S.LinksHold u.ghost.toLedger b := by
    intro c hc
    have hold : S.LinksHold w.ghost.toLedger c := by
      rcases List.mem_append.1 (hbs ▸ hc) with hc | hc
      · exact hw.coherent.pending hc
      · exact List.mem_singleton.1 hc ▸ hb
    exact hold.grow hwu.log hwu.settled
  rw [obeys_bind]
  have htake : S.Moves i (S.scene w)
      { S.scene w with state := { (S.scene w).state with pending := [] } } :=
    moves_pending hw.coherent fun hb => by cases hb
  refine obeys_change (f := fun s => { s with pending := [] }) hw ht w.ghost rfl htake
    fun v hv hs => ?_
  have hwv : S.Minds i (S.scene w) (S.scene v) := hs ▸ htake.minds rfl
  refine (obeys_bind _ _ _ _).2 ?_
  refine (obeys_attempt (request (.updateAttributes S.segment _)) _ v).2 ?_
  refine obeys_request_update (hwv.fresh.trans hf) (fun u hu hvu => ?_) fun e u hc hu hvu => ?_
  · have hwu := hwv.trans hvu.toMinds
    have hmove := moves_links (i := i) hu.coherent hm (by rw [hwu.recovered hrec]; simp)
      (hlinks hwu)
    refine ⟨hmove, fun t ht' hut => ?_⟩
    have hwt := hwu.trans ((hmove.minds rfl).trans hut.toMinds)
    refine ⟨?_, fun e hc => ?_⟩
    · have hwritten : ∀ c ∈ bs, S.Written t.ghost.log (S.scene t).attributes c := fun c hc =>
        (hlinks hwu c hc).written_grow
          ((hlinks hwu c hc).written_all hu.coherent.faithful (hlinks hwu) hc) hut.log
          hut.attributes ht'.coherent.faithful.backpointer
      exact (obeys_leave ht' (hwt.tracked ht) (hlinks hwt) (hwt.fresh.trans hf) hm
        (hwt.recovered hrec) hwritten).mono (fun _ c hc => ⟨hc.1, hwt.trans hc.2⟩) fun _ _ h => h
    · exact obeys_putBack ht' (hwt.tracked ht) (hlinks hwt) fun c hc' htc =>
        ⟨hc', hwt.trans htc, hc⟩
  · have hwu := hwv.trans hvu.toMinds
    exact obeys_putBack hu (hwu.tracked ht) (hlinks hwu) fun t ht hut => ⟨ht, hwu.trans hut, hc⟩

end KeyedLog.Site
