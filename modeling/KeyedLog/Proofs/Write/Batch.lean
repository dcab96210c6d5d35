import KeyedLog.Proofs.Log.Buckets
import KeyedLog.Proofs.Segment.Growth

/-! The batch of a write: where its records will be, and what links them to their buckets. -/
namespace KeyedLog

namespace Batch

variable {hasher : Hasher} {max : Nat} {kind : RecordKind} {b c : Batch} {rs ss : List Record}
  {r : Record} {h : KeyHash}

/-- A batch lists some records, with their hashes, in order. -/
structure Lists (hasher : Hasher) (b : Batch) (rs : List Record) : Prop where
  hashed : ∀ n, b.items.map (fun i => (n + i.offset, i.hash)) = Log.hashed hasher n rs
  placed : ∀ n, b.items.map (n + ·.offset) = (Log.placed n rs).map (·.1)
  length : b.length = Log.size rs
  wellformed : Log.Wellformed hasher rs

theorem lists_empty (hasher : Hasher) (kind : RecordKind) : (empty kind).Lists hasher [] where
  hashed _ := rfl
  placed _ := rfl
  length := rfl
  wellformed _ hr := by cases hr

/-- A record that is accepted is valid, has a hash and comes to lie behind those before it. -/
theorem lists_addRecord (hb : b.Lists hasher rs) (h : addRecord hasher max b r = .ok c) :
    c.Lists hasher (rs ++ [r]) := by
  unfold addRecord at h
  cases hv : r.check with
  | error e => rw [hv] at h; cases h
  | ok u =>
    rw [hv] at h
    change (if max < b.length + r.length then _ else _) = Except.ok c at h
    split at h
    · cases h
    cases hk : hasher.hash r.key with
    | error e => rw [hk] at h; cases h
    | ok k =>
      rw [hk] at h
      obtain rfl := Except.ok.inj h
      exact
        { hashed := fun n => by
            rw [Log.hashed_append, ← hb.hashed n, ← hb.length]
            simp [add, Log.hashed, hk, Except.toOption]
          placed := fun n => by
            rw [Log.placed_append, List.map_append, ← hb.placed n, ← hb.length]
            simp [add]
          length := by
            rw [Log.size_append, ← hb.length]
            simp [add]
          wellformed := hb.wellformed.append fun s hs => by
            obtain rfl := List.mem_singleton.1 hs
            exact ⟨hv, k, hk⟩ }

theorem lists_foldlM (hb : b.Lists hasher ss) (h : rs.foldlM (addRecord hasher max) b = .ok c) :
    c.Lists hasher (ss ++ rs) := by
  induction rs generalizing b ss with
  | nil =>
    rw [← Except.ok.inj h, List.append_nil]
    exact hb
  | cons r rs ih =>
    rw [List.foldlM_cons] at h
    cases hr : addRecord hasher max b r with
    | error e => rw [hr] at h; cases h
    | ok d =>
      rw [hr] at h
      have := ih (lists_addRecord hb hr) h
      rwa [List.append_assoc] at this

theorem lists_ofRecords (h : ofRecords hasher max kind rs = .ok b) : b.Lists hasher rs :=
  lists_foldlM (lists_empty hasher kind) h

theorem Lists.mem_hashes (hb : b.Lists hasher rs) :
    h ∈ b.hashes ↔ ∃ r ∈ rs, hasher.hash r.key = .ok h := by
  have hmap : b.items.map (·.hash) = (Log.hashed hasher 0 rs).map (·.2) := by
    rw [← hb.hashed 0, List.map_map]
    rfl
  rw [hashes, List.mem_eraseDups, hmap]
  simp only [List.mem_map, Prod.exists, exists_eq_right, Log.mem_hashed]
  constructor
  · rintro ⟨x, r, hr, hh⟩
    exact ⟨r, Log.mem_of_mem_placed hr, hh⟩
  · rintro ⟨r, hr, hh⟩
    obtain ⟨x, hx⟩ := Log.exists_placed 0 hr
    exact ⟨x, r, hx, hh⟩

theorem Lists.mem_hashes_iff (hb : b.Lists hasher rs) (n : Nat) :
    h ∈ b.hashes ↔ ∃ x, (x, h) ∈ Log.hashed hasher n rs := by
  rw [hb.mem_hashes]
  simp only [Log.mem_hashed]
  constructor
  · rintro ⟨r, hr, hh⟩
    obtain ⟨x, hx⟩ := Log.exists_placed n hr
    exact ⟨x, r, hx, hh⟩
  · rintro ⟨x, r, hx, hh⟩
    exact ⟨r, Log.mem_of_mem_placed hx, hh⟩

section Linked

variable {n x y : Nat} {current : Heads}

theorem Lists.mem_backpointers (hb : b.Lists hasher rs) :
    (∃ p, (x, p) ∈ (Links.ofBatch b n current).backpointers) ↔
      ∃ h, (x, h) ∈ Log.hashed hasher n rs := by
  have hmem : x ∈ (Links.chain current (Log.hashed hasher n rs)).2.map (·.1) ↔
      x ∈ (Log.hashed hasher n rs).map (·.1) := by rw [Links.chain_offsets]
  simpa only [Links.ofBatch, hb.hashed, List.mem_map, Prod.exists, exists_and_right,
    exists_eq_right] using hmem

theorem Lists.chain_heads (hb : b.Lists hasher rs) (hh : h ∈ b.hashes) (n : Nat)
    (current : Heads) : ∃ y, (y, h) ∈ Log.hashed hasher n rs ∧
      (Links.chain current (Log.hashed hasher n rs)).1[h]? = some y := by
  have hlt (e : Nat × KeyHash) (he : e ∈ Log.hashed hasher n rs) : e.1 < n + Log.size rs := by
    obtain ⟨r, hr, -⟩ := Log.mem_hashed.1 (show (e.1, e.2) ∈ _ from he)
    have := Log.placed_bounds hr
    have := r.length_pos
    omega
  obtain ⟨q, hq, hc⟩ := @Links.chain_heads current _ (Log.hashed_pairwise hasher n rs) _ hlt h
  obtain ⟨x, hx⟩ := (hb.mem_hashes_iff n).1 hh
  obtain ⟨y, rfl, -⟩ := hq.2 x hx (hlt _ hx)
  exact ⟨y, hq.mem, hc⟩

theorem Lists.hashed_of_head (hb : b.Lists hasher rs)
    (hy : (h, y) ∈ (Links.ofBatch b n current).heads) : (y, h) ∈ Log.hashed hasher n rs := by
  simp only [Links.ofBatch, hb.hashed, List.mem_filterMap, Option.map_eq_some_iff] at hy
  obtain ⟨h', hh, y', hy, heq⟩ := hy
  obtain ⟨rfl, rfl⟩ := Prod.mk.inj heq
  obtain ⟨z, hz, hc⟩ := hb.chain_heads hh n current
  exact Option.some.inj (hc.symm.trans hy) ▸ hz

theorem Lists.exists_head (hb : b.Lists hasher rs) (hx : (x, h) ∈ Log.hashed hasher n rs) :
    ∃ y, (h, y) ∈ (Links.ofBatch b n current).heads := by
  have hh := (hb.mem_hashes_iff n).2 ⟨x, hx⟩
  obtain ⟨y, -, hc⟩ := hb.chain_heads hh n current
  refine ⟨y, ?_⟩
  simp only [Links.ofBatch, hb.hashed, List.mem_filterMap, Option.map_eq_some_iff]
  exact ⟨h, hh, y, hc, rfl⟩

end Linked

end Batch

namespace Site

variable {S : Site} {g : Ledger} {log rs : List Record} {b : Batch} {current : Heads} {h : KeyHash}
  {x y : Nat}

def Knows (S : Site) (log : List Record) (hs : List KeyHash) (current : Heads) : Prop :=
  ∀ h ∈ hs, LastBefore (S.Entry log · h) (Log.size log) current[h]?

section Batch

variable (hb : b.Lists S.config.hasher rs) (hl : log ++ rs <+: g.log)
  (hs : S.start ≤ Log.size log) (hknows : S.Knows log b.hashes current)

include hb hl

theorem mem_hashed_batch :
    (x, h) ∈ Log.hashed S.config.hasher (Log.size log) rs ↔
      Log.Entry S.config.hasher g.log x h ∧ Log.size log ≤ x ∧ x < Log.size log + b.length := by
  rw [hb.length]
  exact Log.mem_hashed_range hl

include hs hknows

theorem lastBefore_batch {bound : Nat} {q : Option Nat} (hh : h ∈ b.hashes)
    (hlo : Log.size log ≤ bound) (hhi : bound ≤ Log.size log + b.length)
    (hq : LastBefore (Of (Log.hashed S.config.hasher (Log.size log) rs) h) bound q) :
    LastBefore (S.Entry g.log · h) bound (q.or current[h]?) := by
  have hmem {x : Nat} := mem_hashed_batch (h := h) (x := x) hb hl
  refine Links.lastBefore_or hlo (fun x he hx hlt => ?_) (fun x hx => ?_) hq fun _ => ?_
  · exact hmem.2 ⟨he.1, hx, Nat.lt_of_lt_of_le hlt hhi⟩
  · obtain ⟨he, hx, -⟩ := hmem.1 hx
    exact ⟨.of_start he (Nat.le_trans hs hx), hx⟩
  · exact (lastBefore_append ((List.prefix_append ..).trans hl) (Nat.le_refl _)).1 (hknows h hh)

/-- Each bucket of the batch moves its head to the last entry there is of it by then, which is one
of the batch. -/
theorem lastBefore_of_head (hy : (h, y) ∈ (Links.ofBatch b (Log.size log) current).heads) :
    LastBefore (S.Entry g.log · h) (Log.size log + b.length) (some y) ∧ Log.size log ≤ y := by
  simp only [Links.ofBatch, hb.hashed, List.mem_filterMap, Option.map_eq_some_iff] at hy
  obtain ⟨h', hh, y', hy, heq⟩ := hy
  obtain ⟨rfl, rfl⟩ := Prod.mk.inj heq
  obtain ⟨q, hq, hc⟩ := @Links.chain_heads current _
    (Log.hashed_pairwise S.config.hasher (Log.size log) rs) _
    (fun e he => (mem_hashed_batch hb hl).1 he |>.2.2) h'
  have hlast := lastBefore_batch hb hl hs hknows hh (Nat.le_add_right ..) (Nat.le_refl _) hq
  rw [← hc, hy] at hlast
  obtain ⟨r, hr, hk⟩ := hb.mem_hashes.1 hh
  obtain ⟨x, hx⟩ := Log.exists_placed (Log.size log) hr
  obtain ⟨he, hlo, hhi⟩ := (mem_hashed_batch hb hl).1 (Log.mem_hashed.2 ⟨r, hx, hk⟩)
  exact ⟨hlast, Nat.le_trans hlo (hlast.le (.of_start he (Nat.le_trans hs hlo)) hhi)⟩

/-- The links of a batch hold once it has been appended. -/
theorem linksHold_ofBatch
    (hsettled : ∀ {x h}, S.Entry g.log x h → Log.size log ≤ x → x < Log.size log + b.length →
      ¬g.Fresh x) :
    S.LinksHold g ⟨Links.ofBatch b (Log.size log) current, Log.size log, b.length⟩ := by
  have hpair := Log.hashed_pairwise S.config.hasher (Log.size log) rs
  have hhash {x : Nat} {h : KeyHash} (hx : (x, h) ∈ Log.hashed S.config.hasher (Log.size log) rs) :
      h ∈ b.hashes := by
    obtain ⟨r, hr, hh⟩ := Log.mem_hashed.1 hx
    exact hb.mem_hashes.2 ⟨r, Log.mem_of_mem_placed hr, hh⟩
  have hentry {x : Nat} {h : KeyHash}
      (hx : (x, h) ∈ Log.hashed S.config.hasher (Log.size log) rs) :
      S.Entry g.log x h ∧ Log.size log ≤ x ∧ x < Log.size log + b.length := by
    obtain ⟨he, hx⟩ := (mem_hashed_batch hb hl).1 hx
    exact ⟨.of_start he (Nat.le_trans hs hx.1), hx⟩
  refine
    { boundary := ⟨log ++ rs, hl, by rw [Log.size_append, hb.length]⟩
      head := fun {h y} hy => ?_
      backpointer := fun {x p} hp => ?_
      covered := fun {x h} he hlo hhi => ?_ }
  · obtain ⟨hlast, hlo⟩ := lastBefore_of_head hb hl hs hknows hy
    exact ⟨hlast.mem, hsettled hlast.mem hlo hlast.lt⟩
  · simp only [Links.ofBatch, hb.hashed] at hp
    obtain ⟨h, q, hx, hq, rfl⟩ := Links.chain_backpointers hpair hp
    obtain ⟨he, hlo, hhi⟩ := hentry hx
    exact ⟨h, he, lastBefore_batch hb hl hs hknows (hhash hx) hlo (Nat.le_of_lt hhi) hq⟩
  · have hx := (mem_hashed_batch hb hl).2 ⟨he.1, hlo, hhi⟩
    constructor
    · exact hb.mem_backpointers.2 ⟨h, hx⟩
    · obtain ⟨q, hq, hc⟩ := @Links.chain_heads current _ hpair _
        (fun e he => (mem_hashed_batch hb hl).1 he |>.2.2) h
      obtain ⟨y, rfl, hxy⟩ := hq.2 x hx hhi
      refine ⟨y, ?_, hxy⟩
      simp only [Links.ofBatch, hb.hashed, List.mem_filterMap, Option.map_eq_some_iff]
      exact ⟨h, hhash hx, y, hc, rfl⟩

end Batch

end Site
end KeyedLog
