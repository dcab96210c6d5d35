import KeyedLog.Proofs.Alone.Linkers
import KeyedLog.Proofs.Recovery.AccessCalls

/-! Linking entries once more that are linked already. All that is to be written is there, but to
find that out takes going back along each bucket. -/
namespace KeyedLog

open Program Tables

namespace Attributes

variable {m : Attributes} {us : List AttributeUpdate}

/-- Nothing changes if everything that is written is there already. -/
theorem updateAll_of_present (h : ∀ u ∈ us, m[u.id]? = some u.value) : m.updateAll us = m := by
  induction us with
  | nil => rfl
  | cons u us ih =>
    have hvalue : m[u.id]? = some u.value := h u (by simp)
    have happly : u.apply (some u.value) = u.value := by
      unfold AttributeUpdate.apply
      split <;> simp_all
    have hsame : m.update u = m := by
      apply Std.ExtTreeMap.ext_getElem?
      intro id
      rw [getElem?_update]
      split
      · next hid => rw [← hid, hvalue, happly]
      · rfl
    rw [updateAll_cons, hsame]
    exact ih fun w hw => h w (by simp [hw])

end Attributes

theorem Log.exists_linkMap (hasher : Hasher) (log : List Record) :
    ∃ a, Log.LinkMap hasher log a := by
  let hashes := (Log.hashed hasher (Log.size []) log).map (·.2)
  have hin (h : KeyHash) : h ∈ hashes ↔ ∃ x, (x, h) ∈ Log.hashed hasher (Log.size []) log := by
    simp [hashes]
  have hrun :=
    Log.LinkMap.linkRun_of_collect (a := Attributes.updateAll ∅ initialAttributes) hin rfl
  exact ⟨_, (Attributes.justLinks_initial hasher).append hrun⟩

/-- All links of the entries of a segment are there, wherever the index offset may be. -/
structure Attributes.HasLinks (a : Attributes) (length : Nat) (bucket : KeyHash → List Nat) :
    Prop where
  head : ∀ h : KeyHash, h.Proper → LastBefore (· ∈ bucket h) length a[AttributeId.bucket h]?
  backpointer : ∀ h, ∀ x ∈ bucket h, LastBefore (· ∈ bucket h) x a[AttributeId.backpointer x]?

theorem Attributes.HasLinks.follows {hasher : Hasher} {log : List Record} {a : Attributes}
    {h : KeyHash} (ha : a.HasLinks (Log.size log) (Log.bucket hasher log)) (hh : h.Proper) :
    Follows (fun x => a[AttributeId.backpointer x]?) a[AttributeId.bucket h]?
      (Log.bucket hasher log h).reverse := by
  apply Follows.of_lastBefore (ha.backpointer h) (Log.bucket_pairwise hasher log h) _ (ha.head h hh)
  intro x
  constructor
  · intro hx
    exact ⟨hx, (Log.mem_bucket.1 hx).lt⟩
  · exact And.left

theorem lastBefore_head? {l : List Nat} (hl : l.Pairwise (· < ·)) (stop : Nat) :
    LastBefore (· ∈ l) stop (l.reverse.filter (· < stop)).head? := by
  have hlast : LastBefore (· ∈ l.filter (· < stop)) stop _ :=
    lastBefore_getLast? (hl.filter (· < stop)) (by simp)
  rw [List.filter_reverse, List.head?_reverse]
  apply hlast.congr
  intro x hx
  simp [hx]

namespace Tables

variable {config : Config} {name : String} {segment before : Nat} {log rest : List Record}
  {a : Attributes}

/-- Going back along a bucket comes to its newest entry before an offset, unless there are too many
entries from the offset on. -/
theorem tells_rewind {σ : Type} {cur : Option Nat} {xs : List Nat}
    (hxs : Follows (fun x => a[AttributeId.backpointer x]?) cur xs) (hs : xs.Pairwise (· > ·))
    (hops left : Nat) :
    ∃ x, (rewind segment before hops left cur : Program σ (Option Nat)).Tells name segment log a
      (if (xs.filter (before ≤ ·)).length ≤ left then .ok (xs.filter (· < before)).head?
        else .error (.corruptedBucket x (hops + left + 1))) := by
  induction hxs generalizing hops left with
  | nil =>
    refine ⟨0, ?_⟩
    unfold rewind
    exact tells_pure none
  | @cons x xs hxs ih =>
    obtain ⟨hlt, hs'⟩ := List.pairwise_cons.1 hs
    by_cases hx : x < before
    · -- All that is left is older.
      have hnone : (x :: xs).filter (before ≤ ·) = [] := by
        refine List.filter_eq_nil_iff.2 fun y hy => ?_
        rcases List.mem_cons.1 hy with rfl | hy
        · simpa using hx
        · have := hlt y hy
          simp
          omega
      refine ⟨x, ?_⟩
      unfold rewind
      rw [if_pos hx, hnone, List.length_nil, if_pos (Nat.zero_le left),
        List.filter_cons_of_pos (by simpa using hx)]
      exact tells_pure (some x)
    have hnew : (x :: xs).filter (before ≤ ·) = x :: xs.filter (before ≤ ·) :=
      List.filter_cons_of_pos (by simpa using hx)
    have hold : (x :: xs).filter (· < before) = xs.filter (· < before) :=
      List.filter_cons_of_neg (by simpa using hx)
    have hback : ((a[AttributeId.backpointer x]?).any (x ≤ ·)) = false := by
      rw [hxs.head]
      cases xs with
      | nil => rfl
      | cons y ys => simpa using hlt y (by simp)
    have hread : (attributeOf segment (.backpointer x) : Program σ (Option Nat)).Tells name segment
        log a (.ok a[AttributeId.backpointer x]?) := (learns_attributeOf _).tells
    rw [hnew, hold, List.length_cons]
    cases left with
    | zero =>
      refine ⟨x, ?_⟩
      unfold rewind
      rw [if_neg hx, if_neg (by omega)]
      refine hread.bind ?_
      rw [if_neg (by simp [hback])]
      exact tells_fail _
    | succ left =>
      obtain ⟨y, hy⟩ := ih hs' (hops + 1) left
      refine ⟨y, ?_⟩
      unfold rewind
      rw [if_neg hx]
      refine hread.bind ?_
      rw [if_neg (by simp [hback])]
      have hhops : hops + 1 + left + 1 = hops + (left + 1) + 1 := by omega
      rw [hhops] at hy
      simpa only [Nat.add_le_add_iff_right] using hy

/-- No bucket has too many entries from an offset on for them to be gone back along. -/
def Fits (config : Config) (log : List Record) (before : Nat) (h : KeyHash) : Prop :=
  ((Log.bucket config.hasher log h).filter (before ≤ ·)).length ≤ config.maxChainLength

instance (config : Config) (log : List Record) (before : Nat) (h : KeyHash) :
    Decidable (Fits config log before h) := inferInstanceAs (Decidable (_ ≤ _))

theorem fits_of_lt {h : KeyHash} (hlt : ∀ x ∈ Log.bucket config.hasher log h, x < before) :
    Fits config log before h := by
  have hnone : (Log.bucket config.hasher log h).filter (before ≤ ·) = [] := by
    refine List.filter_eq_nil_iff.2 fun x hx => ?_
    have := hlt x hx
    simp
    omega
  unfold Fits
  rw [hnone]
  exact Nat.zero_le _

/-- The heads of buckets as of an offset are found if no bucket has too many entries from there
on. -/
theorem tells_rewindAll {value : KeyHash → Option Nat} {hashes : List KeyHash}
    (ha : a.HasLinks (Log.size log) (Log.bucket config.hasher log))
    (hproper : ∀ h ∈ hashes, h.Proper)
    (hvalue : ∀ h ∈ hashes,
      LastBefore (· ∈ Log.bucket config.hasher log h) before (value h)) :
    ∃ x, (rewindAll config segment before hashes
        (hashes.map fun h => a[AttributeId.bucket h]?) : Program Tables Heads).Tells name segment
          log a
      (if ∀ h ∈ hashes, Fits config log before h then .ok (Heads.collect value ∅ hashes)
        else .error (.corruptedBucket x (config.maxChainLength + 1))) := by
  have hfold : ∀ (hs : List KeyHash) (m : Heads), hs ⊆ hashes →
      ∃ x, ((hs.zip (hs.map fun h => a[AttributeId.bucket h]?)).foldlM
          (Site.rewindStep config segment before) m : Program Tables Heads).Tells name segment log a
        (if ∀ h ∈ hs, Fits config log before h then .ok (Heads.collect value m hs)
          else .error (.corruptedBucket x (config.maxChainLength + 1))) := by
    intro hs
    induction hs with
    | nil => exact fun m _ => ⟨0, tells_pure m⟩
    | cons h hs ih =>
      intro m hsub
      rw [List.map_cons, List.zip_cons_cons, List.foldlM_cons]
      have hh : h ∈ hashes := hsub List.mem_cons_self
      have hsorted := Log.bucket_pairwise config.hasher log h
      obtain ⟨x, hx⟩ := @tells_rewind name segment before log a Tables _ _
        (ha.follows (hproper h hh)) (List.pairwise_reverse.2 hsorted) 0 config.maxChainLength
      have hlength : ((Log.bucket config.hasher log h).reverse.filter (before ≤ ·)).length =
          ((Log.bucket config.hasher log h).filter (before ≤ ·)).length := by
        rw [List.filter_reverse, List.length_reverse]
      -- Going back, the newest entry before the offset is the first such entry that is met.
      have hhead := (lastBefore_head? hsorted before).unique (hvalue h hh)
      rw [hlength, hhead, Nat.zero_add] at hx
      change (rewind _ _ _ _ _).Tells _ _ _ _ (if Fits config log before h then _ else _) at hx
      by_cases hfits : Fits config log before h
      · rw [if_pos hfits] at hx
        have hstep : (Site.rewindStep config segment before m (h, a[AttributeId.bucket h]?)).Tells
            name segment log a (.ok (Heads.collect value m [h])) := by
          apply hx.bind
          rw [Heads.collect, List.foldl_cons, List.foldl_nil]
          cases value h <;> exact tells_pure _
        obtain ⟨y, hy⟩ := ih (Heads.collect value m [h]) (List.subset_of_cons_subset hsub)
        have hiff : (∀ g ∈ h :: hs, Fits config log before g) ↔
            ∀ g ∈ hs, Fits config log before g := by simp [hfits]
        refine ⟨y, hstep.bind ?_⟩
        simp only [hiff]
        exact hy
      · rw [if_neg hfits] at hx
        refine ⟨x, ?_⟩
        rw [if_neg (by simp [hfits])]
        exact (hx.bind_error _).bind_error _
  exact hfold hashes ∅ (List.Subset.refl hashes)

/-- Only the entries of a range make a bucket too large for the range to be linked. -/
theorem fits_of_forall_mem {hashes : List KeyHash}
    (hin : ∀ h, h ∈ hashes ↔ ∃ x, (x, h) ∈ Log.hashed config.hasher (Log.size log) rest)
    (hfits : ∀ h ∈ hashes, Fits config (log ++ rest) (Log.size log) h) (h : KeyHash) :
    Fits config (log ++ rest) (Log.size log) h := by
  by_cases hh : h ∈ hashes
  · exact hfits h hh
  refine fits_of_lt fun x hx => ?_
  have he := Log.mem_bucket.1 hx
  by_contra hlt
  exact hh ((hin h).2 ⟨x, Attributes.JustLinks.mem_hashed_append.2 ⟨he, by omega, he.lt⟩⟩)

/-- Whatever links a range gets, they are there already if all links are. -/
theorem present_of_hasLinks {b : Attributes} {hashes : List KeyHash} {u : AttributeUpdate}
    (ha : a.HasLinks (Log.size (log ++ rest)) (Log.bucket config.hasher (log ++ rest)))
    (hb : Log.LinkMap config.hasher log b)
    (hin : ∀ h, h ∈ hashes ↔ ∃ x, (x, h) ∈ Log.hashed config.hasher (Log.size log) rest) :
    let chain := Links.chain (Heads.collect (fun h => b[AttributeId.bucket h]?) ∅ hashes)
      (Log.hashed config.hasher (Log.size log) rest)
    u ∈ Links.backpointerUpdates chain.2 ++ Links.headUpdates chain.1.toList →
      a[u.id]? = some u.value := by
  intro chain hu
  have hrun := Log.LinkMap.linkRun_of_collect (a := b) hin rfl
  rcases List.mem_append.1 hu with hu | hu
  · obtain ⟨y, p, hp, rfl⟩ := Links.mem_backpointerUpdates.1 hu
    obtain ⟨h, hy, hlast⟩ := hb.lastBefore_of_backpointer hrun hp
    have he := (Attributes.JustLinks.mem_hashed_append.1 hy).1
    have hthere := ha.backpointer h y (Log.mem_bucket.2 he)
    exact hthere.unique (hlast.congr fun _ _ => Log.mem_bucket.symm)
  · obtain ⟨h, y, hy, rfl⟩ := Links.mem_headUpdates.1 hu
    obtain ⟨⟨z, hz⟩, hy⟩ := hrun.moved.1 hy
    obtain ⟨y', hy', -, hlast⟩ := hb.lastBefore_of_head hrun hz
    obtain rfl := Option.some.inj (hy'.symm.trans hy)
    have hthere := ha.head h (Attributes.JustLinks.mem_hashed_append.1 hz).1.proper
    exact hthere.unique (hlast.congr fun _ _ => Log.mem_bucket.symm)

/-- To link entries once more either writes what is there anyway, or there are too many of them in a
bucket. -/
theorem tells_rangeLinks (hrest : Log.Wellformed config.hasher rest)
    (ha : a.HasLinks (Log.size (log ++ rest)) (Log.bucket config.hasher (log ++ rest))) :
    ((∀ h, Fits config (log ++ rest) (Log.size log) h) ∧ ∃ links,
      (rangeLinks config segment (Log.size log) (Log.size (log ++ rest))).Tells name segment
        (log ++ rest) a (.ok links) ∧ ∀ u ∈ links.1, a[u.id]? = some u.value) ∨
    ((∃ h, ¬Fits config (log ++ rest) (Log.size log) h) ∧ ∃ x,
      (rangeLinks config segment (Log.size log) (Log.size (log ++ rest))).Tells name segment
        (log ++ rest) a (.error (.corruptedBucket x (config.maxChainLength + 1)))) := by
  generalize hhashes :
    ((Log.hashed config.hasher (Log.size log) rest).map (·.2)).eraseDups = hashes
  have hin (h : KeyHash) :
      h ∈ hashes ↔ ∃ x, (x, h) ∈ Log.hashed config.hasher (Log.size log) rest := by
    rw [← hhashes, List.mem_eraseDups]
    simp
  have hproper : ∀ h ∈ hashes, h.Proper := by
    intro h hh
    obtain ⟨x, hx⟩ := (hin h).1 hh
    exact (Attributes.JustLinks.mem_hashed_append.1 hx).1.proper
  -- What would be there if only the entries before the range were linked.
  obtain ⟨b, hb⟩ := Log.exists_linkMap config.hasher log
  have hvalue : ∀ h ∈ hashes, LastBefore (· ∈ Log.bucket config.hasher (log ++ rest) h)
      (Log.size log) b[AttributeId.bucket h]? := by
    intro h hh
    apply (hb.head h (hproper h hh)).congr
    intro x hx
    rw [Log.mem_bucket, Log.mem_bucket, Attributes.JustLinks.entry_append_iff hx]
  obtain ⟨x, hx⟩ := @tells_rewindAll config name segment _ _ a _ hashes ha hproper hvalue
  let found (before : Heads) : Program Tables (List AttributeUpdate × List KeyHash) :=
    let chain := Links.chain before (Log.hashed config.hasher (Log.size log) rest)
    pure (Links.backpointerUpdates chain.2 ++ Links.headUpdates chain.1.toList, hashes)
  have hrange {r : Except TableError (List AttributeUpdate × List KeyHash)}
      (h : (rewindAll config segment (Log.size log) hashes
        (hashes.map fun h => a[AttributeId.bucket h]?) >>= found).Tells name segment (log ++ rest)
          a r) :
      (rangeLinks config segment (Log.size log) (Log.size (log ++ rest))).Tells name segment
        (log ++ rest) a r := by
    intro c t hc
    obtain ⟨c', hc', hruns⟩ := runs_rangeLinks hrest hc t
    rw [hhashes] at hruns
    obtain ⟨d, hrun, hd⟩ := h c' t hc'
    exact ⟨d, (hruns _ _ _ _ ⟨hrun, rfl⟩).run, hd⟩
  by_cases hfits : ∀ h ∈ hashes, Fits config (log ++ rest) (Log.size log) h
  · rw [if_pos hfits] at hx
    refine .inl ⟨fits_of_forall_mem hin hfits, _, hrange (hx.bind (tells_pure _)), ?_⟩
    exact fun u hu => present_of_hasLinks ha hb hin hu
  · rw [if_neg hfits] at hx
    refine .inr ⟨?_, x, hrange (hx.bind_error _)⟩
    push Not at hfits
    obtain ⟨h, -, hh⟩ := hfits
    exact ⟨h, hh⟩

end Tables
end KeyedLog
