import KeyedLog.Index.Access
import KeyedLog.Proofs.Attribute.Links

/-! The entries of each bucket of a log, oldest first, and how many there are. -/
namespace KeyedLog.Log

variable {hasher : Hasher} {offset x p : Nat} {h : KeyHash} {log a b : List Record}

def hashed (hasher : Hasher) (offset : Nat) (log : List Record) : List (Nat × KeyHash) :=
  (placed offset log).filterMap fun (x, r) => (hasher.hash r.key).toOption.map (x, ·)

theorem mem_hashed :
    (x, h) ∈ hashed hasher offset log ↔
      ∃ r, (x, r) ∈ placed offset log ∧ hasher.hash r.key = .ok h := by
  simp only [hashed, List.mem_filterMap, Option.map_eq_some_iff]
  constructor
  · rintro ⟨⟨y, r⟩, hr, k, hk, heq⟩
    obtain ⟨rfl, rfl⟩ := Prod.mk.inj heq
    refine ⟨r, hr, ?_⟩
    cases hh : hasher.hash r.key with
    | ok k' =>
      rw [hh] at hk
      rw [Option.some.inj hk]
    | error e =>
      rw [hh] at hk
      cases hk
  · rintro ⟨r, hr, hh⟩
    exact ⟨(x, r), hr, h, by rw [hh]; rfl, rfl⟩

theorem hashed_append (offset : Nat) (a b : List Record) :
    hashed hasher offset (a ++ b) =
      hashed hasher offset a ++ hashed hasher (offset + size a) b := by
  simp only [hashed, placed_append, List.filterMap_append]

theorem hashed_pairwise (hasher : Hasher) (offset : Nat) (log : List Record) :
    (hashed hasher offset log).Pairwise fun a b => a.1 < b.1 := by
  refine (placed_pairwise offset log).filterMap _ fun e f hef e' he f' hf => ?_
  obtain ⟨_, -, rfl⟩ := Option.map_eq_some_iff.1 he
  obtain ⟨_, -, rfl⟩ := Option.map_eq_some_iff.1 hf
  exact hef

/-- The entries of a range of a log. -/
theorem mem_hashed_range (hl : a ++ b <+: log) :
    (x, h) ∈ hashed hasher (size a) b ↔
      Entry hasher log x h ∧ size a ≤ x ∧ x < size a + size b := by
  have hsplit : (x, h) ∈ hashed hasher (size a) b ↔ Entry hasher (a ++ b) x h ∧ size a ≤ x := by
    rw [mem_hashed]
    constructor
    · rintro ⟨r, hr, hh⟩
      exact ⟨⟨r, mem_placed_append.2 (.inr hr), hh⟩, (placed_bounds hr).1⟩
    · rintro ⟨⟨r, hr, hh⟩, hx⟩
      rcases mem_placed_append.1 hr with hr | hr
      · have := placed_lt hr
        omega
      · exact ⟨r, hr, hh⟩
  rw [hsplit]
  constructor
  · rintro ⟨he, hx⟩
    exact ⟨he.mono hl, hx, by simpa using he.lt⟩
  · rintro ⟨he, hx, hlt⟩
    exact ⟨he.of_lt hl (by simpa using hlt), hx⟩

/-- The scanner hashes what was written. -/
theorem hashRecords_encodeAll (config : Config) (offset : Nat)
    (hlog : Wellformed config.hasher log) :
    Tables.hashRecords config offset (Record.encodeAll recordChecksum log) =
      .ok (hashed config.hasher offset log) := by
  have hmap : ∀ (offset : Nat) (log : List Record), Wellformed config.hasher log →
      ((placed offset log).map fun (x, r) => (⟨x, r.header recordChecksum, r⟩ : Scanned)).mapM
        (fun s => do return (s.offset, ← config.hasher.hash s.record.key)) =
          (Except.ok (hashed config.hasher offset log) : Except TableError _) := by
    intro offset log hlog
    induction log generalizing offset with
    | nil => rfl
    | cons r log ih =>
      obtain ⟨k, hk⟩ := (hlog r (by simp)).2
      have ih := ih (offset + r.length) fun s hs => hlog s (by simp [hs])
      rw [placed_cons, List.map_cons, List.mapM_cons, ih, hk]
      simp [hashed, hk, Except.toOption]
      rfl
  unfold Tables.hashRecords
  rw [ofBytes_encodeAll recordChecksum offset log fun r hr => (hlog r hr).1.writable]
  dsimp only
  rw [hmap offset log hlog]
  rfl

def bucket (hasher : Hasher) (log : List Record) (h : KeyHash) : List Nat :=
  ((hashed hasher 0 log).filter fun e => e.2 = h).map (·.1)

theorem mem_bucket : x ∈ bucket hasher log h ↔ Entry hasher log x h := by
  simp only [bucket, List.mem_map, List.mem_filter, decide_eq_true_eq]
  constructor
  · rintro ⟨⟨y, k⟩, ⟨hm, rfl⟩, rfl⟩
    exact mem_hashed.1 hm
  · intro hx
    exact ⟨(x, h), ⟨mem_hashed.2 hx, rfl⟩, rfl⟩

theorem bucket_eq_filter : bucket hasher log h =
    ((placed 0 log).filter fun e => (hasher.hash e.2.key).toOption = some h).map (·.1) := by
  unfold bucket hashed
  induction placed 0 log with
  | nil => rfl
  | cons e l ih =>
    obtain ⟨y, r⟩ := e
    rw [List.filterMap_cons]
    cases hk : (hasher.hash r.key).toOption with
    | none => simpa [hk] using ih
    | some k => by_cases hkh : k = h <;> simpa [hk, hkh] using ih

theorem bucket_append (a b : List Record) (h : KeyHash) :
    bucket hasher (a ++ b) h =
      bucket hasher a h ++ ((hashed hasher (size a) b).filter fun e => e.2 = h).map (·.1) := by
  simp only [bucket, hashed_append, List.filter_append, List.map_append, Nat.zero_add]

theorem bucket_pairwise (hasher : Hasher) (log : List Record) (h : KeyHash) :
    (bucket hasher log h).Pairwise (· < ·) :=
  List.pairwise_map.2 ((hashed_pairwise hasher 0 log).filter _)

theorem bucket_length_le (hl : a <+: b) (h : KeyHash) :
    (bucket hasher a h).length ≤ (bucket hasher b h).length := by
  obtain ⟨c, rfl⟩ := hl
  rw [bucket_append, List.length_append]
  omega

/-- How many entries of a bucket lie before an offset. -/
def rank (hasher : Hasher) (log : List Record) (h : KeyHash) (x : Nat) : Nat :=
  (bucket hasher log h).countP (· < x)

theorem rank_lt_length (hx : Entry hasher log x h) :
    rank hasher log h x < (bucket hasher log h).length := by
  rw [rank, List.countP_eq_length_filter]
  refine Nat.lt_of_le_of_ne (List.length_filter_le _ _) fun heq => ?_
  have hmem := List.length_filter_eq_length_iff.1 heq x (mem_bucket.2 hx)
  simp at hmem

theorem rank_lt_rank (hp : Entry hasher log p h) (hlt : p < x) :
    rank hasher log h p < rank hasher log h x := by
  have hcount : ∀ l : List Nat, p ∈ l → l.countP (· < p) < l.countP (· < x) := by
    intro l hl
    induction l with
    | nil => cases hl
    | cons y l ih =>
      have hmono : l.countP (· < p) ≤ l.countP (· < x) :=
        List.countP_mono_left fun z _ hz => by
          simp only [decide_eq_true_eq] at hz ⊢
          omega
      simp only [List.countP_cons, decide_eq_true_eq]
      rcases List.mem_cons.1 hl with rfl | hl
      · rw [if_neg (Nat.lt_irrefl _), if_pos hlt]
        omega
      · have := ih hl
        split <;> split <;> omega
  exact hcount _ (mem_bucket.2 hp)

end KeyedLog.Log
