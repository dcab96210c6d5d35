import KeyedLog.KeyHash
import KeyedLog.Proofs.Attribute.Ids
import KeyedLog.Proofs.Log.Codec

/-! Logs: the records of a segment at their offsets, and what they say about buckets. -/
namespace KeyedLog

/-- The last element of a set of offsets before a given one, if there is any. -/
def LastBefore (S : Nat → Prop) (stop : Nat) (p : Option Nat) : Prop :=
  (∀ x, p = some x → S x ∧ x < stop) ∧ ∀ y, S y → y < stop → ∃ x, p = some x ∧ y ≤ x

namespace LastBefore

variable {S T : Nat → Prop} {stop : Nat} {p q : Option Nat}

theorem mem {x : Nat} (h : LastBefore S stop (some x)) : S x := (h.1 x rfl).1

theorem lt {x : Nat} (h : LastBefore S stop (some x)) : x < stop := (h.1 x rfl).2

theorem le {x y : Nat} (h : LastBefore S stop (some x)) (hy : S y) (hlt : y < stop) : y ≤ x := by
  obtain ⟨z, hz, hle⟩ := h.2 y hy hlt
  exact Option.some.inj hz ▸ hle

theorem none_iff : LastBefore S stop none ↔ ∀ y, S y → ¬y < stop := by
  constructor
  · intro h y hy hlt
    obtain ⟨x, hx, -⟩ := h.2 y hy hlt
    cases hx
  · intro h
    exact ⟨fun x hx => absurd hx (by simp), fun y hy hlt => absurd hlt (h y hy)⟩

theorem some_iff {x : Nat} :
    LastBefore S stop (some x) ↔ S x ∧ x < stop ∧ ∀ y, S y → y < stop → y ≤ x := by
  constructor
  · intro h
    exact ⟨h.mem, h.lt, fun y => h.le⟩
  · rintro ⟨hx, hlt, hle⟩
    refine ⟨fun z hz => ?_, fun y hy h => ⟨x, rfl, hle y hy h⟩⟩
    rw [← Option.some.inj hz]
    exact ⟨hx, hlt⟩

theorem unique (hp : LastBefore S stop p) (hq : LastBefore S stop q) : p = q := by
  cases p with
  | none =>
    cases q with
    | none => rfl
    | some y => exact absurd hq.lt (none_iff.1 hp y hq.mem)
  | some x =>
    cases q with
    | none => exact absurd hp.lt (none_iff.1 hq x hp.mem)
    | some y =>
      have hxy := hq.le hp.mem hp.lt
      have hyx := hp.le hq.mem hq.lt
      rw [Nat.le_antisymm hxy hyx]

theorem congr (h : ∀ x, x < stop → (S x ↔ T x)) (hp : LastBefore S stop p) :
    LastBefore T stop p := by
  refine ⟨fun x hx => ?_, fun y hy hlt => hp.2 y ((h y hlt).2 hy) hlt⟩
  obtain ⟨hS, hlt⟩ := hp.1 x hx
  exact ⟨(h x hlt).1 hS, hlt⟩

theorem widen {stop' : Nat} (hle : stop ≤ stop') (h : ∀ x, S x → x < stop' → x < stop)
    (hp : LastBefore S stop p) : LastBefore S stop' p := by
  refine ⟨fun x hx => ?_, fun y hy hlt => hp.2 y hy (h y hy hlt)⟩
  obtain ⟨hS, hlt⟩ := hp.1 x hx
  exact ⟨hS, Nat.lt_of_lt_of_le hlt hle⟩

end LastBefore

namespace Log

def size : List Record → Nat
  | [] => 0
  | r :: log => r.length + size log

/-- Records with the offsets at which they are written one after the other. -/
def placed : Nat → List Record → List (Nat × Record)
  | _, [] => []
  | offset, r :: log => (offset, r) :: placed (offset + r.length) log

@[simp] theorem size_nil : size [] = 0 := rfl

@[simp] theorem size_cons (r : Record) (log : List Record) :
    size (r :: log) = r.length + size log := rfl

@[simp] theorem size_append (a b : List Record) : size (a ++ b) = size a + size b := by
  induction a with
  | nil => simp
  | cons r a ih => simp [ih, Nat.add_assoc]

theorem size_eq_sum (log : List Record) :
    size log = (log.map Record.length).foldr (· + ·) 0 := by
  induction log with
  | nil => rfl
  | cons r log ih => simp [ih]

@[simp] theorem placed_nil (offset : Nat) : placed offset [] = [] := rfl

@[simp] theorem placed_cons (offset : Nat) (r : Record) (log : List Record) :
    placed offset (r :: log) = (offset, r) :: placed (offset + r.length) log := rfl

theorem map_snd_placed (offset : Nat) (log : List Record) :
    (placed offset log).map (·.2) = log := by
  induction log generalizing offset with
  | nil => rfl
  | cons r log ih => exact congrArg (r :: ·) (ih (offset + r.length))

theorem placed_append (offset : Nat) (a b : List Record) :
    placed offset (a ++ b) = placed offset a ++ placed (offset + size a) b := by
  induction a generalizing offset with
  | nil => simp
  | cons r a ih => simp [ih, Nat.add_assoc]

@[simp] theorem length_encodeAll (sum : Checksum) (log : List Record) :
    (Record.encodeAll sum log).length = size log := by
  induction log with
  | nil => rfl
  | cons r log ih =>
    rw [Record.encodeAll] at ih ⊢
    rw [List.flatMap_cons, List.length_append, Record.length_encode, ih, size_cons]

theorem encodeAll_append (sum : Checksum) (a b : List Record) :
    Record.encodeAll sum (a ++ b) = Record.encodeAll sum a ++ Record.encodeAll sum b := by
  simp [Record.encodeAll]

theorem slice_encodeAll (sum : Checksum) {a b log : List Record} (hl : a ++ b <+: log) {n m : Nat}
    (ha : size a = n) (hb : n + size b = m) :
    (Record.encodeAll sum log).slice n m = Record.encodeAll sum b := by
  obtain ⟨c, rfl⟩ := hl
  rw [encodeAll_append, Bytes.slice_append_left _ (by simp; omega), encodeAll_append]
  exact Bytes.slice_right _ _ (by simp [ha]) (by simp [hb])

theorem placed_bounds {offset x : Nat} {r : Record} {log : List Record}
    (h : (x, r) ∈ placed offset log) : offset ≤ x ∧ x + r.length ≤ offset + size log := by
  induction log generalizing offset with
  | nil => cases h
  | cons s log ih =>
    rcases List.mem_cons.1 h with h | h
    · obtain ⟨rfl, rfl⟩ := Prod.mk.inj h
      simp
    · have := ih h
      simp only [size_cons]
      omega

theorem placed_lt {x : Nat} {r : Record} {log : List Record} (h : (x, r) ∈ placed 0 log) :
    x < size log := by
  have := placed_bounds h
  have := r.length_pos
  omega

theorem placed_unique {offset x : Nat} {r s : Record} {log : List Record}
    (hr : (x, r) ∈ placed offset log) (hs : (x, s) ∈ placed offset log) : r = s := by
  induction log generalizing offset with
  | nil => cases hr
  | cons t log ih =>
    have ht := t.length_pos
    rcases List.mem_cons.1 hr with hr | hr <;> rcases List.mem_cons.1 hs with hs | hs
    · exact (Prod.mk.inj hr).2.trans (Prod.mk.inj hs).2.symm
    · have := placed_bounds hs
      have := (Prod.mk.inj hr).1
      omega
    · have := placed_bounds hr
      have := (Prod.mk.inj hs).1
      omega
    · exact ih hr hs

theorem mem_placed_append {x : Nat} {r : Record} {a b : List Record} :
    (x, r) ∈ placed 0 (a ++ b) ↔ (x, r) ∈ placed 0 a ∨ (x, r) ∈ placed (size a) b := by
  rw [placed_append, List.mem_append, Nat.zero_add]

theorem mem_placed_of_prefix {x : Nat} {r : Record} {a b : List Record} (hab : a <+: b)
    (h : (x, r) ∈ placed 0 a) : (x, r) ∈ placed 0 b := by
  obtain ⟨c, rfl⟩ := hab
  exact mem_placed_append.2 (.inl h)

theorem mem_placed_of_lt {x : Nat} {r : Record} {a b : List Record} (hab : a <+: b)
    (h : (x, r) ∈ placed 0 b) (hx : x < size a) : (x, r) ∈ placed 0 a := by
  obtain ⟨c, rfl⟩ := hab
  rcases mem_placed_append.1 h with h | h
  · exact h
  · have := placed_bounds h
    omega

theorem mem_of_mem_placed {offset x : Nat} {r : Record} {log : List Record}
    (h : (x, r) ∈ placed offset log) : r ∈ log := by
  induction log generalizing offset with
  | nil => cases h
  | cons s log ih =>
    rcases List.mem_cons.1 h with h | h
    · exact (Prod.mk.inj h).2 ▸ List.mem_cons_self
    · exact List.mem_cons_of_mem _ (ih h)

theorem exists_placed {r : Record} {log : List Record} (offset : Nat) (h : r ∈ log) :
    ∃ x, (x, r) ∈ placed offset log := by
  induction log generalizing offset with
  | nil => cases h
  | cons s log ih =>
    rcases List.mem_cons.1 h with rfl | h
    · exact ⟨offset, by simp⟩
    · obtain ⟨x, hx⟩ := ih (offset + s.length) h
      exact ⟨x, by simp [hx]⟩

theorem placed_pairwise (offset : Nat) (log : List Record) :
    (placed offset log).Pairwise (fun a b => a.1 < b.1) := by
  induction log generalizing offset with
  | nil => exact .nil
  | cons r log ih =>
    refine .cons (fun b hb => ?_) (ih _)
    have := placed_bounds (r := b.2) hb
    have := r.length_pos
    omega

theorem placed_zero {offset : Nat} {x : Nat × Record} {log : List Record}
    (h : (placed offset log)[0]? = some x) : x.1 = offset := by
  cases log with
  | nil => cases h
  | cons r log =>
    obtain rfl := Option.some.inj h
    rfl

theorem placed_succ {offset i : Nat} {x y : Nat × Record} {log : List Record}
    (hx : (placed offset log)[i]? = some x) (hy : (placed offset log)[i + 1]? = some y) :
    y.1 = x.1 + x.2.length := by
  induction log generalizing offset i with
  | nil => cases hx
  | cons r log ih =>
    rw [placed_cons, List.getElem?_cons_succ] at hy
    cases i with
    | zero =>
      obtain rfl := Option.some.inj hx
      exact placed_zero hy
    | succ i => exact ih hx hy

/-- What is written from the offset of a record on begins with the record. -/
theorem drop_encodeAll (sum : Checksum) {offset x : Nat} {r : Record} {log : List Record}
    (h : (x, r) ∈ placed offset log) :
    ∃ rest, (Record.encodeAll sum log).drop (x - offset) = r.encode sum ++ rest := by
  induction log generalizing offset with
  | nil => cases h
  | cons s log ih =>
    rw [Record.encodeAll, List.flatMap_cons]
    rcases List.mem_cons.1 h with h | h
    · obtain ⟨rfl, rfl⟩ := Prod.mk.inj h
      exact ⟨_, by rw [Nat.sub_self, List.drop_zero]⟩
    · obtain ⟨rest, hrest⟩ := ih h
      have hx := (placed_bounds h).1
      refine ⟨rest, ?_⟩
      rw [← hrest, List.drop_append, List.drop_eq_nil_of_le (by rw [Record.length_encode]; omega),
        Record.length_encode, List.nil_append, Record.encodeAll]
      congr 1
      omega

/-- A position between records, or at either end of them. -/
def Boundary (log : List Record) (n : Nat) : Prop := ∃ a, a <+: log ∧ size a = n

theorem boundary_zero (log : List Record) : Boundary log 0 := ⟨[], List.nil_prefix, rfl⟩

theorem boundary_size (log : List Record) : Boundary log (size log) := ⟨log, List.prefix_rfl, rfl⟩

theorem size_le_of_prefix {a b : List Record} (h : a <+: b) : size a ≤ size b := by
  obtain ⟨c, rfl⟩ := h
  rw [size_append]
  omega

/-- Two boundaries of a log cut out a range of it. -/
theorem exists_range {log : List Record} {n m : Nat} (hn : Boundary log n) (hm : Boundary log m)
    (hle : n ≤ m) : ∃ a b, a ++ b <+: log ∧ size a = n ∧ n + size b = m := by
  obtain ⟨a, ha, rfl⟩ := hn
  obtain ⟨c, hc, rfl⟩ := hm
  rcases List.prefix_or_prefix_of_prefix ha hc with ⟨b, rfl⟩ | hca
  · exact ⟨a, b, hc, rfl, (size_append a b).symm⟩
  · have := size_le_of_prefix hca
    exact ⟨a, [], by simpa using ha, rfl, by simp; omega⟩

theorem eq_of_prefix_of_size {a b : List Record} (h : a <+: b) (hs : size a = size b) : a = b := by
  obtain ⟨c, rfl⟩ := h
  cases c with
  | nil => rw [List.append_nil]
  | cons r c =>
    have := r.length_pos
    rw [size_append, size_cons] at hs
    omega

namespace Boundary

variable {log log' : List Record} {n : Nat}

theorem le (h : Boundary log n) : n ≤ size log := by
  obtain ⟨a, ha, rfl⟩ := h
  exact size_le_of_prefix ha

theorem mono (hp : log <+: log') (h : Boundary log n) : Boundary log' n := by
  obtain ⟨a, ha, rfl⟩ := h
  exact ⟨a, ha.trans hp, rfl⟩

theorem max {m : Nat} (hn : Boundary log n) (hm : Boundary log m) : Boundary log (max n m) := by
  rcases Nat.le_total n m with h | h
  · rwa [Nat.max_eq_right h]
  · rwa [Nat.max_eq_left h]

end Boundary

def Entry (hasher : Hasher) (log : List Record) (x : Nat) (h : KeyHash) : Prop :=
  ∃ r, (x, r) ∈ placed 0 log ∧ hasher.hash r.key = .ok h

namespace Entry

variable {hasher : Hasher} {log log' : List Record} {x : Nat} {h : KeyHash}

theorem lt (hx : Entry hasher log x h) : x < size log := by
  obtain ⟨r, hr, -⟩ := hx
  exact placed_lt hr

theorem proper (hx : Entry hasher log x h) : h.Proper := by
  obtain ⟨r, -, hh⟩ := hx
  exact Hasher.proper_of_hash hh

theorem mono (hp : log <+: log') (hx : Entry hasher log x h) : Entry hasher log' x h := by
  obtain ⟨r, hr, hh⟩ := hx
  exact ⟨r, mem_placed_of_prefix hp hr, hh⟩

theorem of_lt (hp : log <+: log') (hx : Entry hasher log' x h) (hlt : x < size log) :
    Entry hasher log x h := by
  obtain ⟨r, hr, hh⟩ := hx
  exact ⟨r, mem_placed_of_lt hp hr hlt, hh⟩

theorem unique {h' : KeyHash} (hx : Entry hasher log x h) (hx' : Entry hasher log x h') :
    h = h' := by
  obtain ⟨r, hr, hh⟩ := hx
  obtain ⟨s, hs, hh'⟩ := hx'
  rw [placed_unique hr hs] at hh
  exact Except.ok.inj (hh.symm.trans hh')

end Entry

/-- All records are within the limits of the format, and all keys have a hash. -/
def Wellformed (hasher : Hasher) (log : List Record) : Prop :=
  ∀ r ∈ log, r.Valid ∧ ∃ h, hasher.hash r.key = .ok h

theorem Wellformed.append {hasher : Hasher} {a b : List Record} (ha : Wellformed hasher a)
    (hb : Wellformed hasher b) : Wellformed hasher (a ++ b) := by
  intro r hr
  rcases List.mem_append.1 hr with h | h
  · exact ha r h
  · exact hb r h

/-- The scanner finds each record where it is written, and then what follows. -/
theorem ofBytes_encodeAll_append (sum : Checksum) (offset : Nat) (log : List Record) (rest : Bytes)
    (hv : ∀ r ∈ log, r.Writable) :
    Scan.ofBytes sum offset (Record.encodeAll sum log ++ rest) =
      let after := Scan.ofBytes sum (offset + size log) rest
      ⟨(placed offset log).map (fun (x, r) => ⟨x, r.header sum, r⟩) ++ after.records,
        after.error?⟩ := by
  induction log generalizing offset with
  | nil => simp [Record.encodeAll]
  | cons r log ih =>
    have hr := hv r (by simp)
    have hcons : Record.encodeAll sum (r :: log) ++ rest =
        r.encode sum ++ (Record.encodeAll sum log ++ rest) := by simp [Record.encodeAll]
    have hne : r.encode sum ++ (Record.encodeAll sum log ++ rest) ≠ [] := by
      intro h
      have := congrArg List.length h
      have := r.length_pos
      simp only [List.length_append, Record.length_encode, List.length_nil] at *
      omega
    have hdrop : (r.encode sum ++ (Record.encodeAll sum log ++ rest)).drop
        (r.header sum).totalLength = Record.encodeAll sum log ++ rest :=
      List.drop_left' (by rw [Record.length_encode, Record.header_totalLength sum hr])
    rw [hcons, Scan.ofBytes, dif_neg hne, Record.decode_encode_append sum hr]
    dsimp only
    rw [hdrop, ih _ (fun s hs => hv s (by simp [hs])), Record.header_totalLength sum hr,
      size_cons, Nat.add_assoc]
    rfl

theorem ofBytes_encodeAll (sum : Checksum) (offset : Nat) (log : List Record)
    (hv : ∀ r ∈ log, r.Writable) :
    Scan.ofBytes sum offset (Record.encodeAll sum log) =
      ⟨(placed offset log).map fun (x, r) => ⟨x, r.header sum, r⟩, none⟩ := by
  have happend := ofBytes_encodeAll_append sum offset log [] hv
  rw [List.append_nil] at happend
  rw [happend, Scan.ofBytes, dif_pos rfl]
  simp

theorem encodeAll_injective (sum : Checksum) {a b : List Record} (ha : ∀ r ∈ a, r.Writable)
    (hb : ∀ r ∈ b, r.Writable) (h : Record.encodeAll sum a = Record.encodeAll sum b) : a = b := by
  have hscan := (ofBytes_encodeAll sum 0 a ha).symm.trans (h ▸ ofBytes_encodeAll sum 0 b hb)
  have hmap := congrArg (fun s => s.records.map (·.record)) hscan
  simpa only [List.map_map, Function.comp_def, map_snd_placed] using hmap

theorem Wellformed.eq_of_encodeAll {hasher : Hasher} {a b : List Record} (ha : Wellformed hasher a)
    (hb : Wellformed hasher b)
    (h : Record.encodeAll recordChecksum a = Record.encodeAll recordChecksum b) : a = b :=
  encodeAll_injective recordChecksum (fun r hr => (ha r hr).1.writable)
    (fun r hr => (hb r hr).1.writable) h

end Log
end KeyedLog
