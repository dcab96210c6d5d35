import KeyedLog.Proofs.Log.Format
import KeyedLog.Proofs.Program.Alone
import KeyedLog.Proofs.Walk.Visit

/-! What is seen at an offset if one looks for a key there, whatever the bytes of the segment are.
-/
namespace KeyedLog

open Program

namespace Program

variable {σ α β : Type}

/-- The calls that are made in a run alone, first to last. -/
def calls (hasTime : Bool) : Program σ α → Container → σ → List Call
  | .ret _, _, _ | .fail _, _, _ => []
  | .get k, c, s => (k s).calls hasTime c s
  | .set s k, c, _ => k.calls hasTime c s
  | .await _ ready k, c, s => (k (ready s)).calls hasTime c s
  | .clock k, c, s => (k hasTime).calls hasTime c s
  | .call q k, c, s => q :: (k (c.perform q).2).calls hasTime (c.perform q).1 s
  | .pause _ k, c, s => k.calls hasTime c s

theorem calls_bind (p : Program σ α) (f : α → Program σ β) (hasTime : Bool) (c : Container)
    (s : σ) :
    (p >>= f).calls hasTime c s = p.calls hasTime c s ++
      match p.run hasTime c s with
      | (.ok a, c', s') => (f a).calls hasTime c' s'
      | (.error _, _, _) => [] := by
  change (p.bind f).calls hasTime c s = _
  induction p generalizing c s with
  | ret | fail => rfl
  | get k ih => exact ih s c s
  | set t k ih => exact ih c t
  | await b ready k ih => exact ih (ready s) c s
  | clock k ih => exact ih hasTime c s
  | call q k ih => exact congrArg (q :: ·) (ih (c.perform q).2 (c.perform q).1 s)
  | pause n k ih => exact ih c s

/-- Run alone with time left, a program makes some calls, has an outcome and leaves a container and
a state. -/
structure Runs (p : Program σ α) (c : Container) (s : σ) (qs : List Call)
    (r : Except TableError α) (c' : Container) (s' : σ) : Prop where
  run : p.run true c s = (r, c', s')
  calls : p.calls true c s = qs

section Runs

variable {p : Program σ α} {f : α → Program σ β} {c c₁ c₂ : Container} {s s₁ s₂ : σ}
  {qs qs' : List Call}

theorem Runs.bind {a : α} {r : Except TableError β} (hp : p.Runs c s qs (.ok a) c₁ s₁)
    (hf : (f a).Runs c₁ s₁ qs' r c₂ s₂) : (p >>= f).Runs c s (qs ++ qs') r c₂ s₂ := by
  constructor
  · rw [run_bind, hp.run]
    exact hf.run
  · rw [calls_bind, hp.run, hp.calls]
    exact congrArg (qs ++ ·) hf.calls

theorem Runs.nil_bind {a : α} {r : Except TableError β} (hp : p.Runs c s [] (.ok a) c₁ s₁)
    (hf : (f a).Runs c₁ s₁ qs r c₂ s₂) : (p >>= f).Runs c s qs r c₂ s₂ := hp.bind hf

theorem Runs.bind_nil {a : α} {r : Except TableError β} (hp : p.Runs c s qs (.ok a) c₁ s₁)
    (hf : (f a).Runs c₁ s₁ [] r c₂ s₂) : (p >>= f).Runs c s qs r c₂ s₂ := by
  have h := hp.bind hf
  rwa [List.append_nil] at h

theorem Runs.bind_error {e : TableError} (hp : p.Runs c s qs (.error e) c₁ s₁) :
    (p >>= f).Runs c s qs (.error e) c₁ s₁ := by
  constructor
  · rw [run_bind, hp.run]
  · rw [calls_bind, hp.run, hp.calls]
    exact List.append_nil qs

theorem runs_pure (a : α) : (pure a : Program σ α).Runs c s [] (.ok a) c s := ⟨rfl, rfl⟩

theorem runs_ofExcept (r : Except TableError α) : (ofExcept r).Runs c s [] r c s := by
  cases r <;> exact ⟨rfl, rfl⟩

theorem runs_request {q : Call} {r : Except TableError q.Answer}
    (hq : c.perform q = (c₁, r)) : (request q : Program σ q.Answer).Runs c s [q] r c₁ s := by
  obtain ⟨rfl, rfl⟩ := Prod.ext_iff.1 hq
  have h : (ofExcept (c.perform q).2).Runs (c.perform q).1 s [] _ _ s := runs_ofExcept _
  exact ⟨h.run, congrArg (q :: ·) h.calls⟩

end Runs

end Program

theorem Header.decode_take (b : Bytes) : decode (b.take headerLength) = decode b := by
  cases b with
  | nil => rfl
  | cons v b =>
    cases b with
    | nil => rfl
    | cons tag b =>
      change decode (v :: tag :: b.take 16) = _
      simp only [decode, decodeFields, List.take_take, Nat.min_self]

namespace Container

variable (c : Container) (segment : Nat)

def readAt (x length : Nat) : Except TableError Bytes :=
  (c.existing segment).bind (·.read x length)

def headerAt (x : Nat) : Except TableError Header :=
  (c.readAt segment x headerLength).bind fun b => (Header.decode b).mapError .decode

variable {c segment} {x m n : Nat} {b : Bytes} {e : TableError}

theorem readAt_eq_ok_iff : c.readAt segment x n = .ok b ↔
    (c.segment segment).deleted = false ∧ x + n ≤ (c.segment segment).data.length ∧
      Bytes.slice (c.segment segment).data x (x + n) = b := by
  unfold readAt existing
  cases hdeleted : (c.segment segment).deleted with
  | true => simp [hdeleted, Except.bind]
  | false =>
    by_cases hbound : x + n ≤ (c.segment segment).data.length
    · simp [hdeleted, Except.bind, Segment.read, hbound]
    · simp [hdeleted, Except.bind, Segment.read, hbound]

theorem readAt_of_le (h : c.readAt segment x m = .ok b) (hle : n ≤ m) :
    c.readAt segment x n = .ok (b.take n) := by
  obtain ⟨hdeleted, hbound, rfl⟩ := readAt_eq_ok_iff.1 h
  refine readAt_eq_ok_iff.2 ⟨hdeleted, by omega, ?_⟩
  simp only [Bytes.slice, Nat.add_sub_cancel_left, List.take_take, Nat.min_eq_left hle]

/-- Of a segment that can be read at all, a read fails only past its end. -/
theorem readAt_error (h : c.readAt segment x n = .ok b)
    (he : c.readAt segment x m = .error e) :
    e = .io (.outOfBounds m x (c.segment segment).data.length) := by
  obtain ⟨hdeleted, -, -⟩ := readAt_eq_ok_iff.1 h
  have hexisting : c.existing segment = .ok (c.segment segment) := if_neg (by simp [hdeleted])
  unfold readAt at he
  rw [hexisting] at he
  change (c.segment segment).read x m = _ at he
  unfold Segment.read at he
  split at he
  · cases he
  · exact (Except.error.inj he).symm

/-- A header is read before it is decoded. -/
theorem exists_readAt_of_headerAt {h : Header} (hh : c.headerAt segment x = .ok h) :
    ∃ start, c.readAt segment x headerLength = .ok start ∧ Header.decode start = .ok h := by
  unfold headerAt at hh
  cases hr : c.readAt segment x headerLength with
  | error e =>
    rw [hr] at hh
    cases hh
  | ok start =>
    rw [hr] at hh
    refine ⟨start, rfl, ?_⟩
    change (Header.decode start).mapError _ = _ at hh
    cases hd : Header.decode start with
    | error e =>
      rw [hd] at hh
      cases hh
    | ok h' =>
      rw [hd] at hh
      exact congrArg Except.ok (Except.ok.inj hh)

end Container

namespace Walk

variable {σ : Type} {c : Container} {segment : Nat} {mode : ReadMode} {key : Bytes} {x : Nat}

/-- An entry at an offset has a key, with the part of it that is read. -/
structure Matches (c : Container) (segment : Nat) (mode : ReadMode) (key : Bytes) (x : Nat)
    (h : Header) (b : Bytes) : Prop where
  header : c.headerAt segment x = .ok h
  length : h.keyLength.toNat = key.length
  read : c.readAt segment x (extent mode h) = .ok b
  key : Bytes.slice b headerLength h.valueOffset = key

/-- What is seen at an offset if one looks for a key. -/
inductive Sees (c : Container) (segment : Nat) (key : Bytes) (x : Nat) :
    ReadMode → Except TableError Answer → Prop
  | noHeader {mode : ReadMode} {e : TableError} (he : c.headerAt segment x = .error e) :
    Sees c segment key x mode (.error e)
  | otherLength {mode : ReadMode} {h : Header} (hh : c.headerAt segment x = .ok h)
    (hlength : h.keyLength.toNat ≠ key.length) : Sees c segment key x mode (.ok .other)
  | cutOff {mode : ReadMode} {h : Header} {e : TableError} (hh : c.headerAt segment x = .ok h)
    (hlength : h.keyLength.toNat = key.length)
    (he : c.readAt segment x (extent mode h) = .error e) : Sees c segment key x mode (.error e)
  | otherKey {mode : ReadMode} {h : Header} {b : Bytes} (hh : c.headerAt segment x = .ok h)
    (hlength : h.keyLength.toNat = key.length) (hr : c.readAt segment x (extent mode h) = .ok b)
    (hkey : Bytes.slice b headerLength h.valueOffset ≠ key) : Sees c segment key x mode (.ok .other)
  | removed {mode : ReadMode} {h : Header} {b : Bytes} (hm : Matches c segment mode key x h b)
    (hremoval : h.isDeletion = true) : Sees c segment key x mode (.ok .removed)
  | key {h : Header} {b : Bytes} (hm : Matches c segment .key key x h b)
    (hvalue : h.isDeletion = false) :
    Sees c segment key x .key (.ok (.found ⟨key, none, x⟩))
  | entry {h : Header} {b : Bytes} (hm : Matches c segment .entry key x h b)
    (hvalue : h.isDeletion = false)
    (hsum : recordChecksum key (Bytes.slice b h.valueOffset h.totalLength) = h.checksum) :
    Sees c segment key x .entry
      (.ok (.found ⟨key, some (Bytes.slice b h.valueOffset h.totalLength), x⟩))
  | damaged {h : Header} {b : Bytes} (hm : Matches c segment .entry key x h b)
    (hvalue : h.isDeletion = false)
    (hsum : recordChecksum key (Bytes.slice b h.valueOffset h.totalLength) ≠ h.checksum) :
    Sees c segment key x .entry (.error (.checksumMismatch
      (recordChecksum key (Bytes.slice b h.valueOffset h.totalLength)) h.checksum))


theorem Matches.decode {h : Header} {b : Bytes} (hm : Matches c segment mode key x h b) :
    Header.decode b = .ok h ∧ b.length = extent mode h := by
  have hextent : headerLength ≤ extent mode h := by
    cases mode with
    | key => exact Nat.le_add_right ..
    | entry => exact Record.headerLength_le_totalLength h
  obtain ⟨start, hstart, hdecode⟩ := Container.exists_readAt_of_headerAt hm.header
  have hstart' := Container.readAt_of_le hm.read hextent
  obtain rfl := Except.ok.inj (hstart.symm.trans hstart')
  rw [Header.decode_take] at hdecode
  obtain ⟨-, hbound, hb⟩ := Container.readAt_eq_ok_iff.1 hm.read
  refine ⟨hdecode, ?_⟩
  rw [← hb]
  simp only [Bytes.slice, List.length_take, List.length_drop]
  omega

/-- A matching entry is judged by its kind, and a value by its checksum. -/
theorem Matches.sees {h : Header} {b : Bytes} (hm : Matches c segment mode key x h b) :
    Sees c segment key x mode (judge mode key x h b) := by
  unfold judge
  rw [show Bytes.slice b h.keyOffset h.valueOffset = key from hm.key, if_neg (by simp)]
  cases hkind : h.isDeletion with
  | true => exact .removed hm hkind
  | false =>
    cases mode with
    | key => exact .key hm hkind
    | entry =>
      obtain ⟨hdecode, hlength⟩ := hm.decode
      have hlength : b.length = h.totalLength := hlength
      have hrecord : Record.decode recordChecksum b =
          if recordChecksum key (Bytes.slice b h.valueOffset h.totalLength) = h.checksum then
            .ok (h, .ofParts h.kind key (Bytes.slice b h.valueOffset h.totalLength))
          else .error (.checksumMismatch
            (recordChecksum key (Bytes.slice b h.valueOffset h.totalLength)) h.checksum) := by
        unfold Record.decode
        rw [hdecode]
        dsimp only
        rw [List.take_of_length_le (Nat.le_of_eq hlength), if_neg (by omega),
          show Bytes.slice b h.keyOffset h.valueOffset = key from hm.key]
      have hvalue : h.kind = .value := by
        cases hk : h.kind with
        | value => rfl
        | tombstone => simp [Header.isDeletion, hk] at hkind
      dsimp only
      rw [hrecord]
      by_cases hsum :
          recordChecksum key (Bytes.slice b h.valueOffset h.totalLength) = h.checksum
      · rw [if_pos hsum, hvalue]
        exact .entry hm hkind hsum
      · rw [if_neg hsum]
        exact .damaged hm hkind hsum

/-- The reads that a look at an offset takes. A key of another length needs no second one. -/
def looks (c : Container) (segment : Nat) (mode : ReadMode) (key : Bytes) (x : Nat) : List Call :=
  .read segment x headerLength ::
    match c.headerAt segment x with
    | .ok h => if h.keyLength.toNat = key.length then [.read segment x (extent mode h)] else []
    | .error _ => []

/-- Whatever lies at an offset, something is seen there, and the look changes nothing. -/
theorem exists_sees (c : Container) (segment : Nat) (mode : ReadMode) (key : Bytes) (x : Nat) :
    ∃ r, Sees c segment key x mode r ∧ ∀ {σ : Type} (s : σ),
      (visit mode segment key x).Runs c s (looks c segment mode key x) r c s := by
  have hperform {length : Nat} {r : Except TableError Bytes} (hr : c.readAt segment x length = r) :
      c.perform (.read segment x length) = (c, r) := congrArg (Prod.mk c) hr
  unfold visit looks
  cases hstart : c.readAt segment x headerLength with
  | error e =>
    have hh : c.headerAt segment x = .error e := by
      unfold Container.headerAt
      rw [hstart]
      rfl
    rw [hh]
    exact ⟨.error e, .noHeader hh, fun s => (runs_request (hperform hstart)).bind_error⟩
  | ok start =>
    have hheader : c.headerAt segment x = (Header.decode start).mapError .decode := by
      unfold Container.headerAt
      rw [hstart]
      rfl
    cases hd : (Header.decode start).mapError TableError.decode with
    | error e =>
      have hh : c.headerAt segment x = .error e := hheader.trans hd
      rw [hh]
      refine ⟨.error e, .noHeader hh, fun s => (runs_request (hperform hstart)).bind ?_⟩
      rw [hd]
      exact (runs_ofExcept _).bind_error
    | ok h =>
      have hh : c.headerAt segment x = .ok h := hheader.trans hd
      rw [hh]
      -- What is left is a test of the length of the key, and a second read if it passes.
      suffices hrest : ∃ r, Sees c segment key x mode r ∧ ∀ {σ : Type} (s : σ),
          (if h.keyLength.toNat ≠ key.length then pure Answer.other
            else do
              let b ← request (.read segment x (extent mode h))
              Program.ofExcept (judge mode key x h b) : Program σ Answer).Runs c s
            (if h.keyLength.toNat = key.length then [.read segment x (extent mode h)] else [])
            r c s by
        obtain ⟨r, hsees, hrest⟩ := hrest
        refine ⟨r, hsees, fun s => (runs_request (hperform hstart)).bind ?_⟩
        rw [hd]
        exact (runs_ofExcept (.ok h)).bind (hrest s)
      by_cases hlength : h.keyLength.toNat = key.length
      · simp only [hlength, ne_eq, not_true_eq_false, if_false, if_true]
        cases hr : c.readAt segment x (extent mode h) with
        | error e =>
          exact ⟨.error e, .cutOff hh hlength hr,
            fun s => (runs_request (hperform hr)).bind_error⟩
        | ok b =>
          refine ⟨judge mode key x h b, ?_,
            fun s => (runs_request (hperform hr)).bind (runs_ofExcept _)⟩
          by_cases hkey : Bytes.slice b headerLength h.valueOffset = key
          · exact Matches.sees ⟨hh, hlength, hr, hkey⟩
          · have hother : judge mode key x h b = .ok .other := by
              unfold judge
              exact if_pos (by simpa [Header.keyOffset] using hkey)
            rw [hother]
            exact .otherKey hh hlength hr hkey
      · simp only [ne_eq, hlength, not_false_eq_true, if_true, if_false]
        exact ⟨.ok .other, .otherLength hh hlength, fun s => runs_pure _⟩

theorem Sees.unique {r r' : Except TableError Answer} (hr : Sees c segment key x mode r)
    (hr' : Sees c segment key x mode r') : r = r' := by
  cases hr <;> cases hr' <;> grind [cases Matches]

theorem Sees.runs {r : Except TableError Answer} (hr : Sees c segment key x mode r) (s : σ) :
    (visit mode segment key x).Runs c s (looks c segment mode key x) r c s := by
  obtain ⟨r', hr', hrun⟩ := exists_sees c segment mode key x
  rw [hr.unique hr']
  exact hrun s

def Answer.withoutValue : Answer → Answer
  | .found entry => .found { entry with value := none }
  | a => a

theorem readAt_key {h : Header} {b : Bytes} (hr : c.readAt segment x (extent .entry h) = .ok b) :
    c.readAt segment x (extent .key h) = .ok (b.take h.valueOffset) ∧
      Bytes.slice (b.take h.valueOffset) headerLength h.valueOffset =
        Bytes.slice b headerLength h.valueOffset := by
  have hle : h.valueOffset ≤ h.totalLength := Nat.le_add_right ..
  refine ⟨Container.readAt_of_le hr hle, ?_⟩
  simp [Bytes.slice, List.drop_take, List.take_take]

theorem Matches.key_of_entry {h : Header} {b : Bytes} (hm : Matches c segment .entry key x h b) :
    Matches c segment .key key x h (b.take h.valueOffset) := by
  obtain ⟨hr, hslice⟩ := readAt_key hm.read
  exact ⟨hm.header, hm.length, hr, hslice.trans hm.key⟩

/-- Whoever sees what an entry says sees the same of its key alone. -/
theorem Sees.key_of_entry {a : Answer} (h : Sees c segment key x .entry (.ok a)) :
    Sees c segment key x .key (.ok a.withoutValue) := by
  cases h with
  | otherLength hh hlength => exact .otherLength hh hlength
  | otherKey hh hlength hr hkey =>
    obtain ⟨hr', hslice⟩ := readAt_key hr
    exact .otherKey hh hlength hr' (hslice ▸ hkey)
  | removed hm hremoval => exact .removed hm.key_of_entry hremoval
  | entry hm hvalue hsum => exact .key hm.key_of_entry hvalue

/-- An entry that cannot be told while its key can be is cut off, or its checksum does not match. -/
theorem Sees.only_entry {e : TableError} {a : Answer} (h : Sees c segment key x .entry (.error e))
    (hkey : Sees c segment key x .key (.ok a)) : ∃ h : Header, c.headerAt segment x = .ok h ∧
      (e = .io (.outOfBounds h.totalLength x (c.segment segment).data.length) ∨
        ∃ b, Matches c segment .entry key x h b ∧
          recordChecksum key (Bytes.slice b h.valueOffset h.totalLength) ≠ h.checksum ∧
          e = .checksumMismatch (recordChecksum key (Bytes.slice b h.valueOffset h.totalLength))
            h.checksum) := by
  cases h with
  | noHeader he =>
    have hunread : Sees c segment key x .key (.error e) := .noHeader he
    cases hunread.unique hkey
  | @cutOff _ h _ hh hlength he =>
    obtain ⟨start, hstart, -⟩ := Container.exists_readAt_of_headerAt hh
    exact ⟨h, hh, .inl (Container.readAt_error hstart he)⟩
  | @damaged h b hm hvalue hsum => exact ⟨h, hm.header, .inr ⟨b, hm, hsum, rfl⟩⟩

end Walk
end KeyedLog
