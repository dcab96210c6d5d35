import KeyedLog.Proofs.Extension.Requests
import KeyedLog.Proofs.Program.Alone
import KeyedLog.Proofs.Write.AllOrNothing

/-! Fitting: which records make a batch, which record is to blame if they make none, and that this
is settled before a write has any effect. -/
namespace KeyedLog

open Program

namespace Hasher

variable {hasher : Hasher} {key : Bytes} {e : TableError}

theorem exists_hash_iff :
    (∃ h, hasher.hash key = .ok h) ↔ KeyHash.size ≤ (hasher.digest key).length := by
  unfold hash KeyHash.ofDigest
  split
  · next h => simp [h]
  · next h => simp [Nat.le_of_not_lt h]

theorem hash_eq_error_iff :
    hasher.hash key = .error e ↔ (hasher.digest key).length < KeyHash.size ∧
      e = .hashLength KeyHash.size (hasher.digest key).length := by
  unfold hash KeyHash.ofDigest
  split
  · next h => simp only [Except.error.injEq, h, true_and, eq_comm]
  · next h => simp only [reduceCtorEq, h, false_and]

end Hasher

namespace Batch

/-- What is wrong with a record, if so many bytes come before it in its batch. Each limit counts
only if those before it are kept. -/
inductive Offends (hasher : Hasher) (max before : Nat) (r : Record) : TableError → Prop
  | key (hk : maxKeyLength < r.key.length) :
      Offends hasher max before r (.entryTooLarge r.key.length maxKeyLength)
  | value (hk : r.key.length ≤ maxKeyLength) (hv : maxValueLength < r.value.length) :
      Offends hasher max before r (.entryTooLarge r.value.length maxValueLength)
  | size (hk : r.key.length ≤ maxKeyLength) (hv : r.value.length ≤ maxValueLength)
      (hs : max < before + r.length) :
      Offends hasher max before r (.batchTooLarge (before + r.length) max)
  | digest (hk : r.key.length ≤ maxKeyLength) (hv : r.value.length ≤ maxValueLength)
      (hs : before + r.length ≤ max) (hd : (hasher.digest r.key).length < KeyHash.size) :
      Offends hasher max before r (.hashLength KeyHash.size (hasher.digest r.key).length)

structure Fits (hasher : Hasher) (max : Nat) (rs : List Record) : Prop where
  keys : ∀ r ∈ rs, r.key.length ≤ maxKeyLength
  values : ∀ r ∈ rs, r.value.length ≤ maxValueLength
  size : Log.size rs ≤ max
  digests : ∀ r ∈ rs, KeyHash.size ≤ (hasher.digest r.key).length

/-- What is wrong with the first record with which anything is. -/
def FirstOffends (hasher : Hasher) (max : Nat) (rs : List Record) (e : TableError) : Prop :=
  ∃ before r after, rs = before ++ r :: after ∧ Fits hasher max before ∧
    Offends hasher max (Log.size before) r e

variable {hasher : Hasher} {max : Nat} {kind : RecordKind} {b c : Batch} {rs : List Record}
  {r : Record} {e : TableError}

theorem fits_concat : Fits hasher max (rs ++ [r]) ↔
    Fits hasher max rs ∧ r.Valid ∧ Log.size rs + r.length ≤ max ∧
      ∃ h, hasher.hash r.key = .ok h := by
  have hsize : Log.size (rs ++ [r]) = Log.size rs + r.length := by simp [Log.size_append]
  rw [Record.valid_iff, Hasher.exists_hash_iff]
  constructor
  · rintro ⟨hk, hv, hs, hd⟩
    rw [hsize] at hs
    simp only [List.forall_mem_append, List.forall_mem_singleton] at hk hv hd
    exact ⟨⟨hk.1, hv.1, by omega, hd.1⟩, ⟨hk.2, hv.2⟩, hs, hd.2⟩
  · rintro ⟨⟨hk, hv, -, hd⟩, ⟨hk', hv'⟩, hs, hd'⟩
    refine ⟨?_, ?_, hsize ▸ hs, ?_⟩
    all_goals simp only [List.forall_mem_append, List.forall_mem_singleton]
    · exact ⟨hk, hk'⟩
    · exact ⟨hv, hv'⟩
    · exact ⟨hd, hd'⟩

theorem addRecord_eq (hasher : Hasher) (max : Nat) (b : Batch) (r : Record) :
    addRecord hasher max b r =
      r.check.bind fun _ =>
        if max < b.length + r.length then .error (.batchTooLarge (b.length + r.length) max)
        else (hasher.hash r.key).map (b.add r.key · r.length) := by
  unfold addRecord
  cases r.check with
  | error e => rfl
  | ok _ =>
    change (if _ then _ else _) = if _ then _ else _
    split
    · rfl
    · cases hasher.hash r.key <;> rfl

theorem addRecord_eq_ok_iff : addRecord hasher max b r = .ok c ↔
    r.Valid ∧ b.length + r.length ≤ max ∧
      ∃ h, hasher.hash r.key = .ok h ∧ c = b.add r.key h r.length := by
  rw [addRecord_eq, Record.Valid]
  cases r.check with
  | error e => simp [Except.bind]
  | ok _ =>
    simp only [Except.bind, true_and]
    split
    · next hs => simp [Nat.not_le.2 hs]
    · next hs => cases hasher.hash r.key <;> simp [Except.map, Nat.le_of_not_lt hs, eq_comm]

theorem check_eq_error_iff : r.check = .error e ↔
    (maxKeyLength < r.key.length ∧ e = .entryTooLarge r.key.length maxKeyLength) ∨
      (r.key.length ≤ maxKeyLength ∧ maxValueLength < r.value.length ∧
        e = .entryTooLarge r.value.length maxValueLength) := by
  unfold Record.check
  split
  · next hk => simp [hk, Nat.not_le.2 hk, eq_comm]
  · next hk =>
    split
    · next hv => simp [hk, hv, Nat.le_of_not_lt hk, eq_comm]
    · next hv => simp [hk, hv]

/-- A record that is not taken in offends, and for the reason that is given. -/
theorem addRecord_eq_error_iff :
    addRecord hasher max b r = .error e ↔ Offends hasher max b.length r e := by
  have hvalid := Record.valid_iff r
  rw [addRecord_eq]
  constructor
  · intro h
    cases hcheck : r.check with
    | error e' =>
      rw [hcheck] at h
      obtain rfl := Except.error.inj h
      rcases check_eq_error_iff.1 hcheck with ⟨hk, rfl⟩ | ⟨hk, hv, rfl⟩
      · exact .key hk
      · exact .value hk hv
    | ok _ =>
      obtain ⟨hk, hv⟩ := hvalid.1 hcheck
      rw [hcheck] at h
      change (if _ then _ else _) = _ at h
      split at h
      · next hs =>
        obtain rfl := Except.error.inj h
        exact .size hk hv hs
      · next hs =>
        cases hhash : hasher.hash r.key with
        | ok k =>
          rw [hhash] at h
          cases h
        | error e' =>
          rw [hhash] at h
          obtain rfl := Except.error.inj h
          obtain ⟨hd, rfl⟩ := Hasher.hash_eq_error_iff.1 hhash
          exact .digest hk hv (Nat.le_of_not_lt hs) hd
  · intro h
    cases h with
    | key hk => rw [check_eq_error_iff.2 (.inl ⟨hk, rfl⟩)]; rfl
    | value hk hv => rw [check_eq_error_iff.2 (.inr ⟨hk, hv, rfl⟩)]; rfl
    | size hk hv hs =>
      rw [hvalid.2 ⟨hk, hv⟩]
      exact if_pos hs
    | digest hk hv hs hd =>
      rw [hvalid.2 ⟨hk, hv⟩, Hasher.hash_eq_error_iff.2 ⟨hd, rfl⟩]
      exact if_neg (Nat.not_lt.2 hs)

theorem ofRecords_concat : ofRecords hasher max kind (rs ++ [r]) =
    (ofRecords hasher max kind rs).bind (addRecord hasher max · r) := by
  unfold ofRecords
  rw [List.foldlM_append]
  refine congrArg _ (funext fun b => ?_)
  rw [List.foldlM_cons]
  exact bind_pure _

/-- Records make a batch exactly if all limits are kept. -/
theorem exists_ofRecords_iff :
    (∃ b, ofRecords hasher max kind rs = .ok b) ↔ Fits hasher max rs := by
  induction rs using List.reverseRecOn with
  | nil =>
    refine ⟨fun _ => ⟨?_, ?_, Nat.zero_le _, ?_⟩, fun _ => ⟨_, rfl⟩⟩
    all_goals exact fun r hr => by cases hr
  | append_singleton rs r ih =>
    rw [fits_concat, ← ih, ofRecords_concat]
    constructor
    · rintro ⟨c, h⟩
      cases hb : ofRecords hasher max kind rs with
      | error e => rw [hb] at h; cases h
      | ok b =>
        rw [hb] at h
        obtain ⟨hv, hs, k, hk, -⟩ := addRecord_eq_ok_iff.1 h
        exact ⟨⟨b, rfl⟩, hv, (lists_ofRecords hb).length ▸ hs, k, hk⟩
    · rintro ⟨⟨b, hb⟩, hv, hs, k, hk⟩
      rw [hb]
      exact ⟨_, addRecord_eq_ok_iff.2 ⟨hv, (lists_ofRecords hb).length ▸ hs, k, hk, rfl⟩⟩

/-- If they do not, then the first that offends decides the error. -/
theorem ofRecords_eq_error_iff :
    ofRecords hasher max kind rs = .error e ↔ FirstOffends hasher max rs e := by
  constructor
  · intro h
    induction rs using List.reverseRecOn with
    | nil => cases h
    | append_singleton rs r ih =>
      rw [ofRecords_concat] at h
      cases hb : ofRecords hasher max kind rs with
      | error e' =>
        rw [hb] at h
        obtain rfl := Except.error.inj h
        obtain ⟨before, s, after, rfl, hfits, ho⟩ := ih hb
        exact ⟨before, s, after ++ [r], by simp, hfits, ho⟩
      | ok b =>
        rw [hb] at h
        have ho := addRecord_eq_error_iff.1 h
        rw [(lists_ofRecords hb).length] at ho
        exact ⟨rs, r, [], rfl, exists_ofRecords_iff.1 ⟨b, hb⟩, ho⟩
  · rintro ⟨before, r, after, rfl, hfits, ho⟩
    obtain ⟨b, hb⟩ := (@exists_ofRecords_iff hasher max kind before).2 hfits
    rw [← (lists_ofRecords hb).length] at ho
    unfold ofRecords at hb ⊢
    rw [List.foldlM_append, hb]
    change (r :: after).foldlM (addRecord hasher max) b = _
    rw [List.foldlM_cons, addRecord_eq_error_iff.2 ho]
    rfl

/-- A batch of a single record that the format admits is never too long. -/
theorem ofRecords_singleton (hr : r.Valid) (hmax : maxRecordLength ≤ max) :
    ofRecords hasher max kind [r] =
      (hasher.hash r.key).map fun h => ⟨kind, [⟨r.key, h, 0⟩], r.length⟩ := by
  have hlen : r.length ≤ max := by
    obtain ⟨hk, hv⟩ := (Record.valid_iff r).1 hr
    unfold Record.length
    simp only [maxValueLength, maxRecordLength, headerLength, maxKeyLength] at *
    omega
  change (addRecord hasher max (empty kind) r >>= pure) = _
  rw [bind_pure, addRecord_eq, hr]
  simp only [Except.bind, if_neg (Nat.not_lt.2 hlen), add, empty, List.nil_append,
    Nat.zero_add]

end Batch

namespace Tables

variable {config : Config} {name : String} {kind : RecordKind} {rs : List Record} {t : Tables}

theorem write_of_error {e : TableError}
    (h : Batch.ofRecords config.hasher config.maxBatchLength kind rs = .error e) :
    write config name kind rs = (do
      checkOpen
      let _ ← request (.resolve name)
      .fail e) := by
  have hne : rs.isEmpty = false := by
    cases rs with
    | nil => cases h
    | cons => rfl
  unfold write
  rw [h, hne]
  rfl

/-- If the call appends anything, then it is what some records are written as, which fit and whose
headers tell their lengths. -/
def Admits (config : Config) (rs : List Record) (q : Call) : Prop :=
  ∀ segment data, q = .append segment data →
    Batch.Fits config.hasher config.maxBatchLength rs ∧
      data = Record.encodeAll recordChecksum rs ∧ data.length ≤ config.maxBatchLength ∧
      ∀ r ∈ rs, (r.header recordChecksum).keyLength.toNat = r.key.length ∧
        (r.header recordChecksum).valueLength.toNat = r.value.length

theorem Unwritten.admits {q : Call} (hq : Unwritten q) : Admits config rs q := by
  rintro segment data rfl
  exact absurd trivial hq

theorem admits_append (h : Batch.Fits config.hasher config.maxBatchLength rs) (segment : Nat) :
    Admits config rs (.append segment (Record.encodeAll recordChecksum rs)) := by
  intro segment' data heq
  obtain ⟨-, rfl⟩ := Call.append.inj heq
  refine ⟨h, rfl, Nat.le_trans (Nat.le_of_eq (Log.length_encodeAll ..)) h.size, fun r hr => ?_⟩
  have hw := ((Record.valid_iff r).2 ⟨h.keys r hr, h.values r hr⟩).writable
  exact ⟨Record.header_keyLength _ hw, Record.header_valueLength _ hw⟩

/-- Whatever happens to a write, it appends nothing but its records, and these only if they fit. -/
theorem makes_write_admits :
    (write config name kind rs).Makes (fun _ _ => True) (Admits config rs) t := by
  have husual : Usual fun _ _ => True :=
    ⟨⟨fun _ _ => trivial, fun _ _ => trivial, fun _ _ _ _ => trivial⟩, fun _ _ => trivial,
      fun _ _ _ => trivial⟩
  unfold write
  refine makes_checkOpen.bind fun _ t =>
    Makes.bind (makes_request (Unwritten.admits id)) fun segment t => ?_
  split
  · trivial
  cases hbatch : Batch.ofRecords config.hasher config.maxBatchLength kind rs with
  | error e => trivial
  | ok batch =>
    have hfits := Batch.exists_ofRecords_iff.1 ⟨batch, hbatch⟩
    refine Makes.bind (p := .ret batch) trivial fun _ t => Makes.bind ?_ fun _ _ => trivial
    exact makes_update (fun _ => makes_request (admits_append hfits segment))
      (fun _ => Unwritten.admits) husual (fun _ _ => trivial) _

end Tables

namespace Operation

variable {base config : Config} {limit : Nat} {op : Operation} {e : TableError}

def kind : Operation → RecordKind
  | .remove _ => .tombstone
  | _ => .value

theorem program_of_error (hop : op.Alters)
    (h : Batch.ofRecords config.hasher config.maxBatchLength op.kind op.records = .error e)
    (name : String) : op.program config name = (do
      Tables.checkOpen
      let _ ← request (.resolve name)
      .fail e) := by
  have hwrite := @Tables.write_of_error config name _ _ _ h
  cases op with
  | put entries =>
    refine (congrArg (Reply.versions <$> ·) hwrite).trans ?_
    simp only [map_bind]
    rfl
  | remove keys =>
    have hremove := congrArg (fun p => (fun _ => Reply.removed) <$> (p >>= fun _ => pure ())) hwrite
    refine hremove.trans ?_
    simp only [map_bind, LawfulMonad.bind_assoc]
    rfl
  | get | getKeys | index => exact hop.elim

theorem makes_admits (hop : op.Alters) (name : String) (t : Tables) :
    (op.program config name).Makes (fun _ _ => True) (Tables.Admits config op.records) t := by
  cases op with
  | put entries => exact Tables.makes_write_admits.map _
  | remove keys => exact Makes.map _ (Tables.makes_write_admits.bind fun _ _ => trivial)
  | get | getKeys | index => exact hop.elim

/-- Whether the records of a put or a removal are taken is settled before anything is done but to
look up the table, and by the limits alone. The first record that offends decides the error. What
is appended, if anything is, never exceeds the limit of a batch, nor do the lengths in the headers
overflow. A single record that the format admits is never too long. -/
theorem refused_iff_offends (hc : base.withMaxBatchLength limit = .ok config) (hop : op.Alters)
    (name : String) :
    ((∃ b, Batch.ofRecords config.hasher limit op.kind op.records = .ok b) ↔
      Batch.Fits config.hasher limit op.records) ∧
    (∀ e, Batch.ofRecords config.hasher limit op.kind op.records = .error e ↔
      Batch.FirstOffends config.hasher limit op.records e) ∧
    (∀ e, Batch.FirstOffends config.hasher limit op.records e →
      (op.program config name = do
        Tables.checkOpen
        let _ ← request (.resolve name)
        .fail e) ∧
      ∀ (c : Container) (t : Tables) (segment : Nat) (hasTime : Bool), t.closed = false →
        c.resolve name = .ok segment →
          (op.program config name).run hasTime c t =
            (.error (if hasTime then e else .timeout), c, t)) ∧
    (∀ t, (op.program config name).Makes (fun _ _ => True)
      (Tables.Admits config op.records) t) ∧
    ∀ kind (r : Record), r.key.length ≤ maxKeyLength → r.value.length ≤ maxValueLength →
      Batch.ofRecords config.hasher limit kind [r] =
        (config.hasher.hash r.key).map fun h => ⟨kind, [⟨r.key, h, 0⟩], r.length⟩ := by
  unfold Config.withMaxBatchLength at hc
  split at hc
  · cases hc
  next hlimit =>
  obtain rfl := Except.ok.inj hc
  refine ⟨Batch.exists_ofRecords_iff, fun e => Batch.ofRecords_eq_error_iff, fun e he => ?_,
    makes_admits hop name, fun kind r hk hv => ?_⟩
  · have hprogram := program_of_error hop (Batch.ofRecords_eq_error_iff.2 he) name
    refine ⟨hprogram, fun c t segment hasTime ht hresolve => ?_⟩
    rw [hprogram]
    have hopen : Tables.checkOpen.run hasTime c t = (.ok (), c, t) := by
      change (ite _ _ _ : Program Tables Unit).run hasTime c t = _
      rw [ht]
      rfl
    rw [run_bind, hopen]
    cases hasTime with
    | false => rfl
    | true =>
      change (Program.run true ((ofExcept (c.perform (.resolve name)).2).bind _) c t) = _
      rw [Container.perform_resolve hresolve]
      rfl
  · exact Batch.ofRecords_singleton ((Record.valid_iff r).2 ⟨hk, hv⟩) (Nat.le_of_not_lt hlimit)

/-- The longer the key, the shorter its digest. That of the empty key is just long enough. -/
def shrinkingDigest (key : Bytes) : Bytes := List.replicate (16 - key.length) 0

/-- Of two entries the second has a key whose digest is too short. -/
def halfHashed : Operation := .put [⟨⟨[], none⟩, [1]⟩, ⟨⟨[98, 99, 100], none⟩, [2]⟩]

def shrinking : Config :=
  { Config.standard with
    hasher := ⟨shrinkingDigest, false⟩
    maxBatchLength := maxRecordLength }

theorem halfHashed_offends : Batch.FirstOffends shrinking.hasher maxRecordLength halfHashed.records
    (.hashLength 16 13) := by
  have hfits : Batch.Fits shrinking.hasher maxRecordLength [.update [] [1]] := by
    constructor <;> decide
  have ho : Batch.Offends shrinking.hasher maxRecordLength (Log.size [.update [] [1]])
      (.update [98, 99, 100] [2]) (.hashLength 16 13) := by apply Batch.Offends.digest <;> decide
  exact ⟨_, _, [], rfl, hfits, ho⟩

/-- A hasher that passes its probe may still be of no use for a key. -/
theorem halfHashed_refused :
    Hasher.custom shrinkingDigest = .ok ⟨shrinkingDigest, false⟩ ∧
    { Config.standard with hasher := ⟨shrinkingDigest, false⟩ }.withMaxBatchLength maxRecordLength =
      .ok shrinking ∧ halfHashed.Alters ∧
    (halfHashed.program shrinking "t").run true .solo (.initial shrinking) =
      (.error (.hashLength 16 13), .solo, .initial shrinking) := by
  have hhasher : Hasher.custom shrinkingDigest = .ok ⟨shrinkingDigest, false⟩ := rfl
  have hc : { Config.standard with hasher := ⟨shrinkingDigest, false⟩ }.withMaxBatchLength
      maxRecordLength = .ok shrinking := rfl
  have hop : halfHashed.Alters := trivial
  have hrefused := (refused_iff_offends hc hop "t").2.2.1 _ halfHashed_offends
  exact ⟨hhasher, hc, hop,
    hrefused.2 .solo (.initial shrinking) 0 true rfl Container.resolve_solo⟩

def overlong : Operation := .put [⟨⟨List.replicate 8193 97, none⟩, [49]⟩]

/-- Without any time left, the table is not looked up and the entry not judged. -/
theorem overlong_out_of_time :
    Batch.FirstOffends Config.standard.hasher Config.standard.maxBatchLength overlong.records
      (.entryTooLarge 8193 8192) ∧
    Container.solo.resolve "t" = .ok 0 ∧ (Tables.initial .standard).closed = false ∧
    (overlong.program .standard "t").run false .solo (.initial .standard) =
      (.error .timeout, .solo, .initial .standard) := by
  have ho {key : Bytes} (hk : key.length = 8193) :
      Batch.Offends Config.standard.hasher Config.standard.maxBatchLength 0 (.update key [49])
        (.entryTooLarge 8193 8192) := by
    rw [← hk]
    exact .key (Nat.lt_of_lt_of_eq (by decide) hk.symm)
  refine ⟨⟨[], _, [], rfl, ?_, ho List.length_replicate⟩, Container.resolve_solo, rfl, rfl⟩
  exact Batch.exists_ofRecords_iff.1 ⟨.empty .value, rfl⟩

end Operation
end KeyedLog
