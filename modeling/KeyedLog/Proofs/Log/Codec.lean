import KeyedLog.Record.Scan

/-! Records and logs read back from their written form. -/
namespace KeyedLog

namespace Bytes

theorem slice_left (a b : Bytes) {n : Nat} (h : a.length = n) : slice (a ++ b) 0 n = a := by
  simp [slice, ← h]

theorem slice_right (a b : Bytes) {n m : Nat} (ha : a.length = n) (hb : n + b.length = m) :
    slice (a ++ b) n m = b := by
  have hm : m - n = b.length := by omega
  rw [slice, List.drop_left' ha, hm, List.take_length]

theorem slice_append_left {a : Bytes} (b : Bytes) {n m : Nat} (h : m ≤ a.length) :
    slice (a ++ b) n m = slice a n m := by
  unfold slice
  rw [List.drop_append, List.take_append]
  have hz : m - n - (a.drop n).length = 0 := by
    rw [List.length_drop]
    omega
  rw [hz, List.take_zero, List.append_nil]

end Bytes

namespace RecordKind

theorem ofTag?_tag (k : RecordKind) : ofTag? k.tag = some k := by
  cases k <;> rfl

end RecordKind

namespace Header

def Valid (h : Header) : Prop :=
  h.keyLength.toNat ≤ maxKeyLength ∧ (h.kind = .tombstone → h.valueLength = 0)

theorem checkLengths_eq_ok {h : Header} (hv : h.Valid) : h.checkLengths = .ok h := by
  obtain ⟨hk, ht⟩ := hv
  have hd : (h.isDeletion && decide (0 < h.valueLength)) = false := by
    cases hkind : h.kind with
    | value => simp [isDeletion, hkind]
    | tombstone => simp [ht hkind]
  rw [checkLengths, if_neg (by omega), hd]
  rfl

theorem decodeFields_append (h : Header) (hv : h.Valid) (rest : Bytes) :
    decodeFields h.kind (Bytes.bigEndian 4 h.keyLength.toNat ++
      Bytes.bigEndian 4 h.valueLength.toNat ++ Bytes.bigEndian 8 h.checksum.toNat ++ rest) =
        .ok h := by
  have hk : h.keyLength.toNat % 1 <<< (8 * 4) = h.keyLength.toNat :=
    Nat.mod_eq_of_lt h.keyLength.toNat_lt
  have hl : h.valueLength.toNat % 1 <<< (8 * 4) = h.valueLength.toNat :=
    Nat.mod_eq_of_lt h.valueLength.toNat_lt
  have hc : h.checksum.toNat % 1 <<< (8 * 8) = h.checksum.toNat :=
    Nat.mod_eq_of_lt h.checksum.toNat_lt
  have slice_key (a b c : Bytes) (ha : a.length = 4) (hb : b.length = 4) :
      Bytes.slice (a ++ b ++ c) 0 4 = a := by
    rw [List.append_assoc, Bytes.slice_left _ _ ha]
  have slice_value (a b c : Bytes) (ha : a.length = 4) (hb : b.length = 4) :
      Bytes.slice (a ++ b ++ c) 4 8 = b := by
    rw [Bytes.slice_append_left _ (by simp [ha, hb]), Bytes.slice_right _ _ ha (by simp [hb])]
  have slice_checksum (a b c : Bytes) (ha : a.length = 4) (hb : b.length = 4)
      (hc : c.length = 8) : Bytes.slice (a ++ b ++ c) 8 16 = c :=
    Bytes.slice_right _ _ (by simp [ha, hb]) (by simp [hc])
  unfold decodeFields
  rw [List.take_left' (by simp)]
  dsimp only
  rw [if_neg (by simp), slice_key _ _ _ (by simp) (by simp), slice_value _ _ _ (by simp) (by simp),
    slice_checksum _ _ _ (by simp) (by simp) (by simp), Bytes.toNat_bigEndian,
    Bytes.toNat_bigEndian, Bytes.toNat_bigEndian, hk, hl, hc, UInt32.ofNat_toNat,
    UInt32.ofNat_toNat, UInt64.ofNat_toNat]
  exact checkLengths_eq_ok hv

theorem decode_encode_append (h : Header) (hv : h.Valid) (rest : Bytes) :
    decode (h.encode ++ rest) = .ok h := by
  have hf := decodeFields_append h hv rest
  simp only [encode, List.cons_append, List.nil_append, decode, if_true,
    RecordKind.ofTag?_tag]
  exact hf

end Header

namespace Record

def Valid (r : Record) : Prop := r.check = .ok ()

theorem valid_iff (r : Record) :
    r.Valid ↔ r.key.length ≤ maxKeyLength ∧ r.value.length ≤ maxValueLength := by
  unfold Valid check
  split
  · next h => simp; omega
  · split
    · next h => simp; omega
    · next h h' => simp; omega

/-- The header can tell the lengths, which it also can of records that are too long to be
accepted. -/
def Writable (r : Record) : Prop :=
  r.key.length ≤ maxKeyLength ∧ r.value.length < UInt32.size

instance (r : Record) : Decidable r.Writable :=
  inferInstanceAs (Decidable (_ ∧ _))

theorem Valid.writable {r : Record} (hr : r.Valid) : r.Writable := by
  obtain ⟨hk, hv⟩ := (valid_iff r).1 hr
  refine ⟨hk, ?_⟩
  simp only [maxValueLength, maxRecordLength, headerLength, maxKeyLength] at hv
  simp only [UInt32.size]
  omega

theorem header_keyLength (sum : Checksum) {r : Record} (hr : r.Writable) :
    (r.header sum).keyLength.toNat = r.key.length := by
  have hk := hr.1
  simp only [maxKeyLength] at hk
  exact UInt32.toNat_ofNat_of_lt' (by simp only [UInt32.size]; omega)

theorem header_valueLength (sum : Checksum) {r : Record} (hr : r.Writable) :
    (r.header sum).valueLength.toNat = r.value.length :=
  UInt32.toNat_ofNat_of_lt' hr.2

theorem header_valid (sum : Checksum) {r : Record} (hr : r.Writable) : (r.header sum).Valid := by
  refine ⟨by rw [header_keyLength sum hr]; exact hr.1, fun h => ?_⟩
  cases r with
  | update key value => exact RecordKind.noConfusion h
  | removal key => rfl

theorem header_valueOffset (sum : Checksum) {r : Record} (hr : r.Writable) :
    (r.header sum).valueOffset = headerLength + r.key.length := by
  rw [Header.valueOffset, header_keyLength sum hr]

theorem header_totalLength (sum : Checksum) {r : Record} (hr : r.Writable) :
    (r.header sum).totalLength = r.length := by
  rw [Header.totalLength, header_valueOffset sum hr, header_valueLength sum hr, length]

theorem header_isDeletion (sum : Checksum) (r : Record) :
    (r.header sum).isDeletion = r.value?.isNone := by
  cases r <;> rfl

theorem ofParts_header (sum : Checksum) (r : Record) :
    ofParts (r.header sum).kind r.key r.value = r := by
  cases r <;> rfl

theorem value_of_value? {r : Record} {v : Bytes} (h : r.value? = some v) : r.value = v := by
  cases r with
  | update key value => exact Option.some.inj h
  | removal key => exact absurd h (by simp [value?])

theorem headerLength_le_length (r : Record) : headerLength ≤ r.length := by
  simp [length, Nat.add_assoc]

theorem length_pos (r : Record) : 0 < r.length :=
  Nat.lt_of_lt_of_le (by decide) r.headerLength_le_length

theorem slice_key (sum : Checksum) {r : Record} (hr : r.Writable) (rest : Bytes) :
    Bytes.slice ((r.header sum).encode ++ r.key ++ rest) (r.header sum).keyOffset
      (r.header sum).valueOffset = r.key := by
  rw [header_valueOffset sum hr, Bytes.slice_append_left _ (by simp)]
  exact Bytes.slice_right _ _ (by simp [Header.keyOffset]) (by simp [Header.keyOffset])

/-- A record reads back, whatever follows it. -/
theorem decode_encode_append (sum : Checksum) {r : Record} (hr : r.Writable) (rest : Bytes) :
    decode sum (r.encode sum ++ rest) = .ok (r.header sum, r) := by
  have ht := header_totalLength sum hr
  have hkey : Bytes.slice (r.encode sum) (r.header sum).keyOffset (r.header sum).valueOffset =
      r.key := slice_key sum hr r.value
  have hvalue : Bytes.slice (r.encode sum) (r.header sum).valueOffset
      (r.header sum).totalLength = r.value := by
    rw [ht, header_valueOffset sum hr]
    exact Bytes.slice_right _ _ (by simp) (by simp [length])
  have hd : Header.decode (r.encode sum ++ rest) = .ok (r.header sum) := by
    rw [encode, List.append_assoc, List.append_assoc]
    exact Header.decode_encode_append _ (header_valid sum hr) _
  unfold decode
  rw [hd]
  dsimp only
  rw [List.take_left' (by rw [length_encode, ht]), hkey, hvalue, if_neg (by simp [ht]),
    if_pos (by rfl), ofParts_header]

end Record
end KeyedLog
