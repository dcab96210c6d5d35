import KeyedLog.Proofs.Log.Basic
import KeyedLog.Walk

/-! What a look at a single record tells about a key. -/
namespace KeyedLog

namespace Walk

variable {key : Bytes} {x : Nat} {r : Record}

def answerOf (mode : ReadMode) (key : Bytes) (x : Nat) (r : Record) : Answer :=
  if r.key = key then
    match r.value? with
    | none => .removed
    | some v => .found ⟨key, match mode with | .key => none | .entry => some v, x⟩
  else .other

theorem answerOf_of_ne (mode : ReadMode) (h : r.key ≠ key) : answerOf mode key x r = .other :=
  if_neg h

def extent (mode : ReadMode) (h : Header) : Nat :=
  match mode with
  | .key => h.valueOffset
  | .entry => h.totalLength

theorem extent_le (mode : ReadMode) (hr : r.Valid) :
    extent mode (r.header recordChecksum) ≤ r.length := by
  cases mode with
  | key =>
    rw [extent, Record.header_valueOffset recordChecksum hr.writable, Record.length]
    omega
  | entry => exact Nat.le_of_eq (Record.header_totalLength recordChecksum hr.writable)

theorem decode_start (hr : r.Valid) (rest : Bytes) :
    Header.decode ((r.encode recordChecksum ++ rest).take headerLength) =
      .ok (r.header recordChecksum) := by
  rw [Record.encode, List.append_assoc, List.append_assoc, List.take_left' (by simp)]
  have := Header.decode_encode_append _ (Record.header_valid recordChecksum hr.writable) []
  rwa [List.append_nil] at this

theorem judge_eq (mode : ReadMode) (hr : r.Valid) (rest : Bytes) :
    judge mode key x (r.header recordChecksum)
      ((r.encode recordChecksum ++ rest).take (extent mode (r.header recordChecksum))) =
        .ok (answerOf mode key x r) := by
  have hstored : Bytes.slice ((r.encode recordChecksum ++ rest).take
      (extent mode (r.header recordChecksum))) (r.header recordChecksum).keyOffset
        (r.header recordChecksum).valueOffset = r.key := by
    cases mode with
    | key =>
      have htake : (r.encode recordChecksum ++ rest).take (r.header recordChecksum).valueOffset =
          (r.header recordChecksum).encode ++ r.key ++ [] := by
        rw [Record.encode, List.append_assoc, List.append_nil]
        exact List.take_left' (by simp [Record.header_valueOffset recordChecksum hr.writable])
      rw [extent, htake]
      exact Record.slice_key recordChecksum hr.writable []
    | entry =>
      rw [extent, List.take_left' (by
        rw [Record.length_encode, Record.header_totalLength recordChecksum hr.writable])]
      exact Record.slice_key recordChecksum hr.writable r.value
  unfold judge
  dsimp only
  rw [hstored]
  by_cases hk : r.key = key
  · subst hk
    rw [if_neg (by simp), Record.header_isDeletion]
    unfold answerOf
    rw [if_pos rfl]
    cases hv : r.value? with
    | none => rfl
    | some v =>
      cases mode with
      | key => rfl
      | entry =>
        have hd := Record.decode_encode_append recordChecksum hr.writable []
        rw [List.append_nil] at hd
        rw [extent, List.take_left' (by
          rw [Record.length_encode, Record.header_totalLength recordChecksum hr.writable]), hd]
        have hvalue := Record.value_of_value? hv
        subst hvalue
        rfl
  · rw [if_pos (by simpa using hk), answerOf_of_ne mode hk]

end Walk

namespace Log

theorem slice_record (sum : Checksum) {x k : Nat} {r : Record} {log : List Record}
    (h : (x, r) ∈ placed 0 log) :
    ∃ rest, (Record.encodeAll sum log).slice x (x + k) = (r.encode sum ++ rest).take k := by
  obtain ⟨rest, hrest⟩ := drop_encodeAll sum h
  rw [Nat.sub_zero] at hrest
  exact ⟨rest, by rw [Bytes.slice, hrest, Nat.add_sub_cancel_left]⟩

end Log
end KeyedLog
