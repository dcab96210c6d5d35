/-! Byte strings and the big-endian numbers written in them. -/
namespace KeyedLog

abbrev Bytes := List UInt8

namespace Bytes

/-- The low `n` bytes of a number, most significant first. -/
def bigEndian : Nat → Nat → Bytes
  | 0, _ => []
  | n + 1, x => UInt8.ofNat (x >>> (8 * n)) :: bigEndian n x

/-- The number that a byte string spells, most significant byte first. -/
def toNat (b : Bytes) : Nat :=
  b.foldl (fun x d => 256 * x + d.toNat) 0

/-- The bytes at positions `start` to `stop`, without the last. -/
def slice (b : Bytes) (start stop : Nat) : Bytes :=
  (b.drop start).take (stop - start)

@[simp] theorem length_bigEndian (n x : Nat) : (bigEndian n x).length = n := by
  induction n with
  | zero => rfl
  | succ n ih => simp [bigEndian, ih]

theorem shiftLeft_succ (x n : Nat) : x <<< (8 * (n + 1)) = (256 * x) <<< (8 * n) := by
  rw [Nat.mul_succ, Nat.add_comm, Nat.shiftLeft_add, Nat.shiftLeft_eq x 8, Nat.mul_comm]

theorem toNat_append (a b : Bytes) : toNat (a ++ b) = toNat a <<< (8 * b.length) + toNat b := by
  have shift (b : Bytes) (x : Nat) :
      b.foldl (fun x d => 256 * x + d.toNat) x = x <<< (8 * b.length) + toNat b := by
    induction b generalizing x with
    | nil => simp [toNat]
    | cons d b ih =>
      have htail : toNat (d :: b) = (256 * 0 + d.toNat) <<< (8 * b.length) + toNat b := ih _
      rw [List.foldl_cons, List.length_cons, shiftLeft_succ, ih, htail, Nat.mul_zero, Nat.zero_add]
      simp only [Nat.shiftLeft_eq, Nat.add_mul, Nat.add_assoc]
  rw [toNat, List.foldl_append, shift b]
  rfl

theorem toNat_bigEndian (n x : Nat) : toNat (bigEndian n x) = x % 1 <<< (8 * n) := by
  induction n with
  | zero => simp [bigEndian, toNat, Nat.mod_one]
  | succ n ih =>
    have head : toNat [UInt8.ofNat (x >>> (8 * n))] = x >>> (8 * n) % 256 := by
      simp [toNat]
    rw [bigEndian, ← List.singleton_append, toNat_append, head, ih, length_bigEndian,
      shiftLeft_succ]
    simp only [Nat.shiftLeft_eq, Nat.shiftRight_eq_div_pow, Nat.one_mul, Nat.mul_one]
    rw [Nat.mul_comm 256, Nat.mod_mul, Nat.mul_comm, Nat.add_comm]

theorem toNat_lt (b : Bytes) : toNat b < 1 <<< (8 * b.length) := by
  induction b with
  | nil => simp [toNat]
  | cons d b ih =>
    have h : toNat (d :: b) = d.toNat <<< (8 * b.length) + toNat b := by
      rw [← List.singleton_append, toNat_append]
      simp [toNat]
    have hd : d.toNat + 1 ≤ 256 := d.toNat_lt
    rw [h, List.length_cons, shiftLeft_succ]
    simp only [Nat.shiftLeft_eq, Nat.one_mul, Nat.mul_one] at ih ⊢
    generalize 2 ^ (8 * b.length) = k at ih ⊢
    calc d.toNat * k + toNat b < d.toNat * k + k := Nat.add_lt_add_left ih _
      _ = (d.toNat + 1) * k := (Nat.succ_mul ..).symm
      _ ≤ 256 * k := Nat.mul_le_mul_right _ hd

end Bytes
end KeyedLog
