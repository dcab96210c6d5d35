import KeyedLog.Bytes
import KeyedLog.Digest.Sha256
import KeyedLog.Error
import KeyedLog.Text.Hex

/-! Key hashes: the first 128 bits of a digest, kept out of two reserved ranges. -/
namespace KeyedLog

structure KeyHash where
  hi : UInt64
  lo : UInt64
deriving DecidableEq, Repr

namespace KeyHash

/-- The length in bytes of a key hash, and the least length of a digest. -/
def size : Nat := 16

/-- High word of attributes that are reserved for bookkeeping. -/
def coreWord : UInt64 := 0x8000000000000000

def backpointerWord : UInt64 := 0x7fffffffffffffff

instance : Ord KeyHash where
  compare := compareLex (compareOn hi) (compareOn lo)

/-- Reserved high words are moved to their free neighbours. -/
def evade (hi : UInt64) : UInt64 :=
  if hi = coreWord then hi + 1 else if hi = backpointerWord then hi - 1 else hi

/-- The leading sixteen bytes of a digest, which has to be that long. -/
def ofDigest (digest : Bytes) : Except TableError KeyHash :=
  if digest.length < size then .error (.hashLength size digest.length)
  else
    let word (i : Nat) := UInt64.ofNat (Bytes.toNat (digest.slice i (i + 8)))
    .ok ⟨evade (word 0), word 8⟩

def describe (h : KeyHash) : String :=
  "KeyHash(" ++ Text.hexWord h.hi ++ "-" ++ Text.hexWord h.lo ++ ")"

instance : Std.TransOrd KeyHash :=
  inferInstanceAs (Std.TransCmp (compareLex (compareOn hi) (compareOn lo)))

instance : Std.LawfulEqOrd KeyHash where
  compare_self := Std.ReflCmp.compare_self
  eq_of_compare {a b} h := by
    have h : (compare a.hi b.hi).then (compare a.lo b.lo) = .eq := h
    rw [Ordering.then_eq_eq] at h
    cases a; cases b
    simp_all [Std.LawfulEqCmp.compare_eq_iff_eq]

end KeyHash

structure Hasher where
  digest : Bytes → Bytes
  isDefault : Bool

namespace Hasher

def sha256 : Hasher := ⟨Sha256.digest, true⟩

def hash (h : Hasher) (key : Bytes) : Except TableError KeyHash :=
  KeyHash.ofDigest (h.digest key)

/-- Any digest function will do whose digest of the empty key is long enough. -/
def custom (digest : Bytes → Bytes) : Except TableError Hasher := do
  let hasher : Hasher := ⟨digest, false⟩
  let _ ← hasher.hash []
  return hasher

def describe (h : Hasher) : String :=
  if h.isDefault then "Sha256(Sha256Hasher)" else "Custom(CustomHasher)"

end Hasher
end KeyedLog
