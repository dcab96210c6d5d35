import KeyedLog.KeyHash
import Std.Data.ExtTreeMap
import Std.Data.ExtTreeSet

/-! Buckets: the entries of a segment whose keys share a hash. -/
namespace KeyedLog

structure Bucket where
  segment : Nat
  hash : KeyHash
deriving DecidableEq, Repr

namespace Bucket

instance : Ord Bucket where
  compare := compareLex (compareOn segment) (compareOn hash)

instance : Std.TransOrd Bucket :=
  inferInstanceAs (Std.TransCmp (compareLex (compareOn segment) (compareOn hash)))

instance : Std.LawfulEqOrd Bucket where
  compare_self := Std.ReflCmp.compare_self
  eq_of_compare {a b} h := by
    have h : (compare a.segment b.segment).then (compare a.hash b.hash) = .eq := h
    rw [Ordering.then_eq_eq] at h
    cases a; cases b
    simp_all [Std.LawfulEqCmp.compare_eq_iff_eq]

end Bucket

/-- The newest entry of each bucket of one segment. Buckets without an entry are absent. -/
abbrev Heads := Std.ExtTreeMap KeyHash Nat

end KeyedLog
