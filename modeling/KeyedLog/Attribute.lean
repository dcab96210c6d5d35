import KeyedLog.KeyHash
import Std.Data.ExtTreeMap

/-! Segment attributes: numbers under 128-bit ids, where a table keeps its links. -/
namespace KeyedLog

/-- Ids are ordered as numbers, high word first. The low word of a backpointer is an offset. -/
structure AttributeId where
  hi : UInt64
  lo : Nat
deriving DecidableEq, Repr

namespace AttributeId

instance : Ord AttributeId where
  compare := compareLex (compareOn hi) (compareOn lo)

instance : Std.TransOrd AttributeId :=
  inferInstanceAs (Std.TransCmp (compareLex (compareOn hi) (compareOn lo)))

instance : Std.LawfulEqOrd AttributeId where
  compare_self := Std.ReflCmp.compare_self
  eq_of_compare {a b} h := by
    have h : (compare a.hi b.hi).then (compare a.lo b.lo) = .eq := h
    rw [Ordering.then_eq_eq] at h
    cases a; cases b
    simp_all [Std.LawfulEqCmp.compare_eq_iff_eq]

def bucket (h : KeyHash) : AttributeId := ⟨h.hi, h.lo.toNat⟩

def backpointer (offset : Nat) : AttributeId := ⟨KeyHash.backpointerWord, offset⟩

/-- Where a table keeps the offset up to which its links are persisted. Segments without it are no
tables. -/
def indexOffset : AttributeId := ⟨KeyHash.coreWord, 0x10000⟩

def isCore (id : AttributeId) : Bool := id.hi == KeyHash.coreWord

def isBackpointer (id : AttributeId) : Bool := id.hi == KeyHash.backpointerWord

end AttributeId

inductive AttributeRule where
  | replace
  | replaceIfGreater
deriving DecidableEq, Repr

structure AttributeUpdate where
  id : AttributeId
  rule : AttributeRule
  value : Nat
deriving DecidableEq, Repr

namespace AttributeUpdate

def replace (id : AttributeId) (value : Nat) : AttributeUpdate := ⟨id, .replace, value⟩

def replaceIfGreater (id : AttributeId) (value : Nat) : AttributeUpdate :=
  ⟨id, .replaceIfGreater, value⟩

def apply (u : AttributeUpdate) (current : Option Nat) : Nat :=
  match u.rule, current with
  | .replaceIfGreater, some c => max c u.value
  | _, _ => u.value

end AttributeUpdate

abbrev Attributes := Std.ExtTreeMap AttributeId Nat

namespace Attributes

def update (m : Attributes) (u : AttributeUpdate) : Attributes :=
  m.insert u.id (u.apply m[u.id]?)

def updateAll (m : Attributes) (us : List AttributeUpdate) : Attributes :=
  us.foldl update m

theorem getElem?_update (m : Attributes) (u : AttributeUpdate) (id : AttributeId) :
    (m.update u)[id]? = if u.id = id then some (u.apply m[id]?) else m[id]? := by
  simp only [update, Std.ExtTreeMap.getElem?_insert, Std.LawfulEqCmp.compare_eq_iff_eq]
  split
  · next h => rw [h]
  · rfl

end Attributes

/-- A new table has no links, all of which are persisted. -/
def initialAttributes : List AttributeUpdate := [.replace .indexOffset 0]

end KeyedLog
