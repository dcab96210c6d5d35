import KeyedLog.Bucket

/-! A bounded cache of bucket heads. -/
namespace KeyedLog

/-- The heads that are cached, of which there are never more than the capacity. -/
structure Cache where
  capacity : Nat
  heads : Std.ExtTreeMap Bucket Nat
  size_le : heads.size ≤ capacity

namespace Cache

def empty (capacity : Nat) : Cache := ⟨capacity, ∅, by simp⟩

def get? (c : Cache) (b : Bucket) : Option Nat := c.heads[b]?

def size (c : Cache) : Nat := c.heads.size

def isEmpty (c : Cache) : Bool := c.heads.isEmpty

def erase (c : Cache) (b : Bucket) : Cache where
  capacity := c.capacity
  heads := c.heads.erase b
  size_le := Nat.le_trans Std.ExtTreeMap.size_erase_le c.size_le

def clear (c : Cache) : Cache := empty c.capacity

/-- A full cache takes in no further bucket. -/
def insert (c : Cache) (b : Bucket) (head : Nat) : Cache :=
  if h : (c.heads.insert b head).size ≤ c.capacity then ⟨c.capacity, c.heads.insert b head, h⟩
  else c

end Cache
end KeyedLog
