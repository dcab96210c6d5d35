import KeyedLog.Bucket

/-! Mutual exclusion of writes that share a bucket. -/
namespace KeyedLog

structure Locks where
  held : Std.ExtTreeSet Bucket

namespace Locks

def empty : Locks := ⟨∅⟩

def free (l : Locks) (bs : List Bucket) : Bool :=
  bs.all fun b => !l.held.contains b

/-- All buckets are taken at once, so no two writes hold parts of each other's. -/
def take (l : Locks) (bs : List Bucket) : Locks :=
  ⟨bs.foldl (fun held b => held.insert b) l.held⟩

def release (l : Locks) (bs : List Bucket) : Locks :=
  ⟨bs.foldl (fun held b => held.erase b) l.held⟩

end Locks
end KeyedLog
