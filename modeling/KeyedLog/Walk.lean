import KeyedLog.Entry
import KeyedLog.Program
import KeyedLog.Record

/-! Looking for a key in its bucket, from the newest entry to the oldest. -/
namespace KeyedLog

/-- Values need not be read, nor checked, when only the key counts. -/
inductive ReadMode where
  | key
  | entry
deriving DecidableEq, Repr

structure Found where
  key : Bytes
  value : Option Bytes
  version : Nat
deriving DecidableEq, Repr

namespace Walk

open Program

variable {σ : Type}

/-- What a record says about a key: nothing if it is about another, and no entry if it is a
removal. -/
inductive Answer where
  | other
  | removed
  | found (entry : Found)
deriving DecidableEq, Repr

/-- Judge the leading part of a record by its header, which suffices if only the key counts. -/
def judge (mode : ReadMode) (key : Bytes) (offset : Nat) (h : Header) (b : Bytes) :
    Except TableError Answer :=
  let stored := Bytes.slice b h.keyOffset h.valueOffset
  if stored != key then .ok .other
  else if h.isDeletion then .ok .removed
  else
    match mode with
    | .key => .ok (.found ⟨stored, none, offset⟩)
    | .entry => do
      let (_, record) ← Record.decode recordChecksum b
      return .found ⟨stored, some record.value, offset⟩

/-- Look at the record at an offset. A key of another length needs no second read. -/
def visit (mode : ReadMode) (segment : Nat) (key : Bytes) (offset : Nat) : Program σ Answer := do
  let start : Bytes ← request (.read segment offset headerLength)
  let h ← ofExcept ((Header.decode start).mapError .decode)
  if h.keyLength.toNat ≠ key.length then return .other
  else
    let length := match mode with | .key => h.valueOffset | .entry => h.totalLength
    let b : Bytes ← request (.read segment offset length)
    ofExcept (judge mode key offset h b)

/-- Visit an entry and those that its backpointers lead to. Each has to lie before the one that
leads to it, and there may be only so many. -/
def findFrom (mode : ReadMode) (segment : Nat) (backpointer : Nat → Program σ (Option Nat))
    (key : Bytes) : (left hops offset : Nat) → Program σ (Option Found)
  | left, hops, offset => do
    match ← visit mode segment key offset with
    | .found entry => return some entry
    | .removed => return none
    | .other =>
      match left with
      | 0 => .fail (.corruptedBucket offset (hops + 1))
      | left + 1 =>
        match ← backpointer offset with
        | none => return none
        | some previous =>
          if previous < offset then
            findFrom mode segment backpointer key left (hops + 1) previous
          else .fail (.corruptedBucket offset (hops + 1))

def find (mode : ReadMode) (segment : Nat) (backpointer : Nat → Program σ (Option Nat))
    (maxHops : Nat) (key : Bytes) (head : Nat) : Program σ (Option Found) :=
  findFrom mode segment backpointer key maxHops 0 head

/-- Find a key in a segment with the given bytes and backpointers, and count how often a backpointer
is asked for. -/
def findIn (mode : ReadMode) (data : Bytes) (backpointers : Nat → Except TableError (Option Nat))
    (maxHops : Nat) (hasTime : Bool) (head : Nat) (key : Bytes) :
    Except TableError (Option Found) × Nat :=
  let segment : Segment := { Segment.ofAttributes "" [] with data }
  let backpointer (offset : Nat) : Program Nat (Option Nat) := do
    modify (· + 1)
    ofExcept (backpointers offset)
  let (r, _, asked) := (find mode 0 backpointer maxHops key head).run hasTime ⟨0, #[segment]⟩ 0
  (r, asked)

end Walk
end KeyedLog
