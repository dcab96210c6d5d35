import KeyedLog.Bytes

/-! Keys and entries as callers pass and receive them. -/
namespace KeyedLog

/-- A key, and the version at which it was found. Versions are segment offsets. -/
structure TableKey where
  key : Bytes
  version : Option Nat := none
deriving DecidableEq, Repr

structure TableEntry where
  key : TableKey
  value : Bytes
deriving DecidableEq, Repr

def Bytes.describe (b : Bytes) : String :=
  "Slice([" ++ String.intercalate ", " (b.map fun d => toString d.toNat) ++ "])"

def describeVersion : Option Nat → String
  | none => "None"
  | some v => "Some(" ++ toString v ++ ")"

def TableKey.describe (k : TableKey) : String :=
  "TableKey \x7b key: " ++ k.key.describe ++ ", version: " ++ describeVersion k.version ++ " \x7d"

/-- Values of 64 bytes and more show by their length only. -/
def TableEntry.describe (e : TableEntry) : String :=
  let value :=
    if 64 ≤ e.value.length then "[ ... " ++ toString e.value.length ++ " bytes ]"
    else e.value.describe
  e.key.key.describe ++ "@" ++ describeVersion e.key.version ++ " => " ++ value

end KeyedLog
