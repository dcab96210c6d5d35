import KeyedLog.Record

/-! Reading all records of a byte string, front to back. -/
namespace KeyedLog

structure Scanned where
  offset : Nat
  header : Header
  record : Record
deriving DecidableEq, Repr

/-- The records read, and what stopped the scan before the end. -/
structure Scan where
  records : List Scanned
  error? : Option TableError
deriving DecidableEq, Repr

namespace Scan

/-- Nothing is read after the first error. -/
def ofBytes (sum : Checksum) (offset : Nat) (b : Bytes) : Scan :=
  if _ : b = [] then ⟨[], none⟩
  else
    match Record.decode sum b with
    | .error e => ⟨[], some e⟩
    | .ok (h, r) =>
      let rest := ofBytes sum (offset + h.totalLength) (b.drop h.totalLength)
      ⟨⟨offset, h, r⟩ :: rest.records, rest.error?⟩
termination_by b.length
decreasing_by
  have := Record.headerLength_le_totalLength h
  have := List.length_pos_iff.2 ‹¬b = []›
  simp only [List.length_drop, headerLength] at *
  omega

def outcome (s : Scan) : Except TableError Unit :=
  match s.error? with
  | some e => .error e
  | none => .ok ()

end Scan
end KeyedLog
