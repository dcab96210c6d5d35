import KeyedLog.Text.Quoted

/-! The ways in which table operations fail, and the texts that describe them. -/
namespace KeyedLog

inductive FaultKind where
  | unexpectedEnd
  | writeZero
  | invalidData
  | other
deriving DecidableEq, Repr

inductive Fault where
  /-- A fixed-size field was cut short. -/
  | cutShort
  /-- A limited buffer had no room left. -/
  | bufferFull
  /-- A read went past the end of a segment. -/
  | outOfBounds (length offset available : Nat)
  /-- A container reported a failure of its own. -/
  | reported (kind : FaultKind) (text : String)
deriving DecidableEq, Repr

inductive HeaderField where
  | keyLength
  | tombstoneValue
deriving DecidableEq, Repr

inductive DecodeError where
  | io (fault : Fault)
  | invalidVersion (version : UInt8)
  | invalidTag (tag : UInt8)
  | invalidHeader (field : HeaderField)
  /-- The header announces more bytes than there are. -/
  | truncated (length expected : Nat)
deriving DecidableEq, Repr

inductive TableError where
  | io (fault : Fault)
  | encode (fault : Fault)
  | decode (cause : DecodeError)
  | closed
  | unsupported (operation : String)
  | batchTooLarge (length max : Nat)
  | entryTooLarge (length max : Nat)
  | segmentNotFound (name : String)
  | segmentExists (name : String)
  | timeout
  | hashLength (expected got : Nat)
  | checksumMismatch (got expected : UInt64)
  /-- A backpointer leads forward, or a chain is too long. -/
  | corruptedBucket (offset hops : Nat)
deriving DecidableEq, Repr

private def fields (name : String) (items : List (String × Nat)) : String :=
  let body := items.map fun (label, n) => label ++ ": " ++ toString n
  name ++ " \x7b " ++ String.intercalate ", " body ++ " \x7d"

def FaultKind.name : FaultKind → String
  | .unexpectedEnd => "UnexpectedEof"
  | .writeZero => "WriteZero"
  | .invalidData => "InvalidData"
  | .other => "Other"

def Fault.kind : Fault → FaultKind
  | .cutShort => .unexpectedEnd
  | .bufferFull => .writeZero
  | .outOfBounds .. => .unexpectedEnd
  | .reported kind _ => kind

def Fault.text : Fault → String
  | .cutShort => "failed to fill whole buffer"
  | .bufferFull => "failed to write whole buffer"
  | .outOfBounds length offset available =>
    "read of " ++ toString length ++ " bytes at offset " ++ toString offset ++
      " is out of bounds (segment length " ++ toString available ++ ")"
  | .reported _ text => text

/-- Faults of fixed-size fields carry a message, all others an error of their own. -/
def Fault.describe (f : Fault) : String :=
  let (name, label) := match f with
    | .cutShort | .bufferFull => ("Error", "message")
    | _ => ("Custom", "error")
  name ++ " \x7b kind: " ++ f.kind.name ++ ", " ++ label ++ ": " ++ Text.quote f.text ++ " \x7d"

def HeaderField.name : HeaderField → String
  | .keyLength => "KeyLength"
  | .tombstoneValue => "TombstoneValue"

def DecodeError.describe : DecodeError → String
  | .io fault => "Io(" ++ fault.describe ++ ")"
  | .invalidVersion version => "InvalidVersion(" ++ toString version.toNat ++ ")"
  | .invalidTag tag => "InvalidTag((\"ValueType\", " ++ toString tag.toNat ++ "))"
  | .invalidHeader field => "InvalidHeader(" ++ Text.quote field.name ++ ")"
  | .truncated length expected => fields "Truncated" [("length", length), ("expected", expected)]

def DecodeError.message (e : DecodeError) : String :=
  "DecodeError(" ++ (match e with | .io fault => fault.text | e => e.describe) ++ ")"

def Fault.encodeMessage (f : Fault) : String :=
  "EncodeError(Io: " ++ f.text ++ ")"

def TableError.describe : TableError → String
  | .io fault => "Io(" ++ fault.describe ++ ")"
  | .encode fault => "Encode(Io(" ++ fault.describe ++ "))"
  | .decode cause => "Decode(" ++ cause.describe ++ ")"
  | .closed => "Closed"
  | .unsupported operation => "Unsupported(" ++ Text.quote operation ++ ")"
  | .batchTooLarge length max => fields "BatchTooLarge" [("length", length), ("max", max)]
  | .entryTooLarge length max => fields "EntryTooLarge" [("length", length), ("max", max)]
  | .segmentNotFound name => "SegmentNotFound(" ++ Text.quote name ++ ")"
  | .segmentExists name => "SegmentExists(" ++ Text.quote name ++ ")"
  | .timeout => "Timeout"
  | .hashLength expected got => fields "HashLength" [("expected", expected), ("got", got)]
  | .checksumMismatch got expected =>
    fields "ChecksumMismatch" [("got", got.toNat), ("expected", expected.toNat)]
  | .corruptedBucket offset hops => fields "CorruptedBucket" [("offset", offset), ("hops", hops)]

def TableError.message (e : TableError) : String :=
  "TableError: " ++ e.describe

/-- The messages of the causes beneath an error, outermost first. -/
def TableError.causes : TableError → List String
  | .io fault => [fault.text]
  | .encode fault => [fault.encodeMessage, fault.text]
  | .decode cause => cause.message :: (match cause with | .io fault => [fault.text] | _ => [])
  | _ => []

end KeyedLog
