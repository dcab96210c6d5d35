import KeyedLog.Bytes
import KeyedLog.Digest.Xxh3
import KeyedLog.Error

/-! Log records: updates and removals of keys, and their written form. -/
namespace KeyedLog

inductive RecordKind where
  | value
  | tombstone
deriving DecidableEq, Repr

namespace RecordKind

def tag : RecordKind → UInt8
  | .value => 0
  | .tombstone => 1

def ofTag? (tag : UInt8) : Option RecordKind :=
  if tag = 0 then some .value else if tag = 1 then some .tombstone else none

end RecordKind

/-- Version, kind, two lengths and a checksum. -/
def headerLength : Nat := 1 + 1 + 4 + 4 + 8

def maxKeyLength : Nat := 8192

def maxRecordLength : Nat := 1024 * 1024

/-- The value fits into a record also beside the longest key. -/
def maxValueLength : Nat := maxRecordLength - headerLength - maxKeyLength

abbrev Checksum := Bytes → Bytes → UInt64

/-- The checksum in use covers the key and then the value. -/
def recordChecksum : Checksum := fun key value => Xxh3.hash (key ++ value)

structure Header where
  kind : RecordKind
  keyLength : UInt32
  valueLength : UInt32
  checksum : UInt64
deriving DecidableEq, Repr

namespace Header

def version : UInt8 := 0

def isDeletion (h : Header) : Bool := h.kind == .tombstone

def keyOffset (_ : Header) : Nat := headerLength

def valueOffset (h : Header) : Nat := headerLength + h.keyLength.toNat

def totalLength (h : Header) : Nat := h.valueOffset + h.valueLength.toNat

def encode (h : Header) : Bytes :=
  [version, h.kind.tag] ++ Bytes.bigEndian 4 h.keyLength.toNat ++
    Bytes.bigEndian 4 h.valueLength.toNat ++ Bytes.bigEndian 8 h.checksum.toNat

/-- Lengths that no record has are refused, and so is the value of a removal. -/
def checkLengths (h : Header) : Except DecodeError Header :=
  if maxKeyLength < h.keyLength.toNat then .error (.invalidHeader .keyLength)
  else if h.isDeletion && 0 < h.valueLength then .error (.invalidHeader .tombstoneValue)
  else .ok h

def decodeFields (kind : RecordKind) (b : Bytes) : Except DecodeError Header :=
  let fields := b.take 16
  if fields.length < 16 then .error (.io .cutShort)
  else
    let number (start stop : Nat) := Bytes.toNat (Bytes.slice fields start stop)
    checkLengths
      ⟨kind, UInt32.ofNat (number 0 4), UInt32.ofNat (number 4 8), UInt64.ofNat (number 8 16)⟩

/-- Each field is judged before the next one is read. -/
def decode : Bytes → Except DecodeError Header
  | [] => .error (.io .cutShort)
  | v :: b =>
    if v = version then
      match b with
      | [] => .error (.io .cutShort)
      | tag :: b =>
        match RecordKind.ofTag? tag with
        | none => .error (.invalidTag tag)
        | some kind => decodeFields kind b
    else .error (.invalidVersion v)

@[simp] theorem length_encode (h : Header) : h.encode.length = headerLength := by
  simp [encode, headerLength]

end Header

/-- What a log says about a key. -/
inductive Record where
  | update (key value : Bytes)
  | removal (key : Bytes)
deriving DecidableEq, Repr

namespace Record

def key : Record → Bytes
  | .update key _ => key
  | .removal key => key

/-- Removals have no value, and write none. -/
def value : Record → Bytes
  | .update _ value => value
  | .removal _ => []

def value? : Record → Option Bytes
  | .update _ value => some value
  | .removal _ => none

def kind : Record → RecordKind
  | .update .. => .value
  | .removal _ => .tombstone

def ofParts (kind : RecordKind) (key value : Bytes) : Record :=
  match kind with
  | .value => .update key value
  | .tombstone => .removal key

def length (r : Record) : Nat := headerLength + r.key.length + r.value.length

def header (sum : Checksum) (r : Record) : Header :=
  ⟨r.kind, UInt32.ofNat r.key.length, UInt32.ofNat r.value.length, sum r.key r.value⟩

def encode (sum : Checksum) (r : Record) : Bytes :=
  (r.header sum).encode ++ r.key ++ r.value

def encodeAll (sum : Checksum) (rs : List Record) : Bytes :=
  rs.flatMap (encode sum)

/-- As much of the records as a buffer holds, which may be less than all. -/
def encodeWithin (sum : Checksum) (rs : List Record) (limit : Nat) : Bytes × Except Fault Unit :=
  let b := encodeAll sum rs
  (b.take limit, if b.length ≤ limit then .ok () else .error .bufferFull)

/-- The key is measured before the value. -/
def check (r : Record) : Except TableError Unit :=
  if maxKeyLength < r.key.length then .error (.entryTooLarge r.key.length maxKeyLength)
  else if maxValueLength < r.value.length then
    .error (.entryTooLarge r.value.length maxValueLength)
  else .ok ()

/-- The record at the start of a byte string, with its header. -/
def decode (sum : Checksum) (b : Bytes) : Except TableError (Header × Record) :=
  match Header.decode b with
  | .error e => .error (.decode e)
  | .ok h =>
    let body := b.take h.totalLength
    if body.length < h.totalLength then
      .error (.decode (.truncated b.length h.totalLength))
    else
      let key := Bytes.slice body h.keyOffset h.valueOffset
      let value := Bytes.slice body h.valueOffset h.totalLength
      if sum key value = h.checksum then .ok (h, ofParts h.kind key value)
      else .error (.checksumMismatch (sum key value) h.checksum)

@[simp] theorem length_encode (sum : Checksum) (r : Record) : (r.encode sum).length = r.length := by
  simp [encode, length, Nat.add_assoc]

theorem headerLength_le_totalLength (h : Header) : headerLength ≤ h.totalLength := by
  simp [Header.totalLength, Header.valueOffset, Nat.add_assoc]

end Record
end KeyedLog
