import KeyedLog.Bytes

/-! The 64-bit XXH3 hash with its default secret and no seed. -/
namespace KeyedLog.Xxh3

def secret : Array UInt8 := #[
  0xb8, 0xfe, 0x6c, 0x39, 0x23, 0xa4, 0x4b, 0xbe, 0x7c, 0x01, 0x81, 0x2c, 0xf7, 0x21, 0xad, 0x1c,
  0xde, 0xd4, 0x6d, 0xe9, 0x83, 0x90, 0x97, 0xdb, 0x72, 0x40, 0xa4, 0xa4, 0xb7, 0xb3, 0x67, 0x1f,
  0xcb, 0x79, 0xe6, 0x4e, 0xcc, 0xc0, 0xe5, 0x78, 0x82, 0x5a, 0xd0, 0x7d, 0xcc, 0xff, 0x72, 0x21,
  0xb8, 0x08, 0x46, 0x74, 0xf7, 0x43, 0x24, 0x8e, 0xe0, 0x35, 0x90, 0xe6, 0x81, 0x3a, 0x26, 0x4c,
  0x3c, 0x28, 0x52, 0xbb, 0x91, 0xc3, 0x00, 0xcb, 0x88, 0xd0, 0x65, 0x8b, 0x1b, 0x53, 0x2e, 0xa3,
  0x71, 0x64, 0x48, 0x97, 0xa2, 0x0d, 0xf9, 0x4e, 0x38, 0x19, 0xef, 0x46, 0xa9, 0xde, 0xac, 0xd8,
  0xa8, 0xfa, 0x76, 0x3f, 0xe3, 0x9c, 0x34, 0x3f, 0xf9, 0xdc, 0xbb, 0xc7, 0xc7, 0x0b, 0x4f, 0x1d,
  0x8a, 0x51, 0xe0, 0x4b, 0xcd, 0xb4, 0x59, 0x31, 0xc8, 0x9f, 0x7e, 0xc9, 0xd9, 0x78, 0x73, 0x64,
  0xea, 0xc5, 0xac, 0x83, 0x34, 0xd3, 0xeb, 0xc3, 0xc5, 0x81, 0xa0, 0xff, 0xfa, 0x13, 0x63, 0xeb,
  0x17, 0x0d, 0xdd, 0x51, 0xb7, 0xf0, 0xda, 0x49, 0xd3, 0x16, 0x55, 0x26, 0x29, 0xd4, 0x68, 0x9e,
  0x2b, 0x16, 0xbe, 0x58, 0x7d, 0x47, 0xa1, 0xfc, 0x8f, 0xf8, 0xb8, 0xd1, 0x7a, 0xd0, 0x31, 0xce,
  0x45, 0xcb, 0x3a, 0x8f, 0x95, 0x16, 0x04, 0x28, 0xaf, 0xd7, 0xfb, 0xca, 0xbb, 0x4b, 0x40, 0x7e]

def prime32a : UInt64 := 0x9e3779b1
def prime32b : UInt64 := 0x85ebca77
def prime32c : UInt64 := 0xc2b2ae3d
def prime64a : UInt64 := 0x9e3779b185ebca87
def prime64b : UInt64 := 0xc2b2ae3d27d4eb4f
def prime64c : UInt64 := 0x165667b19e3779f9
def prime64d : UInt64 := 0x85ebca77c2b2ae63
def prime64e : UInt64 := 0x27d4eb2f165667c5

def byteAt (b : Array UInt8) (i : Nat) : UInt64 :=
  (b.getD i 0).toUInt64

def word32 (b : Array UInt8) (i : Nat) : UInt64 :=
  byteAt b i ||| (byteAt b (i + 1) <<< 8) ||| (byteAt b (i + 2) <<< 16) |||
    (byteAt b (i + 3) <<< 24)

def word64 (b : Array UInt8) (i : Nat) : UInt64 :=
  word32 b i ||| (word32 b (i + 4) <<< 32)

def rotateLeft (x n : UInt64) : UInt64 :=
  (x <<< n) ||| (x >>> (64 - n))

def swapBytes (x : UInt64) : UInt64 :=
  (List.range 8).foldl (fun r i => (r <<< 8) ||| ((x >>> UInt64.ofNat (8 * i)) &&& 0xff)) 0

/-- Both halves of the 128-bit product, combined. -/
def fold (x y : UInt64) : UInt64 :=
  let product := x.toNat * y.toNat
  UInt64.ofNat product ^^^ UInt64.ofNat (product >>> 64)

def avalanche (h : UInt64) : UInt64 :=
  let h := (h ^^^ (h >>> 37)) * 0x165667919e3779f9
  h ^^^ (h >>> 32)

def avalanche64 (h : UInt64) : UInt64 :=
  let h := (h ^^^ (h >>> 33)) * prime64b
  let h := (h ^^^ (h >>> 29)) * prime64c
  h ^^^ (h >>> 32)

/-- Sixteen bytes of input, keyed by sixteen bytes of the secret. -/
def mix (b : Array UInt8) (i s : Nat) : UInt64 :=
  fold (word64 b i ^^^ word64 secret s) (word64 b (i + 8) ^^^ word64 secret (s + 8))

def hash3 (b : Array UInt8) : UInt64 :=
  let n := b.size
  let combined := (byteAt b 0 <<< 16) ||| (byteAt b (n / 2) <<< 24) ||| byteAt b (n - 1) |||
    (UInt64.ofNat n <<< 8)
  avalanche64 (combined ^^^ word32 secret 0 ^^^ word32 secret 4)

def hash8 (b : Array UInt8) : UInt64 :=
  let n := b.size
  let input := word32 b (n - 4) + (word32 b 0 <<< 32)
  let h := input ^^^ word64 secret 8 ^^^ word64 secret 16
  let h := (h ^^^ rotateLeft h 49 ^^^ rotateLeft h 24) * 0x9fb21c651e98df25
  let h := (h ^^^ ((h >>> 35) + UInt64.ofNat n)) * 0x9fb21c651e98df25
  h ^^^ (h >>> 28)

def hash16 (b : Array UInt8) : UInt64 :=
  let n := b.size
  let lo := word64 b 0 ^^^ word64 secret 24 ^^^ word64 secret 32
  let hi := word64 b (n - 8) ^^^ word64 secret 40 ^^^ word64 secret 48
  avalanche (UInt64.ofNat n + swapBytes lo + hi + fold lo hi)

/-- Pairs of blocks from both ends, working inwards. -/
def hash128 (b : Array UInt8) : UInt64 :=
  let n := b.size
  let pairs := (List.range 4).filter fun k => 32 * k < n
  avalanche (pairs.foldl
    (fun acc k => acc + mix b (16 * k) (32 * k) + mix b (n - 16 * (k + 1)) (32 * k + 16))
    (UInt64.ofNat n * prime64a))

def hash240 (b : Array UInt8) : UInt64 :=
  let n := b.size
  let first := (List.range 8).foldl (fun acc i => acc + mix b (16 * i) (16 * i))
    (UInt64.ofNat n * prime64a)
  let rest := (List.range (n / 16 - 8)).foldl
    (fun acc i => acc + mix b (16 * (i + 8)) (16 * i + 3)) (avalanche first)
  avalanche (rest + mix b (n - 16) 119)

abbrev Lanes := Array UInt64

def Lanes.initial : Lanes :=
  #[prime32c, prime64a, prime64b, prime64c, prime64d, prime32b, prime64e, prime32a]

def accumulate (b : Array UInt8) (acc : Lanes) (i s : Nat) : Lanes :=
  (List.range 8).foldl (fun acc k =>
    let input := word64 b (i + 8 * k)
    let keyed := input ^^^ word64 secret (s + 8 * k)
    let product : UInt64 := (keyed &&& (0xffffffff : UInt64)) * (keyed >>> 32)
    (acc.modify (k ^^^ 1) (· + input)).modify k (· + product)) acc

def scramble (acc : Lanes) : Lanes :=
  (List.range 8).foldl (fun acc k =>
    acc.modify k fun x => (x ^^^ (x >>> 47) ^^^ word64 secret (128 + 8 * k)) * prime32a) acc

/-- Stripes of 64 bytes, scrambled after each sixteen, and once more the last 64 bytes. -/
def hashLong (b : Array UInt8) : UInt64 :=
  let n := b.size
  let stripes := (List.range ((n - 1) / 64)).foldl (fun acc i =>
    let acc := accumulate b acc (64 * i) (8 * (i % 16))
    if i % 16 = 15 then scramble acc else acc) Lanes.initial
  let acc := accumulate b stripes (n - 64) 121
  avalanche ((List.range 4).foldl (fun h k =>
    h + fold (acc.getD (2 * k) 0 ^^^ word64 secret (11 + 16 * k))
      (acc.getD (2 * k + 1) 0 ^^^ word64 secret (19 + 16 * k)))
    (UInt64.ofNat n * prime64a))

/-- Each range of lengths has a method of its own. -/
def hash (message : Bytes) : UInt64 :=
  let b := message.toArray
  if b.size = 0 then avalanche64 (word64 secret 56 ^^^ word64 secret 64)
  else if b.size ≤ 3 then hash3 b
  else if b.size ≤ 8 then hash8 b
  else if b.size ≤ 16 then hash16 b
  else if b.size ≤ 128 then hash128 b
  else if b.size ≤ 240 then hash240 b
  else hashLong b

end KeyedLog.Xxh3
