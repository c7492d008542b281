import Kioshun.Cache.Admission
import Kioshun.Cluster.Wire
import Kioshun.Lib.Mixing

/-!
# The hashes of keys

`hash.go` and `fnv.go`. Integers go through the avalanche of xxHash64 only, which loses nothing;
short strings are hashed by FNV-1a and longer ones by xxHash64. Strings are sequences of bytes.
-/

namespace Kioshun
open Function

def prime64_1 : UInt64 := 0x9E3779B185EBCA87

def prime64_2 : UInt64 := 0xC2B2AE3D27D4EB4F

def prime64_3 : UInt64 := 0x165667B19E3779F9

def prime64_4 : UInt64 := 0x85EBCA77C2B2AE63

def prime64_5 : UInt64 := 0x27D4EB2F165667C5

/-- `binary.LittleEndian.Uint64`, and `Uint32` for four bytes. -/
def littleEndian (b : Bytes) : UInt64 := b.foldr (fun x acc => (acc <<< 8) ||| x.toUInt64) 0

def fnvHash64 (s : Bytes) : UInt64 :=
  let h := s.foldl (fun h c => 1099511628211 * (h ^^^ c.toUInt64)) 14695981039346656037
  h ^^^ (h >>> 32)

def xxHash64Round (acc input : UInt64) : UInt64 :=
  prime64_1 * rotateLeft64 (acc + prime64_2 * input) 31

def xxHash64MergeRound (h64 val : UInt64) : UInt64 :=
  prime64_1 * (h64 ^^^ xxHash64Round 0 val) + prime64_4

def xxHash64Words : Nat → Bytes → UInt64 → Bytes × UInt64
  | 0, data, h64 => (data, h64)
  | rounds + 1, data, h64 =>
    if 8 ≤ data.length then
      let h64 := h64 ^^^ xxHash64Round 0 (littleEndian (data.take 8))
      xxHash64Words rounds (data.drop 8) (prime64_1 * rotateLeft64 h64 27 + prime64_4)
    else (data, h64)

def xxHash64Finalize (data : Bytes) (h64 : UInt64) : UInt64 :=
  let words := xxHash64Words data.length data h64
  let half := if 4 ≤ words.1.length then
      let h64 := words.2 ^^^ prime64_1 * littleEndian (words.1.take 4)
      (words.1.drop 4, prime64_2 * rotateLeft64 h64 23 + prime64_3)
    else words
  half.1.foldl (fun h64 x => prime64_1 * rotateLeft64 (h64 ^^^ prime64_5 * x.toUInt64) 11) half.2

/-- The four accumulators of `xxHash64Large` over the blocks of 32 bytes, and what is left. -/
def xxHash64Blocks : Nat → Bytes → List UInt64 → Bytes × List UInt64
  | 0, data, vs => (data, vs)
  | rounds + 1, data, vs =>
    if 32 ≤ data.length then
      xxHash64Blocks rounds (data.drop 32) (vs.mapIdx fun i v =>
        xxHash64Round v (littleEndian ((data.drop (8 * i)).take 8)))
    else (data, vs)

def xxHash64Large (data : Bytes) (length : UInt64) : UInt64 :=
  let blocks := xxHash64Blocks data.length data
    [0x60EA27EEADC0B5D6, prime64_2, 0, 0x61C8864E7A143579]
  let h64 := (blocks.2.zipWith rotateLeft64 [1, 7, 12, 18]).foldl (· + ·) 0
  xxHash64Finalize blocks.1 (blocks.2.foldl xxHash64MergeRound h64 + length)

def xxHash64 (input : Bytes) : UInt64 :=
  let length := UInt64.ofNat input.length
  xxHash64Avalanche (if 32 ≤ input.length then xxHash64Large input length
    else xxHash64Finalize input (prime64_5 + length))

def hashString (s : Bytes) : UInt64 := if s.length ≤ 8 then fnvHash64 s else xxHash64 s

/-- A key by its type; one of another type is seen as its text by `fmt.Sprintf`. -/
inductive HasherKey where
  | string (k : Bytes)
  | int (k : Int64)
  | int32 (k : Int32)
  | int64 (k : Int64)
  | uint (k : UInt64)
  | uint32 (k : UInt32)
  | uint64 (k : UInt64)
  | other (text : Bytes)

def HasherKey.hash : HasherKey → UInt64
  | .string k => hashString k
  | .int k => xxHash64Avalanche k.toUInt64
  | .int32 k => xxHash64Avalanche k.toInt64.toUInt64
  | .int64 k => xxHash64Avalanche k.toUInt64
  | .uint k => xxHash64Avalanche k
  | .uint32 k => xxHash64Avalanche k.toUInt64
  | .uint64 k => xxHash64Avalanche k
  | .other text => hashString text

theorem xxHash64Avalanche_injective : Injective xxHash64Avalanche :=
  Mixing.avalanche_injective 33 0xba79078168d4baf 29 0xe9e9f4c41d6df849 32
    (by decide) (by decide) (by decide) (by decide) (by decide)

theorem toUInt64_injective : Injective Int64.toUInt64 := fun ⟨_⟩ ⟨_⟩ h => congrArg Int64.ofUInt64 h

theorem toInt64_injective : Injective Int32.toInt64 := fun a b h => by
  have hint := congrArg Int64.toInt h
  rwa [Int32.toInt_toInt64, Int32.toInt_toInt64, Int32.toInt_inj] at hint

end Kioshun
