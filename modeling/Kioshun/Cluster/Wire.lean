import Mathlib.Tactic.TypeStar

/-!
# Messages and codecs

The messages of `wire.go` that carry keys and values, the codec interfaces, and
the library functions the cluster calls. A Go string is a sequence of bytes.
-/

namespace Kioshun

universe u v

abbrev Bytes := List UInt8

abbrev NodeID := Bytes

structure MsgGet where
  ID : UInt64
  Key : Bytes

structure MsgGetResp where
  ID : UInt64
  Found : Bool
  Val : Bytes
  Exp : Int
  Cp : Bool
  Err : String

structure MsgSet where
  ID : UInt64
  Key : Bytes
  Val : Bytes
  Exp : Int
  Ver : UInt64
  Cp : Bool

structure KV where
  K : Bytes
  V : Bytes
  E : Int
  Ver : UInt64
  Cp : Bool

structure MsgSetBulk where
  ID : UInt64
  Items : List KV

structure MsgDel where
  ID : UInt64
  Key : Bytes
  Ver : UInt64

/-- `MsgSetResp`, `MsgSetBulkResp` and `MsgDelResp` have the same fields. -/
structure Ack where
  ID : UInt64
  OK : Bool
  Err : String

abbrev MsgSetResp := Ack

abbrev MsgSetBulkResp := Ack

abbrev MsgDelResp := Ack

structure MsgLeaseLoad where
  ID : UInt64
  Key : Bytes

structure MsgLeaseLoadResp where
  ID : UInt64
  Found : Bool
  Val : Bytes
  Exp : Int
  Cp : Bool
  Err : String

/-- The fields of `MsgBackfillKeysResp` that the joiner imports from. -/
structure MsgBackfillKeysResp where
  Items : List KV

/-- `KeyCodec`, with the method of `KeyHasher` where the codec has it. -/
structure KeyCodec (K : Type u) where
  EncodeKey : K → Bytes
  DecodeKey : Bytes → Except String K
  Hash64 : Option (K → UInt64)

/-- A key has one encoding and is recovered from it. -/
structure KeyCodec.Lawful {K : Type u} (kc : KeyCodec K) : Prop where
  decode_encode : ∀ k, kc.DecodeKey (kc.EncodeKey k) = .ok k
  encode_decode : ∀ b k, kc.DecodeKey b = .ok k → kc.EncodeKey k = b

structure Codec (V : Type v) where
  Encode : V → Except String Bytes
  Decode : Bytes → Except String V

/-- What is encoded is recovered. -/
def Codec.Lawful {V : Type v} (codec : Codec V) : Prop :=
  ∀ v b, codec.Encode v = .ok b → codec.Decode b = .ok v

/-- Functions of the libraries: `gzip` at `BestSpeed` and `xxhash.Sum64`. -/
structure Externals where
  gzip : Bytes → Bytes
  gunzip : Bytes → Except String Bytes
  Sum64 : Bytes → UInt64

/-- What is compressed is recovered. -/
def Externals.Lawful (ext : Externals) : Prop := ∀ b, ext.gunzip (ext.gzip b) = .ok b

def errKeyTooLarge : String := "key too large"

def errValueTooLarge : String := "value too large"

def ErrNotFound : String := "notfound"

end Kioshun
