import Mathlib.Data.UInt
import Kioshun.Cache.Config

/-!
# Hybrid logical clocks

A version packs 48 bits of milliseconds, 8 bits of sequence and 8 bits of node.
The readings of the wall clock are arguments.
-/

namespace Kioshun

structure Hlc where
  physMS : Int
  seq : UInt16
  nodeID : UInt16
  deriving DecidableEq, Repr

def hlcSeqMask : UInt16 := 255

def hlcNodeMask : UInt16 := 255

def packHLC (physMS : Int) (seq nodeID : UInt16) : UInt64 :=
  let logical := ((seq &&& hlcSeqMask) <<< 8) ||| (nodeID &&& hlcNodeMask)
  (UInt64.ofInt physMS <<< 16) ||| logical.toUInt64

def unpackHLC (ts : UInt64) : Int × UInt16 := ((ts >>> 16).toNat, (ts &&& 65535).toUInt16)

def splitLogical (logical : UInt16) : UInt16 × UInt16 :=
  ((logical >>> 8) &&& hlcSeqMask, logical &&& hlcNodeMask)

def maxOf (a b c : Int) : Int :=
  let a := if a < b then b else a
  if a < c then c else a

namespace Hlc

def newHLC (nodeID : UInt16) : Hlc := ⟨0, 0, nodeID &&& hlcNodeMask⟩

/-- The next sequence number, or the next millisecond when there is none left. -/
def bump (h : Hlc) : Hlc :=
  if h.seq < hlcSeqMask then { h with seq := h.seq + 1 }
  else { h with physMS := wrap64 (h.physMS + 1), seq := 0 }

def Next (h : Hlc) (now : Int) : UInt64 × Hlc :=
  let h := if h.physMS < now then { h with physMS := now, seq := 0 } else h.bump
  (packHLC h.physMS h.seq h.nodeID, h)

/-- The state after `seq` at `phys`, as two branches of `Observe` have it. -/
def follow (h : Hlc) (phys : Int) (seq : UInt16) : Hlc :=
  let newSeq := seq + 1
  if hlcSeqMask < newSeq then { h with physMS := wrap64 (phys + 1), seq := 0 }
  else { h with physMS := phys, seq := newSeq }

def Observe (h : Hlc) (remote : UInt64) (now : Int) : Hlc :=
  let rp := (unpackHLC remote).1
  let rseq := (splitLogical (unpackHLC remote).2).1
  let phys := maxOf h.physMS now rp
  if phys = rp ∧ phys = h.physMS then h.follow phys (if h.seq < rseq then rseq else h.seq)
  else if phys = rp ∧ h.physMS < phys then h.follow phys rseq
  else if phys = h.physMS ∧ rp < phys then h.bump
  else { h with physMS := phys, seq := 0 }

end Hlc

theorem toNat_logical (seq nodeID : UInt16) :
    (((seq &&& hlcSeqMask) <<< 8) ||| (nodeID &&& hlcNodeMask)).toNat =
      seq.toNat % 256 * 256 + nodeID.toNat % 256 := by
  have hseq : seq.toNat &&& 255 = seq.toNat % 256 := Nat.and_two_pow_sub_one_eq_mod seq.toNat 8
  have hnode : nodeID.toNat &&& 255 = nodeID.toNat % 256 :=
    Nat.and_two_pow_sub_one_eq_mod nodeID.toNat 8
  have hor := Nat.two_pow_add_eq_or_of_lt (i := 8) (b := nodeID.toNat % 256) (by omega)
    (seq.toNat % 256)
  simp only [hlcSeqMask, hlcNodeMask, UInt16.toNat_or, UInt16.toNat_shiftLeft, UInt16.toNat_and,
    UInt16.toNat_ofNat, Nat.shiftLeft_eq, Nat.reducePow, Nat.reduceMod, hseq, hnode] at hor ⊢
  rw [Nat.mod_eq_of_lt (by omega), Nat.mul_comm (seq.toNat % 256), ← hor]

/-- A version as a number: the three fields do not overlap. -/
theorem toNat_packHLC (physMS : Int) (seq nodeID : UInt16) :
    (packHLC physMS seq nodeID).toNat =
      (physMS % 2 ^ 48).toNat * 2 ^ 16 + (seq.toNat % 256 * 256 + nodeID.toNat % 256) := by
  have hlog := toNat_logical seq nodeID
  have hor := Nat.two_pow_add_eq_or_of_lt (i := 16)
    (b := seq.toNat % 256 * 256 + nodeID.toNat % 256) (by omega) (physMS % 2 ^ 48).toNat
  have hphys : (UInt64.ofInt physMS <<< 16).toNat = 2 ^ 16 * (physMS % 2 ^ 48).toNat := by
    simp only [UInt64.toNat_shiftLeft, Nat.shiftLeft_eq, UInt64.ofInt, UInt64.toNat_ofNat',
      UInt64.toNat_ofNat, Nat.reducePow, Nat.reduceMod]
    omega
  simp only [packHLC, UInt64.toNat_or, UInt16.toNat_toUInt64, hlog, hphys]
  rw [← hor, Nat.mul_comm]

end Kioshun
