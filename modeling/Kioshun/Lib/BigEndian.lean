import Mathlib.Data.Nat.Bitwise
import Mathlib.Data.UInt

/-!
# Big-endian numbers

The bytes of a number with the most significant one first, and the number that bytes stand for;
words of eight bytes are put together by shifts.
-/

namespace BigEndian
open List

/-- The last `k` bytes of a number. -/
def split : Nat → Nat → List UInt8
  | 0, _ => []
  | k + 1, n => split k (n / 256) ++ [UInt8.ofNat n]

def combine (b : List UInt8) : Nat := b.foldl (fun acc x => 256 * acc + x.toNat) 0

def PutUint64 (v : UInt64) : List UInt8 :=
  [(v >>> 56).toUInt8, (v >>> 48).toUInt8, (v >>> 40).toUInt8, (v >>> 32).toUInt8,
    (v >>> 24).toUInt8, (v >>> 16).toUInt8, (v >>> 8).toUInt8, v.toUInt8]

def Uint64 (b : List UInt8) : UInt64 := b.foldl (fun acc x => (acc <<< 8) ||| x.toUInt64) 0

section Numbers

@[simp] theorem length_split (k n : Nat) : (split k n).length = k := by
  induction k generalizing n with
  | zero => rfl
  | succ k ih => rw [split, length_append, ih, length_singleton]

variable (b : List UInt8)

theorem combine_concat (x : UInt8) : combine (b ++ [x]) = 256 * combine b + x.toNat := by
  rw [combine, foldl_append]
  rfl

theorem combine_lt : combine b < 256 ^ b.length := by
  induction b using List.reverseRecOn with
  | nil => decide
  | append_singleton b x ih =>
    have := x.toNat_lt
    rw [combine_concat, length_append, length_singleton, Nat.pow_succ]
    omega

theorem combine_split {k n : Nat} (h : n < 256 ^ k) : combine (split k n) = n := by
  induction k generalizing n with
  | zero => exact (Nat.lt_one_iff.mp h).symm
  | succ k ih =>
    rw [Nat.pow_succ] at h
    rw [split, combine_concat, ih (by omega), UInt8.toNat_ofNat']
    omega

theorem split_combine : split b.length (combine b) = b := by
  induction b using List.reverseRecOn with
  | nil => rfl
  | append_singleton b x ih =>
    have := x.toNat_lt
    have hhigh : (256 * combine b + x.toNat) / 256 = combine b := by omega
    have hlow : UInt8.ofNat (256 * combine b + x.toNat) = x := by
      rw [← UInt8.toNat_inj, UInt8.toNat_ofNat']
      omega
    rw [combine_concat, length_append, length_singleton, split, hhigh, ih, hlow]

end Numbers

section Words

variable (v : UInt64)

@[simp] theorem length_PutUint64 : (PutUint64 v).length = 8 := rfl

theorem toUInt8_shift (s : Nat) (hs : s < 64) :
    (v >>> UInt64.ofNat s).toUInt8 = UInt8.ofNat (v.toNat / 2 ^ s) := by
  have hmod : (UInt64.ofNat s).toNat % 64 = s := by
    rw [UInt64.toNat_ofNat']
    omega
  rw [← UInt8.toNat_inj, UInt64.toNat_toUInt8, UInt64.toNat_shiftRight, hmod,
    Nat.shiftRight_eq_div_pow, UInt8.toNat_ofNat']

theorem PutUint64_eq : PutUint64 v = split 8 v.toNat := by
  have hlast : v.toUInt8 = UInt8.ofNat v.toNat := by
    rw [← UInt8.toNat_inj, UInt64.toNat_toUInt8, UInt8.toNat_ofNat']
  have hbyte := toUInt8_shift v
  simp only [split, Nat.div_div_eq_div_mul, nil_append, cons_append, PutUint64,
    List.cons.injEq, and_true]
  exact ⟨hbyte 56 (by decide), hbyte 48 (by decide), hbyte 40 (by decide), hbyte 32 (by decide),
    hbyte 24 (by decide), hbyte 16 (by decide), hbyte 8 (by decide), hlast⟩

theorem toNat_Uint64 {b : List UInt8} (h : b.length ≤ 8) : (Uint64 b).toNat = combine b := by
  induction b using List.reverseRecOn with
  | nil => rfl
  | append_singleton b x ih =>
    rw [length_append, length_singleton] at h
    have hacc := ih (by omega)
    have hlt : combine b < 256 ^ 7 :=
      (combine_lt b).trans_le (Nat.pow_le_pow_right (by decide) (by omega))
    have hshift : (Uint64 b <<< 8).toNat = combine b <<< 8 := by
      rw [UInt64.toNat_shiftLeft, hacc]
      simp only [UInt64.reduceToNat, Nat.reduceMod, Nat.shiftLeft_eq]
      apply Nat.mod_eq_of_lt
      omega
    rw [Uint64, foldl_append, combine_concat]
    change (Uint64 b <<< 8 ||| x.toUInt64).toNat = _
    rw [UInt64.toNat_or, hshift, UInt8.toNat_toUInt64, ← Nat.shiftLeft_add_eq_or_of_lt x.toNat_lt,
      Nat.shiftLeft_eq]
    omega

theorem Uint64_PutUint64 : Uint64 (PutUint64 v) = v := by
  rw [← UInt64.toNat_inj, toNat_Uint64 (length_PutUint64 v).le, PutUint64_eq]
  exact combine_split v.toNat_lt

theorem PutUint64_Uint64 {b : List UInt8} (h : b.length = 8) : PutUint64 (Uint64 b) = b := by
  rw [PutUint64_eq, toNat_Uint64 h.le, ← h, split_combine]

end Words

end BigEndian
