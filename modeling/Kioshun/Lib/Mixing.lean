import Mathlib.Data.UInt
import Mathlib.Logic.Function.Basic

/-!
# Mixing words

The steps of which integer hashes consist lose nothing: a word that is combined with its own upper
part, and a multiplication by a number that has an inverse.
-/

namespace Mixing
open Function

/-- Two multiplications, with a shift before, between and after them. -/
def avalanche (s₁ a s₂ b s₃ x : UInt64) : UInt64 :=
  let x := x ^^^ (x >>> s₁)
  let x := a * x
  let x := x ^^^ (x >>> s₂)
  let x := b * x
  x ^^^ (x >>> s₃)

/-- Three shifts by more than 21 bits leave nothing, so that two more steps undo the first. -/
theorem xorShift_injective {s : UInt64} (hs : 22 ≤ s.toNat ∧ s.toNat < 64) :
    Injective fun x : UInt64 => x ^^^ (x >>> s) := by
  refine LeftInverse.injective (g := fun z => z ^^^ (z >>> s) ^^^ ((z >>> s) >>> s)) fun x => ?_
  apply UInt64.eq_of_toBitVec_eq
  ext i hi
  have hout : x.toBitVec.getLsbD (s.toNat + (s.toNat + (s.toNat + i))) = false :=
    BitVec.getLsbD_of_ge _ _ (by omega)
  simp [Nat.mod_eq_of_lt hs.2, hout]

theorem mul_injective_of_inverse {a a' : UInt64} (h : a' * a = 1) :
    Injective fun x : UInt64 => a * x := by
  refine LeftInverse.injective (g := fun x => a' * x) fun x => ?_
  simp only
  rw [← mul_assoc, h, one_mul]

theorem avalanche_injective {a b : UInt64} (s₁ a' s₂ b' s₃ : UInt64)
    (h₁ : 22 ≤ s₁.toNat ∧ s₁.toNat < 64) (ha : a' * a = 1) (h₂ : 22 ≤ s₂.toNat ∧ s₂.toNat < 64)
    (hb : b' * b = 1) (h₃ : 22 ≤ s₃.toNat ∧ s₃.toNat < 64) : Injective (avalanche s₁ a s₂ b s₃) :=
  (xorShift_injective h₃).comp <| (mul_injective_of_inverse hb).comp <|
    (xorShift_injective h₂).comp <| (mul_injective_of_inverse ha).comp <| xorShift_injective h₁

end Mixing
