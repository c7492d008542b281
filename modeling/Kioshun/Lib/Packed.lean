import Mathlib.Data.Nat.Bitwise

/-!
# Packed fields

A number is read as a sequence of fields of `b` bits, the lowest first. Adding one to a field that
has room leaves the other fields alone, and so does halving all of them at once with a mask.
-/

namespace Packed

def field (b x t : Nat) : Nat := x / 2 ^ (b * t) % 2 ^ b

variable {b c m x t u : Nat}

theorem field_lt (b x t : Nat) : field b x t < 2 ^ b := Nat.mod_lt _ (Nat.two_pow_pos b)

theorem two_pow_above (hut : u < t) : ∃ k, 2 ^ (b * t) = 2 ^ (b * u) * (2 ^ b * k) := by
  obtain ⟨d, rfl⟩ := Nat.exists_eq_add_of_lt hut
  refine ⟨2 ^ (b * d), ?_⟩
  rw [← Nat.pow_add, ← Nat.pow_add, Nat.mul_add, Nat.mul_add, Nat.mul_one]
  congr 1
  omega

/-- A field that has room counts one more. -/
theorem field_succ (hroom : field b x t + 1 < 2 ^ b) :
    (x / 2 ^ (b * t) + 1) % 2 ^ b = field b x t + 1 := by
  have hone : 1 % 2 ^ b = 1 := Nat.mod_eq_of_lt (by omega)
  rw [Nat.add_mod, hone]
  exact Nat.mod_eq_of_lt hroom

/-- Nothing is carried out of it. -/
theorem add_unit_div (hroom : field b x t + 1 < 2 ^ b) (htu : t < u) :
    (x + 2 ^ (b * t)) / 2 ^ (b * u) = x / 2 ^ (b * u) := by
  obtain ⟨k, hk⟩ := two_pow_above (b := b) htu
  have hdvd : ¬2 ^ b ∣ x / 2 ^ (b * t) + 1 := by
    intro hdvd
    have hzero := field_succ hroom
    rw [Nat.mod_eq_zero_of_dvd hdvd] at hzero
    cases hzero
  rw [hk, ← Nat.div_div_eq_div_mul, ← Nat.div_div_eq_div_mul, ← Nat.div_div_eq_div_mul,
    ← Nat.div_div_eq_div_mul, Nat.add_div_right _ (Nat.two_pow_pos _),
    Nat.succ_div_of_not_dvd hdvd]

theorem field_add_unit (hroom : field b x t + 1 < 2 ^ b) :
    field b (x + 2 ^ (b * t)) u = if u = t then field b x t + 1 else field b x u := by
  rcases Nat.lt_trichotomy u t with hlt | rfl | hgt
  · obtain ⟨k, hk⟩ := two_pow_above (b := b) hlt
    rw [if_neg hlt.ne, field, hk, Nat.add_mul_div_left _ _ (Nat.two_pow_pos _),
      Nat.add_mul_mod_self_left]
    rfl
  · rw [if_pos rfl, field, Nat.add_div_right _ (Nat.two_pow_pos _)]
    exact field_succ hroom
  · rw [if_neg hgt.ne', field, add_unit_div hroom hgt]
    rfl

theorem field_and (b x y t : Nat) : field b (x &&& y) t = field b x t &&& field b y t := by
  refine Nat.eq_of_testBit_eq fun i => ?_
  simp only [field, Nat.testBit_and, Nat.testBit_mod_two_pow, Nat.testBit_div_two_pow]
  cases decide (i < b) <;> simp

/-- Shifting by one bit halves every field, if the bits that come in from above are masked. -/
theorem field_half (hm : field (c + 1) m t = 2 ^ c - 1) :
    field (c + 1) (x / 2 &&& m) t = field (c + 1) x t / 2 := by
  rw [field_and, hm, Nat.and_two_pow_sub_one_eq_mod]
  simp only [field]
  rw [Nat.div_div_eq_div_mul, Nat.mul_comm 2, ← Nat.div_div_eq_div_mul,
    Nat.mod_mod_of_dvd _ (Nat.pow_dvd_pow 2 (Nat.le_succ c)), Nat.pow_succ',
    Nat.mod_mul_right_div_self]

end Packed
