import Mathlib.Data.Nat.Log
import Mathlib.Data.Int.Basic
import Mathlib.Tactic.Ring
import Mathlib.Tactic.Linarith

/-!
# Configuration and shard sizing

The part of `New` that turns a `Config` into a number of shards and a capacity
per shard. Configured values are 64-bit; computed ones are integers that are
wrapped explicitly where the source can leave the 64-bit range.
-/

namespace Kioshun

/-- Two's complement reading of an integer as `int64`. -/
def wrap64 (x : Int) : Int := Int.bmod x (2 ^ 64)

/-- `EvictionPolicy`; `other` is any value outside the declared constants. -/
inductive EvictionPolicy where
  | LRU
  | LFU
  | FIFO
  | AdmissionLFU
  | other
  deriving DecidableEq, Repr

structure Config where
  maxSize : Int64
  shardCount : Int64
  defaultTTL : Int64
  evictionPolicy : EvictionPolicy
  statsEnabled : Bool
  admissionResetInterval : Int64
  admissionScanRateThreshold : UInt64
  admissionScanMissThreshold : UInt64
  admissionScanRecencyThreshold : Int64
  admissionRecencyTieBreak : Int64

/-- `DefaultConfig`; durations are nanoseconds. -/
def DefaultConfig : Config where
  maxSize := 10000
  shardCount := 0
  defaultTTL := 1800000000000
  evictionPolicy := .AdmissionLFU
  statsEnabled := true
  admissionResetInterval := 60000000000
  admissionScanRateThreshold := 100
  admissionScanMissThreshold := 50
  admissionScanRecencyThreshold := 100000000
  admissionRecencyTieBreak := 1000000000

def maxShardCount : Int := 256

def shardMultiplier : Int := 4

def bitsLen (n : Nat) : Nat := if n = 0 then 0 else Nat.log2 n + 1

def nextPowerOf2 (n : Int) : Int :=
  if n ≤ 1 then 1 else wrap64 (2 ^ bitsLen (n - 1).toNat)

/-- The doubling loop of `New`. The first argument bounds the number of rounds. -/
def maxPow2Loop (limit : Int) : Nat → Int → Int
  | 0, p => p
  | rounds + 1, p => if p * 2 ≤ limit then maxPow2Loop limit rounds (p * 2) else p

namespace Config

def shards (cfg : Config) (numCPU : Int) : Int :=
  let count := if cfg.shardCount.toInt ≤ 0 then
      min (wrap64 (numCPU * shardMultiplier)) maxShardCount else cfg.shardCount.toInt
  let count := if 0 < cfg.maxSize.toInt then
      min count (maxPow2Loop (min cfg.maxSize.toInt maxShardCount) 64 1) else count
  nextPowerOf2 count

/-- `perShardCap`; zero means unlimited. -/
def perShardCap (cfg : Config) (numCPU : Int) : Int :=
  if 0 < cfg.maxSize.toInt then cfg.maxSize.toInt / cfg.shards numCPU else 0

end Config

theorem lt_two_pow_bitsLen (n : Nat) : n < 2 ^ bitsLen n := by
  unfold bitsLen
  split_ifs with h
  · subst n; decide
  · exact Nat.lt_log2_self

theorem two_pow_bitsLen_le {n : Nat} (h : n ≠ 0) : 2 ^ bitsLen n ≤ 2 * n := by
  have hlog : 2 ^ Nat.log2 n ≤ n := Nat.log2_self_le h
  rw [bitsLen, if_neg h, Nat.pow_succ]
  omega

theorem wrap64_of_mem {x : Int} (h : -(2 ^ 63) ≤ x) (h' : x < 2 ^ 63) : wrap64 x = x := by
  unfold wrap64
  apply Int.bmod_eq_of_le <;> norm_num <;> omega

theorem wrap64_of_ge {x : Int} (h : 2 ^ 63 ≤ x) (h' : x < 2 ^ 64) : wrap64 x = x - 2 ^ 64 := by
  rw [wrap64, Int.bmod_def]
  split <;> omega

/-- Rounding up stays below the first power of two above `n`. -/
theorem nextPowerOf2_spec {n : Int} {j : Nat} (hj : j < 63) (hn : n ≤ 2 ^ j) :
    ∃ e : Nat, e ≤ j ∧ nextPowerOf2 n = 2 ^ e := by
  unfold nextPowerOf2
  split_ifs with h
  · exact ⟨0, Nat.zero_le _, rfl⟩
  · have hm : (n - 1).toNat ≠ 0 := by omega
    have hle : bitsLen (n - 1).toNat ≤ j := by
      by_contra hlt
      have hp : 2 ^ (j + 1) ≤ 2 ^ bitsLen (n - 1).toNat :=
        Nat.pow_le_pow_right (by decide) (by omega)
      have hb := two_pow_bitsLen_le hm
      have hcast : ((n - 1).toNat : Int) = n - 1 := Int.toNat_of_nonneg (by omega)
      have hnat : (n - 1).toNat < 2 ^ j := by
        have : ((n - 1).toNat : Int) < (2 ^ j : Nat) := by push_cast; omega
        exact_mod_cast this
      rw [Nat.pow_succ] at hp
      omega
    refine ⟨bitsLen (n - 1).toNat, hle, wrap64_of_mem ?_ ?_⟩
    · have : (0 : Int) ≤ 2 ^ bitsLen (n - 1).toNat := by positivity
      omega
    · exact pow_lt_pow_right₀ (by norm_num) (by omega)

/-- The loop returns the largest power of two that is at most `limit`. -/
theorem maxPow2Loop_spec (limit : Int) (rounds e : Nat) (hlo : (2 : Int) ^ e ≤ limit)
    (hhi : limit < 2 ^ (e + rounds)) :
    ∃ e' : Nat, maxPow2Loop limit rounds (2 ^ e) = 2 ^ e' ∧
      (2 : Int) ^ e' ≤ limit ∧ limit < 2 ^ (e' + 1) := by
  induction rounds generalizing e with
  | zero => simp only [Nat.add_zero] at hhi; omega
  | succ rounds ih =>
    unfold maxPow2Loop
    have hpow : (2 : Int) ^ e * 2 = 2 ^ (e + 1) := (pow_succ 2 e).symm
    rw [hpow]
    split_ifs with h
    · exact ih (e + 1) h (by rwa [Nat.add_assoc, Nat.add_comm 1])
    · exact ⟨e, rfl, hlo, by omega⟩

/-- Rounding up an `int` gives a power of two, or overflows to the least number. -/
theorem nextPowerOf2_cases {n : Int} (hn : n < 2 ^ 63) :
    nextPowerOf2 n = -2 ^ 63 ∨ ∃ e : Nat, e ≤ 62 ∧ nextPowerOf2 n = 2 ^ e := by
  by_cases hle : n ≤ 2 ^ 62
  · exact .inr (nextPowerOf2_spec (by decide) hle)
  · left
    have hbits : bitsLen (n - 1).toNat = 63 := by
      have hlo := lt_two_pow_bitsLen (n - 1).toNat
      have hhi := two_pow_bitsLen_le (n := (n - 1).toNat) (by omega)
      have h1 : bitsLen (n - 1).toNat < 64 := by
        by_contra hc
        have : 2 ^ 64 ≤ 2 ^ bitsLen (n - 1).toNat := Nat.pow_le_pow_right (by decide) (by omega)
        omega
      have h2 : 62 < bitsLen (n - 1).toNat := by
        by_contra hc
        have : 2 ^ bitsLen (n - 1).toNat ≤ 2 ^ 62 := Nat.pow_le_pow_right (by decide) (by omega)
        omega
      omega
    rw [nextPowerOf2, if_neg (by omega), hbits]
    decide

namespace Config
variable (cfg : Config) (numCPU : Int)

theorem shards_cases : cfg.shards numCPU < 0 ∨ ∃ e : Nat, e ≤ 62 ∧ cfg.shards numCPU = 2 ^ e := by
  refine (nextPowerOf2_cases ?_).imp_left fun h => h.trans_lt (by decide)
  have hint := cfg.shardCount.toInt_lt
  have hcap : min (wrap64 (numCPU * shardMultiplier)) maxShardCount ≤ 256 := min_le_right _ _
  split_ifs <;> omega

/-- With a positive `MaxSize` there are never more shards than entries to hold. -/
theorem shards_le_maxSize (h : 0 < cfg.maxSize.toInt) :
    ∃ e : Nat, cfg.shards numCPU = 2 ^ e ∧ (2 : Int) ^ e ≤ cfg.maxSize.toInt := by
  have hlimit : (1 : Int) ≤ min cfg.maxSize.toInt maxShardCount :=
    le_min (by omega) (by decide)
  have hmax : min cfg.maxSize.toInt maxShardCount ≤ 256 := min_le_right _ _
  obtain ⟨e', hloop, hlo, -⟩ := maxPow2Loop_spec (min cfg.maxSize.toInt maxShardCount) 64 0
    (by rw [pow_zero]; exact hlimit) (by omega)
  rw [pow_zero] at hloop
  have he' : e' < 63 := by
    by_contra hc
    have : (2 : Int) ^ 63 ≤ 2 ^ e' := pow_le_pow_right₀ (by norm_num) (by omega)
    omega
  simp only [shards, if_pos h, hloop]
  obtain ⟨e, hee, he⟩ := nextPowerOf2_spec he' (min_le_right
    (if cfg.shardCount.toInt ≤ 0 then min (wrap64 (numCPU * shardMultiplier)) maxShardCount
      else cfg.shardCount.toInt) ((2 : Int) ^ e'))
  refine ⟨e, he, ?_⟩
  calc (2 : Int) ^ e ≤ 2 ^ e' := pow_le_pow_right₀ (by norm_num) hee
    _ ≤ min cfg.maxSize.toInt maxShardCount := hlo
    _ ≤ cfg.maxSize.toInt := min_le_left _ _

/-- Every shard gets room for at least one entry, and the shards together for `MaxSize` at most. -/
theorem perShardCap_spec (h : 0 < cfg.maxSize.toInt) :
    1 ≤ cfg.perShardCap numCPU ∧
      cfg.shards numCPU * cfg.perShardCap numCPU ≤ cfg.maxSize.toInt := by
  obtain ⟨e, he, hle⟩ := cfg.shards_le_maxSize numCPU h
  have hpos : (0 : Int) < 2 ^ e := by positivity
  rw [perShardCap, if_pos h, he]
  exact ⟨(Int.le_ediv_iff_mul_le hpos).mpr (by omega), Int.mul_ediv_self_le hpos.ne'⟩

end Config

/-- Masking with one less than a power of two gives an index below it. -/
theorem toNat_and_mask_lt {e : Nat} (he : e ≤ 62) (hash : UInt64) :
    (hash &&& UInt64.ofInt (2 ^ e - 1)).toNat < 2 ^ e := by
  have hpow : (2 : Int) ^ e ≤ 2 ^ 62 := pow_le_pow_right₀ (by norm_num) he
  have hpos : (0 : Int) < 2 ^ e := by positivity
  have hmask : (UInt64.ofInt (2 ^ e - 1)).toNat < 2 ^ e := by
    have hmod : ((2 : Int) ^ e - 1) % 2 ^ 64 = 2 ^ e - 1 := Int.emod_eq_of_lt (by omega) (by omega)
    have hle : (UInt64.ofInt (2 ^ e - 1)).toNat ≤ ((2 : Int) ^ e - 1).toNat := by
      unfold UInt64.ofInt
      rw [hmod, UInt64.toNat_ofNat']
      exact Nat.mod_le _ _
    have hcast : (((2 : Int) ^ e - 1).toNat : Int) < (2 ^ e : Nat) := by
      rw [Int.toNat_of_nonneg (by omega)]
      push_cast
      omega
    omega
  rw [UInt64.toNat_and]
  exact lt_of_le_of_lt Nat.and_le_right hmask

end Kioshun
