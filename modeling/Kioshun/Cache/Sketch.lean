import Kioshun.Cache.Doorkeeper
import Kioshun.Lib.Packed

/-!
# The frequency sketch

Sixteen counters of four bits share a word. An increment adds one to four counters, some of which
may be the same one; aging halves all of them. A key hash is never counted too low, and what
`increment` returns is the new estimate unless each of the lowest counters is met twice.
-/

namespace Kioshun

namespace FrequencyBloomFilter
open Packed List

variable {fbf : FrequencyBloomFilter} {i j keyHash : UInt64}

def counter (fbf : FrequencyBloomFilter) (index : UInt64) : Nat := (fbf.getCounterValue index).toNat

def positions (fbf : FrequencyBloomFilter) (keyHash : UInt64) : List UInt64 :=
  [hashN keyHash fbf.mask hash1Rotate, hashN keyHash fbf.mask hash2Rotate,
    hashN keyHash fbf.mask hash3Rotate, hashN keyHash fbf.mask hash4Rotate]

def InRange (fbf : FrequencyBloomFilter) : Prop :=
  ∀ index : UInt64, index.toNat ≤ fbf.mask.toNat → (index / 16).toNat < fbf.counters.length

theorem toNat_shift (index : UInt64) : (index % 16 * 4).toNat = 4 * (index.toNat % 16) := by
  have hmod : (index % 16).toNat = index.toNat % 16 := UInt64.toNat_mod ..
  have hlt : index.toNat % 16 < 16 := Nat.mod_lt _ (by decide)
  rw [UInt64.toNat_mul, hmod]
  change index.toNat % 16 * 4 % 2 ^ 64 = _
  omega

theorem toNat_nibble (cur index : UInt64) :
    ((cur >>> (index % 16 * 4)) &&& 0x0F).toNat = field 4 cur.toNat (index.toNat % 16) := by
  have hlt : index.toNat % 16 < 16 := Nat.mod_lt _ (by decide)
  rw [UInt64.toNat_and, UInt64.toNat_shiftRight, toNat_shift, Nat.mod_eq_of_lt (by omega),
    Nat.shiftRight_eq_div_pow]
  exact Nat.and_two_pow_sub_one_eq_mod _ 4

theorem counter_eq (fbf : FrequencyBloomFilter) (index : UInt64) : fbf.counter index =
    field 4 (fbf.counters.getD (index / 16).toNat 0).toNat (index.toNat % 16) := by
  rw [counter, getCounterValue, toNat_nibble]

theorem counter_lt (fbf : FrequencyBloomFilter) (index : UInt64) : fbf.counter index < 16 := by
  rw [counter_eq]
  exact field_lt 4 _ _

/-- Adding one to a counter that has room does not overflow the word. -/
theorem toNat_add_unit {cur : UInt64} (hroom : field 4 cur.toNat (i.toNat % 16) + 1 < 2 ^ 4) :
    (cur + (1 <<< (i % 16 * 4))).toNat = cur.toNat + 2 ^ (4 * (i.toNat % 16)) := by
  have hlt : i.toNat % 16 < 16 := Nat.mod_lt _ (by decide)
  have hunit : ((1 : UInt64) <<< (i % 16 * 4)).toNat = 2 ^ (4 * (i.toNat % 16)) := by
    rw [UInt64.toNat_shiftLeft, toNat_shift, Nat.mod_eq_of_lt (by omega : _ < 64), UInt64.toNat_one,
      Nat.one_shiftLeft]
    exact Nat.mod_eq_of_lt (Nat.pow_lt_pow_right (by decide) (by omega))
  have hdiv := add_unit_div hroom hlt
  rw [Nat.div_eq_of_lt cur.toNat_lt] at hdiv
  rw [UInt64.toNat_add, hunit]
  exact Nat.mod_eq_of_lt (Nat.lt_of_div_eq_zero (by decide) hdiv)

/-- Incrementing a counter never changes another one. -/
theorem counter_incrementCounter (hi : (i / 16).toNat < fbf.counters.length) :
    (fbf.incrementCounter i).counter j =
      if j = i then min 15 (fbf.counter i + 1) else fbf.counter j := by
  have hlt := counter_lt fbf i
  have hvalue := counter_eq fbf i
  rw [incrementCounter]
  split
  · next hroom =>
    have hfull : fbf.counter i < 15 := UInt64.lt_iff_toNat_lt.mp hroom
    have hfield : field 4 (fbf.counters.getD (i / 16).toNat 0).toNat (i.toNat % 16) + 1 <
        2 ^ 4 := by
      omega
    rw [counter_eq, getD_eq_getElem?_getD, Nat.min_eq_right (by omega)]
    by_cases hword : (j / 16).toNat = (i / 16).toNat
    · have hji : j.toNat % 16 = i.toNat % 16 ↔ j = i := by
        have hsame : j.toNat / 16 = i.toNat / 16 := hword
        rw [← UInt64.toNat_inj]
        omega
      rw [hword, getElem?_set_self hi, Option.getD_some, toNat_add_unit hfield,
        field_add_unit hfield, counter_eq fbf j, hword, hvalue]
      simp only [hji]
    · have hji : j ≠ i := fun h => hword (h ▸ rfl)
      rw [if_neg hji, getElem?_set_ne (Ne.symm hword), ← getD_eq_getElem?_getD, counter_eq]
  · next hfull =>
    have hle : 15 ≤ fbf.counter i := Nat.not_lt.mp fun h => hfull (UInt64.lt_iff_toNat_lt.mpr h)
    split_ifs with hji
    · rw [hji]
      omega
    · rfl

/-- Aging halves every counter. -/
theorem counter_age (fbf : FrequencyBloomFilter) (index : UInt64) :
    fbf.age.counter index = fbf.counter index / 2 := by
  have hmask : ∀ t < 16, field 4 0x7777777777777777 t = 2 ^ 3 - 1 := by decide
  rw [counter_eq, counter_eq, age, ← field_half (hmask _ (Nat.mod_lt _ (by decide))),
    getD_eq_getElem?_getD, getElem?_map, getD_eq_getElem?_getD]
  cases fbf.counters[(index / 16).toNat]? with
  | none => rfl
  | some cur =>
    simp only [Option.map_some, Option.getD_some, UInt64.toNat_and, UInt64.toNat_shiftRight]
    rfl

@[simp] theorem mask_incrementCounter : (fbf.incrementCounter i).mask = fbf.mask := by
  rw [incrementCounter]
  split <;> rfl

@[simp] theorem length_incrementCounter :
    (fbf.incrementCounter i).counters.length = fbf.counters.length := by
  rw [incrementCounter]
  split
  · exact length_set ..
  · rfl

theorem InRange.incrementCounter (hin : fbf.InRange) : (fbf.incrementCounter i).InRange := by
  intro index hle
  rw [mask_incrementCounter] at hle
  simpa using hin index hle

theorem le_mask_of_mem_positions (h : i ∈ fbf.positions keyHash) : i.toNat ≤ fbf.mask.toNat := by
  simp only [positions, mem_cons, not_mem_nil, or_false] at h
  obtain rfl | rfl | rfl | rfl := h <;> exact BloomFilter.hashN_le ..

/-- A counter that is met several times is incremented as often. -/
theorem counter_foldl (hin : fbf.InRange) {is : List UInt64}
    (his : ∀ i ∈ is, i.toNat ≤ fbf.mask.toNat) :
    (is.foldl incrementCounter fbf).counter j = min 15 (fbf.counter j + is.count j) := by
  induction is generalizing fbf with
  | nil =>
    have := counter_lt fbf j
    simp only [foldl_nil, count_nil]
    omega
  | cons i is ih =>
    have hrest : ∀ k ∈ is, k.toNat ≤ (fbf.incrementCounter i).mask.toNat := fun k hk => by
      simpa using his k (.tail _ hk)
    rw [foldl_cons, ih hin.incrementCounter hrest,
      counter_incrementCounter (hin i (his i (.head _))), count_cons]
    by_cases hji : j = i
    · simp only [hji, if_true, beq_self_eq_true]
      omega
    · simp [hji, Ne.symm hji]

theorem counter_bump (hin : fbf.InRange) : (fbf.bump keyHash).counter j =
    min 15 (fbf.counter j + (fbf.positions keyHash).count j) := by
  have hbump : fbf.bump keyHash = (fbf.positions keyHash).foldl incrementCounter fbf := rfl
  rw [hbump, counter_foldl hin fun _ => le_mask_of_mem_positions]

theorem toNat_lower (a b : UInt64) : (if b < a then b else a).toNat = min a.toNat b.toNat := by
  split
  · next h => exact (Nat.min_eq_right (UInt64.lt_iff_toNat_lt.mp h).le).symm
  · next h =>
      exact (Nat.min_eq_left (Nat.not_lt.mp fun hlt => h (UInt64.lt_iff_toNat_lt.mpr hlt))).symm

/-- The estimate is the lowest of the counters. -/
theorem le_estimate {c : Nat} : c ≤ (fbf.estimateFrequency keyHash).toNat ↔
    ∀ p ∈ fbf.positions keyHash, c ≤ fbf.counter p := by
  simp only [estimateFrequency, toNat_lower, le_min_iff, positions, forall_mem_cons, counter,
    not_mem_nil, false_implies, implies_true, and_true, and_assoc]

def agesNext (fbf : FrequencyBloomFilter) : Bool :=
  decide (fbf.agingThreshold ≤ fbf.totalIncrements + 1)

theorem counter_count : fbf.count.counter j =
    if fbf.agesNext then fbf.counter j / 2 else fbf.counter j := by
  simp only [count, agesNext, decide_eq_true_eq]
  split_ifs
  · exact counter_age _ j
  · rfl

theorem InRange.age (hin : fbf.InRange) : fbf.age.InRange := by
  intro index hle
  simpa [FrequencyBloomFilter.age] using hin index hle

theorem InRange.count (hin : fbf.InRange) : fbf.count.InRange := by
  simp only [FrequencyBloomFilter.count]
  split_ifs
  · exact InRange.age hin
  · exact hin

theorem bump_frame (fbf : FrequencyBloomFilter) (keyHash : UInt64) :
    (fbf.bump keyHash).mask = fbf.mask ∧ (fbf.bump keyHash).agesNext = fbf.agesNext := by
  have hone : ∀ (fbf : FrequencyBloomFilter) i, (fbf.incrementCounter i).mask = fbf.mask ∧
      (fbf.incrementCounter i).agesNext = fbf.agesNext := fun fbf i => by
    rw [incrementCounter]
    split <;> exact ⟨rfl, rfl⟩
  simp [bump, hone]

theorem mask_count : fbf.count.mask = fbf.mask := by
  simp only [count]
  split_ifs <;> rfl

theorem increment_of_lt (h : (fbf.estimateFrequency keyHash).toNat < 15) :
    fbf.increment keyHash = ((fbf.bump keyHash).count, fbf.estimateFrequency keyHash + 1) :=
  if_pos (UInt64.lt_iff_toNat_lt.mpr h)

theorem increment_of_full (h : ¬(fbf.estimateFrequency keyHash).toNat < 15) :
    fbf.increment keyHash = (fbf.count, fbf.estimateFrequency keyHash) :=
  if_neg fun hlt => h (UInt64.lt_iff_toNat_lt.mp hlt)

theorem InRange.increment (hin : fbf.InRange) : (fbf.increment keyHash).1.InRange := by
  by_cases hlow : (fbf.estimateFrequency keyHash).toNat < 15
  · rw [increment_of_lt hlow]
    exact InRange.count hin.incrementCounter.incrementCounter.incrementCounter.incrementCounter
  · rw [increment_of_full hlow]
    exact InRange.count hin

theorem mask_increment : (fbf.increment keyHash).1.mask = fbf.mask := by
  by_cases hlow : (fbf.estimateFrequency keyHash).toNat < 15
  · rw [increment_of_lt hlow, mask_count, (bump_frame fbf keyHash).1]
  · rw [increment_of_full hlow, mask_count]

/-- What the counters of a key hash are before an aging that its increment triggers. -/
def raised (fbf : FrequencyBloomFilter) (keyHash index : UInt64) : Nat :=
  if (fbf.estimateFrequency keyHash).toNat < 15 then
    min 15 (fbf.counter index + (fbf.positions keyHash).count index) else fbf.counter index

theorem counter_increment (hin : fbf.InRange) : (fbf.increment keyHash).1.counter j =
    if fbf.agesNext then fbf.raised keyHash j / 2 else fbf.raised keyHash j := by
  by_cases hlow : (fbf.estimateFrequency keyHash).toNat < 15
  · rw [increment_of_lt hlow, counter_count, (bump_frame fbf keyHash).2, counter_bump hin, raised,
      if_pos hlow]
  · rw [increment_of_full hlow, counter_count, raised, if_neg hlow]

/-- A new sketch has a word for every counter. -/
theorem newFrequencyBloomFilter_inRange (n : UInt64) : (newFrequencyBloomFilter n).InRange := by
  intro index hle
  obtain ⟨e, he⟩ := nextPowerOf2U_eq n
  simp only [newFrequencyBloomFilter, length_replicate] at hle ⊢
  exact word_lt he (w := 16) (j := 4) rfl hle

end FrequencyBloomFilter

inductive SketchOp where
  | increment (keyHash : UInt64)
  | age

structure SketchRun where
  sketch : FrequencyBloomFilter
  reference : UInt64 → Nat

namespace SketchRun
open FrequencyBloomFilter

def step (s : SketchRun) : SketchOp → SketchRun
  | .increment keyHash =>
    let c := Function.update s.reference keyHash (min 15 (s.reference keyHash + 1))
    ⟨(s.sketch.increment keyHash).1, if s.sketch.agesNext then fun h => c h / 2 else c⟩
  | .age => ⟨s.sketch.age, fun h => s.reference h / 2⟩

def exec (n : UInt64) (ops : List SketchOp) : SketchRun :=
  Schedule.exec step ⟨newFrequencyBloomFilter n, fun _ => 0⟩ ops

structure Sound (s : SketchRun) : Prop where
  inRange : s.sketch.InRange
  covers : ∀ h, ∀ p ∈ s.sketch.positions h, s.reference h ≤ s.sketch.counter p

variable {s : SketchRun}

/-- Before the aging, one more is counted in each counter of the key hash. -/
theorem Sound.raised (hs : s.Sound) (keyHash h : UInt64) {p : UInt64}
    (hp : p ∈ s.sketch.positions h) :
    Function.update s.reference keyHash (min 15 (s.reference keyHash + 1)) h ≤
      s.sketch.raised keyHash p := by
  have hold := hs.covers h p hp
  have hlt := counter_lt s.sketch p
  rw [FrequencyBloomFilter.raised]
  by_cases hkey : h = keyHash
  · subst hkey
    rw [Function.update_self]
    have hcount : 0 < (s.sketch.positions h).count p := List.count_pos_iff.mpr hp
    split_ifs with hlow
    · omega
    · have := le_estimate.mp (Nat.not_lt.mp hlow) p hp
      omega
  · rw [Function.update_of_ne hkey]
    split_ifs <;> omega

theorem Sound.step (hs : s.Sound) (op : SketchOp) : (s.step op).Sound := by
  cases op with
  | increment keyHash =>
    refine ⟨InRange.increment hs.inRange, fun h p hp => ?_⟩
    have hpos : p ∈ s.sketch.positions h := by
      rwa [positions, SketchRun.step, mask_increment, ← positions] at hp
    have hle := hs.raised keyHash h hpos
    simp only [SketchRun.step, counter_increment hs.inRange]
    split_ifs
    · exact Nat.div_le_div_right hle
    · exact hle
  | age =>
    refine ⟨InRange.age hs.inRange, fun h p hp => ?_⟩
    have hle := hs.covers h p hp
    simp only [SketchRun.step, counter_age]
    exact Nat.div_le_div_right hle

theorem sound_exec (n : UInt64) (ops : List SketchOp) : (exec n ops).Sound :=
  Schedule.exec_invariant (fun _ op hs => hs.step op)
    ⟨newFrequencyBloomFilter_inRange n, fun _ _ _ => Nat.zero_le _⟩

structure Counts (s : SketchRun) : Prop where
  estimate : ∀ h, s.reference h ≤ (s.sketch.estimateFrequency h).toNat
  separate : ∀ h, ∀ i ∈ s.sketch.positions h, ∀ j, (s.sketch.incrementCounter i).counter j =
    if j = i then min 15 (s.sketch.counter i + 1) else s.sketch.counter j
  halves : ∀ index, s.sketch.age.counter index = s.sketch.counter index / 2
  inRange : ∀ h, ∀ i ∈ s.sketch.positions h, (i / 16).toNat < s.sketch.counters.length
  length : ∀ i, (s.sketch.incrementCounter i).counters.length = s.sketch.counters.length

/-- Every sketch that runs lead to counts no key hash too low. -/
theorem exec_counts (n : UInt64) (ops : List SketchOp) : (exec n ops).Counts := by
  have hs := sound_exec n ops
  have hin : ∀ h, ∀ i ∈ (exec n ops).sketch.positions h,
      (i / 16).toNat < (exec n ops).sketch.counters.length := fun h i hi =>
    hs.inRange i (le_mask_of_mem_positions hi)
  exact ⟨fun h => le_estimate.mpr (hs.covers h),
    fun h i hi j => counter_incrementCounter (hin h i hi), counter_age _, hin,
    fun _ => length_incrementCounter⟩

section Reports

variable {fbf : FrequencyBloomFilter} {keyHash : UInt64}

def MetOnce (fbf : FrequencyBloomFilter) (keyHash : UInt64) : Prop :=
  ∃ p ∈ fbf.positions keyHash, fbf.counter p = (fbf.estimateFrequency keyHash).toNat ∧
    (fbf.positions keyHash).count p = 1

/-- The estimate after a call that does not age the sketch. -/
theorem le_estimate_increment (hin : fbf.InRange) (hquiet : fbf.agesNext = false) {c : Nat} :
    c ≤ ((fbf.increment keyHash).1.estimateFrequency keyHash).toNat ↔
      ∀ p ∈ fbf.positions keyHash, c ≤ fbf.raised keyHash p := by
  have hpos : (fbf.increment keyHash).1.positions keyHash = fbf.positions keyHash := by
    rw [positions, mask_increment, positions]
  simp only [le_estimate, hpos, counter_increment hin, hquiet, Bool.false_eq_true, if_false]

/-- A counter that has room goes up by one if it is met once, or if it is almost full. -/
theorem raised_of_mem (hlow : (fbf.estimateFrequency keyHash).toNat < 15) {p : UInt64}
    (hp : p ∈ fbf.positions keyHash) :
    (fbf.estimateFrequency keyHash).toNat + 1 ≤ fbf.raised keyHash p ∧
      (fbf.raised keyHash p < (fbf.estimateFrequency keyHash).toNat + 2 ↔
        14 ≤ (fbf.estimateFrequency keyHash).toNat ∨
          fbf.counter p = (fbf.estimateFrequency keyHash).toNat ∧
            (fbf.positions keyHash).count p = 1) := by
  have hle := le_estimate.mp le_rfl p hp
  have hmet : 0 < (fbf.positions keyHash).count p := List.count_pos_iff.mpr hp
  rw [raised, if_pos hlow]
  omega

theorem increment_eq_estimate_iff (hin : fbf.InRange) (hquiet : fbf.agesNext = false) :
    (fbf.increment keyHash).2 = (fbf.increment keyHash).1.estimateFrequency keyHash ↔
      14 ≤ (fbf.estimateFrequency keyHash).toNat ∨ MetOnce fbf keyHash := by
  have hafter := @le_estimate_increment fbf keyHash hin hquiet
  rw [← UInt64.toNat_inj]
  by_cases hlow : (fbf.estimateFrequency keyHash).toNat < 15
  · have hreturned : (fbf.increment keyHash).2.toNat =
        (fbf.estimateFrequency keyHash).toNat + 1 := by
      rw [increment_of_lt hlow, UInt64.toNat_add, UInt64.toNat_one]
      omega
    have hmore := hafter.mpr fun p hp => (raised_of_mem hlow hp).1
    have hexact : (fbf.estimateFrequency keyHash).toNat + 1 =
        ((fbf.increment keyHash).1.estimateFrequency keyHash).toNat ↔
          ¬∀ p ∈ fbf.positions keyHash,
            (fbf.estimateFrequency keyHash).toNat + 2 ≤ fbf.raised keyHash p := by
      rw [← hafter]
      omega
    have hfirst : hashN keyHash fbf.mask hash1Rotate ∈ fbf.positions keyHash := .head _
    rw [hreturned, hexact]
    push Not
    constructor
    · rintro ⟨p, hp, hle⟩
      exact ((raised_of_mem hlow hp).2.mp hle).imp_right fun hone => ⟨p, hp, hone⟩
    · rintro (hfull | ⟨p, hp, hone⟩)
      · exact ⟨_, hfirst, (raised_of_mem hlow hfirst).2.mpr (.inl hfull)⟩
      · exact ⟨p, hp, (raised_of_mem hlow hp).2.mpr (.inr hone)⟩
  · -- a full key hash is left alone
    have hsame : ∀ c, c ≤ ((fbf.increment keyHash).1.estimateFrequency keyHash).toNat ↔
        c ≤ (fbf.estimateFrequency keyHash).toNat := fun c => by
      simp only [hafter, raised, if_neg hlow, le_estimate]
    have heq := le_antisymm ((hsame _).mp le_rfl) ((hsame _).mpr le_rfl)
    rw [increment_of_full hlow] at heq ⊢
    simp only [heq, true_iff]
    exact .inl (by omega)

/-- In every sketch that runs lead to, as long as the call does not age it. -/
theorem exec_increment_reports_iff (n : UInt64) (ops : List SketchOp) (keyHash : UInt64)
    (hquiet : (exec n ops).sketch.agesNext = false) :
    ((exec n ops).sketch.increment keyHash).2 =
        ((exec n ops).sketch.increment keyHash).1.estimateFrequency keyHash ↔
      14 ≤ ((exec n ops).sketch.estimateFrequency keyHash).toNat ∨
        MetOnce (exec n ops).sketch keyHash :=
  increment_eq_estimate_iff (sound_exec n ops).inRange hquiet

/-- All rotations of the hash 0 lead to the first counter, which goes up by four. -/
theorem exec_increment_reports_not : ((exec 64 []).sketch.increment 0).2 = 1 ∧
    ((exec 64 []).sketch.increment 0).1.estimateFrequency 0 = 4 ∧
    (exec 64 []).sketch.agesNext = false := by decide +kernel

theorem exec_increment_reports_one : ((exec 64 []).sketch.increment 1).2 =
    ((exec 64 []).sketch.increment 1).1.estimateFrequency 1 :=
  (exec_increment_reports_iff 64 [] 1 (by decide +kernel)).mpr
    (.inr ⟨hashN 1 63 0, by decide +kernel⟩)

end Reports

end SketchRun

end Kioshun
