import Kioshun.Cache.Admission
import Kioshun.Lib.Schedule
import Mathlib.Tactic.NormNum

/-!
# The doorkeeper of the admission filter

The bit set of the doorkeeper only grows between two resets, so a key hash that went into it
is found again. Whether a call resets it is decided by the reading of the clock that
`checkPeriodicReset` takes at its end.
-/

namespace Kioshun
open Schedule List

theorem nextPowerOf2U_eq (n : UInt64) : ∃ e, (nextPowerOf2U n).toNat = 2 ^ e := by
  have hlt : wrap64 n.toNat < 2 ^ 63 := Int.bmod_lt (m := 2 ^ 64) (by decide)
  obtain hwrapped | ⟨e, he, hpow⟩ := nextPowerOf2_cases hlt
  · refine ⟨63, ?_⟩
    rw [nextPowerOf2U, hwrapped]
    rfl
  · refine ⟨e, ?_⟩
    have hsmall : 2 ^ e < 2 ^ 64 := Nat.pow_lt_pow_right (by decide) (by omega)
    have hmod : ((2 : Int) ^ e % 2 ^ 64).toNat = 2 ^ e := by
      rw [Int.emod_eq_of_lt (by positivity) (by exact_mod_cast hsmall)]
      exact_mod_cast Int.toNat_natCast (2 ^ e)
    rw [nextPowerOf2U, hpow, UInt64.ofInt, hmod, UInt64.toNat_ofNat_of_lt' hsmall]

/-- A filter with a power of two of places, `w` of them in a word, has a word for each, and one at
least. -/
theorem word_lt {sz w i : UInt64} {e j : Nat} (hsz : sz.toNat = 2 ^ e) (hw : w.toNat = 2 ^ j)
    (hi : i.toNat ≤ (sz - 1).toNat) :
    (i / w).toNat < (if sz / w = 0 then 1 else sz / w).toNat := by
  have hpos := Nat.two_pow_pos e
  have hmask : (sz - 1).toNat = 2 ^ e - 1 := by
    rw [UInt64.toNat_sub_of_le, hsz, UInt64.toNat_one]
    rw [UInt64.le_iff_toNat_le, hsz]
    exact hpos
  have hlt : i.toNat < 2 ^ e := by omega
  have hdiv : (sz / w).toNat = 2 ^ e / 2 ^ j := by rw [UInt64.toNat_div, hsz, hw]
  rw [UInt64.toNat_div, hw]
  rcases Nat.lt_or_ge e j with hej | hje
  · have hsmall : 2 ^ e < 2 ^ j := Nat.pow_lt_pow_right (by decide) hej
    have hzero : sz / w = 0 := by
      rw [← UInt64.toNat_inj, hdiv]
      exact Nat.div_eq_of_lt hsmall
    rw [if_pos hzero, Nat.div_eq_of_lt (hlt.trans hsmall)]
    decide
  · have hwords : (sz / w).toNat = 2 ^ (e - j) := by rw [hdiv, Nat.pow_div hje (by decide)]
    have hone : sz / w ≠ 0 := fun h =>
      (Nat.two_pow_pos (e - j)).ne' (hwords ▸ congrArg UInt64.toNat h)
    rw [if_neg hone, hwords]
    refine Nat.div_lt_of_lt_mul ?_
    rwa [← Nat.pow_add, Nat.add_sub_cancel' hje]

namespace BloomFilter
variable {bf : BloomFilter} {bits : List UInt64} {g h keyHash : UInt64}

def InRange (bf : BloomFilter) : Prop :=
  ∀ keyHash rotate, (hashN keyHash bf.mask rotate / 64).toNat < bf.bits.length

@[simp] theorem length_setBit : (setBit bits h).length = bits.length := length_set ..

theorem bit_ne_zero (h : UInt64) : (1 <<< (h % 64) : UInt64) ≠ 0 := by
  have hlt : (h % 64).toNat < 64 := by
    rw [UInt64.toNat_mod]
    exact Nat.mod_lt _ (by decide)
  intro hzero
  have hnat := congrArg UInt64.toNat hzero
  rw [UInt64.toNat_shiftLeft, Nat.mod_eq_of_lt hlt, UInt64.toNat_one, Nat.one_shiftLeft,
    Nat.mod_eq_of_lt (Nat.pow_lt_pow_right (by decide) hlt)] at hnat
  exact absurd hnat (Nat.two_pow_pos _).ne'

/-- Setting bits keeps the others. -/
theorem and_or_ne_zero {x y m : UInt64} (hx : x &&& m ≠ 0) : (x ||| y) &&& m ≠ 0 := by
  intro hzero
  refine hx (UInt64.toBitVec_inj.mp ?_)
  have hvec : (x.toBitVec ||| y.toBitVec) &&& m.toBitVec = 0#64 := congrArg UInt64.toBitVec hzero
  rw [BitVec.and_comm, BitVec.and_or_distrib_left, BitVec.or_eq_zero_iff, BitVec.and_comm] at hvec
  exact hvec.1

theorem getD_setBit_self (hin : (h / 64).toNat < bits.length) :
    (setBit bits h).getD (h / 64).toNat 0 = bits.getD (h / 64).toNat 0 ||| (1 <<< (h % 64)) := by
  rw [setBit, getD_eq_getElem?_getD, getElem?_set_self hin, Option.getD_some]

theorem testBit_setBit_self (hin : (h / 64).toNat < bits.length) :
    testBit (setBit bits h) h = true := by
  rw [testBit, getD_setBit_self hin, bne_iff_ne, UInt64.or_comm]
  refine and_or_ne_zero ?_
  rw [UInt64.and_self]
  exact bit_ne_zero h

theorem testBit_setBit (hg : testBit bits g = true) : testBit (setBit bits h) g = true := by
  by_cases hword : (h / 64).toNat = (g / 64).toNat
  · by_cases hin : (h / 64).toNat < bits.length
    · rw [testBit, ← hword, bne_iff_ne] at hg ⊢
      rw [getD_setBit_self hin]
      exact and_or_ne_zero hg
    · rw [setBit, set_eq_of_length_le (Nat.not_lt.mp hin)]
      exact hg
  · rw [testBit, setBit, getD_eq_getElem?_getD, getElem?_set_ne hword,
      ← getD_eq_getElem?_getD]
    exact hg

theorem InRange.add (hin : bf.InRange) (keyHash : UInt64) : (bf.add keyHash).InRange := by
  intro key rotate
  simpa [BloomFilter.add] using hin key rotate

theorem InRange.reset (hin : bf.InRange) : bf.reset.InRange := by
  intro key rotate
  simpa [BloomFilter.reset] using hin key rotate

theorem contains_add_self (hin : bf.InRange) : (bf.add keyHash).contains keyHash = true := by
  simp only [contains, add, Bool.and_eq_true]
  exact ⟨⟨testBit_setBit (testBit_setBit (testBit_setBit_self (hin _ _))),
    testBit_setBit (testBit_setBit_self (by simpa using hin _ _))⟩,
    testBit_setBit_self (by simpa using hin _ _)⟩

/-- Adding another key hash forgets none. -/
theorem contains_add (hknown : bf.contains keyHash = true) (other : UInt64) :
    (bf.add other).contains keyHash = true := by
  simp only [contains, Bool.and_eq_true] at hknown ⊢
  exact ⟨⟨testBit_setBit (testBit_setBit (testBit_setBit hknown.1.1)),
    testBit_setBit (testBit_setBit (testBit_setBit hknown.1.2))⟩,
    testBit_setBit (testBit_setBit (testBit_setBit hknown.2))⟩

theorem hashN_le (keyHash mask rotate : UInt64) :
    (hashN keyHash mask rotate).toNat ≤ mask.toNat := by
  simp only [hashN, UInt64.toNat_and]
  exact Nat.and_le_right

theorem newBloomFilter_inRange (n : UInt64) : (newBloomFilter n).InRange := by
  intro keyHash rotate
  obtain ⟨e, he⟩ := nextPowerOf2U_eq n
  simp only [newBloomFilter, length_replicate]
  exact word_lt he (w := 64) (j := 6) rfl (hashN_le ..)

end BloomFilter

namespace AdaptiveAdmissionFilter

inductive Call where
  | shouldAdmit (keyHash vFreq : UInt64) (vAge : Int)
  | RecordEviction
  | Reset

def perform (s : AdaptiveAdmissionFilter × WallClock) : Call → AdaptiveAdmissionFilter × WallClock
  | .shouldAdmit keyHash vFreq vAge => (s.1.shouldAdmit keyHash vFreq vAge s.2).2
  | .RecordEviction => (s.1.RecordEviction, s.2)
  | .Reset => (s.1.Reset, s.2)

/-- `shouldAdmit` takes the path of the normal mode, which adds the key hash to the doorkeeper. -/
def normal (s : AdaptiveAdmissionFilter × WallClock) (keyHash : UInt64) : Bool :=
  !s.1.doorkeeper.contains keyHash && !(s.1.detector.detectScan s.2).1

/-- What `checkPeriodicReset` finds at the end of that path. -/
def beforeCheck (s : AdaptiveAdmissionFilter × WallClock) (keyHash vFreq : UInt64) (vAge : Int) :
    AdaptiveAdmissionFilter × WallClock :=
  let scan := s.1.detector.detectScan s.2
  let nf := s.1.frequencyFilter.increment keyHash
  let aaf := { s.1 with
    admissionRequests := s.1.admissionRequests + 1
    detector := scan.2.1
    frequencyFilter := nf.1
    doorkeeper := s.1.doorkeeper.add keyHash }
  let granted := aaf.makeAdmissionDecision keyHash nf.2 vFreq vAge scan.2.2
  aaf.adjustAdmissionProbability granted.2

def resetDue (s : AdaptiveAdmissionFilter × WallClock) : Bool :=
  decide (s.1.resetInterval < wrap64 (s.2.now.1 - s.1.lastReset))

def resets (s : AdaptiveAdmissionFilter × WallClock) : Call → Bool
  | .shouldAdmit keyHash vFreq vAge =>
    normal s keyHash && resetDue (beforeCheck s keyHash vFreq vAge)
  | .RecordEviction => false
  | .Reset => true

section Runs
variable {s : AdaptiveAdmissionFilter × WallClock} {keyHash : UInt64}

theorem doorkeeper_recordDecision (aaf : AdaptiveAdmissionFilter) (granted : Bool) :
    (aaf.recordDecision granted).doorkeeper = aaf.doorkeeper := by
  unfold recordDecision
  split <;> rfl

theorem doorkeeper_checkPeriodicReset (s : AdaptiveAdmissionFilter × WallClock) :
    (s.1.checkPeriodicReset s.2).1.doorkeeper =
      if resetDue s then s.1.doorkeeper.reset else s.1.doorkeeper := by
  simp only [checkPeriodicReset, resetDue, decide_eq_true_eq]
  split <;> rfl

theorem doorkeeper_beforeCheck (s : AdaptiveAdmissionFilter × WallClock) (keyHash vFreq : UInt64)
    (vAge : Int) :
    (beforeCheck s keyHash vFreq vAge).1.doorkeeper = s.1.doorkeeper.add keyHash := by
  simp only [beforeCheck, adjustAdmissionProbability]
  split <;> rfl

/-- The normal mode adds the key hash, and may reset the doorkeeper afterwards. -/
theorem doorkeeper_normal (hnormal : normal s keyHash = true) (vFreq : UInt64) (vAge : Int) :
    (perform s (.shouldAdmit keyHash vFreq vAge)).1.doorkeeper =
      if resets s (.shouldAdmit keyHash vFreq vAge) then (s.1.doorkeeper.add keyHash).reset
      else s.1.doorkeeper.add keyHash := by
  have hpath := hnormal
  simp only [normal, Bool.and_eq_true, Bool.not_eq_true'] at hpath
  have hcheck : (perform s (.shouldAdmit keyHash vFreq vAge)).1.doorkeeper =
      ((beforeCheck s keyHash vFreq vAge).1.checkPeriodicReset
        (beforeCheck s keyHash vFreq vAge).2).1.doorkeeper := by
    simp only [perform, shouldAdmit, hpath.1, hpath.2, Bool.false_eq_true, if_false, admitNormal,
      doorkeeper_recordDecision, beforeCheck]
  rw [hcheck, doorkeeper_checkPeriodicReset, doorkeeper_beforeCheck, resets, hnormal, Bool.true_and]

/-- Every call leaves the doorkeeper alone or adds a key hash, and then resets it or not. -/
theorem doorkeeper_perform (s : AdaptiveAdmissionFilter × WallClock) (call : Call) :
    ∃ bf, (bf = s.1.doorkeeper ∨ ∃ keyHash, bf = s.1.doorkeeper.add keyHash) ∧
      (perform s call).1.doorkeeper = if resets s call then bf.reset else bf := by
  cases call with
  | shouldAdmit keyHash vFreq vAge =>
    cases hnormal : normal s keyHash with
    | true => exact ⟨_, .inr ⟨keyHash, rfl⟩, doorkeeper_normal hnormal vFreq vAge⟩
    | false =>
      simp only [resets, hnormal, Bool.false_and, Bool.false_eq_true, if_false]
      cases hknown : s.1.doorkeeper.contains keyHash with
      | true =>
        refine ⟨_, .inr ⟨keyHash, rfl⟩, ?_⟩
        simp only [perform, shouldAdmit, hknown, if_true, admitKnown, doorkeeper_recordDecision]
      | false =>
        have hscan : (s.1.detector.detectScan s.2).1 = true := by
          simpa [normal, hknown] using hnormal
        refine ⟨_, .inl rfl, ?_⟩
        simp only [perform, shouldAdmit, hknown, hscan, Bool.false_eq_true, if_false, if_true,
          admitScan, doorkeeper_recordDecision]
  | RecordEviction => exact ⟨_, .inl rfl, rfl⟩
  | Reset => exact ⟨_, .inl rfl, rfl⟩

theorem perform_inRange (hin : s.1.doorkeeper.InRange) (call : Call) :
    (perform s call).1.doorkeeper.InRange := by
  obtain ⟨bf, hbf, heq⟩ := doorkeeper_perform s call
  have hadded : bf.InRange := by
    rcases hbf with rfl | ⟨keyHash, rfl⟩
    · exact hin
    · exact hin.add keyHash
  rw [heq]
  split
  · exact hadded.reset
  · exact hadded

theorem perform_contains (hknown : s.1.doorkeeper.contains keyHash = true) {call : Call}
    (hkept : resets s call = false) :
    (perform s call).1.doorkeeper.contains keyHash = true := by
  obtain ⟨bf, hbf, heq⟩ := doorkeeper_perform s call
  rw [heq, hkept, if_neg Bool.false_ne_true]
  rcases hbf with rfl | ⟨other, rfl⟩
  · exact hknown
  · exact BloomFilter.contains_add hknown other

theorem shouldAdmit_of_contains (hknown : s.1.doorkeeper.contains keyHash = true) (vFreq : UInt64)
    (vAge : Int) : (s.1.shouldAdmit keyHash vFreq vAge s.2).1 = true := by
  simp only [shouldAdmit, hknown, if_true]

/-- For every size of the filter and every run of calls, whatever the clock shows: all accesses to
the bit set are in range, and a key hash that goes through the normal mode is admitted from then
on as long as no call resets the doorkeeper. -/
theorem exec_admits_known (n : UInt64) (ri : Int) (scanRate scanMiss : UInt64)
    (scanRecency recencyTie : Int) (w : WallClock) (calls : List Call) :
    let s := exec perform
      (newAdaptiveAdmissionFilter n ri scanRate scanMiss scanRecency recencyTie w) calls
    s.1.doorkeeper.InRange ∧
      ∀ (keyHash vFreq : UInt64) (vAge : Int) (later : List Call), normal s keyHash = true →
        Along perform (fun s call => resets s call = false) s
          (.shouldAdmit keyHash vFreq vAge :: later) →
        ∀ (vFreq' : UInt64) (vAge' : Int),
          let s' := exec perform s (.shouldAdmit keyHash vFreq vAge :: later)
          (s'.1.shouldAdmit keyHash vFreq' vAge' s'.2).1 = true := by
  intro s
  have hin : s.1.doorkeeper.InRange :=
    exec_invariant
      (I := fun s : AdaptiveAdmissionFilter × WallClock => s.1.doorkeeper.InRange)
      (fun _ call h => perform_inRange h call) (BloomFilter.newBloomFilter_inRange _)
  refine ⟨hin, fun keyHash vFreq vAge later hnormal halong vFreq' vAge' => ?_⟩
  have hadded : (perform s (.shouldAdmit keyHash vFreq vAge)).1.doorkeeper.contains keyHash =
      true := by
    rw [doorkeeper_normal hnormal, halong.1, if_neg Bool.false_ne_true]
    exact BloomFilter.contains_add_self hin
  exact shouldAdmit_of_contains (exec_keeps
    (I := fun s : AdaptiveAdmissionFilter × WallClock => s.1.doorkeeper.contains keyHash = true)
    (fun _ _ h hkept => perform_contains h hkept) hadded halong.2) vFreq' vAge'

/-- A filter of one word: a key hash comes back after another call and an eviction. -/
theorem exec_admits_known_small :
    let s := newAdaptiveAdmissionFilter 64 10 0 0 0 0 ⟨fun n => n, 0⟩
    let later := [.shouldAdmit 9 1 0, .RecordEviction]
    s.1.doorkeeper.InRange ∧ normal s 5 = true ∧
      Along perform (fun s call => resets s call = false) s
        (.shouldAdmit 5 1 0 :: later) ∧
      let s' := exec perform s (.shouldAdmit 5 1 0 :: later)
      (s'.1.shouldAdmit 5 1 0 s'.2).1 = true := by
  intro s later
  have hnormal : normal s 5 = true := by decide +kernel
  have halong : Along perform (fun s call => resets s call = false) s
      (.shouldAdmit 5 1 0 :: later) := by decide +kernel
  obtain ⟨hin, hadmits⟩ := exec_admits_known 64 10 0 0 0 0 ⟨fun n => n, 0⟩ []
  exact ⟨hin, hnormal, halong, hadmits 5 1 0 later hnormal halong 1 0⟩

end Runs

end AdaptiveAdmissionFilter

end Kioshun
