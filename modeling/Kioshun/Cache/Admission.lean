import Kioshun.Cache.Config
import Kioshun.Cache.Runtime

/-!
# The adaptive admission filter

Doorkeeper, frequency sketch, scan detection and pressure feedback of
`admission.go`. Hashes, bit sets, packed counters and event counters are 64-bit
words; probabilities are natural numbers between 0 and 100. Every call of
`time.Now` takes one reading of the wall clock, in the order of the source.
Constant factors are written first.
-/

namespace Kioshun

def rotateLeft64 (x k : UInt64) : UInt64 := (x <<< (k % 64)) ||| (x >>> ((64 - k % 64) % 64))

def xxHash64Avalanche (h64 : UInt64) : UInt64 :=
  let h64 := h64 ^^^ (h64 >>> 33)
  let h64 := 0xC2B2AE3D27D4EB4F * h64
  let h64 := h64 ^^^ (h64 >>> 29)
  let h64 := 0x165667B19E3779F9 * h64
  h64 ^^^ (h64 >>> 32)

def bloomMixPrime1 : UInt64 := 0xff51afd7ed558ccd

def bloomMixPrime2 : UInt64 := 0xc4ceb9fe1a85ec53

def hashN (hash mask rotate : UInt64) : UInt64 :=
  let h := rotateLeft64 hash rotate
  let h := h ^^^ (h >>> 33)
  let h := bloomMixPrime1 * h
  let h := h ^^^ (h >>> 29)
  let h := bloomMixPrime2 * h
  let h := h ^^^ (h >>> 32)
  h &&& mask

def hash1Rotate : UInt64 := 0

def hash2Rotate : UInt64 := 17

def hash3Rotate : UInt64 := 31

def hash4Rotate : UInt64 := 47

def acceptWithProb (hash : UInt64) (prob : Nat) : Bool :=
  if 100 ≤ prob then true
  else if prob = 0 then false
  else
    let r := (xxHash64Avalanche hash >>> 32).toNat
    let thr := 2 ^ 32 * prob / 100
    decide (r < thr)

/-- `uint64(mathutil.NextPowerOf2(int(n)))`. -/
def nextPowerOf2U (n : UInt64) : UInt64 := UInt64.ofInt (nextPowerOf2 (wrap64 n.toNat))

structure BloomFilter where
  bits : List UInt64
  size : UInt64
  mask : UInt64

namespace BloomFilter

def newBloomFilter (n : UInt64) : BloomFilter :=
  let n := nextPowerOf2U n
  let arrN := if n / 64 = 0 then 1 else n / 64
  ⟨List.replicate arrN.toNat 0, n, n - 1⟩

/-- `bf.bits[h/bitsPerWord] |= 1 << (h % bitsPerWord)`. -/
def setBit (bits : List UInt64) (h : UInt64) : List UInt64 :=
  bits.set (h / 64).toNat (bits.getD (h / 64).toNat 0 ||| (1 <<< (h % 64)))

def testBit (bits : List UInt64) (h : UInt64) : Bool :=
  (bits.getD (h / 64).toNat 0 &&& (1 <<< (h % 64))) != 0

def add (bf : BloomFilter) (keyHash : UInt64) : BloomFilter :=
  let h1 := hashN keyHash bf.mask hash1Rotate
  let h2 := hashN keyHash bf.mask hash2Rotate
  let h3 := hashN keyHash bf.mask hash3Rotate
  { bf with bits := setBit (setBit (setBit bf.bits h1) h2) h3 }

def contains (bf : BloomFilter) (keyHash : UInt64) : Bool :=
  testBit bf.bits (hashN keyHash bf.mask hash1Rotate) &&
    testBit bf.bits (hashN keyHash bf.mask hash2Rotate) &&
    testBit bf.bits (hashN keyHash bf.mask hash3Rotate)

def reset (bf : BloomFilter) : BloomFilter :=
  { bf with bits := bf.bits.map fun _ => 0 }

end BloomFilter

structure FrequencyBloomFilter where
  counters : List UInt64
  size : UInt64
  mask : UInt64
  totalIncrements : UInt64
  agingThreshold : UInt64

namespace FrequencyBloomFilter

def newFrequencyBloomFilter (n : UInt64) : FrequencyBloomFilter :=
  let sz := nextPowerOf2U n
  let arrN := if sz / 16 = 0 then 1 else sz / 16
  ⟨List.replicate arrN.toNat 0, sz, sz - 1, 0, sz * 10⟩

def getCounterValue (fbf : FrequencyBloomFilter) (index : UInt64) : UInt64 :=
  (fbf.counters.getD (index / 16).toNat 0 >>> (index % 16 * 4)) &&& 0x0F

def incrementCounter (fbf : FrequencyBloomFilter) (index : UInt64) : FrequencyBloomFilter :=
  let ai := (index / 16).toNat
  let sh := index % 16 * 4
  let cur := fbf.counters.getD ai 0
  let v := (cur >>> sh) &&& 0x0F
  if v < 15 then { fbf with counters := fbf.counters.set ai (cur + (1 <<< sh)) } else fbf

def age (fbf : FrequencyBloomFilter) : FrequencyBloomFilter :=
  { fbf with
    counters := fbf.counters.map fun cur : UInt64 => (cur >>> 1) &&& 0x7777777777777777
    totalIncrements := 0 }

def estimateFrequency (fbf : FrequencyBloomFilter) (keyHash : UInt64) : UInt64 :=
  let f := fbf.getCounterValue (hashN keyHash fbf.mask hash1Rotate)
  let f2 := fbf.getCounterValue (hashN keyHash fbf.mask hash2Rotate)
  let f := if f2 < f then f2 else f
  let f3 := fbf.getCounterValue (hashN keyHash fbf.mask hash3Rotate)
  let f := if f3 < f then f3 else f
  let f4 := fbf.getCounterValue (hashN keyHash fbf.mask hash4Rotate)
  if f4 < f then f4 else f

/-- The four counter increments of `increment`. -/
def bump (fbf : FrequencyBloomFilter) (keyHash : UInt64) : FrequencyBloomFilter :=
  let fbf1 := fbf.incrementCounter (hashN keyHash fbf.mask hash1Rotate)
  let fbf2 := fbf1.incrementCounter (hashN keyHash fbf.mask hash2Rotate)
  let fbf3 := fbf2.incrementCounter (hashN keyHash fbf.mask hash3Rotate)
  fbf3.incrementCounter (hashN keyHash fbf.mask hash4Rotate)

/-- The increment count of `increment` and the aging it triggers. -/
def count (fbf : FrequencyBloomFilter) : FrequencyBloomFilter :=
  let fbf := { fbf with totalIncrements := fbf.totalIncrements + 1 }
  if fbf.agingThreshold ≤ fbf.totalIncrements then fbf.age else fbf

/-- `increment`; the source repeats the body of `estimateFrequency` here. -/
def increment (fbf : FrequencyBloomFilter) (keyHash : UInt64) :
    FrequencyBloomFilter × UInt64 :=
  let f := fbf.estimateFrequency keyHash
  if f < 15 then ((fbf.bump keyHash).count, f + 1) else (fbf.count, f)

end FrequencyBloomFilter

structure WorkloadDetector where
  recentAdmissions : UInt64
  recentAdmissionTime : Int
  admissionRate : UInt64
  consecutiveMisses : UInt64
  admissionRateThreshold : UInt64
  missThreshold : UInt64

namespace WorkloadDetector

def second : Int := 1000000000

def newWorkloadDetector (rateThreshold missThreshold : UInt64) (w : WallClock) :
    WorkloadDetector × WallClock :=
  (⟨0, w.now.1, 0, 0, rateThreshold, missThreshold⟩, w.now.2)

def detectScan (wd : WorkloadDetector) (w : WallClock) : Bool × WorkloadDetector × WallClock :=
  let now := w.now
  let dt := wrap64 (now.1 - wd.recentAdmissionTime)
  let wd := if second < dt then
      { wd with
        admissionRate := 1000000000 * wd.recentAdmissions / UInt64.ofInt dt
        recentAdmissions := 0
        recentAdmissionTime := now.1 }
    else wd
  (decide (0 < wd.admissionRateThreshold ∧ wd.admissionRateThreshold < wd.admissionRate) ||
    decide (0 < wd.missThreshold ∧ wd.missThreshold < wd.consecutiveMisses), wd, now.2)

def recordAdmission (wd : WorkloadDetector) : WorkloadDetector :=
  { wd with recentAdmissions := wd.recentAdmissions + 1, consecutiveMisses := 0 }

def recordRejection (wd : WorkloadDetector) : WorkloadDetector :=
  { wd with consecutiveMisses := wd.consecutiveMisses + 1 }

end WorkloadDetector

structure AdaptiveAdmissionFilter where
  frequencyFilter : FrequencyBloomFilter
  doorkeeper : BloomFilter
  detector : WorkloadDetector
  admissionProbability : Nat
  minProbability : Nat
  maxProbability : Nat
  recentEvictions : UInt64
  evictionWindow : Int
  resetInterval : Int
  lastReset : Int
  admissionRequests : UInt64
  admissionGrants : UInt64
  scanRejections : UInt64
  scanRecencyThreshold : Int
  recencyTieBreak : Int

namespace AdaptiveAdmissionFilter

/-- `newAdaptiveAdmissionFilter`; the three readings are those of the detector,
of `lastReset` and of `evictionWindow`. -/
def newAdaptiveAdmissionFilter (n : UInt64) (ri : Int)
    (scanRateThreshold scanMissThreshold : UInt64)
    (scanRecency recencyTie : Int) (w : WallClock) : AdaptiveAdmissionFilter × WallClock :=
  let detector := WorkloadDetector.newWorkloadDetector
    (if scanRateThreshold = 0 then 100 else scanRateThreshold)
    (if scanMissThreshold = 0 then 50 else scanMissThreshold) w
  let reset := detector.2.now
  let window := reset.2.now
  ({ frequencyFilter := FrequencyBloomFilter.newFrequencyBloomFilter n
     doorkeeper := BloomFilter.newBloomFilter (n / 8)
     detector := detector.1
     admissionProbability := 70
     minProbability := 5
     maxProbability := 95
     recentEvictions := 0
     evictionWindow := window.1
     resetInterval := ri
     lastReset := reset.1
     admissionRequests := 0
     admissionGrants := 0
     scanRejections := 0
     scanRecencyThreshold := if scanRecency ≤ 0 then 100000000 else scanRecency
     recencyTieBreak := if recencyTie ≤ 0 then 1000000000 else recencyTie }, window.2)

def admitDuringScan (aaf : AdaptiveAdmissionFilter) (keyHash : UInt64) (vAge : Int)
    (w : WallClock) : Bool × WallClock :=
  let now := w.now
  if 0 < vAge ∧ 0 < aaf.scanRecencyThreshold ∧ aaf.scanRecencyThreshold < wrap64 (now.1 - vAge) then
    (true, now.2)
  else (acceptWithProb keyHash aaf.minProbability, now.2)

def makeAdmissionDecision (aaf : AdaptiveAdmissionFilter) (keyHash nf vFreq : UInt64) (vAge : Int)
    (w : WallClock) : Bool × WallClock :=
  if 3 ≤ nf then (true, w)
  else if vFreq < nf then (true, w)
  else if nf = vFreq ∧ 0 < nf then
    if 0 < vAge then
      let now := w.now
      if 0 < aaf.recencyTieBreak then
        (decide (aaf.recencyTieBreak < wrap64 (now.1 - vAge)), now.2)
      else (acceptWithProb keyHash 50, now.2)
    else (acceptWithProb keyHash 50, w)
  else
    let vf := if 5 < vFreq then 5 else vFreq
    let adjustedProb : Int := aaf.admissionProbability - (vf * 10).toNat
    let adjustedProb := if adjustedProb < aaf.minProbability then
      (aaf.minProbability : Int) else adjustedProb
    (acceptWithProb keyHash adjustedProb.toNat, w)

def adjustAdmissionProbability (aaf : AdaptiveAdmissionFilter) (w : WallClock) :
    AdaptiveAdmissionFilter × WallClock :=
  let now := w.now
  if WorkloadDetector.second < wrap64 (now.1 - aaf.evictionWindow) then
    let p := aaf.admissionProbability
    let np := if 100 < aaf.recentEvictions then
        let np := if 5 < p then p - 5 else p
        if np < aaf.minProbability then aaf.minProbability else np
      else if aaf.recentEvictions < 10 then
        if aaf.maxProbability < p + 5 then aaf.maxProbability else p + 5
      else p
    ({ aaf with admissionProbability := np, recentEvictions := 0, evictionWindow := now.1 }, now.2)
  else (aaf, now.2)

def checkPeriodicReset (aaf : AdaptiveAdmissionFilter) (w : WallClock) :
    AdaptiveAdmissionFilter × WallClock :=
  let now := w.now
  if aaf.resetInterval < wrap64 (now.1 - aaf.lastReset) then
    ({ aaf with doorkeeper := aaf.doorkeeper.reset, lastReset := now.1 }, now.2)
  else (aaf, now.2)

def recordDecision (aaf : AdaptiveAdmissionFilter) (granted : Bool) : AdaptiveAdmissionFilter :=
  if granted then
    { aaf with
      detector := aaf.detector.recordAdmission
      admissionGrants := aaf.admissionGrants + 1 }
  else { aaf with detector := aaf.detector.recordRejection }

/-- The fast path of `shouldAdmit`: the doorkeeper knows the key. -/
def admitKnown (aaf : AdaptiveAdmissionFilter) (keyHash : UInt64) : AdaptiveAdmissionFilter :=
  { aaf with
    doorkeeper := aaf.doorkeeper.add keyHash
    frequencyFilter := (aaf.frequencyFilter.increment keyHash).1 }.recordDecision true

def admitScan (aaf : AdaptiveAdmissionFilter) (keyHash : UInt64) (vAge : Int) (w : WallClock) :
    Bool × AdaptiveAdmissionFilter × WallClock :=
  let aaf := { aaf with scanRejections := aaf.scanRejections + 1 }
  let granted := aaf.admitDuringScan keyHash vAge w
  (granted.1, aaf.recordDecision granted.1, granted.2)

def admitNormal (aaf : AdaptiveAdmissionFilter) (keyHash vFreq : UInt64) (vAge : Int)
    (w : WallClock) : Bool × AdaptiveAdmissionFilter × WallClock :=
  let nf := aaf.frequencyFilter.increment keyHash
  let aaf := { aaf with frequencyFilter := nf.1, doorkeeper := aaf.doorkeeper.add keyHash }
  let granted := aaf.makeAdmissionDecision keyHash nf.2 vFreq vAge w
  let adjusted := aaf.adjustAdmissionProbability granted.2
  let checked := adjusted.1.checkPeriodicReset adjusted.2
  (granted.1, checked.1.recordDecision granted.1, checked.2)

def shouldAdmit (aaf : AdaptiveAdmissionFilter) (keyHash vFreq : UInt64) (vAge : Int)
    (w : WallClock) : Bool × AdaptiveAdmissionFilter × WallClock :=
  let aaf := { aaf with admissionRequests := aaf.admissionRequests + 1 }
  if aaf.doorkeeper.contains keyHash then (true, aaf.admitKnown keyHash, w)
  else
    let scan := aaf.detector.detectScan w
    let aaf := { aaf with detector := scan.2.1 }
    if scan.1 then aaf.admitScan keyHash vAge scan.2.2
    else aaf.admitNormal keyHash vFreq vAge scan.2.2

def RecordEviction (aaf : AdaptiveAdmissionFilter) : AdaptiveAdmissionFilter :=
  { aaf with recentEvictions := aaf.recentEvictions + 1 }

def Reset (aaf : AdaptiveAdmissionFilter) : AdaptiveAdmissionFilter :=
  { aaf with
    doorkeeper := aaf.doorkeeper.reset
    frequencyFilter := aaf.frequencyFilter.age }

end AdaptiveAdmissionFilter

end Kioshun
