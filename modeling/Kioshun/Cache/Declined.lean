import Kioshun.Cache.WriteSpec

/-!
# When `Set` declines an insertion

Under AdmissionLFU a `Set` on a full shard asks the admission filter, and it
returns `nil` whether or not the entry is stored. The decision depends on the
doorkeeper, on the scan detector and on the sketch as the call finds them, and on
the item that the sample brings up as the victim.
-/

namespace Kioshun

open CellStore

universe u v
variable {K : Type u} {V : Type v} [DecidableEq K]

namespace AdaptiveAdmissionFilter

/-- The decision of `shouldAdmit`, from the filter and the clock as the call finds them. -/
def admits (aaf : AdaptiveAdmissionFilter) (keyHash vFreq : UInt64) (vAge : Int) (w : WallClock) :
    Bool :=
  aaf.doorkeeper.contains keyHash ||
    if (aaf.detector.detectScan w).1 then (aaf.admitDuringScan keyHash vAge w.now.2).1
    else
      (aaf.makeAdmissionDecision keyHash (aaf.frequencyFilter.increment keyHash).2 vFreq vAge
        w.now.2).1

theorem shouldAdmit_fst (aaf : AdaptiveAdmissionFilter) (keyHash vFreq : UInt64) (vAge : Int)
    (w : WallClock) :
    (aaf.shouldAdmit keyHash vFreq vAge w).1 = aaf.admits keyHash vFreq vAge w := by
  have hwall : (aaf.detector.detectScan w).2.2 = w.now.2 := rfl
  by_cases hknown : aaf.doorkeeper.contains keyHash = true
  · simp [shouldAdmit, admits, hknown]
  · by_cases hscan : (aaf.detector.detectScan w).1 = true
    · simp only [shouldAdmit, admits, hknown, hscan, hwall, Bool.false_eq_true, if_false, if_true,
        Bool.false_or, admitScan, admitDuringScan]
    · simp only [shouldAdmit, admits, hknown, hscan, hwall, Bool.false_eq_true, if_false,
        Bool.false_or, admitNormal, makeAdmissionDecision]

end AdaptiveAdmissionFilter

namespace Locked
variable {c : Locked K V} {cfg : Config} {cap : Int} {home : K → Prop} {k : K}

/-- The filter turns the key away in favour of the sampled victim. -/
def TurnsAway (keyHash : UInt64) (c : Locked K V) : Prop :=
  ∃ admission victim, c.sh.admission = some admission ∧
    (c.pickVictim defaultAdmissionLFUSampleSize).1 = some victim ∧
    admission.admits keyHash (UInt64.ofInt (c.body victim).frequency) (c.body victim).lastAccess
      c.rt.wall = false

/-- The insertion that `Set` leaves out: a new key in a full shard that the filter turns away. -/
structure Declines (cfg : Config) (cap : Int) (k : K) (keyHash : UInt64) (c : Locked K V) :
    Prop where
  policy : cfg.evictionPolicy = .AdmissionLFU
  absent : c.sh.data.lookup k = none
  limited : 0 < cap
  full : cap ≤ c.sh.size
  turned : c.TurnsAway keyHash

theorem evictWithAdmission_fst {victim : Addr} (stats : Bool) (admission : AdaptiveAdmissionFilter)
    (keyHash : UInt64) (hv : (c.pickVictim defaultAdmissionLFUSampleSize).1 = some victim) :
    (c.evictWithAdmission stats admission keyHash).1 =
      admission.admits keyHash (UInt64.ofInt (c.body victim).frequency) (c.body victim).lastAccess
        c.rt.wall := by
  have hgate : ((c.pickVictim defaultAdmissionLFUSampleSize).2.consult admission keyHash victim).1 =
      admission.admits keyHash (UInt64.ofInt (c.body victim).frequency) (c.body victim).lastAccess
        c.rt.wall := by
    rw [← AdaptiveAdmissionFilter.shouldAdmit_fst,
      ← wall_pickVictim c defaultAdmissionLFUSampleSize,
      ← (pickVictim_spec (c := c) defaultAdmissionLFUSampleSize).1.body]
    rfl
  rw [← hgate]
  simp only [evictWithAdmission, hv]
  cases ((c.pickVictim defaultAdmissionLFUSampleSize).2.consult admission keyHash victim).1 with
  | true => rfl
  | false => rfl

/-- A full shard has a victim to compare with. -/
theorem exists_victim (h : Valid cfg.evictionPolicy home c) (hpos : 0 < c.sh.size) :
    ∃ victim, (c.pickVictim defaultAdmissionLFUSampleSize).1 = some victim := by
  obtain ⟨-, -, ⟨hnil, -⟩ | ⟨a, -, ha⟩⟩ := pickVictim_spec (c := c) defaultAdmissionLFUSampleSize
  · rw [h.core.size, hnil] at hpos
    exact absurd hpos (by decide)
  · exact ⟨a, ha⟩

theorem makeRoom_eq_false_iff (h : Valid cfg.evictionPolicy home c) (cap : Int) (keyHash : UInt64) :
    (c.makeRoom cfg cap keyHash).1 = false ↔
      cfg.evictionPolicy = .AdmissionLFU ∧ 0 < cap ∧ cap ≤ c.sh.size ∧ c.TurnsAway keyHash := by
  by_cases hfull : 0 < cap ∧ cap ≤ c.sh.size
  · obtain ⟨victim, hv⟩ := exists_victim h (by omega)
    by_cases hp : cfg.evictionPolicy = .AdmissionLFU
    · cases ha : c.sh.admission with
      | none => simp [makeRoom, hfull, hp, ha, TurnsAway]
      | some admission =>
        have hroom : c.makeRoom cfg cap keyHash =
            c.evictWithAdmission cfg.statsEnabled admission keyHash := by
          simp only [makeRoom, hfull, and_self, if_true, hp, ha]
        rw [hroom, evictWithAdmission_fst _ _ _ hv]
        constructor
        · intro hno
          exact ⟨hp, hfull.1, hfull.2, admission, victim, ha, hv, hno⟩
        · rintro ⟨-, -, -, admission', victim', ha', hv', hno⟩
          obtain rfl := Option.some.inj (ha.symm.trans ha')
          obtain rfl := Option.some.inj (hv.symm.trans hv')
          exact hno
    · have hroom : (c.makeRoom cfg cap keyHash).1 = true := by
        simp only [makeRoom, hfull, and_self, if_true]
        split
        · next hp' _ => exact absurd hp' hp
        · rfl
      simp [hroom, hp]
  · have hroom : (c.makeRoom cfg cap keyHash).1 = true := by
      simp only [makeRoom, if_neg hfull]
    rw [hroom]
    constructor
    · intro hno
      cases hno
    · rintro ⟨-, hcap, hsize, -⟩
      exact absurd ⟨hcap, hsize⟩ hfull

variable [Inhabited V]

/-- What `Set` leaves under its key. -/
theorem view_setSection (h : Valid cfg.evictionPolicy home c) (hhome : home k) (keyHash : UInt64)
    (value : V) (now expireTime : Int) :
    (c.Declines cfg cap k keyHash ∧
        (c.setSection cfg cap k keyHash value now expireTime).view k = none) ∨
      (¬ c.Declines cfg cap k keyHash ∧
        (c.setSection cfg cap k keyHash value now expireTime).view k =
          some (value, expireTime)) := by
  cases hk : c.sh.data.lookup k with
  | some ex =>
    obtain ⟨hw, -⟩ := setExisting_spec h hk value now expireTime
    refine .inr ⟨fun hd => ?_, ?_⟩
    · have habsent := hd.absent
      rw [hk] at habsent
      cases habsent
    · simp only [setSection, hk, hw.view h.core, Function.update_self]
  | none =>
    obtain ⟨hstep, hsheds, -, -⟩ := makeRoom_spec h cap keyHash
    have hk₁ := hsheds.lookup_none hk
    have hiff := makeRoom_eq_false_iff h cap keyHash
    cases hroom : (c.makeRoom cfg cap keyHash).1 with
    | false =>
      obtain ⟨hp, hcap, hfull, haway⟩ := hiff.mp hroom
      refine .inl ⟨⟨hp, hk, hcap, hfull, haway⟩, ?_⟩
      simp only [setSection, hk, hroom, Bool.false_eq_true, if_false]
      exact view_eq_none.mpr hk₁
    | true =>
      refine .inr ⟨fun hd => ?_, ?_⟩
      · have hno := hiff.mpr ⟨hd.policy, hd.limited, hd.full, hd.turned⟩
        rw [hroom] at hno
        cases hno
      · obtain ⟨hw, -⟩ := setFresh_spec hstep.valid hk₁ hhome value now expireTime
        simp only [setSection, hk, hroom, if_true, hw.view hstep.evolves.core, Function.update_self]

end Locked

namespace InMemoryCache
variable [Inhabited V] {c : InMemoryCache K V} {k : K}

/-- `Set` on the key would leave the entry out. -/
def Declines (c : InMemoryCache K V) (k : K) : Prop :=
  ∃ s, c.shards[c.home k]? = some s ∧
    (c.now.2.locked s).Declines c.config c.perShardCap k (c.hasher k)

/-- `Set` returns `nil` in both cases. -/
theorem view_Set (h : Valid c) (hopen : c.closed = false) (k : K) (value : V) (ttl : Int) :
    (c.Declines k ∧ (c.Set k value ttl).2.view k = none) ∨
      (¬ c.Declines k ∧
        (c.Set k value ttl).2.view k = some (value, stamp c.config c.now.1 ttl)) := by
  obtain ⟨hnow, -⟩ := h.now
  obtain ⟨s, hs⟩ := h.home_shard k
  have hs' : c.now.2.shards[c.now.2.home k]? = some s := hs
  have hval : Locked.Valid c.config.evictionPolicy (fun k' => c.now.2.home k' = c.now.2.home k)
      (c.now.2.locked s) := hnow.valid.shard _ s hs'
  have hdecl : c.Declines k ↔
      (c.now.2.locked s).Declines c.config c.perShardCap k (c.hasher k) := by
    constructor
    · rintro ⟨s', hs₁, hd⟩
      obtain rfl := Option.some.inj (hs.symm.trans hs₁)
      exact hd
    · intro hd
      exact ⟨s, hs, hd⟩
  have hstep : Locked.Step c.now.2.config.evictionPolicy
      (fun k' => c.now.2.home k' = c.now.2.home k) (c.now.2.locked s)
      ((c.now.2.locked s).setSection c.config c.perShardCap k (c.hasher k) value c.now.1
        (stamp c.config c.now.1 ttl)) := (Locked.setSection_spec hval rfl ..).step
  have hset : (c.Set k value ttl).2 = c.now.2.put (c.now.2.home k)
      ((c.now.2.locked s).setSection c.config c.perShardCap k (c.hasher k) value c.now.1
        (stamp c.config c.now.1 ttl)) := by rw [Set_eq_put hopen hs]; rfl
  rw [hset, hnow.valid.view_put hs' hstep, if_pos rfl, hdecl]
  exact Locked.view_setSection hval rfl ..

end InMemoryCache

end Kioshun
