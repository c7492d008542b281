import Kioshun.Cache.Shard

/-!
# Readings of the clock

Which functions read the wall clock. Nothing but `time.Now` advances it, and the
readings to come are never changed.
-/

namespace Kioshun

open CellStore WallClock

universe u v

namespace AdaptiveAdmissionFilter
variable (aaf : AdaptiveAdmissionFilter) (keyHash nf vFreq : UInt64) (vAge : Int) (w : WallClock)

theorem later_admitDuringScan : Later w (aaf.admitDuringScan keyHash vAge w).2 := by
  simp only [admitDuringScan]
  split <;> exact Later.now w

theorem later_makeAdmissionDecision :
    Later w (aaf.makeAdmissionDecision keyHash nf vFreq vAge w).2 := by
  simp only [makeAdmissionDecision]
  split_ifs <;> first | exact Later.refl w | exact Later.now w

theorem later_adjustAdmissionProbability : Later w (aaf.adjustAdmissionProbability w).2 := by
  simp only [adjustAdmissionProbability]
  split <;> exact Later.now w

theorem later_checkPeriodicReset : Later w (aaf.checkPeriodicReset w).2 := by
  simp only [checkPeriodicReset]
  split <;> exact Later.now w

theorem later_admitScan : Later w (aaf.admitScan keyHash vAge w).2.2 := by
  simp only [admitScan]
  exact later_admitDuringScan ..

theorem later_admitNormal : Later w (aaf.admitNormal keyHash vFreq vAge w).2.2 := by
  simp only [admitNormal]
  refine Later.trans ?_ (later_checkPeriodicReset _ _)
  refine Later.trans ?_ (later_adjustAdmissionProbability _ _)
  exact later_makeAdmissionDecision ..

theorem later_shouldAdmit : Later w (aaf.shouldAdmit keyHash vFreq vAge w).2.2 := by
  have hscan : ∀ wd : WorkloadDetector, Later w (wd.detectScan w).2.2 := by
    intro wd
    simp only [WorkloadDetector.detectScan]
    exact Later.now w
  simp only [shouldAdmit]
  split_ifs
  · exact Later.refl w
  · exact Later.trans (hscan _) (later_admitScan ..)
  · exact Later.trans (hscan _) (later_admitNormal ..)

end AdaptiveAdmissionFilter

variable {K : Type u} {V : Type v}

namespace Locked
variable (c : Locked K V)

@[simp] theorem wall_onLfuList (f : LfuList → LfuList) : (c.onLfuList f).rt.wall = c.rt.wall := by
  unfold onLfuList
  split <;> rfl

variable (a : Addr)

@[simp] theorem wall_lfuAdd : (c.lfuAdd a).rt.wall = c.rt.wall :=
  wall_onLfuList _ _

@[simp] theorem wall_lfuIncrement : (c.lfuIncrement a).rt.wall = c.rt.wall := by
  unfold lfuIncrement
  split <;> rfl

variable (policy : EvictionPolicy)

@[simp] theorem wall_lfuRemove : (c.lfuRemove policy a).rt.wall = c.rt.wall := by
  unfold lfuRemove
  split_ifs
  · exact wall_onLfuList _ _
  · rfl

variable (b : Bool)

@[simp] theorem wall_countEviction : (c.countEviction b).rt.wall = c.rt.wall := by
  unfold countEviction
  split <;> rfl

@[simp] theorem wall_countExpiration : (c.countExpiration b).rt.wall = c.rt.wall := by
  unfold countExpiration
  split <;> rfl

@[simp] theorem wall_countMiss : (c.countMiss b).rt.wall = c.rt.wall := by
  unfold countMiss
  split <;> rfl

@[simp] theorem wall_countHit : (c.countHit b).rt.wall = c.rt.wall := by
  unfold countHit
  split <;> rfl

variable [DecidableEq K]

@[simp] theorem wall_discard (k : K) (a : Addr) : (c.discard policy k a).rt.wall = c.rt.wall :=
  wall_lfuRemove ..

@[simp] theorem wall_evictItem (k : K) (a : Addr) (b : Bool) :
    (c.evictItem k a b).rt.wall = c.rt.wall :=
  wall_countEviction _ _

omit [DecidableEq K] in
@[simp] theorem wall_popLFU : c.popLFU.2.rt.wall = c.rt.wall := by
  unfold popLFU
  split <;> rfl

omit [DecidableEq K] in
@[simp] theorem wall_pickVictim (n : Nat) : (c.pickVictim n).2.rt.wall = c.rt.wall := by
  unfold pickVictim
  split_ifs <;> rfl

@[simp] theorem wall_removeVictim : (c.removeVictim a b).rt.wall = c.rt.wall := by
  unfold removeVictim
  rw [wall_countEviction]
  cases (c.body a).key <;> rfl

theorem wall_evict : (c.evict policy b).2.rt.wall = c.rt.wall := by
  cases policy with
  | LRU =>
    simp only [evict, lruEvict]
    split <;> simp
  | LFU =>
    simp only [evict, lfuEvict]
    split
    · simp
    · split <;> simp
  | FIFO =>
    simp only [evict, fifoEvict]
    split
    · rfl
    · split_ifs <;> simp [recycle, Runtime.poolPut, relink, deleteKey]
  | AdmissionLFU =>
    simp only [evict, admissionEvict]
    split
    · simp
    · split_ifs <;> simp
  | other =>
    simp only [evict, admissionEvict]
    split
    · simp
    · split_ifs <;> simp

theorem later_evictWithAdmission (admission : AdaptiveAdmissionFilter) (keyHash : UInt64) :
    Later c.rt.wall (c.evictWithAdmission b admission keyHash).2.rt.wall := by
  simp only [evictWithAdmission]
  split
  · exact Later.of_eq (by simp)
  · next victim _ =>
    have hgate : Later c.rt.wall (((c.pickVictim defaultAdmissionLFUSampleSize).2.consult
        admission keyHash victim).2.rt.wall) := by
      have := AdaptiveAdmissionFilter.later_shouldAdmit admission keyHash
        (UInt64.ofInt ((c.pickVictim defaultAdmissionLFUSampleSize).2.body victim).frequency)
        ((c.pickVictim defaultAdmissionLFUSampleSize).2.body victim).lastAccess
        (c.pickVictim defaultAdmissionLFUSampleSize).2.rt.wall
      rw [wall_pickVictim] at this
      rw [← wall_pickVictim c defaultAdmissionLFUSampleSize] at this ⊢
      exact this
    split_ifs
    · exact hgate.trans (Later.of_eq (wall_removeVictim ..))
    · exact hgate

section
omit [DecidableEq K]

@[simp] theorem wall_touch (now : Int) : (c.touch policy a now).rt.wall = c.rt.wall := by
  cases policy <;> simp [touch, relink, assign, Runtime.assign]

@[simp] theorem wall_refresh : (c.refresh policy a).rt.wall = c.rt.wall := by
  cases policy <;> simp [refresh, relink, assign, Runtime.assign]

theorem wall_setExisting (value : V) (now expireTime : Int) :
    (c.setExisting policy a value now expireTime).rt.wall = c.rt.wall := by
  simp [setExisting, assign, Runtime.assign]

end

variable (cfg : Config)

theorem wall_getSection (lockedWrite : Bool) (key : K) :
    (c.getSection cfg lockedWrite key).2.rt.wall =
      if c.sh.data.lookup key = none then c.rt.wall else c.rt.wall.now.2 := by
  unfold getSection
  cases hk : c.sh.data.lookup key with
  | none => simp
  | some a =>
    simp only [reduceCtorEq, if_false]
    split_ifs <;> simp [Runtime.now]

variable (cap : Int) (key : K)

theorem wall_deleteSection : (c.deleteSection policy key).2.rt.wall = c.rt.wall := by
  unfold deleteSection
  split <;> simp

theorem wall_existsSection (now : Int) : (c.existsSection cfg key now).2.rt.wall = c.rt.wall := by
  unfold existsSection
  split
  · rfl
  · split_ifs <;> simp

theorem wall_cleanup (now : Int) (policy : EvictionPolicy) (b : Bool) :
    (c.cleanup now policy b).rt.wall = c.rt.wall := by
  have hscan : ∀ (l : List (Sigma fun _ : K => Addr)) (acc : List K × Locked K V),
      (l.foldl (cleanupScan now policy) acc).2.rt.wall = acc.2.rt.wall := by
    intro l
    induction l with
    | nil => exact fun _ => rfl
    | cons e l ih =>
      intro acc
      rw [List.foldl_cons, ih]
      unfold cleanupScan
      split_ifs <;> rfl
  have hdrop : ∀ (l : List K) (c : Locked K V),
      (l.foldl (cleanupDrop policy b) c).rt.wall = c.rt.wall := by
    intro l
    induction l with
    | nil => exact fun _ => rfl
    | cons k l ih =>
      intro c
      rw [List.foldl_cons, ih]
      unfold cleanupDrop
      split <;> simp
  simp only [cleanup]
  rw [hdrop, hscan]
  rfl

section Fresh
variable [Inhabited V]

omit [DecidableEq K] in
theorem wall_takeItem : c.takeItem.2.rt.wall = c.rt.wall := by
  show c.rt.poolGet.2.wall = _
  unfold Runtime.poolGet
  split <;> rfl

theorem wall_setFresh (value : V) (now expireTime : Int) :
    (c.setFresh policy key value now expireTime).rt.wall = c.rt.wall := by
  simp only [setFresh]
  split_ifs
  · exact (wall_lfuAdd _ _).trans (wall_takeItem c)
  · exact wall_takeItem c

omit [Inhabited V] in
theorem later_makeRoom (keyHash : UInt64) :
    Later c.rt.wall (c.makeRoom cfg cap keyHash).2.rt.wall := by
  unfold makeRoom
  split_ifs
  · split
    · exact later_evictWithAdmission ..
    · exact Later.of_eq (wall_evict ..)
  · exact Later.refl _

theorem later_setSection (keyHash : UInt64) (value : V) (now expireTime : Int) :
    Later c.rt.wall (c.setSection cfg cap key keyHash value now expireTime).rt.wall := by
  unfold setSection
  split
  · exact Later.of_eq (wall_setExisting ..)
  · have hroom := later_makeRoom c cfg cap keyHash
    simp only
    split_ifs
    · exact hroom.trans (Later.of_eq (wall_setFresh ..))
    · exact hroom

omit [Inhabited V] in
theorem wall_evictLoop (rounds : Nat) : (c.evictLoop cfg cap rounds).rt.wall = c.rt.wall := by
  induction rounds generalizing c with
  | zero => rfl
  | succ rounds ih =>
    simp only [evictLoop]
    split_ifs
    · rw [ih, wall_evict]
    · exact wall_evict ..
    · rfl

theorem wall_importSection (value : V) (now expireAbs : Int) :
    (c.importSection cfg cap key value now expireAbs).rt.wall = c.rt.wall := by
  have hitem : (c.importItem cfg cap key).2.rt.wall = c.rt.wall := by
    unfold importItem
    split
    · exact wall_lfuRemove ..
    · simp only
      split_ifs
      · exact (wall_takeItem _).trans (wall_evictLoop ..)
      · exact wall_takeItem c
  exact (wall_refresh ..).trans hitem

end Fresh

end Locked

end Kioshun
