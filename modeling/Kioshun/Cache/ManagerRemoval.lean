import Kioshun.Cache.ManagerLeaks

/-!
# What `RemoveCache` leaves behind

`RemoveCache` returns as soon as it has closed an instance. The configuration of the name is
deleted only if there was none, so a name that is both configured and in use keeps its
configuration and cannot be registered anew.
-/

namespace Kioshun

universe u v
variable {ι : Type v} {τ : Type u} [DecidableEq τ]

namespace Manager

/-- A call of `RegisterCache`, `GetCache` or `RemoveCache` that nothing comes in between of; none
has more than five steps. -/
def complete (m : Manager τ) (r : ManagerRequest τ) : ManagerCall τ × Manager τ :=
  (fun p => p.2.next p.1)^[5] (.pending r, m)

/-- Nothing of the name is left, an instance that was registered is closed, the other names have
what they had, and the name may be registered and used again. -/
structure Forgets (m : Manager τ) (name : String) : Prop where
  unregistered : (m.complete (.RemoveCache name)).2.caches.Load name = none
  unconfigured : (m.complete (.RemoveCache name)).2.configs.Load name = none
  closed : ∀ i, m.caches.Load name = some i →
    (m.complete (.RemoveCache name)).2.isClosed i = true
  others : ∀ other, other ≠ name →
    (m.complete (.RemoveCache name)).2.configs.Load other = m.configs.Load other ∧
    (m.complete (.RemoveCache name)).2.caches.Load other = m.caches.Load other ∧
    ∀ i, m.caches.Load other = some i →
      (m.complete (.RemoveCache name)).2.instances[i]? = m.instances[i]?
  again : ∀ config t,
    let registered := (m.complete (.RemoveCache name)).2.complete (.RegisterCache name config)
    let got := registered.2.complete (.GetCache t name)
    registered.1 = .returned (.ok none) ∧ ∃ i, got.1 = .returned (.ok (some i)) ∧
      got.2.instances[i]? = some ⟨t, config, false⟩

variable {m : Manager τ} {name : String}

theorem complete_RemoveCache_of_none (h : m.caches.Load name = none) :
    m.complete (.RemoveCache name) =
      (.returned (.ok none), { m with configs := m.configs.Delete name }) := by
  simp [complete, next, h]

theorem complete_RemoveCache_of_some {i : Nat} (h : m.caches.Load name = some i) :
    m.complete (.RemoveCache name) =
      (.returned (.ok none), { m with caches := m.caches.Delete name }.Close i) := by
  simp [complete, next, h]

/-- A name of which nothing is left may be registered and used. -/
theorem complete_again (hcaches : m.caches.Load name = none) (hconfigs : m.configs.Load name = none)
    (config : Config) (t : τ) :
    let registered := m.complete (.RegisterCache name config)
    let got := registered.2.complete (.GetCache t name)
    registered.1 = .returned (.ok none) ∧ ∃ i, got.1 = .returned (.ok (some i)) ∧
      got.2.instances[i]? = some ⟨t, config, false⟩ := by
  have hregistered : m.complete (.RegisterCache name config) =
      (.returned (.ok none), { m with configs := m.configs.Store name config }) := by
    simp [complete, next, RegisterCache, hconfigs]
  simp only [hregistered, true_and]
  refine ⟨m.instances.length, ?_⟩
  simp [complete, next, hcaches, Manager.config, SyncMap.Load_Store, New]

end Manager

namespace ManagerRace
variable [DecidableEq ι]
open Manager

/-- Whatever calls have run before and are under way, `RemoveCache` forgets a name unless it has an
instance and a configuration. -/
theorem forgets_iff (todo : ι → ManagerRequest τ) (es : List (ManagerEvent ι)) (name : String) :
    (exec todo es).m.Forgets name ↔
      (exec todo es).m.caches.Load name = none ∨ (exec todo es).m.configs.Load name = none := by
  have hinv : (exec todo es).Inv :=
    Schedule.exec_invariant (fun _ e h => step_inv h e) (start_inv todo)
  cases hload : (exec todo es).m.caches.Load name with
  | none =>
    simp only [true_or, iff_true]
    have hremoved := complete_RemoveCache_of_none hload
    have hgone : ((exec todo es).m.complete (.RemoveCache name)).2.configs.Load name = none := by
      simp [hremoved, SyncMap.Load_Delete]
    have hnone : ((exec todo es).m.complete (.RemoveCache name)).2.caches.Load name = none := by
      rw [hremoved]
      exact hload
    refine ⟨hnone, hgone, fun i hi => ?_, fun other hne => ?_, complete_again hnone hgone⟩
    · rw [hload] at hi
      cases hi
    · simp [hremoved, SyncMap.Load_Delete, hne]
  | some i =>
    simp only [reduceCtorEq, false_or]
    have hremoved := complete_RemoveCache_of_some hload
    have hconfigs : ((exec todo es).m.complete (.RemoveCache name)).2.configs =
        (exec todo es).m.configs := by rw [hremoved]; rfl
    have hnone : ((exec todo es).m.complete (.RemoveCache name)).2.caches.Load name = none := by
      simp [hremoved, Close, SyncMap.Load_Delete]
    constructor
    · intro h
      exact hconfigs ▸ h.unconfigured
    · intro hconfig
      refine ⟨hnone, hconfigs ▸ hconfig, fun j hj => ?_, fun other hne => ?_,
        complete_again hnone (hconfigs ▸ hconfig)⟩
      · rw [hload] at hj
        cases hj
        rw [hremoved]
        exact isClosed_Close_self (hinv.bound i (.inl (hinv.registered name i hload)))
      · refine ⟨by rw [hconfigs], by simp [hremoved, Close, SyncMap.Load_Delete, hne],
          fun j hj => ?_⟩
        have hij : i ≠ j := fun hij => hne (hinv.unique other name j hj (hij ▸ hload))
        simp [hremoved, Close, hij]

/-- The configuration of a cache that has been used outlives its removal. -/
theorem forgets_not :
    let todo : Bool → ManagerRequest Unit := fun c =>
      if c then .RegisterCache "a" DefaultConfig else .GetCache () "a"
    let m := (exec todo [.next true, .next false, .next false, .next false, .next false]).m
    let removed := (m.complete (.RemoveCache "a")).2
    (removed.configs.Load "a").isSome = true ∧
      (removed.complete (.RegisterCache "a" DefaultConfig)).1 =
        .returned (.error ⟨"register", "a", .ErrCacheExists⟩) ∧ ¬m.Forgets "a" := by
  intro todo m removed
  have hkept : (removed.configs.Load "a").isSome = true := by decide +kernel
  refine ⟨hkept, rfl, fun h => ?_⟩
  have hgone := h.unconfigured
  rw [show removed.configs.Load "a" = none from hgone] at hkept
  cases hkept

end ManagerRace

end Kioshun
