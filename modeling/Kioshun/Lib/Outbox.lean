import Mathlib.Logic.Function.Basic
import Mathlib.Order.MinMax
import Mathlib.Tactic.Tauto

/-!
# Coalescing outboxes

An outbox holds one version for each key and merges what is put in again to the
greater version. A version that is taken out is in flight until it is acknowledged
or put back. Whatever the order of these steps, the greatest version ever put in
for a key is not lost.
-/

universe u v

/-- An outbox, with what is in flight, has been acknowledged and has ever been put in. -/
structure Outbox (K : Type u) (V : Type v) where
  queued : K → Option V
  flying : List (K × V)
  acked : List (K × V)
  pushed : List (K × V)

namespace Outbox
open Function List

variable {K : Type u} {V : Type v} [DecidableEq K] [LinearOrder V]

/-- The version of `k` is `v` or the queued one, whichever is greater. -/
def merge (queued : K → Option V) (k : K) (v : V) : K → Option V :=
  update queued k (some (match queued k with
    | none => v
    | some w => max w v))

def empty : Outbox K V := ⟨fun _ => none, [], [], []⟩

inductive Step : Outbox K V → Outbox K V → Prop where
  | push {o : Outbox K V} (k : K) (v : V) :
      Step o { o with queued := merge o.queued k v, pushed := (k, v) :: o.pushed }
  | pop {o : Outbox K V} {k : K} {v : V} (h : o.queued k = some v) :
      Step o { o with queued := update o.queued k none, flying := (k, v) :: o.flying }
  | ack {o : Outbox K V} {before after : List (K × V)} {k : K} {v : V}
      (h : o.flying = before ++ (k, v) :: after) :
      Step o { o with flying := before ++ after, acked := (k, v) :: o.acked }
  | retry {o : Outbox K V} {before after : List (K × V)} {k : K} {v : V}
      (h : o.flying = before ++ (k, v) :: after) :
      Step o { o with flying := before ++ after, queued := merge o.queued k v }

def Held (o : Outbox K V) (k : K) (v : V) : Prop :=
  o.queued k = some v ∨ (k, v) ∈ o.flying ∨ (k, v) ∈ o.acked

/-- Nothing is held that was not put in, and what was put in is held or outdated by it. -/
structure Sound (o : Outbox K V) : Prop where
  genuine : ∀ k v, o.Held k v → (k, v) ∈ o.pushed
  covered : ∀ k v, (k, v) ∈ o.pushed → ∃ w, v ≤ w ∧ o.Held k w

variable {o o' : Outbox K V} {k k' : K} {v w : V}

theorem merge_genuine {queued : K → Option V} (h : merge queued k v k' = some w) :
    queued k' = some w ∨ (k' = k ∧ w = v) := by
  by_cases hk : k' = k
  · subst hk
    rw [merge, update_self, Option.some.injEq] at h
    cases hq : queued k' with
    | none =>
      simp only [hq] at h
      exact .inr ⟨rfl, h.symm⟩
    | some u =>
      simp only [hq] at h
      subst h
      rcases max_choice u v with hmax | hmax
      · exact .inl (congrArg some hmax.symm)
      · exact .inr ⟨rfl, hmax⟩
  · rw [merge, update_of_ne hk] at h
    exact .inl h

/-- Merging covers what was queued and what is merged. -/
theorem merge_covers (queued : K → Option V) (k : K) (v : V)
    (h : queued k' = some w ∨ (k' = k ∧ w = v)) :
    ∃ w', w ≤ w' ∧ merge queued k v k' = some w' := by
  by_cases hk : k' = k
  · subst hk
    refine ⟨_, ?_, update_self ..⟩
    rcases h with h | ⟨-, rfl⟩
    · simp only [h]
      exact le_max_left w v
    · cases hq : queued k' with
      | none => exact le_refl w
      | some u => exact le_max_right u w
  · refine ⟨w, le_refl w, ?_⟩
    rw [merge, update_of_ne hk]
    exact h.resolve_right fun hc => hk hc.1

section Held

theorem held_of_merge (hw : Held { o with queued := merge o.queued k v } k' w) :
    o.Held k' w ∨ (k' = k ∧ w = v) := by
  rcases hw with hq | hrest
  · exact (merge_genuine hq).imp_left .inl
  · exact .inl (.inr hrest)

theorem merge_held (hw : o.Held k' w ∨ (k' = k ∧ w = v)) :
    ∃ u, w ≤ u ∧ Held { o with queued := merge o.queued k v } k' u := by
  have hcases : (o.queued k' = some w ∨ (k' = k ∧ w = v)) ∨
      ((k', w) ∈ o.flying ∨ (k', w) ∈ o.acked) := by
    rcases hw with (hq | hrest) | hnew
    · exact .inl (.inl hq)
    · exact .inr hrest
    · exact .inl (.inr hnew)
  rcases hcases with hq | hrest
  · obtain ⟨u, hu, hmerge⟩ := merge_covers o.queued k v hq
    exact ⟨u, hu, .inl hmerge⟩
  · exact ⟨w, le_refl w, .inr hrest⟩

omit [LinearOrder V] in
/-- What is taken out is in flight. -/
theorem held_pop (h : o.queued k = some v) :
    Held { o with queued := update o.queued k none, flying := (k, v) :: o.flying } k' w ↔
      o.Held k' w := by
  simp only [Held, mem_cons, Prod.mk.injEq]
  by_cases hk : k' = k
  · subst hk
    simp only [update_self, h, reduceCtorEq, false_or, true_and, Option.some.injEq,
      or_assoc, eq_comm]
  · simp only [update_of_ne hk, hk, false_and, false_or]

variable {before after : List (K × V)}

omit [DecidableEq K] [LinearOrder V] in
/-- What lands is no longer held on its account. -/
theorem held_land (h : o.flying = before ++ (k, v) :: after) :
    o.Held k' w ↔ Held { o with flying := before ++ after } k' w ∨ (k' = k ∧ w = v) := by
  simp only [Held, h, mem_append, mem_cons, Prod.mk.injEq]
  tauto

omit [DecidableEq K] [LinearOrder V] in
/-- What is acknowledged stays held. -/
theorem held_ack (h : o.flying = before ++ (k, v) :: after) :
    Held { o with flying := before ++ after, acked := (k, v) :: o.acked } k' w ↔ o.Held k' w := by
  rw [held_land h]
  simp only [Held, mem_cons, Prod.mk.injEq]
  tauto

end Held

omit [DecidableEq K] in
theorem sound_empty : (empty : Outbox K V).Sound := by
  constructor
  · rintro k v (h | h | h) <;> cases h
  · intro k v h
    cases h

omit [DecidableEq K] in
/-- What is held after a step was held, and what was held is covered. -/
theorem Sound.of_held (h : o.Sound) (hpushed : o'.pushed = o.pushed)
    (hgenuine : ∀ k v, o'.Held k v → o.Held k v)
    (hcovers : ∀ k v, o.Held k v → ∃ w, v ≤ w ∧ o'.Held k w) : o'.Sound := by
  constructor
  · intro k v hv
    rw [hpushed]
    exact h.genuine k v (hgenuine k v hv)
  · intro k v hv
    rw [hpushed] at hv
    obtain ⟨w, hvw, hw⟩ := h.covered k v hv
    obtain ⟨w', hww, hw'⟩ := hcovers k w hw
    exact ⟨w', hvw.trans hww, hw'⟩

theorem Step.sound (hs : Step o o') (h : o.Sound) : o'.Sound := by
  cases hs with
  | push k v =>
    constructor
    · intro k' w hw
      rcases held_of_merge hw with hold | ⟨rfl, rfl⟩
      · exact mem_cons_of_mem _ (h.genuine k' w hold)
      · exact mem_cons_self
    · intro k' w hw
      rcases mem_cons.mp hw with heq | hw
      · exact merge_held (.inr (Prod.mk.inj heq))
      · obtain ⟨w', hle, hheld⟩ := h.covered k' w hw
        obtain ⟨u, hu, hmerge⟩ := merge_held (k := k) (v := v) (.inl hheld)
        exact ⟨u, hle.trans hu, hmerge⟩
  | pop hpop =>
    exact h.of_held rfl (fun _ _ => (held_pop hpop).mp)
      fun _ w hw => ⟨w, le_refl w, (held_pop hpop).mpr hw⟩
  | ack hfly =>
    exact h.of_held rfl (fun _ _ => (held_ack hfly).mp)
      fun _ w hw => ⟨w, le_refl w, (held_ack hfly).mpr hw⟩
  | retry hfly =>
    -- a retry merges into the outbox without the version in flight
    refine h.of_held rfl (fun k' w hw => ?_) fun k' w hw => ?_
    · exact (held_land hfly).mpr (held_of_merge hw)
    · exact merge_held ((held_land hfly).mp hw)

omit [DecidableEq K] in
/-- The greatest version ever put in for a key is acknowledged, in flight or queued. -/
theorem Sound.greatest_held (h : o.Sound) (hv : (k, v) ∈ o.pushed)
    (hmax : ∀ w, (k, w) ∈ o.pushed → w ≤ v) : o.Held k v := by
  obtain ⟨w, hvw, hw⟩ := h.covered k v hv
  obtain rfl : w = v := le_antisymm (hmax w (h.genuine k w hw)) hvw
  exact hw

end Outbox
