import Kioshun.Cache.Runs
import Kioshun.Lib.Schedule

/-!
# Runs that close the cache

`Close` clears the cache and sets its flag. Most operations look at the flag first and do
nothing on a closed cache; `Import` and `Export` do not look at it. Whatever is called, the
representation of the shards stays sound and their number, capacity and hash stay the same.
-/

namespace Kioshun

open WallClock

universe u v

inductive PublicOp (K : Type u) (V : Type v) where
  | op (o : Op K V)
  | setWithCallback (key : K) (value : V) (ttl : Int)
  | triggerCleanup (cleanupInterval : Int)
  | close

variable {K : Type u} {V : Type v} [DecidableEq K] [Inhabited V]

namespace InMemoryCache

/-- `SetWithCallback`. The goroutine that it starts reads the cache and does not change it. -/
def SetWithCallback (c : InMemoryCache K V) (key : K) (value : V) (ttl : Int) :
    Except CacheError Unit × InMemoryCache K V :=
  if c.closed then (.error .ErrCacheClosed, c) else c.Set key value ttl

/-- `TriggerCleanup`. With a ticker it only wakes the cleaner, whose `cleanup` is an operation of
its own. -/
def TriggerCleanup (c : InMemoryCache K V) (cleanupInterval : Int) : InMemoryCache K V :=
  if c.closed then c
  else if cleanupInterval ≤ 0 then c.cleanup
  else c

/-- `Close`. `closeOnce` lets the first call through, which is the one that finds the cache open. -/
def Close (c : InMemoryCache K V) : InMemoryCache K V :=
  if c.closed then c else { c.Clear with closed := true }

def invoke (c : InMemoryCache K V) : PublicOp K V → InMemoryCache K V
  | .op o => c.step o
  | .setWithCallback key value ttl => (c.SetWithCallback key value ttl).2
  | .triggerCleanup cleanupInterval => c.TriggerCleanup cleanupInterval
  | .close => c.Close

def serve (c : InMemoryCache K V) (ops : List (PublicOp K V)) : InMemoryCache K V :=
  Schedule.exec invoke c ops

variable {c c' : InMemoryCache K V}

omit [Inhabited V] in
theorem Valid.setClosed (h : Valid c) (b : Bool) : Valid { c with closed := b } :=
  ⟨h.shard, h.disjoint, h.inRange⟩

omit [Inhabited V] in
theorem Outcome.setClosed (h : Outcome c c') (b : Bool) :
    Outcome { c with closed := b } { c' with closed := b } :=
  ⟨h.valid.setClosed b, ⟨h.shape.config, h.shape.mask, h.shape.cap, rfl, h.shape.hasher,
    h.shape.length⟩, h.later, h.bounded⟩

/-- On a closed cache only `Import` and `Export` do anything. -/
theorem step_closed (hclosed : c.closed = true) (o : Op K V) :
    c.step o = c ∨ (∃ items, o = .import_ items) ∨ ∃ selectFn max, o = .export_ selectFn max := by
  cases o with
  | import_ items => exact .inr (.inl ⟨items, rfl⟩)
  | export_ selectFn max => exact .inr (.inr ⟨selectFn, max, rfl⟩)
  | set key value ttl => exact .inl (by simp [step, Set, hclosed])
  | get key => exact .inl (by simp [step, Get, get, hclosed])
  | getWithTTL key => exact .inl (by simp [step, GetWithTTL, get, hclosed])
  | exists_ key => exact .inl (by simp [step, Exists, hclosed])
  | delete key => exact .inl (by simp [step, Delete, hclosed])
  | clear => exact .inl (by simp [step, Clear, hclosed])
  | keys => exact .inl (by simp [step, Keys, hclosed])
  | cleanup => exact .inl (by simp [step, cleanup, hclosed])

theorem invoke_closed (hclosed : c.closed = true) (x : PublicOp K V) :
    c.invoke x = c ∨ (∃ items, x = .op (.import_ items)) ∨
      ∃ selectFn max, x = .op (.export_ selectFn max) := by
  cases x with
  | op o =>
    rcases step_closed hclosed o with hsame | ⟨items, rfl⟩ | ⟨selectFn, max, rfl⟩
    · exact .inl hsame
    · exact .inr (.inl ⟨items, rfl⟩)
    · exact .inr (.inr ⟨selectFn, max, rfl⟩)
  | setWithCallback key value ttl => exact .inl (by simp [invoke, SetWithCallback, hclosed])
  | triggerCleanup interval => exact .inl (by simp [invoke, TriggerCleanup, hclosed])
  | close => exact .inl (by simp [invoke, Close, hclosed])

theorem Close_spec (h : Valid c) (hopen : c.closed = false) :
    Outcome { c with closed := true } c.Close ∧ ∀ k, c.Close.view k = none := by
  obtain ⟨hout, -, hview⟩ := Clear_spec h hopen
  have hclose : c.Close = { c.Clear with closed := true } := by simp [Close, hopen]
  rw [hclose]
  exact ⟨hout.setClosed true, hview⟩

/-- Only `Close` changes the flag, and only of an open cache. -/
theorem invoke_keeps (h : Valid c) {x : PublicOp K V} (hx : c.closed = true ∨ x ≠ .close) :
    Outcome c (c.invoke x) := by
  cases hclosed : c.closed with
  | true =>
    rcases invoke_closed hclosed x with hsame | ⟨items, rfl⟩ | ⟨selectFn, max, rfl⟩
    · rw [hsame]
      exact Outcome.refl h
    · exact (Import_spec h items).1
    · exact (Export_spec h selectFn max).1
  | false =>
    cases x with
    | op o => exact step_outcome h hclosed o
    | setWithCallback key value ttl =>
      simp only [invoke, SetWithCallback, hclosed, Bool.false_eq_true, if_false]
      exact (Set_spec h hclosed key value ttl).1.outcome
    | triggerCleanup interval =>
      simp only [invoke, TriggerCleanup, hclosed, Bool.false_eq_true, if_false]
      split
      · exact (cleanup_spec h hclosed).1
      · exact Outcome.refl h
    | close => simp [hclosed] at hx

theorem closed_invoke (h : Valid c) (x : PublicOp K V) :
    (c.invoke x).closed = true ↔ c.closed = true ∨ x = .close := by
  by_cases hx : c.closed = true ∨ x ≠ .close
  · rw [(invoke_keeps h hx).shape.closed]
    tauto
  · obtain ⟨hopen, hclose⟩ := not_or.mp hx
    obtain rfl := not_not.mp hclose
    simp [invoke, Close, hopen]

/-- Every call leaves the cache valid and keeps everything but the flag of its shape. -/
theorem invoke_outcome (h : Valid c) (x : PublicOp K V) :
    Outcome { c with closed := (c.invoke x).closed } (c.invoke x) := by
  by_cases hx : c.closed = true ∨ x ≠ .close
  · have hkeep := invoke_keeps h hx
    rw [hkeep.shape.closed]
    exact hkeep
  · obtain ⟨hopen, hclose⟩ := not_or.mp hx
    obtain rfl := not_not.mp hclose
    rw [(closed_invoke h .close).mpr (.inr rfl)]
    exact (Close_spec h (Bool.eq_false_iff.mpr hopen)).1

theorem serve_outcome (h : Valid c) (ops : List (PublicOp K V)) :
    Outcome { c with closed := (c.serve ops).closed } (c.serve ops) := by
  induction ops generalizing c with
  | nil => exact Outcome.refl h
  | cons x ops ih =>
    have hfirst := invoke_outcome h x
    have hrest := ih hfirst.valid
    exact (hfirst.setClosed (c.serve (x :: ops)).closed).trans hrest

theorem serve_valid (h : Valid c) (ops : List (PublicOp K V)) : Valid (c.serve ops) :=
  (serve_outcome h ops).valid

/-- The flag is set by `Close` and never taken back. -/
theorem closed_serve (h : Valid c) (ops : List (PublicOp K V)) :
    (c.serve ops).closed = true ↔ c.closed = true ∨ .close ∈ ops := by
  induction ops generalizing c with
  | nil => simp [serve]
  | cons x ops ih =>
    have hrest := ih (invoke_outcome h x).valid
    rw [closed_invoke h] at hrest
    rw [List.mem_cons, ← or_assoc, eq_comm (b := x)]
    exact hrest

end InMemoryCache

end Kioshun
