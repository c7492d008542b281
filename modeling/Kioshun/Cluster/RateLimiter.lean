import Kioshun.Lib.Schedule

/-!
# The rate limiter

`Allow` takes a token and a tick puts the tokens back to `max`. Between two ticks no
more than `max` requests are let through, in whatever order calls and ticks come.
-/

namespace Kioshun

/-- `rateLimiter`; its lock is held for each of the events. -/
structure RateLimiter where
  max : Int
  tokens : Int

inductive RateLimiter.Event where
  | allow
  | refill
  deriving DecidableEq

namespace RateLimiter

def newRateLimiter (max : Int) : RateLimiter := ⟨max, max⟩

def Allow (r : RateLimiter) : Bool × RateLimiter :=
  if r.tokens ≤ 0 then (false, r) else (true, { r with tokens := r.tokens - 1 })

def step (r : RateLimiter) : Event → RateLimiter
  | .allow => r.Allow.2
  | .refill => { r with tokens := r.max }

def granted (r : RateLimiter) : Event → Nat
  | .allow => r.Allow.1.toNat
  | .refill => 0

theorem tally_granted (r : RateLimiter) (es : List Event) :
    ∃ w ws, es.splitOnP (· = .refill) = w :: ws ∧ Schedule.tally step granted r es =
      min r.tokens.toNat w.length + (ws.map fun w => min r.max.toNat w.length).sum := by
  induction es generalizing r with
  | nil => exact ⟨[], [], rfl, by simp [Schedule.tally, Schedule.turns]⟩
  | cons e es ih =>
    obtain ⟨w, ws, hsplit, hsum⟩ := ih (r.step e)
    rw [List.splitOnP_cons_eq_if_modifyHead, hsplit, Schedule.tally_cons, hsum]
    cases e with
    | refill => exact ⟨[], w :: ws, by simp, by simp [step, granted]⟩
    | allow =>
      refine ⟨.allow :: w, ws, by simp, ?_⟩
      simp only [step, granted, Allow]
      split <;> simp <;> omega

/-- Between two ticks as many requests are let through as there are, up to `max`. -/
theorem exec_grants (max : Int) (es : List Event) :
    Schedule.tally step granted (newRateLimiter max) es =
      ((es.splitOnP (· = .refill)).map fun w => min max.toNat w.length).sum := by
  obtain ⟨w, ws, hsplit, hsum⟩ := tally_granted (newRateLimiter max) es
  rw [hsplit, hsum]
  rfl

end RateLimiter

end Kioshun
