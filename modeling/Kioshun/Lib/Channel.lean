import Mathlib.Data.List.Basic

/-!
# Buffered channels

A channel holds at most `cap` values that have been sent and not yet received. Sending
waits for room and receiving waits for a value. Once the channel is closed what is
left can still be received, and then every receive returns without a value. Sending
on a closed channel and closing a channel a second time end the program.
-/

universe u

structure Chan (α : Type u) where
  cap : Nat
  buf : List α
  closed : Bool
  deriving DecidableEq

namespace Chan

variable {α : Type u}

/-- What an operation on a channel does. -/
inductive Effect (α : Type u) where
  | ok (c : Chan α)
  | blocks
  | panics

def make (cap : Nat) : Chan α := ⟨cap, [], false⟩

def send (c : Chan α) (a : α) : Effect α :=
  if c.closed then .panics
  else if c.buf.length < c.cap then .ok { c with buf := c.buf ++ [a] }
  else .blocks

def close (c : Chan α) : Effect α :=
  if c.closed then .panics else .ok { c with closed := true }

/-- `none` if the receive waits; the value is `none` if the channel is closed and empty. -/
def recv (c : Chan α) : Option (Option α × Chan α) :=
  match c.buf with
  | a :: buf => some (some a, { c with buf := buf })
  | [] => if c.closed then some (none, c) else none

variable {c c' : Chan α} {a : α}

theorem send_of_room (hopen : c.closed = false) (hroom : c.buf.length < c.cap) :
    c.send a = .ok { c with buf := c.buf ++ [a] } := by
  simp [send, hopen, hroom]

theorem close_of_open (hopen : c.closed = false) : c.close = .ok { c with closed := true } := by
  simp [close, hopen]

/-- A receive that returns takes the first value, or finds the channel closed and empty. -/
theorem recv_cases {r : Option α} (h : c.recv = some (r, c')) :
    (∃ a buf, c.buf = a :: buf ∧ r = some a ∧ c' = { c with buf := buf }) ∨
      (c.buf = [] ∧ c.closed = true ∧ r = none ∧ c' = c) := by
  unfold recv at h
  cases hbuf : c.buf with
  | cons a buf =>
    rw [hbuf] at h
    cases h
    exact .inl ⟨a, buf, rfl, rfl, rfl⟩
  | nil =>
    rw [hbuf] at h
    cases hclosed : c.closed with
    | false => simp [hclosed] at h
    | true =>
      simp only [hclosed, if_true, Option.some.injEq, Prod.mk.injEq] at h
      exact .inr ⟨rfl, rfl, h.1.symm, h.2.symm⟩

end Chan
