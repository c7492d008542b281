import Mathlib.Data.List.InsertIdx
import Mathlib.Data.List.Perm.Basic

/-!
# Iteration in an unspecified order

A stream of numbers decides the order in which the elements of a list are
visited. Each element is inserted at an arbitrary position among those that
follow it, so every permutation is the result for some stream.
-/

namespace Iteration

universe u
variable {α : Type u}

def shuffle (pick : Nat → Nat) : List α → List α
  | [] => []
  | x :: xs =>
    (shuffle (fun i => pick (i + 1)) xs).insertIdx (pick 0 % (xs.length + 1)) x

theorem shuffle_perm (pick : Nat → Nat) (l : List α) : (shuffle pick l).Perm l := by
  induction l generalizing pick with
  | nil => exact List.Perm.nil
  | cons x xs ih =>
    have hrest := ih (fun i => pick (i + 1))
    have hpos : pick 0 % (xs.length + 1) ≤ (shuffle (fun i => pick (i + 1)) xs).length := by
      rw [hrest.length_eq]
      exact Nat.lt_succ_iff.mp (Nat.mod_lt _ (Nat.succ_pos _))
    exact (List.perm_insertIdx x _ hpos).trans (hrest.cons x)

@[simp] theorem mem_shuffle {pick : Nat → Nat} {l : List α} {a : α} : a ∈ shuffle pick l ↔ a ∈ l :=
  (shuffle_perm pick l).mem_iff

@[simp] theorem length_shuffle (pick : Nat → Nat) (l : List α) :
    (shuffle pick l).length = l.length :=
  (shuffle_perm pick l).length_eq

end Iteration
