import Mathlib.Data.List.AList

/-!
# A map that many threads use at once

The operations of a concurrent map on one key are atomic. A traversal is not: while it
runs the map may change, and it reflects for each key some mapping that the key had
since the traversal began. No key is visited twice, and a mapping that was there all
the time is not left out.
-/

universe u v

def SyncMap (κ : Type u) (ν : Type v) : Type (max u v) := AList fun _ : κ => ν

namespace SyncMap
variable {κ : Type u} {ν : Type v} [DecidableEq κ] {m : SyncMap κ ν} {k k' : κ} {v : ν}

def empty : SyncMap κ ν := (∅ : AList fun _ : κ => ν)

def Load (m : SyncMap κ ν) (k : κ) : Option ν := AList.lookup k m

def Store (m : SyncMap κ ν) (k : κ) (v : ν) : SyncMap κ ν := AList.insert k v m

def Delete (m : SyncMap κ ν) (k : κ) : SyncMap κ ν := AList.erase k m

@[simp] theorem Load_empty : (empty : SyncMap κ ν).Load k = none := AList.lookup_empty k

theorem Load_Store : (m.Store k v).Load k' = if k' = k then some v else m.Load k' := by
  by_cases hk : k' = k
  · subst hk
    rw [if_pos rfl]
    exact AList.lookup_insert m
  · rw [if_neg hk]
    exact AList.lookup_insert_ne hk

theorem Load_Delete : (m.Delete k).Load k' = if k' = k then none else m.Load k' := by
  by_cases hk : k' = k
  · subst hk
    rw [if_pos rfl]
    exact AList.lookup_erase k' m
  · rw [if_neg hk]
    exact AList.lookup_erase_ne hk

theorem Load_of_Delete (h : (m.Delete k).Load k' = some v) : k' ≠ k ∧ m.Load k' = some v := by
  rw [Load_Delete] at h
  split at h
  · cases h
  · exact ⟨‹_›, h⟩

/-- A traversal that is under way: the map when it began, the keys it has come to, and the mappings
that it has read and not yet handed over. -/
structure Traversal (κ : Type u) (ν : Type v) where
  initial : SyncMap κ ν
  visited : List κ
  found : List (κ × ν)

namespace Traversal
variable {r : Traversal κ ν}

def begin (m : SyncMap κ ν) : Traversal κ ν := ⟨m, [], []⟩

/-- The traversal comes to a key. -/
def look (r : Traversal κ ν) (m : SyncMap κ ν) (k : κ) : Traversal κ ν :=
  if r.visited.contains k then r
  else
    match m.Load k with
    | none => r
    | some v => { r with visited := k :: r.visited, found := r.found ++ [(k, v)] }

/-- A mapping is handed over. -/
def hand (r : Traversal κ ν) (i : Nat) : Traversal κ ν :=
  { r with found := r.found.eraseIdx i }

/-- The traversal may end. -/
def done [DecidableEq ν] (r : Traversal κ ν) (m : SyncMap κ ν) : Bool :=
  r.found.isEmpty &&
    r.initial.entries.all fun e => decide (m.Load e.1 ≠ some e.2) || r.visited.contains e.1

end Traversal

end SyncMap
